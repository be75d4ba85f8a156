import Mathlib.Data.List.Nodup
import Folio.Schema.Lineage

/-!
# The methods of a class

A class has the base methods and what is declared along its lineage. Of methods with
one name and one number of parameters the first declared counts. Where no two of
them differ, it does not matter in which order they are declared.

Results:
* `eq_of_mem_allMethods`: methods of a class are told apart by their names and
  numbers of parameters.
* `mem_allMethods_iff`: where each is declared one way, all that are declared are there.
-/
namespace Folio.Schema

variable {s : Schema} {c : ClassRef}

/-- What methods of a class are told apart by. -/
def signature (m : Method) : String × Nat := (m.name, m.params.length)

theorem addMethod_nodup {methods : List Method} (h : (methods.map signature).Nodup) (m : Method) :
    ((addMethod methods m).map signature).Nodup := by
  unfold addMethod
  split
  · exact h
  · next hnone =>
    rw [List.map_append, List.map_singleton]
    refine List.nodup_append.2 ⟨h, List.nodup_singleton _, ?_⟩
    intro a ha b hb heq
    rw [List.mem_singleton] at hb
    obtain ⟨n, hn, hsame⟩ := List.mem_map.1 (heq.trans hb ▸ ha)
    obtain ⟨hname, hparams⟩ := Prod.mk.inj hsame
    refine hnone (List.any_eq_true.2 ⟨n, hn, ?_⟩)
    rw [hname, hparams, beq_self_eq_true, beq_self_eq_true]
    rfl

theorem allMethods_nodup (s : Schema) (c : ClassRef) :
    ((s.allMethods c).map signature).Nodup :=
  List.foldlRecOn (motive := fun ms : List Method => (ms.map signature).Nodup)
    _ addMethod List.nodup_nil fun _ h m _ => addMethod_nodup h m

theorem eq_of_mem_allMethods {m n : Method} (hm : m ∈ s.allMethods c) (hn : n ∈ s.allMethods c)
    (h : signature m = signature n) : m = n :=
  List.inj_on_of_nodup_map (allMethods_nodup s c) hm hn h

theorem mem_foldl_addMethod {ms methods : List Method} {m : Method}
    (h : m ∈ ms.foldl addMethod methods) : m ∈ methods ∨ m ∈ ms := by
  induction ms generalizing methods with
  | nil => exact .inl h
  | cons n rest ih =>
    rcases ih h with h | h
    · unfold addMethod at h
      split at h
      · exact .inl h
      · rcases List.mem_append.1 h with h | h
        · exact .inl h
        · exact .inr (List.mem_cons.2 (.inl (List.mem_singleton.1 h)))
    · exact .inr (List.mem_cons_of_mem n h)

theorem foldl_addMethod (ms methods : List Method) :
    ∃ rest, ms.foldl addMethod methods = methods ++ rest := by
  induction ms generalizing methods with
  | nil => exact ⟨[], (List.append_nil methods).symm⟩
  | cons m ms ih =>
    obtain ⟨rest, h⟩ := ih (addMethod methods m)
    rw [List.foldl_cons, h]
    unfold addMethod
    split
    · exact ⟨rest, rfl⟩
    · exact ⟨m :: rest, by rw [List.append_assoc, List.singleton_append]⟩

theorem mem_foldl_of_mem {ms methods : List Method} {m : Method} (h : m ∈ methods) :
    m ∈ ms.foldl addMethod methods := by
  obtain ⟨rest, heq⟩ := foldl_addMethod ms methods
  rw [heq]
  exact List.mem_append_left rest h

/-- A method is added if no other has its name and its number of parameters. -/
theorem mem_foldl_of_alone {ms methods : List Method} {m : Method} (hm : m ∈ ms)
    (h : ∀ n, n ∈ methods ∨ n ∈ ms → n.name = m.name → n.params.length = m.params.length → n = m) :
    m ∈ ms.foldl addMethod methods := by
  induction ms generalizing methods with
  | nil => cases hm
  | cons n rest ih =>
    rcases List.mem_cons.1 hm with rfl | hm
    · rw [List.foldl_cons]
      refine mem_foldl_of_mem ?_
      unfold addMethod
      split
      · next hany =>
        obtain ⟨n, hn, hsame⟩ := List.any_eq_true.1 hany
        rw [Bool.and_eq_true, beq_iff_eq, beq_iff_eq] at hsame
        exact h n (.inl hn) hsame.1 hsame.2 ▸ hn
      · exact List.mem_append_right _ List.mem_cons_self
    · refine ih hm fun k hk => h k ?_
      rcases hk with hk | hk
      · have hk : k ∈ [n].foldl addMethod methods := hk
        rcases mem_foldl_addMethod hk with hk | hk
        · exact .inl hk
        · exact .inr (List.mem_cons.2 (.inl (List.mem_singleton.1 hk)))
      · exact .inr (List.mem_cons_of_mem n hk)

/-- The method is of every class, or declared along the lineage of this one. -/
def Declares (s : Schema) (c : ClassRef) (m : Method) : Prop :=
  m ∈ baseMethods ∨ ∃ d ∈ s.lineage c, m ∈ declared d

/-- The methods of a class are the base methods and declared ones. -/
theorem mem_allMethods {m : Method} (h : m ∈ s.allMethods c) : s.Declares c m := by
  rcases mem_foldl_addMethod h with h | h
  · cases h
  · rcases List.mem_append.1 h with h | h
    · exact .inl h
    · exact .inr (List.mem_flatMap.1 h)

/-- The base methods come first. -/
theorem allMethods_eq (s : Schema) (c : ClassRef) :
    ∃ rest, s.allMethods c = baseMethods ++ rest := by
  have : baseMethods.foldl addMethod [] = baseMethods := by decide
  rw [allMethods, List.foldl_append, this]
  exact foldl_addMethod _ _

theorem base_mem_allMethods {m : Method} (h : m ∈ baseMethods) : m ∈ s.allMethods c := by
  obtain ⟨rest, heq⟩ := allMethods_eq s c
  rw [heq]
  exact List.mem_append_left rest h

/-- Where each method is declared one way, all that are declared are there. -/
theorem mem_allMethods_iff
    (h : ∀ m n, s.Declares c m → s.Declares c n → signature m = signature n → m = n)
    {m : Method} : m ∈ s.allMethods c ↔ s.Declares c m := by
  have declares : ∀ n, n ∈ baseMethods ++ (s.lineage c).flatMap declared ↔ s.Declares c n := by
    intro n
    rw [List.mem_append, List.mem_flatMap]
    rfl
  refine ⟨mem_allMethods, fun hm => mem_foldl_of_alone ((declares m).2 hm) ?_⟩
  rintro n (hn | hn) hname hparams
  · cases hn
  · exact h n m ((declares n).1 hn) hm (Prod.ext hname hparams)

end Folio.Schema
