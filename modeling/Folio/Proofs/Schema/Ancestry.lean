import Mathlib.Logic.Function.Iterate
import Mathlib.Logic.Relation
import Folio.Schema.Lineage

/-!
# Ancestry

The ancestors of a class are found with a stack of classes that are still to be
visited. A class may stand on the stack more than once, and is looked at again each
time it is taken off. The order is that of the traversal that goes down from each
class to its parents in turn, as the stack is work that is still to be done.

Results:
* `visit_append`: what stands higher on the stack is done first, and then the rest.
* `rounds_visit`: the stack gets empty, in as many rounds as references are put there.
* `visit_singleton`: one class is visited as the recursive traversal does it.
* `mem_lineage_iff`: the lineage has the declarations of what can be reached.
* `lineage_preorder`: all of that for a class, and what it makes of `isA`.
-/
namespace Folio.Schema

variable {s : Schema} {known : ClassRef → Prop} {seen : List EntityClass} {stack : List ClassRef}
  {c p : ClassRef} {d e : EntityClass}

/-- The second class is declared as a parent of the first. -/
def Parent (s : Schema) (c p : ClassRef) : Prop := ∃ d, s.find? c = some d ∧ p ∈ d.parents

/-- A reference that leads to a declaration leads to one of its own name. -/
def Proper (s : Schema) (c : ClassRef) : Prop := ∀ d, s.find? c = some d → d.name = c.name

/-- A family of classes with their ancestors, all of them declared, in which a name
identifies one of them. Parents may form circles. -/
structure Identifies (s : Schema) (known : ClassRef → Prop) : Prop where
  declared : ∀ c, known c → ∃ d, s.find? c = some d ∧ d.name = c.name
  parents : ∀ c p, known c → s.Parent c p → known p
  names : ∀ c c', known c → known c' → c.name = c'.name → c = c'

/-! ## The stack -/

theorem visit_prefix (s : Schema) (seen : List EntityClass) (stack : List ClassRef) :
    seen <+: s.visit seen stack := by
  fun_induction visit s seen stack with
  | case1 => exact List.prefix_rfl
  | case2 _ _ _ _ ih => exact ih
  | case3 _ _ _ _ _ _ ih => exact ih
  | case4 _ _ _ _ _ _ ih => exact (List.prefix_append _ _).trans ih

/-- A declared class is of its own lineage. -/
theorem isA_self (hc : s.Proper c) (hd : s.find? c = some d) : s.isA c c = true := by
  have hmem : d ∈ s.lineage c := by
    rw [lineage_eq hd]
    exact (s.visit_prefix [d] d.parents).subset List.mem_cons_self
  exact List.any_eq_true.2 ⟨d, hmem, beq_iff_eq.2 (hc d hd)⟩

theorem visit_cons_of_none (h : s.find? c = none) :
    s.visit seen (c :: stack) = s.visit seen stack := by
  rw [visit]
  split
  · rfl
  · next hd => rw [h] at hd; cases hd

theorem visit_cons_of_seen (h : s.find? c = some d)
    (hn : (seen.map (·.name)).contains d.name = true) :
    s.visit seen (c :: stack) = s.visit seen stack := by
  rw [visit]
  split
  · rfl
  · next hd =>
    rw [h] at hd
    cases hd
    rw [dif_pos hn]

theorem visit_cons_of_new (h : s.find? c = some d)
    (hn : ¬ (seen.map (·.name)).contains d.name = true) :
    s.visit seen (c :: stack) = s.visit (seen ++ [d]) (d.parents ++ stack) := by
  rw [visit]
  split
  · next hd => rw [h] at hd; cases hd
  · next hd =>
    rw [h] at hd
    cases hd
    rw [dif_neg hn]

/-- What stands higher on the stack is done first, and then the rest. -/
theorem visit_append (s : Schema) (seen : List EntityClass) (stack rest : List ClassRef) :
    s.visit seen (stack ++ rest) = s.visit (s.visit seen stack) rest := by
  fun_induction visit s seen stack with
  | case1 => rfl
  | case2 seen c stack hd ih => rw [List.cons_append, visit_cons_of_none hd, ih]
  | case3 seen c stack d hd hn ih => rw [List.cons_append, visit_cons_of_seen hd hn, ih]
  | case4 seen c stack d hd hn ih =>
    rw [List.cons_append, visit_cons_of_new hd hn, ← List.append_assoc, ih]

theorem visit_eq_foldl (s : Schema) (seen : List EntityClass) (stack : List ClassRef) :
    s.visit seen stack = stack.foldl (fun visited c => s.visit visited [c]) seen := by
  induction stack generalizing seen with
  | nil => rw [visit, List.foldl_nil]
  | cons c rest ih => rw [← List.singleton_append, visit_append, ih, List.foldl_append]; rfl

/-- One round: the topmost class is taken off the stack. If it is visited now, its
parents are put there. -/
def round (s : Schema) : List EntityClass × List ClassRef → List EntityClass × List ClassRef
  | (seen, []) => (seen, [])
  | (seen, c :: rest) =>
    match s.find? c with
    | none => (seen, rest)
    | some d =>
      if (seen.map (·.name)).contains d.name then (seen, rest)
      else (seen ++ [d], d.parents ++ rest)

/-- The stack gets empty. Each round takes one reference off, and the parents of each
class are put there once, so the number of rounds is known. -/
theorem rounds_visit (s : Schema) (seen : List EntityClass) (stack : List ClassRef) :
    ∃ added, s.visit seen stack = seen ++ added ∧
      s.round^[stack.length + (added.flatMap (·.parents)).length] (seen, stack) =
        (s.visit seen stack, []) := by
  fun_induction visit s seen stack with
  | case1 seen => exact ⟨[], (List.append_nil seen).symm, rfl⟩
  | case2 seen c rest hd ih =>
    obtain ⟨added, hvisit, hrounds⟩ := ih
    refine ⟨added, hvisit, ?_⟩
    rw [List.length_cons, Nat.add_right_comm, Function.iterate_succ_apply, round]
    simp only [hd]
    exact hrounds
  | case3 seen c rest d hd hn ih =>
    obtain ⟨added, hvisit, hrounds⟩ := ih
    refine ⟨added, hvisit, ?_⟩
    rw [List.length_cons, Nat.add_right_comm, Function.iterate_succ_apply, round]
    simp only [hd, hn, if_true]
    exact hrounds
  | case4 seen c rest d hd hn ih =>
    obtain ⟨added, hvisit, hrounds⟩ := ih
    refine ⟨d :: added, by rw [hvisit, List.append_assoc, List.singleton_append], ?_⟩
    have hcount : (c :: rest).length + ((d :: added).flatMap (·.parents)).length =
        ((d.parents ++ rest).length + (added.flatMap (·.parents)).length) + 1 := by
      simp only [List.length_cons, List.flatMap_cons, List.length_append]
      omega
    rw [hcount, Function.iterate_succ_apply, round]
    simp only [hd, if_neg hn]
    exact hrounds

/-- A round leaves what will have been visited in the end. -/
theorem visit_round (s : Schema) (x : List EntityClass × List ClassRef) :
    s.visit (s.round x).1 (s.round x).2 = s.visit x.1 x.2 := by
  obtain ⟨seen, _ | ⟨c, rest⟩⟩ := x
  · rfl
  cases hd : s.find? c with
  | none => rw [visit_cons_of_none hd, round, hd]
  | some d =>
    by_cases hn : (seen.map (·.name)).contains d.name = true
    · rw [visit_cons_of_seen hd hn, round, hd]
      simp only [hn, if_true]
    · rw [visit_cons_of_new hd hn, round, hd]
      simp only [if_neg hn]

/-- Once the stack is empty, the lineage is what has been visited. -/
theorem lineage_of_rounds {n : Nat} (h : s.round^[n] ([], [c]) = (seen, [])) :
    s.lineage c = seen := by
  have hrun : ∀ n x, s.visit (s.round^[n] x).1 (s.round^[n] x).2 = s.visit x.1 x.2 := by
    intro n
    induction n with
    | zero => exact fun _ => rfl
    | succ n ih => exact fun x => (ih (s.round x)).trans (s.visit_round x)
  have hvisit := hrun n ([], [c])
  rw [h, visit] at hvisit
  exact hvisit.symm

/-! ## The recursive traversal -/

theorem unseen_le {visited : List EntityClass} (h : seen <+: visited) :
    (s.unseen visited).length ≤ (s.unseen seen).length := by
  obtain ⟨added, rfl⟩ := h
  simp only [unseen, ← List.countP_eq_length_filter]
  refine List.countP_mono_left fun n _ hn => ?_
  simp only [List.map_append, List.contains_eq_mem, List.mem_append, Bool.not_eq_true',
    decide_eq_false_iff_not, not_or] at hn ⊢
  exact hn.1

/-- The recursive traversal. A class of a name that has not been visited is visited,
and then each of its parents in turn. What has been visited stays in front. -/
def descend (s : Schema) (seen : List EntityClass) (c : ClassRef) :
    { visited : List EntityClass // seen <+: visited } :=
  match _hd : s.find? c with
  | none => ⟨seen, List.prefix_rfl⟩
  | some d =>
    if _hn : (seen.map (·.name)).contains d.name then ⟨seen, List.prefix_rfl⟩
    else
      let visited : { visited : List EntityClass // seen ++ [d] <+: visited } :=
        d.parents.foldl (fun visited p => ⟨(s.descend visited.1 p).1,
          visited.2.trans (s.descend visited.1 p).2⟩) ⟨seen ++ [d], List.prefix_rfl⟩
      ⟨visited.1, (List.prefix_append seen [d]).trans visited.2⟩
termination_by (s.unseen seen).length
decreasing_by
  all_goals exact Nat.lt_of_le_of_lt (unseen_le visited.2) (unseen_lt _hd (by simpa using _hn))

/-- One class is visited as the recursive traversal does it. -/
theorem visit_singleton (s : Schema) (seen : List EntityClass) (c : ClassRef) :
    s.visit seen [c] = (s.descend seen c).1 := by
  fun_induction descend s seen c with
  | case1 seen c hd => rw [visit_cons_of_none hd, visit]
  | case2 seen c d hd hn => rw [visit_cons_of_seen hd hn, visit]
  | case3 seen c d hd hn visited ih =>
    rw [visit_cons_of_new hd hn, List.append_nil, visit_eq_foldl]
    let first : { visited : List EntityClass // seen ++ [d] <+: visited } :=
      ⟨seen ++ [d], List.prefix_rfl⟩
    show d.parents.foldl _ first.1 = visited.1
    refine List.foldl_hom Subtype.val ?_
    exact ih

/-! ## What is visited -/

theorem name_mem_visit (hc : c ∈ stack) (hd : s.find? c = some d) :
    d.name ∈ (s.visit seen stack).map (·.name) := by
  obtain ⟨above, below, rfl⟩ := List.append_of_mem hc
  rw [visit_append]
  by_cases hn : ((s.visit seen above).map (·.name)).contains d.name = true
  · rw [List.contains_iff_mem] at hn
    exact ((s.visit_prefix _ _).map _).subset hn
  · rw [visit_cons_of_new hd hn]
    refine ((s.visit_prefix _ _).map _).subset ?_
    rw [List.map_append]
    exact List.mem_append_right _ List.mem_cons_self

/-- Whatever is visited can be reached from the stack. -/
theorem reachable_of_mem_visit (h : d ∈ s.visit seen stack) :
    d ∈ seen ∨ ∃ c ∈ stack, ∃ a, Relation.ReflTransGen s.Parent c a ∧ s.find? a = some d := by
  fun_induction visit s seen stack with
  | case1 => exact .inl h
  | case2 seen c rest hc ih =>
    rcases ih h with hseen | ⟨b, hb, hreach⟩
    · exact .inl hseen
    · exact .inr ⟨b, List.mem_cons_of_mem c hb, hreach⟩
  | case3 seen c rest e hc hn ih =>
    rcases ih h with hseen | ⟨b, hb, hreach⟩
    · exact .inl hseen
    · exact .inr ⟨b, List.mem_cons_of_mem c hb, hreach⟩
  | case4 seen c rest e hc hn ih =>
    rcases ih h with hseen | ⟨b, hb, a, hreach, ha⟩
    · rcases List.mem_append.1 hseen with hseen | hnew
      · exact .inl hseen
      · rw [List.mem_singleton] at hnew
        subst hnew
        exact .inr ⟨c, List.mem_cons_self, c, .refl, hc⟩
    · rcases List.mem_append.1 hb with hparent | hb
      · exact .inr ⟨c, List.mem_cons_self, a, hreach.head ⟨e, hc, hparent⟩, ha⟩
      · exact .inr ⟨b, List.mem_cons_of_mem c hb, a, hreach, ha⟩

/-- With a class its parents are visited, by their names. -/
theorem name_mem_visit_parent (h : d ∈ s.visit seen stack) :
    d ∈ seen ∨ ∀ p ∈ d.parents, ∀ e, s.find? p = some e →
      e.name ∈ (s.visit seen stack).map (·.name) := by
  fun_induction visit s seen stack with
  | case1 => exact .inl h
  | case2 _ _ _ _ ih => exact ih h
  | case3 _ _ _ _ _ _ ih => exact ih h
  | case4 seen c rest new hc hn ih =>
    rcases ih h with hseen | hparents
    · rcases List.mem_append.1 hseen with hseen | hnew
      · exact .inl hseen
      · rw [List.mem_singleton] at hnew
        subst hnew
        exact .inr fun p hp e he => name_mem_visit (List.mem_append_left _ hp) he
    · exact .inr hparents

/-! ## Reachable classes -/

namespace Identifies

theorem proper (hs : s.Identifies known) (hc : known c) : s.Proper c := by
  intro d hd
  obtain ⟨e, he, hname⟩ := hs.declared c hc
  rw [he] at hd
  cases hd
  exact hname

theorem reach (hs : s.Identifies known) (hc : known c) {a : ClassRef}
    (h : Relation.ReflTransGen s.Parent c a) : known a := by
  induction h with
  | refl => exact hc
  | tail _ hparent hb => exact hs.parents _ _ hb hparent

/-- Where a name stands for one class, what was visited by its name was visited. -/
theorem mem_of_name_mem (hs : s.Identifies known) (hc : known c) (hp : known p)
    (he : s.find? p = some e) (h : e.name ∈ (s.lineage c).map (·.name)) : e ∈ s.lineage c := by
  obtain ⟨d, hd, hname⟩ := List.mem_map.1 h
  rcases reachable_of_mem_visit hd with hnone | ⟨b, hb, a, hreach, ha⟩
  · cases hnone
  rw [List.mem_singleton] at hb
  subst hb
  have hknown := hs.reach hc hreach
  have hsame : a.name = p.name := by
    rw [← hs.proper hknown d ha, ← hs.proper hp e he, hname]
  rw [hs.names a p hknown hp hsame, he] at ha
  cases ha
  exact hd

/-- The lineage has the declarations of what can be reached. -/
theorem mem_lineage_iff (hs : s.Identifies known) (hc : known c) :
    d ∈ s.lineage c ↔ ∃ a, Relation.ReflTransGen s.Parent c a ∧ s.find? a = some d := by
  constructor
  · intro h
    rcases reachable_of_mem_visit h with hnone | ⟨b, hb, hreach⟩
    · cases hnone
    · rw [List.mem_singleton] at hb
      subst hb
      exact hreach
  · rintro ⟨a, hreach, ha⟩
    induction hreach generalizing d with
    | refl => exact hs.mem_of_name_mem hc hc ha (name_mem_visit List.mem_cons_self ha)
    | tail hreach hparent ih =>
      have hknown := hs.parents _ _ (hs.reach hc hreach) hparent
      obtain ⟨b, hb, hmem⟩ := hparent
      rcases name_mem_visit_parent (ih hb) with hnone | hparents
      · cases hnone
      · exact hs.mem_of_name_mem hc hknown ha (hparents _ hmem _ ha)

theorem isA_iff (hs : s.Identifies known) (hc : known c) {a : ClassRef} (ha : known a) :
    s.isA c a = true ↔ Relation.ReflTransGen s.Parent c a := by
  rw [isA, List.any_eq_true]
  constructor
  · rintro ⟨d, hd, hname⟩
    obtain ⟨b, hreach, hb⟩ := (hs.mem_lineage_iff hc).1 hd
    have hknown := hs.reach hc hreach
    have hsame : b.name = a.name := by rw [← hs.proper hknown d hb, eq_of_beq hname]
    rwa [← hs.names b a hknown ha hsame]
  · intro hreach
    obtain ⟨d, hfind, hnamed⟩ := hs.declared a ha
    exact ⟨d, (hs.mem_lineage_iff hc).2 ⟨a, hreach, hfind⟩, beq_iff_eq.2 hnamed⟩

end Identifies

/-- The lineage of a class of such a family, found with a stack in as many rounds as
there are references to look at, is what the recursive traversal visits. It begins with
the class itself, and has each class that can be reached through parents once and
nothing else; being of a class is reaching it. -/
theorem lineage_preorder (hs : s.Identifies known) (hc : known c) :
    s.round^[1 + ((s.lineage c).flatMap (·.parents)).length] ([], [c]) = (s.lineage c, []) ∧
    s.lineage c = (s.descend [] c).1 ∧
    (∃ d, s.find? c = some d ∧ (s.lineage c).head? = some d) ∧
    ((s.lineage c).map (·.name)).Nodup ∧
    (∀ d, d ∈ s.lineage c ↔ ∃ a, Relation.ReflTransGen s.Parent c a ∧ s.find? a = some d) ∧
    ∀ a, known a → (s.isA c a = true ↔ Relation.ReflTransGen s.Parent c a) := by
  obtain ⟨d, hd, -⟩ := hs.declared c hc
  have hrounds : s.round^[1 + ((s.lineage c).flatMap (·.parents)).length] ([], [c]) =
      (s.lineage c, []) := by
    obtain ⟨added, hvisit, hrounds⟩ := s.rounds_visit [] [c]
    rw [List.nil_append] at hvisit
    rw [lineage]
    rwa [← hvisit] at hrounds
  have hhead : (s.lineage c).head? = some d := by
    obtain ⟨rest, hrest⟩ := s.visit_prefix [d] d.parents
    rw [lineage_eq hd, ← hrest]
    rfl
  exact ⟨hrounds, s.visit_singleton [] c, ⟨d, hd, hhead⟩, s.lineage_nodup c,
    fun _ => hs.mem_lineage_iff hc, fun _ => hs.isA_iff hc⟩

/-- The references to the declared classes. -/
def refs (s : Schema) : List ClassRef := s.classes.zipIdx.map fun d => ⟨d.2, d.1.name⟩

/-- A class with two parents that share one, which has the class as a parent again. -/
def kinship : Schema where
  classes :=
    [{ name := "Child", form := .trait, parents := [⟨1, "Mother"⟩, ⟨2, "Father"⟩] },
      { name := "Mother", form := .trait, parents := [⟨3, "Elder"⟩] },
      { name := "Father", form := .trait, parents := [⟨3, "Elder"⟩] },
      { name := "Elder", form := .trait, parents := [⟨0, "Child"⟩] }]

theorem identifies_kinship : kinship.Identifies (· ∈ kinship.refs) where
  declared := by decide
  parents := by
    rintro c p hc ⟨d, hd, hp⟩
    have hall : ∀ c ∈ kinship.refs, ∀ d ∈ kinship.find? c, ∀ p ∈ d.parents, p ∈ kinship.refs := by
      decide
    exact hall c hc d hd p hp
  names := by
    have hall : ∀ c ∈ kinship.refs, ∀ c' ∈ kinship.refs, c.name = c'.name → c = c' := by decide
    exact fun c c' hc hc' => hall c hc c' hc'

theorem lineage_preorder_kinship :
    kinship.Identifies (· ∈ kinship.refs) ∧ ⟨0, "Child"⟩ ∈ kinship.refs ∧
    kinship.round^[6] ([], [⟨0, "Child"⟩]) = (kinship.lineage ⟨0, "Child"⟩, []) ∧
    (kinship.descend [] ⟨0, "Child"⟩).1.map (·.name) = ["Child", "Mother", "Elder", "Father"] ∧
    Relation.ReflTransGen kinship.Parent ⟨0, "Child"⟩ ⟨3, "Elder"⟩ := by
  have hc : (⟨0, "Child"⟩ : ClassRef) ∈ kinship.refs := by decide
  have hp : (⟨3, "Elder"⟩ : ClassRef) ∈ kinship.refs := by decide
  obtain ⟨hrounds, hdescend, -, -, -, hisA⟩ := lineage_preorder identifies_kinship hc
  have hlineage : kinship.lineage ⟨0, "Child"⟩ = (kinship.round^[6] ([], [⟨0, "Child"⟩])).1 :=
    lineage_of_rounds (n := 6) (by decide)
  have hnames : (kinship.lineage ⟨0, "Child"⟩).map (·.name) =
      ["Child", "Mother", "Elder", "Father"] := by
    rw [hlineage]
    decide
  have hcount : ((kinship.lineage ⟨0, "Child"⟩).flatMap (·.parents)).length = 5 := by
    rw [hlineage]
    decide
  have helder : kinship.isA ⟨0, "Child"⟩ ⟨3, "Elder"⟩ = true := by
    rw [isA, hlineage]
    decide
  rw [hcount] at hrounds
  exact ⟨identifies_kinship, hc, hrounds, hdescend ▸ hnames, (hisA _ hp).1 helder⟩

end Folio.Schema
