import Mathlib.Data.List.Forall2
import Folio.Proofs.Store.Changes

/-!
# What a scope hides

A scope is a filter, and documents that it does not match are hidden. Calls
whose filters ask for no more than what the scope shows are run side by side on
two stores that differ in hidden documents only: they answer alike, write the
same entries at places that belong together, and touch nothing hidden.

Results:
* `exists_twins`: entries with the same documents in the scope can be lined up.
* `Twins.matching`, `Twins.first?`: a search in the scope finds alike on both
  sides.
* `find_agrees`, `updateOne_agrees`, `updateMany_agrees`, …: so do the calls.
-/
namespace Folio

namespace Stored

/-- The entry can be read, and its document is out of the scope. -/
def Hidden (scope : Filter) (e : Stored) : Prop :=
  ∃ doc, e.document = .ok doc ∧ scope.matchesDoc doc = false

/-- The document of an entry, if it can be read and is in the scope. -/
def shown (scope : Filter) (e : Stored) : Option Document :=
  e.document.toOption.filter (scope.matchesDoc ·)

/-- The documents in the scope, in order. -/
def seen (scope : Filter) (entries : List Stored) : List Document := entries.filterMap (shown scope)

/-- Apart from hidden entries, what is read of the one list and of the other is
the same. `pairs` has the places that belong together, where the lists begin at
the places `k` and `m`. -/
inductive Twins (scope : Filter) :
    (k m : Nat) → (pairs : List (Nat × Nat)) → (entries others : List Stored) → Prop
  | nil {k m : Nat} : Twins scope k m [] [] []
  | left {k m : Nat} {pairs : List (Nat × Nat)} {e : Stored} {entries others : List Stored}
      (h : e.Hidden scope) (rest : Twins scope (k + 1) m pairs entries others) :
      Twins scope k m pairs (e :: entries) others
  | right {k m : Nat} {pairs : List (Nat × Nat)} {o : Stored} {entries others : List Stored}
      (h : o.Hidden scope) (rest : Twins scope k (m + 1) pairs entries others) :
      Twins scope k m pairs entries (o :: others)
  | both {k m : Nat} {pairs : List (Nat × Nat)} {e o : Stored} {entries others : List Stored}
      (h : e.document = o.document) (rest : Twins scope (k + 1) (m + 1) pairs entries others) :
      Twins scope k m ((k, m) :: pairs) (e :: entries) (o :: others)

variable {scope filter : Filter} {k m : Nat} {pairs : List (Nat × Nat)}
  {entries others : List Stored}

theorem shown_hidden {e : Stored} (h : e.Hidden scope) : e.shown scope = none := by
  obtain ⟨doc, he, hs⟩ := h
  rw [shown, he]
  simp [Except.toOption, hs]

/-- Entries that can all be read, with the same documents in the scope, can be
lined up. -/
theorem exists_twins {docs more : List Document} (hd : documents entries = .ok docs)
    (hm : documents others = .ok more)
    (h : docs.filter (scope.matchesDoc ·) = more.filter (scope.matchesDoc ·)) (k m : Nat) :
    ∃ pairs, Twins scope k m pairs entries others := by
  induction entries generalizing others docs more k m with
  | nil =>
    cases hd
    induction others generalizing more m with
    | nil => exact ⟨[], .nil⟩
    | cons o others ih =>
      obtain ⟨doc, rest, ho, hrest, rfl⟩ := ok_of_mapM_cons hm
      have hnone := List.filter_eq_nil_iff.1 h.symm
      have hhidden : o.Hidden scope :=
        ⟨doc, ho, eq_false_of_ne_true (hnone doc List.mem_cons_self)⟩
      have hrestnone := List.filter_eq_nil_iff.2 fun d hd => hnone d (List.mem_cons_of_mem doc hd)
      obtain ⟨pairs, hp⟩ := ih hrest (m + 1) hrestnone.symm
      exact ⟨pairs, .right hhidden hp⟩
  | cons e entries ih =>
    obtain ⟨doc, rest, he, hrest, rfl⟩ := ok_of_mapM_cons hd
    cases hs : scope.matchesDoc doc with
    | false =>
      rw [List.filter_cons, if_neg (by simp [hs])] at h
      obtain ⟨pairs, hp⟩ := ih hrest hm h (k + 1) m
      exact ⟨pairs, .left ⟨doc, he, hs⟩ hp⟩
    | true =>
      rw [List.filter_cons, if_pos hs] at h
      -- the document is the first in the scope on the other side, behind hidden ones
      induction others generalizing more m with
      | nil =>
        cases hm
        cases h
      | cons o others iho =>
        obtain ⟨first, later, ho, hlater, rfl⟩ := ok_of_mapM_cons hm
        cases hf : scope.matchesDoc first with
        | false =>
          rw [List.filter_cons, if_neg (by simp [hf])] at h
          obtain ⟨pairs, hp⟩ := iho hlater (m + 1) h
          exact ⟨pairs, .right ⟨first, ho, hf⟩ hp⟩
        | true =>
          rw [List.filter_cons, if_pos hf] at h
          obtain ⟨rfl, hlive⟩ := List.cons.inj h
          obtain ⟨pairs, hp⟩ := ih hrest hlater hlive (k + 1) (m + 1)
          exact ⟨_, .both (he.trans ho.symm) hp⟩

namespace Twins

theorem le_of_mem (h : Twins scope k m pairs entries others) {p : Nat × Nat} (hp : p ∈ pairs) :
    k ≤ p.1 ∧ m ≤ p.2 := by
  induction h with
  | nil => cases hp
  | left _ _ ih => exact ⟨by have := (ih hp).1; omega, (ih hp).2⟩
  | right _ _ ih => exact ⟨(ih hp).1, by have := (ih hp).2; omega⟩
  | both _ _ ih =>
    rcases List.mem_cons.1 hp with rfl | hp
    · exact ⟨Nat.le_refl _, Nat.le_refl _⟩
    · have := ih hp
      exact ⟨by omega, by omega⟩

/-- At places that belong together the same entry is put in. -/
theorem set (h : Twins scope k m pairs entries others) {i j : Nat} (hp : (i, j) ∈ pairs)
    (entry : Stored) :
    Twins scope k m pairs (entries.set (i - k) entry) (others.set (j - m) entry) := by
  induction h with
  | nil => cases hp
  | @left k m pairs e entries others hhidden rest ih =>
    have := (rest.le_of_mem hp).1
    rw [show i - k = i - (k + 1) + 1 by omega, List.set_cons_succ]
    exact .left hhidden (ih hp)
  | @right k m pairs o entries others hhidden rest ih =>
    have := (rest.le_of_mem hp).2
    rw [show j - m = j - (m + 1) + 1 by omega, List.set_cons_succ]
    exact .right hhidden (ih hp)
  | @both k m pairs e o entries others hdoc rest ih =>
    rcases List.mem_cons.1 hp with heq | hp
    · cases heq
      rw [Nat.sub_self, Nat.sub_self, List.set_cons_zero, List.set_cons_zero]
      exact .both rfl rest
    · have hle := rest.le_of_mem hp
      rw [show i - k = i - (k + 1) + 1 by omega, show j - m = j - (m + 1) + 1 by omega,
        List.set_cons_succ, List.set_cons_succ]
      exact .both hdoc (ih hp)

theorem seen_eq (h : Twins scope k m pairs entries others) : seen scope entries = seen scope others := by
  unfold seen
  induction h with
  | nil => rfl
  | left hhidden _ ih => rw [List.filterMap_cons_none (shown_hidden hhidden), ih]
  | right hhidden _ ih => rw [List.filterMap_cons_none (shown_hidden hhidden), ih]
  | both hdoc _ ih => rw [List.filterMap_cons, List.filterMap_cons, shown, shown, hdoc, ih]

/-! ## Searches -/

/-- The same document, in the scope, at places that belong together. -/
structure Found (scope : Filter) (pairs : List (Nat × Nat)) (p q : Nat × Document) : Prop where
  same : p.2 = q.2
  pair : (p.1, q.1) ∈ pairs
  seen : scope.matchesDoc p.2 = true

end Twins

namespace Twins

/-- A filter that matches in the scope only finds the same on both sides, or
nothing on either, or what cannot be read stops both. -/
theorem first? (h : Twins scope k m pairs entries others)
    (hf : ∀ doc, filter.matchesDoc doc = true → scope.matchesDoc doc = true) :
    (∃ fault, Stored.first? filter entries k = .error fault ∧
        Stored.first? filter others m = .error fault) ∨
      (Stored.first? filter entries k = .ok none ∧ Stored.first? filter others m = .ok none) ∨
      ∃ p q, Stored.first? filter entries k = .ok (some p) ∧
        Stored.first? filter others m = .ok (some q) ∧ Found scope pairs p q := by
  have hskip : ∀ {doc : Document}, scope.matchesDoc doc = false → ¬filter.matchesDoc doc = true :=
    fun hs hm => by simp [hf _ hm] at hs
  induction h with
  | nil => exact .inr (.inl ⟨rfl, rfl⟩)
  | left hhidden _ ih =>
    obtain ⟨doc, he, hs⟩ := hhidden
    rw [first?_cons he, if_neg (hskip hs)]
    exact ih
  | right hhidden _ ih =>
    obtain ⟨doc, ho, hs⟩ := hhidden
    rw [first?_cons ho, if_neg (hskip hs)]
    exact ih
  | @both k m pairs e o entries others hdoc _ ih =>
    cases he : e.document with
    | error fault => exact .inl ⟨fault, by rw [Stored.first?, he]; rfl, by
        rw [Stored.first?, ← hdoc, he]; rfl⟩
    | ok doc =>
      rw [first?_cons he, first?_cons (hdoc ▸ he)]
      split
      · next hm =>
        exact .inr (.inr ⟨(k, doc), (m, doc), rfl, rfl, rfl, List.mem_cons_self, hf doc hm⟩)
      · rcases ih with hfault | hnone | ⟨p, q, hp, hq, hfound⟩
        · exact .inl hfault
        · exact .inr (.inl hnone)
        · exact .inr (.inr ⟨p, q, hp, hq, hfound.same, List.mem_cons_of_mem _ hfound.pair,
            hfound.seen⟩)

theorem matching (h : Twins scope k m pairs entries others)
    (hf : ∀ doc, filter.matchesDoc doc = true → scope.matchesDoc doc = true) :
    (∃ fault, Stored.matching filter entries k = .error fault ∧
        Stored.matching filter others m = .error fault) ∨
      ∃ found more, Stored.matching filter entries k = .ok found ∧
        Stored.matching filter others m = .ok more ∧ List.Forall₂ (Found scope pairs) found more := by
  have hskip : ∀ {doc : Document}, scope.matchesDoc doc = false → ¬filter.matchesDoc doc = true :=
    fun hs hm => by simp [hf _ hm] at hs
  induction h with
  | nil => exact .inr ⟨[], [], rfl, rfl, .nil⟩
  | left hhidden _ ih =>
    obtain ⟨doc, he, hs⟩ := hhidden
    rw [matching_cons he]
    simp only [if_neg (hskip hs)]
    rcases ih with ⟨fault, he, ho⟩ | ⟨found, more, he, ho, hall⟩
    · exact .inl ⟨fault, by rw [he]; rfl, ho⟩
    · exact .inr ⟨found, more, by rw [he]; rfl, ho, hall⟩
  | right hhidden _ ih =>
    obtain ⟨doc, ho, hs⟩ := hhidden
    rw [matching_cons ho]
    simp only [if_neg (hskip hs)]
    rcases ih with ⟨fault, he, ho⟩ | ⟨found, more, he, ho, hall⟩
    · exact .inl ⟨fault, he, by rw [ho]; rfl⟩
    · exact .inr ⟨found, more, he, by rw [ho]; rfl, hall⟩
  | @both k m pairs e o entries others hdoc _ ih =>
    cases he : e.document with
    | error fault => exact .inl ⟨fault, by rw [Stored.matching, he]; rfl, by
        rw [Stored.matching, ← hdoc, he]; rfl⟩
    | ok doc =>
      rw [matching_cons he, matching_cons (hdoc ▸ he)]
      rcases ih with ⟨fault, he, ho⟩ | ⟨found, more, he, ho, hall⟩
      · exact .inl ⟨fault, by rw [he]; rfl, by rw [ho]; rfl⟩
      · have hall := hall.imp fun p q (hpq : Found scope _ p q) =>
          (⟨hpq.same, List.mem_cons_of_mem (k, m) hpq.pair, hpq.seen⟩ :
            Found scope ((k, m) :: pairs) p q)
        refine .inr ⟨_, _, by rw [he]; rfl, by rw [ho]; rfl, ?_⟩
        split
        · next hm => exact .cons ⟨rfl, List.mem_cons_self, hf doc hm⟩ hall
        · exact hall

theorem map_found {found more : List (Nat × Document)}
    (h : List.Forall₂ (Found scope pairs) found more) : found.map (·.2) = more.map (·.2) := by
  induction h with
  | nil => rfl
  | cons hpq _ ih => exact congrArg₂ List.cons hpq.same ih

/-- What is read of both lists is the same in the scope. -/
theorem filter_documents (h : Twins scope k m pairs entries others) :
    (documents entries).map (List.filter (scope.matchesDoc ·)) =
      (documents others).map (List.filter (scope.matchesDoc ·)) := by
  rw [← map_matching scope entries k, ← map_matching scope others m]
  rcases h.matching fun _ hm => hm with ⟨fault, he, ho⟩ | ⟨found, more, he, ho, hall⟩
  · rw [he, ho]
  · rw [he, ho, Except.map, Except.map, map_found hall]

end Twins

/-! ## What is spared -/

/-- What may stand where the entry stood: the entry, or, if its document was in
the scope, another document with the same id. -/
inductive Spared (scope : Filter) (e : Stored) : Stored → Prop
  | same : Spared scope e e
  | rewritten {doc next : Document} {entry : Stored} (read : e.document = .ok doc)
      (seen : scope.matchesDoc doc = true)
      (id : ∀ id, doc.get? idField = some id → next.get? idField = some id)
      (kept : ofDocument next = .ok entry) : Spared scope e entry

/-- Hidden entries are left as they are. -/
theorem Spared.hidden {e entry : Stored} (h : Spared scope e entry) (he : e.Hidden scope) :
    entry = e := by
  cases h with
  | same => rfl
  | rewritten read seen _ _ =>
    obtain ⟨doc, hdoc, hs⟩ := he
    rw [read] at hdoc
    cases hdoc
    rw [seen] at hs
    cases hs

end Stored

theorem forall₂_set_right {α β : Type} {R : α → β → Prop} {as : List α} {bs : List β}
    (h : List.Forall₂ R as bs) {i : Nat} {b : β} (hb : ∀ a, as[i]? = some a → R a b) :
    List.Forall₂ R as (bs.set i b) := by
  induction h generalizing i with
  | nil => exact .nil
  | cons hx hrest ih =>
    cases i with
    | zero => exact .cons (hb _ rfl) hrest
    | succ i => exact .cons hx (ih hb)

namespace Store

/-- Of one collection, no entry came or went, and none was touched but those in
the scope, which keep their places and ids. No other collection was touched. -/
structure Spares (scope : Filter) (c : String) (s t : Store) : Prop where
  here : List.Forall₂ (Stored.Spared scope) (s.entries c) (t.entries c)
  elsewhere : ∀ name, name ≠ c → t.entries name = s.entries name

namespace Spares

variable {scope : Filter} {c : String} {s t : Store}

theorem refl (s : Store) : s.Spares scope c s :=
  ⟨List.forall₂_same.2 fun _ _ => .same, fun _ _ => rfl⟩

theorem tick (h : s.Spares scope c t) (kind : CallKind) : s.Spares scope c (t.tick kind) :=
  ⟨h.here, h.elsewhere⟩

/-- A document that was in the scope is written anew, with its id. -/
theorem set (h : s.Spares scope c t) {i : Nat} {doc next : Document} {entry : Stored}
    (hat : Stored.At (s.entries c) i doc) (hs : scope.matchesDoc doc = true)
    (hid : ∀ id, doc.get? idField = some id → next.get? idField = some id)
    (he : Stored.ofDocument next = .ok entry) :
    s.Spares scope c (t.setEntries c ((t.entries c).set i entry)) := by
  constructor
  · rw [entries_setEntries, if_pos rfl]
    refine forall₂_set_right h.here fun old hold => ?_
    obtain ⟨e, hi, hd⟩ := hat
    cases hi.symm.trans hold
    exact .rewritten hd hs hid he
  · intro name hne
    rw [entries_setEntries, if_neg hne]
    exact h.elsewhere name hne

/-- What is hidden stands where it stood, byte for byte. -/
theorem hidden (h : s.Spares scope c t) {i : Nat} {e : Stored} (hi : (s.entries c)[i]? = some e)
    (he : e.Hidden scope) : (t.entries c)[i]? = some e := by
  obtain ⟨hlen, hget⟩ := List.forall₂_iff_get.1 h.here
  obtain ⟨hlt, rfl⟩ := List.getElem?_eq_some_iff.1 hi
  exact List.getElem?_eq_some_iff.2 ⟨hlen ▸ hlt, (hget i hlt (hlen ▸ hlt)).hidden he⟩

end Spares

/-! ## Calls side by side -/

/-- Two stores that can be reached alike, with a collection that differs in what
the scope hides only. -/
structure Lined (scope : Filter) (c : String) (pairs : List (Nat × Nat)) (s t : Store) : Prop where
  reach : s.unavailable = t.unavailable
  twins : Stored.Twins scope 0 0 pairs (s.entries c) (t.entries c)

/-- What a call on two stores leaves: stores of the same kind, neither of which
lost anything of what the call began with. -/
structure Alike (scope : Filter) (c : String) (pairs : List (Nat × Nat)) (s₀ t₀ s t : Store) : Prop
    extends Lined scope c pairs s t where
  left : s₀.Spares scope c s
  right : t₀.Spares scope c t

/-- A document in the scope, found on both sides at places that belong together. -/
structure Match (scope : Filter) (c : String) (pairs : List (Nat × Nat)) (s t : Store)
    (p q : Nat × Document) : Prop extends Stored.Twins.Found scope pairs p q where
  left : Stored.At (s.entries c) p.1 p.2
  right : Stored.At (t.entries c) q.1 q.2

section

variable {scope filter : Filter} {c : String} {pairs : List (Nat × Nat)} {s₀ t₀ s t : Store}
  {α β : Type} {R : α → β → Prop} {kind : CallKind} {update : Update}

theorem Lined.alike (h : Lined scope c pairs s t) : Alike scope c pairs s t s t :=
  ⟨h, .refl s, .refl t⟩

theorem Alike.tick (h : Alike scope c pairs s₀ t₀ s t) (kind : CallKind) :
    Alike scope c pairs s₀ t₀ (s.tick kind) (t.tick kind) :=
  ⟨⟨h.reach, h.twins⟩, h.left.tick kind, h.right.tick kind⟩

/-- Both calls are counted, and refused alike. -/
theorem Lined.counted {x : Call α} {y : Call β} (h : Lined scope c pairs s t)
    (hxy : Alike scope c pairs s t (s.tick kind) (t.tick kind) →
      Agree (Alike scope c pairs s t) (s.tick kind) (t.tick kind) R x y) :
    Agree (Alike scope c pairs s t) s t R (begin kind c >>= fun _ => x)
      (begin kind c >>= fun _ => y) := by
  have hs := run_begin kind c s
  have ht := run_begin kind c t
  have halike := h.alike.tick kind
  rw [← h.reach] at ht
  by_cases hu : s.unavailable = true
  · rw [if_pos hu] at hs ht
    exact .inr ⟨_, _, _, run_bind_error hs, run_bind_error ht, halike⟩
  · rw [if_neg hu] at hs ht
    unfold Agree
    rw [run_bind_ok hs, run_bind_ok ht]
    exact hxy halike

/-- Both calls begin with a search for all matches, and find the same documents. -/
theorem Lined.findsAll {f : List (Nat × Document) → Call α} {g : List (Nat × Document) → Call β}
    (h : Lined scope c pairs s t)
    (hf : ∀ doc, filter.matchesDoc doc = true → scope.matchesDoc doc = true)
    (hfg : ∀ found more, List.Forall₂ (Match scope c pairs s t) found more →
      Alike scope c pairs s t (s.tick kind) (t.tick kind) →
      Agree (Alike scope c pairs s t) (s.tick kind) (t.tick kind) R (f found) (g more)) :
    Agree (Alike scope c pairs s t) s t R (begin kind c >>= fun _ => locateAll c filter >>= f)
      (begin kind c >>= fun _ => locateAll c filter >>= g) := by
  refine h.counted fun halike => ?_
  unfold Agree
  simp only [run_bind, run_locateAll, entries_tick]
  rcases h.twins.matching hf with ⟨fault, hs, ht⟩ | ⟨found, more, hs, ht, hall⟩
  · rw [hs, ht]
    exact .inr ⟨fault, _, _, rfl, rfl, halike⟩
  · rw [hs, ht]
    refine hfg found more ?_ halike
    obtain ⟨hlen, hget⟩ := List.forall₂_iff_get.1 hall
    exact List.forall₂_iff_get.2 ⟨hlen, fun i hi hj => ⟨hget i hi hj,
      Stored.at_of_matching hs (List.get_mem ..), Stored.at_of_matching ht (List.get_mem ..)⟩⟩

/-- Both calls begin with a search for the first match, and find the same
document, or none. -/
theorem Lined.findsFirst {f : Option (Nat × Document) → Call α} {g : Option (Nat × Document) → Call β}
    (h : Lined scope c pairs s t)
    (hf : ∀ doc, filter.matchesDoc doc = true → scope.matchesDoc doc = true)
    (hnone : Alike scope c pairs s t (s.tick kind) (t.tick kind) →
      Agree (Alike scope c pairs s t) (s.tick kind) (t.tick kind) R (f none) (g none))
    (hsome : ∀ p q, Match scope c pairs s t p q →
      Alike scope c pairs s t (s.tick kind) (t.tick kind) →
      Agree (Alike scope c pairs s t) (s.tick kind) (t.tick kind) R (f (some p)) (g (some q))) :
    Agree (Alike scope c pairs s t) s t R (begin kind c >>= fun _ => locate c filter >>= f)
      (begin kind c >>= fun _ => locate c filter >>= g) := by
  refine h.counted fun halike => ?_
  unfold Agree at hnone hsome ⊢
  simp only [run_bind, run_locate, entries_tick]
  rcases h.twins.first? hf with ⟨fault, hs, ht⟩ | ⟨hs, ht⟩ | ⟨p, q, hs, ht, hfound⟩
  · rw [hs, ht]
    exact .inr ⟨fault, _, _, rfl, rfl, halike⟩
  · rw [hs, ht]
    exact hnone halike
  · rw [hs, ht]
    exact hsome p q ⟨hfound, Stored.at_of_first? hs, Stored.at_of_first? ht⟩ halike

/-- The document of a match is written anew on both sides, with its id. -/
theorem Alike.overwrite {p q : Nat × Document} (h : Alike scope c pairs s₀ t₀ s t)
    (hm : Match scope c pairs s₀ t₀ p q) {next : Document}
    (hid : ∀ id, p.2.get? idField = some id → next.get? idField = some id) :
    Agree (Alike scope c pairs s₀ t₀) s t (fun _ _ => True) (Store.overwrite c p.1 next)
      (Store.overwrite c q.1 next) := by
  have hs := run_overwrite c p.1 next s
  have ht := run_overwrite c q.1 next t
  cases he : Stored.ofDocument next with
  | error fault =>
    rw [he] at hs ht
    exact .inr ⟨fault, _, _, hs, ht, h⟩
  | ok entry =>
    rw [he] at hs ht
    refine .inl ⟨(), (), _, _, hs, ht, trivial, ⟨h.reach, ?_⟩, ?_, ?_⟩
    · rw [entries_setEntries, if_pos rfl, entries_setEntries, if_pos rfl]
      exact h.twins.set hm.pair entry
    · exact h.left.set hm.left hm.seen hid he
    · exact h.right.set hm.right (hm.same ▸ hm.seen) (hm.same ▸ hid) he

/-- Both sides write what a step makes of the document of a match. -/
theorem Alike.rewrite {p q : Nat × Document} (h : Alike scope c pairs s₀ t₀ s t)
    (hm : Match scope c pairs s₀ t₀ p q) {step : Except StoreFault Document}
    (hid : ∀ next, step = .ok next →
      ∀ id, p.2.get? idField = some id → next.get? idField = some id) (answer : Document → α) :
    Agree (Alike scope c pairs s₀ t₀) s t (· = ·)
      (do
        let next ← step
        Store.overwrite c p.1 next
        return answer next : Call α)
      (do
        let next ← step
        Store.overwrite c q.1 next
        return answer next : Call α) := by
  refine .lift h fun next hn => ?_
  exact (h.overwrite hm (hid next hn)).bind fun _ _ _ _ _ h => .pure h rfl

theorem id_kept_updated {doc next : Document} (hn : updated update doc = .ok next) :
    ∀ id, doc.get? idField = some id → next.get? idField = some id := by
  rw [id_updated hn]
  exact fun _ hid => hid

/-- Each match in turn is updated on both sides, up to the first that cannot be. -/
theorem Alike.updateAll {found more : List (Nat × Document)} (h : Alike scope c pairs s₀ t₀ s t)
    (hall : List.Forall₂ (Match scope c pairs s₀ t₀) found more) (result : UpdateResult) :
    Agree (Alike scope c pairs s₀ t₀) s t (· = ·) (Store.updateAll c update found result)
      (Store.updateAll c update more result) := by
  induction hall generalizing s t result with
  | nil => exact .pure h rfl
  | @cons p q found more hpq _ ih =>
    obtain ⟨i, doc⟩ := p
    obtain ⟨j, doc'⟩ := q
    obtain rfl : doc = doc' := hpq.same
    refine .lift h fun next hn => ?_
    exact (h.overwrite hpq (id_kept_updated hn)).bind fun _ _ _ _ _ h => ih h _

end

/-! ## Calls in a scope -/

section

variable {scope filter : Filter} {c : String} {pairs : List (Nat × Nat)} {s t : Store}
  (h : Lined scope c pairs s t)
  (hf : ∀ doc, filter.matchesDoc doc = true → scope.matchesDoc doc = true)

include h hf

theorem find_agrees (options : FindOptions) :
    Agree (Alike scope c pairs s t) s t (· = ·) (find c filter options) (find c filter options) :=
  h.findsAll hf fun _ _ hall halike => .pure halike (by
    rw [Stored.Twins.map_found (hall.imp fun _ _ hpq => hpq.toFound)])

theorem count_agrees :
    Agree (Alike scope c pairs s t) s t (· = ·) (count c filter) (count c filter) :=
  h.findsAll hf fun _ _ hall halike => .pure halike hall.length_eq

theorem distinct_agrees (field : String) :
    Agree (Alike scope c pairs s t) s t (· = ·) (distinct c field filter) (distinct c field filter) :=
  h.findsAll hf fun _ _ hall halike => .pure halike (by
    simp only [← List.flatMap_map, Stored.Twins.map_found (hall.imp fun _ _ hpq => hpq.toFound)])

theorem updateOne_agrees (update : Update) :
    Agree (Alike scope c pairs s t) s t (· = ·) (updateOne c filter update)
      (updateOne c filter update) := by
  refine h.findsFirst hf (fun halike => .pure halike rfl) ?_
  rintro ⟨i, doc⟩ ⟨j, _⟩ hm halike
  obtain rfl := hm.same
  exact halike.rewrite hm (fun _ hn => id_kept_updated hn) _

theorem updateMany_agrees (update : Update) :
    Agree (Alike scope c pairs s t) s t (· = ·) (updateMany c filter update)
      (updateMany c filter update) :=
  h.findsAll hf fun _ _ hall halike => halike.updateAll hall {}


theorem findOneAndUpdate_agrees (update : Update) (version : Version) :
    Agree (Alike scope c pairs s t) s t (· = ·) (findOneAndUpdate c filter update version)
      (findOneAndUpdate c filter update version) := by
  refine h.findsFirst hf (fun halike => .pure halike rfl) ?_
  rintro ⟨i, doc⟩ ⟨j, _⟩ hm halike
  obtain rfl := hm.same
  exact halike.rewrite hm (fun _ hn => id_kept_updated hn) _

theorem findOneAndReplace_agrees (doc : Document) (version : Version) (fresh : ObjectId) :
    Agree (Alike scope c pairs s t) s t (· = ·) (findOneAndReplace c filter doc version fresh)
      (findOneAndReplace c filter doc version fresh) := by
  refine h.findsFirst hf (fun halike => .pure halike rfl) ?_
  rintro ⟨i, before⟩ ⟨j, _⟩ hm halike
  obtain rfl := hm.same
  exact halike.rewrite hm (fun _ hn _ => id_replacement hn) _

omit hf in
/-- A pipeline that begins with the scope makes the same of both collections. -/
theorem aggregate_agrees (stages : List Stage) :
    Agree (Alike scope c pairs s t) s t (· = ·) (aggregate c (.select scope :: stages))
      (aggregate c (.select scope :: stages)) := by
  refine h.counted fun halike => ?_
  have hread : ∀ u : Store, (do return Stage.run (← (← get).documents c) (.select scope :: stages) :
      Call (List Document)).run u = (((u.documents c).map (List.filter (scope.matchesDoc ·))).map
        (Stage.run · stages), u) := by
    intro u
    simp only [run_bind, run_get, run_lift]
    cases u.documents c <;> rfl
  refine .of_run_eq (hread _) ?_ halike
  rw [hread]
  exact congrArg (fun docs => (docs.map (Stage.run · stages), t.tick .aggregate))
    h.twins.filter_documents.symm

end

end Store
end Folio
