import Folio.Keyed

/-!
# Lists kept sorted by name

Insertions and erasures keep a list sorted, and a sorted list is determined by
what it says of each name. So it does not matter in which order the entries of
a list come together.

Results:
* `insert_sorted`, `erase_sorted`: the operations keep the order.
* `ext_of_mem`: sorted lists with the same entries are the same.
* `ofList_of_perm`: the list of any arrangement of sorted entries is sorted back.
* `ofList_cases`: the list of any pairs is sorted, and holds nothing else.
-/
namespace Folio

theorem mem_of_lookup {α β : Type} [BEq α] {a : α} {b : β} {l : List (α × β)}
    (h : l.lookup a = some b) : ∃ k, (k, b) ∈ l ∧ (a == k) = true := by
  induction l with
  | nil => cases h
  | cons p rest ih =>
    obtain ⟨k, c⟩ := p
    rw [List.lookup_cons] at h
    cases hk : a == k with
    | true =>
      rw [hk] at h
      cases h
      exact ⟨k, List.mem_cons_self, hk⟩
    | false =>
      rw [hk] at h
      obtain ⟨k, hm, hk⟩ := ih h
      exact ⟨k, List.mem_cons_of_mem _ hm, hk⟩

namespace Keyed

variable {α : Type}

/-- Names in ascending order, so each name once. -/
abbrev Sorted (entries : List (String × α)) : Prop := entries.Pairwise fun e f => e.1 < f.1

theorem lt_of_not_lt {k l : String} (hne : k ≠ l) (h : ¬ l < k) : k < l := by
  refine Decidable.byContradiction fun hk => hne ?_
  exact String.le_antisymm (String.not_lt.1 h) (String.not_lt.1 hk)

theorem Sorted.nodup {entries : List (String × α)} (h : Sorted entries) :
    (entries.map (·.1)).Nodup := by
  refine List.pairwise_map.2 (h.imp ?_)
  intro e f hlt heq
  rw [heq] at hlt
  exact String.lt_irrefl _ hlt

/-! ## Entries -/

theorem mem_of_get? {key : String} {a : α} {entries : List (String × α)}
    (h : get? key entries = some a) : (key, a) ∈ entries := by
  induction entries with
  | nil => cases h
  | cons e rest ih =>
    obtain ⟨l, b⟩ := e
    rw [get?] at h
    by_cases hl : l = key
    · rw [if_pos hl] at h
      cases h
      rw [hl]
      exact List.mem_cons_self
    · rw [if_neg hl] at h
      exact List.mem_cons_of_mem _ (ih h)

theorem get?_of_mem {key : String} {a : α} {entries : List (String × α)}
    (hn : (entries.map (·.1)).Nodup) (h : (key, a) ∈ entries) : get? key entries = some a := by
  induction entries with
  | nil => cases h
  | cons e rest ih =>
    obtain ⟨l, b⟩ := e
    obtain ⟨hl, hr⟩ := List.nodup_cons.1 hn
    rw [get?]
    rcases List.mem_cons.1 h with heq | hm
    · cases heq
      rw [if_pos rfl]
    · have hne : l ≠ key := by
        intro heq
        exact hl (List.mem_map.2 ⟨(key, a), hm, heq.symm⟩)
      rw [if_neg hne]
      exact ih hr hm

/-- Sorted lists with the same entries are the same. -/
theorem ext_of_mem {entries others : List (String × α)} (he : Sorted entries) (ho : Sorted others)
    (h : ∀ e, e ∈ entries ↔ e ∈ others) : entries = others := by
  have once : ∀ {l : List (String × α)}, Sorted l → l.Nodup := by
    intro l hl
    refine hl.imp ?_
    intro e f hlt heq
    rw [heq] at hlt
    exact String.lt_irrefl _ hlt
  have hperm := (List.perm_ext_iff_of_nodup (once he) (once ho)).2 h
  refine List.Perm.eq_of_pairwise ?_ he ho hperm
  intro e f _ _ hef hfe
  exact absurd hfe (String.lt_asymm hef)

/-- So are sorted lists that say the same of each name. -/
theorem ext_of_get? {entries others : List (String × α)} (he : Sorted entries) (ho : Sorted others)
    (h : ∀ key, get? key entries = get? key others) : entries = others := by
  refine ext_of_mem he ho ?_
  rintro ⟨key, a⟩
  constructor
  · intro hm
    refine mem_of_get? ?_
    rw [← h]
    exact get?_of_mem he.nodup hm
  · intro hm
    refine mem_of_get? ?_
    rw [h]
    exact get?_of_mem ho.nodup hm

/-! ## Insertions -/

/-- An entry of the list after an insertion is the new one or an old one of
another name. -/
theorem mem_insert {key : String} {a : α} {entries : List (String × α)} (hs : Sorted entries)
    {e : String × α} : e ∈ insert key a entries ↔ e = (key, a) ∨ e ∈ entries ∧ e.1 ≠ key := by
  induction entries with
  | nil => simp [insert]
  | cons f rest ih =>
    obtain ⟨l, b⟩ := f
    obtain ⟨hl, hr⟩ := List.pairwise_cons.1 hs
    rw [insert]
    by_cases hk : l = key
    · subst hk
      have hne : ∀ {e}, e ∈ rest → e.1 ≠ l := by
        intro e he heq
        have := hl e he
        rw [heq] at this
        exact String.lt_irrefl _ this
      rw [if_pos rfl, List.mem_cons, List.mem_cons]
      constructor
      · rintro (rfl | he)
        · exact .inl rfl
        · exact .inr ⟨.inr he, hne he⟩
      · rintro (rfl | ⟨rfl | he, h⟩)
        · exact .inl rfl
        · exact absurd rfl h
        · exact .inr he
    · rw [if_neg hk]
      by_cases hlt : key < l
      · have hne : ∀ {e}, e ∈ (l, b) :: rest → e.1 ≠ key := by
          intro e he heq
          rcases List.mem_cons.1 he with rfl | he
          · exact hk heq
          · have := String.lt_trans hlt (hl e he)
            rw [heq] at this
            exact String.lt_irrefl _ this
        rw [if_pos hlt, List.mem_cons]
        constructor
        · rintro (rfl | he)
          · exact .inl rfl
          · exact .inr ⟨he, hne he⟩
        · rintro (rfl | ⟨he, -⟩)
          · exact .inl rfl
          · exact .inr he
      · rw [if_neg hlt, List.mem_cons, ih hr, List.mem_cons]
        constructor
        · rintro (rfl | rfl | ⟨he, h⟩)
          · exact .inr ⟨.inl rfl, hk⟩
          · exact .inl rfl
          · exact .inr ⟨.inr he, h⟩
        · rintro (rfl | ⟨rfl | he, h⟩)
          · exact .inr (.inl rfl)
          · exact .inl rfl
          · exact .inr (.inr ⟨he, h⟩)

theorem insert_ne_nil (key : String) (a : α) (entries : List (String × α)) :
    insert key a entries ≠ [] := by
  cases entries with
  | nil => exact List.cons_ne_nil _ _
  | cons e rest =>
    rw [insert]
    split
    · exact List.cons_ne_nil _ _
    · split <;> exact List.cons_ne_nil _ _

theorem insert_sorted (key : String) (a : α) {entries : List (String × α)} (hs : Sorted entries) :
    Sorted (insert key a entries) := by
  induction entries with
  | nil => exact List.pairwise_singleton ..
  | cons f rest ih =>
    obtain ⟨l, b⟩ := f
    obtain ⟨hl, hr⟩ := List.pairwise_cons.1 hs
    rw [insert]
    by_cases hk : l = key
    · rw [if_pos hk]
      subst hk
      exact List.pairwise_cons.2 ⟨hl, hr⟩
    · rw [if_neg hk]
      by_cases hlt : key < l
      · rw [if_pos hlt]
        refine List.pairwise_cons.2 ⟨?_, hs⟩
        intro e he
        rcases List.mem_cons.1 he with rfl | he
        · exact hlt
        · exact String.lt_trans hlt (hl e he)
      · rw [if_neg hlt]
        refine List.pairwise_cons.2 ⟨?_, ih hr⟩
        intro e he
        rcases (mem_insert hr).1 he with rfl | ⟨he, -⟩
        · exact lt_of_not_lt hk hlt
        · exact hl e he

theorem insertIfAbsent_sorted (key : String) (a : α) {entries : List (String × α)}
    (hs : Sorted entries) : Sorted (insertIfAbsent key a entries) := by
  unfold insertIfAbsent
  split
  · exact hs
  · exact insert_sorted key a hs

theorem erase_sorted (key : String) {entries : List (String × α)} (hs : Sorted entries) :
    Sorted (erase key entries) := hs.filter _

theorem set_sorted (key : String) (a : Option α) {entries : List (String × α)}
    (hs : Sorted entries) : Sorted (set key a entries) := by
  cases a with
  | none => exact erase_sorted key hs
  | some a => exact insert_sorted key a hs

theorem get?_set (key k : String) (a : Option α) (entries : List (String × α)) :
    get? k (set key a entries) = if k = key then a else get? k entries := by
  cases a with
  | none => exact get?_erase key k entries
  | some a => exact get?_insert key k a entries

/-- What holds of the values that are there and of the one set holds after. -/
theorem all_set {P : α → Prop} {key : String} {a : Option α} {entries : List (String × α)}
    (hs : Sorted entries) (ha : ∀ b, a = some b → P b) (h : ∀ e ∈ entries, P e.2) :
    ∀ e ∈ set key a entries, P e.2 := by
  intro e he
  cases a with
  | none => exact h e (List.mem_filter.1 he).1
  | some a =>
    rcases (mem_insert hs).1 he with rfl | ⟨he, -⟩
    · exact ha a rfl
    · exact h e he

/-! ## Lists of entries -/

theorem mem_foldl_insert {pairs entries : List (String × α)} (hs : Sorted entries)
    (hn : (pairs.map (·.1)).Nodup) (hd : ∀ p ∈ pairs, p.1 ∉ entries.map (·.1)) :
    Sorted (pairs.foldl (fun entries p => insert p.1 p.2 entries) entries) ∧
      ∀ e, e ∈ pairs.foldl (fun entries p => insert p.1 p.2 entries) entries ↔
        e ∈ pairs ∨ e ∈ entries := by
  induction pairs generalizing entries with
  | nil => exact ⟨hs, fun e => by simp⟩
  | cons p rest ih =>
    obtain ⟨hp, hr⟩ := List.nodup_cons.1 hn
    have hm : ∀ e, e ∈ insert p.1 p.2 entries ↔ e = p ∨ e ∈ entries := by
      intro e
      rw [mem_insert hs]
      refine or_congr Iff.rfl ⟨fun h => h.1, fun h => ⟨h, ?_⟩⟩
      intro heq
      exact hd p List.mem_cons_self (List.mem_map.2 ⟨e, h, heq⟩)
    have hlater : ∀ q ∈ rest, q.1 ∉ (insert p.1 p.2 entries).map (·.1) := by
      intro q hq hin
      obtain ⟨e, he, heq⟩ := List.mem_map.1 hin
      rcases (hm e).1 he with rfl | he
      · exact hp (List.mem_map.2 ⟨q, hq, heq.symm⟩)
      · exact hd q (List.mem_cons_of_mem p hq) (List.mem_map.2 ⟨e, he, heq⟩)
    obtain ⟨hsorted, hmem⟩ := ih (insert_sorted p.1 p.2 hs) hr hlater
    refine ⟨hsorted, ?_⟩
    intro e
    rw [List.foldl_cons, hmem, hm, List.mem_cons]
    constructor
    · rintro (h | h | h)
      · exact .inl (.inr h)
      · exact .inl (.inl h)
      · exact .inr h
    · rintro ((h | h) | h)
      · exact .inr (.inl h)
      · exact .inl h
      · exact .inr (.inr h)

/-- The list of any arrangement of sorted entries is the sorted list. -/
theorem ofList_of_perm {pairs entries : List (String × α)} (hp : pairs.Perm entries)
    (hs : Sorted entries) : ofList pairs = entries := by
  have hn : (pairs.map (·.1)).Nodup := (hp.map _).nodup_iff.2 hs.nodup
  have hnil : Sorted ([] : List (String × α)) := .nil
  obtain ⟨hsorted, hm⟩ := mem_foldl_insert hnil hn (by simp)
  refine ext_of_mem hsorted hs ?_
  intro e
  rw [ofList, hm, hp.mem_iff]
  simp

/-- The list of any pairs is sorted, and holds nothing else. -/
theorem ofList_cases (pairs : List (String × α)) :
    Sorted (ofList pairs) ∧ ∀ e ∈ ofList pairs, e ∈ pairs := by
  refine List.foldlRecOn (motive := fun entries => Sorted entries ∧ ∀ e ∈ entries, e ∈ pairs)
    pairs _ ⟨.nil, fun e he => by cases he⟩ fun entries h p hp => ?_
  refine ⟨insert_sorted p.1 p.2 h.1, fun e he => ?_⟩
  rcases (mem_insert h.1).1 he with rfl | ⟨he, -⟩
  · exact hp
  · exact h.2 e he

theorem ofList_ofList (pairs : List (String × α)) : ofList (ofList pairs) = ofList pairs :=
  ofList_of_perm (.refl _) (ofList_cases pairs).1

end Keyed
end Folio
