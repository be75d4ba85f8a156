import Folio.Proofs.Value.Gathering
import Folio.Proofs.Value.Paths
import Mathlib.Data.Finmap

/-!
# Documents as ordered maps

A document is a list of fields, and nothing in its type keeps two of them from having one
name. The operations do: whatever has been done, a document shows a finite map from names to
values that also remembers when each name came, which is the moment of its first insertion
since it was last taken out. Replacing a value does not change that moment, so the field stays
where it is.

Results:
* `Follows.step`: one operation gives the same value on both and keeps them together.
* `agrees_course`: after any operations they agree, and on the way they gave the same values.
* `Agrees.eq`: no other document agrees with the map.
-/
namespace Folio.Document

variable {doc other : Document} {key : String} {v : Value}

/-! ## Fields where they stand -/

theorem put_of_mem {fields : List (String × Value)} (hn : (fields.map (·.1)).Nodup)
    (h : key ∈ fields.map (·.1)) :
    put key v fields = fields.map fun f => if f.1 = key then (key, v) else f := by
  induction fields with
  | nil => cases h
  | cons f rest ih =>
    obtain ⟨k, w⟩ := f
    obtain ⟨hk, hrest⟩ := List.nodup_cons.1 hn
    rw [put, List.map_cons]
    by_cases heq : k = key
    · have hsame : ∀ g ∈ rest, (if g.1 = key then (key, v) else g) = g := fun g hg =>
        if_neg fun he => hk (List.mem_map.2 ⟨g, hg, he.trans heq.symm⟩)
      rw [if_pos heq, if_pos heq, List.map_congr_left hsame, List.map_id', heq]
    · rw [if_neg heq, if_neg heq, ih hrest (List.mem_of_ne_of_mem (Ne.symm heq) h)]

theorem drop_eq_filter {fields : List (String × Value)} (hn : (fields.map (·.1)).Nodup) :
    drop key fields = fields.filter (·.1 ≠ key) := by
  induction fields with
  | nil => rfl
  | cons f rest ih =>
    obtain ⟨k, w⟩ := f
    obtain ⟨hk, hrest⟩ := List.nodup_cons.1 hn
    rw [drop]
    by_cases heq : k = key
    · rw [if_pos heq, List.filter_cons_of_neg (by simpa using heq)]
      have hne : ∀ g ∈ rest, g.1 ≠ key := fun g hg he =>
        hk (List.mem_map.2 ⟨g, hg, he.trans heq.symm⟩)
      exact (List.filter_eq_self.2 fun g hg => decide_eq_true (hne g hg)).symm
    · rw [if_neg heq, ih hrest, List.filter_cons_of_pos (by simpa using heq)]

theorem keys_erase (hn : doc.keys.Nodup) (key : String) :
    (doc.erase key).keys = doc.keys.filter (· ≠ key) := by
  rw [keys, erase, drop_eq_filter hn, keys, List.filter_map]
  rfl

/-! ## The map -/

/-- What a map holds under a name: the value, and since when the name is there. -/
structure Slot where
  value : Value
  since : Nat

/-- A finite map that remembers when each name came. -/
structure Roll where
  /-- The insertions so far. -/
  clock : Nat
  slots : Finmap fun _ : String => Slot

namespace Roll

def empty : Roll := ⟨0, ∅⟩

def get? (roll : Roll) (key : String) : Option Value := (roll.slots.lookup key).map Slot.value

def since? (roll : Roll) (key : String) : Option Nat := (roll.slots.lookup key).map Slot.since

/-- A name that is there stays since the moment it came. -/
def insert (roll : Roll) (key : String) (v : Value) : Roll :=
  ⟨roll.clock + 1, roll.slots.insert key ⟨v, (roll.since? key).getD roll.clock⟩⟩

def erase (roll : Roll) (key : String) : Roll := ⟨roll.clock, roll.slots.erase key⟩

def ofList (pairs : List (String × Value)) : Roll :=
  pairs.foldl (fun roll p => roll.insert p.1 p.2) empty

/-- One name came before another, and both are there. -/
def Before (roll : Roll) (a b : String) : Prop :=
  ∃ i j, roll.since? a = some i ∧ roll.since? b = some j ∧ i < j

variable {roll : Roll} {k : String}

theorem lookup_insert : (roll.insert key v).slots.lookup k =
    if k = key then some ⟨v, (roll.since? key).getD roll.clock⟩ else roll.slots.lookup k := by
  rw [insert]
  split
  · next h => rw [h, Finmap.lookup_insert]
  · next h => rw [Finmap.lookup_insert_of_ne _ h]

theorem lookup_erase :
    (roll.erase key).slots.lookup k = if k = key then none else roll.slots.lookup k := by
  rw [erase]
  split
  · next h => rw [h, Finmap.lookup_erase]
  · next h => rw [Finmap.lookup_erase_ne h]

theorem get?_insert :
    (roll.insert key v).get? k = if k = key then some v else roll.get? k := by
  rw [get?, lookup_insert]
  split <;> rfl

theorem since?_insert :
    (roll.insert key v).since? k =
      if k = key then some ((roll.since? key).getD roll.clock) else roll.since? k := by
  rw [since?, lookup_insert]
  split <;> rfl

theorem get?_erase : (roll.erase key).get? k = if k = key then none else roll.get? k := by
  rw [get?, lookup_erase]
  split <;> rfl

theorem since?_erase :
    (roll.erase key).since? k = if k = key then none else roll.since? k := by
  rw [since?, lookup_erase]
  split <;> rfl

theorem mem_iff_get? : key ∈ roll.slots ↔ (roll.get? key).isSome = true := by
  rw [get?, Option.isSome_map, Finmap.lookup_isSome]

theorem exists_since? (h : (roll.get? key).isSome = true) : ∃ i, roll.since? key = some i := by
  rw [get?, Option.isSome_map, Option.isSome_iff_exists] at h
  obtain ⟨slot, h⟩ := h
  exact ⟨slot.since, by rw [since?, h, Option.map_some]⟩

theorem Before.ne {a b : String} (h : roll.Before a b) : a ≠ b := by
  rintro rfl
  obtain ⟨i, j, hi, hj, hlt⟩ := h
  exact hlt.ne (Option.some.inj (hi.symm.trans hj))

theorem Before.asymm {a b : String} (h : roll.Before a b) : ¬ roll.Before b a := by
  rintro ⟨j', i', hj', hi', hgt⟩
  obtain ⟨i, j, hi, hj, hlt⟩ := h
  obtain rfl : i = i' := Option.some.inj (hi.symm.trans hi')
  obtain rfl : j = j' := Option.some.inj (hj.symm.trans hj')
  exact hlt.asymm hgt

end Roll

/-! ## What a document and a map have in common -/

/-- All that can be seen of the document is as the map has it, and its names stand in the
order in which they came. -/
structure Agrees (doc : Document) (roll : Roll) : Prop where
  distinct : doc.keys.Nodup
  get? : ∀ key, doc.get? key = roll.get? key
  contains : ∀ key, doc.contains key = true ↔ key ∈ roll.slots
  size : doc.size = roll.slots.keys.card
  mem_keys : ∀ key, key ∈ doc.keys ↔ key ∈ roll.slots
  ordered : doc.keys.Pairwise roll.Before
  fields : doc.fields.map (fun f => (f.1, some f.2)) = doc.keys.map fun key => (key, roll.get? key)

/-- What is carried from one operation to the next: the moments are past, so that a name
that comes now comes after all others. -/
structure Follows (doc : Document) (roll : Roll) : Prop where
  get? : ∀ key, doc.get? key = roll.get? key
  ordered : doc.keys.Pairwise roll.Before
  past : ∀ key i, roll.since? key = some i → i < roll.clock

variable {roll : Roll}

theorem Follows.distinct (h : doc.Follows roll) : doc.keys.Nodup :=
  h.ordered.imp Roll.Before.ne

theorem Follows.mem_keys (h : doc.Follows roll) (key : String) :
    key ∈ doc.keys ↔ key ∈ roll.slots := by
  rw [← contains_iff, contains, h.get?, Roll.mem_iff_get?]

theorem Follows.agrees (h : doc.Follows roll) : doc.Agrees roll where
  distinct := h.distinct
  get? := h.get?
  contains key := contains_iff.trans (h.mem_keys key)
  size := by
    have hset : doc.keys.toFinset = roll.slots.keys := by
      ext key
      rw [List.mem_toFinset, Finmap.mem_keys, h.mem_keys]
    rw [← hset, List.toFinset_card_of_nodup h.distinct, keys, List.length_map, size]
  mem_keys := h.mem_keys
  ordered := h.ordered
  fields := by
    rw [keys, List.map_map]
    refine List.map_congr_left fun f hf => congrArg (Prod.mk f.1) ?_
    exact ((Value.lookup_iff_mem h.distinct).2 hf).symm.trans (h.get? f.1)

/-- A map has one document that agrees with it. -/
theorem Agrees.eq (h : doc.Agrees roll) (ho : other.Agrees roll) : other = doc := by
  refine ext_of_get? h.distinct ?_ fun key => (ho.get? key).trans (h.get? key).symm
  refine List.Perm.eq_of_pairwise (fun a b _ _ hab hba => absurd hba hab.asymm)
    ho.ordered h.ordered ?_
  exact (List.perm_ext_iff_of_nodup ho.distinct h.distinct).2 fun key =>
    (ho.mem_keys key).trans (h.mem_keys key).symm

theorem follows_empty : empty.Follows Roll.empty where
  get? _ := rfl
  ordered := List.Pairwise.nil
  past key i hi := by
    rw [Roll.since?, Roll.empty, Finmap.lookup_empty] at hi
    cases hi

theorem Follows.insert (h : doc.Follows roll) (key : String) (v : Value) :
    (doc.insert key v).Follows (roll.insert key v) where
  get? k := by rw [get?_insert, Roll.get?_insert, h.get?]
  ordered := by
    have hsome : ∀ a ∈ doc.keys, ∃ i, roll.since? a = some i := fun a ha =>
      Roll.exists_since? (Roll.mem_iff_get?.1 ((h.mem_keys a).1 ha))
    rw [keys_insert]
    by_cases hk : key ∈ doc.keys
    · -- The name keeps its moment, so the moments are what they were.
      obtain ⟨i, hi⟩ := hsome key hk
      have hsame : ∀ a, (roll.insert key v).since? a = roll.since? a := by
        intro a
        rw [Roll.since?_insert]
        split
        · next ha => rw [ha, hi, Option.getD_some]
        · rfl
      rw [if_pos hk]
      refine h.ordered.imp fun hab => ?_
      simpa only [Roll.Before, hsame] using hab
    · have hold : ∀ a ∈ doc.keys, (roll.insert key v).since? a = roll.since? a := by
        intro a ha
        rw [Roll.since?_insert, if_neg (ne_of_mem_of_not_mem ha hk)]
      have hnone : roll.since? key = none := by
        cases hs : roll.slots.lookup key with
        | none => rw [Roll.since?, hs, Option.map_none]
        | some slot => exact absurd ((h.mem_keys key).2 (Finmap.mem_iff.2 ⟨slot, hs⟩)) hk
      rw [if_neg hk]
      refine List.pairwise_append.2 ⟨?_, List.pairwise_singleton .., ?_⟩
      · refine h.ordered.imp_of_mem fun ha hb hab => ?_
        simpa only [Roll.Before, hold _ ha, hold _ hb] using hab
      · rintro a ha b hb
        obtain rfl := List.mem_singleton.1 hb
        obtain ⟨i, hi⟩ := hsome a ha
        refine ⟨i, roll.clock, (hold a ha).trans hi, ?_, h.past a i hi⟩
        rw [Roll.since?_insert, if_pos rfl, hnone, Option.getD_none]
  past k i hi := by
    rw [Roll.since?_insert] at hi
    split at hi
    · cases hs : roll.since? key with
      | none =>
        rw [hs] at hi
        exact Option.some.inj hi ▸ Nat.lt_succ_self _
      | some j =>
        rw [hs] at hi
        exact Option.some.inj hi ▸ Nat.lt_succ_of_lt (h.past key j hs)
    · exact Nat.lt_succ_of_lt (h.past k i hi)

theorem Follows.erase (h : doc.Follows roll) (key : String) :
    (doc.erase key).Follows (roll.erase key) where
  get? k := by
    rw [Roll.get?_erase]
    split
    · next hk => exact hk ▸ lookup_drop_self h.distinct
    · next hk => exact (get?_erase hk).trans (h.get? k)
  ordered := by
    rw [keys_erase h.distinct]
    refine (h.ordered.filter _).imp_of_mem fun ha hb hab => ?_
    have ha := of_decide_eq_true (List.mem_filter.1 ha).2
    have hb := of_decide_eq_true (List.mem_filter.1 hb).2
    simpa only [Roll.Before, Roll.since?_erase, if_neg ha, if_neg hb] using hab
  past k i hi := by
    rw [Roll.since?_erase] at hi
    split at hi
    · cases hi
    · exact h.past k i hi

theorem follows_ofList (pairs : List (String × Value)) :
    (ofList pairs).Follows (Roll.ofList pairs) := by
  induction pairs using List.reverseRecOn with
  | nil => exact follows_empty
  | append_singleton pairs p ih =>
    rw [ofList_snoc, Roll.ofList, List.foldl_append]
    exact ih.insert p.1 p.2

/-! ## Operations -/

/-- An operation that changes a document, or makes one. -/
inductive Operation
  | insert (key : String) (v : Value)
  /-- An insertion that gives back the document and no value. -/
  | add (key : String) (v : Value)
  | remove (key : String)
  | collect (pairs : List (String × Value))

namespace Operation

/-- The value that a document gives back, if any, and the document then. -/
def run : Operation → Document → Option Value × Document
  | insert key v, doc => doc.exchange key v
  | add key v, doc => (none, (doc.exchange key v).2)
  | remove key, doc => doc.take key
  | collect pairs, _ => (none, ofList pairs)

/-- The value that a map held before, where one is asked for, and the map then. -/
def track : Operation → Roll → Option Value × Roll
  | insert key v, roll => (roll.get? key, roll.insert key v)
  | add key v, roll => (none, roll.insert key v)
  | remove key, roll => (roll.get? key, roll.erase key)
  | collect pairs, _ => (none, Roll.ofList pairs)

/-- The values that operations give back one after another, and what they come to. -/
def course {σ : Type} (step : Operation → σ → Option Value × σ) :
    List Operation → σ → List (Option Value) × σ
  | [], s => ([], s)
  | op :: rest, s =>
    let (given, next) := step op s
    let (more, last) := course step rest next
    (given :: more, last)

end Operation

open Operation (course run track)

theorem Follows.step (h : doc.Follows roll) (op : Operation) :
    (run op doc).1 = (track op roll).1 ∧ (run op doc).2.Follows (track op roll).2 := by
  cases op with
  | insert key v =>
    rw [run, exchange_eq]
    exact ⟨h.get? key, h.insert key v⟩
  | add key v =>
    rw [run, exchange_eq]
    exact ⟨rfl, h.insert key v⟩
  | remove key =>
    rw [run, take_eq]
    exact ⟨h.get? key, h.erase key⟩
  | collect pairs => exact ⟨rfl, follows_ofList pairs⟩

theorem Follows.through (h : doc.Follows roll) (ops : List Operation) :
    (course run ops doc).1 = (course track ops roll).1 ∧
      (course run ops doc).2.Follows (course track ops roll).2 := by
  induction ops generalizing doc roll with
  | nil => exact ⟨rfl, h⟩
  | cons op rest ih =>
    obtain ⟨hgiven, hnext⟩ := h.step op
    obtain ⟨hmore, hlast⟩ := ih hnext
    exact ⟨congrArg₂ List.cons hgiven hmore, hlast⟩

/-- After any operations on an empty document it agrees with the map that has gone through
the same, and they gave back the values that the map held. Then a value that is given for
a name that is there takes the place of the old one, a new name comes after the others, and
a field that is taken out leaves the others in their order; what is given back is what the
map holds under the name. -/
theorem agrees_course (ops : List Operation) :
    let (given, doc) := course run ops empty
    let (held, roll) := course track ops Roll.empty
    given = held ∧ doc.Agrees roll ∧
      (∀ key v, (doc.exchange key v).1 = roll.get? key ∧
        (doc.exchange key v).2.fields =
          if key ∈ roll.slots then doc.fields.map fun f => if f.1 = key then (key, v) else f
          else doc.fields ++ [(key, v)]) ∧
      ∀ key, (doc.take key).1 = roll.get? key ∧
        (doc.take key).2.fields = doc.fields.filter (·.1 ≠ key) := by
  obtain ⟨hgiven, h⟩ := follows_empty.through ops
  refine ⟨hgiven, h.agrees, fun key v => ?_, fun key => ?_⟩
  · rw [exchange_eq]
    refine ⟨h.get? key, ?_⟩
    split
    · next hk => exact put_of_mem h.distinct ((h.mem_keys key).2 hk)
    · next hk => exact put_of_not_mem (mt (h.mem_keys key).1 hk)
  · rw [take_eq]
    exact ⟨h.get? key, drop_eq_filter h.distinct⟩

end Folio.Document
