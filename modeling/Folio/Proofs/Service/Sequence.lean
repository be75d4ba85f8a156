import Mathlib.Data.List.Basic
import Folio.Proofs.Service.Stages

/-!
# The order in which stages run

A chain is built by calls that each add stages, those of a service at positions and
those of a caller between them. Whatever the calls and however they are mixed, the
stages stand slot by slot, and within a slot as they were added. A validation runs
those among them that look at records of the class, each on what the one before it
left, and the first failure ends it.

Results:
* `order_build`: the order of a chain that was built by calls.
* `perm_inSlots`: no stage is lost or doubled by being put into its slot.
* `validate_built`: what a validation by such a chain runs, and how it ends.
-/
namespace Folio

variable {E L : Type}

namespace Chain

/-! ## Calls that build a chain -/

/-- A call that adds stages to a chain. -/
inductive Addition (E L : Type) where
  /-- One stage of a service. -/
  | place (position : Position) (v : Validation E L)
  /-- Stages of a service. -/
  | general (stages : List (Position × Validation E L))
  /-- Stages of a caller. -/
  | caller (stages : List (Validation E L))

/-- Where a stage stands: at a position, or among those of a caller. -/
abbrev Slot := Option Position

/-- The slots in the order they run. -/
def slots : List Slot := [some .first, some .pre, none, some .post, some .last]

namespace Addition

/-- The chain after the call. -/
def apply (chain : Chain E L) : Addition E L → Chain E L
  | place position v => chain.place position v
  | general stages => chain.general stages
  | caller stages => chain.caller stages

/-- The stages that a call adds, each with its slot. -/
def added : Addition E L → List (Slot × Validation E L)
  | place position v => [(some position, v)]
  | general stages => stages.map fun s => (some s.1, s.2)
  | caller stages => stages.map fun v => (none, v)

end Addition

/-- The chain that the calls build of nothing. -/
def build (calls : List (Addition E L)) : Chain E L := calls.foldl Addition.apply {}

/-- The stages that the calls add, one call after another. -/
def added (calls : List (Addition E L)) : List (Slot × Validation E L) :=
  calls.flatMap Addition.added

/-- Those among the stages that belong to the slot, in the same order. -/
def ofSlot (slot : Slot) (stages : List (Slot × Validation E L)) : List (Validation E L) :=
  (stages.filter (·.1 = slot)).map (·.2)

/-- The stages slot by slot. -/
def inSlots (stages : List (Slot × Validation E L)) : List (Validation E L) :=
  slots.flatMap fun slot => ofSlot slot stages

/-! ## What stands in a slot -/

/-- What a chain has in a slot. -/
def slot (chain : Chain E L) : Slot → List (Validation E L)
  | some .first => chain.first
  | some .pre => chain.pre
  | none => chain.stages
  | some .post => chain.post
  | some .last => chain.last

theorem order_eq_slots (chain : Chain E L) : chain.order = slots.flatMap chain.slot := by
  simp [order, slots, slot]

theorem ofSlot_append (slot : Slot) (stages others : List (Slot × Validation E L)) :
    ofSlot slot (stages ++ others) = ofSlot slot stages ++ ofSlot slot others := by
  rw [ofSlot, List.filter_append, List.map_append, ofSlot, ofSlot]

theorem slot_place (chain : Chain E L) (position : Position) (v : Validation E L) (slot : Slot) :
    (chain.place position v).slot slot = chain.slot slot ++ ofSlot slot [(some position, v)] := by
  rcases slot with _ | other
  · cases position <;> simp [place, Chain.slot, ofSlot]
  · cases position <;> cases other <;> simp [place, Chain.slot, ofSlot]

theorem slot_general (chain : Chain E L) (stages : List (Position × Validation E L)) (slot : Slot) :
    (chain.general stages).slot slot =
      chain.slot slot ++ ofSlot slot (stages.map fun s => (some s.1, s.2)) := by
  induction stages generalizing chain with
  | nil => exact (List.append_nil _).symm
  | cons s rest ih =>
    have hnext : chain.general (s :: rest) = (chain.place s.1 s.2).general rest := rfl
    rw [hnext, ih, slot_place, List.append_assoc, ← ofSlot_append]
    rfl

theorem ofSlot_caller (slot : Slot) (stages : List (Validation E L)) :
    ofSlot slot (stages.map fun v => (none, v)) = if slot = none then stages else [] := by
  rw [ofSlot, List.filter_map, List.map_map]
  by_cases h : slot = none
  · simp [h, Function.comp_def]
  · simp [h, Ne.symm h, Function.comp_def]

theorem slot_caller (chain : Chain E L) (stages : List (Validation E L)) (slot : Slot) :
    (chain.caller stages).slot slot =
      chain.slot slot ++ ofSlot slot (stages.map fun v => (none, v)) := by
  rw [ofSlot_caller]
  rcases slot with _ | position
  · rfl
  · cases position <;> exact (List.append_nil _).symm

/-- A call adds its stages behind those that are there, slot by slot. -/
theorem slot_apply (chain : Chain E L) (call : Addition E L) (slot : Slot) :
    (call.apply chain).slot slot = chain.slot slot ++ ofSlot slot call.added := by
  cases call with
  | place position v => exact slot_place chain position v slot
  | general stages => exact slot_general chain stages slot
  | caller stages => exact slot_caller chain stages slot

theorem slot_foldl (chain : Chain E L) (calls : List (Addition E L)) (slot : Slot) :
    (calls.foldl Addition.apply chain).slot slot = chain.slot slot ++ ofSlot slot (added calls) := by
  induction calls generalizing chain with
  | nil => exact (List.append_nil _).symm
  | cons call rest ih =>
    rw [List.foldl_cons, ih, slot_apply, List.append_assoc, ← ofSlot_append]
    rfl

/-- The stages run slot by slot, and within a slot as they were added. -/
theorem order_build (calls : List (Addition E L)) : (build calls).order = inSlots (added calls) := by
  have hempty : ∀ slot, ({} : Chain E L).slot slot = [] := by
    rintro (_ | position)
    · rfl
    · cases position <;> rfl
  rw [order_eq_slots]
  refine List.flatMap_congr fun slot _ => ?_
  rw [build, slot_foldl, hempty, List.nil_append]

/-- Sorted into slots, one after another, a list has the members it had. -/
theorem perm_flatMap_filter {V : Type} {slots : List Slot} (hn : slots.Nodup)
    {stages : List (Slot × V)} (h : ∀ s ∈ stages, s.1 ∈ slots) :
    (slots.flatMap fun slot => stages.filter (·.1 = slot)).Perm stages := by
  induction slots generalizing stages with
  | nil =>
    cases stages with
    | nil => exact .refl _
    | cons s rest => cases h s List.mem_cons_self
  | cons first rest ih =>
    obtain ⟨hfirst, hn⟩ := List.nodup_cons.1 hn
    -- the slots behind the first have what the first leaves
    have hrest : (rest.flatMap fun slot => stages.filter (·.1 = slot)) =
        rest.flatMap fun slot => (stages.filter fun s => !decide (s.1 = first)).filter (·.1 = slot) := by
      refine List.flatMap_congr fun slot hslot => ?_
      rw [List.filter_filter]
      refine List.filter_congr fun s _ => ?_
      have hne : slot ≠ first := fun heq => hfirst (heq ▸ hslot)
      by_cases hs : s.1 = slot <;> simp [hs, hne]
    have hleft : ∀ s ∈ stages.filter fun s => !decide (s.1 = first), s.1 ∈ rest := by
      intro s hs
      obtain ⟨hs, hne⟩ := List.mem_filter.1 hs
      exact (List.mem_cons.1 (h s hs)).resolve_left (by simpa using hne)
    rw [List.flatMap_cons, hrest]
    exact ((ih hn hleft).append_left _).trans (List.filter_append_perm _ stages)

/-- Each stage is put into the one slot it belongs to. -/
theorem perm_inSlots (stages : List (Slot × Validation E L)) :
    (inSlots stages).Perm (stages.map (·.2)) := by
  have hall : ∀ slot : Slot, slot ∈ slots := by
    rintro (_ | position)
    · decide
    · cases position <;> decide
  have hmap : inSlots stages =
      (slots.flatMap fun slot => stages.filter (·.1 = slot)).map (·.2) := List.map_flatMap.symm
  rw [hmap]
  exact (perm_flatMap_filter (by decide) fun s _ => hall s.1).map _

/-! ## Runs -/

theorem runStages_eq_forM (s : Schema) (c : ClassRef) (stored : Option E)
    (stages : List (Validation E L)) :
    runStages s c stored stages = (stages.filter (applies s c)).forM fun v => v.check stored := by
  induction stages with
  | nil => rfl
  | cons v rest ih =>
    rw [runStages, ih]
    by_cases happlies : applies s c v = true
    · rw [if_pos happlies, List.filter_cons_of_pos happlies]
      rfl
    · rw [if_neg happlies, List.filter_cons_of_neg happlies]

variable [Record E]

/-- The stage looks at records of every class, or the record's class has the capability
that it is for. -/
def concerns (subject : Subject E L) (v : Validation E L) : Bool :=
  v.capability.all
    (subject.context.backend.registry.catalog.schema.implements (Record.cls subject.record))

theorem applies_eq_concerns (subject : Subject E L) :
    applies subject.context.backend.registry.catalog.schema (Record.cls subject.record) =
      concerns (L := L) subject := by
  funext v
  unfold applies concerns
  cases v.capability <;> rfl

/-- The stages that the calls add and that look at the record, slot by slot. -/
def due (calls : List (Addition E L)) (subject : Subject E L) : List (Validation E L) :=
  (inSlots (added calls)).filter (concerns subject)

/-- Whatever calls built the chain, and whatever it is run on: due are the stages that
were added and look at the record, each as often as it was added, slot by slot and
within a slot in the order they were added. Either they all pass, one after another, or
those before one of them pass, and its failure is the result and the end. -/
theorem validate_built (calls : List (Addition E L)) (stored : Option E)
    (before : Subject E L) :
    (due calls before).Perm (((added calls).map (·.2)).filter (concerns before)) ∧
      ((∃ after, Passes (fun v => v.check stored) (due calls before) before after ∧
          ((build calls).validate stored).run before = (.ok (), after)) ∨
        ∃ ran v rest here failure after, due calls before = ran ++ v :: rest ∧
          Passes (fun v => v.check stored) ran before here ∧
          (v.check stored).run here = (.error failure, after) ∧
          ((build calls).validate stored).run before = (.error failure, after)) := by
  refine ⟨(perm_inSlots _).filter _, ?_⟩
  rw [validate, run_bind_ok (run_getThe before), runStages_eq_forM, applies_eq_concerns,
    order_build]
  exact forM_cases _ _ before

omit [Record E] in
/-- The chain of a service is built of two calls. -/
example (s : Service E L) (stages : List (Validation E L)) :
    s.chain stages = build [.general (s.general.getD []), .caller stages] := rfl

end Chain
end Folio
