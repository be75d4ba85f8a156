import Folio.Proofs.Store.Changes
import Folio.Service.Pipeline

/-!
# What stages and listeners do

Stages are given from outside, by a service and by its callers, and so are
listeners. What each stage respects, a validation by all of them respects.

Results:
* `within_validate`: a relation that every stage respects holds between what a
  validation begins with and what it leaves, also if a stage fails.
* `passed_of_runStages`: a validation that does not fail has run each of its stages.
* `respects_addBuiltin`: what the stages for the known capabilities respect.
* `mem_chain`: the stages that run are those of the service and of the caller.
-/
namespace Folio

variable {E L : Type}

namespace Subject

/-- What is stored stays as it is. -/
def SameStore (before after : Subject E L) : Prop :=
  before.context.backend.store.Same after.context.backend.store

theorem sameStore_frame : Frame (SameStore (E := E) (L := L)) :=
  ⟨fun _ => .refl _, fun h h' => h.trans h'⟩

end Subject

/-- The relation holds between whatever the stage is run on and what it
leaves. -/
def Validation.Respects (R : Subject E L → Subject E L → Prop) (v : Validation E L) : Prop :=
  ∀ stored, Within R (v.check stored)

/-- A listener that does not fail and leaves what is stored alone. -/
structure Listener.Discreet (l : Listener E L) : Prop where
  saved : ∀ e notice c, ∃ d, (l.onSaved e notice).run c = (.ok (), d) ∧
    c.backend.store.Same d.backend.store
  deleted : ∀ e c, ∃ d, (l.onDeleted e).run c = (.ok (), d) ∧
    c.backend.store.Same d.backend.store

namespace Chain

variable {R : Subject E L → Subject E L → Prop} (stored : Option E)

theorem within_runStages (hR : Frame R) {s : Schema} {c : ClassRef}
    {stages : List (Validation E L)} (h : ∀ v ∈ stages, v.Respects R) :
    Within R (runStages s c stored stages) := by
  induction stages with
  | nil => exact hR.within_pure ()
  | cons v rest ih =>
    obtain ⟨hv, hrest⟩ := List.forall_mem_cons.1 h
    rw [runStages]
    split
    · exact hR.within_bind (hv stored) fun _ => ih hrest
    · exact ih hrest

theorem within_validate [Record E] (hR : Frame R) {chain : Chain E L}
    (h : ∀ v ∈ chain.order, v.Respects R) : Within R (chain.validate stored) :=
  hR.within_bind hR.within_get fun _ => within_runStages stored hR h

variable {stored} in
/-- A validation that does not fail has run each stage that looks at records of the
class. -/
theorem passed_of_runStages (hR : Frame R) {s : Schema} {c : ClassRef}
    {stages : List (Validation E L)} (h : ∀ v ∈ stages, v.Respects R) {v : Validation E L}
    (hv : v ∈ stages) (happlies : applies s c v = true) {before after : Subject E L}
    (hrun : (runStages s c stored stages).run before = (.ok (), after)) :
    ∃ here there, R before here ∧ R there after ∧ (v.check stored).run here = (.ok (), there) := by
  induction stages generalizing before with
  | nil => cases hv
  | cons w rest ih =>
    obtain ⟨hw, hrest⟩ := List.forall_mem_cons.1 h
    rw [runStages] at hrun
    split at hrun
    · obtain ⟨⟨⟩, next, hcheck, hothers⟩ := ok_of_run_bind hrun
      dsimp only at hothers
      have hnext : R before next := by
        have hkept := hw stored before
        rwa [hcheck] at hkept
      rcases List.mem_cons.1 hv with rfl | hv
      · have hlater := within_runStages stored hR (s := s) (c := c) hrest next
        rw [hothers] at hlater
        exact ⟨before, next, hR.refl before, hlater, hcheck⟩
      · obtain ⟨here, there, hhere, hthere, hpassed⟩ := ih hrest hv hothers
        exact ⟨here, there, hR.trans hnext hhere, hthere, hpassed⟩
    · next hskipped =>
      rcases List.mem_cons.1 hv with rfl | hv
      · exact absurd happlies hskipped
      · exact ih hrest hv hrun

theorem mem_place {chain : Chain E L} {position : Position} {v w : Validation E L} :
    w ∈ (chain.place position v).order ↔ w ∈ chain.order ∨ w = v := by
  cases position <;> simp only [place, order, List.mem_append, List.mem_singleton] <;> grind

theorem mem_general {chain : Chain E L} {stages : List (Position × Validation E L)}
    {w : Validation E L} :
    w ∈ (chain.general stages).order ↔ w ∈ chain.order ∨ ∃ p, (p, w) ∈ stages := by
  induction stages generalizing chain with
  | nil => simp [general]
  | cons s rest ih =>
    rw [general, List.foldl_cons]
    refine ih.trans ?_
    rw [mem_place]
    obtain ⟨p, v⟩ := s
    simp only [List.mem_cons, Prod.mk.injEq]
    grind

end Chain

/-- The stages that run are those of the service and of the caller. -/
theorem Service.mem_chain {s : Service E L} {stages : List (Validation E L)} {w : Validation E L} :
    w ∈ (s.chain stages).order ↔ (∃ p, (p, w) ∈ s.general.getD []) ∨ w ∈ stages := by
  have hcaller : ∀ chain : Chain E L,
      w ∈ (chain.caller stages).order ↔ w ∈ chain.order ∨ w ∈ stages := by
    intro chain
    simp only [Chain.caller, Chain.order, List.mem_append]
    grind
  have hempty : w ∉ ({} : Chain E L).order := by simp [Chain.order]
  rw [Service.chain, hcaller, Chain.mem_general, or_iff_right hempty]

/-- What the stages of a service and those of a caller respect, all that run
respect. -/
theorem Service.respects_chain {R : Subject E L → Subject E L → Prop} {s : Service E L}
    {stages : List (Validation E L)} (hs : ∀ v ∈ (s.chain []).order, v.Respects R)
    (hstages : ∀ v ∈ stages, v.Respects R) : ∀ v ∈ (s.chain stages).order, v.Respects R := by
  intro v hv
  rcases mem_chain.1 hv with hv | hv
  · exact hs v (mem_chain.2 (.inl hv))
  · exact hstages v hv

/-! ## Stages for the known capabilities -/

namespace Validation

variable [Record E] {R : Subject E L → Subject E L → Prop}

/-- The stage for names reports, and does nothing else. -/
theorem respects_name (hR : Frame R)
    (hreport : ∀ name message, Within R (Subject.addField name message : SubjectM E L Unit))
    (bounds : NameBounds) : (name bounds : Validation E L).Respects R := by
  intro stored
  refine hR.within_bind hR.within_get fun subject => ?_
  dsimp only
  split
  · exact hR.within_pure _
  split
  · split
    · exact hreport _ _
    · exact hR.within_forM (fun _ => hreport _ _) _
  · exact hreport _ _

/-- The stage for descriptions reports, or clears the description. -/
theorem respects_description (hR : Frame R)
    (hreport : ∀ name message, Within R (Subject.addField name message : SubjectM E L Unit))
    (hclear : Within R (Subject.held (Held.modify descriptionProperty none) : SubjectM E L Unit))
    (most : Option Nat) : (description most : Validation E L).Respects R := by
  intro stored
  refine hR.within_bind hR.within_get fun subject => ?_
  dsimp only
  -- the check is the same on new records and on stored ones, once it takes place
  split
  all_goals
    split
    · exact hR.within_pure _
    split
    · split
      · exact hclear
      · split
        · exact hreport _ _
        · exact hR.within_pure _
    · exact hclear

/-- The stage for the mark of a defunct record reports, and does nothing else. -/
theorem respects_defunct (hR : Frame R)
    (hreport : ∀ name message, Within R (Subject.addField name message : SubjectM E L Unit)) :
    (defunct : Validation E L).Respects R := by
  intro stored
  refine hR.within_bind hR.within_get fun subject => ?_
  dsimp only
  split
  · exact hreport _ _
  · exact hR.within_pure _

end Validation

/-- What every stage of a service and of a caller respects, they respect together
with the stages for the known capabilities, if reports and clearing a description
do. -/
theorem Service.respects_addBuiltin [Record E] {R : Subject E L → Subject E L → Prop} (hR : Frame R)
    (hreport : ∀ name message, Within R (Subject.addField name message : SubjectM E L Unit))
    (hclear : Within R (Subject.held (Held.modify descriptionProperty none) : SubjectM E L Unit))
    {s t : Service E L} {config : Config} {stages : List (Validation E L)}
    (h : s.addBuiltin config = .ok t) (hs : ∀ v ∈ (s.chain stages).order, v.Respects R) :
    ∀ v ∈ (t.chain stages).order, v.Respects R := by
  obtain ⟨bounds, -, h⟩ := ok_of_bind h
  cases h
  intro v hv
  rcases mem_chain.1 hv with ⟨p, hp⟩ | hv
  · rcases List.mem_append.1 hp with hp | hp
    · exact hs v (mem_chain.2 (.inl ⟨p, hp⟩))
    · simp only [List.mem_cons, Prod.mk.injEq, List.not_mem_nil, or_false] at hp
      rcases hp with ⟨-, rfl⟩ | ⟨-, rfl⟩ | ⟨-, rfl⟩
      · exact Validation.respects_name hR hreport bounds
      · exact Validation.respects_description hR hreport hclear _
      · exact Validation.respects_defunct hR hreport
  · exact hs v (mem_chain.2 (.inr hv))

end Folio
