import Folio.Proofs.Store.Changes

/-!
# Calls on one document that fail

A call that works on one document looks first, then works out what is to be
written, and changes the entries last. Whatever refuses it (a store that cannot
be reached, an entry that cannot be read, an id that is taken or would change,
an update that stops in the middle, a NaN) refuses it before that.

Results:
* `Clean.bind`, `Clean.answer`: how calls without traces of a failure are built.
* `failed_documents`: a call on one document that fails leaves every
  collection as it was.
-/
namespace Folio.Store

variable {α β : Type} {c : String} {s t : Store}

theorem same_frame : Frame Same := ⟨Same.refl, Same.trans⟩

theorem same_begin (kind : CallKind) (c : String) : Within Same (begin kind c) := by
  intro s
  rw [run_begin]
  split <;> exact fun _ => rfl

theorem same_locate (c : String) (filter : Filter) : Within Same (locate c filter) := by
  intro s
  rw [run_locate]
  exact .refl s

/-- A call that leaves what is stored as it was when it fails. -/
def Clean (m : Call α) : Prop := ∀ s fault t, m.run s = (.error fault, t) → s.Same t

namespace Clean

theorem pure (a : α) : Clean (Pure.pure a : Call α) := by
  intro s fault t h
  cases h

theorem lift (x : Except StoreFault α) : Clean (liftM x : Call α) := by
  intro s fault t h
  rw [run_lift] at h
  cases h
  exact .refl s

/-- What comes first changes nothing at all. -/
theorem bind {x : Call α} {f : α → Call β} (hx : Within Same x) (hf : ∀ a, Clean (f a)) :
    Clean (x >>= f) := by
  intro s fault t h
  have hlooked := hx s
  rw [run_bind] at h
  rcases hrun : x.run s with ⟨e | a, u⟩
  · rw [hrun] at h hlooked
    cases h
    exact hlooked
  · rw [hrun] at h hlooked
    exact hlooked.trans (hf a u fault t h)

/-- What comes last cannot fail. -/
theorem answer {x : Call α} (hx : Clean x) (g : α → β) :
    Clean (x >>= fun a => Pure.pure (g a)) := by
  intro s fault t h
  rw [run_bind] at h
  rcases hrun : x.run s with ⟨e | a, u⟩
  · rw [hrun] at h
    cases h
    exact hx s _ _ hrun
  · rw [hrun] at h
    cases h

theorem map {x : Call α} (hx : Clean x) (g : α → β) : Clean (g <$> x) := by
  rw [map_eq_pure_bind]
  exact hx.answer g

theorem place (c : String) (doc : Document) (fresh : ObjectId) :
    Clean (Store.place c doc fresh) := by
  intro s fault t h
  rw [run_place] at h
  split at h
  · cases h
  · cases h
    exact .refl s

theorem overwrite (c : String) (i : Nat) (doc : Document) : Clean (Store.overwrite c i doc) := by
  intro s fault t h
  rw [run_overwrite] at h
  split at h
  · cases h
  · cases h
    exact .refl s

theorem evict (c : String) (i : Nat) : Clean (Store.evict c i) := by
  intro s fault t h
  rw [run_evict] at h
  cases h

/-- A call that goes on with the first match. -/
theorem search {kind : CallKind} {filter : Filter} {f : Option (Nat × Document) → Call α}
    (hnone : Clean (f none)) (hsome : ∀ i doc, Clean (f (some (i, doc)))) :
    Clean (begin kind c >>= fun _ => locate c filter >>= f) := by
  refine .bind (same_begin kind c) fun _ => .bind (same_locate c filter) fun found => ?_
  rcases found with _ | ⟨i, doc⟩
  · exact hnone
  · exact hsome i doc

/-- Something is worked out, written in one place, and answered for. -/
theorem rewrite (c : String) (i : Nat) (step : Except StoreFault Document) (g : Document → α) :
    Clean (do
      let next ← step
      Store.overwrite c i next
      return g next : Call α) :=
  .bind (same_frame.within_lift step) fun next => (overwrite c i next).answer fun _ => g next

end Clean

/-- The request works on one document at most. -/
def Request.single : Request → Bool
  | insertOne .. | replaceOne .. | updateOne .. | deleteOne .. | findOneAndUpdate ..
  | findOneAndReplace .. | findOneAndDelete .. => true
  | _ => false

theorem clean_perform {r : Request} (hr : r.single = true) : Clean (perform r) := by
  cases r with
  | insertOne c doc fresh => exact .map (.bind (same_begin _ c) fun _ => .place c doc fresh) _
  | replaceOne c filter doc upsert fresh =>
    refine .map (.search ?_ fun i existing => .rewrite c i _ _) _
    cases upsert with
    | true => exact .answer (.place c doc fresh) _
    | false => exact .pure _
  | updateOne c filter update =>
    refine .map (.search ?_ fun i doc => ?_) _
    · exact .pure _
    · exact .rewrite c i _ _
  | findOneAndUpdate c filter update version =>
    refine .map (.search ?_ fun i doc => ?_) _
    · exact .pure _
    · exact .rewrite c i _ _
  | findOneAndReplace c filter doc version fresh =>
    refine .map (.search ?_ fun i existing => ?_) _
    · exact .pure _
    · exact .rewrite c i _ _
  | findOneAndDelete c filter =>
    refine .map (.search ?_ fun i doc => ?_) _
    · exact .pure _
    · exact .answer (.evict c i) _
  | deleteOne c filter =>
    refine .map (.search ?_ fun i doc => ?_) _
    · exact .pure _
    · exact .answer (.evict c i) _
  | _ => cases hr

/-- A call on one document that fails leaves the documents of every collection
as they were, whatever the fault is. -/
theorem failed_documents {r : Request} (hr : r.single = true) {fault : StoreFault}
    (h : (perform r).run s = (.error fault, t)) (c : String) : t.documents c = s.documents c :=
  (clean_perform hr s fault t h).documents c

/-- Three tasks are put in, two of them open. -/
def tasks : List Request :=
  [.insertOne "tasks" ⟨[("open", .bool true)]⟩ (.ofParts 1 1),
    .insertOne "tasks" ⟨[("open", .bool false)]⟩ (.ofParts 1 2),
    .insertOne "tasks" ⟨[("open", .bool true)]⟩ (.ofParts 1 3)]

def task (n : Nat) (isOpen : Bool) : Document :=
  ⟨[("_id", .objectId (.ofParts 1 n)), ("open", .bool isOpen)]⟩

/-- The second change cannot be made after the first one. -/
def halfway : Request :=
  .updateOne "tasks" .all [.set "open" .null, .inc "open" (.integer 1)]

/-- The update fails, and the first change is not seen either. -/
theorem failed_documents_tasks :
    ∃ t, (perform halfway).run (empty.after tasks) = (.error (.update (.notNumeric "open")), t) ∧
      t.documents "tasks" = .ok [task 1 true, task 2 false, task 3 true] := by
  have hfails : (perform halfway).run (empty.after tasks) =
      (.error (.update (.notNumeric "open")), ((perform halfway).run (empty.after tasks)).2) := by rfl
  have hdocs : (empty.after tasks).documents "tasks" =
      .ok [task 1 true, task 2 false, task 3 true] := by rfl
  exact ⟨_, hfails, (failed_documents rfl hfails "tasks").trans hdocs⟩

end Folio.Store
