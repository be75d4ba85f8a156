import Folio.Proofs.Collection.Finding
import Folio.Proofs.Collection.Stamps

/-!
# Writing an entity

Saving stamps the entity, encodes it and makes one call on the store. Any of
these may fail. Either all three succeed, and one entry is put into the store, or
the store is as it was and the stamps are taken back.

Results:
* `insert_outcomes`, `replace_outcomes`: what the two ways to save come to,
  before stamps are taken back.
* `save_outcomes`: the stamped entity is written and is the answer, or all is as
  before.
* `calls_save`: an entity with an id that can be encoded is saved by one call.
-/
namespace Folio

variable {e x : Entity} {b b' : Backend} {c : Collection} {ambient : Ambient}

/-- The entity with other stamps, under the id. -/
structure Entity.Stamped (e : Entity) (id : ObjectId) (x : Entity) : Prop where
  alike : e.Alike x
  proper : (FieldValue.entity e).Proper → (FieldValue.entity x).Proper
  reachable : ∀ (s : Schema) (known : ClassRef → Prop), e.Reachable s known → x.Reachable s known
  id : Keyed.get? Naming.idProperty x.attributes = some (.objectId id)

theorem Entity.stamped_withStamps (h : e.Based) {stamps : Stamps} {id : ObjectId}
    (hid : stamps.id = some id) : e.Stamped id (e.withStamps stamps) := by
  refine ⟨Stamps.alike_onto _ ⟨rfl, rfl, h.sorted, fun _ _ => rfl⟩, Stamps.proper_onto _,
    fun _ _ => Stamps.reachable_onto _, ?_⟩
  have hget := Stamps.get?_onto stamps e.attributes Naming.idProperty
  rw [hid] at hget
  exact hget

/-- The stamps with which an entity is saved: those of the id that it gets if it is
new, or else its own with a later time of change. -/
def Stamps.onSave (stamps : Stamps) (newId : Option ObjectId) (ambient : Ambient) : Stamps :=
  match stamps.id with
  | none => .ofId (newId.getD (ambient.fresh 0))
  | some _ => { stamps with modified := some (nextModified ambient.now stamps.modified) }

theorem Stamps.onSave_new {stamps : Stamps} (h : stamps.id = none) (newId : Option ObjectId)
    (ambient : Ambient) : stamps.onSave newId ambient = .ofId (newId.getD (ambient.fresh 0)) := by
  rw [onSave, h]

theorem Stamps.onSave_known {stamps : Stamps} {id : ObjectId} (h : stamps.id = some id)
    (newId : Option ObjectId) (ambient : Ambient) : stamps.onSave newId ambient =
      { stamps with modified := some (nextModified ambient.now stamps.modified) } := by
  rw [onSave, h]

namespace Held

theorem run_behind {α : Type} (m : BackendM α) :
    (Held.behind m : HeldM Entity α).run ⟨x, b⟩ = ((m.run b).1, ⟨x, (m.run b).2⟩) := rfl

/-- Encoding leaves the entity and the store alone. -/
theorem run_encode {α : Type} {f : Document → HeldM Entity α} {result : Except Failure Document}
    {r : Registry} (h : (Registry.encodeRecord x).run b.registry = (result, r)) :
    (do f (← Held.behind (Backend.look (Registry.encodeRecord (← getThe (Held Entity)).record)))
        : HeldM Entity α).run ⟨x, b⟩ =
      match result with
      | .ok doc => (f doc).run ⟨x, { b with registry := r }⟩
      | .error failure => (.error failure, ⟨x, { b with registry := r }⟩) := by
  rw [run_bind, run_getThe]
  simp only [run_bind, run_behind, Backend.run_look, h]
  cases result <;> rfl

theorem run_call {α : Type} {call : Store.Call α} {result : Except StoreFault α} {s : Store}
    (h : call.run b.store = (result, s)) :
    (Held.behind (Backend.call call) : HeldM Entity α).run ⟨x, b⟩ =
      (result.mapError .store, ⟨x, { b with store := s }⟩) := by
  rw [run_behind, Backend.run_call, h]

end Held

namespace Collection

/-- The time of change is written over the one that the entity has. -/
theorem run_stampChange (h : e.Based) (t : DateTime) :
    (Held.modify Record.modifiedProperty (some (.dateTime t)) : HeldM Entity Unit).run ⟨e, b⟩ =
      (.ok (), ⟨e.withStamps { Stamps.ofRecord e with modified := some t }, b⟩) := by
  rw [Entity.withStamps, Stamps.onto_modified h.sorted h.values]
  exact Stamps.run_stamp .dateTime Stamps.type_dateTime Schema.modified_base h.takesStamps (some t)

/-- What the entity is encoded as is put into the store, which can be reached: at
the end, or in the place of a document with the id. -/
inductive Wrote (c : Collection) (ambient : Ambient) (id : ObjectId) (x : Entity)
    (b b' : Backend) : (isNew : Bool) → Prop
  | inserted {doc : Document} {entry : Stored}
      (encoded : (Registry.encodeRecord x).run b.registry = (.ok doc, b'.registry))
      (kept : Stored.ofDocument (doc.withId none (ambient.fresh 1)) = .ok entry)
      (changed : b.store.Changed c.name (b.store.entries c.name ++ [entry]) b'.store)
      (available : b'.store.unavailable = false) :
      Wrote c ambient id x b b' true
  | replaced {doc existing next : Document} {i : Nat} {entry : Stored}
      (encoded : (Registry.encodeRecord x).run b.registry = (.ok doc, b'.registry))
      (place : Stored.At (b.store.entries c.name) i existing)
      (found : (Filter.id id).matchesDoc existing = true)
      (replacement : Store.replacement existing doc (ambient.fresh 1) = .ok next)
      (kept : Stored.ofDocument next = .ok entry)
      (changed : b.store.Changed c.name ((b.store.entries c.name).set i entry) b'.store)
      (available : b'.store.unavailable = false) :
      Wrote c ambient id x b b' false

/-- An insertion fails and leaves the store alone, or writes the stamped
entity. -/
theorem insert_outcomes {id : ObjectId} (h : e.Based) {result : Except Failure Unit}
    {after : Held Entity}
    (hrun : (c.insert id ambient : HeldM Entity Unit).run ⟨e, b⟩ = (result, after)) :
    after.record = e.withStamps (.ofId id) ∧
      ((∃ failure, result = .error failure ∧ b.store.Same after.backend.store) ∨
        result = .ok () ∧ c.Wrote ambient id after.record b after.backend true) := by
  rw [insert, run_bind_ok (Stamps.run_apply (Stamps.ofId id) h.takesStamps)] at hrun
  generalize e.withStamps (.ofId id) = x at hrun ⊢
  rcases hencode : (Registry.encodeRecord x).run b.registry with ⟨failure | doc, r⟩
  · rw [Held.run_encode hencode] at hrun
    cases hrun
    exact ⟨rfl, .inl ⟨failure, rfl, .refl _⟩⟩
  · rw [Held.run_encode hencode] at hrun
    rcases hcall : (Store.insertOne c.name doc (ambient.fresh 1)).run b.store with ⟨outcome, s⟩
    simp only [run_bind, Held.run_call (b := { b with registry := r }) hcall] at hrun
    rcases Store.insertOne_cases hcall with ⟨fault, rfl, hsame⟩ | ⟨entry, rfl, hof, -, hchanged⟩
    · cases hrun
      exact ⟨rfl, .inl ⟨_, rfl, hsame⟩⟩
    · cases hrun
      have havailable := (Store.counted_insertOne hcall).2 _ rfl
      exact ⟨rfl, .inr ⟨rfl, .inserted hencode hof hchanged havailable⟩⟩

/-- A replacement fails or finds nothing and leaves the store alone, or writes
the stamped entity. -/
theorem replace_outcomes {id : ObjectId} (h : e.Based) {result : Except Failure Bool}
    {after : Held Entity}
    (hrun : (c.replace id ambient : HeldM Entity Bool).run ⟨e, b⟩ = (result, after)) :
    after.record = e.withStamps { Stamps.ofRecord e with
        modified := some (Stamps.nextModified ambient.now (Record.modified? e)) } ∧
      ((((∃ failure, result = .error failure) ∨ result = .ok false) ∧
          b.store.Same after.backend.store) ∨
        result = .ok true ∧ c.Wrote ambient id after.record b after.backend false) := by
  rw [replace, run_bind, run_getThe] at hrun
  simp only [run_bind_ok (run_stampChange h _)] at hrun
  generalize e.withStamps _ = x at hrun ⊢
  rcases hencode : (Registry.encodeRecord x).run b.registry with ⟨failure | doc, r⟩
  · rw [Held.run_encode hencode] at hrun
    cases hrun
    exact ⟨rfl, .inl ⟨.inl ⟨failure, rfl⟩, .refl _⟩⟩
  · rw [Held.run_encode hencode] at hrun
    rcases hcall : (Store.replaceOne c.name (.id id) doc false (ambient.fresh 1)).run b.store
      with ⟨outcome, s⟩
    simp only [run_bind, Held.run_call (b := { b with registry := r }) hcall] at hrun
    rcases Store.replaceOne_cases hcall with ⟨fault, rfl, hsame⟩ | ⟨u, rfl, hu, hsame⟩ |
      ⟨u, i, existing, next, entry, rfl, hu, hplace, hm, hnext, hof, hchanged⟩
    · cases hrun
      exact ⟨rfl, .inl ⟨.inl ⟨_, rfl⟩, hsame⟩⟩
    · cases hrun
      exact ⟨rfl, .inl ⟨.inr (by rw [hu]; rfl), hsame⟩⟩
    · cases hrun
      have havailable := (Store.counted_replaceOne hcall).2 _ rfl
      exact ⟨rfl, .inr ⟨by rw [hu]; rfl, .replaced hencode hplace hm hnext hof hchanged havailable⟩⟩

/-- The id under which an entity is saved: its own, or else the one that is
given, or else a new one. -/
def idOf (e : Entity) (newId : Option ObjectId) (ambient : Ambient) : ObjectId :=
  (Record.id? e).getD (newId.getD (ambient.fresh 0))

/-- The write of a save: whether anything was written. -/
def write (c : Collection) (e : Entity) (newId : Option ObjectId) (ambient : Ambient) :
    HeldM Entity Bool :=
  match Record.id? e with
  | none => do
    c.insert (newId.getD (ambient.fresh 0)) ambient
    return true
  | some id => c.replace id ambient

variable {newId : Option ObjectId}

theorem stamped_onSave (h : e.Based) (newId : Option ObjectId) (ambient : Ambient) :
    e.Stamped (idOf e newId ambient)
      (e.withStamps ((Stamps.ofRecord e).onSave newId ambient)) := by
  refine Entity.stamped_withStamps h ?_
  rw [idOf]
  cases hid : Record.id? e with
  | none =>
    rw [Stamps.onSave_new hid]
    rfl
  | some id =>
    rw [Stamps.onSave_known hid]
    exact hid

theorem write_outcomes (h : e.Based) {written : Except Failure Bool} {after : Held Entity}
    (hrun : (c.write e newId ambient).run ⟨e, b⟩ = (written, after)) :
    after.record = e.withStamps ((Stamps.ofRecord e).onSave newId ambient) ∧
      ((((∃ failure, written = .error failure) ∨ written = .ok false) ∧
          b.store.Same after.backend.store) ∨
        written = .ok true ∧ c.Wrote ambient (idOf e newId ambient) after.record b after.backend
          (Record.id? e).isNone) := by
  rw [write] at hrun
  rw [idOf]
  cases hid : Record.id? e with
  | none =>
    simp only [hid, run_bind] at hrun
    rw [Stamps.onSave_new hid]
    rcases hinsert : (c.insert (newId.getD (ambient.fresh 0)) ambient : HeldM Entity Unit).run ⟨e, b⟩
      with ⟨inserted, held⟩
    rw [hinsert] at hrun
    obtain ⟨hrecord, ⟨failure, rfl, hsame⟩ | ⟨rfl, hwrote⟩⟩ := insert_outcomes h hinsert
    · cases hrun
      exact ⟨hrecord, .inl ⟨.inl ⟨failure, rfl⟩, hsame⟩⟩
    · cases hrun
      exact ⟨hrecord, .inr ⟨rfl, hwrote⟩⟩
  | some id =>
    simp only [hid] at hrun
    rw [Stamps.onSave_known hid]
    exact replace_outcomes h hrun

/-- Saving is writing, but after a write that failed or found nothing the entity
is the one before it. -/
theorem run_save (h : e.Based) {written : Except Failure Bool} {after : Held Entity} :
    (c.write e newId ambient).run ⟨e, b⟩ = (written, after) →
    (c.save newId ambient : HeldM Entity (Option Entity)).run ⟨e, b⟩ =
      match written with
      | .ok true => (.ok (some after.record), after)
      | .ok false => (.ok none, ⟨e, after.backend⟩)
      | .error failure => (.error failure, ⟨e, after.backend⟩) := by
  intro hrun
  have halike : e.Alike after.record := by
    rw [(write_outcomes h hrun).1]
    exact (stamped_onSave h newId ambient).alike
  have hrestore := Stamps.run_restore (b := after.backend) h halike
  have hmodify : (liftM (requireModifiable e) : HeldM Entity Unit).run ⟨e, b⟩ = (.ok (), ⟨e, b⟩) := rfl
  rw [save, run_bind, run_getThe]
  dsimp only
  rw [run_bind_ok hmodify]
  show (do
    let written ← tryCatch (c.write e newId ambient) fun failure => do
      (Stamps.ofRecord e).restore
      throw failure
    if written then return some (← getThe (Held Entity)).record
    (Stamps.ofRecord e).restore
    return none : HeldM Entity (Option Entity)).run ⟨e, b⟩ = _
  rw [run_bind, run_tryCatch, hrun]
  obtain ⟨x, backend⟩ := after
  cases written with
  | error failure => simp only [run_bind, hrestore, run_throw]
  | ok found =>
    cases found with
    | true => rfl
    | false => simp only [Bool.false_eq_true, if_false, run_bind, hrestore, run_pure]

/-- Saving writes the stamped entity and answers it, or the entity and the store
are as they were. -/
theorem save_outcomes (h : e.Based) {result : Except Failure (Option Entity)} {after : Held Entity}
    (hrun : (c.save newId ambient : HeldM Entity (Option Entity)).run ⟨e, b⟩ = (result, after)) :
    (result = .ok (some after.record) ∧
      after.record = e.withStamps ((Stamps.ofRecord e).onSave newId ambient) ∧
      c.Wrote ambient (idOf e newId ambient) after.record b after.backend
        (Record.id? e).isNone) ∨
    (result = .ok none ∨ ∃ failure, result = .error failure) ∧ after.record = e ∧
      b.store.Same after.backend.store := by
  rcases hwrite : (c.write e newId ambient).run ⟨e, b⟩ with ⟨written, held⟩
  rw [run_save h hwrite] at hrun
  obtain ⟨hrecord, ⟨⟨failure, rfl⟩ | rfl, hsame⟩ | ⟨rfl, hwrote⟩⟩ := write_outcomes h hwrite
  · cases hrun
    exact .inr ⟨.inr ⟨failure, rfl⟩, rfl, hsame⟩
  · cases hrun
    exact .inr ⟨.inl rfl, rfl, hsame⟩
  · cases hrun
    exact .inl ⟨rfl, hrecord, hwrote⟩

/-! ## Counting -/

/-- A replacement of an entity that can be encoded makes one call, whatever comes
of it. -/
theorem calls_replace (h : e.Based) {id : ObjectId} (hid : Record.id? e = some id)
    {known : ValueType → Prop} (hb : b.registry.Plain known)
    (hencodes : ∀ x, e.Stamped id x → ∃ doc, Registry.encodingFields x.attributes = .ok doc) :
    ((c.replace id ambient : HeldM Entity Bool).run ⟨e, b⟩).2.backend.store.calls =
      b.store.calls.tick .replace := by
  have hx : e.Stamped id (e.withStamps { Stamps.ofRecord e with
      modified := some (Stamps.nextModified ambient.now (Record.modified? e)) }) :=
    Entity.stamped_withStamps h hid
  rw [replace, run_bind, run_getThe]
  simp only [run_bind_ok (run_stampChange h _)]
  generalize e.withStamps _ = x at hx ⊢
  obtain ⟨doc, hdoc⟩ := hencodes x hx
  rcases hencode : (Registry.encodeRecord x).run b.registry with ⟨result, r⟩
  have hresult := Registry.encodingFields_of_run hb hencode
  rw [show Record.fields x = x.attributes from rfl, hdoc] at hresult
  subst hresult
  rw [Held.run_encode hencode]
  rcases hcall : (Store.replaceOne c.name (.id id) doc false (ambient.fresh 1)).run b.store
    with ⟨outcome, s⟩
  simp only [run_bind, Held.run_call (b := { b with registry := r }) hcall]
  cases outcome <;> exact (Store.counted_replaceOne hcall).1

/-- So does saving it. -/
theorem calls_save (h : e.Based) {id : ObjectId} (hid : Record.id? e = some id)
    {known : ValueType → Prop} (hb : b.registry.Plain known)
    (hencodes : ∀ x, e.Stamped id x → ∃ doc, Registry.encodingFields x.attributes = .ok doc) :
    ((c.save newId ambient : HeldM Entity (Option Entity)).run ⟨e, b⟩).2.backend.store.calls =
      b.store.calls.tick .replace := by
  rcases hwrite : (c.write e newId ambient).run ⟨e, b⟩ with ⟨written, held⟩
  have hreplace : c.write e newId ambient = c.replace id ambient := by rw [write, hid]
  have hcalls : held.backend.store.calls = b.store.calls.tick .replace := by
    rw [← calls_replace h hid hb hencodes, ← hreplace, hwrite]
  rw [run_save h hwrite]
  rcases written with failure | _ | _ <;> exact hcalls

end Collection
end Folio
