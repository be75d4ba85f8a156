import Folio.Proofs.Collection.Deleting
import Folio.Proofs.Collection.Writing
import Folio.Proofs.Registry.Restored

/-!
# What a save puts into the store

An entity may be of any class and have any stamps, which may be refused when it is
saved. Whatever becomes of them, a save puts at most one entry into the store, and
the entry keeps a document that has the properties of the entity, but for stamps.
Neither saving, finding nor deleting costs the registry what it was asked.

Results:
* `save_put`: a save leaves the entries alone, or puts one in.
* `rebuilt_of_findById`: what is found is rebuilt of a document that is stored.
* `sustains_findById`, `sustains_deleteById`: the registry stays sound.
-/
namespace Folio

variable {s : Schema} {known : ClassRef → Prop} {c : Collection} {b : Backend} {e : Entity}
  {ambient : Ambient}

namespace Backend

/-- The registry of the backend stays sound. -/
def StaysSound (s : Schema) (known : ClassRef → Prop) (b b' : Backend) : Prop :=
  b.registry.StaysSound s known b'.registry

/-- The registry of the backend stays sound, and keeps its suppliers. -/
def Sustains (s : Schema) (known : ClassRef → Prop) (b b' : Backend) : Prop :=
  b.registry.Sustains s known b'.registry

theorem sustains_frame : Frame (Sustains s known) :=
  ⟨fun _ => Registry.sustains_frame.refl _, fun h h' => Registry.sustains_frame.trans h h'⟩

end Backend

/-! ## Stamps -/

namespace Held

/-- The backend and these properties of the record stay as they are. -/
structure Spares (spared : String → Prop) (before after : Held Entity) : Prop where
  backend : after.backend = before.backend
  properties : ∀ k, spared k →
    Keyed.get? k after.record.attributes = Keyed.get? k before.record.attributes

variable {spared : String → Prop}

theorem spares_frame : Frame (Spares spared) :=
  ⟨fun _ => ⟨rfl, fun _ _ => rfl⟩, fun h h' => ⟨h'.backend.trans h.backend, fun k hk =>
    (h'.properties k hk).trans (h.properties k hk)⟩⟩

/-- Setting another property changes that property, or nothing. -/
theorem spares_modify {name : String} (hn : ∀ k, spared k → k ≠ name) (value : Option FieldValue) :
    Within (Spares spared) (modify name value : HeldM Entity Unit) := by
  intro h
  rcases modify_cases name value h with ⟨failure, -, hrun⟩ | ⟨next, hset, hrun⟩ <;> rw [hrun]
  · exact spares_frame.refl h
  · exact ⟨rfl, fun k hk => Entity.get?_write (hn k hk) hset⟩

/-- The property is none of the stamps. -/
def Unstamped (k : String) : Prop := k ∉ Schema.baseProperties.map (·.1)

theorem Unstamped.ne {k : String} (hk : Unstamped k) {p : String × ValueType}
    (hp : p ∈ Schema.baseProperties) : k ≠ p.1 := by
  rintro rfl
  exact hk (List.mem_map_of_mem hp)

theorem spares_apply (stamps : Stamps) :
    Within (Spares Unstamped) (stamps.apply : HeldM Entity Unit) := by
  refine spares_frame.within_bind (spares_modify (fun k hk => hk.ne Schema.id_base) _) fun _ => ?_
  refine spares_frame.within_bind (spares_modify (fun k hk => hk.ne Schema.created_base) _) fun _ => ?_
  exact spares_modify (fun k hk => hk.ne Schema.modified_base) _

theorem spares_restore (stamps : Stamps) :
    Within (Spares Unstamped) (stamps.restore : HeldM Entity Unit) :=
  spares_frame.within_tryCatch (spares_apply stamps) fun _ => spares_frame.within_pure _

/-- An id that is set is the id. -/
theorem id_modify {id : ObjectId} {h after : Held Entity}
    (hrun : (modify Naming.idProperty (some (.objectId id)) : HeldM Entity Unit).run h =
      (.ok (), after)) :
    Keyed.get? Naming.idProperty after.record.attributes = some (.objectId id) := by
  rcases modify_cases Naming.idProperty (some (.objectId id)) h with
    ⟨failure, -, hfailed⟩ | ⟨next, hset, hdone⟩
  · cases hfailed.symm.trans hrun
  · cases hdone.symm.trans hrun
    rcases Entity.write_cases hset with ⟨hnone, -⟩ | ⟨v, stored, hv, -, -, hstored, rfl⟩
    · cases hnone
    · cases hv
      have hself : stored = .objectId id := by
        generalize h.record.descriptor.typeOf Naming.idProperty = t at hstored
        cases t <;> cases hstored <;> rfl
      rw [Keyed.get?_insert, if_pos rfl, hself]

end Held

/-- A record that takes the stamps of a new one has the id. -/
theorem Stamps.id_apply {id : ObjectId} {h after : Held Entity}
    (hrun : ((Stamps.ofId id).apply : HeldM Entity Unit).run h = (.ok (), after)) :
    Keyed.get? Naming.idProperty after.record.attributes = some (.objectId id) := by
  obtain ⟨⟨⟩, first, hid, hrun⟩ := ok_of_run_bind hrun
  have hcreated : ∀ k, k = Naming.idProperty → k ≠ Record.createdProperty := by
    rintro k rfl
    decide
  have hmodified : ∀ k, k = Naming.idProperty → k ≠ Record.modifiedProperty := by
    rintro k rfl
    decide
  have hothers := Held.spares_frame.within_bind
    (Held.spares_modify hcreated ((Stamps.ofId id).created.map .dateTime))
    fun _ => Held.spares_modify hmodified ((Stamps.ofId id).modified.map .dateTime)
  have hkept := (hothers first).properties _ rfl
  rw [hrun] at hkept
  rw [hkept, Held.id_modify hid]

namespace Collection

variable {newId : Option ObjectId}

/-! ## Saving -/

/-- One entry is put into the store, which keeps what the entity is encoded as with
other stamps: at the end for an entity that is new, or in the place of a document
with the id. -/
inductive Put (c : Collection) (ambient : Ambient) (newId : Option ObjectId) (e : Entity)
    (b b' : Backend) : Prop
  | added {x : Entity} {doc : Document} {r : Registry} {entry : Stored} (new : Record.id? e = none)
      (alike : ∀ k, Held.Unstamped k → Keyed.get? k x.attributes = Keyed.get? k e.attributes)
      (id : Keyed.get? Naming.idProperty x.attributes =
        some (.objectId (newId.getD (ambient.fresh 0))))
      (encoded : (Registry.encodeRecord x).run b.registry = (.ok doc, r))
      (kept : Stored.ofDocument (doc.withId none (ambient.fresh 1)) = .ok entry)
      (free : (b.store.entries c.name).any (·.id == entry.id) = false)
      (changed : b.store.Changed c.name (b.store.entries c.name ++ [entry]) b'.store)
  | replaced {x : Entity} {id : ObjectId} {doc existing next : Document} {r : Registry} {i : Nat}
      {entry : Stored} (known : Record.id? e = some id)
      (alike : ∀ k, Held.Unstamped k → Keyed.get? k x.attributes = Keyed.get? k e.attributes)
      (encoded : (Registry.encodeRecord x).run b.registry = (.ok doc, r))
      (place : Stored.At (b.store.entries c.name) i existing)
      (found : (Filter.id id).matchesDoc existing = true)
      (replacement : Store.replacement existing doc (ambient.fresh 1) = .ok next)
      (kept : Stored.ofDocument next = .ok entry)
      (changed : b.store.Changed c.name ((b.store.entries c.name).set i entry) b'.store)

/-- An entity that is stamped and encoded leads to a call on the store with its
document, unless it is refused before. -/
theorem written_cases {α β : Type} {stamp : HeldM Entity Unit}
    (hstamp : Within (Held.Spares Held.Unstamped) stamp) {call : Document → Store.Call β}
    {f : β → α} {result : Except Failure α} {after : Held Entity}
    (hrun : (do
      stamp
      let doc ← Held.behind (Backend.look (Registry.encodeRecord (← getThe (Held Entity)).record))
      let outcome ← Held.behind (Backend.call (call doc))
      return f outcome : HeldM Entity α).run ⟨e, b⟩ = (result, after)) :
    b.Sustains s known after.backend ∧
      (after.backend.store = b.store ∨
        ∃ x doc r outcome, stamp.run ⟨e, b⟩ = (.ok (), ⟨x, b⟩) ∧
          (∀ k, Held.Unstamped k → Keyed.get? k x.attributes = Keyed.get? k e.attributes) ∧
          (Registry.encodeRecord x).run b.registry = (.ok doc, r) ∧
          (call doc).run b.store = (outcome, after.backend.store)) := by
  have hspares := hstamp ⟨e, b⟩
  rcases happly : stamp.run ⟨e, b⟩ with ⟨failure | ⟨⟩, x, b'⟩
  · rw [run_bind_error happly] at hrun
    rw [happly] at hspares
    cases hrun
    obtain rfl : b' = b := hspares.backend
    exact ⟨Backend.sustains_frame.refl _, .inl rfl⟩
  rw [run_bind_ok happly] at hrun
  rw [happly] at hspares
  obtain rfl : b' = b := hspares.backend
  have hsustains : b'.registry.Sustains s known ((Registry.encodeRecord x).run b'.registry).2 :=
    Registry.sustains_encodes.within_encodeRecord x b'.registry
  rcases hencode : (Registry.encodeRecord x).run b'.registry with ⟨failure | doc, r⟩
  · rw [Held.run_encode hencode] at hrun
    rw [hencode] at hsustains
    cases hrun
    exact ⟨hsustains, .inl rfl⟩
  rw [Held.run_encode hencode] at hrun
  rw [hencode] at hsustains
  rcases hcall : (call doc).run b'.store with ⟨outcome, t⟩
  simp only [run_bind, Held.run_call (b := { b' with registry := r }) hcall] at hrun
  cases outcome <;> cases hrun
  all_goals exact ⟨hsustains, .inr ⟨x, doc, r, _, rfl, hspares.properties, hencode, hcall⟩⟩

/-- An insertion fails, or adds an entry. -/
theorem insert_put (hnew : Record.id? e = none) {result : Except Failure Unit} {after : Held Entity}
    (hrun : (c.insert (newId.getD (ambient.fresh 0)) ambient : HeldM Entity Unit).run ⟨e, b⟩ =
      (result, after)) :
    b.Sustains s known after.backend ∧
      (b.store.Same after.backend.store ∨ c.Put ambient newId e b after.backend) := by
  obtain ⟨hsustains, hsame | ⟨x, doc, r, outcome, happly, halike, hencode, hcall⟩⟩ :=
    written_cases (f := fun _ : Value => ()) (Held.spares_apply _) hrun
  · exact ⟨hsustains, .inl fun _ => by rw [hsame]⟩
  refine ⟨hsustains, ?_⟩
  rcases Store.insertOne_cases hcall with ⟨-, -, hsame⟩ | ⟨entry, -, hof, hnone, hchanged⟩
  · exact .inl hsame
  · exact .inr (.added hnew halike (Stamps.id_apply happly) hencode hof hnone hchanged)

/-- A replacement fails or finds nothing, or writes in the place of what is stored. -/
theorem replace_put {id : ObjectId} (hid : Record.id? e = some id) {result : Except Failure Bool}
    {after : Held Entity}
    (hrun : (c.replace id ambient : HeldM Entity Bool).run ⟨e, b⟩ = (result, after)) :
    b.Sustains s known after.backend ∧
      (b.store.Same after.backend.store ∨ c.Put ambient newId e b after.backend) := by
  rw [replace, run_bind, run_getThe] at hrun
  obtain ⟨hsustains, hsame | ⟨x, doc, r, outcome, -, halike, hencode, hcall⟩⟩ :=
    written_cases (f := fun u : UpdateResult => decide (0 < u.matched))
      (Held.spares_modify (fun k hk => hk.ne Schema.modified_base) _) hrun
  · exact ⟨hsustains, .inl fun _ => by rw [hsame]⟩
  refine ⟨hsustains, ?_⟩
  rcases Store.replaceOne_cases hcall with ⟨-, -, hsame⟩ | ⟨-, -, -, hsame⟩ |
    ⟨-, i, existing, next, entry, -, -, hplace, hm, hnext, hof, hchanged⟩
  · exact .inl hsame
  · exact .inl hsame
  · exact .inr (.replaced hid halike hencode hplace hm hnext hof hchanged)

theorem write_put {written : Except Failure Bool} {after : Held Entity}
    (hrun : (c.write e newId ambient).run ⟨e, b⟩ = (written, after)) :
    b.Sustains s known after.backend ∧
      (b.store.Same after.backend.store ∨ c.Put ambient newId e b after.backend) := by
  rw [write] at hrun
  cases hid : Record.id? e with
  | none =>
    simp only [hid, run_bind] at hrun
    rcases hinsert : (c.insert (newId.getD (ambient.fresh 0)) ambient : HeldM Entity Unit).run ⟨e, b⟩
      with ⟨failure | ⟨⟩, held⟩
    all_goals
      rw [hinsert] at hrun
      cases hrun
      exact insert_put hid hinsert
  | some id =>
    simp only [hid] at hrun
    exact replace_put hid hrun

/-- Taking the stamps back leaves the backend as the write left it. -/
theorem backend_save (e : Entity) (b : Backend) :
    ((c.save newId ambient : HeldM Entity (Option Entity)).run ⟨e, b⟩).2.backend =
      ((c.write e newId ambient).run ⟨e, b⟩).2.backend := by
  have hrestore := fun h => (Held.spares_restore (Stamps.ofRecord e) h).backend
  have hmodify : (liftM (requireModifiable e) : HeldM Entity Unit).run ⟨e, b⟩ = (.ok (), ⟨e, b⟩) := rfl
  rw [save, run_bind, run_getThe]
  dsimp only
  rw [run_bind_ok hmodify]
  show ((do
    let written ← tryCatch (c.write e newId ambient) fun failure => do
      (Stamps.ofRecord e).restore
      throw failure
    if written then return some (← getThe (Held Entity)).record
    (Stamps.ofRecord e).restore
    return none : HeldM Entity (Option Entity)).run ⟨e, b⟩).2.backend = _
  rw [run_bind, run_tryCatch]
  rcases (c.write e newId ambient).run ⟨e, b⟩ with ⟨failure | _ | _, after⟩
  · have hafter := hrestore after
    dsimp only
    rw [run_bind]
    generalize ((Stamps.ofRecord e).restore : HeldM Entity Unit).run after = restored at hafter
    rcases restored with ⟨_ | _, _⟩ <;> exact hafter
  · have hafter := hrestore after
    simp only [Bool.false_eq_true, if_false, run_bind]
    generalize ((Stamps.ofRecord e).restore : HeldM Entity Unit).run after = restored at hafter
    rcases restored with ⟨_ | _, _⟩ <;> exact hafter
  · rfl

/-- A save leaves the entries alone, or puts one entry in. -/
theorem save_put (s : Schema) (known : ClassRef → Prop) {result : Except Failure (Option Entity)}
    {after : Held Entity}
    (hrun : (c.save newId ambient : HeldM Entity (Option Entity)).run ⟨e, b⟩ = (result, after)) :
    b.Sustains s known after.backend ∧
      (b.store.Same after.backend.store ∨ c.Put ambient newId e b after.backend) := by
  have hafter : after.backend = ((c.write e newId ambient).run ⟨e, b⟩).2.backend := by
    rw [← backend_save, hrun]
  rw [hafter]
  exact write_put rfl

/-! ## Finding -/

theorem sustains_inflate? (hclosed : s.Closed known) (hc : known c.cls) (doc : Option Document) :
    Within (Backend.Sustains s known) (c.inflate? doc : BackendM (Option Entity)) := by
  cases doc with
  | none => exact Backend.sustains_frame.within_pure _
  | some doc =>
    refine Backend.sustains_frame.within_bind (fun b => ?_) fun _ =>
      Backend.sustains_frame.within_pure _
    exact Registry.sustains_inflate hclosed hc doc b.registry

theorem sustains_findById (hclosed : s.Closed known) (hc : known c.cls) (id : Option ObjectId) :
    Within (Backend.Sustains s known) (c.findById id : BackendM (Option Entity)) := by
  cases id with
  | none => exact Backend.sustains_frame.within_pure _
  | some id =>
    exact Backend.sustains_frame.within_bind (fun _ => Registry.sustains_frame.refl _) fun docs =>
      sustains_inflate? hclosed hc _

/-- A record that is found for an id is rebuilt of a document that the id matches. -/
theorem rebuilt_of_findById (hscope : c.scope = .plain) {id : ObjectId} {stored : Entity}
    {after : Backend}
    (hrun : (c.findById (some id) : BackendM (Option Entity)).run b = (.ok (some stored), after)) :
    ∃ i doc r, Stored.At (b.store.entries c.name) i doc ∧ (Filter.id id).matchesDoc doc = true ∧
      (Registry.inflate c.cls doc : RegistryM Entity).run b.registry = (.ok stored, r) := by
  rw [findById, findFirst, visible_plain hscope] at hrun
  obtain ⟨docs, b', hfind, hrun⟩ := ok_of_run_bind hrun
  rw [Backend.run_call, Store.run_find] at hfind
  by_cases hu : b.store.unavailable = true
  · rw [if_pos hu] at hfind
    cases hfind
  rw [if_neg hu] at hfind
  cases hmatching : Stored.matching (.id id) (b.store.entries c.name) 0 with
  | error fault =>
    rw [hmatching] at hfind
    cases hfind
  | ok found =>
    rw [hmatching] at hfind
    cases hfind
    cases hhead : (FindOptions.apply { limit := some 1 } (found.map (·.2))).head? with
    | none =>
      rw [hhead] at hrun
      cases hrun
    | some doc =>
      rw [hhead, inflate?] at hrun
      obtain ⟨e, b'', hinflate, hrun⟩ := ok_of_run_bind hrun
      cases hrun
      -- the first document of those that match
      have hmem : doc ∈ found.map (·.2) :=
        List.mem_of_mem_take (List.mem_of_mem_head? (l := (found.map (·.2)).take 1) hhead)
      obtain ⟨p, hp, rfl⟩ := List.mem_map.1 hmem
      have hall := Stored.map_matching (.id id) (b.store.entries c.name) 0
      rw [hmatching] at hall
      cases hdocs : Stored.documents (b.store.entries c.name) with
      | error fault =>
        rw [hdocs] at hall
        cases hall
      | ok docs =>
        rw [hdocs] at hall
        rw [Except.ok.inj hall] at hmem
        refine ⟨p.1, p.2, after.registry, Stored.at_of_matching hmatching hp,
          (List.mem_filter.1 hmem).2, ?_⟩
        rw [run_inflate] at hinflate
        have hresult := congrArg (·.1) hinflate
        have hregistry := congrArg (·.2.registry) hinflate
        exact Prod.ext hresult hregistry

/-! ## Deleting -/

theorem sustains_deleteById (hclosed : s.Closed known) (hc : known c.cls) (id : Option ObjectId) :
    Within (Backend.Sustains s known) (c.deleteById id : BackendM (Option Entity)) := by
  cases id with
  | none => exact Backend.sustains_frame.within_pure _
  | some id =>
    rw [deleteById, findOneAndDelete]
    split
    all_goals
      exact Backend.sustains_frame.within_bind (fun _ => Registry.sustains_frame.refl _) fun doc =>
        sustains_inflate? hclosed hc _

end Collection
end Folio
