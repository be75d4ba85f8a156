import Folio.Proofs.Collection.Batches
import Folio.Proofs.Collection.Puts
import Folio.Proofs.Registry.Fields

/-!
# The times of an entity that is saved again and again

A caller holds an entity, sets its properties but for the identity and the times,
and saves it now and then, in whatever collections. Between the saves others change
the backend, and the clock may stand still or go back. Some saves fail, or find
nothing to replace. Those that succeed write a time of creation that is the one of
the id, and a time of change that is later than the one that the save before them
wrote. The entries that they put into the store tell both times.

Results:
* `time_encodeRecord`: a time stands in the document of a record.
* `later_nextModified`: the time of a change is later than the one before it.
* `take_save`, `take_cases`: what a save, and any other turn, does to the stamps.
* `course_dated`: what all turns do after the first save.
* `saves_advance`: the times that the saves of a course leave.
-/
namespace Folio

/-! ## Times in documents -/

/-- What the codec makes of a time. -/
def Codec.timeForm (c : Codec) (t : DateTime) : Except Failure Value :=
  match c with
  | dateTime => .ok (.dateTime t)
  | custom k => k.encode (.dateTime t)
  | c => .error (Registry.mismatch c (.dateTime t))

namespace Registry

theorem leaf_dateTime (c : Codec) (t : DateTime) : leaf c (.dateTime t) = liftM (c.timeForm t) := by
  cases c with
  | primitive p => cases p <;> rfl
  | boxed p => cases p <;> rfl
  | _ => rfl

/-- What the registry makes of a time, if it can store times. -/
def timeForm? (r : Registry) (t : DateTime) : Option Value :=
  (r.codecOf? .dateTime).bind fun c => (c.timeForm t).toOption

/-- With the codec known here, a time is stored as it is. -/
theorem timeForm?_known {r : Registry} (h : r.codecOf? .dateTime = some .dateTime) (t : DateTime) :
    r.timeForm? t = some (.dateTime t) := by
  rw [timeForm?, h]
  rfl

/-- A time of a record stands in its document. -/
theorem time_encodeRecord {e : Entity} {r r' : Registry} {doc : Document}
    (h : (encodeRecord e).run r = (.ok doc, r')) {k : String} (hk : k ≠ Naming.idProperty)
    {t : DateTime} (hget : Keyed.get? k e.attributes = some (.dateTime t)) :
    ∃ w, r.timeForm? t = some w ∧ doc.get? k = some w := by
  have alone : ∀ u : ValueType, (ValueType.dateTime == u) = true → u = .dateTime := by
    intro u hu
    cases u <;> first | rfl | cases hu
  obtain ⟨w, u, u', hfield, hu, hw⟩ :=
    get?_encodeRecord (codecOf_encodes alone (r.codecOf? .dateTime)) rfl h hk hget
  refine ⟨w, ?_, hfield⟩
  obtain ⟨c, v, hc, hleaf⟩ := ok_of_run_bind
    (show (codec .dateTime >>= fun c => leaf c (.dateTime t)).run u = (.ok w, u') from hw)
  rw [leaf_dateTime, run_lift] at hleaf
  have hform : c.timeForm t = .ok w := congrArg Prod.fst hleaf
  rw [timeForm?, ← hu, run_codecOf hc, Option.bind_some, hform]
  rfl

end Registry

/-- The entry keeps a document that has each time under its name, in the form that
the registry has for it. With the codec known here it is read with the time itself. -/
def Stored.Tells (entry : Stored) (r : Registry) (times : List (String × DateTime)) : Prop :=
  ∃ doc : Document, Stored.ofDocument doc = .ok entry ∧ ∀ p ∈ times,
    (∃ w, r.timeForm? p.2 = some w ∧ doc.get? p.1 = some w) ∧
    (r.codecOf? .dateTime = some .dateTime → ∀ back, entry.document = .ok back →
      back.get? p.1 = some (.dateTime p.2))

/-- An entry that is written for an entity tells the times of the entity. -/
theorem Stored.Tells.of_encoded {entry : Stored} {x : Entity} {r r' : Registry}
    {doc kept : Document} (hencode : (Registry.encodeRecord x).run r = (.ok doc, r'))
    (hof : Stored.ofDocument kept = .ok entry)
    (hkept : ∀ k, k ≠ Naming.idProperty → kept.get? k = doc.get? k)
    {times : List (String × DateTime)} (htimes : ∀ p ∈ times, p.1 ≠ Naming.idProperty ∧
      Keyed.get? p.1 x.attributes = some (.dateTime p.2)) : entry.Tells r times := by
  refine ⟨kept, hof, fun p hp => ?_⟩
  obtain ⟨hk, hget⟩ := htimes p hp
  obtain ⟨w, hform, hfield⟩ := Registry.time_encodeRecord hencode hk hget
  rw [← hkept p.1 hk] at hfield
  refine ⟨⟨w, hform, hfield⟩, fun hcodec back hback => ?_⟩
  cases (Registry.timeForm?_known hcodec p.2).symm.trans hform
  rw [(Stored.get?_document hof hback).2, hfield]
  rfl

/-! ## Times of changes -/

/-- The one time is later than the other, unless there is none later. -/
def DateTime.Later (t t' : DateTime) : Prop :=
  t.millis.toInt < Int64.maxValue.toInt → t.millis.toInt < t'.millis.toInt

namespace Stamps

/-- Whatever the clock says, the time of a change is later than the one before it. -/
theorem later_nextModified (now t : DateTime) : t.Later (nextModified now (some t)) := by
  intro hmax
  have hmin := Int64.minValue_le_toInt t.millis
  have hone : (Int64.ofInt (t.millis.toInt + 1)).toInt = t.millis.toInt + 1 := by
    have hleast : Int64.minValue.toInt = -2 ^ 63 := rfl
    have hmost : Int64.maxValue.toInt = 2 ^ 63 - 1 := rfl
    exact Int64.toInt_ofInt_of_le (by omega) (by omega)
  have hfloor : t.addMillis? 1 = some ⟨Int64.ofInt (t.millis.toInt + 1)⟩ := by
    have hfits : Int64.minValue.toInt ≤ t.millis.toInt + 1 ∧
        t.millis.toInt + 1 ≤ Int64.maxValue.toInt := by omega
    exact if_pos hfits
  calc t.millis.toInt < (Int64.ofInt (t.millis.toInt + 1)).toInt := by omega
    _ ≤ (nextModified now (some t)).millis.toInt := nextModified_floor hfloor

/-- The stamps of a saved entity: its id, the time in the id, and a time of change. -/
def dated (id : ObjectId) (t : DateTime) : Stamps := ⟨some id, some id.timestamp, some t⟩

end Stamps

/-! ## One turn -/

/-- What happens to an entity that a caller holds: a property is set, an accessor is
called, others change the backend, or the entity is saved. -/
inductive Turn where
  | set (property : String) (value : Option FieldValue)
  | invoke (method : String) (args : List (Option FieldValue))
  | elsewhere (b : Backend)
  | save (c : Collection) (newId : Option ObjectId) (ambient : Ambient)

/-- A save that was successful: where the record was saved, the record that was
answered, and the backend before and after. -/
structure Saved where
  collection : Collection
  record : Entity
  before : Backend
  after : Backend

namespace Saved

/-- The entry is put into the collection, at the end or in the place of a document
with the id. -/
def Puts (x : Saved) (id : ObjectId) (entry : Stored) : Prop :=
  let entries := x.before.store.entries x.collection.name
  x.before.store.Changed x.collection.name (entries ++ [entry]) x.after.store ∨
    ∃ i existing, Stored.At entries i existing ∧ (Filter.id id).matchesDoc existing = true ∧
      x.before.store.Changed x.collection.name (entries.set i entry) x.after.store

/-- The record has the id, the time in the id and the time of change, and an entry
that tells both times is put into the store. -/
structure Carries (id : ObjectId) (x : Saved) (t : DateTime) : Prop where
  stamps : Stamps.ofRecord x.record = .dated id t
  stored : ∃ entry, x.Puts id entry ∧ entry.Tells x.before.registry
    [(Record.createdProperty, id.timestamp), (Record.modifiedProperty, t)]

/-- What is written for a record with these stamps carries them. -/
theorem carries_of_wrote {c : Collection} {ambient : Ambient} {id : ObjectId} {x : Entity}
    {b b' : Backend} {isNew : Bool} (hx : x.Based) {t : DateTime}
    (hstamps : Stamps.ofRecord x = .dated id t) (h : c.Wrote ambient id x b b' isNew) :
    Carries id ⟨c, x, b, b'⟩ t := by
  have htimes : ∀ p ∈ [(Record.createdProperty, id.timestamp), (Record.modifiedProperty, t)],
      p.1 ≠ Naming.idProperty ∧ Keyed.get? p.1 x.attributes = some (.dateTime p.2) := by
    have hcreated := Stamps.created_eq hx.values
    have hmodified := Stamps.modified_eq hx.values
    rw [show Record.created? x = some id.timestamp from congrArg Stamps.created hstamps] at hcreated
    rw [show Record.modified? x = some t from congrArg Stamps.modified hstamps] at hmodified
    intro p hp
    rcases List.mem_pair.1 hp with rfl | rfl
    · exact ⟨show Record.createdProperty ≠ _ by decide, hcreated.symm⟩
    · exact ⟨show Record.modifiedProperty ≠ _ by decide, hmodified.symm⟩
  refine ⟨hstamps, ?_⟩
  cases h with
  | @inserted doc entry encoded kept changed =>
    exact ⟨entry, .inl changed, .of_encoded encoded kept (fun k => Store.get?_withId) htimes⟩
  | @replaced doc existing next i entry encoded place found replacement kept changed =>
    exact ⟨entry, .inr ⟨i, existing, place, found, changed⟩,
      .of_encoded encoded kept (fun k => Store.get?_replacement replacement) htimes⟩

end Saved

namespace Turn

/-- The turn leaves the identity and the times to the saves. -/
def Spares (d : Descriptor) : Turn → Prop
  | set property _ => Held.Unstamped property
  | invoke method _ =>
    ∀ property t, d.accessor? method = some (.write property t) → Held.Unstamped property
  | elsewhere _ | save .. => True

/-- The save of the turn, if it is one and was successful, and what is left. -/
def take : Turn → Held Entity → Option Saved × Held Entity
  | set property value, h => (none, ((Held.modify property value : HeldM Entity Unit).run h).2)
  | invoke method args, h =>
    match h.record.invoke h.backend.registry.catalog.schema method args with
    | .ok (_, next) => (none, { h with record := next })
    | .error _ => (none, h)
  | elsewhere b, h => (none, { h with backend := b })
  | save c newId ambient, h =>
    match (c.save newId ambient : HeldM Entity (Option Entity)).run h with
    | (.ok (some record), after) => (some ⟨c, record, h.backend, after.backend⟩, after)
    | (_, after) => (none, after)

/-- A save is missed and leaves the entity as it is; or it stamps the entity as is due,
and the store carries the stamps. -/
theorem take_save {c : Collection} {newId : Option ObjectId} {ambient : Ambient}
    {h next : Held Entity} {saved : Option Saved} (hb : h.record.Based)
    (hrun : (save c newId ambient).take h = (saved, next)) :
    saved = none ∧ next.record = h.record ∨
      ∃ x, saved = some x ∧
        next.record = h.record.withStamps ((Stamps.ofRecord h.record).onSave newId ambient) ∧
        ∀ id t, Stamps.ofRecord next.record = .dated id t → x.Carries id t := by
  rw [take] at hrun
  rcases hsave : (c.save newId ambient : HeldM Entity (Option Entity)).run h with ⟨result, after⟩
  rw [hsave] at hrun
  rcases Collection.save_outcomes hb hsave with ⟨rfl, hrecord, hwrote⟩ | ⟨hmissed, hrecord, -⟩
  · cases hrun
    refine .inr ⟨_, rfl, hrecord, fun id t hdated => ?_⟩
    have hstamped := Collection.stamped_onSave hb newId ambient
    have hx := hb.withStamps ((Stamps.ofRecord h.record).onSave newId ambient)
    rw [← hrecord] at hstamped hx
    -- the id that is written is the one that the record has then
    have hid := Stamps.id_eq hx.values
    rw [hstamped.id, show Record.id? next.record = some id from congrArg Stamps.id hdated] at hid
    cases hid
    exact Saved.carries_of_wrote hx hdated hwrote
  · rcases hmissed with rfl | ⟨failure, rfl⟩ <;> cases hrun <;> exact .inl ⟨rfl, hrecord⟩

/-- A turn leaves the stamps alone and saves nothing; or the entity is saved with the
stamps that are due, and the store carries them. -/
theorem take_cases {turn : Turn} {h next : Held Entity} {saved : Option Saved}
    (hb : h.record.Based) (hs : turn.Spares h.record.descriptor)
    (hrun : turn.take h = (saved, next)) :
    next.record.Based ∧ next.record.descriptor = h.record.descriptor ∧
      (saved = none ∧ Stamps.ofRecord next.record = Stamps.ofRecord h.record ∨
        ∃ x newId ambient, saved = some x ∧
          Stamps.ofRecord next.record = (Stamps.ofRecord h.record).onSave newId ambient ∧
          ∀ id t, Stamps.ofRecord next.record = .dated id t → x.Carries id t) := by
  cases turn with
  | set property value =>
    rw [take] at hrun
    rcases Held.modify_cases property value h with ⟨failure, -, hset⟩ | ⟨x, hset, hdone⟩
    · rw [hset] at hrun
      cases hrun
      exact ⟨hb, rfl, .inl ⟨rfl, rfl⟩⟩
    · rw [hdone] at hrun
      cases hrun
      obtain ⟨hx, hstamps⟩ := hb.write hs hset
      exact ⟨hx, (Entity.write_ok hset).2, .inl ⟨rfl, hstamps⟩⟩
  | invoke method args =>
    rw [take] at hrun
    cases hinvoke : h.record.invoke h.backend.registry.catalog.schema method args with
    | error failure =>
      rw [hinvoke] at hrun
      cases hrun
      exact ⟨hb, rfl, .inl ⟨rfl, rfl⟩⟩
    | ok answer =>
      rw [hinvoke] at hrun
      cases hrun
      rcases Entity.invoke_cases hinvoke with hsame | ⟨property, t, value, haccessor, -, hwrite⟩
      · rw [hsame]
        exact ⟨hb, rfl, .inl ⟨rfl, rfl⟩⟩
      · obtain ⟨hx, hstamps⟩ := hb.write (hs property t haccessor) hwrite
        exact ⟨hx, (Entity.write_ok hwrite).2, .inl ⟨rfl, hstamps⟩⟩
  | elsewhere b =>
    cases hrun
    exact ⟨hb, rfl, .inl ⟨rfl, rfl⟩⟩
  | save c newId ambient =>
    rcases take_save hb hrun with ⟨rfl, hsame⟩ | ⟨x, rfl, hrecord, hcarries⟩
    · rw [hsame]
      exact ⟨hb, rfl, .inl ⟨rfl, rfl⟩⟩
    · have hbased := hb.withStamps ((Stamps.ofRecord h.record).onSave newId ambient)
      have hstamps := Stamps.ofRecord_withStamps ((Stamps.ofRecord h.record).onSave newId ambient)
        h.record
      rw [← hrecord] at hbased hstamps
      exact ⟨hbased, by rw [hrecord]; rfl, .inr ⟨x, newId, ambient, rfl, hstamps, hcarries⟩⟩

end Turn

/-! ## A course of turns -/

/-- The saves of the turns, and what is left in the end. -/
def course : List Turn → Held Entity → List Saved × Held Entity
  | [], h => ([], h)
  | turn :: rest, h =>
    let (saved, next) := turn.take h
    let (others, last) := course rest next
    (saved.toList ++ others, last)

/-- The entity can be stamped, and the turns leave its stamps to the saves. -/
structure Ready (turns : List Turn) (h : Held Entity) : Prop where
  based : h.record.Based
  spares : ∀ turn ∈ turns, turn.Spares h.record.descriptor

variable {turns : List Turn}

/-- The first turn leaves the stamps alone or saves, and leaves the entity ready for
the others. -/
theorem Ready.step {turn : Turn} {h : Held Entity} (hready : Ready (turn :: turns) h) :
    ∃ saved next, turn.take h = (saved, next) ∧ Ready turns next ∧
      (saved = none ∧ Stamps.ofRecord next.record = Stamps.ofRecord h.record ∨
        ∃ x newId ambient, saved = some x ∧
          Stamps.ofRecord next.record = (Stamps.ofRecord h.record).onSave newId ambient ∧
          ∀ id t, Stamps.ofRecord next.record = .dated id t → x.Carries id t) := by
  rcases htake : turn.take h with ⟨saved, next⟩
  obtain ⟨hbased, hdescriptor, hcases⟩ :=
    Turn.take_cases hready.based (hready.spares turn List.mem_cons_self) htake
  refine ⟨saved, next, rfl, ⟨hbased, fun other hmem => ?_⟩, hcases⟩
  rw [hdescriptor]
  exact hready.spares other (List.mem_cons_of_mem _ hmem)

/-- From a dated entity on, each save carries a time that is later than the one
before it. -/
theorem course_dated {h : Held Entity} (hready : Ready turns h) {id : ObjectId} {t : DateTime}
    (hdated : Stamps.ofRecord h.record = .dated id t) :
    ∃ times, List.Forall₂ (Saved.Carries id) (course turns h).1 times ∧
      (t :: times).IsChain DateTime.Later ∧
      Stamps.ofRecord (course turns h).2.record = .dated id (times.getLast?.getD t) := by
  induction turns generalizing h t with
  | nil => exact ⟨[], .nil, .singleton t, hdated⟩
  | cons turn rest ih =>
    obtain ⟨saved, next, htake, hrest, hcases⟩ := hready.step
    simp only [course, htake]
    rcases hcases with ⟨rfl, hstamps⟩ | ⟨x, newId, ambient, rfl, hstamps, hcarries⟩
    · exact ih hrest (hstamps.trans hdated)
    · rw [hdated] at hstamps
      obtain ⟨times, hall, hchain, hlast⟩ := ih hrest hstamps
      refine ⟨_ :: times, .cons (hcarries id _ hstamps) hall, ?_, ?_⟩
      · exact List.isChain_cons_cons.2 ⟨Stamps.later_nextModified ambient.now t, hchain⟩
      · rw [hlast, List.getLast?_cons]
        rfl

/-- Whatever happens to an entity that has no id yet, of a class that keeps the base
properties, as long as its id and its times are left to the saves: those saves that are
successful all carry one id and the time in it. The first carries that time as the time
of change too, and each other one a time that is later than the one before it, unless
there is none later. Between the saves and after them, also where one has failed or
found nothing, the entity has the stamps of the last of them, or the ones it began
with. -/
theorem saves_advance {s : Schema} {known : ClassRef → Prop} {e : Entity} {b : Backend}
    (hr : e.Reachable s known) (hc : s.KeepsBase e.descriptor.cls) (hnew : Record.id? e = none)
    (hs : ∀ turn ∈ turns, turn.Spares e.descriptor) :
    ∃ id times, List.Forall₂ (Saved.Carries id) (course turns ⟨e, b⟩).1 times ∧
      (∀ t, times.head? = some t → t = id.timestamp) ∧ times.IsChain DateTime.Later ∧
      Stamps.ofRecord (course turns ⟨e, b⟩).2.record =
        times.getLast?.elim (Stamps.ofRecord e) (Stamps.dated id) := by
  have hready : Ready turns ⟨e, b⟩ := ⟨hr.based hc, hs⟩
  clear hr hc hs
  induction turns generalizing e b with
  | nil => exact ⟨.ofParts 0 0, [], .nil, nofun, .nil, rfl⟩
  | cons turn rest ih =>
    obtain ⟨saved, ⟨x, b'⟩, htake, hrest, hcases⟩ := hready.step
    simp only [course, htake]
    rcases hcases with ⟨rfl, hstamps⟩ | ⟨first, newId, ambient, rfl, hstamps, hcarries⟩
    · have hsame : Stamps.ofRecord x = Stamps.ofRecord e := hstamps
      rw [← hsame]
      exact ih ((congrArg Stamps.id hsame).trans hnew) hrest
    · -- the first save that is successful gives the id, and dates the entity
      rw [Stamps.onSave_new hnew] at hstamps
      obtain ⟨times, hall, hchain, hlast⟩ := course_dated hrest hstamps
      refine ⟨_, _ :: times, .cons (hcarries _ _ hstamps) hall, ?_, hchain, ?_⟩
      · rintro t ⟨⟩
        rfl
      · rw [hlast, List.getLast?_cons]
        rfl

/-! ## An order that is saved twice -/

namespace Collection

open Registry (order)

/-- Other orders, of which there are none. -/
def archive : Collection := { orders with name := "archive" }

/-- A new order is saved under an id of the ninth second, by a clock that stands still
in the first; it is not found among other orders; its state is taken away, and it is
saved again. -/
def reorder : List Turn :=
  [.save orders (some (.ofParts 9 9)) early, .save archive none early, .set "state" none,
    .save orders none early]

theorem stamps_reorder : (course reorder ⟨newOrder, desk⟩).1.map (Stamps.ofRecord ·.record) =
    [.dated (.ofParts 9 9) ⟨9000⟩, .dated (.ofParts 9 9) ⟨9001⟩] := by
  rw [newOrder, order, ofClass_order]
  decide +kernel

/-- Both saves carry the id and its time, and the second a later time of change. -/
theorem saves_advance_reorder : ∃ (first second : Saved) (t t' : DateTime),
    (course reorder ⟨newOrder, desk⟩).1 = [first, second] ∧ first.Carries (.ofParts 9 9) t ∧
      second.Carries (.ofParts 9 9) t' ∧ t = ⟨9000⟩ ∧ t.millis.toInt < t'.millis.toInt := by
  have hkeeps : Registry.shop.KeepsBase newOrder.descriptor.cls := by
    rw [show newOrder.descriptor = Descriptor.ofClass Registry.shop Registry.orderRef from rfl,
      Descriptor.cls_ofClass]
    exact keepsBase_order
  have hspares : ∀ turn ∈ reorder, turn.Spares newOrder.descriptor := by
    have hstate : Held.Unstamped "state" := by
      unfold Held.Unstamped
      decide
    intro turn hturn
    simp only [reorder, List.mem_cons, List.not_mem_nil, or_false] at hturn
    rcases hturn with rfl | rfl | rfl | rfl
    · trivial
    · trivial
    · exact hstate
    · trivial
  obtain ⟨id, times, hall, -, hchain, -⟩ :=
    saves_advance (b := desk) reachable_newOrder hkeeps rfl hspares
  have hstamps := stamps_reorder
  generalize (course reorder ⟨newOrder, desk⟩).1 = saved at hall hstamps ⊢
  obtain ⟨first, rest, rfl, hfirst, hrest⟩ := List.map_eq_cons_iff.1 hstamps
  obtain ⟨second, rest, rfl, -, hrest⟩ := List.map_eq_cons_iff.1 hrest
  cases List.map_eq_nil_iff.1 hrest
  cases hall with
  | @cons _ t _ _ hcarries hall =>
    cases hall with
    | @cons _ t' _ _ hcarries' hall =>
      cases hall
      -- the first save tells which id it is, and its time
      have hdated := hcarries.stamps.symm.trans hfirst
      cases hdated
      exact ⟨first, second, _, t', rfl, hcarries, hcarries', rfl,
        (List.isChain_cons_cons.1 hchain).1 (by decide)⟩

end Collection

end Folio
