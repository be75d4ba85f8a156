import Folio.Proofs.Collection.Saving
import Folio.Proofs.Store.Placing

/-!
# Entities inserted together

Inserting several entities stamps and encodes all of them and then makes one
call on the store. The store keeps the documents before the first one that it
refuses, while every entity gets its stamps back: what was kept belongs to no
entity, and inserting the same entities once more stores them again.

Results:
* `prepareAll_eq`: entities are stamped, encoded and put back one by one.
* `insertMany_failed`: what a failed insertion leaves, and when that is nothing.
-/
namespace Folio

namespace Entity

variable {e : Entity}

/-- Nothing is seen of the stamps that the entity had. -/
theorem withStamps_restamped (hs : Keyed.Sorted e.attributes) (stamps : Stamps) :
    e.restamped.withStamps stamps = e.withStamps stamps := by
  have halike : e.Alike e.restamped := Stamps.alike_onto _ ⟨rfl, rfl, hs, fun _ _ => rfl⟩
  exact congrArg (Entity.mk e.cls e.descriptor) (Stamps.onto_alike stamps hs halike)

/-- The entity still has its id. -/
theorem id?_restamped (e : Entity) : Record.id? e.restamped = Record.id? e :=
  congrArg Stamps.id (Stamps.ofRecord_withStamps (.ofRecord e) e)

end Entity

namespace Collection

variable {e : Entity} {records left : List Entity} {b after : Backend} {c : Collection}
  {ambient : Ambient} {s : Schema} {known : ClassRef → Prop}

/-! ## Stamping and encoding -/

/-- The entity stamped as a new one, with its own id or with the one given. -/
def renewed (e : Entity) (fresh : ObjectId) : Entity :=
  e.withStamps (.ofId ((Record.id? e).getD fresh))

/-- The documents of entities that are inserted together, each under its id. -/
def encodeAll (fresh : Nat → ObjectId) : List Entity → RegistryM (List (ObjectId × Document))
  | [] => pure []
  | e :: rest => do
    let doc ← Registry.encodeRecord (renewed e (fresh 0))
    return ((Record.id? e).getD (fresh 0), doc) :: (← encodeAll (fun i => fresh (i + 1)) rest)

theorem length_encodeAll {fresh : Nat → ObjectId} {codecs codecs' : Registry}
    {docs : List (ObjectId × Document)}
    (h : (encodeAll fresh records).run codecs = (.ok docs, codecs')) :
    docs.length = records.length := by
  induction records generalizing fresh codecs docs with
  | nil =>
    cases h
    rfl
  | cons e rest ih =>
    rw [encodeAll] at h
    obtain ⟨doc, next, -, h⟩ := ok_of_run_bind h
    obtain ⟨others, last, hothers, h⟩ := ok_of_run_bind h
    cases h
    exact congrArg (· + 1) (ih hothers)

/-- Entities are encoded alike after they were rolled back. -/
theorem encodeAll_restamped (hs : ∀ e ∈ records, Keyed.Sorted e.attributes)
    (fresh : Nat → ObjectId) (n : Nat) :
    encodeAll fresh ((records.take n).map Entity.restamped ++ records.drop n) =
      encodeAll fresh records := by
  induction records generalizing fresh n with
  | nil => rw [List.take_nil, List.drop_nil, List.map_nil, List.append_nil]
  | cons e rest ih =>
    cases n with
    | zero => rfl
    | succ n =>
      have hrest := ih (fun x hx => hs x (List.mem_cons_of_mem e hx)) (fun i => fresh (i + 1)) n
      have hself : renewed e.restamped (fresh 0) = renewed e (fresh 0) := by
        rw [renewed, Entity.id?_restamped, Entity.withStamps_restamped (hs e List.mem_cons_self)]
        rfl
      rw [List.take_succ_cons, List.drop_succ_cons, List.map_cons, List.cons_append, encodeAll,
        hrest, hself, Entity.id?_restamped]
      rfl

/-- An entity is stamped and encoded. -/
theorem prepare_eq (h : e.TakesStamps) {fresh : ObjectId} {result : Except Failure Document}
    {codecs : Registry}
    (hencode : (Registry.encodeRecord (renewed e fresh)).run b.registry = (result, codecs)) :
    prepare e fresh b = (result.map (((Record.id? e).getD fresh), ·),
      ⟨renewed e fresh, some (.ofRecord e)⟩, { b with registry := codecs }) := by
  have hmodify : requireModifiable e = .ok () := rfl
  have hstamp : ((Stamps.ofId ((Record.id? e).getD fresh)).apply : HeldM Entity Unit).run ⟨e, b⟩ =
      (.ok (), ⟨renewed e fresh, b⟩) := Stamps.run_apply _ h
  rw [prepare, hmodify]
  dsimp only
  rw [run_bind_ok hstamp, Held.run_encode hencode]
  cases result <;> rfl

/-- The stamps that were written into an entity are taken back. -/
theorem rollBack_renewed (hr : e.Reachable s known) (fresh : ObjectId) (b : Backend) :
    rollBack b ⟨renewed e fresh, some (.ofRecord e)⟩ = e.restamped := by
  have hs := hr.sound.sorted
  have halike : e.Alike (renewed e fresh) :=
    Stamps.alike_onto _ ⟨rfl, rfl, hs, fun _ _ => rfl⟩
  exact congrArg (fun run => run.2.record) (Stamps.run_restamp (b := b) hr.takesStamps hs halike)

theorem rollBack_untouched (b : Backend) (records : List Entity) :
    (records.map fun e => (⟨e, none⟩ : Pending Entity)).map (rollBack b) = records := by
  rw [List.map_map]
  exact List.map_id records

/-- Entities are stamped and encoded in order. Rolled back, those that were
stamped have their own stamps, and the others are as they were. -/
theorem prepareAll_eq (hr : ∀ e ∈ records, e.Reachable s known) {fresh : Nat → ObjectId}
    {result : Except Failure (List (ObjectId × Document))} {codecs : Registry}
    (hencode : (encodeAll fresh records).run b.registry = (result, codecs)) :
    ∃ pending n, prepareAll fresh b records = (result, pending, { b with registry := codecs }) ∧
      ∀ b', pending.map (rollBack b') =
        (records.take n).map Entity.restamped ++ records.drop n := by
  induction records generalizing fresh b result codecs with
  | nil =>
    cases hencode
    exact ⟨[], 0, rfl, fun _ => rfl⟩
  | cons e rest ih =>
    have he := hr e List.mem_cons_self
    rw [encodeAll, run_bind] at hencode
    rcases hdoc : (Registry.encodeRecord (renewed e (fresh 0))).run b.registry with ⟨_ | doc, next⟩
    · -- the entity that cannot be encoded has been stamped like those before it
      simp only [hdoc] at hencode
      cases hencode
      refine ⟨⟨renewed e (fresh 0), some (.ofRecord e)⟩ :: rest.map fun e => ⟨e, none⟩, 1, ?_, ?_⟩
      · rw [prepareAll, prepare_eq he.takesStamps hdoc]
        rfl
      · intro b'
        rw [List.map_cons, rollBack_renewed he, rollBack_untouched]
        rfl
    · simp only [hdoc, run_bind] at hencode
      rcases hothers : (encodeAll (fun i => fresh (i + 1)) rest).run next with ⟨others, last⟩
      obtain ⟨pending, n, hprepare, hback⟩ :=
        ih (b := { b with registry := next }) (fun x hx => hr x (List.mem_cons_of_mem e hx)) hothers
      refine ⟨⟨renewed e (fresh 0), some (.ofRecord e)⟩ :: pending, n + 1, ?_, ?_⟩
      · rw [prepareAll, prepare_eq he.takesStamps hdoc]
        simp only [Except.map, hprepare]
        rw [hothers] at hencode
        cases others <;> cases hencode <;> rfl
      · intro b'
        rw [List.map_cons, rollBack_renewed he, hback]
        rfl

/-! ## Inserting -/

/-- Every entity can be encoded, and the store can be reached and takes the
first of them. -/
def TakesFirst (c : Collection) (records : List Entity) (ambient : Ambient) (b : Backend) : Prop :=
  ∃ docs codecs first next,
    (encodeAll ambient.fresh records).run b.registry = (.ok docs, codecs) ∧
      b.store.unavailable = false ∧ docs.head? = some first ∧
      Store.accept c.name (b.store.entries c.name) first.2 (ambient.fresh 0) = .ok next

/-- The entries are those of the documents of the first of the entities, in
order. -/
def Entered (records : List Entity) (ambient : Ambient) (b : Backend) (entries : List Stored) :
    Prop :=
  entries = [] ∨ ∃ docs codecs,
    (encodeAll ambient.fresh records).run b.registry = (.ok docs, codecs) ∧
      List.Forall₂ Store.Keeps ((docs.map (·.2)).take entries.length) entries

/-- Entries of the first entities are added, and of all of them if the call
succeeds. If it fails, the stamps are taken back. -/
theorem insertMany_cases (hr : ∀ e ∈ records, e.Reachable s known)
    {result : Except Failure (List ObjectId)}
    (hrun : c.insertMany records ambient b = (result, left, after)) :
    ∃ added n, b.store.Changed c.name (b.store.entries c.name ++ added) after.store ∧
      Entered records ambient b added ∧ (added ≠ [] ↔ c.TakesFirst records ambient b) ∧
      ((∃ ids, result = .ok ids) → added.length = records.length) ∧
      ((∃ failure, result = .error failure) →
        left = (records.take n).map Entity.restamped ++ records.drop n) := by
  rcases hencode : (encodeAll ambient.fresh records).run b.registry with ⟨prepared, codecs⟩
  obtain ⟨pending, n, hprepare, hback⟩ := prepareAll_eq (b := b) hr hencode
  rw [insertMany, hprepare] at hrun
  cases prepared with
  | error failure =>
    cases hrun
    refine ⟨[], n, Store.changed_nothing (.refl _), .inl rfl, ?_, nofun, fun _ => hback _⟩
    refine iff_of_false (fun hne => hne rfl) ?_
    rintro ⟨docs, codecs', first, next, hdocs, -⟩
    cases hencode.symm.trans hdocs
  | ok docs =>
    dsimp only at hrun
    rcases hplace : (Store.insertMany c.name (docs.map (·.2)) ambient.fresh).run b.store
      with ⟨outcome, t⟩
    obtain ⟨added, hchanged, hkeeps, hall, hsome⟩ := Store.insertMany_cases hplace
    rw [Backend.run_call, hplace] at hrun
    refine ⟨added, n, ?_, .inr ⟨docs, codecs, hencode, hkeeps⟩, ?_, ?_, ?_⟩
    · cases outcome <;> cases hrun <;> exact hchanged
    · rw [hsome]
      constructor
      · rintro ⟨havailable, doc, next, hdoc, hnext⟩
        rw [List.head?_map] at hdoc
        obtain ⟨first, hfirst, rfl⟩ := Option.map_eq_some_iff.1 hdoc
        exact ⟨docs, codecs, first, next, hencode, havailable, hfirst, hnext⟩
      · rintro ⟨docs', codecs', first, next, hdocs, havailable, hfirst, hnext⟩
        cases hencode.symm.trans hdocs
        refine ⟨havailable, first.2, next, ?_, hnext⟩
        rw [List.head?_map, hfirst]
        rfl
    · rintro ⟨ids, rfl⟩
      cases outcome with
      | error fault => cases hrun
      | ok values => rw [hall ⟨values, rfl⟩, List.length_map, length_encodeAll hencode]
    · rintro ⟨failure, rfl⟩
      cases outcome with
      | error fault =>
        cases hrun
        exact hback _
      | ok values => cases hrun

/-- **What a failed insertion leaves.** Entries of the first entities stay in the
store, and there are none just when some entity cannot be encoded or the store
cannot be reached or refuses the first. The entities that were stamped have
their own stamps, and are as they were just when their base properties held
nothing else. Where the same entities are inserted once more with success, all
of them are entered, so that each was stored once in all just when nothing was
left before. -/
theorem insertMany_failed (hr : ∀ e ∈ records, e.Reachable s known) {failure : Failure}
    (hrun : c.insertMany records ambient b = (.error failure, left, after)) :
    ∃ (added : List Stored) (n : Nat),
      b.store.Changed c.name (b.store.entries c.name ++ added) after.store ∧
      Entered records ambient b added ∧
      (b.store.Same after.store ↔ ¬c.TakesFirst records ambient b) ∧
      left = (records.take n).map Entity.restamped ++ records.drop n ∧
      (left = records ↔ ∀ e ∈ records.take n, e.HoldsStamps) ∧
      ∀ (again : Ambient) (b' after' : Backend) (ids : List ObjectId) (stamped : List Entity),
        c.insertMany left again b' = (.ok ids, stamped, after') →
        ∃ more, b'.store.Changed c.name (b'.store.entries c.name ++ more) after'.store ∧
          more.length = records.length ∧ Entered records again b' more ∧
          (added.length + more.length = records.length ↔ ¬c.TakesFirst records ambient b) := by
  obtain ⟨added, n, hchanged, hentered, htakes, -, hback⟩ := insertMany_cases hr hrun
  have hleft := hback ⟨failure, rfl⟩
  refine ⟨added, n, hchanged, hentered, ?_, hleft, ?_, ?_⟩
  · rw [hchanged.same_iff, ← htakes, not_not, List.append_right_eq_self]
  · have hparts : records = (records.take n).map id ++ records.drop n := by
      rw [List.map_id, List.take_append_drop]
    have hiff : (records.take n).map Entity.restamped ++ records.drop n =
        (records.take n).map id ++ records.drop n ↔
          (records.take n).map Entity.restamped = (records.take n).map id :=
      List.append_left_inj (records.drop n)
    rw [← hleft, ← hparts] at hiff
    rw [hiff, List.map_inj_left]
    refine forall₂_congr fun e he => Entity.restamped_eq_iff ?_
    exact (hr e (List.mem_of_mem_take he)).sound.sorted
  · intro again b' after' ids stamped hagain
    have hreach : ∀ e ∈ left, e.Reachable s known := by
      intro e he
      rw [hleft] at he
      rcases List.mem_append.1 he with he | he
      · obtain ⟨x, hx, rfl⟩ := List.mem_map.1 he
        exact Stamps.reachable_onto _ (hr x (List.mem_of_mem_take hx))
      · exact hr e (List.mem_of_mem_drop he)
    -- what is encoded the second time does not depend on the roll-back
    have hsame := encodeAll_restamped (fun e he => (hr e he).sound.sorted) again.fresh n
    obtain ⟨more, m, hchanged', hentered', -, hall, -⟩ := insertMany_cases hreach hagain
    have hlength : left.length = records.length := by
      rw [hleft, List.length_append, List.length_map, ← List.length_append, List.take_append_drop]
    have hmore := (hall ⟨ids, rfl⟩).trans hlength
    rw [Entered, hleft, hsame] at hentered'
    refine ⟨more, hchanged', hmore, hentered', ?_⟩
    rw [hmore, ← htakes, not_not, ← List.length_eq_zero_iff]
    omega

/-! ## Two orders -/

open Registry (shop orderRef order shopNames reachable_order)

/-- An order that was not saved. -/
def newOrder : Entity :=
  { order with attributes := Keyed.set Naming.idProperty none order.attributes }

theorem reachable_newOrder : newOrder.Reachable shop shopNames.Knows :=
  reachable_order.stamp Schema.id_base none nofun

theorem refused_orders : (orders.insertMany [newOrder, order] early desk).1.isOk = false ∧
    ((orders.insertMany [newOrder, order] early desk).2.2.store.entries "orders").length = 3 := by
  rw [newOrder, order, ofClass_order]
  decide +kernel

/-- A new order and one whose id is taken cannot be inserted together. Both are
as they were, and the new one is in the store. -/
theorem insertMany_failed_orders : ∃ failure after,
    orders.insertMany [newOrder, order] early desk = (.error failure, [newOrder, order], after) ∧
      ¬desk.store.Same after.store := by
  rcases hrun : orders.insertMany [newOrder, order] early desk with ⟨result, left, after⟩
  obtain ⟨hfails, hthree⟩ := refused_orders
  rw [hrun] at hfails hthree
  cases result with
  | ok ids => cases hfails
  | error failure =>
    have hr : ∀ e ∈ [newOrder, order], e.Reachable shop shopNames.Knows := by
      simp [reachable_newOrder, reachable_order]
    have hholds : ∀ e ∈ [newOrder, order], e.HoldsStamps := by
      intro e he
      refine ((hr e he).based ?_).values
      have hcls : e.descriptor = Descriptor.ofClass shop orderRef := by
        rcases List.mem_pair.1 he with rfl | rfl <;> rfl
      rw [hcls, Descriptor.cls_ofClass]
      exact keepsBase_order
    obtain ⟨added, n, -, -, -, -, hleft, -⟩ := insertMany_failed hr hrun
    have hsame := hleft.2 fun e he => hholds e (List.mem_of_mem_take he)
    refine ⟨failure, after, by rw [hsame], fun hkept => ?_⟩
    rw [hkept "orders"] at hthree
    cases hthree

end Collection
end Folio
