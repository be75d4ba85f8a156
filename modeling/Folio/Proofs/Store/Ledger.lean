import Folio.Proofs.Cbor.RoundTrip
import Folio.Proofs.Store.Requests

/-!
# A ledger of documents

What a store amounts to without bytes and without ids beside the documents: for
each collection the documents in canonical form, by id, in the order in which
they were inserted. A document is looked up, exchanged and taken out by its id,
never by its place. Writing a NaN is the one thing that is refused for what a
document holds; reading is never refused.

Results:
* `set_eq_set`, `erase_eq_eraseIdx`: where ids are different, an id tells a place.
* `refuses_perform`: only a write is refused for data, and only for a NaN.
-/
namespace Folio

/-- A collection: documents by id, in the order of insertion. -/
abbrev Shelf := List (Value × Document)

namespace Shelf

/-- The ids, in order. -/
def ids (shelf : Shelf) : List Value := shelf.map (·.1)

/-- The shelf with another document under an id that is there. -/
def set (id : Value) (doc : Document) : Shelf → Shelf
  | [] => []
  | p :: rest => if p.1 == id then (p.1, doc) :: rest else p :: set id doc rest

/-- The shelf without the document under an id. -/
def erase (id : Value) (shelf : Shelf) : Shelf := shelf.eraseP (·.1 == id)

/-- The first document that matches, with its id. -/
def first? (filter : Filter) (shelf : Shelf) : Option (Value × Document) :=
  shelf.find? fun p => filter.matchesDoc p.2

/-- The documents that match, with their ids. -/
def matching (filter : Filter) (shelf : Shelf) : Shelf :=
  shelf.filter fun p => filter.matchesDoc p.2

/-- The ids are all different. -/
abbrev Distinct (shelf : Shelf) : Prop := shelf.ids.Pairwise fun a b => (a == b) = false

@[simp] theorem ids_set (id : Value) (doc : Document) (shelf : Shelf) :
    (shelf.set id doc).ids = shelf.ids := by
  induction shelf with
  | nil => rfl
  | cons p rest ih =>
    rw [set]
    split
    · rfl
    · exact congrArg (p.1 :: ·) ih

/-- An id tells the place where it stands. -/
theorem set_eq_set {shelf : Shelf} (h : shelf.Distinct) {i : Nat} {id : Value}
    (hid : (id == id) = true) (hi : shelf.ids[i]? = some id) (doc : Document) :
    shelf.set id doc = List.set shelf i (id, doc) := by
  induction shelf generalizing i with
  | nil => cases hi
  | cons p rest ih =>
    obtain ⟨hne, hrest⟩ := List.pairwise_cons.1 h
    cases i with
    | zero =>
      cases hi
      rw [set, if_pos hid]
      rfl
    | succ i =>
      have hfirst := hne id (List.mem_of_getElem? hi)
      rw [set, if_neg (by simp [hfirst]), ih hrest hi]
      rfl

theorem erase_eq_eraseIdx {shelf : Shelf} (h : shelf.Distinct) {i : Nat} {id : Value}
    (hid : (id == id) = true) (hi : shelf.ids[i]? = some id) :
    shelf.erase id = shelf.eraseIdx i := by
  induction shelf generalizing i with
  | nil => cases hi
  | cons p rest ih =>
    obtain ⟨hne, hrest⟩ := List.pairwise_cons.1 h
    cases i with
    | zero =>
      cases hi
      simp only [erase, List.eraseP_cons, hid, cond_true, List.eraseIdx_cons_zero]
    | succ i =>
      have hfirst := hne id (List.mem_of_getElem? hi)
      simp only [erase, List.eraseP_cons, hfirst, cond_false, List.eraseIdx_cons_succ]
      exact congrArg (p :: ·) (ih hrest hi)

end Shelf

/-- Collections by name, and whether they can be reached. -/
structure Ledger where
  shelf : String → Shelf := fun _ => []
  unavailable : Bool := false

namespace Ledger

/-- The ledger before any request. -/
def empty : Ledger := {}

/-- The documents of a collection. -/
def documents (l : Ledger) (c : String) : List Document := (l.shelf c).map (·.2)

/-- The ledger with another shelf for a collection. -/
def setShelf (l : Ledger) (c : String) (shelf : Shelf) : Ledger :=
  { l with shelf := fun name => if name = c then shelf else l.shelf name }

@[simp] theorem shelf_setShelf (l : Ledger) (c name : String) (shelf : Shelf) :
    (l.setShelf c shelf).shelf name = if name = c then shelf else l.shelf name := rfl

/-- An operation on a ledger. What it changed stays changed also after a
fault. -/
abbrev Step (α : Type) := ExceptT StoreFault (StateM Ledger) α

/-- Refuses a request if the ledger cannot be reached. -/
def begin (c : String) : Step Unit := do
  if (← getThe Ledger).unavailable then throw (.unavailable c)

/-- The form in which a document is kept. One with a NaN is refused. -/
def kept (doc : Document) : Except StoreFault Document :=
  if (Value.document doc).hasNaN then .error (.data .nanForbidden) else .ok doc.canonical

/-- Puts a document under its id, or under a new one. -/
def insert (c : String) (doc : Document) (fresh : ObjectId) : Step Value := do
  let id := (doc.get? idField).getD (.objectId fresh)
  let doc ← kept (doc.withId none fresh)
  let shelf := (← getThe Ledger).shelf c
  if shelf.ids.any (· == id) then throw (.duplicateKey c id.written)
  modify (·.setShelf c (shelf ++ [(id, doc)]))
  return id

/-- Puts documents under their ids, up to the first that is refused. -/
def insertAll (c : String) (fresh : Nat → ObjectId) : List Document → Step (List Value)
  | [] => pure []
  | doc :: rest => do
    let id ← insert c doc (fresh 0)
    return id :: (← insertAll c (fun i => fresh (i + 1)) rest)

/-- Exchanges the document under an id. -/
def overwrite (c : String) (id : Value) (doc : Document) : Step Unit := do
  let doc ← kept doc
  modify fun l => l.setShelf c ((l.shelf c).set id doc)

/-- Takes out the document under an id. -/
def evict (c : String) (id : Value) : Step Unit :=
  modify fun l => l.setShelf c ((l.shelf c).erase id)

/-- The first match in a collection. -/
def locate (c : String) (filter : Filter) : Step (Option (Value × Document)) := do
  return ((← getThe Ledger).shelf c).first? filter

/-- Every match in a collection. -/
def locateAll (c : String) (filter : Filter) : Step Shelf := do
  return ((← getThe Ledger).shelf c).matching filter

/-- Updates each of the documents, up to the first that cannot be. -/
def updateAll (c : String) (update : Update) : Shelf → UpdateResult → Step UpdateResult
  | [], result => pure result
  | (id, doc) :: rest, result => do
    let next ← Store.updated update doc
    overwrite c id next
    updateAll c update rest
      { result with
        matched := result.matched + 1
        modified := result.modified + if next == doc then 0 else 1 }

open Store (Request Answer) in
/-- Performs a request. -/
def perform : Request → Step Answer
  | .insertOne c doc fresh => do
    begin c
    return .id (← insert c doc fresh)
  | .insertMany c docs fresh => do
    begin c
    return .ids (← insertAll c fresh docs)
  | .find c filter options => do
    begin c
    return .documents (options.apply ((← locateAll c filter).map (·.2)))
  | .count c filter => do
    begin c
    return .number (← locateAll c filter).length
  | .distinct c field filter => do
    begin c
    return .values (((← locateAll c filter).flatMap fun p => Store.candidates field p.2).foldl
      Store.addNew [])
  | .aggregate c stages => do
    begin c
    return .documents (Stage.run ((← getThe Ledger).documents c) stages)
  | .replaceOne c filter doc upsert fresh => do
    begin c
    match ← locate c filter with
    | some (id, existing) =>
      let next ← Store.replacement existing doc fresh
      overwrite c id next
      return .result { matched := 1, modified := if next == existing then 0 else 1 }
    | none =>
      if upsert then return .result { upserted := some (← insert c doc fresh) }
      return .result {}
  | .updateOne c filter update => do
    begin c
    match ← locate c filter with
    | some (id, doc) =>
      let next ← Store.updated update doc
      overwrite c id next
      return .result { matched := 1, modified := if next == doc then 0 else 1 }
    | none => return .result {}
  | .updateMany c filter update => do
    begin c
    return .result (← updateAll c update (← locateAll c filter) {})
  | .findOneAndUpdate c filter update version => do
    begin c
    match ← locate c filter with
    | some (id, before) =>
      let after ← Store.updated update before
      overwrite c id after
      return .document (some (match version with | .before => before | .after => after))
    | none => return .document none
  | .findOneAndReplace c filter doc version fresh => do
    begin c
    match ← locate c filter with
    | some (id, before) =>
      let after ← Store.replacement before doc fresh
      overwrite c id after
      return .document (some (match version with | .before => before | .after => after))
    | none => return .document none
  | .findOneAndDelete c filter => do
    begin c
    match ← locate c filter with
    | some (id, doc) =>
      evict c id
      return .document (some doc)
    | none => return .document none
  | .deleteOne c filter => do
    begin c
    match ← locate c filter with
    | some (id, _) =>
      evict c id
      return .number 1
    | none => return .number 0
  | .deleteMany c filter => do
    begin c
    let found ← locateAll c filter
    modify fun l => l.setShelf c ((l.shelf c).filter fun p => !filter.matchesDoc p.2)
    return .number found.length
  | .setUnavailable unavailable => do
    modify fun l => { l with unavailable }
    return .none

/-- The ledger after requests, each of which may succeed or fail. -/
def after (l : Ledger) : List Store.Request → Ledger
  | [] => l
  | r :: rest => after ((perform r).run l).2 rest

/-- The answers to requests made one after another. -/
def answers (l : Ledger) : List Store.Request → List (Except StoreFault Store.Answer)
  | [] => []
  | r :: rest => ((perform r).run l).1 :: answers ((perform r).run l).2 rest

/-! ## The parts of a request -/

theorem run_insert (c : String) (doc : Document) (fresh : ObjectId) (l : Ledger) :
    (insert c doc fresh).run l =
      match kept (doc.withId none fresh) with
      | .ok next =>
        if (l.shelf c).ids.any (· == (doc.get? idField).getD (.objectId fresh)) then
          (.error (.duplicateKey c ((doc.get? idField).getD (.objectId fresh)).written), l)
        else (.ok ((doc.get? idField).getD (.objectId fresh)),
          l.setShelf c (l.shelf c ++ [((doc.get? idField).getD (.objectId fresh), next)]))
      | .error fault => (.error fault, l) := by
  simp only [insert, run_bind, run_lift]
  cases kept (doc.withId none fresh) with
  | error fault => rfl
  | ok next =>
    simp only [run_getThe]
    split <;> rfl

theorem run_overwrite (c : String) (id : Value) (doc : Document) (l : Ledger) :
    (overwrite c id doc).run l =
      match kept doc with
      | .ok next => (.ok (), l.setShelf c ((l.shelf c).set id next))
      | .error fault => (.error fault, l) := by
  simp only [overwrite, run_bind, run_lift]
  cases kept doc <;> rfl

/-! ## What is refused for data -/

/-- If the step refuses data, then for such a fault. -/
def Refuses {α : Type} (P : DataFault → Prop) (x : Step α) : Prop :=
  ∀ l fault, (x.run l).1 = .error (.data fault) → P fault

namespace Refuses

variable {α β : Type} {P : DataFault → Prop}

theorem bind {x : Step α} {f : α → Step β} (hx : Refuses P x) (hf : ∀ a, Refuses P (f a)) :
    Refuses P (x >>= f) := by
  intro l fault h
  rw [run_bind] at h
  split at h
  next a m _ => exact hf a m fault h
  next e m hrun =>
    cases h
    exact hx l fault (by rw [hrun])

/-- An operation that ends in a result refuses nothing. -/
theorem of_ok {x : Step α} (h : ∀ l, ∃ a, (x.run l).1 = .ok a) : Refuses P x := by
  intro l fault hl
  obtain ⟨a, ha⟩ := h l
  rw [ha] at hl
  cases hl

theorem lift {x : Except StoreFault α} (h : ∀ fault, x = .error (.data fault) → P fault) :
    Refuses P (liftM x : Step α) := by
  intro l fault hl
  rw [run_lift] at hl
  exact h fault hl

theorem pure (a : α) : Refuses P (Pure.pure a : Step α) := of_ok fun _ => ⟨a, rfl⟩

theorem begin (c : String) : Refuses P (begin c) := by
  intro l fault h
  rw [Ledger.begin, run_bind, run_getThe] at h
  by_cases hu : l.unavailable = true
  · simp only [hu, if_true] at h
    cases h
  · simp only [hu] at h
    cases h

end Refuses

theorem kept_data {doc : Document} {fault : DataFault} (h : kept doc = .error (.data fault)) :
    fault = .nanForbidden := by
  unfold kept at h
  split at h
  · cases h
    rfl
  · cases h

theorem refuses_insert (c : String) (doc : Document) (fresh : ObjectId) :
    Refuses (· = .nanForbidden) (insert c doc fresh) := by
  intro l fault h
  rw [run_insert] at h
  split at h
  · split at h <;> cases h
  next fault hk =>
    cases h
    exact kept_data hk

theorem refuses_insertAll (c : String) (fresh : Nat → ObjectId) (docs : List Document) :
    Refuses (· = .nanForbidden) (insertAll c fresh docs) := by
  induction docs generalizing fresh with
  | nil => exact .pure []
  | cons doc rest ih => exact .bind (refuses_insert _ _ _) fun _ => .bind (ih _) fun _ => .pure _

theorem refuses_overwrite (c : String) (id : Value) (doc : Document) :
    Refuses (· = .nanForbidden) (overwrite c id doc) :=
  .bind (.lift fun _ => kept_data) fun _ => .of_ok fun _ => ⟨(), rfl⟩

theorem updated_data {P : Prop} {update : Update} {doc : Document} {fault : DataFault}
    (h : Store.updated update doc = .error (.data fault)) : P := by
  unfold Store.updated at h
  cases hu : update.apply doc <;> rw [hu] at h <;> cases h

theorem replacement_data {P : Prop} {existing doc : Document} {fresh : ObjectId} {fault : DataFault}
    (h : Store.replacement existing doc fresh = .error (.data fault)) : P := by
  unfold Store.replacement at h
  split at h
  · split at h <;> cases h
  · cases h

theorem refuses_updateAll (c : String) (update : Update) (found : Shelf) (result : UpdateResult) :
    Refuses (· = .nanForbidden) (updateAll c update found result) := by
  induction found generalizing result with
  | nil => exact .pure result
  | cons p rest ih =>
    exact .bind (.lift fun _ => updated_data) fun _ =>
      .bind (refuses_overwrite _ _ _) fun _ => ih _

theorem Refuses.imp {α : Type} {P Q : DataFault → Prop} {x : Step α} (h : Refuses P x)
    (hpq : ∀ fault, P fault → Q fault) : Refuses Q x :=
  fun l fault hl => hpq fault (h l fault hl)

/-- What is looked up is never refused. -/
theorem Refuses.locate {α : Type} {P : DataFault → Prop} {c : String} {filter : Filter}
    {f : Option (Value × Document) → Step α} (hnone : Refuses P (f none))
    (hsome : ∀ p, Refuses P (f (some p))) : Refuses P (Ledger.locate c filter >>= f) :=
  .bind (.of_ok fun _ => ⟨_, rfl⟩) (Option.rec hnone hsome)

end Ledger

/-- The request writes documents. -/
def Store.Request.writes : Store.Request → Bool
  | .insertOne .. | .insertMany .. | .replaceOne .. | .updateOne .. | .updateMany ..
  | .findOneAndUpdate .. | .findOneAndReplace .. => true
  | .find .. | .count .. | .distinct .. | .aggregate .. | .findOneAndDelete .. | .deleteOne ..
  | .deleteMany .. | .setUnavailable _ => false

namespace Ledger

/-- Only a write is refused for data, and only for a NaN. -/
theorem refuses_perform (r : Store.Request) :
    Refuses (fun fault => r.writes = true ∧ fault = .nanForbidden) (perform r) := by
  have written : ∀ {α : Type} {x : Step α}, r.writes = true → Refuses (· = .nanForbidden) x →
      Refuses (fun fault => r.writes = true ∧ fault = .nanForbidden) x :=
    fun hw h => h.imp fun _ hf => ⟨hw, hf⟩
  cases r with
  | insertOne c doc fresh =>
    exact .bind (.begin c) fun _ => written rfl (.bind (refuses_insert _ _ _) fun _ => .pure _)
  | insertMany c docs fresh =>
    exact .bind (.begin c) fun _ => written rfl (.bind (refuses_insertAll _ _ _) fun _ => .pure _)
  | find c _ _ | count c _ | distinct c _ _ | aggregate c _ | deleteMany c _ =>
    exact .bind (.begin c) fun _ => .of_ok fun _ => ⟨_, rfl⟩
  | replaceOne c filter doc upsert fresh =>
    refine .bind (.begin c) fun _ => .locate ?_ fun _ => ?_
    · cases upsert with
      | true => exact written rfl (.bind (refuses_insert _ _ _) fun _ => .pure _)
      | false => exact .pure _
    · exact .bind (.lift fun _ => replacement_data) fun _ =>
        written rfl (.bind (refuses_overwrite _ _ _) fun _ => .pure _)
  | updateMany c filter update =>
    refine .bind (.begin c) fun _ => .bind (.of_ok fun _ => ⟨_, rfl⟩) fun _ => ?_
    exact written rfl (.bind (refuses_updateAll _ _ _ _) fun _ => .pure _)
  | updateOne c _ _ | findOneAndUpdate c _ _ _ =>
    refine .bind (.begin c) fun _ => .locate (.pure _) fun _ => ?_
    exact .bind (.lift fun _ => updated_data) fun _ =>
      written rfl (.bind (refuses_overwrite _ _ _) fun _ => .pure _)
  | findOneAndReplace c _ _ _ _ =>
    refine .bind (.begin c) fun _ => .locate (.pure _) fun _ => ?_
    exact .bind (.lift fun _ => replacement_data) fun _ =>
      written rfl (.bind (refuses_overwrite _ _ _) fun _ => .pure _)
  | findOneAndDelete c _ | deleteOne c _ =>
    exact .bind (.begin c) fun _ => .locate (.pure _) fun _ => .of_ok fun _ => ⟨_, rfl⟩
  | setUnavailable unavailable => exact .of_ok fun _ => ⟨_, rfl⟩

/-- Every document has sizes that can be read. -/
def Fits (l : Ledger) : Prop :=
  ∀ c, ∀ p ∈ l.shelf c, (Value.document p.2).everywhere Value.sized = true

/-- Collections are maps: an id has one document, which has that id and is in
canonical form. -/
structure IsMap (l : Ledger) : Prop where
  distinct : ∀ c, (l.shelf c).Distinct
  own : ∀ c, ∀ p ∈ l.shelf c, p.2.get? idField = some p.1
  canonical : ∀ c, ∀ p ∈ l.shelf c, p.2.canonical = p.2

end Ledger

end Folio
