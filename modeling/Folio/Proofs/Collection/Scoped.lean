import Folio.Proofs.Collection.Deleting
import Folio.Proofs.Registry.Reload
import Folio.Proofs.Store.Hidden

/-!
# Defunct records are out of reach

What a collection in the defunct scope answers depends on live documents only,
and it changes no others. So two stores with the same live documents cannot be
told apart through it, whatever is asked, updated or deleted; nothing that is
not live is touched, and nothing at all is removed.

Results:
* `perform_alike`: a request is answered alike on stores that agree on what is
  live, and they still do afterwards.
* `answers_alike`: so are requests made one after another.
* `perform_live`: the same, told of the documents that are stored.
-/
namespace Folio.Collection

variable {E : Type} [Record E]

/-! ## Requests -/

/-- What can be asked of a collection, apart from saving and inserting. -/
inductive Request (E : Type) where
  | findById (id : Option ObjectId)
  | findByIds (ids : List ObjectId)
  | findFirst (filter : Option Filter)
  | find (filter : Option Filter) (options : FindOptions)
  | count (filter : Option Filter)
  | countById (id : ObjectId) (filter : Option Filter)
  | contains (id : ObjectId) (filter : Option Filter)
  | distinct (field : String) (filter : Option Filter)
  | aggregate (stages : List Stage)
  | deleteById (id : Option ObjectId)
  | deleteOne (filter : Filter)
  | deleteMany (filter : Filter)
  | updateById (id : Option ObjectId) (update : Update)
  | updateOne (filter : Filter) (update : Update)
  | updateMany (filter : Filter) (update : Update)
  | findOneAndUpdate (filter : Filter) (update : Update) (version : Version)
  | findOneAndReplace (filter : Filter) (e : E) (version : Version) (ambient : Ambient)
  | findOneAndDelete (filter : Filter)

/-- The answer to a request. -/
inductive Answer (E : Type) where
  | record (e : Option E)
  | records (es : List E)
  | number (n : Nat)
  | truth (b : Bool)
  | values (values : List Value)
  | documents (docs : List Document)
  | result (result : UpdateResult)

/-- Performs a request. -/
def perform (c : Collection) : Request E → BackendM (Answer E)
  | .findById id => .record <$> c.findById id
  | .findByIds ids => .records <$> c.findByIds ids
  | .findFirst filter => .record <$> c.findFirst filter
  | .find filter options => .records <$> c.find filter options
  | .count filter => .number <$> c.count filter
  | .countById id filter => .number <$> c.countById id filter
  | .contains id filter => .truth <$> c.contains id filter
  | .distinct field filter => .values <$> c.distinct field filter
  | .aggregate stages => .documents <$> c.aggregate stages
  | .deleteById id => .record <$> c.deleteById id
  | .deleteOne filter => .number <$> c.deleteOne filter
  | .deleteMany filter => .number <$> c.deleteMany filter
  | .updateById id update => .record <$> c.updateById id update
  | .updateOne filter update => .result <$> c.updateOne filter update
  | .updateMany filter update => .result <$> c.updateMany filter update
  | .findOneAndUpdate filter update version => .record <$> c.findOneAndUpdate filter update version
  | .findOneAndReplace filter e version ambient =>
    .record <$> c.findOneAndReplace filter e version ambient
  | .findOneAndDelete filter => .record <$> c.findOneAndDelete filter

/-- The answers to requests made one after another. -/
def answers (c : Collection) (b : Backend) : List (Request E) → List (Except Failure (Answer E))
  | [] => []
  | r :: rest => ((c.perform r).run b).1 :: answers c ((c.perform r).run b).2 rest

/-! ## Backends side by side -/

/-- The same codecs, and stores that differ in what is not live only. -/
structure Lined (c : Collection) (pairs : List (Nat × Nat)) (b b' : Backend) : Prop where
  registry : b.registry = b'.registry
  stores : Store.Lined live c.name pairs b.store b'.store

/-- What an operation on two backends leaves: backends of the same kind, whose
stores lost nothing of what the operation began with. -/
structure Alike (c : Collection) (pairs : List (Nat × Nat)) (s₀ t₀ : Store) (b b' : Backend) :
    Prop where
  registry : b.registry = b'.registry
  stores : Store.Alike live c.name pairs s₀ t₀ b.store b'.store

section

variable {c : Collection} {pairs : List (Nat × Nat)} {s₀ t₀ : Store} {b b' : Backend} {α β : Type}
  {R : α → α → Prop}

theorem Lined.alike (h : c.Lined pairs b b') : c.Alike pairs b.store b'.store b b' :=
  ⟨h.registry, h.stores.alike⟩

theorem Alike.lined (h : c.Alike pairs s₀ t₀ b b') : c.Lined pairs b b' :=
  ⟨h.registry, h.stores.toLined⟩

/-- Calls that agree on the stores agree on the backends. -/
theorem Lined.call (h : c.Lined pairs b b') {x y : Store.Call α}
    (hxy : Agree (Store.Alike live c.name pairs b.store b'.store) b.store b'.store R x y) :
    Agree (c.Alike pairs b.store b'.store) b b' R (Backend.call x) (Backend.call y) := by
  unfold Agree
  rw [Backend.run_call, Backend.run_call]
  rcases hxy with ⟨a, a', s, t, hx, hy, hr, hst⟩ | ⟨fault, s, t, hx, hy, hst⟩
  · rw [hx, hy]
    exact .inl ⟨a, a', _, _, rfl, rfl, hr, h.registry, hst⟩
  · rw [hx, hy]
    exact .inr ⟨_, _, _, rfl, rfl, h.registry, hst⟩

theorem Alike.look (h : c.Alike pairs s₀ t₀ b b') (m : RegistryM α) :
    Agree (c.Alike pairs s₀ t₀) b b' (· = ·) (Backend.look m) (Backend.look m) := by
  obtain ⟨s, r⟩ := b
  obtain ⟨t, r'⟩ := b'
  obtain rfl : r = r' := h.registry
  exact .of_run_eq (Backend.run_look m _) (Backend.run_look m _) ⟨rfl, h.stores⟩

/-- What the codecs do before a call leaves the stores as they were. -/
theorem Lined.look (h : c.Lined pairs b b') {m : RegistryM α} {f : α → BackendM β} {P : β → β → Prop}
    (hf : ∀ a r, c.Lined pairs ⟨b.store, r⟩ ⟨b'.store, r⟩ →
      Agree (c.Alike pairs b.store b'.store) ⟨b.store, r⟩ ⟨b'.store, r⟩ P (f a) (f a)) :
    Agree (c.Alike pairs b.store b'.store) b b' P (Backend.look m >>= f)
      (Backend.look m >>= f) := by
  obtain ⟨s, r⟩ := b
  obtain ⟨t, r'⟩ := b'
  obtain rfl : r = r' := h.registry
  unfold Agree at hf ⊢
  simp only [run_bind, Backend.run_look]
  rcases m.run r with ⟨fault | a, r'⟩
  · exact .inr ⟨fault, _, _, rfl, rfl, rfl, h.stores.alike⟩
  · exact hf a r' ⟨rfl, h.stores⟩

theorem Alike.inflate? (h : c.Alike pairs s₀ t₀ b b') (doc : Option Document) :
    Agree (c.Alike pairs s₀ t₀) b b' (· = ·) (c.inflate? doc : BackendM (Option E))
      (c.inflate? doc) := by
  cases doc with
  | none => exact .pure h rfl
  | some doc =>
    refine (h.look _).bind fun e e' _ _ he h => .pure h ?_
    rw [he]

theorem Alike.inflateAll (h : c.Alike pairs s₀ t₀ b b') (docs : List Document) :
    Agree (c.Alike pairs s₀ t₀) b b' (· = ·) (docs.mapM c.inflate : BackendM (List E))
      (docs.mapM c.inflate) := by
  induction docs generalizing b b' with
  | nil => exact .pure h rfl
  | cons doc rest ih =>
    rw [List.mapM_cons]
    refine (h.look _).bind fun e e' _ _ he h => ?_
    refine (ih h).bind fun es es' _ _ hes h => .pure h ?_
    rw [he, hes]

end

/-! ## Operations -/

theorem live_of_seen {c : Collection} (hc : c.scope = .defunct) (filter : Option Filter)
    (doc : Document) (h : (c.visible filter).matchesDoc doc = true) : live.matchesDoc doc = true := by
  cases filter with
  | none =>
    have hv : c.visible none = live := by simp only [visible, scopeFilter, hc]
    rwa [hv] at h
  | some filter => exact live_of_visible hc h

section

variable {c : Collection} {pairs : List (Nat × Nat)} {b b' : Backend} (hc : c.scope = .defunct)
  (h : c.Lined pairs b b')

include hc h

theorem findFirst_alike (filter : Option Filter) :
    Agree (c.Alike pairs b.store b'.store) b b' (· = ·) (c.findFirst filter : BackendM (Option E))
      (c.findFirst filter) := by
  refine (h.call (Store.find_agrees h.stores (live_of_seen hc filter) _)).bind ?_
  rintro docs _ _ _ rfl h
  exact h.inflate? _

theorem findById_alike (id : Option ObjectId) :
    Agree (c.Alike pairs b.store b'.store) b b' (· = ·) (c.findById id : BackendM (Option E))
      (c.findById id) := by
  cases id with
  | none => exact .pure h.alike rfl
  | some id => exact findFirst_alike hc h _

theorem find_alike (filter : Option Filter) (options : FindOptions) :
    Agree (c.Alike pairs b.store b'.store) b b' (· = ·) (c.find filter options : BackendM (List E))
      (c.find filter options) := by
  refine (h.call (Store.find_agrees h.stores (live_of_seen hc filter) options)).bind ?_
  rintro docs _ _ _ rfl h
  exact h.inflateAll docs

theorem count_alike (filter : Option Filter) :
    Agree (c.Alike pairs b.store b'.store) b b' (· = ·) (c.count filter) (c.count filter) :=
  h.call (Store.count_agrees h.stores (live_of_seen hc filter))

theorem distinct_alike (field : String) (filter : Option Filter) :
    Agree (c.Alike pairs b.store b'.store) b b' (· = ·) (c.distinct field filter)
      (c.distinct field filter) :=
  h.call (Store.distinct_agrees h.stores (live_of_seen hc filter) field)

theorem aggregate_alike (stages : List Stage) :
    Agree (c.Alike pairs b.store b'.store) b b' (· = ·) (c.aggregate stages)
      (c.aggregate stages) := by
  have hscoped : c.aggregate stages =
      Backend.call (Store.aggregate c.name (.select live :: stages)) := by
    simp only [aggregate, scopeFilter, hc]
  rw [hscoped]
  exact h.call (Store.aggregate_agrees h.stores stages)

theorem updateOne_alike (filter : Filter) (update : Update) :
    Agree (c.Alike pairs b.store b'.store) b b' (· = ·) (c.updateOne filter update)
      (c.updateOne filter update) :=
  h.call (Store.updateOne_agrees h.stores (live_of_seen hc (some filter)) update)

theorem updateMany_alike (filter : Filter) (update : Update) :
    Agree (c.Alike pairs b.store b'.store) b b' (· = ·) (c.updateMany filter update)
      (c.updateMany filter update) :=
  h.call (Store.updateMany_agrees h.stores (live_of_seen hc (some filter)) update)

theorem findOneAndUpdate_alike (filter : Filter) (update : Update) (version : Version) :
    Agree (c.Alike pairs b.store b'.store) b b' (· = ·)
      (c.findOneAndUpdate filter update version : BackendM (Option E))
      (c.findOneAndUpdate filter update version) := by
  refine (h.call (Store.findOneAndUpdate_agrees h.stores (live_of_seen hc (some filter)) update
    version)).bind ?_
  rintro doc _ _ _ rfl h
  exact h.inflate? doc

/-- The record is encoded first, by the same codecs, and only then looked for. -/
theorem findOneAndReplace_alike (filter : Filter) (e : E) (version : Version) (ambient : Ambient) :
    Agree (c.Alike pairs b.store b'.store) b b' (· = ·)
      (c.findOneAndReplace filter e version ambient : BackendM (Option E))
      (c.findOneAndReplace filter e version ambient) := by
  refine h.look fun doc r h => ?_
  refine (h.call (Store.findOneAndReplace_agrees h.stores (live_of_seen hc (some filter)) doc
    version _)).bind ?_
  rintro found _ _ _ rfl h
  exact h.inflate? found

/-- A record is not deleted but marked. -/
theorem findOneAndDelete_alike (filter : Filter) :
    Agree (c.Alike pairs b.store b'.store) b b' (· = ·)
      (c.findOneAndDelete filter : BackendM (Option E)) (c.findOneAndDelete filter) := by
  have hmark : (c.findOneAndDelete filter : BackendM (Option E)) =
      c.findOneAndUpdate filter markDefunct .before := by
    simp only [findOneAndDelete, hc]
  rw [hmark]
  exact findOneAndUpdate_alike hc h filter markDefunct .before

/-- A request is answered alike on backends that differ in what is not live
only, and they still do afterwards. Neither store loses anything. -/
theorem perform_alike (r : Request E) :
    Agree (c.Alike pairs b.store b'.store) b b' (· = ·) (c.perform r) (c.perform r) := by
  have answer : ∀ {α : Type} {x y : BackendM α} {f : α → Answer E},
      Agree (c.Alike pairs b.store b'.store) b b' (· = ·) x y →
      Agree (c.Alike pairs b.store b'.store) b b' (· = ·) (f <$> x) (f <$> y) :=
    fun hxy => hxy.map fun _ _ ha => congrArg _ ha
  cases r with
  | findById id => exact answer (findById_alike hc h id)
  | findByIds ids => exact answer (find_alike hc h _ _)
  | findFirst filter => exact answer (findFirst_alike hc h filter)
  | find filter options => exact answer (find_alike hc h filter options)
  | count filter => exact answer (count_alike hc h filter)
  | countById id filter => exact answer (count_alike hc h _)
  | contains id filter =>
    refine answer ((count_alike hc h _).bind fun n n' _ _ hn h => .pure h ?_)
    rw [hn]
  | distinct field filter => exact answer (distinct_alike hc h field filter)
  | aggregate stages => exact answer (aggregate_alike hc h stages)
  | deleteById id =>
    refine answer ?_
    cases id with
    | none => exact .pure h.alike rfl
    | some id => exact findOneAndDelete_alike hc h _
  | deleteOne filter =>
    have hmark : c.deleteOne filter = do return (← c.updateOne filter markDefunct).modified := by
      simp only [deleteOne, hc]
    refine answer ?_
    rw [hmark]
    refine (updateOne_alike hc h filter markDefunct).bind fun u u' _ _ hu h => .pure h ?_
    rw [hu]
  | deleteMany filter =>
    have hmark : c.deleteMany filter = do return (← c.updateMany filter markDefunct).modified := by
      simp only [deleteMany, hc]
    refine answer ?_
    rw [hmark]
    refine (updateMany_alike hc h filter markDefunct).bind fun u u' _ _ hu h => .pure h ?_
    rw [hu]
  | updateById id update =>
    refine answer ?_
    cases id with
    | none => exact .pure h.alike rfl
    | some id => exact findOneAndUpdate_alike hc h _ update .after
  | updateOne filter update => exact answer (updateOne_alike hc h filter update)
  | updateMany filter update => exact answer (updateMany_alike hc h filter update)
  | findOneAndUpdate filter update version =>
    exact answer (findOneAndUpdate_alike hc h filter update version)
  | findOneAndReplace filter e version ambient =>
    exact answer (findOneAndReplace_alike hc h filter e version ambient)
  | findOneAndDelete filter => exact answer (findOneAndDelete_alike hc h filter)

/-- No run of requests tells such backends apart. -/
theorem answers_alike (requests : List (Request E)) : c.answers b requests = c.answers b' requests := by
  induction requests generalizing b b' with
  | nil => rfl
  | cons r rest ih =>
    obtain ⟨hr, halike⟩ := (perform_alike hc h r).run_eq
    rw [answers, answers, hr, ih halike.lined]

end

/-! ## Stored documents -/

/-- Two stores whose documents can be read, with the same live documents in the
same order, are not told apart by a collection in the defunct scope: a request
is answered alike, and the live documents are the same again. In either store
no document is removed, and none that was not live is another than before. -/
theorem perform_live {c : Collection} (hc : c.scope = .defunct) {b b' : Backend}
    (hregistry : b.registry = b'.registry) (hreach : b.store.unavailable = b'.store.unavailable)
    {docs docs' : List Document} (hd : b.store.documents c.name = .ok docs)
    (hd' : b'.store.documents c.name = .ok docs')
    (hlive : docs.filter (live.matchesDoc ·) = docs'.filter (live.matchesDoc ·)) (r : Request E)
    {result result' : Except Failure (Answer E)} {after after' : Backend}
    (hrun : (c.perform r).run b = (result, after)) (hrun' : (c.perform r).run b' = (result', after')) :
    result = result' ∧
      Stored.seen live (after.store.entries c.name) = Stored.seen live (after'.store.entries c.name) ∧
      b.store.Spares live c.name after.store ∧ b'.store.Spares live c.name after'.store := by
  obtain ⟨pairs, htwins⟩ := Stored.exists_twins hd hd' hlive 0 0
  have hlined : c.Lined pairs b b' := ⟨hregistry, hreach, htwins⟩
  obtain ⟨hr, halike⟩ := (perform_alike hc hlined r).run_eq
  rw [hrun, hrun'] at hr halike
  exact ⟨hr, halike.stores.twins.seen_eq, halike.stores.left, halike.stores.right⟩

/-! ## Two shelves -/

/-- An order of which the number is known, and whether it is defunct. -/
def filed (n : Nat) (defunct : Bool) : Document :=
  ⟨[(idField, .objectId (.ofParts 1 n)), (defunctProperty, .bool defunct)]⟩

/-- The orders, of which defunct ones are not seen. -/
def openOrders : Collection := ⟨Registry.orderRef, "orders", .defunct⟩

/-- A store of orders. -/
def shelf (docs : List Document) : Backend :=
  ⟨{ collections := [("orders", docs.map fun doc =>
      ⟨(doc.get? idField).getD .null, (Cbor.encodeDocument doc).toOption.getD []⟩)] },
    ⟨⟨Registry.shop, [], []⟩, none, [], [], 0⟩⟩

/-- All orders are deleted from two shelves with other defunct orders. The
answers are the same, and the defunct order stays where it stood. -/
theorem perform_live_shelf :
    ∃ (result : Except Failure (Answer Entity)) (after after' : Backend),
      (openOrders.perform (.deleteMany .all)).run
        (shelf [filed 1 false, filed 2 true, filed 3 false]) = (result, after) ∧
      (openOrders.perform (.deleteMany .all)).run
        (shelf [filed 4 true, filed 1 false, filed 3 false, filed 5 true]) = (result, after') ∧
      Stored.seen live (after.store.entries "orders") =
        Stored.seen live (after'.store.entries "orders") ∧
      (after.store.entries "orders")[1]? =
        ((shelf [filed 1 false, filed 2 true, filed 3 false]).store.entries "orders")[1]? := by
  rcases hrun : (openOrders.perform (.deleteMany .all) : BackendM (Answer Entity)).run
    (shelf [filed 1 false, filed 2 true, filed 3 false]) with ⟨result, after⟩
  rcases hrun' : (openOrders.perform (.deleteMany .all) : BackendM (Answer Entity)).run
    (shelf [filed 4 true, filed 1 false, filed 3 false, filed 5 true]) with ⟨result', after'⟩
  have hd : (shelf [filed 1 false, filed 2 true, filed 3 false]).store.documents "orders" =
      .ok [filed 1 false, filed 2 true, filed 3 false] := by rfl
  have hd' : (shelf [filed 4 true, filed 1 false, filed 3 false, filed 5 true]).store.documents
      "orders" = .ok [filed 4 true, filed 1 false, filed 3 false, filed 5 true] := by rfl
  have hregistry : (shelf [filed 1 false, filed 2 true, filed 3 false]).registry =
      (shelf [filed 4 true, filed 1 false, filed 3 false, filed 5 true]).registry := rfl
  obtain ⟨rfl, hseen, hspares, -⟩ :=
    perform_live (c := openOrders) rfl hregistry rfl hd hd' rfl (.deleteMany .all) hrun hrun'
  exact ⟨result, after, after', rfl, rfl, hseen, hspares.hidden rfl ⟨filed 2 true, by rfl, rfl⟩⟩

end Folio.Collection
