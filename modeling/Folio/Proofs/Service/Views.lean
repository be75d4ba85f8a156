import Folio.Collection.DefunctView
import Folio.Proofs.Collection.Scoped
import Folio.Proofs.Registry.Settled
import Folio.Proofs.Service.Lasting

/-!
# What the views of a collection list

Every record, the marked ones and the live ones are three selections of one
list. The views that are asked for every record and for the marked ones look
past the scope of the collection; the view of the live ones is the collection
itself, so it leaves the marked ones out only if the collection is scoped.

Results:
* `matches_view`: what a view asks of a document.
* `perform_told`: a request is answered from the records as they are rebuilt
  then and ever after.
* `answers_told_iff`: all answers are told of one list of records, with what
  the scope makes of the view of live ones.
-/
namespace Folio

namespace Collection

variable {E : Type} [Record E] {c : Collection} {b : Backend} {docs : List Document}

/-- The documents that are there, and that the store can be reached. -/
structure Offers (c : Collection) (docs : List Document) (s : Store) : Prop where
  available : s.unavailable = false
  documents : s.documents c.name = .ok docs

theorem Offers.matching (h : c.Offers docs b.store) (filter : Filter) :
    ∃ found, Stored.matching filter (b.store.entries c.name) 0 = .ok found ∧
      found.map (·.2) = docs.filter (filter.matchesDoc ·) := by
  have hmatching := Stored.matching_documents filter h.documents 0
  cases hfound : Stored.matching filter (b.store.entries c.name) 0 with
  | error fault => rw [hfound] at hmatching; cases hmatching
  | ok found =>
    rw [hfound] at hmatching
    exact ⟨found, rfl, Except.ok.inj hmatching⟩

theorem Offers.run_count (h : c.Offers docs b.store) (filter : Option Filter) :
    (c.count filter).run b =
      (.ok (docs.filter ((c.visible filter).matchesDoc ·)).length,
        { b with store := b.store.tick .count }) := by
  obtain ⟨found, hfound, hdocs⟩ := h.matching (c.visible filter)
  rw [count, Backend.run_call, Store.run_count, h.available, hfound, ← hdocs, List.length_map]
  rfl

theorem Offers.run_find (h : c.Offers docs b.store) (filter : Option Filter) :
    (c.find filter {} : BackendM (List E)).run b =
      ((docs.filter ((c.visible filter).matchesDoc ·)).mapM c.inflate).run
        { b with store := b.store.tick .find } := by
  obtain ⟨found, hfound, hdocs⟩ := h.matching (c.visible filter)
  rw [find, run_bind, Backend.run_call, Store.run_find, h.available, hfound, ← hdocs]
  rfl

theorem Offers.run_findFirst (h : c.Offers docs b.store) (filter : Option Filter) :
    (c.findFirst filter : BackendM (Option E)).run b =
      (c.inflate? (docs.filter ((c.visible filter).matchesDoc ·)).head?).run
        { b with store := b.store.tick .find } := by
  obtain ⟨found, hfound, hdocs⟩ := h.matching (c.visible filter)
  rw [findFirst, run_bind, Backend.run_call, Store.run_find, h.available, hfound, ← hdocs]
  cases found <;> rfl

/-- Rebuilding records one after another is a matter of the codecs. -/
theorem run_inflateAll (c : Collection) (docs : List Document) (b : Backend) :
    (docs.mapM c.inflate : BackendM (List E)).run b =
      (((docs.mapM (Registry.inflate c.cls) : RegistryM (List E)).run b.registry).1,
        { b with
          registry := ((docs.mapM (Registry.inflate c.cls) : RegistryM (List E)).run
            b.registry).2 }) := by
  induction docs generalizing b with
  | nil => rfl
  | cons doc rest ih =>
    rw [List.mapM_cons, List.mapM_cons, run_bind, run_bind, run_inflate]
    rcases (Registry.inflate c.cls doc : RegistryM E).run b.registry with ⟨failure | e, r⟩
    · rfl
    · simp only [run_bind, ih]
      rcases (rest.mapM (Registry.inflate c.cls) : RegistryM (List E)).run r with ⟨failure | es, r'⟩
        <;> rfl

end Collection

/-! ## Records that can be rebuilt -/

namespace Registry

variable {E : Type} [Record E] {cls : ClassRef} {docs order : List Document} {r r' : Registry}
  {es : List E}

variable (E) in
/-- The documents can be rebuilt as records of the class, in whatever order and
however often each. -/
def RebuildsAll (cls : ClassRef) (docs : List Document) (r : Registry) : Prop :=
  ∀ order : List Document, (∀ doc ∈ order, doc ∈ docs) →
    ∃ es r', (order.mapM (inflate cls) : RegistryM (List E)).run r = (.ok es, r')

/-- They still can after some of them were. -/
theorem RebuildsAll.after (h : RebuildsAll E cls docs r) (hm : ∀ doc ∈ order, doc ∈ docs)
    (hrun : (order.mapM (inflate cls) : RegistryM (List E)).run r = (.ok es, r')) :
    RebuildsAll E cls docs r' := by
  intro next hn
  obtain ⟨all, last, hall⟩ := h (order ++ next) fun doc hd =>
    (List.mem_append.1 hd).elim (hm doc) (hn doc)
  rw [List.mapM_append, run_bind_ok hrun] at hall
  obtain ⟨others, t, hothers, -⟩ := ok_of_run_bind hall
  exact ⟨others, t, hothers⟩

/-- The records that the documents are rebuilt as, beside the documents. -/
def Recorded (cls : ClassRef) (docs : List Document) (r : Registry)
    (pairs : List (Document × E)) : Prop :=
  pairs.map (·.1) = docs ∧ ∀ p ∈ pairs, ((inflate cls p.1 : RegistryM E).run r).1 = .ok p.2

theorem RebuildsAll.recorded (h : RebuildsAll E cls docs r) :
    ∃ pairs : List (Document × E), Recorded cls docs r pairs := by
  have each : ∀ some, (∀ doc ∈ some, doc ∈ docs) →
      ∃ pairs : List (Document × E), Recorded cls some r pairs := by
    intro some hm
    induction some with
    | nil => exact ⟨[], rfl, nofun⟩
    | cons doc rest ih =>
      obtain ⟨pairs, hdocs, hpairs⟩ := ih fun d hd => hm d (List.mem_cons_of_mem _ hd)
      obtain ⟨es, u, hrun⟩ :=
        h [doc] fun d hd => hm d (List.mem_singleton.1 hd ▸ List.mem_cons_self)
      obtain ⟨e, others, t, hdoc, -⟩ := ok_of_run_mapM_cons hrun
      refine ⟨(doc, e) :: pairs, by rw [List.map_cons, hdocs], fun p hp => ?_⟩
      obtain rfl | hp := List.mem_cons.1 hp
      · rw [hdoc]
      · exact hpairs p hp
  exact each docs fun _ hd => hd

/-- Documents that were rebuilt once can be rebuilt in whatever order. -/
theorem rebuildsAll_of_run [Record.LooksUp E]
    (hrun : (docs.mapM (inflate cls) : RegistryM (List E)).run r = (.ok es, r')) :
    RebuildsAll E cls docs r' := by
  have again : r.Grows r' ∧ ∀ doc ∈ docs, ∀ u, r'.Grows u →
      ∃ e, (inflate cls doc : RegistryM E).run u = (.ok e, u) := by
    induction docs generalizing r es with
    | nil =>
      cases hrun
      exact ⟨grows_frame.refl _, nofun⟩
    | cons doc rest ih =>
      obtain ⟨e, others, t, hdoc, hrest, rfl⟩ := ok_of_run_mapM_cons hrun
      obtain ⟨hfirst, hsettled⟩ := settles_inflate cls doc r e t hdoc
      obtain ⟨hgrows, hothers⟩ := ih hrest
      refine ⟨grows_frame.trans hfirst hgrows, fun d hd u hu => ?_⟩
      obtain rfl | hd := List.mem_cons.1 hd
      · exact ⟨e, hsettled u (grows_frame.trans hgrows hu)⟩
      · exact hothers d hd u hu
  intro order hm
  induction order with
  | nil => exact ⟨[], r', rfl⟩
  | cons doc rest ih =>
    obtain ⟨e, hdoc⟩ := again.2 doc (hm doc List.mem_cons_self) r' (grows_frame.refl _)
    obtain ⟨others, t, hothers⟩ := ih fun d hd => hm d (List.mem_cons_of_mem _ hd)
    exact ⟨e :: others, t, by rw [List.mapM_cons, run_bind_ok hdoc, run_bind_ok hothers]; rfl⟩

/-- What was rebuilt is what is rebuilt later on. -/
theorem recorded_of_run [Record.LooksUp E]
    (hrun : (docs.mapM (inflate cls) : RegistryM (List E)).run r = (.ok es, r')) :
    r.Grows r' ∧ ∀ u, r'.Grows u → ∀ pairs : List (Document × E), Recorded cls docs u pairs →
      es = pairs.map (·.2) := by
  induction docs generalizing r es with
  | nil =>
    cases hrun
    refine ⟨grows_frame.refl _, fun u _ pairs hp => ?_⟩
    rw [List.map_eq_nil_iff.1 hp.1]
    rfl
  | cons doc rest ih =>
    obtain ⟨e, others, t, hdoc, hrest, rfl⟩ := ok_of_run_mapM_cons hrun
    obtain ⟨hfirst, hsettled⟩ := settles_inflate cls doc r e t hdoc
    obtain ⟨hgrows, hothers⟩ := ih hrest
    refine ⟨grows_frame.trans hfirst hgrows, fun u hu pairs hp => ?_⟩
    obtain ⟨p, pairs, rfl, rfl, hmap⟩ := List.map_eq_cons_iff.1 hp.1
    have hsame := hp.2 p List.mem_cons_self
    rw [hsettled u (grows_frame.trans hgrows hu)] at hsame
    cases hsame
    rw [List.map_cons, hothers u hu pairs ⟨hmap, fun q hq => hp.2 q (List.mem_cons_of_mem _ hq)⟩]

/-- Some of the documents, with their records. -/
theorem Recorded.filter {pairs : List (Document × E)} (h : Recorded cls docs r pairs)
    (p : Document → Bool) : Recorded cls (docs.filter p) r (pairs.filter fun a => p a.1) := by
  refine ⟨?_, fun a ha => h.2 a (List.mem_filter.1 ha).1⟩
  rw [← h.1, List.filter_map]
  rfl

end Registry
namespace DefunctView

open Registry (RebuildsAll Recorded)

/-! ## Requests -/

/-- What can be asked of the views of a collection. -/
inductive Request where
  | contains (id : ObjectId) (choice : Option Bool)
  | find (filter : Option Filter) (choice : Option Bool)
  | findById (id : Option ObjectId) (choice : Option Bool)
  | count (filter : Option Filter) (choice : Option Bool)

/-- The request with another choice of the view. -/
def Request.mapChoice (f : Option Bool → Option Bool) : Request → Request
  | contains id choice => contains id (f choice)
  | find filter choice => find filter (f choice)
  | findById id choice => findById id (f choice)
  | count filter choice => count filter (f choice)

variable {E : Type} [Record E]

variable (E) in
/-- Performs a request. -/
def perform (v : DefunctView) : Request → BackendM (Collection.Answer E)
  | .contains id choice => .truth <$> v.contains id choice
  | .find filter choice => .records <$> v.find filter choice
  | .findById id choice => .record <$> v.findById id choice
  | .count filter choice => .number <$> v.count filter choice

variable (E) in
/-- The answers to requests made one after another. -/
def answers (v : DefunctView) (b : Backend) :
    List Request → List (Except Failure (Collection.Answer E))
  | [] => []
  | r :: rest => ((v.perform E r).run b).1 :: answers v ((v.perform E r).run b).2 rest

/-! ## What the views should list -/

/-- Whether the document is one of those that are chosen. -/
def chosen (choice : Option Bool) (doc : Document) : Bool :=
  choice.all fun flag => (doc.get? defunctProperty).bind Value.bool? == some flag

/-- Whether the document matches and is chosen. -/
def asks (filter : Option Filter) (choice : Option Bool) (doc : Document) : Bool :=
  filter.all (·.matchesDoc doc) && chosen choice doc

/-- Those of the records that match and are chosen. -/
def listed {E : Type} (pairs : List (Document × E)) (filter : Option Filter)
    (choice : Option Bool) : List (Document × E) :=
  pairs.filter fun p => asks filter choice p.1

theorem listed_all {E : Type} (pairs : List (Document × E)) : listed pairs none none = pairs :=
  List.filter_eq_self.2 fun _ _ => rfl

/-- The answer to a request, told of the records. -/
def told {E : Type} (pairs : List (Document × E)) : Request → Collection.Answer E
  | .contains id choice => .truth (!(listed pairs (some (.id id)) choice).isEmpty)
  | .find filter choice => .records ((listed pairs filter choice).map (·.2))
  | .findById none _ => .record none
  | .findById (some id) choice =>
    .record ((listed pairs (some (.id id)) choice).head?.map (·.2))
  | .count filter choice => .number (listed pairs filter choice).length

/-- What a collection makes of a choice: without a scope, the live records are
all records. -/
def widened : Scope → Option Bool → Option Bool
  | .plain, some false => none
  | _, choice => choice

/-! ## What the views ask for -/

theorem matches_flag {doc : Document} {flag : Bool}
    (h : doc.get? defunctProperty = some (.bool flag)) (wanted : Bool) :
    (Filter.eq defunctProperty (.bool wanted)).matchesDoc doc = chosen (some wanted) doc := by
  have hpath : doc.getPath? defunctProperty = doc.get? defunctProperty := rfl
  rw [Filter.matchesDoc, Filter.fieldEquals, hpath, chosen, h]
  cases flag <;> cases wanted <;> rfl

theorem matches_combine (a b : Option Filter) (doc : Document) :
    (combine a b).all (·.matchesDoc doc) =
      (a.all (·.matchesDoc doc) && b.all (·.matchesDoc doc)) := by
  cases a <;> cases b <;> simp [combine, Filter.matches_both]

theorem matches_visible (c : Collection) (filter : Option Filter) (doc : Document) :
    (c.visible filter).matchesDoc doc =
      (c.scopeFilter.all (·.matchesDoc doc) && filter.all (·.matchesDoc doc)) := by
  unfold Collection.visible
  cases c.scopeFilter <;> cases filter <;> simp [Filter.matches_both, Filter.matchesDoc]

/-- A view asks for what matches and is chosen, as the scope has it. -/
theorem matches_view (v : DefunctView) (choice : Option Bool) {filter : Option Filter}
    {asked : Option Filter → Option Filter}
    (hasked : ∀ base doc, (asked base).all (Filter.matchesDoc doc ·) =
      (filter.all (Filter.matchesDoc doc ·) && base.all (Filter.matchesDoc doc ·)))
    {doc : Document} {flag : Bool} (h : doc.get? defunctProperty = some (.bool flag)) :
    ((v.view choice).1.visible (asked (v.view choice).2)).matchesDoc doc =
      asks filter (widened v.collection.scope choice) doc := by
  rw [matches_visible, hasked, asks]
  rcases choice with _ | _ | _
  · simp [view, Collection.unscoped, Collection.scopeFilter, widened, chosen]
  · cases hs : v.collection.scope with
    | plain => simp [view, Collection.scopeFilter, hs, widened, chosen]
    | defunct =>
      simp [view, Collection.scopeFilter, hs, widened, Collection.live, matches_flag h,
        Bool.and_comm]
  · have hpast : widened v.collection.scope (some true) = some true := by
      cases v.collection.scope <;> rfl
    rw [hpast]
    simp [view, Collection.unscoped, Collection.scopeFilter, matches_flag h]

/-! ## What the views answer -/

/-- The documents are there, each is marked or not, and each can be rebuilt. -/
structure Ready (E : Type) [Record E] (v : DefunctView) (docs : List Document) (b : Backend) :
    Prop where
  offers : v.collection.Offers docs b.store
  flags : ∀ doc ∈ docs, ∃ flag, doc.get? defunctProperty = some (.bool flag)
  rebuilds : RebuildsAll E v.collection.cls docs b.registry

variable {v : DefunctView} {docs : List Document} {b : Backend}

/-- The views are of the same records. -/
theorem view_same (v : DefunctView) (choice : Option Bool) :
    (v.view choice).1.name = v.collection.name ∧ (v.view choice).1.cls = v.collection.cls := by
  rcases choice with _ | _ | _ <;> exact ⟨rfl, rfl⟩

theorem Ready.offers_view (hb : Ready E v docs b) (choice : Option Bool) :
    (v.view choice).1.Offers docs b.store := by
  refine ⟨hb.offers.available, ?_⟩
  rw [(v.view_same choice).1]
  exact hb.offers.documents

/-- Whatever calls are counted, and after some documents were rebuilt. -/
theorem Ready.after (hb : Ready E v docs b) (kind : CallKind) {order : List Document}
    (hm : ∀ doc ∈ order, doc ∈ docs) {es : List E} {r : Registry}
    (hrun : (order.mapM (Registry.inflate v.collection.cls) : RegistryM (List E)).run b.registry =
      (.ok es, r)) : Ready E v docs ⟨b.store.tick kind, r⟩ :=
  ⟨⟨hb.offers.available, hb.offers.documents⟩, hb.flags, hb.rebuilds.after hm hrun⟩

theorem Ready.counted (hb : Ready E v docs b) (kind : CallKind) :
    Ready E v docs { b with store := b.store.tick kind } :=
  ⟨⟨hb.offers.available, hb.offers.documents⟩, hb.flags, hb.rebuilds⟩

/-- The documents that a view sees are those that match and are chosen. -/
theorem Ready.seen (hb : Ready E v docs b) (choice : Option Bool) {filter : Option Filter}
    {asked : Option Filter → Option Filter}
    (hasked : ∀ base doc, (asked base).all (Filter.matchesDoc doc ·) =
      (filter.all (Filter.matchesDoc doc ·) && base.all (Filter.matchesDoc doc ·))) :
    docs.filter (((v.view choice).1.visible (asked (v.view choice).2)).matchesDoc ·) =
      docs.filter (asks filter (widened v.collection.scope choice)) := by
  refine List.filter_congr fun doc hd => ?_
  obtain ⟨flag, hflag⟩ := hb.flags doc hd
  exact matches_view v choice hasked hflag

theorem Ready.seen_id (hb : Ready E v docs b) (choice : Option Bool) (id : ObjectId) :
    docs.filter (((v.view choice).1.visible
        (combine (some (.id id)) (v.view choice).2)).matchesDoc ·) =
      docs.filter (asks (some (.id id)) (widened v.collection.scope choice)) :=
  hb.seen choice fun _ _ => matches_combine _ _ _

theorem asked_find (filter base : Option Filter) (doc : Document) :
    (combine base filter).all (Filter.matchesDoc doc ·) =
      (filter.all (Filter.matchesDoc doc ·) && base.all (Filter.matchesDoc doc ·)) := by
  rw [matches_combine, Bool.and_comm]

/-- What a request comes to: an answer from the records as they are rebuilt then
and ever after, and codecs that have grown. -/
def Tells (E : Type) [Record E] (v : DefunctView) (docs : List Document) (b : Backend)
    (r : Request) : Prop :=
  ∃ a b', (v.perform E r).run b = (.ok a, b') ∧ Ready E v docs b' ∧
    b.registry.Grows b'.registry ∧
    ∀ u, b'.registry.Grows u → ∀ pairs : List (Document × E),
      Recorded v.collection.cls docs u pairs →
        a = told pairs (r.mapChoice (widened v.collection.scope))

theorem listed_recorded {r : Registry} {pairs : List (Document × E)}
    (hp : Recorded v.collection.cls docs r pairs) (filter : Option Filter) (choice : Option Bool) :
    Recorded v.collection.cls (docs.filter (asks filter choice)) r (listed pairs filter choice) :=
  hp.filter (asks filter choice)

theorem count_told (hb : Ready E v docs b) (filter : Option Filter) (choice : Option Bool) :
    Tells E v docs b (.count filter choice) := by
  have hrun := (hb.offers_view choice).run_count (combine (v.view choice).2 filter)
  rw [hb.seen choice (asked_find filter)] at hrun
  refine ⟨_, _, by rw [perform, run_map, count, hrun]; rfl, hb.counted .count,
    Registry.grows_frame.refl _, fun u _ pairs hp => ?_⟩
  rw [← (listed_recorded hp filter _).1, List.length_map]
  rfl

theorem contains_told (hb : Ready E v docs b) (id : ObjectId) (choice : Option Bool) :
    Tells E v docs b (.contains id choice) := by
  have hrun := (hb.offers_view choice).run_count (combine (some (.id id)) (v.view choice).2)
  rw [hb.seen_id] at hrun
  refine ⟨_, _, by rw [perform, run_map, contains, run_bind_ok hrun]; rfl,
    hb.counted .count, Registry.grows_frame.refl _, fun u _ pairs hp => ?_⟩
  rw [← (listed_recorded hp (some (.id id)) _).1, List.length_map]
  simp only [Request.mapChoice, told]
  cases listed pairs (some (.id id)) (widened v.collection.scope choice) <;> rfl

variable [Record.LooksUp E]

theorem find_told (hb : Ready E v docs b) (filter : Option Filter) (choice : Option Bool) :
    Tells E v docs b (.find filter choice) := by
  have hrun := (hb.offers_view choice).run_find (E := E) (combine (v.view choice).2 filter)
  rw [hb.seen choice (asked_find filter), Collection.run_inflateAll, (v.view_same choice).2] at hrun
  have hm : ∀ doc ∈ docs.filter (asks filter (widened v.collection.scope choice)), doc ∈ docs :=
    fun doc hd => (List.mem_filter.1 hd).1
  obtain ⟨es, r, hes⟩ := hb.rebuilds _ hm
  obtain ⟨hgrows, hrecorded⟩ := Registry.recorded_of_run hes
  simp only [hes] at hrun
  refine ⟨_, _, by rw [perform, run_map, find, hrun]; rfl, hb.after .find hm hes, hgrows,
    fun u hu pairs hp => ?_⟩
  exact congrArg Collection.Answer.records (hrecorded u hu _ (listed_recorded hp filter _))

/-- The first of the documents with the id is rebuilt. -/
theorem findById_found (hb : Ready E v docs b) {id : ObjectId} {choice : Option Bool}
    {doc : Document} {rest : List Document}
    (hseen : docs.filter (asks (some (.id id)) (widened v.collection.scope choice)) = doc :: rest) :
    Tells E v docs b (.findById (some id) choice) := by
  have hrun := (hb.offers_view choice).run_findFirst (E := E)
    (combine (some (.id id)) (v.view choice).2)
  rw [hb.seen_id, hseen] at hrun
  have hm : ∀ d ∈ [doc], d ∈ docs := by
    intro d hd
    rw [List.mem_singleton.1 hd]
    exact (List.mem_filter.1 (hseen ▸ List.mem_cons_self)).1
  obtain ⟨es, r, hes⟩ := hb.rebuilds [doc] hm
  obtain ⟨hgrows, hrecorded⟩ := Registry.recorded_of_run hes
  obtain ⟨e, others, t, hdoc, hothers, rfl⟩ := ok_of_run_mapM_cons hes
  cases hothers
  have hfirst : (v.findById (some id) choice : BackendM (Option E)).run b =
      (.ok (some e), ⟨b.store.tick .find, r⟩) := by
    rw [findById, hrun, List.head?_cons, Collection.inflate?, run_bind,
      Collection.run_inflate, (v.view_same choice).2, hdoc]
    rfl
  refine ⟨_, _, by rw [perform, run_map, hfirst]; rfl, hb.after .find hm hes, hgrows,
    fun u hu pairs hp => ?_⟩
  obtain ⟨hdocs, hsame⟩ :=
    listed_recorded hp (some (.id id)) (widened v.collection.scope choice)
  rw [hseen] at hdocs
  obtain ⟨p, others, hlist, hp1, -⟩ := List.map_eq_cons_iff.1 hdocs
  have hone := hrecorded u hu [p] ⟨by rw [List.map_singleton, hp1], fun q hq => ?_⟩
  · simp only [Request.mapChoice, told, hlist]
    cases hone
    rfl
  · rw [List.mem_singleton.1 hq]
    exact hsame p (hlist ▸ List.mem_cons_self)

theorem findById_told (hb : Ready E v docs b) (id : Option ObjectId) (choice : Option Bool) :
    Tells E v docs b (.findById id choice) := by
  cases id with
  | none => exact ⟨_, b, rfl, hb, Registry.grows_frame.refl _, fun _ _ _ _ => rfl⟩
  | some id =>
    cases hseen : docs.filter (asks (some (.id id)) (widened v.collection.scope choice)) with
    | nil =>
      have hrun := (hb.offers_view choice).run_findFirst (E := E)
        (combine (some (.id id)) (v.view choice).2)
      rw [hb.seen_id, hseen] at hrun
      refine ⟨_, _, by rw [perform, run_map, findById, hrun]; rfl,
        hb.counted .find, Registry.grows_frame.refl _, fun u _ pairs hp => ?_⟩
      have hnone := (listed_recorded hp (some (.id id)) (widened v.collection.scope choice)).1
      rw [hseen, List.map_eq_nil_iff] at hnone
      simp only [Request.mapChoice, told, hnone]
      rfl
    | cons doc rest => exact findById_found hb hseen

/-- Every request is answered from the records. -/
theorem perform_told (hb : Ready E v docs b) (r : Request) : Tells E v docs b r := by
  cases r with
  | contains id choice => exact contains_told hb id choice
  | find filter choice => exact find_told hb filter choice
  | findById id choice => exact findById_told hb id choice
  | count filter choice => exact count_told hb filter choice

/-- So are requests made one after another: what the codecs have grown into by
the end tells the records of all of them. -/
theorem answers_told (hb : Ready E v docs b) (requests : List Request) :
    ∃ b', Ready E v docs b' ∧ b.registry.Grows b'.registry ∧
      ∀ u, b'.registry.Grows u → ∀ pairs : List (Document × E),
        Recorded v.collection.cls docs u pairs →
          v.answers E b requests = requests.map fun r =>
            .ok (told pairs (r.mapChoice (widened v.collection.scope))) := by
  induction requests generalizing b with
  | nil => exact ⟨b, hb, Registry.grows_frame.refl _, fun _ _ _ _ => rfl⟩
  | cons r rest ih =>
    obtain ⟨a, b₁, hrun, hb₁, hfirst, htold⟩ := perform_told hb r
    obtain ⟨b₂, hb₂, hrest, hanswers⟩ := ih hb₁
    refine ⟨b₂, hb₂, Registry.grows_frame.trans hfirst hrest, fun u hu pairs hp => ?_⟩
    rw [answers, hrun, List.map_cons, hanswers u hu pairs hp,
      htold u (Registry.grows_frame.trans hrest hu) pairs hp]

/-! ## The views together -/

/-- The records of the documents, each as it is rebuilt once the codecs have
grown. -/
def Rebuilt (c : ClassRef) (docs : List Document) (r : Registry) (pairs : List (Document × E)) :
    Prop := ∃ u, r.Grows u ∧ Recorded c docs u pairs

theorem exists_told (hb : Ready E v docs b) (requests : List Request) :
    ∃ pairs : List (Document × E), Rebuilt v.collection.cls docs b.registry pairs ∧
      v.answers E b requests = requests.map fun r =>
        .ok (told pairs (r.mapChoice (widened v.collection.scope))) := by
  obtain ⟨b', hb', hgrows, htold⟩ := answers_told hb requests
  obtain ⟨pairs, hp⟩ := hb'.rebuilds.recorded
  exact ⟨pairs, ⟨b'.registry, hgrows, hp⟩, htold _ (Registry.grows_frame.refl _) pairs hp⟩

/-- The marked and the live records that match are all that match. -/
theorem length_listed {E : Type} {pairs : List (Document × E)}
    (h : ∀ p ∈ pairs, ∃ flag, p.1.get? defunctProperty = some (.bool flag))
    (filter : Option Filter) : (listed pairs filter none).length =
      (listed pairs filter (some true)).length + (listed pairs filter (some false)).length := by
  induction pairs with
  | nil => rfl
  | cons p rest ih =>
    have hrest := ih fun q hq => h q (List.mem_cons_of_mem _ hq)
    obtain ⟨flag, hflag⟩ := h p List.mem_cons_self
    simp only [listed, List.filter_cons, asks, chosen, hflag, Option.all_none, Option.all_some,
      Option.bind_some, Value.bool?] at hrest ⊢
    cases filter.all (·.matchesDoc p.1) <;> cases flag <;> simp_all <;> omega

/-- If a collection without a scope counts as many live records as are told, all
its records are live: it counts all of them. -/
theorem live_of_told (hb : Ready E v docs b) (hs : v.collection.scope = .plain)
    {pairs : List (Document × E)} (hdocs : pairs.map (·.1) = docs)
    (htold : v.answers E b [.count none (some false)] =
      [.ok (told pairs (.count none (some false)))]) :
    ∀ doc ∈ docs, doc.get? defunctProperty = some (.bool false) := by
  obtain ⟨all, ⟨_, -, hall, -⟩, hwide⟩ := exists_told hb [.count none (some false)]
  have hcount := htold.symm.trans hwide
  have hsame := congrArg List.length (hdocs.trans hall.symm)
  rw [List.length_map, List.length_map] at hsame
  simp only [hs, List.map_cons, List.map_nil, Request.mapChoice, told, widened, List.cons.injEq,
    Except.ok.injEq, Collection.Answer.number.injEq, and_true, listed_all, ← hsame] at hcount
  intro doc hd
  obtain ⟨p, hp, rfl⟩ := List.mem_map.1 (hdocs ▸ hd)
  have hasks := List.length_filter_eq_length_iff.1 hcount p hp
  obtain ⟨flag, hflag⟩ := hb.flags p.1 hd
  rw [asks, chosen, hflag] at hasks
  cases flag with
  | false => exact hflag
  | true => cases hasks

omit [Record E] [Record.LooksUp E] in
theorem told_widened {pairs : List (Document × E)} {scope : Scope}
    (h : scope = .defunct ∨ ∀ p ∈ pairs, p.1.get? defunctProperty = some (.bool false))
    (r : Request) : told pairs (r.mapChoice (widened scope)) = told pairs r := by
  have same : ∀ filter choice, listed pairs filter (widened scope choice) =
      listed pairs filter choice := by
    intro filter choice
    rcases h with rfl | hlive
    · rfl
    · refine List.filter_congr fun p hp => ?_
      have hchosen : chosen (widened scope choice) p.1 = chosen choice p.1 := by
        rcases choice with _ | _ | _ <;> cases scope <;>
          simp [widened, chosen, hlive p hp, Value.bool?]
      rw [asks, asks, hchosen]
  rcases r with ⟨id, choice⟩ | ⟨filter, choice⟩ | ⟨_ | id, choice⟩ | ⟨filter, choice⟩ <;>
    simp only [Request.mapChoice, told, same]

omit [Record.LooksUp E] in
theorem Ready.of_collection {s : Schema} {c : Collection} (hv : ofCollection s c = .ok v)
    (hoffers : c.Offers docs b.store)
    (hflags : ∀ doc ∈ docs, ∃ flag, doc.get? defunctProperty = some (.bool flag))
    (hrebuilds : RebuildsAll E c.cls docs b.registry) :
    v.collection = c ∧ Ready E v docs b := by
  unfold ofCollection at hv
  split at hv
  · cases hv
    exact ⟨rfl, hoffers, hflags, hrebuilds⟩
  · cases hv

/-- **What the views of a collection have to do with each other.** Of a
collection whose documents are all marked or not and can all be rebuilt, every
run of requests is answered from one list of records: the view of every record
lists it, the view of the marked ones those that are marked. The view of live
ones lists those that are not marked if the collection is scoped, or if there
is nothing it should leave out; without a scope it lists every record. -/
theorem answers_told_iff {s : Schema} {c : Collection} (hv : ofCollection s c = .ok v)
    (hoffers : c.Offers docs b.store)
    (hflags : ∀ doc ∈ docs, ∃ flag, doc.get? defunctProperty = some (.bool flag))
    (hrebuilds : RebuildsAll E c.cls docs b.registry) :
    ((∀ requests : List Request, ∃ pairs : List (Document × E),
        Rebuilt c.cls docs b.registry pairs ∧
        v.answers E b requests = requests.map fun r => .ok (told pairs r)) ↔
      c.scope = .defunct ∨ ∀ doc ∈ docs, doc.get? defunctProperty = some (.bool false)) ∧
    (∀ requests : List Request, ∃ pairs : List (Document × E),
      Rebuilt c.cls docs b.registry pairs ∧
      v.answers E b requests = requests.map fun r =>
        .ok (told pairs (r.mapChoice (widened c.scope)))) ∧
    ∀ pairs : List (Document × E), Rebuilt c.cls docs b.registry pairs →
      ∀ filter : Option Filter,
        (∀ flag, listed pairs filter (some flag) =
          (listed pairs filter none).filter fun p => chosen (some flag) p.1) ∧
        (listed pairs filter none).length =
          (listed pairs filter (some true)).length + (listed pairs filter (some false)).length := by
  obtain ⟨rfl, hb⟩ := Ready.of_collection hv hoffers hflags hrebuilds
  have hmem : ∀ pairs : List (Document × E), Rebuilt v.collection.cls docs b.registry pairs →
      ∀ p ∈ pairs, p.1 ∈ docs := by
    rintro pairs ⟨u, -, hdocs, -⟩ p hp
    exact hdocs ▸ List.mem_map_of_mem hp
  refine ⟨⟨fun htold => ?_, fun hscope requests => ?_⟩, exists_told hb, fun pairs hp filter => ?_⟩
  · cases hs : v.collection.scope with
    | defunct => exact .inl rfl
    | plain =>
      obtain ⟨pairs, ⟨_, -, hdocs, -⟩, hlive⟩ := htold [.count none (some false)]
      exact .inr (live_of_told hb hs hdocs hlive)
  · obtain ⟨pairs, hp, hanswers⟩ := exists_told hb requests
    refine ⟨pairs, hp, ?_⟩
    rw [hanswers]
    refine List.map_congr_left fun r _ => congrArg Except.ok (told_widened ?_ r)
    exact hscope.imp_right fun hlive p h => hlive p.1 (hmem pairs hp p h)
  · refine ⟨fun flag => ?_, length_listed (fun p h => hflags p.1 (hmem pairs hp p h)) filter⟩
    rw [listed, listed, List.filter_filter]
    refine List.filter_congr fun p _ => ?_
    have hall : chosen none p.1 = true := rfl
    rw [asks, asks, hall, Bool.and_true, Bool.and_comm]

/-! ## A cabinet of folders -/

open Service (archive folderRef lineage_folder ofClass_folder)

/-- A defunct folder and a live one. -/
def folders : List Document := [Collection.filed 1 true, Collection.filed 2 false]

/-- The codecs after the properties of folders were looked up. -/
def foldersKnown : Registry :=
  ⟨⟨archive, [(folderRef.name, Descriptor.ofClass archive folderRef)], []⟩, none, [], [], 0⟩

/-- The two folders, both rebuilt before. -/
def cabinet : Backend where
  store := { collections := [("folders", folders.map fun doc =>
    ⟨(doc.get? idField).getD .null, (Cbor.encodeDocument doc).toOption.getD []⟩)] }
  registry := ((folders.mapM (Registry.inflate folderRef) : RegistryM (List Entity)).run
    foldersKnown).2

theorem rebuildsAll_folders : RebuildsAll Entity folderRef folders cabinet.registry := by
  have hsome : ((folders.mapM (Registry.inflate folderRef) : RegistryM (List Entity)).run
      foldersKnown).1.toOption.isSome = true := by
    rw [foldersKnown, ofClass_folder]
    decide +kernel
  cases hrun : ((folders.mapM (Registry.inflate folderRef) : RegistryM (List Entity)).run
      foldersKnown).1 with
  | error failure => rw [hrun] at hsome; cases hsome
  | ok es => exact Registry.rebuildsAll_of_run (Prod.ext hrun rfl)

/-- Without a scope, the view of live folders of the cabinet is not a view of
the folders in it that are live. -/
theorem answers_told_cabinet :
    ¬∀ requests : List Request, ∃ pairs : List (Document × Entity),
      Rebuilt folderRef folders cabinet.registry pairs ∧
        (⟨⟨folderRef, "folders", .plain⟩⟩ : DefunctView).answers Entity cabinet requests =
          requests.map fun r => .ok (told pairs r) := by
  have hv : ofCollection archive ⟨folderRef, "folders", .plain⟩ =
      .ok ⟨⟨folderRef, "folders", .plain⟩⟩ := by
    rw [ofCollection, Schema.implements, lineage_folder]
    rfl
  have hoffers : Collection.Offers ⟨folderRef, "folders", .plain⟩ folders cabinet.store :=
    ⟨rfl, by rfl⟩
  have hflags : ∀ doc ∈ folders, ∃ flag, doc.get? defunctProperty = some (.bool flag) := by
    intro doc hd
    rcases List.mem_cons.1 hd with rfl | hd
    · exact ⟨true, rfl⟩
    · exact ⟨false, by rw [List.mem_singleton.1 hd]; rfl⟩
  intro htold
  obtain ⟨hiff, -⟩ := answers_told_iff hv hoffers hflags rebuildsAll_folders
  rcases hiff.1 htold with hscope | hlive
  · cases hscope
  · have hfirst := hlive (Collection.filed 1 true) List.mem_cons_self
    cases hfirst

end DefunctView
end Folio
