import Folio.Proofs.Collection.Deleting
import Folio.Proofs.Collection.Saving
import Folio.Proofs.Store.Altering

/-!
# Changes of one record that fail

A deletion, an update or a replacement of one record changes the store first
and only then rebuilds the record that it answers. A failure before that leaves
the store alone. A failure to rebuild does not: what was taken out is gone, and
what was written stays.

Results:
* `change_eq`: every change rewrites one document and rebuilds what the store
  answers.
* `change_cases`: the document, its answer and what is left, or no change.
* `failed_change_same_iff`: a failed change leaves the store alone just when
  the document that it would answer can be rebuilt.
-/
namespace Folio.Collection

variable {E : Type} [Record E]

/-! ## Changes -/

/-- What changes one record and answers it. -/
inductive Change (E : Type) where
  | deleteById (id : Option ObjectId)
  | findOneAndDelete (filter : Filter)
  | updateById (id : Option ObjectId) (update : Update)
  | findOneAndUpdate (filter : Filter) (update : Update) (version : Version)
  | findOneAndReplace (filter : Filter) (e : E) (version : Version) (ambient : Ambient)

/-- Performs a change. -/
def change (c : Collection) : Change E → BackendM (Option E)
  | .deleteById id => c.deleteById id
  | .findOneAndDelete filter => c.findOneAndDelete filter
  | .updateById id update => c.updateById id update
  | .findOneAndUpdate filter update version => c.findOneAndUpdate filter update version
  | .findOneAndReplace filter e version ambient => c.findOneAndReplace filter e version ambient

/-- Deleting, as a way to rewrite a document. -/
def taking (c : Collection) : Store.Rewrite := fun doc =>
  match c.scope with
  | .plain => .ok none
  | .defunct => some <$> Store.updated markDefunct doc

namespace Change

/-- What the record is looked for by; nothing without an id. -/
def filter? : Change E → Option Filter
  | deleteById id | updateById id _ => id.map .id
  | findOneAndDelete filter | findOneAndUpdate filter _ _ | findOneAndReplace filter _ _ _ =>
    some filter

/-- The version that is answered. -/
def version : Change E → Version
  | deleteById _ | findOneAndDelete _ => .before
  | updateById _ _ => .after
  | findOneAndUpdate _ _ version | findOneAndReplace _ _ version _ => version

/-- How the record's document is rewritten. A replacement is encoded before
anything is looked for. -/
def rewriting (c : Collection) : Change E → RegistryM Store.Rewrite
  | deleteById _ | findOneAndDelete _ => pure c.taking
  | updateById _ update | findOneAndUpdate _ update _ =>
    pure fun doc => some <$> Store.updated update doc
  | findOneAndReplace _ e _ ambient => do
    let next ← Registry.encodeRecord e
    return fun doc => some <$> Store.replacement doc next (ambient.fresh 0)

/-- The codecs as the change leaves them to the rebuilding of its answer. -/
def prepared (c : Collection) (r : Change E) (codecs : Registry) : Registry :=
  ((r.rewriting c).run codecs).2

/-- The document that the change picks, the one that it goes on to answer, and
the entries that it leaves. -/
def Alters (c : Collection) (r : Change E) (b : Backend) (doc answered : Document)
    (entries : List Stored) : Prop :=
  ∃ filter rewrite i, r.filter? = some filter ∧ ((r.rewriting c).run b.registry).1 = .ok rewrite ∧
    b.store.Picks c.name (c.visible (some filter)) i doc ∧
    Store.outcome rewrite r.version (b.store.entries c.name) i doc = .ok (answered, entries)

theorem Alters.unique {c : Collection} {r : Change E} {b : Backend}
    {doc answered doc' answered' : Document} {entries entries' : List Stored}
    (h : r.Alters c b doc answered entries) (h' : r.Alters c b doc' answered' entries') :
    answered = answered' ∧ entries = entries' := by
  obtain ⟨filter, rewrite, i, hfilter, hrewrite, hpicks, houtcome⟩ := h
  obtain ⟨filter', rewrite', i', hfilter', hrewrite', hpicks', houtcome'⟩ := h'
  cases hfilter.symm.trans hfilter'
  cases hrewrite.symm.trans hrewrite'
  obtain ⟨rfl, rfl⟩ := hpicks.unique hpicks'
  cases houtcome.symm.trans houtcome'
  exact ⟨rfl, rfl⟩

/-- What answers a record as it was answers of a document that is stored. -/
theorem Alters.stored {c : Collection} {r : Change E} {b : Backend} {doc answered : Document}
    {entries : List Stored} (h : r.Alters c b doc answered entries) (hv : r.version = .before) :
    ∃ i, Stored.At (b.store.entries c.name) i answered := by
  obtain ⟨filter, rewrite, i, -, -, hpicks, houtcome⟩ := h
  rw [hv] at houtcome
  rw [Store.answered_before houtcome]
  exact ⟨i, hpicks.place.1⟩

end Change

theorem findOneAndDelete_eq (c : Collection) (filter : Filter) :
    (c.findOneAndDelete filter : BackendM (Option E)) =
      Backend.call (Store.alter c.name (c.visible (some filter)) c.taking .before) >>=
        c.inflate? := by
  unfold findOneAndDelete taking
  cases hc : c.scope with
  | plain => rw [visible_plain hc, Store.findOneAndDelete_eq_alter]
  | defunct => rw [findOneAndUpdate, Store.findOneAndUpdate_eq_alter]

theorem findOneAndUpdate_eq (c : Collection) (filter : Filter) (update : Update)
    (version : Version) : (c.findOneAndUpdate filter update version : BackendM (Option E)) =
      Backend.call (Store.alter c.name (c.visible (some filter))
        (fun doc => some <$> Store.updated update doc) version) >>= c.inflate? := by
  rw [findOneAndUpdate, Store.findOneAndUpdate_eq_alter]

theorem change_eq_pure {c : Collection} {r : Change E} (h : r.filter? = none) :
    c.change r = pure none := by
  rcases r with (_ | id) | filter | ⟨_ | id, update⟩ | ⟨filter, update, version⟩ |
    ⟨filter, e, version, ambient⟩ <;> first | rfl | cases h

/-- Every change rewrites one document and rebuilds what the store answers. -/
theorem change_eq {c : Collection} {r : Change E} {filter : Filter} (h : r.filter? = some filter) :
    c.change r = Backend.look (r.rewriting c) >>= fun rewrite =>
      Backend.call (Store.alter c.name (c.visible (some filter)) rewrite r.version) >>=
        c.inflate? := by
  cases r with
  | deleteById id =>
    cases id with
    | none => cases h
    | some id =>
      cases h
      exact findOneAndDelete_eq c _
  | findOneAndDelete filter =>
    cases h
    exact findOneAndDelete_eq c _
  | updateById id update =>
    cases id with
    | none => cases h
    | some id =>
      cases h
      exact findOneAndUpdate_eq c _ update .after
  | findOneAndUpdate filter update version =>
    cases h
    exact findOneAndUpdate_eq c _ update version
  | findOneAndReplace filter e version ambient =>
    cases h
    funext b
    show (c.findOneAndReplace filter e version ambient).run b = (_ : BackendM (Option E)).run b
    simp only [findOneAndReplace, Store.findOneAndReplace_eq_alter, Change.rewriting, run_bind,
      Backend.run_look]
    rcases (Registry.encodeRecord e).run b.registry with ⟨_ | next, codecs⟩ <;> rfl

variable {c : Collection} {r : Change E} {b after : Backend} {result : Except Failure (Option E)}

/-- Nothing is altered, and no record is answered; or the document is altered
in the store, and the answer is what can then be rebuilt. -/
theorem change_cases (h : (c.change r).run b = (result, after)) :
    ((result = .ok none ∨ ∃ failure, result = .error failure) ∧ b.store.Same after.store ∧
        ∀ doc answered entries, ¬r.Alters c b doc answered entries) ∨
      ∃ doc answered entries, r.Alters c b doc answered entries ∧
        b.store.Changed c.name entries after.store ∧
        result = ((Registry.inflate c.cls answered : RegistryM E).run
          (r.prepared c b.registry)).1.map some := by
  cases hfilter : r.filter? with
  | none =>
    rw [change_eq_pure hfilter] at h
    cases h
    refine .inl ⟨.inl rfl, .refl _, ?_⟩
    rintro doc answered entries ⟨filter, rewrite, i, hf, -⟩
    cases hfilter.symm.trans hf
  | some filter =>
    rw [change_eq hfilter, run_bind, Backend.run_look] at h
    rcases hprepared : (r.rewriting c).run b.registry with ⟨failure | rewrite, codecs⟩
    · simp only [hprepared] at h
      cases h
      refine .inl ⟨.inr ⟨failure, rfl⟩, .refl _, ?_⟩
      rintro doc answered entries ⟨-, rewrite, i, -, hr, -⟩
      rw [hprepared] at hr
      cases hr
    · simp only [hprepared] at h
      rcases hcall : (Store.alter c.name (c.visible (some filter)) rewrite r.version).run b.store
        with ⟨found, t⟩
      rcases Store.alter_cases hcall with ⟨hnone, hsame, hapart⟩ |
        ⟨i, doc, answered, entries, hpicks, houtcome, rfl, hchanged⟩
      · obtain ⟨hresult, rfl⟩ := run_inflate?_none (b := ⟨b.store, codecs⟩) hcall hnone h
        refine .inl ⟨hresult, hsame, ?_⟩
        rintro doc answered entries ⟨filter', rewrite', i, hf, hr, hpicks, houtcome⟩
        cases hfilter.symm.trans hf
        rw [hprepared] at hr
        cases hr
        exact hapart i doc hpicks _ houtcome
      · obtain ⟨hresult, rfl⟩ := run_inflate? (b := ⟨b.store, codecs⟩) hcall h
        refine .inr ⟨doc, answered, entries, ⟨filter, rewrite, i, hfilter, ?_, hpicks, houtcome⟩,
          hchanged, ?_⟩
        · rw [hprepared]
        · rw [hresult, Change.prepared, hprepared]

variable (E) in
/-- The codecs rebuild a record of the document. -/
def Rebuilds (c : Collection) (codecs : Registry) (doc : Document) : Prop :=
  ∃ e : E, ((Registry.inflate c.cls doc : RegistryM E).run codecs).1 = .ok e

theorem rebuilds_iff {codecs : Registry} {doc : Document} : c.Rebuilds E codecs doc ↔
    ((Registry.inflate c.cls doc : RegistryM E).run codecs).1.toOption.isSome = true := by
  unfold Rebuilds
  cases ((Registry.inflate c.cls doc : RegistryM E).run codecs).1 with
  | error failure => exact iff_of_false nofun nofun
  | ok e => exact iff_of_true ⟨e, rfl⟩ rfl

/-- **When a failed change leaves the store alone.** It does just when nothing
was altered or what it would have answered can be rebuilt. So where everything
stored can be rebuilt, deletions and whatever answers a record as it was leave
the store alone if they fail; what answers the record as it is then may fail
with the new document in place. -/
theorem failed_change_same_iff (h : (c.change r).run b = (result, after)) :
    (((∃ failure, result = .error failure) → b.store.Same after.store) ↔
        ∀ doc answered entries, r.Alters c b doc answered entries →
          entries ≠ b.store.entries c.name → c.Rebuilds E (r.prepared c b.registry) answered) ∧
      (r.version = .before →
        (∀ i doc, Stored.At (b.store.entries c.name) i doc →
          c.Rebuilds E (r.prepared c b.registry) doc) →
        (∃ failure, result = .error failure) → b.store.Same after.store) := by
  rcases change_cases h with ⟨-, hsame, hnothing⟩ |
    ⟨doc, answered, entries, halters, hchanged, hresult⟩
  · refine ⟨iff_of_true (fun _ => hsame) ?_, fun _ _ _ => hsame⟩
    exact fun doc answered entries ha => absurd ha (hnothing doc answered entries)
  · have answers : c.Rebuilds E (r.prepared c b.registry) answered →
        ¬∃ failure, result = .error failure := by
      rintro ⟨e, he⟩ ⟨failure, hfailure⟩
      rw [hresult, he] at hfailure
      cases hfailure
    refine ⟨⟨fun hkeeps doc' answered' entries' ha hne => ?_, fun hrebuilds hfails => ?_⟩, ?_⟩
    · obtain ⟨rfl, rfl⟩ := halters.unique ha
      cases hinflate : ((Registry.inflate c.cls answered : RegistryM E).run
          (r.prepared c b.registry)).1 with
      | ok e => exact ⟨e, hinflate⟩
      | error failure =>
        rw [hinflate] at hresult
        exact absurd (hchanged.same_iff.1 (hkeeps ⟨failure, hresult⟩)) hne
    · by_cases hkept : entries = b.store.entries c.name
      · exact hchanged.same_iff.2 hkept
      · exact absurd hfails (answers (hrebuilds doc answered entries halters hkept))
    · intro hversion hdecodes hfails
      obtain ⟨i, hstored⟩ := halters.stored hversion
      exact absurd hfails (answers (hdecodes i answered hstored))

/-! ## A spoilt order -/

open Registry (shop orderRef)

/-- The desk, with the properties of orders looked up before. -/
def staffedDesk : Backend :=
  { desk with
    registry := ⟨⟨shop, [(orderRef.name, Descriptor.ofClass shop orderRef)], []⟩, none, [], [], 0⟩ }

/-- Writes a text where a date is declared. -/
def spoil : Change Entity := .updateById (some (.ofParts 1 2)) [.set "lastModified" (.text "soon")]

/-- The second order at the desk as that leaves it. -/
def spoilt : Document :=
  ⟨[(idField, .objectId (.ofParts 1 2)), ("lastModified", .text "soon")]⟩

theorem rebuilds_desk {i : Nat} {doc : Document}
    (h : Stored.At (staffedDesk.store.entries orders.name) i doc) :
    orders.Rebuilds Entity staffedDesk.registry doc := by
  have each : ∀ id ∈ [ObjectId.ofParts 5 6, ObjectId.ofParts 1 2],
      orders.Rebuilds Entity staffedDesk.registry (Store.onlyId (.objectId id)) := by
    simp only [rebuilds_iff, staffedDesk, ofClass_order]
    decide +kernel
  obtain ⟨e, he, hd⟩ := h
  have hmem : e ∈ [ObjectId.ofParts 5 6, ObjectId.ofParts 1 2].map blankOrder :=
    List.mem_of_getElem? he
  obtain ⟨id, hid, rfl⟩ := List.mem_map.1 hmem
  cases (document_blankOrder id).symm.trans hd
  exact each id hid

theorem not_rebuilds_spoilt : ¬orders.Rebuilds Entity staffedDesk.registry spoilt := by
  rw [rebuilds_iff, staffedDesk, ofClass_order]
  decide +kernel

theorem alters_spoil : ∃ entry : Stored, entry.bytes ≠ (blankOrder (.ofParts 1 2)).bytes ∧
    spoil.Alters orders staffedDesk (Store.onlyId (.objectId (.ofParts 1 2))) spoilt
      [blankOrder (.ofParts 5 6), entry] := by
  refine ⟨⟨.objectId (.ofParts 1 2), (Cbor.encodeDocument spoilt).toOption.getD []⟩, ?_,
    .id (.ofParts 1 2), _, 1, rfl, rfl, ⟨rfl, ?_⟩, by rfl⟩
  · decide
  · show Stored.first? _ [blankOrder _, blankOrder _] 0 = _
    rw [Stored.first?_cons (document_blankOrder _), Stored.first?_cons (document_blankOrder _)]
    rfl

/-- All orders at the desk can be rebuilt, and updating one of them fails and
leaves another document in its place. -/
theorem failed_change_spoil :
    (∀ i doc, Stored.At (staffedDesk.store.entries orders.name) i doc →
      orders.Rebuilds Entity staffedDesk.registry doc) ∧
    ∃ failure after, (orders.change spoil).run staffedDesk = (.error failure, after) ∧
      ¬staffedDesk.store.Same after.store := by
  refine ⟨fun i doc h => rebuilds_desk h, ?_⟩
  rcases hrun : (orders.change spoil).run staffedDesk with ⟨result, after⟩
  obtain ⟨hiff, -⟩ := failed_change_same_iff hrun
  have hspoils : ¬((∃ failure, result = .error failure) → staffedDesk.store.Same after.store) := by
    intro hkeeps
    obtain ⟨entry, hbytes, halters⟩ := alters_spoil
    refine not_rebuilds_spoilt (hiff.1 hkeeps _ _ _ halters fun hsame => hbytes ?_)
    have hlast := congrArg (fun entries => entries[1]?.map Stored.bytes) hsame
    exact Option.some.inj hlast
  obtain ⟨⟨failure, rfl⟩, hchanged⟩ := Classical.not_imp.1 hspoils
  exact ⟨failure, after, rfl, hchanged⟩

end Folio.Collection
