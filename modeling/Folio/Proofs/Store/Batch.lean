import Folio.Proofs.Store.Inserted
import Folio.Proofs.Store.Placing
import Folio.Proofs.Value.Rearranged

/-!
# Where a batch of documents ends

Documents that are inserted together are put in one after another, up to the first that
has a NaN in it or an id that is taken. That may be taken by a document that was there
before or by an earlier one of the batch.

Results:
* `Document.canonical_withId`: a document is kept as it is, with its id or a new one.
* `accept_error_iff`: which document is refused.
* `Batch.front`: what is put in of a batch and where it ends.
* `insertMany_front`: what a call that inserts documents answers and what is read then.
-/
namespace Folio

variable {c : String} {doc : Document} {docs : List Document} {id : ObjectId}
  {entries added : List Stored} {fresh : Nat → ObjectId} {result : Except StoreFault (List Value)}
  {s t : Store}

/-! ## A document with its id -/

namespace Document

/-- The document with its own id, or else with the new one in front. -/
def identified (doc : Document) (id : ObjectId) : Document :=
  if doc.contains idField then doc else ⟨(idField, .objectId id) :: doc.fields⟩

theorem identified_of_none (h : doc.get? idField = none) :
    doc.identified id = ⟨(idField, .objectId id) :: doc.fields⟩ := by
  simp [identified, contains, h]

theorem identified_of_some {v : Value} (h : doc.get? idField = some v) :
    doc.identified id = doc := by
  simp [identified, contains, h]

theorem get?_identified (doc : Document) (id : ObjectId) :
    (doc.identified id).get? idField = some ((doc.get? idField).getD (.objectId id)) := by
  cases h : doc.get? idField with
  | none =>
    rw [identified_of_none h, get?, lookup, if_pos rfl]
    rfl
  | some v => rw [identified_of_some h, h, Option.getD_some]

theorem hasNaN_identified (doc : Document) (id : ObjectId) :
    (Value.document (doc.identified id)).hasNaN = (Value.document doc).hasNaN := by
  cases h : doc.get? idField with
  | none =>
    rw [identified_of_none h, Bool.eq_iff_iff, ← not_iff_not, Bool.not_eq_true, Bool.not_eq_true]
    obtain ⟨fields⟩ := doc
    rw [Value.hasNaN_document, Value.hasNaN_document, List.forall_mem_cons]
    exact and_iff_right rfl
  | some v => rw [identified_of_some h]

theorem withId_of_none (hn : doc.keys.Nodup) (h : doc.get? idField = none) :
    doc.withId none id = doc.identified id := by
  have hall : doc.fields.filter (fun f => f.1 ≠ idField) = doc.fields := by
    refine List.filter_eq_self.2 fun f hf => decide_eq_true fun hid => ?_
    rw [show doc.get? idField = some f.2 from (Value.lookup_iff_mem hn).2 (hid ▸ hf)] at h
    cases h
  rw [identified_of_none h, withId, h, hall]
  rfl

/-- The store puts the id first. That makes no difference to what is kept. -/
theorem canonical_withId (hw : doc.WellNamed) (id : ObjectId) :
    (doc.withId none id).canonical = (doc.identified id).canonical := by
  have hn := (wellNamed_iff.1 hw).1
  cases h : doc.get? idField with
  | none => rw [withId_of_none hn h]
  | some v =>
    have hw' : (doc.withId none id).WellNamed := hw.withId (fun _ hnone => by cases hnone) id
    rw [identified_of_some h]
    refine Value.canonical_ext (wellNamed_iff.1 hw').1 hn fun k => ?_
    by_cases hk : k = idField
    · rw [hk, Store.id_withId, h]
      rfl
    · exact Store.get?_withId hk

/-- A readable document is readable with its id, unless the id is one field too
many. -/
theorem Readable.identified (h : doc.Readable) (id : ObjectId) :
    (doc.identified id).Readable ↔ doc.contains idField = true ∨ doc.size < Cbor.maxEntries := by
  cases hid : doc.get? idField with
  | none => rw [← withId_of_none (wellNamed_iff.1 h.2).1 hid, h.withId_iff]
  | some v =>
    rw [identified_of_some hid]
    exact iff_of_true h (.inl (by rw [contains, hid]; rfl))

end Document

theorem Value.eq_objectId_of_beq {v : Value} (h : (.objectId id == v) = true) :
    v = .objectId id := by
  rcases eq_of_beq_scalar rfl h with heq | ⟨_, _, hdouble, -⟩
  · exact heq.symm
  · cases hdouble

theorem Value.isScalar_canonical (v : Value) : v.canonical.isScalar = v.isScalar := by
  cases v with
  | array items => rw [canonical_array, isScalar, isScalar]
  | document doc => rw [document_canonical, isScalar, isScalar]
  | _ => rfl

namespace Store

/-- The ids that documents come with. -/
def supplied (docs : List Document) : List Value := docs.filterMap (·.get? idField)

/-- The documents as they are put in, each with its id or a new one. -/
def placed (docs : List Document) (fresh : Nat → ObjectId) : List Document :=
  docs.mapIdx fun i doc => doc.identified (fresh i)

/-- The ids of these. -/
def placedIds (docs : List Document) (fresh : Nat → ObjectId) : List Value :=
  docs.mapIdx fun i doc => (doc.get? idField).getD (.objectId (fresh i))

theorem placed_cons (doc : Document) (docs : List Document) (fresh : Nat → ObjectId) :
    placed (doc :: docs) fresh = doc.identified (fresh 0) :: placed docs fun i => fresh (i + 1) :=
  List.mapIdx_cons

theorem placedIds_cons (doc : Document) (docs : List Document) (fresh : Nat → ObjectId) :
    placedIds (doc :: docs) fresh =
      (doc.get? idField).getD (.objectId (fresh 0)) :: placedIds docs fun i => fresh (i + 1) :=
  List.mapIdx_cons

/-- The new ids are different from each other, from the ids that are taken and from those
that the documents come with. -/
structure Unused (taken : List Value) (docs : List Document) (fresh : Nat → ObjectId) : Prop where
  different : ∀ i j, i < j → j < docs.length → fresh i ≠ fresh j
  untaken : ∀ i, i < docs.length → .objectId (fresh i) ∉ taken ++ supplied docs

/-- The document at this place cannot be put in after those before it: there is a NaN in
it, or the id that it comes with is taken, or an earlier one came with the same. -/
def Refused (taken : List Value) (docs : List Document) (n : Nat) : Prop :=
  ∃ doc, docs[n]? = some doc ∧ ((Value.document doc).hasNaN = true ∨
    ∃ id, doc.get? idField = some id ∧
      ∃ other ∈ taken ++ supplied (docs.take n), (other == id) = true)

/-! ## One document -/

section

variable {taken : List Value} {rest : List Document} {e : Stored}

theorem ofDocument_withId (hw : doc.WellNamed) (id : ObjectId) :
    Stored.ofDocument (doc.withId none id) = Stored.ofDocument (doc.identified id) := by
  rw [Stored.ofDocument, Stored.ofDocument, id_withId, Document.get?_identified,
    ← Cbor.encodeDocument_canonical, Document.canonical_withId hw, Cbor.encodeDocument_canonical]
  rfl

theorem id_of_ofDocument (he : Stored.ofDocument (doc.withId none id) = .ok e) :
    e.id = (doc.get? idField).getD (.objectId id) := by
  have hid := (Stored.ofDocument_ok he).1
  rw [id_withId] at hid
  exact (Option.some.inj hid).symm

/-- A document is refused for a NaN in it or an id that an entry has. -/
theorem accept_error_iff (hw : doc.WellNamed) :
    (∃ fault, accept c entries doc id = .error fault) ↔
      (Value.document doc).hasNaN = true ∨
        ∃ e ∈ entries, (e.id == (doc.get? idField).getD (.objectId id)) = true := by
  rw [accept_eq]
  cases hn : (Value.document doc).hasNaN with
  | true =>
    rw [ofDocument_withId hw, Stored.ofDocument, Document.get?_identified, Cbor.encodeDocument,
      Cbor.encode_of_hasNaN ((Document.hasNaN_identified doc id).trans hn)]
    exact iff_of_true ⟨_, rfl⟩ (.inl rfl)
  | false =>
    obtain ⟨bytes, hb, -⟩ := Cbor.decode_encode ((Document.hasNaN_identified doc id).trans hn)
    rw [ofDocument_withId hw, Stored.ofDocument, Document.get?_identified, Cbor.encodeDocument, hb]
    simp only [Bool.false_eq_true, false_or, ← List.any_eq_true]
    split
    next hany => exact iff_of_true ⟨_, rfl⟩ hany
    next hnone => exact iff_of_false (by rintro ⟨fault, hfault⟩; cases hfault) hnone

/-- The first document of a batch is refused if it cannot be put in. -/
theorem refused_zero_iff (hw : doc.WellNamed)
    (hf : Unused (entries.map (·.id)) (doc :: rest) fresh) :
    (∃ fault, accept c entries doc (fresh 0) = .error fault) ↔
      Refused (entries.map (·.id)) (doc :: rest) 0 := by
  rw [accept_error_iff hw]
  simp only [Refused, List.getElem?_cons_zero, Option.some.injEq, exists_eq_left', List.take_zero,
    supplied, List.filterMap_nil, List.append_nil, List.mem_map, exists_exists_and_eq_and]
  refine or_congr_right ?_
  cases hid : doc.get? idField with
  | some v => simp
  | none =>
    refine iff_of_false ?_ (by rintro ⟨id, hid, -⟩; cases hid)
    rintro ⟨e, he, hsame⟩
    have huntaken := hf.untaken 0 (by simp)
    rw [← Value.eq_objectId_of_beq (Value.beq_symm hsame)] at huntaken
    exact huntaken (List.mem_append_left _ (List.mem_map_of_mem he))

theorem supplied_cons (doc : Document) (docs : List Document) :
    supplied (doc :: docs) = (doc.get? idField).toList ++ supplied docs := by
  rw [supplied, supplied, List.filterMap_cons]
  cases doc.get? idField <;> rfl

/-- The others are refused as they are in the rest of the batch, when the first one is there. -/
theorem refused_succ_iff {n : Nat} (hf : Unused taken (doc :: rest) fresh) :
    Refused taken (doc :: rest) (n + 1) ↔
      Refused (taken ++ [(doc.get? idField).getD (.objectId (fresh 0))]) rest n := by
  simp only [Refused, List.getElem?_cons_succ, List.take_succ_cons, supplied_cons,
    List.append_assoc]
  cases hid : doc.get? idField with
  | some v => rfl
  | none =>
    refine exists_congr fun d => and_congr_right fun hd => or_congr_right ?_
    refine exists_congr fun id => and_congr_right fun hsome => ?_
    -- the new id of the first document is not the id of any other
    have hnew : ((Value.objectId (fresh 0)) == id) = false := by
      refine eq_false_of_ne_true fun hsame => hf.untaken 0 (by simp) ?_
      rw [← Value.eq_objectId_of_beq hsame]
      refine List.mem_append_right _ (List.mem_filterMap.2 ⟨d, ?_, hsome⟩)
      exact List.mem_cons_of_mem doc (List.mem_of_getElem? hd)
    simp [or_and_right, exists_or, hnew]

theorem Unused.tail (hf : Unused taken (doc :: rest) fresh) :
    Unused (taken ++ [(doc.get? idField).getD (.objectId (fresh 0))]) rest
      (fun i => fresh (i + 1)) where
  different i j hij hj := hf.different (i + 1) (j + 1) (by omega) (by simpa using hj)
  untaken i hi := by
    have huntaken := hf.untaken (i + 1) (by simpa using hi)
    rw [supplied_cons] at huntaken
    rw [List.append_assoc]
    cases hid : doc.get? idField with
    | some v => rwa [hid] at huntaken
    | none =>
      rw [hid] at huntaken
      have hdifferent : fresh 0 ≠ fresh (i + 1) :=
        hf.different 0 (i + 1) (by omega) (by simpa using hi)
      simpa [hdifferent.symm] using huntaken

end

/-! ## A batch -/

/-- A batch is put in up to the first document that cannot be. -/
theorem Batch.front (h : Batch c entries docs fresh added result)
    (hw : ∀ doc ∈ docs, doc.WellNamed) (hf : Unused (entries.map (·.id)) docs fresh) :
    List.Forall₂ (fun doc e => Stored.ofDocument doc = .ok e)
      (placed (docs.take added.length) fresh) added ∧
    (∀ n < added.length, ¬ Refused (entries.map (·.id)) docs n) ∧
    (added.length = docs.length ∧ result = .ok (placedIds docs fresh) ∨
      Refused (entries.map (·.id)) docs added.length ∧ ∃ fault, result = .error fault) := by
  induction h with
  | done => exact ⟨.nil, nofun, .inl ⟨rfl, rfl⟩⟩
  | @refused entries doc rest fresh fault haccept =>
    have hrefused := (refused_zero_iff (hw doc List.mem_cons_self) hf).1 ⟨fault, haccept⟩
    exact ⟨.nil, nofun, .inr ⟨hrefused, fault, rfl⟩⟩
  | @put entries doc rest fresh e added result he ht _ ih =>
    have hwdoc := hw doc List.mem_cons_self
    have hid := id_of_ofDocument he
    have htail := hf.tail
    rw [← hid, ← List.map_singleton (f := Stored.id), ← List.map_append] at htail
    obtain ⟨hput, hbefore, hend⟩ := ih (fun d hd => hw d (List.mem_cons_of_mem doc hd)) htail
    have hstep : ∀ n, Refused (entries.map (·.id)) (doc :: rest) (n + 1) ↔
        Refused ((entries ++ [e]).map (·.id)) rest n := by
      intro n
      rw [refused_succ_iff hf, ← hid, List.map_append, List.map_singleton]
    refine ⟨?_, ?_, ?_⟩
    · rw [List.length_cons, List.take_succ_cons, placed_cons]
      exact .cons (ofDocument_withId hwdoc _ ▸ he) hput
    · rintro (_ | n) hn
      · rw [← refused_zero_iff (c := c) hwdoc hf]
        rintro ⟨fault, hfault⟩
        rw [accept_eq_ok_iff.2 ⟨e, he, ht, rfl⟩] at hfault
        cases hfault
      · rw [hstep]
        exact hbefore n (by simpa using hn)
    · rcases hend with ⟨hlen, rfl⟩ | ⟨hrefused, fault, rfl⟩
      · refine .inl ⟨by simpa using hlen, ?_⟩
        rw [placedIds_cons, ← hid]
        rfl
      · exact .inr ⟨(hstep _).2 hrefused, fault, rfl⟩

/-! ## What is read -/

/-- The entry of a document is read as its canonical form if readers allow it. -/
theorem document_eq_iff {e : Stored} (he : Stored.ofDocument doc = .ok e) :
    e.document = .ok doc.canonical ↔ doc.Readable := by
  have hbytes := (Stored.ofDocument_ok he).2
  constructor
  · intro h
    exact (Stored.document_ok_iff hbytes).1 ⟨_, h⟩
  · rintro ⟨hs, hd⟩
    exact Stored.document_of_encoded hbytes hs hd

/-- The collection has the entries of these documents behind those that it had, and all
others are as they were. -/
def Gains (s : Store) (c : String) (docs : List Document) (t : Store) : Prop :=
  ∃ added, s.Changed c (s.entries c ++ added) t ∧
    List.Forall₂ (fun doc e => Stored.ofDocument doc = .ok e) docs added

/-- They are read behind those that were there if readers allow each of them. -/
theorem Gains.documents_iff {before : List Document} (h : s.Gains c docs t)
    (hd : s.documents c = .ok before) :
    t.documents c = .ok (before ++ docs.map (·.canonical)) ↔ ∀ doc ∈ docs, doc.Readable := by
  obtain ⟨added, hchanged, hentries⟩ := h
  have hread : (s.entries c).map Stored.document = before.map .ok := mapM_eq_ok_iff.1 hd
  rw [documents, hchanged.here, Stored.documents, mapM_eq_ok_iff, List.map_append, List.map_append,
    hread, List.append_cancel_left_eq, List.map_map]
  clear hchanged
  induction hentries with
  | nil => simp
  | @cons doc e docs added he _ ih =>
    rw [List.map_cons, List.map_cons, List.cons.injEq, List.forall_mem_cons]
    exact and_congr (document_eq_iff he) ih

theorem placed_readable_iff (hr : ∀ doc ∈ docs, doc.Readable) :
    (∀ doc ∈ placed docs fresh, doc.Readable) ↔
      ∀ doc ∈ docs, doc.contains idField = true ∨ doc.size < Cbor.maxEntries := by
  induction docs generalizing fresh with
  | nil => simp [placed]
  | cons doc rest ih =>
    obtain ⟨hdoc, hrest⟩ := List.forall_mem_cons.1 hr
    rw [placed_cons, List.forall_mem_cons, List.forall_mem_cons, ih hrest, hdoc.identified]

/-- Where the ids that are read are scalars, the entries have them. -/
theorem supplied_documents {before : List Document} (hf : ∀ e ∈ entries, e.Faithful)
    (hd : Stored.documents entries = .ok before)
    (hs : ∀ id ∈ supplied before, id.isScalar = true) :
    supplied before = entries.map (·.id) := by
  induction entries generalizing before with
  | nil =>
    cases hd
    rfl
  | cons e rest ih =>
    obtain ⟨doc, others, he, hothers, rfl⟩ := ok_of_mapM_cons hd
    have hid := ((hf e List.mem_cons_self).read_id he).1
    rw [supplied_cons, hid] at hs ⊢
    have hscalar : e.id.isScalar = true := by
      rw [← Value.isScalar_canonical]
      exact hs _ List.mem_cons_self
    rw [List.map_cons, ih (fun x hx => hf x (List.mem_cons_of_mem e hx)) hothers
      fun id hid => hs id (List.mem_cons_of_mem _ hid), Value.canonical_scalar hscalar]
    rfl

/-- A batch of documents is inserted into a store that can be reached, into a collection
that can be read and has scalar ids, where no new id is that of another document. The
call answers the ids in order if no document is refused, and then all are in the
collection behind what was there. Otherwise it fails, and those before the first that is
refused are in the collection and no others. They are read in canonical form, each with an
id, unless one that came without an id has no room for it. -/
theorem insertMany_front {requests : List Request} {before : List Document}
    (hu : (empty.after requests).unavailable = false)
    (hd : (empty.after requests).documents c = .ok before)
    (hs : ∀ id ∈ supplied before, id.isScalar = true)
    (hr : ∀ doc ∈ docs, doc.Readable) (hf : Unused (supplied before) docs fresh)
    (h : (insertMany c docs fresh).run (empty.after requests) = (result, t)) :
    ∃ n, (∀ m < n, ¬ Refused (supplied before) docs m) ∧
      (n = docs.length ∧ result = .ok (placedIds docs fresh) ∨
        Refused (supplied before) docs n ∧ ∃ fault, result = .error fault) ∧
      (empty.after requests).Gains c (placed (docs.take n) fresh) t ∧
      (t.documents c = .ok (before ++ (placed (docs.take n) fresh).map (·.canonical)) ↔
        ∀ doc ∈ docs.take n, doc.contains idField = true ∨ doc.size < Cbor.maxEntries) := by
  obtain ⟨added, hchanged, hbatch⟩ := insertMany_batch hu h
  have hids := supplied_documents (after_faithful requests c) hd hs
  rw [hids] at hf ⊢
  obtain ⟨hput, hbefore, hend⟩ := hbatch.front (fun doc hdoc => (hr doc hdoc).2) hf
  have hgains : (empty.after requests).Gains c (placed (docs.take added.length) fresh) t :=
    ⟨added, hchanged, hput⟩
  refine ⟨added.length, hbefore, hend, hgains, ?_⟩
  rw [hgains.documents_iff hd,
    placed_readable_iff fun doc hdoc => hr doc (List.mem_of_mem_take hdoc)]

/-- Two documents with ids and one without, and the first of them again. -/
def parcels : List Document :=
  [⟨[("_id", .integer 1), ("size", .integer 3)]⟩, ⟨[("size", .integer 4)]⟩,
    ⟨[("_id", .integer 2)]⟩, ⟨[("_id", .integer 1)]⟩, ⟨[("_id", .integer 3)]⟩]

theorem insertMany_front_parcels :
    Unused [] parcels (.ofParts 1) ∧ (∀ m < 3, ¬ Refused [] parcels m) ∧ Refused [] parcels 3 ∧
    ((insertMany "parcels" parcels (.ofParts 1)).run empty).2.documents "parcels" =
      .ok ((placed (parcels.take 3) (.ofParts 1)).map (·.canonical)) := by
  have hr : ∀ doc ∈ parcels, doc.Readable := by
    unfold Document.Readable Document.WellNamed
    decide
  have hf : Unused (supplied []) parcels (.ofParts 1) := by
    refine ⟨?_, ?_⟩
    · intro i j hij hj
      have hall : ∀ j < 5, ∀ i < j, ObjectId.ofParts 1 i ≠ .ofParts 1 j := by decide
      exact hall j hj i hij
    · have hnone : ∀ id ∈ [] ++ supplied parcels, ∀ o, id ≠ .objectId o := by
        intro id hid o ho
        subst ho
        simp [supplied, parcels, Document.get?, Document.lookup, idField] at hid
      exact fun i _ hmem => hnone _ hmem _ rfl
  have hu : (empty.after []).unavailable = false := rfl
  have hd : (empty.after []).documents "parcels" = .ok [] := rfl
  obtain ⟨n, hbefore, hend, -, hdocs⟩ := insertMany_front hu hd (List.forall_mem_nil _) hr hf rfl
  have hroom : ∀ doc ∈ parcels.take n,
      doc.contains idField = true ∨ doc.size < Cbor.maxEntries := by
    intro doc hdoc
    have hall : ∀ doc ∈ parcels, doc.size < Cbor.maxEntries := by decide
    exact .inr (hall doc (List.mem_of_mem_take hdoc))
  have hthree : ((insertMany "parcels" parcels (.ofParts 1)).run empty).2.documents "parcels" =
      .ok ((placed (parcels.take 3) (.ofParts 1)).map (·.canonical)) := by rfl
  have hn : n = 3 := by
    have hlength := congrArg List.length (Except.ok.inj ((hdocs.2 hroom).symm.trans hthree))
    simp [placed, parcels] at hlength
    omega
  subst hn
  refine ⟨hf, hbefore, ?_, hthree⟩
  rcases hend with ⟨hall, -⟩ | ⟨hrefused, -⟩
  · cases hall
  · exact hrefused

end Store
end Folio
