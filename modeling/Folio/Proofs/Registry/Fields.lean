import Folio.Proofs.Registry.Encoding

/-!
# The fields of an encoded record

Encoding looks codecs up and seals images, and does nothing else to a registry. So
it leaves alone what these two leave alone, whatever codecs are supplied. A record
becomes a document in which each property that is set stands under its name, with
what its value is encoded as by a registry of which no more is known than that.

Results:
* `Encodes`: what is asked of a relation that encoding stays within.
* `Encodes.within_encode`, `Encodes.within_encodeRecord`: encoding stays within it.
* `get?_encodeRecord`, `get?_encodeRecord_id`: a property that is set is a field.
* `get?_encodeRecord_none`: one that is not set is none.
* `codecOf_encodes`: the codec of a type stays the same.
-/
namespace Folio.Registry

/-- Looking up the codec of a type that a value has, and sealing an image, stay
within the relation. Of the items of a list nothing is known. -/
structure Encodes (R : Registry → Registry → Prop) : Prop extends Frame R where
  codec : ∀ t, (∀ element, t = .list element → element = .any) → Within R (Registry.codec t)
  nextNonce : Within R Registry.nextNonce

namespace Encodes

variable {R : Registry → Registry → Prop} {fields : Fields}

theorem within_image (hR : Encodes R) (payload : Bytes) : Within R (image payload) := by
  refine hR.within_bind hR.within_get fun r => ?_
  dsimp only
  split
  · exact hR.within_bind hR.nextNonce fun _ => hR.within_pure _
  · exact hR.within_pure _

theorem within_leaf (hR : Encodes R) (c : Codec) (v : FieldValue) : Within R (leaf c v) := by
  unfold leaf
  split
  · split
    · exact hR.within_pure _
    · exact hR.within_throw _
  · exact hR.within_image _
  · exact hR.within_pure _
  · exact hR.within_pure _
  · exact hR.within_pure _
  · exact hR.within_pure _
  · split
    · exact hR.within_lift _
    · exact hR.within_throw _
  · split
    · exact hR.within_lift _
    · exact hR.within_throw _
  · exact hR.within_lift _
  · exact hR.within_throw _

theorem within_encodeItems (hR : Encodes R) {items : List FieldValue}
    (h : ∀ v ∈ items, Within R (encode v)) : Within R (encodeItems items) := by
  induction items with
  | nil => exact hR.within_pure _
  | cons v rest ih =>
    refine hR.within_bind (h v List.mem_cons_self) fun w => ?_
    exact hR.within_bind (ih fun x hx => h x (List.mem_cons_of_mem v hx)) fun _ => hR.within_pure _

theorem within_encodeId (hR : Encodes R) (h : ∀ a ∈ fields, Within R (encode a.2)) :
    Within R (encodeId fields) := by
  induction fields with
  | nil => exact hR.within_pure _
  | cons a rest ih =>
    obtain ⟨k, v⟩ := a
    rw [encodeId]
    split
    · exact hR.within_bind (h _ List.mem_cons_self) fun _ => hR.within_pure _
    · exact ih fun b hb => h b (List.mem_cons_of_mem _ hb)

theorem within_encodeRest (hR : Encodes R) (h : ∀ a ∈ fields, Within R (encode a.2)) :
    Within R (encodeRest fields) := by
  induction fields with
  | nil => exact hR.within_pure _
  | cons a rest ih =>
    obtain ⟨k, v⟩ := a
    have hrest := ih fun b hb => h b (List.mem_cons_of_mem _ hb)
    rw [encodeRest]
    split
    · exact hrest
    · refine hR.within_bind (h _ List.mem_cons_self) fun _ => ?_
      exact hR.within_bind hrest fun _ => hR.within_pure _

/-- Encoding a value makes look-ups, and seals images. -/
theorem within_encode (hR : Encodes R) (v : FieldValue) : Within R (encode v) := by
  induction v using FieldValue.tree with
  | leaf v hl =>
    have hencode : encode v = Registry.codec v.type >>= fun c => leaf c v := by
      cases v <;> first | rfl | cases hl
    rw [hencode]
    refine hR.within_bind (hR.codec _ fun element h => ?_) fun c => hR.within_leaf c v
    cases v <;> first | (cases hl; done) | cases h
  | list items ih =>
    unfold encode
    refine hR.within_bind (hR.codec _ fun element h => ?_) fun c => ?_
    · cases h
      rfl
    split
    · exact hR.within_bind (hR.within_encodeItems ih) fun _ => hR.within_pure _
    · exact hR.within_leaf _ _
  | entity e ih =>
    obtain ⟨cls, d, fields⟩ := e
    unfold encode
    refine hR.within_bind (hR.codec _ fun element h => by cases h) fun c => ?_
    split
    · refine hR.within_bind (hR.within_encodeId ih) fun _ => ?_
      exact hR.within_bind (hR.within_encodeRest ih) fun _ => hR.within_pure _
    · exact hR.within_leaf _ _

theorem within_encodeRecord (hR : Encodes R) (e : Entity) : Within R (encodeRecord e) := by
  refine hR.within_bind (hR.within_encodeId fun a _ => hR.within_encode a.2) fun _ => ?_
  exact hR.within_bind (hR.within_encodeRest fun a _ => hR.within_encode a.2) fun _ =>
    hR.within_pure _

end Encodes

/-- What holds of the one registry holds of the other. -/
def Keeps (I : Registry → Prop) (r r' : Registry) : Prop := I r → I r'

theorem keeps_frame (I : Registry → Prop) : Frame (Keeps I) :=
  ⟨fun _ h => h, fun h h' hr => h' (h hr)⟩

/-! ## Fields -/

variable {I : Registry → Prop} {fields : Fields}

/-- A property other than the identity is a field of the document. -/
theorem lookup_encodeRest (hI : Encodes (Keeps I)) {k : String} (hk : k ≠ Naming.idProperty)
    {v : FieldValue} (hget : Keyed.get? k fields = some v) {r r' : Registry} (hr : I r)
    {rest : List (String × Value)} (h : (encodeRest fields).run r = (.ok rest, r')) :
    ∃ w t t', Document.lookup k rest = some w ∧ I t ∧ (encode v).run t = (.ok w, t') := by
  induction fields generalizing r rest with
  | nil => cases hget
  | cons a others ih =>
    obtain ⟨l, x⟩ := a
    rw [Keyed.get?] at hget
    rw [encodeRest] at h
    by_cases hid : l = Naming.idProperty
    · rw [if_pos hid] at h
      rw [if_neg (fun heq => hk (heq.symm.trans hid))] at hget
      exact ih hget hr h
    · rw [if_neg hid] at h
      obtain ⟨first, t, hfirst, h⟩ := ok_of_run_bind h
      obtain ⟨ws, u, hws, h⟩ := ok_of_run_bind h
      cases h
      rw [Document.lookup]
      by_cases hl : l = k
      · rw [if_pos hl] at hget ⊢
        cases hget
        exact ⟨first, r, t, rfl, hr, hfirst⟩
      · rw [if_neg hl] at hget ⊢
        have ht := hI.within_encode x r hr
        rw [hfirst] at ht
        exact ih hget ht hws

/-- A property that is not set is no field of the document. -/
theorem lookup_encodeRest_none {k : String} (hget : Keyed.get? k fields = none) {r r' : Registry}
    {rest : List (String × Value)} (h : (encodeRest fields).run r = (.ok rest, r')) :
    Document.lookup k rest = none := by
  induction fields generalizing r rest with
  | nil =>
    cases h
    rfl
  | cons a others ih =>
    obtain ⟨l, x⟩ := a
    rw [Keyed.get?] at hget
    rw [encodeRest] at h
    by_cases hl : l = k
    · rw [if_pos hl] at hget
      cases hget
    rw [if_neg hl] at hget
    split at h
    · exact ih hget h
    · obtain ⟨first, t, -, h⟩ := ok_of_run_bind h
      obtain ⟨ws, u, hws, h⟩ := ok_of_run_bind h
      cases h
      rw [Document.lookup, if_neg hl]
      exact ih hget hws

/-- The identity is a field alone. -/
theorem encodeId_cases {r r' : Registry} {ids : List (String × Value)}
    (h : (encodeId fields).run r = (.ok ids, r')) :
    (Keyed.get? Naming.idProperty fields = none ∧ ids = []) ∨
      ∃ v w, Keyed.get? Naming.idProperty fields = some v ∧ ids = [(Naming.idProperty, w)] ∧
        ∃ r', (encode v).run r = (.ok w, r') := by
  induction fields with
  | nil =>
    cases h
    exact .inl ⟨rfl, rfl⟩
  | cons a others ih =>
    obtain ⟨l, x⟩ := a
    rw [Keyed.get?]
    rw [encodeId] at h
    by_cases hid : l = Naming.idProperty
    · rw [if_pos hid] at h ⊢
      obtain ⟨w, t, hw, h⟩ := ok_of_run_bind h
      cases h
      exact .inr ⟨x, w, rfl, by rw [hid], _, hw⟩
    · rw [if_neg hid] at h ⊢
      exact ih h

variable {e : Entity} {r r' : Registry} {doc : Document} {k : String}

/-- A property other than the identity is looked for behind it. -/
theorem lookup_encodeRecord (hI : Encodes (Keeps I)) (hr : I r)
    (h : (encodeRecord e).run r = (.ok doc, r')) (hk : k ≠ Naming.idProperty) :
    ∃ t rest, I t ∧ (encodeRest e.attributes).run t = (.ok rest, r') ∧
      doc.get? k = Document.lookup k rest := by
  obtain ⟨ids, t, hids, h⟩ := ok_of_run_bind h
  obtain ⟨rest, u, hrest, h⟩ := ok_of_run_bind h
  cases h
  have hkept : Within (Keeps I) (encodeId (Record.fields e)) :=
    hI.within_encodeId fun a _ => hI.within_encode a.2
  have ht := hkept r hr
  rw [hids] at ht
  refine ⟨t, rest, ht, hrest, ?_⟩
  rcases encodeId_cases hids with ⟨-, rfl⟩ | ⟨v, w, -, rfl, -⟩
  · rfl
  · exact if_neg (Ne.symm hk)

/-- A property that is set is a field of the document. -/
theorem get?_encodeRecord (hI : Encodes (Keeps I)) (hr : I r)
    (h : (encodeRecord e).run r = (.ok doc, r')) (hk : k ≠ Naming.idProperty) {v : FieldValue}
    (hget : Keyed.get? k e.attributes = some v) :
    ∃ w t t', doc.get? k = some w ∧ I t ∧ (encode v).run t = (.ok w, t') := by
  obtain ⟨t, rest, ht, hrest, hlookup⟩ := lookup_encodeRecord hI hr h hk
  rw [hlookup]
  exact lookup_encodeRest hI hk hget ht hrest

/-- One that is not set is none. -/
theorem get?_encodeRecord_none (h : (encodeRecord e).run r = (.ok doc, r'))
    (hk : k ≠ Naming.idProperty) (hget : Keyed.get? k e.attributes = none) : doc.get? k = none := by
  have hany : Encodes (Keeps fun _ => True) :=
    ⟨keeps_frame _, fun _ _ _ _ => trivial, fun _ _ => trivial⟩
  obtain ⟨t, rest, -, hrest, hlookup⟩ := lookup_encodeRecord hany trivial h hk
  rw [hlookup]
  exact lookup_encodeRest_none hget hrest

/-- The identity is a field too, if it is set. -/
theorem get?_encodeRecord_id (h : (encodeRecord e).run r = (.ok doc, r')) {v : FieldValue}
    (hget : Keyed.get? Naming.idProperty e.attributes = some v) :
    ∃ w t, doc.get? Naming.idProperty = some w ∧ (encode v).run r = (.ok w, t) := by
  obtain ⟨ids, t, hids, h⟩ := ok_of_run_bind h
  obtain ⟨rest, u, hrest, h⟩ := ok_of_run_bind h
  cases h
  rcases encodeId_cases hids with ⟨hnone, -⟩ | ⟨x, w, hx, rfl, t', hw⟩
  · cases hnone.symm.trans hget
  · cases hx.symm.trans hget
    refine ⟨w, t', ?_, hw⟩
    rw [Document.get?, List.singleton_append, Document.lookup, if_pos rfl]

/-! ## The codec of a type -/

/-- The codec of a type: the one that was found, or else the one to be found. -/
def codecOf? (r : Registry) (t : ValueType) : Option Codec := (r.codecs.lookup t).or (r.resolve? t)

theorem run_codecOf {t : ValueType} {c : Codec} (h : (codec t).run r = (.ok c, r')) :
    r.codecOf? t = some c := by
  rw [codecOf?]
  rcases codec_cases t r with ⟨found, hl, hrun⟩ | ⟨-, hrun⟩ | ⟨found, hl, hresolve, hrun⟩ <;>
    cases hrun.symm.trans h
  · rw [hl]
    rfl
  · rw [hl, hresolve]
    rfl

/-- Whatever is encoded, a type that counts as the same as no other keeps its codec. -/
theorem codecOf_encodes {t : ValueType} (ht : ∀ u, (t == u) = true → u = t) (c : Option Codec) :
    Encodes (Keeps fun r => r.codecOf? t = c) := by
  refine ⟨keeps_frame _, fun u _ r hr => ?_, fun r hr => hr⟩
  rcases codec_cases u r with ⟨found, -, hrun⟩ | ⟨-, hrun⟩ | ⟨found, hl, hresolve, hrun⟩ <;>
    rw [hrun]
  · exact hr
  · exact hr
  · rw [← hr]
    show (((u, found) :: r.codecs).lookup t).or (r.resolve? t) = _
    rw [codecOf?, List.lookup_cons]
    cases hu : t == u with
    | true =>
      obtain rfl := ht u hu
      rw [hl, hresolve]
      rfl
    | false => rfl

end Folio.Registry
