import Folio.Proofs.Entity.Marks
import Folio.Proofs.Registry.Decoding
import Folio.Proofs.Registry.Fields

/-!
# Codecs from suppliers

Callers may supply codecs of their own. A codec decodes the one value that is
due; if it is one for flags or for ids, it is asked to leave them as they are.
Then flags and ids are stored as they are, whatever else is supplied, and with a
key or without. So are texts, if the codecs for texts leave them as they are.

Results:
* `Registry.Sound`, `Registry.Literal`: what is asked of a registry.
* `sustains_codec`, `sustains_encodes`: it stays so, with the same suppliers, when
  codecs are looked up and values encoded.
* `mark_encodeRecord`, `id_encodeRecord`, `text_encodeRecord`: the mark, the id and
  the texts of a record stand in its document.
-/
namespace Folio

variable {s : Schema} {known : ClassRef → Prop} {suppliers : List Provider}

namespace ValueType

/-- Each class in the type is a known one. -/
def Refers (known : ClassRef → Prop) : ValueType → Prop
  | entity c => known c
  | list t => Refers known t
  | _ => True

/-- The items of the type, if it is a list, are of known classes. -/
def ItemsRefer (known : ClassRef → Prop) (t : ValueType) : Prop :=
  ∀ element, t = .list element → element.Refers known

theorem Refers.items {t : ValueType} (h : t.Refers known) : t.ItemsRefer known := by
  rintro element rfl
  exact h

end ValueType

/-- The codec, supplied for the type, decodes the one value that is due, and
leaves flags and ids as they are. -/
structure CustomCodec.Sound (k : CustomCodec) (t : ValueType) : Prop where
  one : ∀ v rd rd', Reader.Due v rd rd' → ∀ a after, k.decode.run rd = (.ok a, after) → after = rd'
  readsFlag : t = .primitive .bool → ∀ b rd rd', Reader.Due (.bool b) rd rd' →
    ∀ a after, k.decode.run rd = (.ok a, after) → a = some (.bool b)
  writesFlag : t = .primitive .bool → ∀ b w, k.encode (.bool b) = .ok w → w = .bool b
  writesId : t = .objectId → ∀ id w, k.encode (.objectId id) = .ok w → w = .objectId id

/-- The codec leaves texts as they are, and reads nothing of a null. -/
structure CustomCodec.Literal (k : CustomCodec) : Prop where
  reads : ∀ t rd rd', Reader.Due (.text t) rd rd' →
    ∀ a after, k.decode.run rd = (.ok a, after) → a = some (.text t)
  readsNull : ∀ rd rd', Reader.Due .null rd rd' →
    ∀ a after, k.decode.run rd = (.ok a, after) → a = none
  writes : ∀ t w, k.encode (.text t) = .ok w → w = .text t

/-- Codecs for texts leave texts as they are. -/
def Provider.Literal (p : Provider) : Prop := ∀ k, p .text = some k → k.Literal

/-- The codec is the one known for the type, or one that a supplier has for it. -/
def Codec.Serves (suppliers : List Provider) (c : Codec) (t : ValueType) : Prop :=
  Codec.builtin? t = some c ∨ ∃ k, c = .custom k ∧ k.Sound t ∧ ∃ p ∈ suppliers, p t = some k

namespace Registry

/-- The suppliers have sound codecs only, the codecs that were found are those
that the suppliers have or that are known here, and what was found names known
classes only. -/
structure Sound (s : Schema) (known : ClassRef → Prop) (r : Registry) : Prop where
  providers : ∀ p ∈ r.providers, ∀ t k, p t = some k → k.Sound t
  codecs : ∀ q ∈ r.codecs, r.resolve? q.1 = some q.2
  items : ∀ q ∈ r.codecs, q.1.ItemsRefer known
  catalog : r.catalog.Genuine s known

/-- A sound registry, whose suppliers leave texts as they are. -/
structure Literal (s : Schema) (known : ClassRef → Prop) (r : Registry) : Prop
    extends Sound s known r where
  texts : ∀ p ∈ r.providers, Provider.Literal p

/-- A sound registry with these suppliers. -/
structure From (s : Schema) (known : ClassRef → Prop) (suppliers : List Provider) (r : Registry) :
    Prop where
  sound : r.Sound s known
  suppliers : r.providers = suppliers

theorem Sound.own {r : Registry} (hr : r.Sound s known) : r.From s known r.providers := ⟨hr, rfl⟩

theorem From.serves {r : Registry} (hr : r.From s known suppliers) {t : ValueType} {c : Codec}
    (h : r.resolve? t = some c) : c.Serves suppliers t := by
  unfold resolve? at h
  cases hp : r.providers.findSome? (· t) with
  | none =>
    rw [hp] at h
    exact .inl h
  | some k =>
    rw [hp] at h
    cases h
    obtain ⟨p, hm, hk⟩ := List.exists_of_findSome?_eq_some hp
    exact .inr ⟨k, rfl, hr.sound.providers p hm t k hk, p, hr.suppliers ▸ hm, hk⟩

/-- Sound before, and sound afterwards. -/
def StaysSound (s : Schema) (known : ClassRef → Prop) (r r' : Registry) : Prop :=
  r.Sound s known → r'.Sound s known

/-- A sound registry stays sound, and keeps its suppliers. -/
def Sustains (s : Schema) (known : ClassRef → Prop) (r r' : Registry) : Prop :=
  ∀ suppliers, r.From s known suppliers → r'.From s known suppliers

theorem sustains_frame : Frame (Sustains s known) :=
  ⟨fun _ _ h => h, fun h h' suppliers hr => h' suppliers (h suppliers hr)⟩

theorem Sustains.sound {r r' : Registry} (h : r.Sustains s known r') : r.StaysSound s known r' :=
  fun hr => (h r.providers hr.own).sound

theorem Sustains.literal {r r' : Registry} (h : r.Sustains s known r') (hr : r.Literal s known) :
    r'.Literal s known := by
  have hr' := h r.providers hr.toSound.own
  exact ⟨hr'.sound, fun p hp => hr.texts p (hr'.suppliers ▸ hp)⟩

/-- The codec that is found serves a type that counts as the same. -/
theorem run_codec_sound {t : ValueType} (ht : t.ItemsRefer known) {r r' : Registry}
    (hr : r.From s known suppliers) {result : Except Failure Codec}
    (h : (codec t).run r = (result, r')) :
    r'.From s known suppliers ∧ ∀ c, result = .ok c →
      ∃ u, (t == u) = true ∧ c.Serves suppliers u ∧ u.ItemsRefer known := by
  rcases codec_cases t r with ⟨found, hl, hrun⟩ | ⟨-, hrun⟩ | ⟨found, -, hresolve, hrun⟩ <;>
    cases hrun.symm.trans h
  · obtain ⟨u, hm, hu⟩ := mem_of_lookup hl
    refine ⟨hr, fun c hc => ?_⟩
    cases hc
    exact ⟨u, hu, hr.serves (hr.sound.codecs _ hm), hr.sound.items _ hm⟩
  · exact ⟨hr, fun c hc => by cases hc⟩
  · refine ⟨⟨⟨hr.sound.providers, fun q hq => ?_, fun q hq => ?_, hr.sound.catalog⟩, hr.suppliers⟩,
      fun c hc => ?_⟩
    · rcases List.mem_cons.1 hq with rfl | hq
      · exact hresolve
      · exact hr.sound.codecs q hq
    · rcases List.mem_cons.1 hq with rfl | hq
      · exact ht
      · exact hr.sound.items q hq
    · cases hc
      exact ⟨t, ValueType.beq_refl t, hr.serves hresolve, ht⟩

theorem sustains_codec {t : ValueType} (ht : t.ItemsRefer known) :
    Within (Sustains s known) (codec t) :=
  fun _ _ hr => (run_codec_sound ht hr rfl).1

/-- Nothing is known of the items of a list that is encoded, and sealing an image is
no matter of codecs. -/
theorem sustains_encodes : Encodes (Sustains s known) := by
  refine ⟨sustains_frame, fun t ht => sustains_codec fun element h => ?_, fun _ _ hr => ?_⟩
  · rw [ht element h]
    trivial
  · exact ⟨⟨hr.sound.providers, hr.sound.codecs, hr.sound.items, hr.sound.catalog⟩, hr.suppliers⟩

/-- Encoding keeps the suppliers that there are. -/
theorem from_encodes : Encodes (Keeps (From s known suppliers)) :=
  ⟨keeps_frame _, fun t ht r => sustains_encodes.codec t ht r suppliers,
    fun r => sustains_encodes.nextNonce r suppliers⟩

/-! ## Flags, ids and texts -/

/-- Whatever the value is encoded as is this one. -/
def Stores (s : Schema) (known : ClassRef → Prop) (suppliers : List Provider) (v : FieldValue)
    (w : Value) : Prop :=
  ∀ r r' w', r.From s known suppliers → (encode v).run r = (.ok w', r') → w' = w

/-- What is stored by the codec that serves its type is stored by any registry. -/
theorem stores_of_leaf {v : FieldValue} {w : Value}
    (hencode : encode v = codec v.type >>= fun c => leaf c v)
    (hitems : v.type.ItemsRefer known) (hsame : ∀ u, (v.type == u) = true → u = v.type)
    (h : ∀ c, c.Serves suppliers v.type → ∀ r r' w', (leaf c v).run r = (.ok w', r') → w' = w) :
    Stores s known suppliers v w := by
  intro r r' w' hr hrun
  rw [hencode] at hrun
  obtain ⟨c, t, hc, hleaf⟩ := ok_of_run_bind hrun
  obtain ⟨u, hu, hserves, -⟩ := (run_codec_sound hitems hr hc).2 c rfl
  exact h c (hsame u hu ▸ hserves) t r' w' hleaf

theorem stores_flag (flag : Bool) : Stores s known suppliers (.bool flag) (.bool flag) := by
  refine stores_of_leaf rfl (fun _ h => by cases h) (fun u hu => ?_) fun c hc r r' w hrun => ?_
  · cases u <;> first | cases hu | skip
    next p => cases p <;> first | rfl | cases hu
  · rcases hc with hc | ⟨k, rfl, hk, -⟩
    · cases hc
      cases hrun
      rfl
    · rw [leaf, run_lift] at hrun
      exact hk.writesFlag rfl flag w (congrArg Prod.fst hrun)

theorem stores_id (id : ObjectId) : Stores s known suppliers (.objectId id) (.objectId id) := by
  refine stores_of_leaf rfl (fun _ h => by cases h) (fun u hu => ?_) fun c hc r r' w hrun => ?_
  · cases u <;> first | rfl | cases hu
  · rcases hc with hc | ⟨k, rfl, hk, -⟩
    · cases hc
      cases hrun
      rfl
    · rw [leaf, run_lift] at hrun
      exact hk.writesId rfl id w (congrArg Prod.fst hrun)

theorem stores_text (hs : ∀ p ∈ suppliers, Provider.Literal p) (text : String) :
    Stores s known suppliers (.text text) (.text text) := by
  refine stores_of_leaf rfl (fun _ h => by cases h) (fun u hu => ?_) fun c hc r r' w hrun => ?_
  · cases u <;> first | rfl | cases hu
  · rcases hc with hc | ⟨k, rfl, -, p, hp, hk⟩
    · cases hc
      cases hrun
      rfl
    · rw [leaf, run_lift] at hrun
      exact (hs p hp k hk).writes text w (congrArg Prod.fst hrun)

variable {e : Entity} {r r' : Registry} {doc : Document}

/-- What is stored by any registry stands in the document, under the property. -/
theorem stored_encodeRecord (hr : r.From s known suppliers) {k : String}
    (hk : k ≠ Naming.idProperty) {v : FieldValue} {w : Value} (hv : Stores s known suppliers v w)
    (hget : Keyed.get? k e.attributes = some v) (h : (encodeRecord e).run r = (.ok doc, r')) :
    doc.get? k = some w := by
  obtain ⟨w', t, t', hfield, ht, hw⟩ := get?_encodeRecord from_encodes hr h hk hget
  rw [hfield, hv t t' w' ht hw]

/-- The mark of a record stands in its document. -/
theorem mark_encodeRecord (hr : r.Sound s known) {flag : Bool}
    (hmark : Keyed.get? defunctProperty e.attributes = some (.bool flag))
    (h : (encodeRecord e).run r = (.ok doc, r')) :
    doc.get? defunctProperty = some (.bool flag) :=
  stored_encodeRecord hr.own (by decide) (stores_flag flag) hmark h

/-- So does a text that is set; where none is set, there is none. -/
theorem text_encodeRecord (hr : r.Literal s known) {k : String} (hk : k ≠ Naming.idProperty)
    {text : Option String} (htext : Keyed.get? k e.attributes = text.map .text)
    (h : (encodeRecord e).run r = (.ok doc, r')) : doc.get? k = text.map .text := by
  cases text with
  | none => exact get?_encodeRecord_none h hk htext
  | some text => exact stored_encodeRecord hr.toSound.own hk (stores_text hr.texts text) htext h

/-- So does the id. -/
theorem id_encodeRecord (hr : r.Sound s known) {id : ObjectId}
    (hid : Keyed.get? Naming.idProperty e.attributes = some (.objectId id))
    (h : (encodeRecord e).run r = (.ok doc, r')) : doc.get? idField = some (.objectId id) := by
  obtain ⟨w, t, hfield, hw⟩ := get?_encodeRecord_id h hid
  rw [show idField = Naming.idProperty from rfl, hfield, stores_id id r t w hr.own hw]

end Registry
end Folio
