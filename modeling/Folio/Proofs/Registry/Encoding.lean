import Folio.Proofs.Entity.Parts
import Folio.Proofs.Keyed
import Folio.Proofs.Run
import Folio.Registry.Encode

/-!
# Encoding with the codecs known here

Without suppliers of codecs and without a key, a value is encoded by its own
type and by nothing else: what a registry has found before makes no
difference, though it finds more codecs on the way.

Results:
* `codec_cases`: what looking up a codec comes to.
* `Unsupplied.run_codec`, `run_codec`: the codec that is found is that of an equal type.
* `gives_encode`, `gives_encodeFields`: encoding gives `encoding`, which no
  registry has a part in.
-/
namespace Folio

open Number (Double)

namespace Registry

/-- The codec was found before, or there is none, or it is found now. -/
theorem codec_cases (t : ValueType) (r : Registry) :
    (∃ c, r.codecs.lookup t = some c ∧ (codec t).run r = (.ok c, r)) ∨
    (r.resolve? t = none ∧ (codec t).run r = (.error (.noCodec t), r)) ∨
    ∃ c, r.codecs.lookup t = none ∧ r.resolve? t = some c ∧
      (codec t).run r = (.ok c, { r with codecs := (t, c) :: r.codecs }) := by
  simp only [codec, run_bind, run_getThe]
  cases hl : r.codecs.lookup t with
  | some found => exact .inl ⟨found, rfl, rfl⟩
  | none =>
    cases hresolve : r.resolve? t with
    | none => exact .inr (.inl ⟨rfl, rfl⟩)
    | some found => exact .inr (.inr ⟨found, rfl, rfl, rfl⟩)

/-- There are no suppliers, and what was found are the codecs known here. -/
structure Unsupplied (r : Registry) : Prop where
  noProviders : r.providers = []
  codecs : ∀ q ∈ r.codecs, Codec.builtin? q.1 = some q.2

theorem Unsupplied.resolve? {r : Registry} (hr : r.Unsupplied) (t : ValueType) :
    r.resolve? t = Codec.builtin? t := by
  rw [Registry.resolve?, hr.noProviders]
  rfl

/-- The codec that is found is known here for a type that counts as the same; where none
is found none is known. -/
theorem Unsupplied.run_codec {r : Registry} (hr : r.Unsupplied) (t : ValueType) :
    ∃ r', r'.Unsupplied ∧ r'.catalog = r.catalog ∧
      ((∃ u c, (t == u) = true ∧ Codec.builtin? u = some c ∧ (codec t).run r = (.ok c, r')) ∨
        Codec.builtin? t = none ∧ (codec t).run r = (.error (.noCodec t), r')) := by
  rcases codec_cases t r with ⟨found, hl, hrun⟩ | ⟨hnone, hrun⟩ | ⟨found, -, hfound, hrun⟩
  · obtain ⟨u, hm, hu⟩ := mem_of_lookup hl
    exact ⟨r, hr, rfl, .inl ⟨u, found, hu, hr.codecs _ hm, hrun⟩⟩
  · exact ⟨r, hr, rfl, .inr ⟨(hr.resolve? t).symm.trans hnone, hrun⟩⟩
  · have hb := (hr.resolve? t).symm.trans hfound
    refine ⟨{ r with codecs := (t, found) :: r.codecs }, ⟨hr.noProviders, fun q hq => ?_⟩, rfl,
      .inl ⟨t, found, ValueType.beq_refl t, hb, hrun⟩⟩
    rcases List.mem_cons.1 hq with rfl | hq
    · exact hb
    · exact hr.codecs q hq

/-- There are no suppliers and no key, and what was found are the codecs known
here, of types that are `known`. -/
structure Plain (known : ValueType → Prop) (r : Registry) : Prop where
  noProviders : r.providers = []
  noKey : r.key = none
  codecs : ∀ p ∈ r.codecs, known p.1 ∧ Codec.builtin? p.1 = some p.2

variable {known : ValueType → Prop} {r : Registry}

theorem Plain.unsupplied (hr : r.Plain known) : r.Unsupplied :=
  ⟨hr.noProviders, fun p hp => (hr.codecs p hp).2⟩

theorem resolve?_plain (hr : r.Plain known) (t : ValueType) :
    r.resolve? t = Codec.builtin? t :=
  hr.unsupplied.resolve? t

/-- The codec that is found for a type is the one that is known for the type,
or for an equal one. -/
theorem run_codec {t : ValueType} {c : Codec} (hr : r.Plain known) (ht : known t)
    (hb : Codec.builtin? t = some c) :
    ∃ u found r', (codec t).run r = (.ok found, r') ∧ r'.Plain known ∧ r'.catalog = r.catalog ∧
      known u ∧ (t == u) = true ∧ Codec.builtin? u = some found := by
  have hresolve := (resolve?_plain hr t).trans hb
  rcases codec_cases t r with ⟨found, hl, hrun⟩ | ⟨hnone, -⟩ | ⟨found, -, hfound, hrun⟩
  · obtain ⟨u, hm, hu⟩ := mem_of_lookup hl
    obtain ⟨hk, hf⟩ := hr.codecs _ hm
    exact ⟨u, found, r, hrun, hr, rfl, hk, hu, hf⟩
  · cases hnone.symm.trans hresolve
  · cases hfound.symm.trans hresolve
    refine ⟨t, c, _, hrun, ⟨hr.noProviders, hr.noKey, ?_⟩, rfl, ht, ValueType.beq_refl t, hb⟩
    intro p hp
    rcases List.mem_cons.1 hp with rfl | hp
    · exact ⟨ht, hb⟩
    · exact hr.codecs p hp

/-- An operation of a plain registry with the same result in each of them. It
finds known codecs and leaves the classes alone. -/
def Gives (known : ValueType → Prop) {α : Type} (m : RegistryM α) (result : Except Failure α) :
    Prop :=
  ∀ r, r.Plain known → ∃ r', m.run r = (result, r') ∧ r'.Plain known ∧ r'.catalog = r.catalog

section

variable {α β : Type}

theorem gives_pure (a : α) : Gives known (pure a) (.ok a) := fun r hr => ⟨r, rfl, hr, rfl⟩

theorem gives_lift (x : Except Failure α) : Gives known (liftM x) x :=
  fun r hr => ⟨r, run_lift x r, hr, rfl⟩

theorem Gives.bind {m : RegistryM α} {x : Except Failure α} {f : α → RegistryM β}
    {g : α → Except Failure β} (hm : Gives known m x)
    (hf : ∀ a, x = .ok a → Gives known (f a) (g a)) : Gives known (m >>= f) (x >>= g) := by
  intro r hr
  obtain ⟨r', hrun, hr', hc⟩ := hm r hr
  cases x with
  | error e => exact ⟨r', run_bind_error hrun, hr', hc⟩
  | ok a =>
    obtain ⟨r'', hrun', hr'', hc'⟩ := hf a rfl r' hr'
    exact ⟨r'', by rw [run_bind_ok hrun, hrun']; rfl, hr'', hc'.trans hc⟩

theorem Gives.ok {m : RegistryM α} {a : α} {f : α → RegistryM β} {y : Except Failure β}
    (hm : Gives known m (.ok a)) (hf : Gives known (f a) y) : Gives known (m >>= f) y := by
  refine hm.bind (g := fun _ => y) fun b hb => ?_
  cases hb
  exact hf

theorem Gives.error {m : RegistryM α} {e : Failure} (hm : Gives known m (.error e))
    (f : α → RegistryM β) : Gives known (m >>= f) (.error e) := by
  intro r hr
  obtain ⟨r', hrun, hr'⟩ := hm r hr
  exact ⟨r', run_bind_error hrun, hr'⟩

end

/-! ## What a value is encoded as -/

theorem storable_ok {x : Number.Double} {w : Value} :
    storable x = .ok w ↔ x.isNaN = false ∧ w = .double x := by
  rw [storable]
  cases x.isNaN with
  | true => simp
  | false => simp [eq_comm]

/-- What a leaf is encoded as. -/
def encodingLeaf : FieldValue → Except Failure Value
  | .bool b => .ok (.bool b)
  | .byte n => .ok (.integer n.toInt64)
  | .short n => .ok (.integer n.toInt64)
  | .int n => .ok (.integer n.toInt64)
  | .long n => .ok (.integer n)
  | .float x => storable x.toDouble
  | .double x => storable x
  | .char c => .ok (.text (String.singleton c))
  | .text s => .ok (.text s)
  | .bytes b => .ok (.bytes b)
  | .objectId id => .ok (.objectId id)
  | .dateTime t => .ok (.dateTime t)
  | .enum e => .ok (.text e.name)
  | .document doc => .ok (.document doc)
  | .foreign f => .error (.noCodec (.foreign f.typeName))
  | .list _ | .entity _ => .ok .null

mutual

/-- What a value is encoded as, whatever the registry. -/
def encoding : FieldValue → Except Failure Value
  | .entity ⟨_, _, fields⟩ => do
    let id ← encodingId fields
    return .document ⟨id ++ (← encodingRest fields)⟩
  | .list items => do return .array (← encodingItems items)
  | v => encodingLeaf v

/-- What items are encoded as. -/
def encodingItems : List FieldValue → Except Failure (List Value)
  | [] => .ok []
  | v :: rest => do
    let first ← encoding v
    return first :: (← encodingItems rest)

/-- What the identity is encoded as. -/
def encodingId : List (String × FieldValue) → Except Failure (List (String × Value))
  | [] => .ok []
  | (k, v) :: rest =>
    if k = Naming.idProperty then do return [(k, ← encoding v)] else encodingId rest

/-- What the properties other than the identity are encoded as. -/
def encodingRest : List (String × FieldValue) → Except Failure (List (String × Value))
  | [] => .ok []
  | (k, v) :: rest =>
    if k = Naming.idProperty then encodingRest rest
    else do
      let first ← encoding v
      return (k, first) :: (← encodingRest rest)

end

/-- What the properties of a record are encoded as. -/
def encodingFields (fields : Fields) : Except Failure Document := do
  let id ← encodingId fields
  return ⟨id ++ (← encodingRest fields)⟩

theorem encoding_leaf {v : FieldValue} (hl : v.isLeaf = true) : encoding v = encodingLeaf v := by
  cases v <;> first | rfl | cases hl

theorem encoding_entity (e : Entity) :
    encoding (.entity e) = (encodingFields e.attributes).map .document := by
  obtain ⟨c, d, fields⟩ := e
  rw [encoding, encodingFields]
  cases encodingId fields with
  | error failure => rfl
  | ok id => cases encodingRest fields <;> rfl

/-- A leaf other than a byte string is encoded, by the codec of any type that equals its
own, whatever the registry. -/
theorem leaf_eq {v : FieldValue} (hl : v.isLeaf = true) (hbytes : ∀ b, v ≠ .bytes b)
    {u : ValueType} {c : Codec} (hu : (v.type == u) = true) (hb : Codec.builtin? u = some c) :
    leaf c v = liftM (encodingLeaf v) := by
  cases u with
  | primitive p =>
    cases hb
    cases v <;> try cases hu
    all_goals
      simp only [FieldValue.type] at hu
      cases p <;> first | rfl | cases hu
  | enum e =>
    cases hb
    cases v with
    | enum symbol =>
      have : symbol.cls.name = e.name := eq_of_beq hu
      rw [leaf, if_pos this]
      rfl
    | _ => cases hu
  | bytes =>
    cases v with
    | bytes b => exact absurd rfl (hbytes b)
    | _ => cases hu
  | foreign name => cases hb
  | _ =>
    cases v <;> first | cases hu | cases hl
    all_goals
      cases hb
      rfl

/-- A byte string is encoded by the codec for images. -/
theorem codec_of_bytes {b : Bytes} {u : ValueType} {c : Codec}
    (hu : ((FieldValue.bytes b).type == u) = true) (hb : Codec.builtin? u = some c) :
    c = .image := by
  cases u with
  | bytes =>
    cases hb
    rfl
  | _ => cases hu

/-- A leaf is encoded by the codec of any type that equals its own. -/
theorem gives_leaf {v : FieldValue} (hl : v.isLeaf = true) {u : ValueType} {c : Codec}
    (hu : (v.type == u) = true) (hb : Codec.builtin? u = some c) :
    Gives known (leaf c v) (encodingLeaf v) := by
  by_cases hbytes : ∃ b, v = .bytes b
  · obtain ⟨b, rfl⟩ := hbytes
    rw [codec_of_bytes hu hb]
    intro r hr
    refine ⟨r, ?_, hr, rfl⟩
    simp only [leaf, image, run_bind, run_getThe, hr.noKey, Image.needsNonce]
    rfl
  · rw [leaf_eq hl (fun b h => hbytes ⟨b, h⟩) hu hb]
    exact gives_lift _

theorem gives_codec_foreign (name : String) :
    Gives known (codec (.foreign name)) (.error (.noCodec (.foreign name))) := by
  intro r hr
  rcases codec_cases (.foreign name) r with ⟨found, hl, -⟩ | ⟨-, hrun⟩ | ⟨found, -, hfound, -⟩
  · obtain ⟨u, hm, hu⟩ := mem_of_lookup hl
    have hb := (hr.codecs _ hm).2
    cases u <;> first | cases hu | cases hb
  · exact ⟨r, hrun, hr, rfl⟩
  · cases (resolve?_plain hr _).symm.trans hfound

/-- What is done with the codec that is found for a type. -/
theorem Gives.lookup {α : Type} {t : ValueType} {c : Codec} {f : Codec → RegistryM α}
    {x : Except Failure α} (ht : known t) (hb : Codec.builtin? t = some c)
    (hf : ∀ u c, known u → (t == u) = true → Codec.builtin? u = some c → Gives known (f c) x) :
    Gives known (Registry.codec t >>= f) x := by
  intro r hr
  obtain ⟨u, found, r', hrun, hr', hc, hk, hu, hfound⟩ := run_codec hr ht hb
  obtain ⟨r'', hrun', hr'', hc'⟩ := hf u found hk hu hfound r' hr'
  exact ⟨r'', by rw [run_bind_ok hrun, hrun'], hr'', hc'.trans hc⟩

/-- What is done with the codec of a value's type. -/
theorem Gives.codec {α : Type} {v : FieldValue} {f : Codec → RegistryM α} {x : Except Failure α}
    (hk : known v.type) (hforeign : ∀ g, v ≠ .foreign g)
    (hf : ∀ u c, (v.type == u) = true → Codec.builtin? u = some c → Gives known (f c) x) :
    Gives known (Registry.codec v.type >>= f) x := by
  obtain ⟨c, hb⟩ : ∃ c, Codec.builtin? v.type = some c := by
    refine Option.isSome_iff_exists.1 (Codec.builtin?_isSome ?_)
    intro name h
    cases v with
    | foreign g => exact hforeign g rfl
    | _ => cases h
  exact .lookup hk hb fun u c _ => hf u c

theorem gives_items {items : List FieldValue} (h : ∀ v ∈ items, Gives known (encode v) (encoding v)) :
    Gives known (encodeItems items) (encodingItems items) := by
  induction items with
  | nil => exact gives_pure []
  | cons v rest ih =>
    refine (h v List.mem_cons_self).bind ?_
    intro a _
    refine (ih fun w hw => h w (List.mem_cons_of_mem v hw)).bind ?_
    exact fun as _ => gives_pure _

theorem gives_id {fields : List (String × FieldValue)}
    (h : ∀ a ∈ fields, Gives known (encode a.2) (encoding a.2)) :
    Gives known (encodeId fields) (encodingId fields) := by
  induction fields with
  | nil => exact gives_pure []
  | cons a rest ih =>
    obtain ⟨k, v⟩ := a
    rw [encodeId, encodingId]
    by_cases hk : k = Naming.idProperty
    · rw [if_pos hk, if_pos hk]
      exact (h (k, v) List.mem_cons_self).bind fun w _ => gives_pure _
    · rw [if_neg hk, if_neg hk]
      exact ih fun b hb => h b (List.mem_cons_of_mem _ hb)

theorem gives_rest {fields : List (String × FieldValue)}
    (h : ∀ a ∈ fields, Gives known (encode a.2) (encoding a.2)) :
    Gives known (encodeRest fields) (encodingRest fields) := by
  induction fields with
  | nil => exact gives_pure []
  | cons a rest ih =>
    obtain ⟨k, v⟩ := a
    have hr := ih fun b hb => h b (List.mem_cons_of_mem _ hb)
    rw [encodeRest, encodingRest]
    by_cases hk : k = Naming.idProperty
    · rw [if_pos hk, if_pos hk]
      exact hr
    · rw [if_neg hk, if_neg hk]
      refine (h (k, v) List.mem_cons_self).bind ?_
      exact fun w _ => hr.bind fun ws _ => gives_pure _

/-- A value with parts of known types is encoded as its encoding. -/
theorem gives_encode {v : FieldValue} (hk : ∀ x : FieldValue, x.PartOf v → known x.type) :
    Gives known (encode v) (encoding v) := by
  induction v using FieldValue.tree with
  | leaf v hl =>
    rw [encoding_leaf hl]
    cases v with
    | foreign f => exact (gives_codec_foreign f.typeName).error _
    | list items => cases hl
    | entity e => cases hl
    | _ =>
      unfold encode
      refine .codec (hk _ (.whole _)) (fun _ h => by cases h) ?_
      exact fun u c hu hb => gives_leaf hl hu hb
  | list items ih =>
    unfold encode
    refine .codec (hk _ (.whole _)) (fun _ h => by cases h) ?_
    intro u c hu hb
    cases u <;> first | cases hu | skip
    cases hb
    refine (gives_items fun v hv => ih v hv ?_).bind fun ws _ => gives_pure _
    exact fun x hx => hk x (.item hv hx)
  | entity e ih =>
    obtain ⟨cls, d, fields⟩ := e
    have hall : ∀ a ∈ fields, Gives known (encode a.2) (encoding a.2) :=
      fun a ha => ih a ha fun x hx => hk x (.property ha hx)
    unfold encode
    refine .codec (hk _ (.whole _)) (fun _ h => by cases h) ?_
    intro u c hu hb
    cases u <;> first | cases hu | skip
    cases hb
    refine (gives_id hall).bind ?_
    exact fun id _ => (gives_rest hall).bind fun rest _ => gives_pure _

/-- So is the document of a record. -/
theorem gives_encodeFields {fields : Fields}
    (hk : ∀ a ∈ fields, ∀ x : FieldValue, x.PartOf a.2 → known x.type) :
    Gives known (encodeFields fields) (encodingFields fields) := by
  have hall : ∀ a ∈ fields, Gives known (encode a.2) (encoding a.2) :=
    fun a ha => gives_encode (hk a ha)
  refine (gives_id hall).bind ?_
  exact fun id _ => (gives_rest hall).bind fun rest _ => gives_pure _

/-- Whatever a registry with the codecs known here answers for a record is what
its properties are encoded as. -/
theorem encodingFields_of_run {E : Type} [Record E] {e : E} {r r' : Registry} (hr : r.Plain known)
    {result : Except Failure Document} (h : (encodeRecord e).run r = (result, r')) :
    encodingFields (Record.fields e) = result := by
  have hany : r.Plain fun _ => True :=
    ⟨hr.noProviders, hr.noKey, fun p hp => ⟨trivial, (hr.codecs p hp).2⟩⟩
  obtain ⟨r'', hgives, -⟩ := gives_encodeFields (fun _ _ _ _ => trivial) r hany
  exact congrArg Prod.fst (hgives.symm.trans h)

end Registry
end Folio
