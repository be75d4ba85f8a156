import Folio.Proofs.Registry.Reload

/-!
# What the encoder takes

A NaN is kept out twice. Setting a property goes through the value, its items and its
documents; records in it were looked at when they were set themselves. The encoder goes
through the document that a record has become: floats are wide by then, lists and records
are arrays and documents, and images may be sealed. Nothing that got past the first
guard is refused by the second.

Results:
* `Cbor.encode_error_iff`: the encoder stops at a NaN, wherever it stands.
* `Reachable.number`: what stands in a reachable entity, at any depth, is no NaN.
* `yields_encode`: what a value without NaN is encoded as has none, and a value from
  outside is all that has no codec.
* `encode_reachable`: the document of a reachable entity is encoded.
-/
namespace Folio

namespace Value

/-- The first value stands in the second one, at any depth. -/
inductive PartOf : Value → Value → Prop
  | whole (v : Value) : PartOf v v
  | item {x v : Value} {items : List Value} : v ∈ items → PartOf x v → PartOf x (.array items)
  | field {x : Value} {f : String × Value} {fields : List (String × Value)} :
    f ∈ fields → PartOf x f.2 → PartOf x (.document ⟨fields⟩)

theorem hasNaN_of_partOf {x v : Value} (h : x.PartOf v) (hv : v.hasNaN = false) :
    x.hasNaN = false := by
  induction h with
  | whole => exact hv
  | item hm _ ih => exact ih (hasNaN_array.1 hv _ hm)
  | field hm _ ih => exact ih (hasNaN_document.1 hv _ hm)

/-- What is said to hold a NaN does. -/
theorem hasNaN_iff {v : Value} :
    v.hasNaN = true ↔ ∃ d, d.isNaN = true ∧ (double d).PartOf v := by
  refine ⟨fun h => ?_, fun ⟨d, hd, hpart⟩ => ?_⟩
  · induction v using tree with
    | scalar v hs =>
      cases v with
      | double d => exact ⟨d, h, .whole _⟩
      | _ => first | cases h | cases hs
    | array items ih =>
      by_contra hnone
      refine Bool.false_ne_true (Eq.trans (Eq.symm ?_) h)
      refine hasNaN_array.2 fun x hx => eq_false_of_ne_true fun hnan => hnone ?_
      obtain ⟨d, hd, hpart⟩ := ih x hx hnan
      exact ⟨d, hd, .item hx hpart⟩
    | document fields ih =>
      by_contra hnone
      refine Bool.false_ne_true (Eq.trans (Eq.symm ?_) h)
      refine hasNaN_document.2 fun f hf => eq_false_of_ne_true fun hnan => hnone ?_
      obtain ⟨d, hd, hpart⟩ := ih f hf hnan
      exact ⟨d, hd, .field hf hpart⟩
  · refine Bool.of_not_eq_false fun hv => ?_
    have hpart' : (double d).hasNaN = false := hasNaN_of_partOf hpart hv
    rw [show (double d).hasNaN = d.isNaN from rfl, hd] at hpart'
    cases hpart'

end Value

namespace Cbor

/-- The encoder stops if and only if there is a NaN, and always says so. -/
theorem encode_error_iff {v : Value} {fault : DataFault} :
    encode v = .error fault ↔ fault = .nanForbidden ∧ v.hasNaN = true := by
  cases hn : v.hasNaN with
  | true =>
    rw [encode_of_hasNaN hn, Except.error.injEq, and_iff_left rfl]
    exact eq_comm
  | false =>
    rw [encode_eq_ok hn]
    exact iff_of_false (fun h => by cases h) fun h => by cases h.2

end Cbor

/-! ## What stands in a reachable entity -/

namespace Entity

variable {s : Schema} {known : ClassRef → Prop}

/-- Values of properties are looked at when they are set, and so were those of the
entities in them. -/
theorem Reachable.number {e : Entity} (he : e.Reachable s known) {a : String × FieldValue}
    (ha : a ∈ e.attributes) {x : FieldValue} (hx : x.PartOf a.2) : x.hasNaN = false := by
  have hguarded : ∀ n : Entity, n.Reachable s known → ∀ b ∈ n.attributes, b.2.hasNaN = false := by
    intro n hn b hb
    obtain ⟨t, -, hkept⟩ := hn.sound.kept b hb
    exact hkept.number
  suffices h : ∀ v : FieldValue, x.PartOf v → v.hasNaN = false →
      (∀ n, (FieldValue.entity n).PartOf v → n.Reachable s known) → x.hasNaN = false from
    h a.2 hx (hguarded e he a ha) fun n hn => he.nested a ha n hn
  intro v hx
  induction hx with
  | whole => exact fun hv _ => hv
  | item hm _ ih =>
    exact fun hv hnested => ih (FieldValue.hasNaN_list.1 hv _ hm) fun n hn =>
      hnested n (.item hm hn)
  | property hm _ ih =>
    exact fun _ hnested => ih (hguarded _ (hnested _ (.whole _)) _ hm) fun n hn =>
      hnested n (.property hm hn)

end Entity

namespace Registry

/-! ## Registries without suppliers -/

variable {α β : Type} {alien : Foreign → Prop} {P : α → Prop} {Q : β → Prop}

/-- Without suppliers the operation comes to a result of this kind, or it fails for want
of a codec for one of the values from outside. -/
def Yields (alien : Foreign → Prop) (P : α → Prop) (m : RegistryM α) : Prop :=
  ∀ r : Registry, r.Unsupplied → ∃ r', r'.Unsupplied ∧
    ((∃ a, P a ∧ m.run r = (.ok a, r')) ∨
      ∃ g, alien g ∧ m.run r = (.error (.noCodec (.foreign g.typeName)), r'))

theorem yields_pure {a : α} (h : P a) : Yields alien P (pure a) :=
  fun r hr => ⟨r, hr, .inl ⟨a, h, rfl⟩⟩

theorem yields_lift {a : α} {x : Except Failure α} (hx : x = .ok a) (h : P a) :
    Yields alien P (liftM x) :=
  fun r hr => ⟨r, hr, .inl ⟨a, h, by rw [run_lift, hx]⟩⟩

theorem Yields.bind {m : RegistryM α} {f : α → RegistryM β} (hm : Yields alien P m)
    (hf : ∀ a, P a → Yields alien Q (f a)) : Yields alien Q (m >>= f) := by
  intro r hr
  obtain ⟨r', hr', ⟨a, ha, hrun⟩ | ⟨g, hg, hrun⟩⟩ := hm r hr
  · rw [run_bind_ok hrun]
    exact hf a ha r' hr'
  · exact ⟨r', hr', .inr ⟨g, hg, run_bind_error hrun⟩⟩

/-- What is done with the codec of a value's type; only a value from outside has none. -/
theorem Yields.codec {v : FieldValue} {f : Codec → RegistryM α}
    (halien : ∀ g, v = .foreign g → alien g)
    (hf : ∀ u c, (v.type == u) = true → Codec.builtin? u = some c → Yields alien P (f c)) :
    Yields alien P (Registry.codec v.type >>= f) := by
  intro r hr
  obtain ⟨r', hr', -, ⟨u, c, hu, hb, hrun⟩ | ⟨hnone, hrun⟩⟩ := hr.run_codec v.type
  · rw [run_bind_ok hrun]
    exact hf u c hu hb r' hr'
  · cases v with
    | foreign g => exact ⟨r', hr', .inr ⟨g, halien g rfl, run_bind_error hrun⟩⟩
    | _ => cases hnone

/-! ## What is encoded -/

/-- A byte string stays one, sealed or not. -/
theorem yields_image (payload : Bytes) :
    Yields alien (fun w => w.hasNaN = false) (image payload) := by
  intro r hr
  unfold image
  rw [run_bind_ok (run_getThe r)]
  dsimp only
  split
  · exact ⟨{ r with sealed := r.sealed + 1 }, ⟨hr.noProviders, hr.codecs⟩, .inl ⟨_, rfl, rfl⟩⟩
  · exact ⟨r, hr, .inl ⟨_, rfl, rfl⟩⟩

theorem yields_leaf {v : FieldValue} (hl : v.isLeaf = true) (hn : v.hasNaN = false)
    {u : ValueType} {c : Codec} (hu : (v.type == u) = true) (hb : Codec.builtin? u = some c) :
    Yields alien (fun w => w.hasNaN = false) (leaf c v) := by
  by_cases hbytes : ∃ b, v = .bytes b
  · obtain ⟨b, rfl⟩ := hbytes
    rw [codec_of_bytes hu hb]
    exact yields_image b
  · have hforeign : ∀ g, v ≠ .foreign g := by
      rintro g rfl
      cases u with
      | foreign name => cases hb
      | _ => cases hu
    obtain ⟨w, hw, hnumber⟩ := encodingLeaf_number hl hforeign hn
    rw [leaf_eq hl (fun b h => hbytes ⟨b, h⟩) hu hb]
    exact yields_lift hw hnumber

theorem yields_items {items : List FieldValue}
    (h : ∀ v ∈ items, Yields alien (fun w => w.hasNaN = false) (encode v)) :
    Yields alien (fun ws => ∀ w ∈ ws, w.hasNaN = false) (encodeItems items) := by
  induction items with
  | nil => exact yields_pure fun w hw => absurd hw List.not_mem_nil
  | cons v rest ih =>
    refine (h v List.mem_cons_self).bind fun w hw => ?_
    refine (ih fun x hx => h x (List.mem_cons_of_mem v hx)).bind fun ws hws => ?_
    exact yields_pure (List.forall_mem_cons.2 ⟨hw, hws⟩)

theorem yields_id {fields : Fields}
    (h : ∀ a ∈ fields, Yields alien (fun w => w.hasNaN = false) (encode a.2)) :
    Yields alien (fun fs => ∀ f ∈ fs, f.2.hasNaN = false) (encodeId fields) := by
  induction fields with
  | nil => exact yields_pure fun f hf => absurd hf List.not_mem_nil
  | cons a rest ih =>
    obtain ⟨k, v⟩ := a
    rw [encodeId]
    split
    · refine (h (k, v) List.mem_cons_self).bind fun w hw => ?_
      exact yields_pure (List.forall_mem_singleton.2 hw)
    · exact ih fun b hb => h b (List.mem_cons_of_mem _ hb)

theorem yields_rest {fields : Fields}
    (h : ∀ a ∈ fields, Yields alien (fun w => w.hasNaN = false) (encode a.2)) :
    Yields alien (fun fs => ∀ f ∈ fs, f.2.hasNaN = false) (encodeRest fields) := by
  induction fields with
  | nil => exact yields_pure fun f hf => absurd hf List.not_mem_nil
  | cons a rest ih =>
    obtain ⟨k, v⟩ := a
    have hrest := ih fun b hb => h b (List.mem_cons_of_mem _ hb)
    rw [encodeRest]
    split
    · exact hrest
    · refine (h (k, v) List.mem_cons_self).bind fun w hw => ?_
      exact hrest.bind fun fs hfs => yields_pure (List.forall_mem_cons.2 ⟨hw, hfs⟩)

/-- What a value without NaN is encoded as has none. -/
theorem yields_encode {v : FieldValue} (hn : ∀ x : FieldValue, x.PartOf v → x.hasNaN = false)
    (halien : ∀ g, (FieldValue.foreign g).PartOf v → alien g) :
    Yields alien (fun w => w.hasNaN = false) (encode v) := by
  induction v using FieldValue.tree with
  | leaf v hl =>
    have hencode : encode v = Registry.codec v.type >>= fun c => leaf c v := by
      cases v <;> first | rfl | cases hl
    rw [hencode]
    refine .codec (fun g hg => halien g (hg ▸ .whole _)) fun u c hu hb => ?_
    exact yields_leaf hl (hn v (.whole v)) hu hb
  | list items ih =>
    unfold encode
    refine .codec (v := .list items) (fun g hg => by cases hg) fun u c hu hb => ?_
    cases u <;> first | cases hu | skip
    cases hb
    refine (yields_items fun v hv => ih v hv (fun x hx => hn x (.item hv hx))
      fun g hg => halien g (.item hv hg)).bind fun ws hws => ?_
    exact yields_pure (Value.hasNaN_array.2 hws)
  | entity e ih =>
    obtain ⟨cls, d, fields⟩ := e
    have hall : ∀ a ∈ fields, Yields alien (fun w => w.hasNaN = false) (encode a.2) :=
      fun a ha => ih a ha (fun x hx => hn x (.property ha hx)) fun g hg =>
        halien g (.property ha hg)
    unfold encode
    refine .codec (v := .entity ⟨cls, d, fields⟩) (fun g hg => by cases hg) fun u c hu hb => ?_
    cases u <;> first | cases hu | skip
    cases hb
    refine (yields_id hall).bind fun id hid => (yields_rest hall).bind fun rest hrest => ?_
    exact yields_pure (Value.hasNaN_document.2 (List.forall_mem_append.2 ⟨hid, hrest⟩))

/-- So has the document of a record. -/
theorem yields_encodeFields {fields : Fields}
    (hn : ∀ a ∈ fields, ∀ x : FieldValue, x.PartOf a.2 → x.hasNaN = false) :
    Yields (fun g => ∃ a ∈ fields, (FieldValue.foreign g).PartOf a.2)
      (fun doc => (Value.document doc).hasNaN = false) (encodeFields fields) := by
  have hall : ∀ a ∈ fields, Yields (fun g => ∃ a ∈ fields, (FieldValue.foreign g).PartOf a.2)
      (fun w => w.hasNaN = false) (encode a.2) :=
    fun a ha => yields_encode (hn a ha) fun g hg => ⟨a, ha, hg⟩
  refine (yields_id hall).bind fun id hid => (yields_rest hall).bind fun rest hrest => ?_
  exact yields_pure (Value.hasNaN_document.2 (List.forall_mem_append.2 ⟨hid, hrest⟩))

/-- A value is refused by the encoder, and as such, if and only if a NaN stands in it at
some depth. None stands in the document that a reachable entity becomes without
suppliers of codecs, with a key or without: whenever there is one it has bytes, and there
is none only for want of a codec for a value from outside. -/
theorem encode_reachable :
    (∀ v : Value, (∀ fault, Cbor.encode v = .error fault → fault = .nanForbidden) ∧
      ((∃ fault, Cbor.encode v = .error fault) ↔
        ∃ d, d.isNaN = true ∧ (Value.double d).PartOf v)) ∧
    ∀ {s : Schema} {known : ClassRef → Prop} {e : Entity}, e.Reachable s known →
      ∀ {r : Registry}, r.Unsupplied →
        (∀ doc r', (encodeRecord e).run r = (.ok doc, r') →
          ∃ bytes, Cbor.encodeDocument doc = .ok bytes) ∧
        ∀ failure r', (encodeRecord e).run r = (.error failure, r') →
          ∃ a ∈ e.attributes, ∃ g, (FieldValue.foreign g).PartOf a.2 ∧
            failure = .noCodec (.foreign g.typeName) := by
  refine ⟨fun v => ⟨fun fault h => (Cbor.encode_error_iff.1 h).1, ?_⟩, ?_⟩
  · rw [← Value.hasNaN_iff]
    exact ⟨fun ⟨fault, h⟩ => (Cbor.encode_error_iff.1 h).2,
      fun h => ⟨_, Cbor.encode_error_iff.2 ⟨rfl, h⟩⟩⟩
  · intro s known e he r hr
    have hyields := yields_encodeFields (fun a ha x hx => he.number ha hx) r hr
    obtain ⟨t, -, ⟨doc, hdoc, hrun⟩ | ⟨g, ⟨a, ha, hg⟩, hrun⟩⟩ := hyields
    · refine ⟨fun doc' r' h => ?_, fun failure r' h => by cases hrun.symm.trans h⟩
      cases hrun.symm.trans h
      exact ⟨_, Cbor.encode_eq_ok hdoc⟩
    · refine ⟨fun doc' r' h => (by cases hrun.symm.trans h), fun failure r' h => ?_⟩
      cases hrun.symm.trans h
      exact ⟨a, ha, g, hg, rfl⟩

/-! ## A parcel -/

/-- Of a parcel there are numbers, a document and a picture. -/
def contents : FieldValue :=
  .list [.double (.ofParts false 1), .document ⟨[("weights", .array [.double (.ofParts true 2)])]⟩,
    .bytes [1, 2, 3]]

/-- An order with a parcel, which its class says nothing of. -/
def parcel : Entity := { order with attributes := Keyed.insert "parcel" contents order.attributes }

/-- Nothing in the parcel is an entity or from outside. -/
theorem partOf_contents {x : FieldValue} (h : x.PartOf contents) :
    (∀ n, x ≠ .entity n) ∧ ∀ g, x ≠ .foreign g := by
  cases h with
  | whole => exact ⟨fun n h => (by cases h), fun g h => (by cases h)⟩
  | item hv hx =>
    simp only [List.mem_cons, List.not_mem_nil, or_false] at hv
    rcases hv with rfl | rfl | rfl
    all_goals
      rw [FieldValue.eq_of_partOf_leaf rfl hx]
      exact ⟨fun n h => (by cases h), fun g h => (by cases h)⟩

theorem reachable_parcel : parcel.Reachable shop shopNames.Knows := by
  have htype : order.descriptor.typeOf "parcel" = .any := by
    rw [order, Descriptor.ofClass, methods_order]
    decide +kernel
  have hkept : contents.Kept shop .any := ⟨rfl, by decide, rfl⟩
  have hset : order.set shop "parcel" (some contents) = .ok parcel := by
    rw [Entity.set, htype]
    exact Entity.write_kept hkept order "parcel"
  refine .set reachable_order ?_ hset
  rintro v ⟨⟩ n hn
  exact absurd rfl ((partOf_contents hn).1 n)

theorem not_foreign_parcel {a : String × FieldValue} (ha : a ∈ parcel.attributes) (g : Foreign) :
    ¬ (FieldValue.foreign g).PartOf a.2 := by
  intro hg
  have hinsert : a ∈ Keyed.insert "parcel" contents order.attributes := ha
  rcases (Keyed.mem_insert reachable_order.sound.sorted).1 hinsert with rfl | ⟨ha, -⟩
  · exact absurd rfl ((partOf_contents hg).2 g)
  simp only [order, List.mem_cons, List.not_mem_nil, or_false] at ha
  rcases ha with rfl | rfl | rfl
  · cases FieldValue.eq_of_partOf_leaf rfl hg
  · cases hg with
    | item hv hg =>
      rw [List.mem_singleton.1 hv] at hg
      cases hg with
      | property hb hg =>
        rw [List.mem_singleton.1 hb] at hg
        cases FieldValue.eq_of_partOf_leaf rfl hg
  · cases FieldValue.eq_of_partOf_leaf rfl hg

/-- A registry with a key that has looked one codec up. -/
def packing : Registry :=
  ⟨⟨shop, [], []⟩, some ⟨List.replicate 32 7, rfl⟩, [], [(.text, .text)], 0⟩

/-- An array with a NaN is refused; the parcel is encoded. -/
theorem encode_parcel :
    Cbor.encode (.array [.integer 1, .double Number.Floating.nan]) = .error .nanForbidden ∧
    parcel.Reachable shop shopNames.Knows ∧ packing.Unsupplied ∧
    ∃ doc r' bytes, (encodeRecord parcel).run packing = (.ok doc, r') ∧
      Cbor.encodeDocument doc = .ok bytes := by
  obtain ⟨hvalues, hrecords⟩ := encode_reachable
  have hpacking : packing.Unsupplied := by
    refine ⟨rfl, fun p hp => ?_⟩
    rw [List.mem_singleton.1 hp]
    rfl
  refine ⟨?_, reachable_parcel, hpacking, ?_⟩
  · obtain ⟨fault, h⟩ := (hvalues (.array [.integer 1, .double Number.Floating.nan])).2.2
      ⟨Number.Floating.nan, by decide, .item (List.mem_cons_of_mem _ List.mem_cons_self) (.whole _)⟩
    rw [h, (hvalues _).1 fault h]
  · obtain ⟨hdoc, hfailure⟩ := hrecords reachable_parcel hpacking
    rcases hrun : (encodeRecord parcel).run packing with ⟨failure | doc, r'⟩
    · obtain ⟨a, ha, g, hg, -⟩ := hfailure failure r' hrun
      exact absurd hg (not_foreign_parcel ha g)
    · obtain ⟨bytes, hbytes⟩ := hdoc doc r' hrun
      exact ⟨doc, r', bytes, rfl, hbytes⟩

end Registry
end Folio
