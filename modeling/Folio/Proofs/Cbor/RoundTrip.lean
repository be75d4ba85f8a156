import Folio.Proofs.Cbor.Reading

/-!
# Round trips

What is written is read back: the canonical form of a value, with nothing else
changed, and not a byte more than was written. Readers allow only so many
bytes and entries, and names in ascending order only, so they refuse what
breaks these rules anywhere; a value in canonical form breaks the second one
when a document has a name twice.

Results:
* `value_spells`: a value without NaN is written, and read back if it is
  legible.
* `decode_encode`: a whole value is read back or refused.
* `read_back`: values written one after another are read back one after
  another, before any further bytes.
-/
namespace Folio

namespace Value

/-- Whether the sizes that stand in the value itself are allowed: the bytes of
texts, byte strings and names, and the entries of arrays and documents. -/
def sized : Value → Bool
  | text s => decide ((Bytes.ofText s).length ≤ Cbor.maxBytes)
  | bytes b => decide (b.length ≤ Cbor.maxBytes)
  | array items => decide (items.length ≤ Cbor.maxEntries)
  | document ⟨fields⟩ =>
    decide (fields.length ≤ Cbor.maxEntries) &&
      fields.all fun f => decide ((Bytes.ofText f.1).length ≤ Cbor.maxBytes)
  | _ => true

/-- Whether readers take the value as it is written. -/
def legible (v : Value) : Bool := v.everywhere fun w => w.sized && w.ordered

theorem sized_canonical (v : Value) : v.canonical.sized = v.sized := by
  cases v with
  | array items => rw [canonical_array, sized, sized, List.length_map]
  | document doc =>
    obtain ⟨fields⟩ := doc
    have names : ∀ p : String → Bool,
        (arrange (fields.map fun f => (f.1, f.2.canonical))).all (fun f => p f.1) =
          fields.all fun f => p f.1 := by
      intro p
      rw [(arrange_perm _).all_eq, List.all_map]
      rfl
    rw [canonical_document, sized, sized, length_arrange, List.length_map,
      names fun k => decide ((Bytes.ofText k).length ≤ Cbor.maxBytes)]
  | _ => rw [canonical_scalar rfl]

/-- The canonical form is legible when the sizes are allowed and no document
has a name twice. -/
theorem legible_canonical (v : Value) :
    v.canonical.legible = (v.everywhere sized && v.everywhere distinct) := by
  rw [legible, everywhere_and, Bool.eq_iff_iff, Bool.and_eq_true, Bool.and_eq_true,
    everywhere_canonical sized_canonical, canonical_ordered]

end Value

namespace Cbor

open Value

/-! ## Values -/

/-- The value is written, and what is written is read back if it is legible.
As many levels suffice as there are bytes. -/
def Written (v : Value) : Prop :=
  ∃ b, write v = .put b ∧ 0 < b.length ∧
    ∀ fuel, b.length ≤ fuel → Spells (value fuel) b v.legible v

theorem andThen_put (a b : Bytes) : (Output.put a).andThen (.put b) = .put (a ++ b) := rfl

/-- A value whose first byte tells how to go on. -/
theorem written_of {v : Value} {first : UInt8} {more : Bytes} (hw : write v = .put (first :: more))
    (hs : ∀ fuel, more.length ≤ fuel →
      Spells (value (fuel + 1)) (first :: more) v.legible v) : Written v := by
  refine ⟨first :: more, hw, Nat.succ_pos _, ?_⟩
  intro fuel hf
  obtain ⟨fuel, rfl⟩ : ∃ k, fuel = k + 1 := ⟨fuel - 1, by simp at hf; omega⟩
  exact hs fuel (by simp at hf; omega)

/-- After the first byte, which tells the kind, its reader goes on. -/
theorem Spells.first {α : Type} {f : UInt8 → Parser α} {first : UInt8} {more : Bytes}
    {good : Bool} {a : α} (h : Spells (f first) more good a) :
    Spells (byte >>= f) (first :: more) good a := by
  have := (byte_spells first).bind h
  rwa [Bool.true_and] at this

theorem written_simple {v : Value} (info : Nat) (hi : info < 32) {more : Bytes}
    (hw : write v = .put (initial .simple info :: more)) (hl : v.legible = true)
    (hs : Spells (simple info) more true v) : Written v := by
  refine written_of hw ?_
  intro fuel _
  rw [hl]
  refine Spells.first ?_
  simp only [ofByte_initial hi, info_initial hi]
  exact hs

theorem written_bool (b : Bool) : Written (.bool b) := by
  cases b with
  | false => exact written_simple 20 (by omega) rfl rfl (spells_pure _)
  | true => exact written_simple 21 (by omega) rfl rfl (spells_pure _)

theorem written_double {d : Number.Double} (hd : d.isNaN = false) : Written (.double d) := by
  refine written_simple 27 (by omega) (by rw [write, if_neg (by simp [hd])]) rfl ?_
  have ht : Spells (take 8) (Bytes.ofNat 8 d.toBits) true (Bytes.ofNat 8 d.toBits) := by
    simpa using take_spells (Bytes.ofNat 8 d.toBits)
  have back : (.ofBits (Bytes.toNat (Bytes.ofNat 8 d.toBits)) : Number.Double) = d := by
    rw [Bytes.toNat_ofNat (d.bits.isLt)]
    exact congrArg Number.Floating.mk (BitVec.ofNat_toNat ..)
  refine ht.check ?_
  rw [back, if_neg (by simp [hd])]
  exact spells_pure _

theorem written_text (s : String) : Written (.text s) := by
  obtain ⟨first, more, he, hk, hs⟩ := text_spells s
  refine written_of (by rw [write, he]) ?_
  intro fuel _
  refine Spells.first ?_
  simp only [hk]
  have := hs.map Value.text
  rwa [show Value.legible (.text s) = _ from Bool.and_true _]

theorem written_bytes (b : Bytes) : Written (.bytes b) := by
  obtain ⟨first, more, he, hk, hs⟩ := string_spells .bytes b
  refine written_of (by rw [write, he]) ?_
  intro fuel _
  refine Spells.first ?_
  simp only [hk]
  have := hs.map Value.bytes
  rwa [show Value.legible (.bytes b) = _ from Bool.and_true _]

/-- An integer is read back from its magnitude, the least one too. -/
theorem integer_spells (n : Int64) :
    ∃ first more, integer n.toInt = first :: more ∧
      ∀ fuel, Spells (value (fuel + 1)) (first :: more) true (.integer n) := by
  have lo := n.le_toInt
  have hi := n.toInt_lt
  by_cases h0 : 0 ≤ n.toInt
  · obtain ⟨first, more, he, hk, hs⟩ := magnitude_spells .unsigned (n := n.toInt.toNat) (by omega)
    refine ⟨first, more, by rw [integer, if_pos h0, he], ?_⟩
    intro fuel
    refine Spells.first ?_
    simp only [hk]
    have back : Int64.ofNat n.toInt.toNat = n := by
      rw [← Int64.ofInt_eq_ofNat, Int.toNat_of_nonneg h0, Int64.ofInt_toInt]
    have := hs.map fun k => Value.integer (Int64.ofNat k)
    rwa [back] at this
  · obtain ⟨first, more, he, hk, hs⟩ :=
      magnitude_spells .negative (n := (-1 - n.toInt).toNat) (by omega)
    refine ⟨first, more, by rw [integer, if_neg h0, he], ?_⟩
    intro fuel
    refine Spells.first ?_
    simp only [hk]
    have back : Int64.ofInt (-1 - ((-1 - n.toInt).toNat : Int)) = n := by
      rw [show (-1 - ((-1 - n.toInt).toNat : Int)) = n.toInt by omega, Int64.ofInt_toInt]
    have := hs.map fun k : Nat => Value.integer (Int64.ofInt (-1 - (k : Int)))
    rwa [back] at this

theorem written_integer (n : Int64) : Written (.integer n) := by
  obtain ⟨first, more, he, hs⟩ := integer_spells n
  exact written_of (by rw [write, he]) fun fuel _ => hs fuel

/-- A tag takes a level of its own, above the item that it is for. -/
theorem written_tagged {v inner : Value} {tag : Nat} {b : Bytes} (ht : tag ≤ maxArgument)
    (hb : 0 < b.length) (hs : ∀ fuel, Spells (value (fuel + 1)) b true inner)
    (hw : write v = .put (head .tag tag ++ b)) (hv : tagged tag inner = pure v)
    (hl : v.legible = true) : Written v := by
  obtain ⟨first, more, he, hk, ha⟩ := head_spells .tag tag
  rw [Nat.min_eq_left ht] at ha
  have hw : write v = .put (first :: (more ++ b)) := by rw [hw, he]; rfl
  refine written_of hw ?_
  intro fuel hf
  obtain ⟨fuel, rfl⟩ : ∃ k, fuel = k + 1 := ⟨fuel - 1, by simp at hf; omega⟩
  rw [hl]
  refine Spells.first ?_
  simp only [hk]
  refine ha.bind (h := true) ((hs fuel).check ?_)
  rw [hv]
  exact spells_pure v

theorem written_objectId (id : ObjectId) : Written (.objectId id) := by
  obtain ⟨first, more, he, hk, hs⟩ := string_spells .bytes id.bytes
  rw [decide_eq_true (by rw [id.length_bytes]; decide)] at hs
  have hb : ∀ fuel, Spells (value (fuel + 1)) (first :: more) true (.bytes id.bytes) := by
    intro fuel
    refine Spells.first ?_
    simp only [hk]
    exact hs.map Value.bytes
  refine written_tagged (b := first :: more) (show objectIdTag ≤ _ by decide) (Nat.succ_pos _) hb
    (by rw [write, he]) ?_ rfl
  rw [tagged, if_pos rfl, ObjectId.ofBytes?_bytes]
  rfl

theorem written_dateTime (t : DateTime) : Written (.dateTime t) := by
  obtain ⟨first, more, he, hs⟩ := integer_spells t.millis
  exact written_tagged (b := first :: more) (show dateTimeTag ≤ _ by decide) (Nat.succ_pos _) hs
    (by rw [write, he]) rfl rfl

theorem written_scalar {v : Value} (hs : v.isScalar = true) (hn : v.hasNaN = false) : Written v := by
  cases v with
  | null => exact written_simple 22 (by omega) rfl rfl (spells_pure _)
  | bool b => exact written_bool b
  | integer n => exact written_integer n
  | double d => exact written_double hn
  | text s => exact written_text s
  | bytes b => exact written_bytes b
  | objectId id => exact written_objectId id
  | dateTime t => exact written_dateTime t
  | array items => cases hs
  | document doc => cases hs

/-! ## Containers -/

/-- Elements one after another. Each has at least one byte, so there are no
more of them than bytes. -/
theorem items_spells {vs : List Value} (h : ∀ v ∈ vs, Written v) :
    ∃ b, writeItems vs = .put b ∧ ∀ fuel, b.length ≤ fuel →
      Spells (items (value fuel) vs.length) b (vs.all legible) vs := by
  induction vs with
  | nil => exact ⟨[], rfl, fun _ _ => spells_pure []⟩
  | cons v rest ih =>
    obtain ⟨b, hb, -, hv⟩ := h v List.mem_cons_self
    obtain ⟨c, hc, hr⟩ := ih fun w hw => h w (List.mem_cons_of_mem v hw)
    refine ⟨b ++ c, by rw [writeItems, hb, hc, andThen_put], ?_⟩
    intro fuel hf
    rw [List.length_append] at hf
    exact (hv fuel (by omega)).bind ((hr fuel (by omega)).map (v :: ·))

theorem legible_array (vs : List Value) :
    Value.legible (.array vs) = (decide (vs.length ≤ maxEntries) && vs.all legible) := by
  rw [legible, everywhere, Bool.eq_iff_iff]
  simp only [Bool.and_eq_true, everywhereItems_iff, List.all_eq_true]
  simp [sized, ordered, legible]

theorem written_array {vs : List Value} (h : ∀ v ∈ vs, Written v) : Written (.array vs) := by
  obtain ⟨first, more, he, hk, hs⟩ := count_spells .array vs.length maxEntries (by decide)
  obtain ⟨b, hb, hv⟩ := items_spells h
  have hw : write (.array vs) = .put (first :: (more ++ b)) := by
    rw [write, hb, andThen_put, he]
    rfl
  refine written_of hw ?_
  intro fuel hf
  rw [legible_array]
  refine Spells.first ?_
  simp only [hk]
  exact hs.bind ((hv fuel (by rw [List.length_append] at hf; omega)).map Value.array)

/-- Whether readers take the fields after a field named `previous`. -/
def legibleFields (previous : Option String) : List (String × Value) → Bool
  | [] => true
  | (k, v) :: rest =>
    decide ((Bytes.ofText k).length ≤ maxBytes) && (previous.all fun p => keyOrder p k = .lt) &&
      v.legible && legibleFields (some k) rest

theorem legibleFields_iff {previous : Option String} {fields : List (String × Value)} :
    legibleFields previous fields = true ↔
      (∀ p ∈ previous, ∀ f ∈ fields, keyOrder p f.1 = .lt) ∧ Ascending fields ∧
        (∀ f ∈ fields, (Bytes.ofText f.1).length ≤ maxBytes) ∧ ∀ f ∈ fields, f.2.legible = true := by
  induction fields generalizing previous with
  | nil => simp [legibleFields]
  | cons f rest ih =>
    obtain ⟨k, v⟩ := f
    simp only [legibleFields, Bool.and_eq_true, decide_eq_true_eq, ih, Option.all_eq_true,
      Option.mem_def, Option.some.injEq, forall_eq', List.mem_cons, forall_eq_or_imp,
      List.pairwise_cons, Ascending]
    constructor
    · rintro ⟨⟨⟨hk, hp⟩, hv⟩, hkr, ha, hs, hl⟩
      exact ⟨fun p h => ⟨hp p h, fun f hf => keyOrder_trans (hp p h) (hkr f hf)⟩, ⟨hkr, ha⟩,
        ⟨hk, hs⟩, hv, hl⟩
    · rintro ⟨hp, ⟨hkr, ha⟩, ⟨hk, hs⟩, hv, hl⟩
      exact ⟨⟨⟨hk, fun p h => (hp p h).1⟩, hv⟩, hkr, ha, hs, hl⟩

/-- A field is its name, checked against the one before it, its value and the
fields after it. -/
theorem Spells.field {item : Parser Value} {n : Nat} {k : String} {v : Value} {b c : Bytes}
    {fs : List (String × Value)} (hv : Spells item b v.legible v)
    (hr : Spells (fields item n (some k)) c (legibleFields (some k) fs) fs)
    (previous : Option String) : Spells (fields item (n + 1) previous) (text k ++ (b ++ c))
      (legibleFields previous ((k, v) :: fs)) ((k, v) :: fs) := by
  obtain ⟨first, more, he, hk, hs⟩ := text_spells k
  rw [he, legibleFields, Bool.and_assoc, Bool.and_assoc]
  refine Spells.first ?_
  simp only [hk, ne_eq, not_true_eq_false, if_false]
  refine hs.bind ?_
  by_cases hp : (previous.all fun p => keyOrder p k = .lt) = true
  · rw [hp, Bool.true_and, if_neg (by cases previous <;> simp_all)]
    exact hv.bind (hr.map ((k, v) :: ·))
  · rw [eq_false_of_ne_true hp, Bool.false_and, if_pos (by cases previous <;> simp_all)]
    exact (spells_throw _ [] ()).stop (b ++ c) _

/-- Fields one after another. -/
theorem fields_spells {fs : List (String × Value)} (h : ∀ f ∈ fs, Written f.2)
    (previous : Option String) :
    ∃ b, writeFields fs = .put b ∧ ∀ fuel, b.length ≤ fuel →
      Spells (fields (value fuel) fs.length previous) b (legibleFields previous fs) fs := by
  induction fs generalizing previous with
  | nil => exact ⟨[], rfl, fun _ _ => spells_pure []⟩
  | cons f rest ih =>
    obtain ⟨k, v⟩ := f
    obtain ⟨b, hb, -, hv⟩ := h (k, v) List.mem_cons_self
    obtain ⟨c, hc, hr⟩ := ih (fun w hw => h w (List.mem_cons_of_mem (k, v) hw)) (some k)
    refine ⟨text k ++ (b ++ c), by
      rw [writeFields, hb, hc, andThen_put, andThen_put, List.append_assoc], ?_⟩
    intro fuel hf
    simp only [List.length_append] at hf
    exact (hv fuel (by omega)).field (hr fuel (by omega)) previous

theorem legible_document (fs : List (String × Value)) :
    Value.legible (.document ⟨fs⟩) = (decide (fs.length ≤ maxEntries) && legibleFields none fs) := by
  rw [legible, Bool.eq_iff_iff, Bool.and_eq_true, legibleFields_iff, everywhere_document]
  simp only [sized, ordered, Bool.and_eq_true, decide_eq_true_eq, List.all_eq_true, Option.mem_def,
    reduceCtorEq, false_implies, implies_true, true_and]
  constructor
  · rintro ⟨⟨⟨hl, hk⟩, ha⟩, hf⟩
    exact ⟨hl, ha, hk, hf⟩
  · rintro ⟨hl, ha, hk, hf⟩
    exact ⟨⟨⟨hl, hk⟩, ha⟩, hf⟩

theorem written_document {fs : List (String × Value)} (h : ∀ f ∈ fs, Written f.2) :
    Written (.document ⟨fs⟩) := by
  obtain ⟨first, more, he, hk, hs⟩ := count_spells .map fs.length maxEntries (by decide)
  obtain ⟨b, hb, hf⟩ := fields_spells h none
  have hw : write (.document ⟨fs⟩) = .put (first :: (more ++ b)) := by
    rw [write, hb, andThen_put, he]
    rfl
  refine written_of hw ?_
  intro fuel hl
  rw [legible_document]
  refine Spells.first ?_
  simp only [hk]
  exact hs.bind ((hf fuel (by rw [List.length_append] at hl; omega)).map fun fs => document ⟨fs⟩)

/-- A value without NaN is written, and read back if it is legible. -/
theorem value_spells {v : Value} (hn : v.hasNaN = false) : Written v := by
  induction v using tree with
  | scalar v hs => exact written_scalar hs hn
  | array vs ih => exact written_array fun v hv => ih v hv (hasNaN_array.1 hn v hv)
  | document fs ih => exact written_document fun f hf => ih f hf (hasNaN_document.1 hn f hf)

/-! ## Not a number -/

theorem stopped_andThen (a b : Output) : (a.andThen b).stopped = (a.stopped || b.stopped) := by
  unfold Output.andThen
  cases h : a.stopped <;> simp [h]

theorem stopped_writeItems {vs : List Value} (h : ∀ v ∈ vs, (write v).stopped = v.hasNaN) :
    (writeItems vs).stopped = hasNaNItems vs := by
  induction vs with
  | nil => rfl
  | cons v rest ih =>
    rw [writeItems, stopped_andThen, hasNaNItems, h v List.mem_cons_self,
      ih fun w hw => h w (List.mem_cons_of_mem v hw)]

theorem stopped_writeFields {fs : List (String × Value)}
    (h : ∀ f ∈ fs, (write f.2).stopped = f.2.hasNaN) :
    (writeFields fs).stopped = hasNaNFields fs := by
  induction fs with
  | nil => rfl
  | cons f rest ih =>
    obtain ⟨k, v⟩ := f
    rw [writeFields, stopped_andThen, stopped_andThen, hasNaNFields, h (k, v) List.mem_cons_self,
      ih fun g hg => h g (List.mem_cons_of_mem (k, v) hg)]
    rfl

/-- Writing is stopped by a NaN, and by nothing else. -/
theorem stopped_write (v : Value) : (write v).stopped = v.hasNaN := by
  induction v using tree with
  | scalar v hs =>
    cases v with
    | bool b => cases b <;> rfl
    | double d =>
      rw [write, hasNaN]
      split
      · next h => exact h.symm
      · next h => exact (eq_false_of_ne_true h).symm
    | array vs => cases hs
    | document doc => cases hs
    | _ => rfl
  | array vs ih =>
    rw [write, stopped_andThen, stopped_writeItems ih, hasNaN]
    rfl
  | document fs ih =>
    rw [write, stopped_andThen, stopped_writeFields ih, hasNaN]
    rfl

/-! ## The bytes of a value -/

theorem bytes_andThen {a b : Output} (h : a.stopped = false) :
    (a.andThen b).bytes = a.bytes ++ b.bytes := by
  rw [Output.andThen, if_neg (by simp [h])]

theorem bytes_writeItems {items : List Value} (h : ∀ v ∈ items, v.hasNaN = false) :
    (writeItems items).bytes = items.flatMap fun v => (write v).bytes := by
  induction items with
  | nil => rfl
  | cons v rest ih =>
    have hv : (write v).stopped = false := (stopped_write v).trans (h v List.mem_cons_self)
    rw [writeItems, bytes_andThen hv, ih fun w hw => h w (List.mem_cons_of_mem _ hw),
      List.flatMap_cons]

theorem bytes_writeFields {fields : List (String × Value)} (h : ∀ f ∈ fields, f.2.hasNaN = false) :
    (writeFields fields).bytes = fields.flatMap fun f => text f.1 ++ (write f.2).bytes := by
  induction fields with
  | nil => rfl
  | cons f rest ih =>
    have hf : (write f.2).stopped = false := (stopped_write f.2).trans (h f List.mem_cons_self)
    have hfield : ((Output.put (text f.1)).andThen (write f.2)).stopped = false := by
      rw [stopped_andThen, hf]
      rfl
    rw [writeFields, bytes_andThen hfield, bytes_andThen rfl,
      ih fun g hg => h g (List.mem_cons_of_mem _ hg), List.flatMap_cons]
    rfl

theorem encode_eq_ok {v : Value} (hn : v.hasNaN = false) :
    encode v = .ok (write v.canonical).bytes := by
  refine encode_eq_ok_iff.2 ?_
  have hs : (emit v).stopped = false := (stopped_write v.canonical).trans (hasNaN_canonical.2 hn)
  exact congrArg (Output.mk _) hs

theorem encode_of_hasNaN {v : Value} (h : v.hasNaN = true) :
    encode v = .error .nanForbidden := by
  have hstopped : (emit v).stopped = true := by
    rw [emit, stopped_write]
    exact Bool.of_not_eq_false fun hc => by simp [hasNaN_canonical.1 hc] at h
  rw [encode, hstopped]
  rfl

theorem hasNaN_of_encode {v : Value} {b : Bytes} (h : encode v = .ok b) : v.hasNaN = false := by
  refine hasNaN_canonical.1 ?_
  rw [← stopped_write, show write v.canonical = ⟨b, false⟩ from encode_eq_ok_iff.1 h]

theorem encode_canonical (v : Value) : encode v.canonical = encode v := by
  rw [encode, encode, emit, emit, canonical_canonical]

theorem encodeDocument_canonical (doc : Document) :
    encodeDocument doc.canonical = encodeDocument doc := by
  obtain ⟨fields⟩ := doc
  exact encode_canonical (.document ⟨fields⟩)

/-! ## Whole values -/

/-- A value without NaN has bytes, and from them, whatever stands behind, its
canonical form is read if it is legible. -/
theorem encode_spells {v : Value} (hn : v.hasNaN = false) :
    ∃ b, encode v = .ok b ∧
      Spells (.mk next) b (v.everywhere sized && v.everywhere distinct) v.canonical := by
  obtain ⟨b, hw, -, hs⟩ := value_spells (hasNaN_canonical.2 hn)
  refine ⟨b, encode_eq_ok_iff.2 hw, ?_⟩
  intro rest
  rw [← legible_canonical]
  exact hs (b ++ rest).length (by rw [List.length_append]; omega) rest

/-- The bytes of a value are read back as its canonical form, or refused if
they pass the sizes allowed or if a document has a name twice. -/
theorem decode_encode {v : Value} (hn : v.hasNaN = false) :
    ∃ b, encode v = .ok b ∧
      if v.everywhere sized && v.everywhere distinct then decode b = .ok v.canonical
      else ∃ fault, decode b = .error fault := by
  obtain ⟨b, he, hs⟩ := encode_spells hn
  refine ⟨b, he, ?_⟩
  have hr := hs []
  rw [List.append_nil] at hr
  split
  · next hg =>
    rw [if_pos hg] at hr
    exact decode_ok.2 hr
  · next hg =>
    rw [if_neg hg] at hr
    obtain ⟨fault, left, hr⟩ := hr
    refine ⟨fault, ?_⟩
    rw [decode, show next b = (.error fault, left) from hr]

/-- What is read back from the bytes of a value is its canonical form, and the
value then has sizes that are allowed and no name twice. -/
theorem decode_of_encode {v w : Value} {b : Bytes} (he : encode v = .ok b) (hd : decode b = .ok w) :
    w = v.canonical ∧ v.everywhere sized = true ∧ v.everywhere distinct = true := by
  obtain ⟨c, hc, hr⟩ := decode_encode (hasNaN_of_encode he)
  rw [he] at hc
  cases hc
  split at hr
  · next hg =>
    rw [hd] at hr
    cases hr
    exact ⟨rfl, Bool.and_eq_true_iff.1 hg⟩
  · obtain ⟨fault, hr⟩ := hr
    rw [hd] at hr
    cases hr

/-- The next `n` values. -/
def several (n : Nat) : Parser (List Value) := items (.mk next) n

theorem several_spells {vs : List Value} (hn : ∀ v ∈ vs, v.hasNaN = false) :
    ∃ bytes, vs.mapM encode = .ok bytes ∧
      Spells (several vs.length) bytes.flatten
        (vs.all fun v => v.everywhere sized && v.everywhere distinct) (vs.map canonical) := by
  induction vs with
  | nil => exact ⟨[], rfl, spells_pure []⟩
  | cons v rest ih =>
    obtain ⟨b, he, hb⟩ := encode_spells (hn v List.mem_cons_self)
    obtain ⟨bytes, hm, hs⟩ := ih fun w hw => hn w (List.mem_cons_of_mem v hw)
    refine ⟨b :: bytes, ?_, hb.bind (hs.map (v.canonical :: ·))⟩
    rw [List.mapM_cons, he, hm]
    rfl

/-- Values without NaN, with sizes that are allowed and no name twice, are
written one after another and read back one after another: each in its sorted
form, and nothing of what stands behind them. -/
theorem several_encode {vs : List Value} (hn : ∀ v ∈ vs, v.hasNaN = false)
    (hd : ∀ v ∈ vs, v.everywhere distinct = true) (hs : ∀ v ∈ vs, v.everywhere sized = true) :
    (∃ bytes, vs.mapM encode = .ok bytes ∧ ∀ rest,
      (several vs.length).run (bytes.flatten ++ rest) = (.ok (vs.map canonical), rest)) ∧
    (∀ v ∈ vs, SortedForm v v.canonical) ∧
    ∀ v ∈ vs, ∃ b, encode v = .ok b ∧ decode b = .ok v.canonical := by
  refine ⟨?_, fun v hv => sortedForm_canonical (hd v hv), ?_⟩
  · obtain ⟨bytes, hm, hb⟩ := several_spells hn
    refine ⟨bytes, hm, ?_⟩
    have good : (vs.all fun v => v.everywhere sized && v.everywhere distinct) = true :=
      List.all_eq_true.2 fun v hv => by rw [hs v hv, hd v hv]; rfl
    rw [good] at hb
    exact hb.ok
  · intro v hv
    obtain ⟨b, he, hb⟩ := decode_encode (hn v hv)
    rw [if_pos (by rw [hs v hv, hd v hv]; rfl)] at hb
    exact ⟨b, he, hb⟩

/-- The least integer, and a document whose names and nested names must be
sorted, before any further bytes. -/
theorem several_encode_unsorted :
    ∃ bytes, [Value.integer Int64.minValue, .document ⟨[("bb", .null), ("c", .array [.document
      ⟨[("z", .double (.ofBits 0x8000000000000000)), ("y", .text "é")]⟩])]⟩].mapM encode = .ok bytes ∧
    ∀ rest, (several 2).run (bytes.flatten ++ rest) =
      (.ok [.integer Int64.minValue, .document ⟨[("c", .array [.document
        ⟨[("y", .text "é"), ("z", .double (.ofBits 0x8000000000000000))]⟩]), ("bb", .null)]⟩], rest) :=
  (several_encode (by decide +kernel) (by decide +kernel) (by decide +kernel)).1

end Cbor
end Folio
