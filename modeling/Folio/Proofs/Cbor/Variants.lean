import Folio.Proofs.Cbor.RoundTrip
import Folio.Proofs.Cbor.Taking

/-!
# Which bytes are read

Readers pass over the heads of tags without a meaning here, and take a second
byte for null. `Variant` says which byte strings come of the bytes of a value in
this way, and these are exactly the ones that the value is read from.

Results:
* `Variant.spells`: every variant of a value's bytes is read as the value.
* `value_takes`: whatever is read was a variant of the bytes of the value.
* `decode_iff`: the byte strings that are read as a value, and all others.
* `encode_of_decode`: what is read can be written, in bytes that are read as
  the same value.
-/
namespace Folio.Cbor

open Value

/-! ## Variants -/

mutual

/-- `b` is `plain`, the bytes of the value, apart from heads of tags that have
no meaning, before any values, and from the byte of any nulls. -/
inductive Variant : (v : Value) → (plain b : Bytes) → Prop
  | same {v : Value} {b : Bytes} (h : write v = .put b) : Variant v b b
  | null : Variant .null [initial .simple 22] [initial .simple 23]
  | tag {v : Value} {plain b : Bytes} {t : Nat} (most : t ≤ maxArgument) (hid : t ≠ objectIdTag)
      (hdate : t ≠ dateTimeTag) (h : Variant v plain b) : Variant v plain (head .tag t ++ b)
  | objectId {id : ObjectId} {plain b : Bytes} (h : Variant (.bytes id.bytes) plain b) :
      Variant (.objectId id) (head .tag objectIdTag ++ plain) (head .tag objectIdTag ++ b)
  | dateTime {t : DateTime} {plain b : Bytes} (h : Variant (.integer t.millis) plain b) :
      Variant (.dateTime t) (head .tag dateTimeTag ++ plain) (head .tag dateTimeTag ++ b)
  | array {vs : List Value} {plain b : Bytes} (h : VariantItems vs plain b) :
      Variant (.array vs) (head .array vs.length ++ plain) (head .array vs.length ++ b)
  | document {fs : List (String × Value)} {plain b : Bytes} (h : VariantFields fs plain b) :
      Variant (.document ⟨fs⟩) (head .map fs.length ++ plain) (head .map fs.length ++ b)

/-- The same for elements one after another. -/
inductive VariantItems : (vs : List Value) → (plain b : Bytes) → Prop
  | nil : VariantItems [] [] []
  | cons {v : Value} {vs : List Value} {plain b others c : Bytes} (h : Variant v plain b)
      (rest : VariantItems vs others c) : VariantItems (v :: vs) (plain ++ others) (b ++ c)

/-- The same for fields one after another, whose names are as they are. -/
inductive VariantFields : (fs : List (String × Value)) → (plain b : Bytes) → Prop
  | nil : VariantFields [] [] []
  | cons {k : String} {v : Value} {fs : List (String × Value)} {plain b others c : Bytes}
      (h : Variant v plain b) (rest : VariantFields fs others c) :
      VariantFields ((k, v) :: fs) (text k ++ plain ++ others) (text k ++ b ++ c)

end

/-! ## The bytes that a variant is of -/

mutual

theorem Variant.write_eq {v : Value} {plain b : Bytes} : Variant v plain b → write v = .put plain
  | .same h => h
  | .null => rfl
  | .tag _ _ _ h => h.write_eq
  | .objectId h => by
    rw [write, show string .bytes _ = _ from congrArg Output.bytes h.write_eq]
    rfl
  | .dateTime h => by
    rw [write, show integer _ = _ from congrArg Output.bytes h.write_eq]
    rfl
  | .array h => by rw [write, h.write_eq, andThen_put]
  | .document h => by rw [write, h.write_eq, andThen_put]

theorem VariantItems.write_eq {vs : List Value} {plain b : Bytes} :
    VariantItems vs plain b → writeItems vs = .put plain
  | .nil => rfl
  | .cons h rest => by rw [writeItems, h.write_eq, rest.write_eq, andThen_put]

theorem VariantFields.write_eq {fs : List (String × Value)} {plain b : Bytes} :
    VariantFields fs plain b → writeFields fs = .put plain
  | .nil => rfl
  | .cons h rest => by rw [writeFields, h.write_eq, rest.write_eq, andThen_put, andThen_put]

end

theorem Variant.hasNaN {v : Value} {plain b : Bytes} (h : Variant v plain b) : v.hasNaN = false := by
  rw [← stopped_write, h.write_eq]
  rfl

/-! ## Variants are read -/

/-- The value is read from the bytes if it is legible. As many levels suffice as
there are bytes. -/
def ReadFrom (v : Value) (b : Bytes) : Prop :=
  ∀ fuel, b.length ≤ fuel → Spells (value fuel) b v.legible v

/-- An item is read by what comes after its first byte, which tells the kind. -/
theorem readFrom_of {v : Value} {kind : Kind} {n : Nat} {b : Bytes}
    (h : ∀ first more, head kind n = first :: more → ∀ fuel, b.length ≤ fuel →
      Spells (value (fuel + 1)) (first :: (more ++ b)) v.legible v) : ReadFrom v (head kind n ++ b) := by
  intro fuel hf
  have hpos := head_length_pos kind n
  rcases hhead : head kind n with - | ⟨first, more⟩
  · rw [hhead] at hpos
    cases hpos
  · obtain ⟨fuel, rfl⟩ : ∃ k, fuel = k + 1 := ⟨fuel - 1, by simp [hhead] at hf; omega⟩
    refine h first more hhead fuel ?_
    simp [hhead] at hf
    omega

theorem readFrom_same {v : Value} {b : Bytes} (h : write v = .put b) : ReadFrom v b := by
  have hn : v.hasNaN = false := by
    rw [← stopped_write, h]
    rfl
  obtain ⟨c, hw, -, hs⟩ := value_spells hn
  cases hw.symm.trans h
  exact hs

theorem readFrom_null : ReadFrom .null [initial .simple 23] := by
  intro fuel hf
  obtain ⟨fuel, rfl⟩ : ∃ k, fuel = k + 1 := ⟨fuel - 1, by simp at hf; omega⟩
  exact fun _ => rfl

/-- A tag is read, then the item that it is for. -/
theorem readFrom_tagged {v inner : Value} {t : Nat} {b : Bytes} (most : t ≤ maxArgument)
    (hv : tagged t inner = pure v) (hl : inner.legible = v.legible) (h : ReadFrom inner b) :
    ReadFrom v (head .tag t ++ b) := by
  refine readFrom_of fun first more he fuel hf => ?_
  obtain ⟨_, _, he', hk, ha⟩ := head_spells .tag t
  cases he.symm.trans he'
  rw [Nat.min_eq_left most] at ha
  refine Spells.first ?_
  simp only [hk]
  have := (h fuel hf).bind (f := tagged t) (hv ▸ spells_pure v)
  rw [List.append_nil, Bool.and_true, hl] at this
  exact ha.bind this

theorem tagged_idle {t : Nat} (hid : t ≠ objectIdTag) (hdate : t ≠ dateTimeTag) (v : Value) :
    tagged t v = pure v := by
  unfold tagged
  rw [if_neg hid, if_neg hdate]

theorem tagged_objectId (id : ObjectId) :
    tagged objectIdTag (.bytes id.bytes) = pure (.objectId id) := by
  rw [tagged, if_pos rfl, ObjectId.ofBytes?_bytes]
  rfl

theorem tagged_dateTime (t : DateTime) :
    tagged dateTimeTag (.integer t.millis) = pure (.dateTime t) := rfl

theorem legible_idBytes (id : ObjectId) : (Value.bytes id.bytes).legible = true := by
  have h : id.bytes.length ≤ maxBytes := by
    rw [id.length_bytes]
    decide
  rw [legible, everywhere_scalar rfl, sized, decide_eq_true h]
  rfl

theorem readFrom_array {vs : List Value} {b : Bytes} (h : ∀ fuel, b.length ≤ fuel →
    Spells (items (value fuel) vs.length) b (vs.all legible) vs) :
    ReadFrom (.array vs) (head .array vs.length ++ b) := by
  refine readFrom_of fun first more he fuel hf => ?_
  obtain ⟨_, _, he', hk, hs⟩ := count_spells .array vs.length maxEntries (by decide)
  cases he.symm.trans he'
  rw [legible_array]
  refine Spells.first ?_
  simp only [hk]
  exact hs.bind ((h fuel hf).map Value.array)

theorem readFrom_document {fs : List (String × Value)} {b : Bytes} (h : ∀ fuel, b.length ≤ fuel →
    Spells (fields (value fuel) fs.length none) b (legibleFields none fs) fs) :
    ReadFrom (.document ⟨fs⟩) (head .map fs.length ++ b) := by
  refine readFrom_of fun first more he fuel hf => ?_
  obtain ⟨_, _, he', hk, hs⟩ := count_spells .map fs.length maxEntries (by decide)
  cases he.symm.trans he'
  rw [legible_document]
  refine Spells.first ?_
  simp only [hk]
  exact hs.bind ((h fuel hf).map fun fs => Value.document ⟨fs⟩)

mutual

/-- Every variant of a value's bytes is read as the value, if it is legible. -/
theorem Variant.spells {v : Value} {plain b : Bytes} : Variant v plain b → ReadFrom v b
  | .same h => readFrom_same h
  | .null => readFrom_null
  | .tag most hid hdate h => readFrom_tagged most (tagged_idle hid hdate _) rfl h.spells
  | .objectId h =>
    readFrom_tagged (by decide) (tagged_objectId _) ((legible_idBytes _).trans rfl) h.spells
  | .dateTime h => readFrom_tagged (by decide) (tagged_dateTime _) rfl h.spells
  | .array h => readFrom_array h.spells
  | .document h => readFrom_document fun fuel hf => h.spells fuel hf none

theorem VariantItems.spells {vs : List Value} {plain b : Bytes} : VariantItems vs plain b →
    ∀ fuel, b.length ≤ fuel → Spells (items (value fuel) vs.length) b (vs.all legible) vs
  | .nil, _, _ => spells_pure []
  | .cons h rest, fuel, hf => by
    rw [List.length_append] at hf
    exact (h.spells fuel (by omega)).bind ((rest.spells fuel (by omega)).map (_ :: ·))

theorem VariantFields.spells {fs : List (String × Value)} {plain b : Bytes} :
    VariantFields fs plain b → ∀ fuel, b.length ≤ fuel → ∀ previous,
      Spells (fields (value fuel) fs.length previous) b (legibleFields previous fs) fs
  | .nil, _, _, _ => spells_pure []
  | .cons h rest, fuel, hf, previous => by
    simp only [List.length_append] at hf
    rw [List.append_assoc]
    exact (h.spells fuel (by omega)).field (rest.spells fuel (by omega) _) previous

end

/-! ## What is read are variants -/

/-- A legible value, and a variant of its bytes. -/
def Grammar (b : Bytes) (v : Value) : Prop := v.legible = true ∧ ∃ plain, Variant v plain b

theorem grammar_same {v : Value} {b : Bytes} (hl : v.legible = true) (h : write v = .put b) :
    Grammar b v :=
  ⟨hl, b, .same h⟩

/-- An integer below zero has the head of another kind. -/
theorem integer_ofNat {n : Nat} (h : n < 0x8000000000000000) :
    integer (Int64.ofNat n).toInt = head .unsigned n := by
  have hn : (Int64.ofNat n).toInt = n := Int64.toInt_ofNat_of_lt (by omega)
  rw [integer, hn, if_pos (Int.natCast_nonneg n), Int.toNat_natCast]

theorem integer_negative {n : Nat} (h : n < 0x8000000000000000) :
    integer (Int64.ofInt (-1 - n)).toInt = head .negative n := by
  have hn : (Int64.ofInt (-1 - n)).toInt = -1 - n := Int64.toInt_ofInt_of_le (by omega) (by omega)
  rw [integer, hn, if_neg (by omega), show (-1 - (-1 - (n : Int))).toNat = n by omega]

theorem simple_takes (info : Nat) :
    Takes (simple info) fun b v => Grammar (initial .simple info :: b) v := by
  unfold simple
  split
  · next h =>
    subst h
    exact takes_pure (grammar_same rfl rfl)
  split
  · next h =>
    subst h
    exact takes_pure (grammar_same rfl rfl)
  split
  · next h =>
    rcases h with rfl | rfl
    · exact takes_pure (grammar_same rfl rfl)
    · exact takes_pure ⟨rfl, _, .null⟩
  split
  · exact takes_throw _
  split
  · next h =>
    subst h
    refine (take_takes 8).bind ?_
    rintro b _ ⟨rfl, hb⟩
    dsimp only
    split
    · exact (takes_throw (G := fun _ _ => False) _).bind fun _ _ h => h.elim
    · next hn =>
      refine takes_pure (grammar_same rfl ?_)
      have hlt := Bytes.toNat_lt b
      rw [hb] at hlt
      have hbits : (Number.Floating.ofBits (Bytes.toNat b) : Number.Double).toBits = Bytes.toNat b :=
        Nat.mod_eq_of_lt hlt
      rw [write, if_neg hn, hbits, ← hb, Bytes.ofNat_toNat, List.append_nil]
  split <;> exact takes_throw _

/-- Behind the head of a tag stands an item, and the value is made of both. -/
theorem tagged_takes {t : Nat} {inner : Value} {b : Bytes} (most : t ≤ maxArgument)
    (h : Grammar b inner) : Takes (tagged t inner) fun c v => Grammar (head .tag t ++ b ++ c) v := by
  have spelt : ∀ {v}, Grammar (head .tag t ++ b) v →
      Takes (pure v) fun c v => Grammar (head .tag t ++ b ++ c) v := fun hv =>
    takes_pure (by rwa [List.append_nil])
  obtain ⟨hl, plain, h⟩ := h
  by_cases hid : t = objectIdTag
  · subst hid
    cases inner with
    | bytes x =>
      by_cases hx : x.length = 12
      · rw [show x = (⟨x, hx⟩ : ObjectId).bytes from rfl, tagged_objectId]
        exact spelt ⟨rfl, _, .objectId h⟩
      · have hfault : tagged objectIdTag (.bytes x) = throw (.badObjectId (.byteCount x.length)) := by
          rw [tagged, if_pos rfl, ObjectId.ofBytes?, dif_neg hx]
          rfl
        rw [hfault]
        exact takes_throw _
    | _ => exact takes_throw _
  by_cases hdate : t = dateTimeTag
  · subst hdate
    cases inner with
    | integer n => exact spelt (v := .dateTime ⟨n⟩) ⟨rfl, _, .dateTime h⟩
    | _ => exact takes_throw _
  rw [tagged_idle hid hdate]
  exact spelt ⟨hl, plain, .tag most hid hdate h⟩

theorem items_takes {item : Parser Value} (h : Takes item Grammar) (n : Nat) :
    Takes (items item n) fun b vs =>
      vs.length = n ∧ vs.all legible = true ∧ ∃ plain, VariantItems vs plain b := by
  induction n with
  | zero => exact takes_pure ⟨rfl, rfl, [], .nil⟩
  | succ n ih =>
    refine h.bind fun b v hv => ih.map fun c vs hvs => ?_
    obtain ⟨hl, plain, hv⟩ := hv
    obtain ⟨hn, hall, others, hvs⟩ := hvs
    exact ⟨congrArg (· + 1) hn, by rw [List.all_cons, hl, hall]; rfl, _, .cons hv hvs⟩

theorem fields_takes {item : Parser Value} (h : Takes item Grammar) (n : Nat)
    (previous : Option String) : Takes (fields item n previous) fun b fs =>
      fs.length = n ∧ legibleFields previous fs = true ∧ ∃ plain, VariantFields fs plain b := by
  induction n generalizing previous with
  | zero => exact takes_pure ⟨rfl, rfl, [], .nil⟩
  | succ n ih =>
    refine byte_takes.bind ?_
    rintro _ first rfl
    split
    · exact (takes_throw (G := fun _ _ => False) _).bind fun _ _ h => h.elim
    next hkind =>
    have hkind : Kind.ofByte first = .text := Decidable.not_not.1 hkind
    refine (textOf_takes (first.toNat % 32)).bind fun b k hk => ?_
    dsimp only
    split
    · exact (takes_throw (G := fun _ _ => False) _).bind fun _ _ h => h.elim
    next hprevious =>
    refine h.bind fun c v hv => (ih (some k)).map fun d fs hfs => ?_
    obtain ⟨hl, plain, hv⟩ := hv
    obtain ⟨hn, hall, others, hfs⟩ := hfs
    have hname : [first] ++ b = text k := by
      rw [← hk.1, initial_ofByte hkind]
      rfl
    have horder : (previous.all fun p => keyOrder p k = .lt) = true := by
      cases previous <;> simp_all
    refine ⟨congrArg (· + 1) hn, ?_, text k ++ plain ++ others, ?_⟩
    · rw [legibleFields, decide_eq_true hk.2, horder, hl, hall]
      rfl
    · rw [← List.append_assoc, ← List.append_assoc, hname]
      exact .cons hv hfs

/-- What is read as a value was a variant of its bytes, and the value is
legible. -/
theorem value_takes (fuel : Nat) : Takes (value fuel) Grammar := by
  induction fuel with
  | zero => exact takes_throw _
  | succ fuel ih =>
    refine byte_takes.bind ?_
    rintro _ first rfl
    dsimp only
    cases hkind : Kind.ofByte first with
    | unsigned =>
      refine (magnitude_takes _).map fun b n hn => grammar_same rfl ?_
      rw [write, integer_ofNat hn.2, ← hn.1, initial_ofByte hkind]
      rfl
    | negative =>
      refine (magnitude_takes _).map fun b n hn => grammar_same rfl ?_
      rw [write, integer_negative hn.2, ← hn.1, initial_ofByte hkind]
      rfl
    | bytes =>
      refine (payload_takes _).map fun b x hx => grammar_same ?_ ?_
      · exact (Bool.and_true _).trans (decide_eq_true hx.2)
      · rw [write, ← hx.1, initial_ofByte hkind]
        rfl
    | text =>
      refine (textOf_takes _).map fun b s hs => grammar_same ?_ ?_
      · exact (Bool.and_true _).trans (decide_eq_true hs.2)
      · rw [write, ← hs.1, initial_ofByte hkind]
        rfl
    | array =>
      refine (count_takes _ _).bind fun b n hn => (items_takes ih n).map fun c vs hvs => ?_
      obtain ⟨rfl, hall, plain, hvs⟩ := hvs
      have hhead : [first] ++ b = head .array vs.length := by
        rw [← hn.1, initial_ofByte hkind]
        rfl
      refine ⟨by rw [legible_array, hall, decide_eq_true hn.2]; rfl, head .array vs.length ++ plain, ?_⟩
      rw [← List.append_assoc, hhead]
      exact .array hvs
    | map =>
      refine (count_takes _ _).bind fun b n hn => (fields_takes ih n none).map fun c fs hfs => ?_
      obtain ⟨rfl, hall, plain, hfs⟩ := hfs
      have hhead : [first] ++ b = head .map fs.length := by
        rw [← hn.1, initial_ofByte hkind]
        rfl
      refine ⟨by rw [legible_document, hall, decide_eq_true hn.2]; rfl, head .map fs.length ++ plain, ?_⟩
      rw [← List.append_assoc, hhead]
      exact .document hfs
    | tag =>
      refine argument_takes.bind fun b t ht => ih.bind fun c inner hinner => ?_
      have hhead : [first] ++ b = head .tag t := by
        rw [← ht.1, initial_ofByte hkind]
        rfl
      have := tagged_takes ht.2 hinner
      simpa only [← hhead, List.append_assoc] using this
    | simple =>
      have := simple_takes (first.toNat % 32)
      rwa [initial_ofByte hkind] at this

/-! ## Whole values -/

theorem decode_grammar {b : Bytes} {v : Value} : decode b = .ok v ↔ Grammar b v := by
  rw [decode_ok]
  constructor
  · intro h
    obtain ⟨c, rfl, hg⟩ := value_takes b.length b v [] h
    rwa [List.append_nil]
  · rintro ⟨hl, plain, h⟩
    have hread := (h.spells b.length (Nat.le_refl _)) []
    rwa [if_pos hl, List.append_nil] at hread

/-- Legible values stand in the order to write them in. -/
theorem encode_of_legible {v : Value} {plain : Bytes} (hl : v.legible = true)
    (hw : write v = .put plain) : encode v = .ok plain := by
  rw [legible, everywhere_and, Bool.and_eq_true] at hl
  rw [encode_eq_ok_iff, emit, canonical_of_ordered hl.2, hw]
  rfl

/-- What the value must be like for readers to give it, and what the bytes must
be like: those that it is written in, apart from tags and nulls. -/
structure Spelling (b : Bytes) (v : Value) : Prop where
  noNaN : v.hasNaN = false
  ordered : v.everywhere ordered = true
  sized : v.everywhere sized = true
  variant : ∃ plain, encode v = .ok plain ∧ Variant v plain b

theorem grammar_iff {b : Bytes} {v : Value} : Grammar b v ↔ Spelling b v := by
  constructor
  · rintro ⟨hl, plain, h⟩
    have hparts := hl
    rw [legible, everywhere_and, Bool.and_eq_true] at hparts
    exact ⟨h.hasNaN, hparts.2, hparts.1, plain, encode_of_legible hl h.write_eq, h⟩
  · rintro ⟨-, hordered, hsized, plain, -, h⟩
    refine ⟨?_, plain, h⟩
    rw [legible, everywhere_and, hsized, hordered]
    rfl

theorem hasNaN_of_decode {b : Bytes} {v : Value} (h : decode b = .ok v) : v.hasNaN = false :=
  (grammar_iff.1 (decode_grammar.1 h)).noNaN

/-- A value is read from the spellings of it and from no other bytes, and from
bytes that are a spelling of nothing comes a fault. -/
theorem decode_iff (b : Bytes) :
    (∀ v, decode b = .ok v ↔ Spelling b v) ∧
      ((∀ v, ¬ Spelling b v) → ∃ fault, decode b = .error fault) := by
  have hiff : ∀ v, decode b = .ok v ↔ Spelling b v := fun v => decode_grammar.trans grammar_iff
  refine ⟨hiff, fun hnone => ?_⟩
  cases hd : decode b with
  | ok v => exact absurd ((hiff v).1 hd) (hnone v)
  | error fault => exact ⟨fault, rfl⟩

/-- Tags before a document's null, and before the document. -/
example : decode [0xc1, 0xa1, 0x61, 0x6e, 0xc2, 0xf7] = .ok (.document ⟨[("n", .null)]⟩) := by rfl

/-- What is read can be written, and the bytes written are read as the same
value. All bytes that are read as the value differ from these in tags and nulls
only. -/
theorem encode_of_decode {b : Bytes} {v : Value} (h : decode b = .ok v) :
    ∃ plain, encode v = .ok plain ∧ decode plain = .ok v ∧
      ∀ other, decode other = .ok v → Variant v plain other := by
  obtain ⟨hl, plain, hb⟩ := decode_grammar.1 h
  refine ⟨plain, encode_of_legible hl hb.write_eq, ?_, fun other ho => ?_⟩
  · exact decode_grammar.2 ⟨hl, plain, .same hb.write_eq⟩
  · obtain ⟨-, others, hvariant⟩ := decode_grammar.1 ho
    cases hvariant.write_eq.symm.trans hb.write_eq
    exact hvariant

theorem encode_of_decode_tagged :
    decode [0xc1, 0x0a] = .ok (.integer 10) ∧
    ∃ plain, encode (.integer 10) = .ok plain ∧ decode plain = .ok (.integer 10) ∧
      ∀ other, decode other = .ok (.integer 10) → Variant (.integer 10) plain other :=
  ⟨by rfl, encode_of_decode (b := [0xc1, 0x0a]) (by rfl)⟩

/-- A number under a tag is written without the tag. -/
theorem encode_of_tagged :
    decode [0xc1, 0x0a] = .ok (.integer 10) ∧ encode (.integer 10) = .ok [0x0a] ∧
      ¬ ∀ b v, decode b = .ok v → encode v = .ok b := by
  have hread : decode [0xc1, 0x0a] = .ok (.integer 10) := by rfl
  have hwritten : encode (.integer 10) = .ok [0x0a] := by rfl
  refine ⟨hread, hwritten, fun hall => ?_⟩
  cases (hall _ _ hread).symm.trans hwritten

end Folio.Cbor
