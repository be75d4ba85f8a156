import Folio.Proofs.Entity.Storable
import Folio.Proofs.Registry.Encoding
import Folio.Proofs.Stream.Visits
import Folio.Registry.Decode

/-!
# Decoding with the codecs known here

A step of decoding takes the value that is due from the reader and leaves the
reader behind it. Where names identify declarations, the codec that is found
for a type is the type's own and the descriptor that is found for a class is
the class's own, so what a step answers depends on the value and on the
declared type alone.

Results:
* `decodes_leaf`: what a leaf is encoded as is decoded as the leaf.
* `decodes_array`, `decodes_fields`: containers are decoded entry by entry.
* `decodes_entity`: so is an entity, whatever the order of its fields.
-/
namespace Folio

variable {names : Names} {s : Schema}

/-- A plain registry of the schema that has come across known names only. -/
structure Registry.Ready (s : Schema) (names : Names) (r : Registry) : Prop where
  plain : r.Plain (·.Named names)
  catalog : r.catalog.Genuine s names.Knows

namespace Decoder

theorem run_read {α : Type} {call : Reader.Call α} {r : Registry} {rd rd' : Reader} {a : α}
    (h : call.run rd = (.ok a, rd')) : (read call).run ⟨r, rd⟩ = (.ok a, ⟨r, rd'⟩) := by
  show ((call.run rd).1.mapError Failure.data, (⟨r, (call.run rd).2⟩ : Decoder)) = _
  rw [h]
  rfl

theorem run_look {α : Type} {m : RegistryM α} {r r' : Registry} {rd : Reader} {a : α}
    (h : m.run r = (.ok a, r')) : (look m).run ⟨r, rd⟩ = (.ok a, ⟨r', rd⟩) := by
  show ((m.run r).1, (⟨(m.run r).2, rd⟩ : Decoder)) = _
  rw [h]

/-- The step decodes the value, wherever it is due. -/
def Decodes (s : Schema) (names : Names) {α : Type} (step : Step α) (v : Value) (a : α) : Prop :=
  ∀ r rd rd', r.Ready s names → Reader.Due v rd rd' →
    ∃ r', step.run ⟨r, rd⟩ = (.ok a, ⟨r', rd'⟩) ∧ r'.Ready s names

/-- Without a key the step makes the same of the value wherever it is due, and leaves the
registry alone. -/
def Takes {α : Type} (step : Step α) (v : Value) (a : α) : Prop :=
  ∀ r rd rd', r.key = none → Reader.Due v rd rd' → step.run ⟨r, rd⟩ = (.ok a, ⟨r, rd'⟩)

theorem Takes.decodes {α : Type} {step : Step α} {v : Value} {a : α} (h : Takes step v a) :
    Decodes s names step v a :=
  fun r rd rd' hr hdue => ⟨r, h r rd rd' hr.plain.noKey hdue, hr⟩

/-! ## What is looked up -/

/-- The codec of a named type is the one that is known for it. -/
theorem run_codec {t : ValueType} {c : Codec} (ht : t.Named names)
    (hb : Codec.builtin? t = some c) {r : Registry} (hr : r.Ready s names) (rd : Reader) :
    ∃ r', (look (Registry.codec t)).run ⟨r, rd⟩ = (.ok c, ⟨r', rd⟩) ∧ r'.Ready s names := by
  obtain ⟨u, found, r', hrun, hr', hcat, hu, htu, hfound⟩ := Registry.run_codec hr.plain ht hb
  have : u = t := (ValueType.eq_of_beq ht hu htu).symm
  subst this
  rw [hb] at hfound
  cases hfound
  exact ⟨r', run_look hrun, hr', by rw [hcat]; exact hr.catalog⟩

theorem run_withCatalog {α : Type} {m : CatalogM α} {r : Registry} {k : Catalog} {a : α}
    (h : m.run r.catalog = (.ok a, k)) :
    (Registry.withCatalog m).run r = (.ok a, { r with catalog := k }) := by
  show ((m.run r.catalog).1, { r with catalog := (m.run r.catalog).2 }) = _
  rw [h]

theorem ready_catalog {r : Registry} (hr : r.Ready s names) {k : Catalog}
    (hk : k.Genuine s names.Knows) : Registry.Ready s names { r with catalog := k } :=
  ⟨⟨hr.plain.noProviders, hr.plain.noKey, hr.plain.codecs⟩, hk⟩

/-! ## Leaves -/

theorem run_take {v : Value} {r : Registry} {rd rd' : Reader} (h : Reader.Due v rd rd') :
    (read Reader.take).run ⟨r, rd⟩ = (.ok v, ⟨r, rd'⟩) := run_read h.run_take

theorem run_narrow {least most : Int} {n : Int64} {make : Int64 → FieldValue}
    (hl : least ≤ n.toInt) (hm : n.toInt ≤ most) (d : Decoder) :
    (narrow least most n make).run d = (.ok (make n), d) := by
  rw [narrow, if_pos ⟨hl, hm⟩]
  rfl

/-- What a primitive is encoded as is read as the primitive. -/
theorem run_primitive {p : Primitive} {v : FieldValue} {w : Value} (hp : v.type = .primitive p)
    (hw : Registry.encodingLeaf v = .ok w) (hn : v.hasNaN = false) (d : Decoder) :
    (primitive p w).run d = (.ok v, d) := by
  cases v <;> cases hp
  case byte n =>
    cases hw
    have hback : n.toInt64.toInt8 = n := Int8.toInt8_toInt64 n
    rw [primitive, run_narrow, hback]
    · rw [Int8.toInt_toInt64]; exact Int8.minValue_le_toInt n
    · rw [Int8.toInt_toInt64]; exact Int8.toInt_le n
  case short n =>
    cases hw
    have hback : n.toInt64.toInt16 = n := Int16.toInt16_toInt64 n
    rw [primitive, run_narrow, hback]
    · rw [Int16.toInt_toInt64]; exact Int16.minValue_le_toInt n
    · rw [Int16.toInt_toInt64]; exact Int16.toInt_le n
  case int n =>
    cases hw
    have hback : n.toInt64.toInt32 = n := Int32.toInt32_toInt64 n
    rw [primitive, run_narrow, hback]
    · rw [Int32.toInt_toInt64]; exact Int32.minValue_le_toInt n
    · rw [Int32.toInt_toInt64]; exact Int32.toInt_le n
  case float x =>
    obtain ⟨-, rfl⟩ := Registry.storable_ok.1 hw
    rw [primitive, Number.toSingle_toDouble hn]
    rfl
  case double x =>
    obtain ⟨-, rfl⟩ := Registry.storable_ok.1 hw
    rfl
  case char c =>
    cases hw
    simp only [primitive, String.toList_singleton]
    rfl
  all_goals
    cases hw
    rfl

/-- A symbol is found by its name if no other has that name. -/
theorem ofName?_name {e : EnumValue} (hn : e.cls.symbols.Nodup) (ho : e.ordinal < e.cls.symbols.length) :
    e.cls.ofName? e.name = some e := by
  have hname : e.name = e.cls.symbols[e.ordinal] := by
    rw [EnumValue.name, List.getElem?_eq_getElem ho, Option.getD_some]
  have hfind : e.cls.symbols.findIdx? (· = e.name) = some e.ordinal := by
    refine List.findIdx?_eq_some_iff_getElem.2 ⟨ho, by simp [hname], ?_⟩
    intro j hj heq
    rw [decide_eq_true_eq, hname] at heq
    have := (List.getElem_inj hn).1 heq
    omega
  rw [EnumClass.ofName?, hfind, Option.map_some]

/-- What a leaf is encoded as is in canonical form. -/
theorem canonical_leaf {v : FieldValue} {w : Value} (hv : v.Lossless s names)
    (hw : Registry.encodingLeaf v = .ok w) : w.canonical = w := by
  cases v with
  | document doc => cases hw; exact Value.canonical_of_ordered hv
  | float x =>
    obtain ⟨-, rfl⟩ := Registry.storable_ok.1 hw
    rfl
  | double x =>
    obtain ⟨-, rfl⟩ := Registry.storable_ok.1 hw
    rfl
  | foreign f => cases hw
  | _ => cases hw; rfl

/-- A leaf fits types that equal its own, its boxed type if it is a primitive, and any. -/
theorem fits_leaf_cases {t : ValueType} {v : FieldValue} (hl : v.isLeaf = true)
    (h : v.fits s t = true) :
    t = .any ∨ (v.type == t) = true ∨ ∃ p, t = .boxed p ∧ v.type = .primitive p := by
  cases t with
  | any => exact .inl rfl
  | boxed p =>
    rw [FieldValue.fits] at h
    exact .inr (.inr ⟨p, rfl, Entity.eq_primitive h⟩)
  | list t =>
    have hnone : v.list? = none := by cases v <;> first | rfl | cases hl
    rw [FieldValue.fits, hnone] at h
    cases h
  | entity c =>
    refine .inr (.inl ?_)
    cases v with
    | entity e => cases hl
    | _ => simpa only [FieldValue.fits] using h
  | _ =>
    refine .inr (.inl ?_)
    cases v <;> simpa only [FieldValue.fits] using h

/-- Where names identify declarations, such types are its own. -/
theorem fits_leaf {t : ValueType} (ht : t.Named names) {v : FieldValue} (hv : v.Lossless s names)
    (hl : v.isLeaf = true) (h : v.fits s t = true) :
    t = .any ∨ v.type = t ∨ ∃ p, t = .boxed p ∧ v.type = .primitive p :=
  (fits_leaf_cases hl h).imp_right (Or.imp_left (ValueType.eq_of_beq hv.named ht))

/-- A primitive is read as a primitive, boxed or not. -/
theorem takes_primitive {p : Primitive} {c : Codec} (hc : c = .primitive p ∨ c = .boxed p)
    {v : FieldValue} {w : Value} (hp : v.type = .primitive p)
    (hw : Registry.encodingLeaf v = .ok w) (hn : v.hasNaN = false) :
    Takes (leaf c) w (some v) := by
  intro r rd rd' _ hdue
  have hprimitive := run_primitive hp hw hn ⟨r, rd'⟩
  have hnull : w ≠ .null := by
    rintro rfl
    cases p <;> cases (Prod.mk.inj hprimitive).1
  rcases hc with rfl | rfl <;> simp only [leaf, run_bind, run_take hdue] <;>
    cases w <;> first | exact absurd rfl hnull | simp only [hprimitive]; rfl

/-- Without a key a payload is restored as it is. -/
theorem restore_none (stored : Bytes) : Image.restore none stored = stored := by
  unfold Image.restore
  cases Bytes.dropLead? Image.marker stored <;> rfl

/-- The codec of a leaf's own type reads what the leaf is encoded as, a symbol if its name
is no other's. -/
theorem takes_own {v : FieldValue} {w : Value} {c : Codec}
    (hsymbol : ∀ e, v = .enum e → e.cls.symbols.Nodup ∧ e.ordinal < e.cls.symbols.length)
    (hl : v.isLeaf = true) (hn : v.hasNaN = false) (hb : Codec.builtin? v.type = some c)
    (hw : Registry.encodingLeaf v = .ok w) : Takes (leaf c) w (some v) := by
  cases v with
  | list items => cases hl
  | entity e => cases hl
  | foreign f => cases hb
  | enum e =>
    cases hb
    cases hw
    obtain ⟨hnodup, hordinal⟩ := hsymbol e rfl
    intro r rd rd' _ hdue
    simp only [leaf, run_bind, run_take hdue, ofName?_name hnodup hordinal]
    rfl
  | bytes b =>
    cases hb
    cases hw
    intro r rd rd' hkey hdue
    simp only [leaf, run_bind, run_take hdue, run_getThe, hkey, restore_none]
    rfl
  | _ =>
    cases hb
    first
    | exact takes_primitive (.inl rfl) rfl hw hn
    | cases hw
      intro r rd rd' _ hdue
      simp only [leaf, run_bind, run_take hdue]
      rfl

theorem decodes_own {v : FieldValue} {w : Value} {c : Codec} (hv : v.Lossless s names)
    (hl : v.isLeaf = true) (hn : v.hasNaN = false) (hb : Codec.builtin? v.type = some c)
    (hw : Registry.encodingLeaf v = .ok w) : Decodes s names (leaf c) w (some v) := by
  refine (takes_own ?_ hl hn hb hw).decodes
  rintro e rfl
  exact hv.2

/-- A stored value of no declared type is taken as its value in memory. -/
theorem takes_natural (v : Value) : Takes (leaf .any) v (natural v) := by
  intro r rd rd' _ hdue
  simp only [leaf, run_bind, run_take hdue]
  cases v <;> rfl

/-! ## Values of a declared type -/

/-- How a value is decoded whose type is neither a class, a list nor any. -/
theorem decodes_value {t : ValueType} {c : Codec} (ht : t.Named names)
    (hb : Codec.builtin? t = some c) (hentity : ∀ cls, c ≠ .entity cls)
    (hlist : ∀ element, c ≠ .list element) (hany : c ≠ .any) {fuel : Nat} {v : Value}
    {a : Option FieldValue} (h : Decodes s names (leaf c) v a) :
    Decodes s names (value (fuel + 1) t) v a := by
  intro r rd rd' hr hdue
  obtain ⟨r', hrun, hr'⟩ := run_codec ht hb hr rd
  obtain ⟨r'', hleaf, hr''⟩ := h r' rd rd' hr' hdue
  refine ⟨r'', ?_, hr''⟩
  have hne : ∀ cls, t ≠ .entity cls := by
    rintro cls rfl
    cases hb
    exact hentity cls rfl
  rw [value, run_bind_ok hrun]
  · cases c with
    | list element => exact absurd rfl (hlist element)
    | any => exact absurd rfl hany
    | _ => exact hleaf
  · exact hne

/-- The value in memory of what an untyped leaf is encoded as. -/
theorem natural_leaf {v : FieldValue} {w : Value} (hl : v.isLeaf = true)
    (hu : v.untyped = .ok v) (hw : Registry.encodingLeaf v = .ok w) : natural w = some v := by
  cases v with
  | list items => cases hl
  | entity e => cases hl
  | double x =>
    obtain ⟨-, rfl⟩ := Registry.storable_ok.1 hw
    rfl
  | byte n => cases hu
  | short n => cases hu
  | int n => cases hu
  | float x => cases hu
  | char c => cases hu
  | enum e => cases hu
  | foreign f => cases hu
  | _ => cases hw; rfl

/-- An untyped leaf is decoded as what it is, a byte string by the codec for
byte strings. -/
theorem decodes_any {fuel : Nat} {v : FieldValue} {w : Value} (hl : v.isLeaf = true)
    (hu : v.untyped = .ok v) (hv : v.Lossless s names) (hn : v.hasNaN = false)
    (hw : Registry.encodingLeaf v = .ok w) :
    Decodes s names (value (fuel + 2) .any) w (some v) := by
  intro r rd rd' hr hdue
  obtain ⟨r', hrun, hr'⟩ := run_codec (t := .any) (c := .any) trivial rfl hr rd
  have hnatural := natural_leaf hl hu hw
  rw [value, run_bind_ok hrun, run_bind, run_getThe]
  · simp only [hdue.peekType]
    cases w with
    | null => cases hnatural
    | array items =>
      rw [← Option.some.inj hnatural] at hl
      cases hl
    | bytes b =>
      cases hnatural
      exact decodes_value (t := .bytes) trivial rfl (fun _ h => by cases h) (fun _ h => by cases h)
        (fun h => by cases h) (decodes_own hv hl hn rfl rfl) r' rd rd' hr' hdue
    | _ =>
      refine ⟨r', ?_, hr'⟩
      rw [if_neg (by simp [Value.typeName]), if_neg (by simp [Value.typeName]), ← hnatural]
      exact takes_natural _ r' rd rd' hr'.plain.noKey hdue
  · exact fun _ h => by cases h

/-- What a leaf is encoded as is decoded as the leaf, as any type that keeps it. -/
theorem decodes_leaf {t : ValueType} (ht : t.Named names) {fuel : Nat} {v : FieldValue} {w : Value}
    (hl : v.isLeaf = true) (hv : v.Lossless s names) (hk : v.Kept s t)
    (hw : Registry.encodingLeaf v = .ok w) :
    Decodes s names (value (fuel + 2) t) w (some v) := by
  have flat : ∀ {c}, v.type = t → Codec.builtin? t = some c →
      Decodes s names (value (fuel + 2) t) w (some v) := by
    rintro c rfl hb
    refine decodes_value ht hb ?_ ?_ ?_ (decodes_own hv hl hk.number hb hw)
    all_goals cases v <;> first | (cases hl; done) | cases hb
    all_goals first | exact fun _ h => by cases h | exact fun h => by cases h
  rcases fits_leaf ht hv hl hk.fits with rfl | hown | ⟨p, rfl, hp⟩
  · exact decodes_any hl hk.stored hv hk.number hw
  · cases hb : Codec.builtin? t with
    | some c => exact flat hown hb
    | none =>
      subst hown
      cases v <;> first | exact hv.elim | cases hb
  · refine decodes_value ht rfl ?_ ?_ ?_ (takes_primitive (.inr rfl) hp hw hk.number).decodes
    · exact fun _ h => by cases h
    · exact fun _ h => by cases h
    · exact fun h => by cases h

/-! ## Entries -/

/-- Entries that are each decoded as one value are decoded as all of them.
`reader` is the reader before the entries that are left. -/
theorem run_entries {α : Type} (entry : Step (Option α)) (reader : List α → Reader) {items : List α}
    (hnext : ∀ x rest, (reader (x :: rest)).hasNext = true)
    (hentry : ∀ x ∈ items, ∀ rest r, r.Ready s names → ∃ r',
      entry.run ⟨r, reader (x :: rest)⟩ = (.ok (some x), ⟨r', reader rest⟩) ∧ r'.Ready s names)
    {r : Registry} (hr : r.Ready s names) :
    ∃ r', (entries entry items.length).run ⟨r, reader items⟩ = (.ok items, ⟨r', reader []⟩) ∧
      r'.Ready s names := by
  induction items generalizing r with
  | nil => exact ⟨r, rfl, hr⟩
  | cons x rest ih =>
    obtain ⟨r', hx, hr'⟩ := hentry x List.mem_cons_self rest r hr
    obtain ⟨r'', hrest, hr''⟩ := ih (fun y hy => hentry y (List.mem_cons_of_mem x hy)) hr'
    refine ⟨r'', ?_, hr''⟩
    rw [List.length_cons, entries, run_bind, run_getThe]
    simp only [hnext]
    show ((entry >>= _).run _) = _
    rw [run_bind_ok hx]
    simp only [run_bind, hrest]
    rfl

theorem typeName_ne_null {v : Value} (h : v ≠ .null) : ¬ some v.typeName = some "null" := by
  cases v <;> first | exact absurd rfl h | simp [Value.typeName]

/-- A list is decoded item by item. -/
theorem decodes_array {item : Step (Option FieldValue)} {f : FieldValue → Value}
    {items : List FieldValue} (h : ∀ x ∈ items, Decodes s names item (f x) (some x)) :
    Decodes s names (list item) (.array (items.map f)) (some (.list items)) := by
  intro r rd rd' hr hdue
  have hstart := run_read (r := r) hdue.run_startArray
  obtain ⟨r', hentries, hr'⟩ := run_entries item
    (fun xs => ⟨.array (xs.map f) :: rd'.stack, none⟩)
    (fun x rest => by simp [Reader.hasNext, Reader.left])
    (fun x hx rest r hr => h x hx r _ _ hr (.item _ _)) hr
  refine ⟨r', ?_, hr'⟩
  have hend : (read Reader.endArray).run ⟨r', ⟨.array [] :: rd'.stack, none⟩⟩ = (.ok (), ⟨r', rd'⟩) :=
    run_read (by rw [hdue.settled]; rfl)
  simp only [list, run_bind, run_getThe, hdue.peekType]
  rw [if_neg (typeName_ne_null (fun hnull => by cases hnull))]
  simp only [run_bind, hstart, run_getThe]
  have hleft : Reader.left ⟨.array (items.map f) :: rd'.stack, none⟩ = items.length :=
    List.length_map f
  rw [hleft, hentries]
  simp only [List.map_nil, hend]
  rfl

theorem decodes_list {t : ValueType} (ht : t.Named names) {fuel : Nat} {f : FieldValue → Value}
    {items : List FieldValue} (h : ∀ x ∈ items, Decodes s names (value fuel t) (f x) (some x)) :
    Decodes s names (value (fuel + 1) (.list t)) (.array (items.map f)) (some (.list items)) := by
  intro r rd rd' hr hdue
  obtain ⟨r', hrun, hr'⟩ := run_codec (t := .list t) ht rfl hr rd
  rw [value, run_bind_ok hrun]
  · exact decodes_array h r' rd rd' hr' hdue
  · exact fun _ h => by cases h

/-- An array of no declared type is a list of values of no declared type. -/
theorem decodes_any_array {fuel : Nat} {items : List Value} {a : Option FieldValue}
    (h : Decodes s names (value fuel (.list .any)) (.array items) a) :
    Decodes s names (value (fuel + 1) .any) (.array items) a := by
  intro r rd rd' hr hdue
  obtain ⟨r', hrun, hr'⟩ := run_codec (t := .any) (c := .any) trivial rfl hr rd
  rw [value, run_bind_ok hrun, run_bind, run_getThe]
  · simp only [hdue.peekType]
    exact h r' rd rd' hr' hdue
  · exact fun _ h => by cases h

/-- One field of a document, as the type that is declared for its name. -/
def field (decode : ValueType → Step (Option FieldValue)) (d : Descriptor) :
    Step (Option (String × FieldValue)) := do
  let name ← read Reader.name
  return (← decode (d.typeOf name)).map (name, ·)

theorem run_field {decode : ValueType → Step (Option FieldValue)} {d : Descriptor}
    {a : String × FieldValue} {w : Value} (h : Decodes s names (decode (d.typeOf a.1)) w (some a.2))
    (rest : List (String × Value)) (below : List Reader.Frame) {r : Registry}
    (hr : r.Ready s names) :
    ∃ r', (field decode d).run ⟨r, ⟨.document ((a.1, w) :: rest) :: below, none⟩⟩ =
      (.ok (some a), ⟨r', ⟨.document rest :: below, none⟩⟩) ∧ r'.Ready s names := by
  have hname : (read Reader.name).run ⟨r, ⟨.document ((a.1, w) :: rest) :: below, none⟩⟩ =
      (.ok a.1, ⟨r, ⟨.document rest :: below, some w⟩⟩) := rfl
  obtain ⟨r', hrun, hr'⟩ := h r _ _ hr (.current _)
  refine ⟨r', ?_, hr'⟩
  rw [field, run_bind_ok hname, run_bind_ok hrun]
  rfl

/-- Properties are decoded field by field, each as the type that the class
declares for it. -/
theorem decodes_fields {c : ClassRef} (hc : names.Knows c)
    {decode : ValueType → Step (Option FieldValue)} {f : FieldValue → Value} {attributes : Fields}
    (h : ∀ a ∈ attributes,
      Decodes s names (decode ((Descriptor.ofClass s c).typeOf a.1)) (f a.2) (some a.2)) :
    Decodes s names (fields decode c) (.document ⟨attributes.map fun a => (a.1, f a.2)⟩)
      (Keyed.ofList attributes) := by
  intro r rd rd' hr hdue
  obtain ⟨k, hdescriptor, hk⟩ := hr.catalog.run_ofClass hc
  have hlook : (look (Registry.withCatalog (Catalog.descriptor c))).run ⟨r, rd⟩ =
      (.ok (Descriptor.ofClass s c), ⟨{ r with catalog := k }, rd⟩) := by
    refine run_look (run_withCatalog ?_)
    rw [run_monadLift, hdescriptor]
  have hstart := run_read (r := { r with catalog := k }) hdue.run_startDocument
  obtain ⟨r', hentries, hr'⟩ := run_entries (field decode (Descriptor.ofClass s c))
    (fun as => ⟨.document (as.map fun (a : String × FieldValue) => (a.1, f a.2)) :: rd'.stack, none⟩)
    (fun x rest => by simp [Reader.hasNext, Reader.left])
    (fun a ha rest r hr => run_field (h a ha) _ _ hr) (ready_catalog hr hk)
  refine ⟨r', ?_, hr'⟩
  have hend : (read Reader.endDocument).run ⟨r', ⟨.document [] :: rd'.stack, none⟩⟩ =
      (.ok (), ⟨r', rd'⟩) := run_read (by rw [hdue.settled]; rfl)
  have hleft : Reader.left ⟨.document (attributes.map fun a => (a.1, f a.2)) :: rd'.stack, none⟩ =
      attributes.length := List.length_map _
  unfold field at hentries
  simp only [fields, run_bind, hlook, hstart, run_getThe]
  rw [hleft]
  rw [hentries]
  simp only [List.map_nil, hend]
  rfl

/-- An entity is decoded of its properties, whatever their order. -/
theorem decodes_entity {e : Entity} (h : e.Reachable s names.Knows) (hc : s.Clear names e.cls)
    {decode : ValueType → Step (Option FieldValue)} {f : FieldValue → Value} {attributes : Fields}
    (hp : attributes.Perm e.attributes)
    (hdecode : ∀ a ∈ e.attributes,
      Decodes s names (decode (e.descriptor.typeOf a.1)) (f a.2) (some a.2)) :
    Decodes s names (entity decode e.cls) (.document ⟨attributes.map fun a => (a.1, f a.2)⟩)
      (some (.entity e)) := by
  intro r rd rd' hr hdue
  have hall : ∀ a ∈ attributes,
      Decodes s names (decode ((Descriptor.ofClass s e.cls).typeOf a.1)) (f a.2) (some a.2) := by
    intro a ha
    rw [← h.descriptor]
    exact hdecode a (hp.mem_iff.1 ha)
  have hfields := decodes_fields (f := f) hc.known hall
  rw [Keyed.ofList_of_perm hp h.sound.sorted] at hfields
  obtain ⟨r', hrun, hr'⟩ := hfields r rd rd' hr hdue
  obtain ⟨k, hinstantiate, hk⟩ := h.run_instantiate hc hr'.catalog
  refine ⟨_, ?_, ready_catalog hr' hk⟩
  simp only [entity, run_bind, run_getThe, hdue.peekType]
  rw [if_neg (typeName_ne_null (fun hnull => by cases hnull))]
  simp only [run_bind, hrun, run_look (run_withCatalog hinstantiate)]
  rfl

end Decoder
end Folio
