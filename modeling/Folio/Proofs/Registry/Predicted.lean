import Folio.Proofs.Entity.Checked
import Folio.Proofs.Registry.Reload
import Folio.Proofs.Registry.Singly

/-!
# Stored forms are what comes back

The stored form of a value says what the value will be after it was stored and read again,
without storing or reading it: encoding goes by the type that the value has, decoding by
the type that is declared. Both are followed here for a value without records and without
values from outside. Where a type is declared the value itself comes back, and where none
is declared what its encoding stands for, item by item in lists.

Results:
* `ValueType.eq_own`: a type that equals a leaf's is the leaf's.
* `gives_storedForm`: an encoded value is decoded as its stored form.
* `next_storedForm`: so it is wherever the encoding is due, and the stored form fits the
  type and is its own stored form.
-/
namespace Folio

variable {enums : String → EnumClass} {s : Schema}

/-- Each enumeration in the type is the one that its name stands for. -/
def ValueType.Enumerated (enums : String → EnumClass) : ValueType → Prop
  | enum e => enums e.name = e
  | list t => t.Enumerated enums
  | _ => True

namespace FieldValue

/-- Neither a record nor a value from outside; and a symbol is told by its name, as one of
the enumeration that the name of this stands for. -/
def Bare (enums : String → EnumClass) : FieldValue → Prop
  | enum e =>
    enums e.cls.name = e.cls ∧ e.cls.symbols.Nodup ∧ e.ordinal < e.cls.symbols.length
  | entity _ | foreign _ => False
  | _ => True

/-- A value all of whose parts are bare. -/
def Portable (enums : String → EnumClass) (v : FieldValue) : Prop :=
  ∀ x : FieldValue, x.PartOf v → x.Bare enums

variable {v : FieldValue}

theorem Portable.here (h : v.Portable enums) : v.Bare enums := h v (.whole v)

theorem Portable.item {items : List FieldValue} (h : (list items).Portable enums)
    (hv : v ∈ items) : v.Portable enums :=
  fun x hx => h x (.item hv hx)

theorem Portable.of_leaf (hl : v.isLeaf = true) (h : v.Bare enums) : v.Portable enums := by
  intro x hx
  rw [eq_of_partOf_leaf hl hx]
  exact h

theorem Portable.of_list {items : List FieldValue} (h : ∀ v ∈ items, v.Portable enums) :
    (list items).Portable enums := by
  intro x hx
  cases hx with
  | whole => trivial
  | item hv hx => exact h _ hv x hx

theorem Bare.enumerated (h : v.Bare enums) : v.type.Enumerated enums := by
  cases v with
  | enum e => exact h.1
  | _ => trivial

theorem Bare.symbol (h : v.Bare enums) :
    ∀ e, v = .enum e → e.cls.symbols.Nodup ∧ e.ordinal < e.cls.symbols.length := by
  rintro e rfl
  exact h.2

end FieldValue

/-- A type that equals a bare leaf's is the leaf's. -/
theorem ValueType.eq_own {v : FieldValue} (hv : v.Bare enums) (hl : v.isLeaf = true)
    {u : ValueType} (hu : u.Enumerated enums) (h : (v.type == u) = true) : u = v.type := by
  cases v with
  | enum e =>
    cases u with
    | enum f =>
      have hname : e.cls.name = f.name := LawfulBEq.eq_of_beq (α := String) h
      have hf : enums f.name = f := hu
      rw [FieldValue.type, ← hv.1, ← hf, hname]
    | _ => cases h
  | list items => cases hl
  | entity e => cases hl
  | foreign f => exact hv.elim
  | _ => cases u <;> first | rfl | cases h | (rename_i p; cases p <;> first | rfl | cases h)

namespace Registry

/-! ## Encoding -/

/-- What an untyped leaf is encoded as does not tell the type that it had. -/
theorem encodingLeaf_untyped {v w : FieldValue} (hl : v.isLeaf = true) (h : v.untyped = .ok w) :
    w.isLeaf = true ∧ encodingLeaf w = encodingLeaf v := by
  cases v with
  | list items => cases hl
  | entity e => cases hl
  | foreign f => cases h
  | _ => cases h; exact ⟨rfl, rfl⟩

theorem encoding_stored {v : FieldValue} (hv : v.Portable enums) (hn : v.hasNaN = false) :
    encoding v = .ok (stored v) := by
  induction v using FieldValue.tree with
  | leaf v hl =>
    have hforeign : ∀ g, v ≠ .foreign g := by
      rintro g rfl
      exact hv.here
    obtain ⟨x, hx, -⟩ := encodingLeaf_number hl hforeign hn
    rw [stored, encoding_leaf hl, hx]
  | list items ih =>
    have hlist := encoding_list fun v hm =>
      ih v hm (hv.item hm) (FieldValue.hasNaN_list.1 hn v hm)
    rw [stored_eq hlist, hlist]
  | entity e ih => exact hv.here.elim

theorem stored_list_eq {items : List FieldValue} (hv : (FieldValue.list items).Portable enums)
    (hn : (FieldValue.list items).hasNaN = false) :
    stored (.list items) = .array (items.map stored) :=
  stored_eq (encoding_list fun v hm =>
    encoding_stored (hv.item hm) (FieldValue.hasNaN_list.1 hn v hm))

/-! ## Decoding by parts -/

section

variable {known : ValueType → Prop} {x : Value} {t : ValueType}

/-- A value decodes alone as what its parts come to. -/
theorem Gives.alone {y : Except Failure (Option FieldValue)}
    (h : Gives known (partwise t x) y) : Gives known (alone t x) y := by
  intro r hr
  rw [Decoder.run_alone t x hr.unsupplied]
  exact h r hr

theorem gives_leafAlone {c : Codec} {a : Option FieldValue}
    (h : Decoder.Takes (Decoder.leaf c) x a) : Gives known (leafAlone c x) (.ok a) := by
  intro r hr
  refine ⟨r, ?_, hr, rfl⟩
  rw [leafAlone, run_decoding_eq, Reader.ofValue, h r _ _ hr.noKey (.current [])]

/-- Items that are each decoded as one value are decoded as all of them. -/
theorem gives_listed {items ws : List FieldValue} {form : FieldValue → Except ValueType FieldValue}
    (hws : items.mapM form = .ok ws)
    (h : ∀ v ∈ items, ∀ w, form v = .ok w → Gives known (alone t (stored v)) (.ok (some w))) :
    Gives known (listed t (.array (items.map stored))) (.ok (some (.list ws))) := by
  have hmapM : Gives known ((items.map stored).mapM (alone t)) (.ok (ws.map some)) := by
    induction items generalizing ws with
    | nil =>
      cases hws
      exact gives_pure []
    | cons v rest ih =>
      obtain ⟨w, others, hw, hothers, rfl⟩ := ok_of_mapM_cons hws
      rw [List.map_cons, List.mapM_cons]
      refine (h v List.mem_cons_self w hw).ok ?_
      exact (ih hothers fun u hu => h u (List.mem_cons_of_mem v hu)).ok (gives_pure _)
  have hall : (ws.map some).reduceOption = ws := by
    rw [List.reduceOption, List.filterMap_map]
    exact List.filterMap_some
  rw [← hall]
  exact hmapM.ok (gives_pure _)

/-- A list is decoded item by item, by any codec of a list of an equal type. -/
theorem gives_list {items ws : List FieldValue} {u : ValueType}
    (hu : (ValueType.list u).Enumerated enums) (hws : items.mapM (FieldValue.storedForm u) = .ok ws)
    (h : ∀ v ∈ items, ∀ e w, e.Enumerated enums → (u == e) = true → v.storedForm u = .ok w →
      Gives (·.Enumerated enums) (alone e (stored v)) (.ok (some w))) :
    Gives (·.Enumerated enums) (alone (.list u) (.array (items.map stored)))
      (.ok (some (.list ws))) := by
  refine .alone (.lookup hu rfl fun found c he hequal hb => ?_)
  cases found with
  | list e =>
    cases hb
    exact gives_listed hws fun v hv w hw => h v hv e w he hequal hw
  | _ => cases hequal

/-- Where no type is declared an array is a list of values of no declared type. -/
theorem gives_any_array {xs : List Value} {y : Except Failure (Option FieldValue)}
    (h : Gives (·.Enumerated enums) (alone (.list .any) (.array xs)) y) :
    Gives (·.Enumerated enums) (alone .any (.array xs)) y := by
  refine .alone (.lookup trivial rfl fun found c _ hequal hb => ?_)
  cases found with
  | any =>
    cases hb
    exact h
  | _ => cases hequal

/-- A leaf is decoded as itself by the codec of its own type. -/
theorem gives_own {v : FieldValue} {x : Value} {t : ValueType} (ht : t.Enumerated enums)
    (hv : v.Bare enums) (hl : v.isLeaf = true) (hn : v.hasNaN = false)
    (hx : encodingLeaf v = .ok x) (hown : (v.type == t) = true) :
    Gives (·.Enumerated enums) (alone t x) (.ok (some v)) := by
  obtain rfl := ValueType.eq_own hv hl ht hown
  refine .alone ?_
  cases v with
  | list items => cases hl
  | entity e => cases hl
  | foreign f => exact hv.elim
  | _ =>
    refine .lookup ht rfl fun u c hu hequal hb => ?_
    obtain rfl := ValueType.eq_own hv hl hu hequal
    cases hb
    exact gives_leafAlone (Decoder.takes_own hv.symbol hl hn rfl hx)

theorem gives_boxed {v : FieldValue} {x : Value} {p : Primitive} (hp : v.type = .primitive p)
    (hn : v.hasNaN = false) (hx : encodingLeaf v = .ok x) :
    Gives (·.Enumerated enums) (alone (.boxed p) x) (.ok (some v)) := by
  refine .alone (.lookup trivial rfl fun u c _ hequal hb => ?_)
  cases u with
  | boxed q =>
    obtain rfl : p = q := LawfulBEq.eq_of_beq (α := Primitive) hequal
    cases hb
    exact gives_leafAlone (Decoder.takes_primitive (.inr rfl) hp hx hn)
  | _ => cases hequal

/-- An untyped leaf is decoded as itself where no type is declared, a byte string by the
codec for byte strings. -/
theorem gives_any {v : FieldValue} {x : Value} (hl : v.isLeaf = true) (hu : v.untyped = .ok v)
    (hn : v.hasNaN = false) (hx : encodingLeaf v = .ok x) :
    Gives (·.Enumerated enums) (alone .any x) (.ok (some v)) := by
  have hnatural := Decoder.natural_leaf hl hu hx
  refine .alone (.lookup trivial rfl fun found c _ hequal hb => ?_)
  cases found with
  | any =>
    cases hb
    cases x with
    | bytes b =>
      cases hnatural
      exact gives_own (t := .bytes) trivial trivial hl hn rfl rfl
    | array items =>
      rw [← Option.some.inj hnatural] at hl
      cases hl
    | _ =>
      rw [← hnatural]
      exact gives_leafAlone (Decoder.takes_natural _)
  | _ => cases hequal

end

/-! ## Values -/

theorem storedForm_own {v w : FieldValue} {t : ValueType} (hown : (v.type == t) = true)
    (hl : v.isLeaf = true) (h : v.storedForm t = .ok w) : w = v := by
  rcases FieldValue.storedForm_cases h with ⟨rfl, -⟩ | ⟨u, items, ws, -, rfl, -⟩ | rfl
  · cases v <;> cases hown
  · cases hl
  · rfl

/-- What a value is encoded as is decoded as its stored form. -/
theorem gives_storedForm {v : FieldValue} (hv : v.Portable enums) (hn : v.hasNaN = false)
    {t : ValueType} {w : FieldValue} (ht : t.Enumerated enums) (hf : v.fits s t = true)
    (hw : v.storedForm t = .ok w) :
    Gives (·.Enumerated enums) (alone t (stored v)) (.ok (some w)) := by
  induction v using FieldValue.tree generalizing t w with
  | leaf v hl =>
    have hx := (encoding_leaf hl).symm.trans (encoding_stored hv hn)
    rcases Decoder.fits_leaf_cases hl hf with rfl | hown | ⟨p, rfl, hp⟩
    · obtain ⟨hwl, hsame⟩ := encodingLeaf_untyped hl hw
      obtain ⟨hu, hnumber, -⟩ := FieldValue.untyped_ok hw
      exact gives_any hwl hu (hnumber hn) (hsame.trans hx)
    · cases storedForm_own hown hl hw
      exact gives_own ht hv.here hl hn hx hown
    · cases (FieldValue.storedForm_of_scalar v (by simp) (by simp)).symm.trans hw
      exact gives_boxed hp hn hx
  | list items ih =>
    -- A list is decoded by the codec that was found first for any list of an equal type.
    have each : ∀ u : ValueType, (∀ v ∈ items, v.fits s u = true) → ∀ v ∈ items, ∀ e w,
        e.Enumerated enums → (u == e) = true → v.storedForm u = .ok w →
        Gives (·.Enumerated enums) (alone e (stored v)) (.ok (some w)) := by
      intro u hfit v hm e w he hequal hvw
      refine ih v hm (hv.item hm) (FieldValue.hasNaN_list.1 hn v hm) he ?_ ?_
      · rw [← FieldValue.fits_congr hequal]
        exact hfit v hm
      · rw [← FieldValue.storedForm_congr hequal]
        exact hvw
    rw [stored_list_eq hv hn]
    rcases fits_of_list hf with rfl | ⟨u, rfl⟩
    · obtain ⟨ws, hws, rfl⟩ := FieldValue.untyped_list.1 hw
      exact gives_any_array (gives_list trivial hws (each .any fun v _ => by cases v <;> rfl))
    · obtain ⟨ws, hws, rfl⟩ := FieldValue.storedForm_list.1 hw
      exact gives_list ht hws (each u (FieldValue.fits_list.1 hf))
  | entity e ih => exact hv.here.elim

/-- A value that fits the declared type and has a stored form is encoded, and wherever its
encoding is due it is decoded as the stored form, beside whatever codecs were found before
for types with such enumerations; and this fits the type and is its own stored form. -/
theorem next_storedForm {v w : FieldValue} {t : ValueType} (hv : v.Portable enums)
    (hn : v.hasNaN = false) (ht : t.Enumerated enums) (hf : v.fits s t = true)
    (hw : v.storedForm t = .ok w) :
    (∃ x, ∀ r : Registry, r.Plain (·.Enumerated enums) →
      (∃ r', (encode v).run r = (.ok x, r') ∧ r'.Plain (·.Enumerated enums)) ∧
      ∀ rd rd', Reader.Due x rd rd' → ∃ r',
        (Decoder.next t).run ⟨r, rd⟩ = (.ok (some w), ⟨r', rd'⟩) ∧
          r'.Plain (·.Enumerated enums)) ∧
    w.fits s t = true ∧ w.storedForm t = .ok w := by
  refine ⟨⟨stored v, fun r hr => ⟨?_, fun rd rd' hdue => ?_⟩⟩, FieldValue.fits_storedForm hw hf,
    FieldValue.storedForm_storedForm hw⟩
  · obtain ⟨r', hrun, hr', -⟩ := gives_encode (fun x hx => (hv x hx).enumerated) r hr
    exact ⟨r', by rw [hrun, encoding_stored hv hn], hr'⟩
  · have hdepth := hdue.depth_le
    obtain ⟨r', hgives, hr', -⟩ := gives_storedForm hv hn ht hf hw r hr
    obtain ⟨⟨r'', rd''⟩, hrun, hregistry, -, hreader⟩ :=
      Decoder.follows_value t (n := Decoder.fuel rd) (by unfold Decoder.fuel; omega) hdue r
        hr.unsupplied
    rw [hgives] at hrun hregistry hreader
    cases hregistry
    cases hreader _ rfl
    exact ⟨_, hrun, hr'⟩

/-- What is known of an order, in lists. -/
def particulars : FieldValue :=
  .list [.list [.enum ⟨stateEnum, 1⟩, .char 'x'], .list [.byte 7, .float (.ofBits 0x3fc00000)]]

theorem portable_particulars : particulars.Portable fun _ => stateEnum := by
  have hfirst : (FieldValue.list [.enum ⟨stateEnum, 1⟩, .char 'x']).Portable fun _ => stateEnum :=
    .of_list (List.forall_mem_cons.2 ⟨.of_leaf rfl ⟨rfl, by decide, by decide⟩,
      List.forall_mem_singleton.2 (.of_leaf rfl trivial)⟩)
  have hsecond : (FieldValue.list [.byte 7, .float (.ofBits 0x3fc00000)]).Portable
      fun _ => stateEnum :=
    .of_list (List.forall_mem_cons.2 ⟨.of_leaf rfl trivial,
      List.forall_mem_singleton.2 (.of_leaf rfl trivial)⟩)
  exact .of_list (List.forall_mem_cons.2 ⟨hfirst, List.forall_mem_singleton.2 hsecond⟩)

/-- Of no declared type, the symbol comes back as a text and the numbers come back wide. -/
theorem next_storedForm_particulars :
    ∃ x r r', (encode particulars).run ⟨⟨shop, [], []⟩, none, [], [], 0⟩ = (.ok x, r) ∧
      (Decoder.next (.list .any)).run ⟨r, Reader.ofValue x⟩ =
        (.ok (some (.list [.list [.text "sent", .text "x"],
          .list [.long 7, .double (.ofBits 0x3ff8000000000000)]])), ⟨r', ⟨[], none⟩⟩) := by
  have hplain : Registry.Plain (·.Enumerated fun _ => stateEnum)
      ⟨⟨shop, [], []⟩, none, [], [], 0⟩ := ⟨rfl, rfl, fun p hp => by cases hp⟩
  have hwide : Number.Single.toDouble (.ofBits 0x3fc00000) = .ofBits 0x3ff8000000000000 := by
    decide +kernel
  have hform : particulars.storedForm (.list .any) = .ok (.list [.list [.text "sent", .text "x"],
      .list [.long 7, .double (Number.Single.toDouble (.ofBits 0x3fc00000))]]) := rfl
  rw [hwide] at hform
  obtain ⟨⟨x, hx⟩, -⟩ := next_storedForm (s := shop) (t := .list .any) portable_particulars
    (by decide) trivial rfl hform
  obtain ⟨⟨r, hencode, hr⟩, -⟩ := hx _ hplain
  obtain ⟨r', hnext, -⟩ := (hx r hr).2 (Reader.ofValue x) _ (.current [])
  exact ⟨x, r, r', hencode, hnext⟩

end Registry
end Folio
