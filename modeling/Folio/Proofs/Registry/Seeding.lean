import Folio.Proofs.Entity.Checked
import Folio.Proofs.Registry.Reload
import Folio.Proofs.Registry.Restored
import Folio.Proofs.Registry.Settled
import Folio.Proofs.Registry.Singly
import Folio.Proofs.Schema.Ancestry

/-!
# Entities made of what was decoded

A value that is decoded as a type is one that a property of the type keeps as it is.
So an entity never refuses what its document is decoded as: with the codecs known
here, rebuilding a record fails only where a field cannot be decoded, at any depth.

Results:
* `Legal`: an operation that never fails with an illegal argument, with a rule for
  each way to build one.
* `legal_alone`: decoding a value is legal, and a property of the type keeps the value.
* `inflate_of_decoded`: a record is rebuilt if every field is decoded.
-/
namespace Folio

variable {s : Schema} {known : ClassRef → Prop}

/-! ## Operations that refuse no argument -/

/-- The answer is as described, or a failure other than an illegal argument. -/
def Answers {α : Type} (post : α → Prop) : Except Failure α → Prop
  | .ok a => post a
  | .error failure => ∀ cause, failure ≠ .illegal cause

/-- Beside a sound registry without suppliers, the operation answers as described and
leaves such a registry. -/
def Registry.Legal (s : Schema) (known : ClassRef → Prop) {α : Type} (m : RegistryM α)
    (post : α → Prop) : Prop :=
  ∀ r, r.From s known [] → (m.run r).2.From s known [] ∧ Answers post (m.run r).1

theorem Registry.From.unsupplied {r : Registry} (hr : r.From s known []) : r.Unsupplied where
  noProviders := hr.suppliers
  codecs := by
    intro q hq
    have hresolve := hr.sound.codecs q hq
    rw [resolve?, hr.suppliers] at hresolve
    exact hresolve

namespace Registry.Legal

variable {α β : Type} {P Q : α → Prop} {R : β → Prop}

theorem pure {a : α} (h : P a) : Legal s known (Pure.pure a) P := fun _ hr => ⟨hr, h⟩

theorem throw {failure : Failure} (h : ∀ cause, failure ≠ .illegal cause) :
    Legal s known (throw failure : RegistryM α) P := fun _ hr => ⟨hr, h⟩

theorem bind {m : RegistryM α} {f : α → RegistryM β} (h : Legal s known m P)
    (hf : ∀ a, P a → Legal s known (f a) R) : Legal s known (m >>= f) R := by
  intro r hr
  obtain ⟨hr', hanswers⟩ := h r hr
  rw [run_bind]
  rcases hm : m.run r with ⟨failure | a, r'⟩
  · rw [hm] at hr' hanswers
    exact ⟨hr', hanswers⟩
  · rw [hm] at hr' hanswers
    exact hf a hanswers r' hr'

theorem imp {m : RegistryM α} (h : Legal s known m P) (hpost : ∀ a, P a → Q a) :
    Legal s known m Q := by
  intro r hr
  obtain ⟨hr', hanswers⟩ := h r hr
  refine ⟨hr', ?_⟩
  rcases hm : (m.run r).1 with failure | a
  · rw [hm] at hanswers
    exact hanswers
  · rw [hm] at hanswers
    exact hpost a hanswers

theorem mapM {f : β → RegistryM α} {bs : List β} (h : ∀ b ∈ bs, Legal s known (f b) P) :
    Legal s known (bs.mapM f) fun as => ∀ a ∈ as, P a := by
  induction bs with
  | nil => exact .pure fun a ha => by cases ha
  | cons b rest ih =>
    rw [List.mapM_cons]
    refine .bind (h b List.mem_cons_self) fun a ha => ?_
    refine .bind (ih fun c hc => h c (List.mem_cons_of_mem b hc)) fun as has => .pure ?_
    intro x hx
    rcases List.mem_cons.1 hx with rfl | hx
    · exact ha
    · exact has x hx

theorem congr {m m' : RegistryM α} (h : Legal s known m P)
    (hm : ∀ r, r.Unsupplied → m'.run r = m.run r) : Legal s known m' P := by
  intro r hr
  rw [hm r hr.unsupplied]
  exact h r hr

/-- The codec that is found is known here for a type that counts as the same. -/
theorem codec {t : ValueType} (ht : t.ItemsRefer known) :
    Legal s known (Registry.codec t) fun c =>
      ∃ u, (t == u) = true ∧ Codec.builtin? u = some c ∧ u.ItemsRefer known := by
  intro r hr
  rcases hrun : (Registry.codec t).run r with ⟨failure | c, r'⟩
  · refine ⟨(run_codec_sound ht hr hrun).1, ?_⟩
    rcases codec_cases t r with ⟨c, -, hfound⟩ | ⟨-, hnone⟩ | ⟨c, -, -, hfound⟩
    · cases hfound.symm.trans hrun
    · cases hnone.symm.trans hrun
      exact fun cause hc => by cases hc
    · cases hfound.symm.trans hrun
  · obtain ⟨hr', hfound⟩ := run_codec_sound ht hr hrun
    obtain ⟨u, hu, hserves, hitems⟩ := hfound c rfl
    rcases hserves with hb | ⟨k, -, -, p, hp, -⟩
    · exact ⟨hr', u, hu, hb, hitems⟩
    · cases hp

end Registry.Legal

/-! ## Leaves -/

namespace Decoder

variable {α β : Type} {P : α → Prop}

/-- The step leaves the registry alone and answers as described. -/
def Mild (d : Decoder) (step : Step α) (post : α → Prop) : Prop :=
  (step.run d).2.registry = d.registry ∧ Answers post (step.run d).1

namespace Mild

variable {d : Decoder}

theorem pure {a : α} (h : P a) : Mild d (Pure.pure a) P := ⟨rfl, h⟩

theorem fault (fault : DataFault) : Mild d (throw (.data fault) : Step α) P :=
  ⟨rfl, fun _ hc => by cases hc⟩

theorem map {step : Step α} {f : α → β} {Q : β → Prop} (h : Mild d step P) (hf : ∀ a, P a → Q (f a)) :
    Mild d (do return f (← step)) Q := by
  obtain ⟨hregistry, hanswers⟩ := h
  rw [Mild, run_bind]
  rcases hstep : step.run d with ⟨failure | a, d'⟩
  · rw [hstep] at hregistry hanswers
    exact ⟨hregistry, hanswers⟩
  · rw [hstep] at hregistry hanswers
    exact ⟨hregistry, hf a hanswers⟩

end Mild

theorem mild_narrow (least most : Int) (n : Int64) {make : Int64 → FieldValue}
    {P : FieldValue → Prop} (h : ∀ n, P (make n)) (d : Decoder) :
    Mild d (narrow least most n make) P := by
  unfold narrow
  split
  · exact .pure (h n)
  · exact .fault _

/-- What is read as a primitive is one of the kind, and no NaN if none was stored. -/
theorem mild_primitive (p : Primitive) {v : Value} (hv : v.hasNaN = false) (d : Decoder) :
    Mild d (primitive p v) fun x => x.type = .primitive p ∧ x.hasNaN = false := by
  unfold primitive
  split
  case h_2 | h_3 | h_4 => exact mild_narrow _ _ _ (fun n => ⟨rfl, rfl⟩) d
  case h_6 => exact .pure ⟨rfl, Number.Floating.isNaN_convert (by decide) hv⟩
  case h_7 | h_9 => exact .pure ⟨rfl, Number.Floating.isNaN_ofInt (by decide) _⟩
  case h_8 => exact .pure ⟨rfl, hv⟩
  case h_10 =>
    split
    · exact .pure ⟨rfl, rfl⟩
    · exact .fault _
  case h_11 => exact .fault _
  all_goals exact .pure ⟨rfl, rfl⟩

end Decoder

namespace FieldValue

theorem kept_primitive {p : Primitive} {x : FieldValue} (h : x.type = .primitive p)
    (hn : x.hasNaN = false) : x.Kept s (.primitive p) ∧ x.Kept s (.boxed p) := by
  have hfits : (x.type == .primitive p) = true := by rw [h]; exact ValueType.beq_refl _
  refine ⟨⟨?_, hn, storedForm_of_scalar x (by simp) (by simp)⟩,
    ⟨?_, hn, storedForm_of_scalar x (by simp) (by simp)⟩⟩
  · rwa [fits]
  · rwa [fits]

theorem kept_any {x : FieldValue} (hn : x.hasNaN = false) (hu : x.untyped = .ok x) :
    x.Kept s .any := ⟨by cases x <;> rfl, hn, hu⟩

theorem mem_naturalItems {items : List Value} {x : FieldValue}
    (h : x ∈ Decoder.naturalItems items) : ∃ v ∈ items, Decoder.natural v = some x := by
  induction items with
  | nil => cases h
  | cons v rest ih =>
    rw [Decoder.naturalItems] at h
    cases hv : Decoder.natural v with
    | none =>
      simp only [hv] at h
      obtain ⟨w, hw, hx⟩ := ih h
      exact ⟨w, List.mem_cons_of_mem v hw, hx⟩
    | some y =>
      simp only [hv] at h
      rcases List.mem_cons.1 h with rfl | h
      · exact ⟨v, List.mem_cons_self, hv⟩
      · obtain ⟨w, hw, hx⟩ := ih h
        exact ⟨w, List.mem_cons_of_mem v hw, hx⟩

/-- The value in memory of a stored value is one that is read back as it is. -/
theorem kept_natural {v : Value} (hv : v.hasNaN = false) {x : FieldValue}
    (h : Decoder.natural v = some x) : x.Kept s .any := by
  induction v using Value.tree generalizing x with
  | scalar v hs =>
    cases v with
    | null => cases h
    | double d =>
      cases h
      exact kept_any hv rfl
    | array items => cases hs
    | document doc => cases hs
    | _ =>
      cases h
      exact kept_any rfl rfl
  | array items ih =>
    cases h
    have hall : ∀ x ∈ Decoder.naturalItems items, x.Kept s .any := by
      intro x hx
      obtain ⟨w, hw, hwx⟩ := mem_naturalItems hx
      exact ih w hw (Value.hasNaN_array.1 hv w hw) hwx
    refine kept_any (hasNaN_list.2 fun x hx => (hall x hx).number) (untyped_list.2 ⟨_, ?_, rfl⟩)
    exact mapM_self fun x hx => (hall x hx).stored
  | document fields ih =>
    cases h
    exact kept_any hv rfl

end FieldValue

/-! ## Decoded values -/

/-- What was decoded, if anything, is one that a property of the type keeps. -/
def Fitting (s : Schema) (t : ValueType) (found : Option FieldValue) : Prop :=
  ∀ x, found = some x → x.Kept s t

theorem fitting_none (t : ValueType) : Fitting s t none := fun _ h => by cases h

theorem fitting_some {t : ValueType} {x : FieldValue} (h : x.Kept s t) : Fitting s t (some x) :=
  fun _ hx => by cases hx; exact h

theorem Fitting.congr {t u : ValueType} {found : Option FieldValue} (h : Fitting s u found)
    (hu : (t == u) = true) : Fitting s t found :=
  fun x hx => (h x hx).congr hu

namespace Decoder

theorem Mild.take {α : Type} {P : α → Prop} {f : Value → Step α} {v : Value} {d : Decoder}
    {rd' : Reader} (hdue : Reader.Due v d.reader rd') (h : Mild ⟨d.registry, rd'⟩ (f v) P) :
    Mild d (read Reader.take >>= f) P := by
  rw [Mild, run_bind_ok (run_take hdue)]
  exact h

/-- What the codec of a type reads of a value without others in it. -/
theorem mild_leaf {u : ValueType} {c : Codec} (hb : Codec.builtin? u = some c)
    (hlist : ∀ element, c ≠ .list element) {v : Value} (hv : v.hasNaN = false) (r : Registry) :
    Mild ⟨r, Reader.ofValue v⟩ (leaf c) (Fitting s u) := by
  have hdue : Reader.Due v (Reader.ofValue v) ⟨[], none⟩ := .current []
  cases u with
  | entity cls =>
    cases hb
    exact ⟨rfl, fun cause hc => by cases hc⟩
  | list element =>
    cases hb
    exact absurd rfl (hlist element)
  | foreign name => cases hb
  | primitive p =>
    cases hb
    refine .take hdue ?_
    cases v with
    | null => exact .pure (fitting_none _)
    | _ => exact (mild_primitive p hv _).map fun x hx => fitting_some (FieldValue.kept_primitive hx.1 hx.2).1
  | boxed p =>
    cases hb
    refine .take hdue ?_
    cases v with
    | null => exact .pure (fitting_none _)
    | _ => exact (mild_primitive p hv _).map fun x hx => fitting_some (FieldValue.kept_primitive hx.1 hx.2).2
  | enum e =>
    cases hb
    refine .take hdue ?_
    cases v with
    | null => exact .pure (fitting_none _)
    | text symbol =>
      refine .pure fun x hx => ?_
      obtain ⟨y, hy, rfl⟩ := Option.map_eq_some_iff.1 hx
      obtain ⟨i, -, rfl⟩ := Option.map_eq_some_iff.1 hy
      exact ⟨ValueType.beq_refl (.enum e), rfl, rfl⟩
    | _ => exact .fault _
  | bytes =>
    cases hb
    refine .take hdue ?_
    cases v with
    | null => exact .pure (fitting_none _)
    | bytes stored => exact .pure (fitting_some ⟨rfl, rfl, rfl⟩)
    | _ => exact .fault _
  | document =>
    cases hb
    refine .take hdue ?_
    cases v with
    | null => exact .pure (fitting_none _)
    | document doc =>
      obtain ⟨fields⟩ := doc
      exact .pure (fitting_some ⟨rfl, hv, rfl⟩)
    | _ => exact .fault _
  | any =>
    cases hb
    refine .take hdue ?_
    cases v with
    | null => exact .pure (fitting_none _)
    | _ => exact .pure fun x hx => FieldValue.kept_natural hv hx
  | _ =>
    cases hb
    refine .take hdue ?_
    cases v <;>
      first
      | exact .pure (fitting_none _)
      | exact .pure (fitting_some ⟨rfl, rfl, rfl⟩)
      | exact .fault _

end Decoder

namespace FieldValue

theorem kept_list {t : ValueType} {items : List FieldValue} (h : ∀ x ∈ items, x.Kept s t) :
    (list items).Kept s (.list t) where
  fits := fits_list.2 fun x hx => (h x hx).fits
  number := hasNaN_list.2 fun x hx => (h x hx).number
  stored := storedForm_list.2 ⟨items, mapM_self fun x hx => (h x hx).stored, rfl⟩

/-- Byte strings and lists of no declared type are kept also where no type is declared. -/
theorem Kept.any_of_bytes {x : FieldValue} (h : x.Kept s .bytes) : x.Kept s .any := by
  refine kept_any h.number ?_
  have hfits := h.fits
  cases x <;> first | rfl | cases hfits

theorem Kept.any_of_list {x : FieldValue} (h : x.Kept s (.list .any)) : x.Kept s .any := by
  refine kept_any h.number ?_
  have hfits := h.fits
  cases x with
  | list items =>
    obtain ⟨ws, hws, heq⟩ := storedForm_list.1 h.stored
    exact untyped_list.2 ⟨ws, hws, heq⟩
  | _ => cases hfits

end FieldValue

/-! ## Decoding alone -/

namespace Registry

variable {c : ClassRef} {v : Value} {t : ValueType}

theorem run_withCatalog {α : Type} (m : CatalogM α) (r : Registry) :
    (withCatalog m).run r = ((m.run r.catalog).1, { r with catalog := (m.run r.catalog).2 }) := rfl

theorem legal_decoding {α : Type} {P : α → Prop} {step : Decoder.Step α} {rd : Reader}
    (h : ∀ r, Decoder.Mild ⟨r, rd⟩ step P) : Legal s known (decoding rd step) P := by
  intro r hr
  obtain ⟨hregistry, hanswers⟩ := h r
  rw [run_decoding_eq, hregistry]
  exact ⟨hr, hanswers⟩

theorem legal_listed {element : ValueType}
    (h : ∀ items, v = .array items → ∀ x ∈ items, Legal s known (alone element x) (Fitting s element)) :
    Legal s known (listed element v) (Fitting s (.list element)) := by
  cases v with
  | null => exact .pure (fitting_none _)
  | array items =>
    refine .bind (.mapM (h items rfl)) fun found hfound => .pure (fitting_some ?_)
    exact FieldValue.kept_list fun x hx => hfound _ (List.reduceOption_mem_iff.1 hx) x rfl
  | _ => exact .throw fun _ hc => by cases hc

theorem legal_fieldsAs {d : Descriptor}
    (h : ∀ fields, v = .document ⟨fields⟩ → ∀ f ∈ fields,
      Legal s known (alone (d.typeOf f.1) f.2) (Fitting s (d.typeOf f.1))) :
    Legal s known (fieldsAs d v) fun found => ∀ a ∈ found, a.2.Kept s (d.typeOf a.1) := by
  cases v with
  | document doc =>
    obtain ⟨fields⟩ := doc
    have hfield : ∀ f ∈ fields, Legal s known (aloneField d f) fun found =>
        ∀ a, found = some a → a.2.Kept s (d.typeOf a.1) := by
      refine fun f hf => .bind (h fields rfl f hf) fun found hfound => .pure fun a ha => ?_
      obtain ⟨x, hx, rfl⟩ := Option.map_eq_some_iff.1 ha
      exact hfound x hx
    refine .bind (.mapM hfield) fun found hfound => .pure fun a ha => ?_
    exact hfound _ (List.reduceOption_mem_iff.1 ((Keyed.ofList_cases _).2 a ha)) a rfl
  | _ => exact .throw fun _ hc => by cases hc

/-! ## Descriptors -/

/-- The descriptor of a known class is that of a known class of the name. -/
theorem legal_descriptor (hc : known c) :
    Legal s known (withCatalog (Catalog.descriptor c)) fun d =>
      ∃ c', known c' ∧ c'.name = c.name ∧ d = Descriptor.ofClass s c' := by
  intro r hr
  obtain ⟨hr', hfound⟩ := sound_descriptor hc hr rfl
  exact ⟨hr', hfound _ rfl⟩

theorem settles_alone (t : ValueType) (v : Value) : Settles Grows (alone t v) :=
  settles_decoding (Decoder.steady_get (fun _ _ _ _ => rfl) fun _ => Decoder.steady_value _ _) _

theorem settles_fieldsAs (d : Descriptor) (v : Value) : Settles Grows (fieldsAs d v) := by
  cases v with
  | document doc =>
    refine grows_frame.settles_bind (grows_frame.settles_mapM (fun f => ?_) _) fun found =>
      grows_frame.settles_pure _
    exact grows_frame.settles_bind (settles_alone _ _) fun found => grows_frame.settles_pure _
  | _ => exact nofun

/-- The descriptor that told how to decode the fields is still the one that is found. -/
theorem fielded_cases {r r' : Registry} {found : Fields}
    (h : (fielded c v).run r = (.ok found, r')) :
    ∃ d r₁, (withCatalog (Catalog.descriptor c)).run r = (.ok d, r₁) ∧
      (fieldsAs d v).run r₁ = (.ok found, r') ∧
      (Catalog.descriptor c).run r'.catalog = (d, r'.catalog) := by
  obtain ⟨d, r₁, hd, hfields⟩ := ok_of_run_bind h
  refine ⟨d, r₁, hd, hfields, ?_⟩
  have hlift : (liftM (Catalog.descriptor c) : CatalogM Descriptor).run r.catalog =
      (.ok d, r₁.catalog) := by
    cases hd
    rfl
  obtain ⟨-, hstays⟩ := Catalog.settles_descriptor c _ _ _ hlift
  have hagain := hstays _ (settles_fieldsAs d v _ _ _ hfields).1.catalog
  rw [run_monadLift] at hagain
  obtain ⟨hok, hcatalog⟩ := Prod.mk.inj hagain
  exact Prod.ext (Except.ok.inj hok) hcatalog

/-- Whatever stands directly in the value is decoded legally, as a type that keeps it. -/
structure Tame (s : Schema) (known : ClassRef → Prop) (v : Value) : Prop where
  items : ∀ items, v = .array items → ∀ x ∈ items, ∀ t : ValueType, t.Refers known →
    Legal s known (alone t x) (Fitting s t)
  fields : ∀ fields, v = .document ⟨fields⟩ → ∀ f ∈ fields, ∀ t : ValueType, t.Refers known →
    Legal s known (alone t f.2) (Fitting s t)

namespace Tame

theorem fieldsAs (h : Tame s known v) {d : Descriptor} (hd : ∀ k, (d.typeOf k).Refers known) :
    Legal s known (Registry.fieldsAs d v) fun found => ∀ a ∈ found, a.2.Kept s (d.typeOf a.1) :=
  legal_fieldsAs fun fields hv f hf => h.fields fields hv f hf _ (hd f.1)

/-- The properties that are decoded are kept by the class as it is found by then. -/
theorem fielded (h : Tame s known v) (hclosed : s.Closed known) (hc : known c) {r : Registry}
    (hr : r.From s known []) :
    ((Registry.fielded c v).run r).2.From s known [] ∧
      Answers (fun found => ∃ d, (Catalog.descriptor c).run ((Registry.fielded c v).run r).2.catalog =
          (d, ((Registry.fielded c v).run r).2.catalog) ∧
        ∀ a ∈ found, a.2.Kept s (d.typeOf a.1)) ((Registry.fielded c v).run r).1 := by
  have hlegal : Legal s known (Registry.fielded c v) fun _ => True := by
    refine .bind (legal_descriptor hc) ?_
    rintro d ⟨c', hc', -, rfl⟩
    exact (h.fieldsAs (hclosed.typeOf hc')).imp fun _ _ => trivial
  obtain ⟨hr', hanswers⟩ := hlegal r hr
  refine ⟨hr', ?_⟩
  rcases hrun : (Registry.fielded c v).run r with ⟨failure | found, r'⟩
  · rw [hrun] at hanswers
    exact hanswers
  · obtain ⟨d, r₁, hd, hfields, hagain⟩ := fielded_cases hrun
    obtain ⟨hr₁, c', hc', -, rfl⟩ : r₁.From s known [] ∧
        ∃ c', known c' ∧ c'.name = c.name ∧ d = Descriptor.ofClass s c' := by
      have hdescriptor := legal_descriptor hc r hr
      rw [hd] at hdescriptor
      exact hdescriptor
    have hkept := (h.fieldsAs (hclosed.typeOf hc') r₁ hr₁).2
    rw [hfields] at hkept
    exact ⟨_, hagain, hkept⟩

theorem built (h : Tame s known v) (hclosed : s.Closed known) (hc : known c) (hproper : s.Proper c) :
    Legal s known (Registry.built c v) (Fitting s (.entity c)) := by
  by_cases hnull : v = .null
  · subst hnull
    exact .pure (fitting_none _)
  have hbuilt : Registry.built c v = (do
      let found ← Registry.fielded c v
      let e ← withCatalog (Entity.instantiate c (some found))
      return some (.entity e)) := by
    cases v <;> first | rfl | exact absurd rfl hnull
  intro r hr
  obtain ⟨hr', hanswers⟩ := h.fielded hclosed hc hr
  rw [hbuilt, run_bind]
  rcases hrun : (Registry.fielded c v).run r with ⟨failure | found, r'⟩
  · rw [hrun] at hr' hanswers
    exact ⟨hr', hanswers⟩
  · rw [hrun] at hr' hanswers
    obtain ⟨d, hd, hkept⟩ := hanswers
    have hschema := hr'.sound.catalog.schema
    by_cases hform : ∃ declared, s.find? c = some declared ∧ declared.form = .trait
    · have hinstance := Entity.run_instantiate_of_kept hschema hform hd hkept
      simp only [run_bind, Decoder.run_withCatalog hinstance]
      obtain ⟨declared, hfind, -⟩ := hform
      exact ⟨hr', fitting_some ⟨Schema.isA_self hproper hfind, rfl, rfl⟩⟩
    · obtain ⟨cause, hrefused⟩ := Entity.run_instantiate_refused hschema hform (some found)
      have hboth : (withCatalog (Entity.instantiate c (some found))).run r' =
          (.error (.unsupported cause), r') := by
        rw [run_withCatalog, hrefused]
      simp only [run_bind, hboth]
      exact ⟨hr', fun _ hc => by cases hc⟩

/-- A declared type leads straight to the parts. -/
theorem declared (h : Tame s known v) (hclosed : s.Closed known) (hproper : ∀ c, known c → s.Proper c)
    (hv : v.hasNaN = false) (ht : t.Refers known) (hany : t ≠ .any) :
    Legal s known (alone t v) (Fitting s t) := by
  refine .congr ?_ fun r hr => Decoder.run_alone t v hr
  by_cases hentity : ∃ c, t = .entity c
  · obtain ⟨c, rfl⟩ := hentity
    exact h.built hclosed ht (hproper c ht)
  rw [Decoder.partwise_of_ne fun c hc => hentity ⟨c, hc⟩]
  refine .bind (.codec ht.items) ?_
  rintro c ⟨u, hu, hb, hitems⟩
  -- the type that the codec was found for keeps what the declared one keeps
  refine Legal.imp ?_ fun found hfound => Fitting.congr hfound hu
  cases c with
  | list element =>
    obtain rfl : u = .list element := by cases u <;> cases hb; rfl
    exact legal_listed fun items hv x hx => h.items items hv x hx element (hitems element rfl)
  | any => exact absurd (Decoder.eq_any_of_builtin? hu hb) hany
  | custom k => exact absurd rfl (Decoder.builtin?_ne_custom hb k)
  | _ => exact legal_decoding fun r => Decoder.mild_leaf hb (fun _ hc => by cases hc) hv r

/-- Where no type is declared, the value's own type leads to the parts. -/
theorem any (h : Tame s known v) (hclosed : s.Closed known) (hproper : ∀ c, known c → s.Proper c)
    (hv : v.hasNaN = false) : Legal s known (alone .any v) (Fitting s .any) := by
  refine .congr ?_ fun r hr => Decoder.run_alone .any v hr
  rw [Decoder.partwise_of_ne fun c hc => by cases hc]
  refine .bind (.codec fun _ hlist => by cases hlist) ?_
  rintro c ⟨u, hu, hb, -⟩
  obtain rfl : u = .any := by cases u <;> first | rfl | cases hu
  cases hb
  cases v with
  | bytes b =>
    refine (h.declared hclosed hproper hv (t := .bytes) trivial (by simp)).imp ?_
    exact fun found hfound x hx => (hfound x hx).any_of_bytes
  | array items =>
    refine (h.declared hclosed hproper hv (t := .list .any) trivial (by simp)).imp ?_
    exact fun found hfound x hx => (hfound x hx).any_of_list
  | _ => exact legal_decoding fun r => Decoder.mild_leaf (u := .any) rfl (fun _ hc => by cases hc) hv r

theorem legal (h : Tame s known v) (hclosed : s.Closed known) (hproper : ∀ c, known c → s.Proper c)
    (hv : v.hasNaN = false) (ht : t.Refers known) : Legal s known (alone t v) (Fitting s t) := by
  by_cases hany : t = .any
  · subst hany
    exact h.any hclosed hproper hv
  · exact h.declared hclosed hproper hv ht hany

end Tame

variable (hclosed : s.Closed known) (hproper : ∀ c, known c → s.Proper c)

include hclosed hproper

theorem tame (hv : v.hasNaN = false) : Tame s known v := by
  induction v using Value.tree with
  | scalar v hs =>
    refine ⟨?_, ?_⟩
    all_goals
      rintro parts rfl
      cases hs
  | array items ih =>
    refine ⟨?_, fun _ h => by cases h⟩
    intro items' heq x hx t ht
    cases heq
    have hx' := Value.hasNaN_array.1 hv x hx
    exact (ih x hx hx').legal hclosed hproper hx' ht
  | document fields ih =>
    refine ⟨fun _ h => (by cases h), ?_⟩
    intro fields' heq f hf t ht
    cases heq
    have hf' := Value.hasNaN_document.1 hv f hf
    exact (ih f hf hf').legal hclosed hproper hf' ht

/-- Decoding a value refuses no argument at any depth, and a property of the type keeps
the value. -/
theorem legal_alone (hv : v.hasNaN = false) (ht : t.Refers known) :
    Legal s known (alone t v) (Fitting s t) :=
  (tame hclosed hproper hv).legal hclosed hproper hv ht

omit hclosed hproper

/-! ## Records -/

/-- The fields of a document, each decoded alone as the class declares it. -/
def decoded (c : ClassRef) (doc : Document) : RegistryM (List (Option (String × FieldValue))) := do
  doc.fields.mapM (aloneField (← withCatalog (Catalog.descriptor c)))

theorem fielded_document (c : ClassRef) (doc : Document) :
    fielded c (.document doc) = (do return Keyed.ofList (← decoded c doc).reduceOption) := by
  simp only [fielded, fieldsAs, decoded, bind_assoc]

/-- The document of a record is decoded field by field. -/
theorem run_inflate (c : ClassRef) (doc : Document) {r : Registry} (hr : r.Unsupplied) :
    (inflate c doc : RegistryM Entity).run r =
      (do withCatalog (Record.create c (some (← fielded c (.document doc)))) : RegistryM Entity).run r := by
  have hdue : Reader.Due (.document doc) (Reader.ofDocument doc) ⟨[], none⟩ := .current []
  have hfuel : 2 * (Value.document doc).depth ≤ Decoder.fuel (Reader.ofDocument doc) + 2 := by
    show 2 * (Value.document doc).depth ≤ 2 * max (Value.document doc).depth 0 + 2 + 2
    omega
  have hfields := (Decoder.follows_fields (c := c)
    ((Decoder.parts (.document doc)).follows_property hfuel) hdue).run_decoding hr
  rw [inflate, run_bind, run_bind, hfields]

theorem run_create_of_kept {k : Catalog} (hk : k.schema = s) {d : Descriptor}
    (hdeclared : ∃ declared, s.find? c = some declared ∧ declared.form = .trait ∧
      declared.table.isSome = true)
    (hd : (Catalog.descriptor c).run k = (d, k)) {seed : Fields}
    (hseed : ∀ a ∈ seed, a.2.Kept s (d.typeOf a.1)) :
    (Record.create c (some seed) : CatalogM Entity).run k =
      (.ok (Entity.fillDefaults ⟨c, d, Keyed.ofList seed⟩), k) := by
  obtain ⟨declared, hfind, hform, htable⟩ := hdeclared
  have hentity : s.isEntityClass c = true := by
    rw [Schema.isEntityClass, hfind]
    simp only [htable, hform, Bool.and_true]
  have hinstance := Entity.run_instantiate_of_kept hk ⟨declared, hfind, hform⟩ hd hseed
  simp only [Record.create, run_bind, run_get, hk, hentity]
  show (tryCatch (Entity.instantiate c (some seed)) _ : CatalogM Entity).run k = _
  rw [run_tryCatch, hinstance]

/-- A record of a class that is declared alone is rebuilt if every field of its document
is decoded, of nothing but what was decoded and the defaults; otherwise rebuilding it
fails as the first field does that is not. So seeding refuses nothing: what is decoded as
a type fits the type, holds no NaN and is its own stored form, and at no depth does
decoding fail with an illegal argument. -/
theorem inflate_of_decoded (hclosed : s.Closed known) (hproper : ∀ c, known c → s.Proper c)
    {r : Registry} (hr : r.From s known []) {c : ClassRef} (hc : known c)
    (hdeclared : ∃ declared, s.find? c = some declared ∧ declared.form = .trait ∧
      declared.table.isSome = true)
    {doc : Document} (hn : (Value.document doc).hasNaN = false) :
    (∀ found, ((decoded c doc).run r).1 = .ok found →
      ∃ d, ((inflate c doc : RegistryM Entity).run r).1 =
        .ok (Entity.fillDefaults ⟨c, d, Keyed.ofList found.reduceOption⟩)) ∧
    (∀ failure, ((inflate c doc : RegistryM Entity).run r).1 = .error failure ↔
      ((decoded c doc).run r).1 = .error failure) ∧
    ∀ t v, t.Refers known → v.hasNaN = false → ∀ r', r'.From s known [] →
      (∀ x, ((alone t v).run r').1 = .ok (some x) →
        x.fits s t = true ∧ x.hasNaN = false ∧ x.storedForm t = .ok x) ∧
      ∀ cause, ((alone t v).run r').1 ≠ .error (.illegal cause) := by
  have hseeds := (tame hclosed hproper hn).fielded (c := c) hclosed hc hr
  have hrun := run_inflate c doc hr.unsupplied
  rw [fielded_document] at hseeds hrun
  have hok : ∀ found, ((decoded c doc).run r).1 = .ok found →
      ∃ d, ((inflate c doc : RegistryM Entity).run r).1 =
        .ok (Entity.fillDefaults ⟨c, d, Keyed.ofList found.reduceOption⟩) := by
    intro found hfound
    have hdecoded : (decoded c doc).run r = (.ok found, ((decoded c doc).run r).2) := Prod.ext hfound rfl
    rw [run_bind_ok hdecoded] at hseeds
    obtain ⟨hr', d, hd, hkept⟩ := hseeds
    have hcreate := run_create_of_kept hr'.sound.catalog.schema hdeclared hd hkept
    rw [Keyed.ofList_ofList] at hcreate
    refine ⟨d, ?_⟩
    rw [hrun, bind_assoc, run_bind_ok hdecoded]
    exact congrArg Prod.fst (Decoder.run_withCatalog hcreate)
  have herror : ∀ failure, ((decoded c doc).run r).1 = .error failure →
      ((inflate c doc : RegistryM Entity).run r).1 = .error failure := by
    intro failure hfailure
    have hdecoded : (decoded c doc).run r = (.error failure, ((decoded c doc).run r).2) :=
      Prod.ext hfailure rfl
    rw [hrun, bind_assoc, run_bind_error hdecoded]
  refine ⟨hok, fun failure => ⟨fun hfailure => ?_, herror failure⟩, fun t v ht hv r' hr' => ?_⟩
  · rcases hdecoded : ((decoded c doc).run r).1 with other | found
    · cases (herror other hdecoded).symm.trans hfailure
      rfl
    · obtain ⟨d, hinflate⟩ := hok found hdecoded
      rw [hinflate] at hfailure
      cases hfailure
  · have hlegal := (legal_alone hclosed hproper hv ht r' hr').2
    refine ⟨fun x hx => ?_, fun cause hcause => ?_⟩
    · rw [hx] at hlegal
      have hkept := hlegal x rfl
      exact ⟨hkept.fits, hkept.number, hkept.stored⟩
    · rw [hcause] at hlegal
      exact hlegal cause rfl

/-! ## An order that is read -/

/-- An order as it is stored: of three pieces, with a remark that is not declared. -/
def orderStored : Document :=
  ⟨[("_id", .objectId (.ofParts 1 2)), ("lines", .array [.document ⟨[("count", .integer 3)]⟩]),
    ("remarks", .array [.array [.text "soon"], .null]), ("state", .text "sent")]⟩

/-- The codecs after the properties of orders and lines were looked up. -/
def shopKnown : Registry :=
  ⟨⟨shop, [(orderRef.name, Descriptor.ofClass shop orderRef),
    (lineRef.name, Descriptor.ofClass shop lineRef)], []⟩, none, [], [], 0⟩

theorem closed_shop : shop.Closed (· ∈ [orderRef, lineRef]) := by
  have hall : ∀ c ∈ [orderRef, lineRef], ∀ p ∈ (Descriptor.ofClass shop c).properties,
      p.type = .objectId ∨ p.type = .dateTime ∨ p.type = .primitive .int ∨ p.type = .enum stateEnum ∨
        p.type = .list (.entity lineRef) := by
    intro c hc
    simp only [List.mem_cons, List.not_mem_nil, or_false] at hc
    rcases hc with rfl | rfl
    · rw [Descriptor.ofClass, methods_order]
      decide +kernel
    · rw [Descriptor.ofClass, methods_line]
      decide +kernel
  intro c hc p hp
  rcases hall c hc p hp with h | h | h | h | h <;> rw [h]
  · trivial
  · trivial
  · trivial
  · trivial
  · exact List.mem_cons_of_mem _ List.mem_cons_self

theorem from_shopKnown : shopKnown.From shop (· ∈ [orderRef, lineRef]) [] := by
  refine ⟨⟨List.forall_mem_nil _, List.forall_mem_nil _, List.forall_mem_nil _, rfl, ?_⟩, rfl⟩
  intro p hp
  rcases List.mem_cons.1 hp with rfl | hp
  · exact ⟨orderRef, List.mem_cons_self, rfl, rfl⟩
  · rw [List.mem_singleton.1 hp]
    exact ⟨lineRef, List.mem_cons_of_mem _ List.mem_cons_self, rfl, rfl⟩

/-- The order is rebuilt, since its fields are decoded. -/
theorem inflate_of_decoded_order :
    ∃ e, ((inflate orderRef orderStored : RegistryM Entity).run shopKnown).1 = .ok e := by
  have hsome : ((decoded orderRef orderStored).run shopKnown).1.toOption.isSome = true := by
    rw [shopKnown, Descriptor.ofClass, methods_order, Descriptor.ofClass, methods_line]
    decide +kernel
  obtain ⟨found, hfound⟩ : ∃ found, ((decoded orderRef orderStored).run shopKnown).1 = .ok found := by
    cases h : ((decoded orderRef orderStored).run shopKnown).1 with
    | error failure => rw [h] at hsome; cases hsome
    | ok found => exact ⟨found, rfl⟩
  have hproper : ∀ c ∈ [orderRef, lineRef], shop.Proper c := by
    intro c hc d hd
    simp only [List.mem_cons, List.not_mem_nil, or_false] at hc
    rcases hc with rfl | rfl <;> cases hd <;> rfl
  have hnumbers : (Value.document orderStored).hasNaN = false := by decide
  obtain ⟨hok, -⟩ := inflate_of_decoded closed_shop hproper from_shopKnown List.mem_cons_self
    ⟨orderClass, rfl, rfl, rfl⟩ hnumbers
  obtain ⟨d, hinflate⟩ := hok found hfound
  exact ⟨_, hinflate⟩

end Registry
end Folio
