import Mathlib.Data.List.ReduceOption
import Folio.Proofs.Registry.Decoding

/-!
# Values decoded one by one

A value is decoded the same wherever it stands. With the codecs known here it is
taken whole, its items and fields are each decoded once and in order as they would
be alone, and what bounds the depth of decoding and the number of entries never
comes into play.

Results:
* `Follows`: a step of decoding does what an operation on the registry does, and
  passes over what it reads; with a rule for each way to build one.
* `follows_entries`: entries are decoded one after another until none is left.
* `run_alone`: what decoding a value comes to, told by its parts alone.
* `skip_of_next`: decoding a value of any declared type passes over the value.
-/
namespace Folio

/-! ## Parts decoded alone -/

namespace Registry

/-- A value decoded as a declared type, with nothing beside it. -/
def alone (t : ValueType) (v : Value) : RegistryM (Option FieldValue) :=
  decoding (Reader.ofValue v) (Decoder.next t)

/-- A field whose value is decoded alone, as the type that is declared for its name. -/
def aloneField (d : Descriptor) (f : String × Value) : RegistryM (Option (String × FieldValue)) := do
  return (← alone (d.typeOf f.1) f.2).map (f.1, ·)

/-- A value as a list of items that are each decoded alone. -/
def listed (element : ValueType) : Value → RegistryM (Option FieldValue)
  | .null => pure none
  | .array items => do
    let found ← items.mapM (alone element)
    return some (.list found.reduceOption)
  | v => throw (.data (.unexpectedType "array" v.typeName))

/-- A value as properties that are each of a field that is decoded alone. -/
def fieldsAs (d : Descriptor) : Value → RegistryM Fields
  | .document doc => do
    let found ← doc.fields.mapM (aloneField d)
    return Keyed.ofList found.reduceOption
  | v => throw (.data (.unexpectedType "document" v.typeName))

/-- The same of the properties that a class declares. -/
def fielded (c : ClassRef) (v : Value) : RegistryM Fields := do
  fieldsAs (← withCatalog (Catalog.descriptor c)) v

/-- A value as an entity of a class. -/
def built (c : ClassRef) : Value → RegistryM (Option FieldValue)
  | .null => pure none
  | v => do
    let found ← fielded c v
    let e ← withCatalog (Entity.instantiate c (some found))
    return some (.entity e)

/-- A value by a codec that holds no other values. -/
def leafAlone (c : Codec) (v : Value) : RegistryM (Option FieldValue) :=
  decoding (Reader.ofValue v) (Decoder.leaf c)

/-- A value by the codec that was found for its type. -/
def opened (v : Value) : Codec → RegistryM (Option FieldValue)
  | .list element => listed element v
  | .any =>
    match v with
    | .bytes _ => alone .bytes v
    | .array _ => alone (.list .any) v
    | v => leafAlone .any v
  | c => leafAlone c v

/-- A value as a declared type, by its parts. -/
def partwise : ValueType → Value → RegistryM (Option FieldValue)
  | .entity c, v => built c v
  | t, v => do opened v (← codec t)

theorem run_decoding_eq {α : Type} (rd : Reader) (step : Decoder.Step α) (r : Registry) :
    (decoding rd step).run r = ((step.run ⟨r, rd⟩).1, (step.run ⟨r, rd⟩).2.registry) := rfl

theorem Unsupplied.withCatalog {r : Registry} (hr : r.Unsupplied) {α : Type} (m : CatalogM α) :
    ((Registry.withCatalog m).run r).2.Unsupplied := ⟨hr.noProviders, hr.codecs⟩

end Registry

namespace Decoder

open Registry (alone aloneField listed fieldsAs fielded built leafAlone opened partwise)

variable {α β γ : Type} {rd rd' after : Reader} {v : Value}

/-! ## Steps and what they come to -/

/-- Beside any registry without suppliers, the step has the result of the operation and
leaves the registry that the operation leaves; if it succeeds, it leaves the second
reader. -/
def Follows (rd rd' : Reader) (step : Step α) (m : RegistryM α) : Prop :=
  ∀ r, r.Unsupplied → ∃ d, step.run ⟨r, rd⟩ = ((m.run r).1, d) ∧ d.registry = (m.run r).2 ∧
    d.registry.Unsupplied ∧ ∀ a, (m.run r).1 = .ok a → d.reader = rd'

namespace Follows

theorem pure (a : α) : Follows rd rd (Pure.pure a) (Pure.pure a) :=
  fun r hr => ⟨⟨r, rd⟩, rfl, rfl, hr, fun _ _ => rfl⟩

theorem throw (failure : Failure) : Follows rd rd' (throw failure : Step α) (throw failure) :=
  fun r hr => ⟨⟨r, rd⟩, rfl, rfl, hr, fun _ h => by cases h⟩

theorem bind {step : Step α} {m : RegistryM α} {f : α → Step β} {g : α → RegistryM β}
    (h : Follows rd after step m) (hf : ∀ a, Follows after rd' (f a) (g a)) :
    Follows rd rd' (step >>= f) (m >>= g) := by
  intro r hr
  obtain ⟨⟨r₁, rd₁⟩, hstep, rfl, hr₁, hrd⟩ := h r hr
  rw [run_bind, run_bind, hstep]
  rcases hm : m.run r with ⟨failure | a, r'⟩
  · rw [hm] at hr₁
    exact ⟨_, rfl, rfl, hr₁, fun _ h => by cases h⟩
  · rw [hm] at hr₁ hrd
    obtain rfl : rd₁ = after := hrd a rfl
    exact hf a r' hr₁

theorem get {f : Decoder → Step α} {m : RegistryM α}
    (h : ∀ d, d.reader = rd → Follows rd rd' (f d) m) : Follows rd rd' (getThe Decoder >>= f) m := by
  intro r hr
  rw [run_bind_ok (run_getThe _)]
  exact h ⟨r, rd⟩ rfl r hr

theorem read {call : Reader.Call α} {a : α} {f : α → Step β} {m : RegistryM β}
    (hcall : call.run rd = (.ok a, after)) (h : Follows after rd' (f a) m) :
    Follows rd rd' (Decoder.read call >>= f) m := by
  intro r hr
  rw [run_bind_ok (run_read hcall)]
  exact h r hr

theorem read_error {call : Reader.Call α} {fault : DataFault} {f : α → Step β}
    (hcall : call.run rd = (.error fault, after)) :
    Follows rd rd' (Decoder.read call >>= f) (MonadExcept.throw (.data fault)) := by
  intro r hr
  have hrun : (Decoder.read call).run ⟨r, rd⟩ = (.error (.data fault), ⟨r, after⟩) := by
    show ((call.run rd).1.mapError Failure.data, (⟨r, (call.run rd).2⟩ : Decoder)) = _
    rw [hcall]
    rfl
  rw [run_bind_error hrun]
  exact ⟨_, rfl, rfl, hr, fun _ h => by cases h⟩

theorem withCatalog (m : CatalogM α) :
    Follows rd rd (look (Registry.withCatalog m)) (Registry.withCatalog m) :=
  fun _ hr => ⟨_, rfl, rfl, hr.withCatalog m, fun _ _ => rfl⟩

/-- What is made of the codec may depend on the type that it was found for. -/
theorem codec {t : ValueType} {f : Codec → Step α} {g : Codec → RegistryM α}
    (h : ∀ u c, (t == u) = true → Codec.builtin? u = some c → Follows rd rd' (f c) (g c)) :
    Follows rd rd' (look (Registry.codec t) >>= f) (Registry.codec t >>= g) := by
  intro r hr
  have hlook : (look (Registry.codec t)).run ⟨r, rd⟩ =
      (((Registry.codec t).run r).1, ⟨((Registry.codec t).run r).2, rd⟩) := rfl
  rw [run_bind, run_bind, hlook]
  obtain ⟨r', hr', -, ⟨u, c, hu, hb, hrun⟩ | ⟨-, hrun⟩⟩ := hr.run_codec t <;> rw [hrun]
  · exact h u c hu hb r' hr'
  · exact ⟨_, rfl, rfl, hr', fun _ h => by cases h⟩

theorem congr {step : Step α} {m m' : RegistryM α} (h : Follows rd rd' step m)
    (hm : ∀ r, r.Unsupplied → m.run r = m'.run r) : Follows rd rd' step m' := by
  intro r hr
  rw [← hm r hr]
  exact h r hr

/-- What a step comes to is what it does on a reader of its own. -/
theorem run_decoding {step : Step α} {m : RegistryM α} (h : Follows rd rd' step m) {r : Registry}
    (hr : r.Unsupplied) : (Registry.decoding rd step).run r = m.run r := by
  obtain ⟨d, hstep, hd, -⟩ := h r hr
  rw [Registry.run_decoding_eq, hstep, hd]
  rfl

end Follows

/-! ## Leaves -/

/-- The step has one result beside each registry and changes nothing. -/
def Still (step : Step α) : Prop :=
  ∃ result : Registry → Except Failure α, ∀ d : Decoder, step.run d = (result d.registry, d)

theorem still_pure (a : α) : Still (pure a) := ⟨fun _ => .ok a, fun _ => rfl⟩

theorem still_throw (failure : Failure) : Still (throw failure : Step α) :=
  ⟨fun _ => .error failure, fun _ => rfl⟩

theorem still_bind {step : Step α} {f : α → Step β} (h : Still step) (hf : ∀ a, Still (f a)) :
    Still (step >>= f) := by
  obtain ⟨first, hfirst⟩ := h
  choose next hnext using hf
  refine ⟨fun r => first r >>= fun a => next a r, fun d => ?_⟩
  rcases hr : first d.registry with failure | a
  · rw [run_bind_error ((hfirst d).trans (by rw [hr]))]
    simp only [hr]
    rfl
  · rw [run_bind_ok ((hfirst d).trans (by rw [hr])), hnext]
    simp only [hr]
    rfl

theorem still_narrow (least most : Int) (n : Int64) (make : Int64 → FieldValue) :
    Still (narrow least most n make) := by
  unfold narrow
  split
  · exact still_pure _
  · exact still_throw _

theorem still_primitive (p : Primitive) (v : Value) : Still (primitive p v) := by
  unfold primitive
  split
  case h_10 =>
    split
    · exact still_pure _
    · exact still_throw _
  all_goals first | exact still_pure _ | exact still_narrow _ _ _ _ | exact still_throw _

/-- A leaf is taken, and then made something of. -/
theorem leaf_of_take {c : Codec} (hcustom : ∀ k, c ≠ .custom k) (hentity : ∀ cls, c ≠ .entity cls) :
    ∃ f : Value → Step (Option FieldValue), leaf c = read Reader.take >>= f ∧ ∀ v, Still (f v) := by
  unfold leaf
  split
  · exact absurd rfl (hcustom _)
  · exact absurd rfl (hentity _)
  · refine ⟨_, rfl, fun v => ?_⟩
    split
    case h_4 => exact ⟨fun r => .ok (some (.bytes (Image.restore r.key _))), fun _ => rfl⟩
    all_goals
      first
        | exact still_pure _
        | exact still_throw _
        | exact still_bind (still_primitive _ _) fun _ => still_pure _

theorem follows_leaf {c : Codec} (hcustom : ∀ k, c ≠ .custom k) (hdue : Reader.Due v rd rd') :
    Follows rd rd' (leaf c) (leafAlone c v) := by
  by_cases hentity : ∃ cls, c = .entity cls
  · obtain ⟨cls, rfl⟩ := hentity
    exact .throw _
  · obtain ⟨f, hleaf, hstill⟩ := leaf_of_take hcustom fun cls h => hentity ⟨cls, h⟩
    obtain ⟨result, hresult⟩ := hstill v
    have hrun : ∀ {r : Registry} {rd rd' : Reader}, Reader.Due v rd rd' →
        (leaf c).run ⟨r, rd⟩ = (result r, ⟨r, rd'⟩) := by
      intro r rd rd' hdue
      rw [hleaf, run_bind_ok (run_take hdue), hresult]
    intro r hr
    have halone : (leafAlone c v).run r = (result r, r) := by
      have hvalue : (leaf c).run ⟨r, Reader.ofValue v⟩ = (result r, ⟨r, ⟨[], none⟩⟩) :=
        hrun (.current [])
      rw [leafAlone, Registry.run_decoding_eq, hvalue]
    rw [hrun hdue, halone]
    exact ⟨_, rfl, rfl, hr, fun _ _ => rfl⟩

/-! ## Entries -/

/-- Entries are decoded one after another, each once, until none is left, however often
the loop may go round beyond that. `reader` is the reader before the entries that are
left. -/
theorem follows_entries {entry : Step (Option α)} (reader : List γ → Reader)
    (visit : γ → RegistryM (Option α)) {items : List γ}
    (hleft : ∀ xs, (reader xs).left = xs.length)
    (hentry : ∀ x ∈ items, ∀ rest, Follows (reader (x :: rest)) (reader rest) entry (visit x))
    {n : Nat} (hn : items.length ≤ n) :
    Follows (reader items) (reader []) (entries entry n)
      (do return (← items.mapM visit).reduceOption) := by
  induction items generalizing n with
  | nil =>
    cases n with
    | zero => exact .pure []
    | succ n =>
      refine .get fun d hd => ?_
      have hnext : d.reader.hasNext = false := by simp [hd, Reader.hasNext, hleft]
      rw [hnext]
      exact .pure []
  | cons x rest ih =>
    obtain ⟨n, rfl⟩ : ∃ k, n = k + 1 := ⟨n - 1, by rw [List.length_cons] at hn; omega⟩
    have hrest := ih (fun y hy => hentry y (List.mem_cons_of_mem x hy)) (Nat.le_of_succ_le_succ hn)
    refine .get fun d hd => ?_
    have hnext : d.reader.hasNext = true := by simp [hd, Reader.hasNext, hleft]
    rw [hnext]
    rw [List.mapM_cons, bind_assoc]
    refine .bind (hentry x List.mem_cons_self rest) fun found => ?_
    rw [bind_assoc]
    simp only [pure_bind]
    cases found with
    | none => simpa only [List.reduceOption_cons_of_none] using hrest
    | some a =>
      have hmore := Follows.bind hrest fun as => @Follows.pure _ (reader []) (a :: as)
      simpa only [bind_assoc, pure_bind, List.reduceOption_cons_of_some] using hmore

/-! ## Containers -/

/-- A null is passed over where one may stand. -/
theorem follows_unless_null {rest : Step (Option FieldValue)} {m : RegistryM (Option FieldValue)}
    (hdue : Reader.Due v rd rd') (hnull : v = .null → m = pure none)
    (h : v ≠ .null → Follows rd rd' rest m) :
    Follows rd rd' (getThe Decoder >>= fun d => if d.reader.peekType? = some "null" then do
      read Reader.null
      return none
      else rest) m := by
  refine .get fun d hd => ?_
  rw [hd, hdue.peekType]
  by_cases hv : v = .null
  · subst hv
    have htype : some Value.null.typeName = some "null" := rfl
    rw [hnull rfl, if_pos htype]
    have hpassed : Reader.null.run rd = (.ok (), rd') := by cases hdue <;> rfl
    exact .read hpassed (.pure none)
  · rw [if_neg (typeName_ne_null hv)]
    exact h hv

theorem mismatch_typed {expected : String} {view : Value → Option α} (hdue : Reader.Due v rd rd')
    (hview : view v = none) :
    (Reader.typed expected view).run rd = (.error (.unexpectedType expected v.typeName), rd') := by
  rw [Reader.typed, run_bind_ok hdue.run_take]
  simp only [hview]
  rfl

/-- The items of a list are decoded as they are alone. -/
theorem follows_items {items : List Value} {element : ValueType} {item : Step (Option FieldValue)}
    (h : ∀ x ∈ items, ∀ rd rd', Reader.Due x rd rd' → Follows rd rd' item (alone element x))
    (below : List Reader.Frame) {n : Nat} (hn : items.length ≤ n) :
    Follows ⟨.array items :: below, none⟩ ⟨.array [] :: below, none⟩ (entries item n)
      (do return (← items.mapM (alone element)).reduceOption) :=
  follows_entries (fun items => ⟨.array items :: below, none⟩) (alone element) (fun _ => rfl)
    (fun x hx rest => h x hx _ _ (.item rest below)) hn

theorem follows_list {element : ValueType} {item : Step (Option FieldValue)}
    (h : ∀ items, v = .array items → ∀ x ∈ items, ∀ rd rd', Reader.Due x rd rd' →
      Follows rd rd' item (alone element x)) (hdue : Reader.Due v rd rd') :
    Follows rd rd' (list item) (listed element v) := by
  refine follows_unless_null hdue (by rintro rfl; rfl) fun hnull => ?_
  cases v with
  | null => exact absurd rfl hnull
  | array items =>
    have hend : Reader.endArray.run ⟨.array [] :: rd'.stack, none⟩ = (.ok (), rd') := by
      rw [hdue.settled]
      rfl
    refine .read hdue.run_startArray (.get fun d hd => ?_)
    have hleft : items.length ≤ d.reader.left := by rw [hd]; exact le_rfl
    have hall := Follows.bind (follows_items (h items rfl) rd'.stack hleft) fun found =>
      Follows.read (f := fun _ => Pure.pure (some (FieldValue.list found))) hend
        (.pure (some (FieldValue.list found)))
    simpa only [listed, bind_assoc, pure_bind] using hall
  | _ => exact .read_error (run_bind_error (mismatch_typed hdue rfl))

variable {decode : ValueType → Step (Option FieldValue)} {c : ClassRef}

/-- The fields of a document are decoded as they are alone. -/
theorem follows_entries_field {fields : List (String × Value)} {d : Descriptor}
    (h : ∀ f ∈ fields, ∀ t rd rd', Reader.Due f.2 rd rd' → Follows rd rd' (decode t) (alone t f.2))
    (below : List Reader.Frame) {n : Nat} (hn : fields.length ≤ n) :
    Follows ⟨.document fields :: below, none⟩ ⟨.document [] :: below, none⟩
      (entries (field decode d) n) (do return (← fields.mapM (aloneField d)).reduceOption) := by
  refine follows_entries (fun fields => ⟨.document fields :: below, none⟩) (aloneField d)
    (fun _ => rfl) (fun f hf rest => ?_) hn
  have hname : Reader.name.run ⟨.document (f :: rest) :: below, none⟩ =
      (.ok f.1, ⟨.document rest :: below, some f.2⟩) := rfl
  refine .read hname ?_
  exact .bind (h f hf _ _ _ (.current _)) fun found => .pure _

theorem follows_fields (h : ∀ fields, v = .document ⟨fields⟩ → ∀ f ∈ fields, ∀ t rd rd',
      Reader.Due f.2 rd rd' → Follows rd rd' (decode t) (alone t f.2))
    (hdue : Reader.Due v rd rd') :
    Follows rd rd' (fields decode c) (fielded c v) := by
  refine .bind (.withCatalog _) fun d => ?_
  cases v with
  | document doc =>
    obtain ⟨fields⟩ := doc
    have hend : Reader.endDocument.run ⟨.document [] :: rd'.stack, none⟩ = (.ok (), rd') := by
      rw [hdue.settled]
      rfl
    refine .read hdue.run_startDocument (.get fun d' hd => ?_)
    have hleft : fields.length ≤ d'.reader.left := by rw [hd]; exact le_rfl
    have hall := Follows.bind (follows_entries_field (d := d) (h fields rfl) rd'.stack hleft)
      fun found => Follows.read (f := fun _ => Pure.pure (Keyed.ofList found)) hend
        (.pure (Keyed.ofList found))
    simpa only [fieldsAs, field, bind_assoc, pure_bind] using hall
  | _ => exact .read_error (run_bind_error (mismatch_typed hdue rfl))

theorem follows_entity (h : ∀ fields, v = .document ⟨fields⟩ → ∀ f ∈ fields, ∀ t rd rd',
      Reader.Due f.2 rd rd' → Follows rd rd' (decode t) (alone t f.2))
    (hdue : Reader.Due v rd rd') : Follows rd rd' (entity decode c) (built c v) := by
  refine follows_unless_null hdue (by rintro rfl; rfl) fun hnull => ?_
  have hbuilt : built c v = (do
      let found ← fielded c v
      let e ← Registry.withCatalog (Entity.instantiate c (some found))
      return some (.entity e)) := by
    cases v <;> first | rfl | exact absurd rfl hnull
  rw [hbuilt]
  exact .bind (follows_fields h hdue) fun found => .bind (.withCatalog _) fun e => .pure _

/-! ## Values -/

/-- Wherever the value is due, decoding it as the type comes to what it does alone, if
the bound on nesting is high enough. -/
def Uniform (bound : Nat) (v : Value) (t : ValueType) : Prop :=
  ∀ n rd rd', bound ≤ n → Reader.Due v rd rd' → Follows rd rd' (value n t) (alone t v)

/-- Nothing else is asked than that decoding comes to one and the same operation. -/
theorem uniform_of {bound : Nat} (hbound : bound ≤ 2 * v.depth) {t : ValueType}
    {m : RegistryM (Option FieldValue)}
    (h : ∀ n rd rd', bound ≤ n → Reader.Due v rd rd' → Follows rd rd' (value n t) m) :
    Uniform bound v t ∧ ∀ r, r.Unsupplied → (alone t v).run r = m.run r := by
  have hfuel : bound ≤ fuel (Reader.ofValue v) := by
    show bound ≤ 2 * max v.depth 0 + 2
    omega
  have halone : ∀ r : Registry, r.Unsupplied → (alone t v).run r = m.run r := fun r hr =>
    (h _ _ _ hfuel (.current [])).run_decoding hr
  exact ⟨fun n rd rd' hn hdue => (h n rd rd' hn hdue).congr fun r hr => (halone r hr).symm, halone⟩

/-- Whatever stands directly in the value is decoded alike everywhere. -/
structure Parts (v : Value) : Prop where
  items : ∀ items, v = .array items → ∀ x ∈ items, ∀ t, Uniform (2 * x.depth) x t
  fields : ∀ fields, v = .document ⟨fields⟩ → ∀ f ∈ fields, ∀ t, Uniform (2 * f.2.depth) f.2 t

theorem partwise_of_ne {t : ValueType} (h : ∀ c, t ≠ .entity c) :
    partwise t v = (do opened v (← Registry.codec t)) := by
  cases t <;> first | rfl | exact absurd rfl (h _)

theorem builtin?_ne_custom {u : ValueType} {c : Codec} (hb : Codec.builtin? u = some c)
    (k : CustomCodec) : c ≠ .custom k := by
  rintro rfl
  cases u <;> cases hb

theorem eq_any_of_builtin? {t u : ValueType} (hu : (t == u) = true)
    (hb : Codec.builtin? u = some .any) : t = .any := by
  cases u <;> cases hb
  cases t <;> first | rfl | cases hu

namespace Parts

variable {t : ValueType} {n : Nat}

theorem follows_element (h : Parts v) (hn : 2 * v.depth ≤ n + 2) (element : ValueType) :
    ∀ items, v = .array items → ∀ x ∈ items, ∀ rd rd', Reader.Due x rd rd' →
      Follows rd rd' (value n element) (alone element x) := by
  rintro items rfl x hx rd rd' hdue
  have hdepth := Value.depth_le_items hx
  rw [Value.depth] at hn
  exact h.items items rfl x hx element n rd rd' (by omega) hdue

theorem follows_property (h : Parts v) (hn : 2 * v.depth ≤ n + 2) :
    ∀ fields, v = .document ⟨fields⟩ → ∀ f ∈ fields, ∀ t rd rd', Reader.Due f.2 rd rd' →
      Follows rd rd' (value n t) (alone t f.2) := by
  rintro fields rfl f hf t rd rd' hdue
  have hdepth := Value.depth_le_fields hf
  rw [Value.depth] at hn
  exact h.fields fields rfl f hf t n rd rd' (by omega) hdue

/-- A declared type leads straight to the parts. -/
theorem follows_declared (h : Parts v) (ht : t ≠ .any) (hn : 2 * v.depth ≤ n + 2)
    (hdue : Reader.Due v rd rd') : Follows rd rd' (value (n + 1) t) (partwise t v) := by
  by_cases hentity : ∃ c, t = .entity c
  · obtain ⟨c, rfl⟩ := hentity
    exact follows_entity (h.follows_property hn) hdue
  have hne : ∀ c, t ≠ .entity c := fun c hc => hentity ⟨c, hc⟩
  rw [partwise_of_ne hne, value]
  · refine .codec fun u c hu hb => ?_
    cases c with
    | list element => exact follows_list (h.follows_element hn element) hdue
    | any => exact absurd (eq_any_of_builtin? hu hb) ht
    | custom k => exact absurd rfl (builtin?_ne_custom hb k)
    | _ => exact follows_leaf (fun k hk => by cases hk) hdue
  · exact hne

theorem declared (h : Parts v) (ht : t ≠ .any) :
    Uniform (2 * v.depth - 1) v t ∧ ∀ r, r.Unsupplied → (alone t v).run r = (partwise t v).run r := by
  refine uniform_of (Nat.sub_le _ _) fun n rd rd' hn hdue => ?_
  have hpos := Value.depth_pos v
  obtain ⟨k, rfl⟩ : ∃ k, n = k + 1 := ⟨n - 1, by omega⟩
  exact h.follows_declared ht (by omega) hdue

/-- Where no type is declared, the value's own type leads to the parts. -/
theorem follows_any (h : Parts v) (hn : 2 * v.depth ≤ n + 2) (hdue : Reader.Due v rd rd') :
    Follows rd rd' (value (n + 2) .any) (partwise .any v) := by
  rw [partwise_of_ne (fun c hc => by cases hc), value]
  · refine .codec fun u c hu hb => ?_
    obtain rfl : u = .any := by cases u <;> first | rfl | cases hu
    cases hb
    refine .get fun d hd => ?_
    have hbound : 2 * v.depth - 1 ≤ n + 1 := by omega
    simp only [hd, hdue.peekType]
    cases v with
    | bytes b => exact (h.declared (by simp)).1 _ _ _ hbound hdue
    | array items => exact (h.declared (by simp)).1 _ _ _ hbound hdue
    | _ =>
      rw [if_neg (by simp [Value.typeName]), if_neg (by simp [Value.typeName])]
      exact follows_leaf (fun k hk => by cases hk) hdue
  · exact fun c hc => by cases hc

theorem uniform (h : Parts v) (t : ValueType) :
    Uniform (2 * v.depth) v t ∧ ∀ r, r.Unsupplied → (alone t v).run r = (partwise t v).run r := by
  by_cases ht : t = .any
  · subst ht
    refine uniform_of le_rfl fun n rd rd' hn hdue => ?_
    have hpos := Value.depth_pos v
    obtain ⟨k, rfl⟩ : ∃ k, n = k + 2 := ⟨n - 2, by omega⟩
    exact h.follows_any hn hdue
  · obtain ⟨huniform, halone⟩ := h.declared ht
    exact ⟨fun n rd rd' hn => huniform n rd rd' (by omega), halone⟩

end Parts

theorem parts (v : Value) : Parts v := by
  induction v using Value.tree with
  | scalar v hv =>
    refine ⟨?_, ?_⟩
    all_goals
      rintro parts rfl
      cases hv
  | array items ih =>
    refine ⟨?_, fun _ h => by cases h⟩
    intro items' heq x hx t
    cases heq
    exact ((ih x hx).uniform t).1
  | document fields ih =>
    refine ⟨fun _ h => (by cases h), ?_⟩
    intro fields' heq f hf t
    cases heq
    exact ((ih f hf).uniform t).1

/-- Wherever a value is due, decoding it comes to what it does alone, whatever the
bound on nesting, if the value is not nested deeper. -/
theorem follows_value (t : ValueType) {n : Nat} (hn : 2 * v.depth ≤ n) (hdue : Reader.Due v rd rd') :
    Follows rd rd' (value n t) (alone t v) :=
  ((parts v).uniform t).1 n rd rd' hn hdue

/-- What decoding a value comes to is told by its parts alone. -/
theorem run_alone (t : ValueType) (v : Value) {r : Registry} (hr : r.Unsupplied) :
    (alone t v).run r = (partwise t v).run r :=
  ((parts v).uniform t).2 r hr

end Decoder

/-! ## Readers before a value -/

namespace Reader

/-- A reader is before a value if the value is due. -/
theorem due_of_peek? {rd : Reader} {v : Value} (h : rd.peek? = some v) : ∃ rd', Due v rd rd' := by
  obtain ⟨stack, _ | w⟩ := rd
  · rcases stack with _ | ⟨fields | (_ | ⟨w, rest⟩), below⟩
    case cons.array.cons =>
      cases h
      exact ⟨_, .item rest below⟩
    all_goals cases h
  · cases h
    exact ⟨_, .current stack⟩

theorem le_foldl_max (frame : Frame → Nat) (stack : List Frame) (d : Nat) :
    d ≤ stack.foldl (fun d f => max d (frame f)) d := by
  induction stack generalizing d with
  | nil => exact le_rfl
  | cons f below ih => exact (Nat.le_max_left _ _).trans (ih _)

/-- What is due is nested no deeper than everything that is left. -/
theorem Due.depth_le {rd rd' : Reader} {v : Value} (h : Due v rd rd') : v.depth ≤ rd.depth := by
  cases h with
  | current stack => exact Nat.le_max_left _ _
  | item rest below =>
    have hitem : v.depth ≤ Value.depthItems (v :: rest) := Value.depth_le_items List.mem_cons_self
    refine (hitem.trans ?_).trans (Nat.le_max_right _ _)
    exact (Nat.le_max_right 0 _).trans (le_foldl_max _ below _)

end Reader

namespace Decoder

open Registry (alone aloneField)

/-- Decoding a value as any type passes over the value, if it succeeds. Neither its
bound on nesting nor the number of rounds of its loops matters: items and fields are
each decoded once, in order, and the loops end because nothing is left. -/
theorem skip_of_next {r : Registry} (hr : r.Unsupplied) {rd : Reader} {v : Value}
    (hv : rd.peek? = some v) (t : ValueType) :
    ∃ rd', Reader.skip.run rd = (.ok (), rd') ∧
      (∀ a d, (next t).run ⟨r, rd⟩ = (.ok a, d) → d.reader = rd') ∧
      (∀ n, fuel rd ≤ n → ((value n t).run ⟨r, rd⟩).1 = ((next t).run ⟨r, rd⟩).1 ∧
        ((value n t).run ⟨r, rd⟩).2.registry = ((next t).run ⟨r, rd⟩).2.registry) ∧
      (∀ items, v = .array items →
        Reader.startArray.run rd = (.ok (), ⟨.array items :: rd'.stack, none⟩) ∧
        ∀ element n rounds, 2 * v.depth ≤ n + 2 → items.length ≤ rounds →
          Follows ⟨.array items :: rd'.stack, none⟩ ⟨.array [] :: rd'.stack, none⟩
            (entries (value n element) rounds)
            (do return (← items.mapM (alone element)).reduceOption)) ∧
      (∀ fields, v = .document ⟨fields⟩ →
        Reader.startDocument.run rd = (.ok (), ⟨.document fields :: rd'.stack, none⟩) ∧
        ∀ declared n rounds, 2 * v.depth ≤ n + 2 → fields.length ≤ rounds →
          Follows ⟨.document fields :: rd'.stack, none⟩ ⟨.document [] :: rd'.stack, none⟩
            (entries (field (value n) declared) rounds)
            (do return (← fields.mapM (aloneField declared)).reduceOption)) := by
  obtain ⟨rd', hdue⟩ := Reader.due_of_peek? hv
  have hdepth := hdue.depth_le
  have hfollows : ∀ n, fuel rd ≤ n → Follows rd rd' (value n t) (alone t v) := by
    intro n hn
    refine follows_value t ?_ hdue
    unfold fuel at hn
    omega
  have hnext : (next t).run ⟨r, rd⟩ = (value (fuel rd) t).run ⟨r, rd⟩ := rfl
  obtain ⟨d, hrun, hregistry, -, hreader⟩ := hfollows _ le_rfl r hr
  refine ⟨rd', run_bind_ok hdue.run_take, ?_, ?_, ?_, ?_⟩
  · intro a d' hok
    rw [hnext, hrun] at hok
    obtain ⟨ha, rfl⟩ := Prod.mk.inj hok
    exact hreader a ha
  · intro n hn
    obtain ⟨d', hrun', hregistry', -⟩ := hfollows n hn r hr
    rw [hnext, hrun, hrun']
    exact ⟨rfl, hregistry'.trans hregistry.symm⟩
  · rintro items rfl
    refine ⟨hdue.run_startArray, fun element n rounds hn hrounds => ?_⟩
    exact follows_items ((parts _).follows_element hn element items rfl) rd'.stack hrounds
  · rintro fields rfl
    refine ⟨hdue.run_startDocument, fun declared n rounds hn hrounds => ?_⟩
    exact follows_entries_field ((parts _).follows_property hn fields rfl) rd'.stack hrounds

/-- A reader at the lines of an order, with its total behind them. -/
def atLines : Reader :=
  ⟨[.document [("total", .double (.ofInt 3))]],
    some (.array [.null, .array [.integer 1, .null], .array []])⟩

/-- The lines are lists of numbers, and one is missing. -/
theorem skip_of_next_lines :
    ((next (.list (.list (.primitive .long)))).run ⟨{ catalog := { schema := ⟨[]⟩ } }, atLines⟩).1 =
        .ok (some (.list [.list [.long 1], .list []])) ∧
      ∀ a d, (next (.list (.list (.primitive .long)))).run
          ⟨{ catalog := { schema := ⟨[]⟩ } }, atLines⟩ = (.ok a, d) →
        Reader.skip.run atLines = (.ok (), d.reader) := by
  refine ⟨by rfl, fun a d h => ?_⟩
  have hpeek : atLines.peek? = some (.array [.null, .array [.integer 1, .null], .array []]) := rfl
  obtain ⟨rd', hskip, hnext, -⟩ := skip_of_next (r := { catalog := { schema := ⟨[]⟩ } })
    ⟨rfl, fun q hq => by cases hq⟩ hpeek (.list (.list (.primitive .long)))
  rw [hskip, hnext a d h]

end Decoder
end Folio
