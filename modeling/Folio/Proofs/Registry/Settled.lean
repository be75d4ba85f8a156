import Folio.Proofs.Entity.Reachable
import Folio.Proofs.Registry.Lookups

/-!
# What was looked up stays

A look-up that succeeds leaves its outcome behind. So the same look-up on
whatever the registry has grown into by then answers the same and leaves
nothing new. The same is true of all that decoding does: a document that was
rebuilt once is rebuilt as the same record ever after.

Results:
* `Settles`: an operation that answers the same from then on, with a rule for
  each way to build one.
* `Registry.settles_codec`, `Catalog.settles_descriptor`: the two look-ups.
* `Decoder.steady_value`: decoding a value of a declared type.
* `Registry.settles_inflate`: rebuilding a record.
-/
namespace Folio

/-! ## Operations that settle -/

section

variable {ε σ α β : Type}

/-- Where the operation succeeds it leaves a state that is related, and on every
state that is related to that one it answers the same and changes nothing. -/
def Settles (R : σ → σ → Prop) (m : ExceptT ε (StateM σ) α) : Prop :=
  ∀ s a t, m.run s = (.ok a, t) → R s t ∧ ∀ u, R t u → m.run u = (.ok a, u)

namespace Frame

variable {R : σ → σ → Prop}

theorem settles_pure (hR : Frame R) (a : α) : Settles R (pure a : ExceptT ε (StateM σ) α) := by
  intro s b t h
  cases h
  exact ⟨hR.refl s, fun _ _ => rfl⟩

theorem settles_throw_bind (R : σ → σ → Prop) (e : ε) (f : α → ExceptT ε (StateM σ) β) :
    Settles R (throw e >>= f) := nofun

theorem settles_lift (hR : Frame R) (x : Except ε α) :
    Settles R (liftM x : ExceptT ε (StateM σ) α) := by
  intro s a t h
  rw [run_lift] at h
  cases h
  exact ⟨hR.refl s, fun u _ => run_lift _ u⟩

theorem settles_bind (hR : Frame R) {m : ExceptT ε (StateM σ) α}
    {f : α → ExceptT ε (StateM σ) β} (hm : Settles R m) (hf : ∀ a, Settles R (f a)) :
    Settles R (m >>= f) := by
  intro s b v h
  obtain ⟨a, t, hfirst, hsecond⟩ := ok_of_run_bind h
  obtain ⟨hst, hsettled⟩ := hm s a t hfirst
  obtain ⟨htv, hsettled'⟩ := hf a t b v hsecond
  refine ⟨hR.trans hst htv, fun u hu => ?_⟩
  rw [run_bind_ok (hsettled u (hR.trans htv hu)), hsettled' u hu]

theorem settles_mapM (hR : Frame R) {f : α → ExceptT ε (StateM σ) β} (hf : ∀ a, Settles R (f a))
    (as : List α) : Settles R (as.mapM f) := by
  induction as with
  | nil => exact hR.settles_pure []
  | cons a rest ih =>
    rw [List.mapM_cons]
    exact hR.settles_bind (hf a) fun b => hR.settles_bind ih fun bs => hR.settles_pure _

/-- What depends on a part of the state that does not change. -/
theorem settles_get {f : σ → ExceptT ε (StateM σ) β} (hf : ∀ s u, R s u → f u = f s)
    (hR : Frame R) (h : ∀ s, Settles R (f s)) :
    Settles R (getThe σ >>= f : ExceptT ε (StateM σ) β) := by
  intro s b t hrun
  rw [run_bind_ok (run_getThe s)] at hrun
  obtain ⟨hst, hsettled⟩ := h s s b t hrun
  refine ⟨hst, fun u hu => ?_⟩
  rw [run_bind_ok (run_getThe u), hf s u (hR.trans hst hu), hsettled u hu]

/-- A handler that fails is of no account. -/
theorem settles_tryCatch {m : ExceptT ε (StateM σ) α} (hm : Settles R m) (wrap : ε → ε) :
    Settles R (tryCatch m fun e => throw (wrap e)) := by
  intro s a t h
  rw [run_tryCatch] at h
  rcases hfirst : m.run s with ⟨e | b, v⟩
  · rw [hfirst] at h
    cases h
  · rw [hfirst] at h
    cases h
    obtain ⟨hst, hsettled⟩ := hm s a t hfirst
    refine ⟨hst, fun u hu => ?_⟩
    rw [run_tryCatch, hsettled u hu]

end Frame

end

/-! ## Classes -/

namespace Catalog

/-- The same classes, and what was found out of them stays known. -/
structure Grows (k l : Catalog) : Prop where
  schema : l.schema = k.schema
  descriptors : ∀ name d, k.descriptors.lookup name = some d → l.descriptors.lookup name = some d

theorem grows_frame : Frame Grows :=
  ⟨fun _ => ⟨rfl, fun _ _ h => h⟩, fun h h' => ⟨h'.schema.trans h.schema, fun name d hd =>
    h'.descriptors name d (h.descriptors name d hd)⟩⟩

theorem settles_descriptor (c : ClassRef) :
    Settles Grows (liftM (descriptor c) : CatalogM Descriptor) := by
  intro k d l h
  have known : ∀ u : Catalog, u.descriptors.lookup c.name = some d →
      (liftM (descriptor c) : CatalogM Descriptor).run u = (.ok d, u) := by
    intro u hu
    rw [run_monadLift, run_descriptor_some hu]
  rw [run_monadLift] at h
  cases hl : k.descriptors.lookup c.name with
  | some found =>
    rw [run_descriptor_some hl] at h
    cases h
    exact ⟨grows_frame.refl k, fun u hu => known u (hu.descriptors _ _ hl)⟩
  | none =>
    rw [run_descriptor_none hl] at h
    cases h
    refine ⟨⟨rfl, fun name d hd => ?_⟩, fun u hu => known u (hu.descriptors _ _ ?_)⟩
    · have other : (name == c.name) = false := by
        refine beq_false_of_ne fun same => ?_
        rw [same, hl] at hd
        cases hd
      rw [List.lookup_cons, other]
      exact hd
    · rw [List.lookup_cons, beq_self_eq_true]

end Catalog

/-- A record of a class is made by looking classes up and nothing else. -/
class Record.LooksUp (E : Type) [Record E] : Prop where
  settles : ∀ c seed, Settles Catalog.Grows (Record.instantiate c seed : CatalogM E)

theorem Entity.settles_instantiate (c : ClassRef) (seed : Option Fields) :
    Settles Catalog.Grows (instantiate c seed) := by
  unfold instantiate
  refine Catalog.grows_frame.settles_get (fun k l h => ?_) fun k => ?_
  · rw [h.schema]
  · dsimp only
    split
    · exact Frame.settles_throw_bind _ _ _
    · exact Catalog.grows_frame.settles_bind (Catalog.settles_descriptor c) fun d =>
        Catalog.grows_frame.settles_lift _

instance : Record.LooksUp Entity := ⟨Entity.settles_instantiate⟩

instance : Record.LooksUp Snapshot := ⟨fun _ _ => Catalog.grows_frame.settles_pure _⟩

theorem Record.settles_create {E : Type} [Record E] [LooksUp E] (c : ClassRef)
    (seed : Option Fields) : Settles Catalog.Grows (create c seed : CatalogM E) := by
  unfold create
  refine Catalog.grows_frame.settles_get (fun k l h => ?_) fun k => ?_
  · rw [h.schema]
  · dsimp only
    split
    · exact Frame.settles_throw_bind _ _ _
    · exact Frame.settles_tryCatch (LooksUp.settles c seed) _

/-! ## Types -/

theorem lookup_congr {α β : Type} [BEq α] {a b : α} (h : ∀ k, (a == k) = (b == k))
    (l : List (α × β)) : l.lookup a = l.lookup b := by
  induction l with
  | nil => rfl
  | cons p rest ih => rw [List.lookup_cons, List.lookup_cons, h, ih]

/-! ## Codecs -/

namespace Registry

/-- The same classes, key and suppliers, and what was found stays found. -/
structure Grows (r u : Registry) : Prop where
  catalog : r.catalog.Grows u.catalog
  key : u.key = r.key
  providers : u.providers = r.providers
  codecs : ∀ t c, r.codecs.lookup t = some c → u.codecs.lookup t = some c

theorem grows_frame : Frame Grows where
  refl r := ⟨Catalog.grows_frame.refl r.catalog, rfl, rfl, fun _ _ h => h⟩
  trans h h' :=
    ⟨Catalog.grows_frame.trans h.catalog h'.catalog, h'.key.trans h.key,
      h'.providers.trans h.providers, fun t c hc => h'.codecs t c (h.codecs t c hc)⟩

theorem settles_withCatalog {α : Type} {m : CatalogM α} (h : Settles Catalog.Grows m) :
    Settles Grows (withCatalog m) := by
  intro r a t hrun
  have hboth : ((m.run r.catalog).1, { r with catalog := (m.run r.catalog).2 }) = (.ok a, t) := hrun
  rcases hm : m.run r.catalog with ⟨e | b, k⟩
  · rw [hm] at hboth
    cases hboth
  · rw [hm] at hboth
    cases hboth
    obtain ⟨hgrows, hsettled⟩ := h _ _ _ hm
    refine ⟨⟨hgrows, rfl, rfl, fun _ _ hc => hc⟩, fun u hu => ?_⟩
    show ((m.run u.catalog).1, { u with catalog := (m.run u.catalog).2 }) = _
    rw [hsettled u.catalog hu.catalog]

theorem settles_codec (t : ValueType) : Settles Grows (codec t) := by
  intro r c r' h
  have known : ∀ u : Registry, u.codecs.lookup t = some c → (codec t).run u = (.ok c, u) := by
    intro u hu
    simp only [codec, run_bind, run_getThe, hu, run_pure]
  rcases codec_cases t r with ⟨found, hl, hrun⟩ | ⟨-, hrun⟩ | ⟨found, hl, -, hrun⟩ <;>
    cases hrun.symm.trans h
  · exact ⟨grows_frame.refl r, fun u hu => known u (hu.codecs _ _ hl)⟩
  · refine ⟨⟨Catalog.grows_frame.refl _, rfl, rfl, fun u d hd => ?_⟩,
      fun u hu => known u (hu.codecs _ _ ?_)⟩
    · cases hsame : u == t with
      | true =>
        rw [lookup_congr (ValueType.beq_congr hsame), hl] at hd
        cases hd
      | false =>
        rw [List.lookup_cons, hsame]
        exact hd
    · rw [List.lookup_cons, ValueType.beq_refl]

end Registry

/-! ## Decoding -/

namespace Decoder

variable {α β : Type}

/-- Where the step succeeds the registry has grown, and on every registry that
it grows into the step takes the same of the reader and answers the same. -/
def Steady (step : Step α) : Prop :=
  ∀ r rd a d, step.run ⟨r, rd⟩ = (.ok a, d) → r.Grows d.registry ∧
    ∀ u, d.registry.Grows u → step.run ⟨u, rd⟩ = (.ok a, ⟨u, d.reader⟩)

theorem steady_pure (a : α) : Steady (pure a : Step α) := by
  intro r rd b d h
  cases h
  exact ⟨Registry.grows_frame.refl r, fun _ _ => rfl⟩

theorem steady_throw (failure : Failure) : Steady (throw failure : Step α) := nofun

theorem steady_bind {m : Step α} {f : α → Step β} (hm : Steady m) (hf : ∀ a, Steady (f a)) :
    Steady (m >>= f) := by
  intro r rd b d h
  obtain ⟨a, mid, hfirst, hsecond⟩ := ok_of_run_bind h
  obtain ⟨hgrows, hsteady⟩ := hm r rd a mid hfirst
  obtain ⟨hgrows', hsteady'⟩ := hf a mid.registry mid.reader b d hsecond
  refine ⟨Registry.grows_frame.trans hgrows hgrows', fun u hu => ?_⟩
  rw [run_bind_ok (hsteady u (Registry.grows_frame.trans hgrows' hu)), hsteady' u hu]

/-- What depends on the reader, and of the registry on nothing that grows. -/
theorem steady_get {f : Decoder → Step α}
    (hf : ∀ (r u : Registry) rd, r.Grows u → f ⟨u, rd⟩ = f ⟨r, rd⟩) (h : ∀ d, Steady (f d)) :
    Steady (getThe Decoder >>= f) := by
  intro r rd a d hrun
  rw [run_bind_ok (run_getThe _)] at hrun
  obtain ⟨hgrows, hsteady⟩ := h _ r rd a d hrun
  refine ⟨hgrows, fun u hu => ?_⟩
  rw [run_bind_ok (run_getThe _), hf r u rd (Registry.grows_frame.trans hgrows hu), hsteady u hu]

theorem steady_read (call : Reader.Call α) : Steady (read call) := by
  intro r rd a d h
  have hboth : ((call.run rd).1.mapError Failure.data, (⟨r, (call.run rd).2⟩ : Decoder)) =
      (.ok a, d) := h
  have again : ∀ u : Registry, (read call).run ⟨u, rd⟩ =
      ((call.run rd).1.mapError Failure.data, ⟨u, (call.run rd).2⟩) := fun _ => rfl
  obtain ⟨hresult, rfl⟩ := Prod.mk.inj hboth
  exact ⟨Registry.grows_frame.refl r, fun u _ => by rw [again, hresult]⟩

theorem steady_look {m : RegistryM α} (h : Settles Registry.Grows m) : Steady (look m) := by
  intro r rd a d hrun
  have hboth : ((m.run r).1, (⟨(m.run r).2, rd⟩ : Decoder)) = (.ok a, d) := hrun
  obtain ⟨hresult, rfl⟩ := Prod.mk.inj hboth
  obtain ⟨hgrows, hsettled⟩ := h r a (m.run r).2 (Prod.ext hresult rfl)
  refine ⟨hgrows, fun u hu => ?_⟩
  show ((m.run u).1, (⟨(m.run u).2, rd⟩ : Decoder)) = _
  rw [hsettled u hu]

theorem steady_narrow (least most : Int) (n : Int64) (make : Int64 → FieldValue) :
    Steady (narrow least most n make) := by
  unfold narrow
  split
  · exact steady_pure _
  · exact steady_throw _

theorem steady_primitive (p : Primitive) (v : Value) : Steady (primitive p v) := by
  unfold primitive
  split
  case h_10 =>
    split
    · exact steady_pure _
    · exact steady_throw _
  all_goals first | exact steady_pure _ | exact steady_narrow _ _ _ _ | exact steady_throw _

theorem steady_leaf (c : Codec) : Steady (leaf c) := by
  unfold leaf
  split
  · exact steady_read _
  · exact steady_throw _
  refine steady_bind (steady_read _) fun v => ?_
  split
  case h_4 =>
    refine steady_get (fun r u rd h => ?_) fun d => steady_pure _
    rw [h.key]
  all_goals
    first
      | exact steady_pure _
      | exact steady_throw _
      | exact steady_bind (steady_primitive _ _) fun _ => steady_pure _

theorem steady_entries {entry : Step (Option α)} (h : Steady entry) (n : Nat) :
    Steady (entries entry n) := by
  induction n with
  | zero => exact steady_pure []
  | succ n ih =>
    refine steady_get (fun _ _ _ _ => rfl) fun d => ?_
    split
    · exact steady_pure []
    · refine steady_bind h fun found => ?_
      cases found with
      | none => exact ih
      | some a => exact steady_bind ih fun _ => steady_pure _

theorem steady_list {item : Step (Option FieldValue)} (h : Steady item) : Steady (list item) := by
  refine steady_get (fun _ _ _ _ => rfl) fun d => ?_
  split
  · exact steady_bind (steady_read _) fun _ => steady_pure _
  · refine steady_bind (steady_read _) fun _ => steady_get (fun _ _ _ _ => rfl) fun d => ?_
    refine steady_bind (steady_entries h _) fun items => ?_
    exact steady_bind (steady_read _) fun _ => steady_pure _

variable {decode : ValueType → Step (Option FieldValue)}

theorem steady_fields (h : ∀ t, Steady (decode t)) (c : ClassRef) : Steady (fields decode c) := by
  refine steady_bind (steady_look (Registry.settles_withCatalog
    (Catalog.settles_descriptor c))) fun d => ?_
  refine steady_bind (steady_read _) fun _ => steady_get (fun _ _ _ _ => rfl) fun _ => ?_
  refine steady_bind (steady_entries ?_ _) fun found => ?_
  · exact steady_bind (steady_read _) fun name => steady_bind (h _) fun _ => steady_pure _
  · exact steady_bind (steady_read _) fun _ => steady_pure _

theorem steady_entity (h : ∀ t, Steady (decode t)) (c : ClassRef) : Steady (entity decode c) := by
  refine steady_get (fun _ _ _ _ => rfl) fun d => ?_
  split
  · exact steady_bind (steady_read _) fun _ => steady_pure _
  · refine steady_bind (steady_fields h c) fun found => ?_
    exact steady_bind (steady_look (Registry.settles_withCatalog
      (Entity.settles_instantiate c _))) fun e => steady_pure _

/-- Decoding a value of a declared type is steady. -/
theorem steady_value (fuel : Nat) (declared : ValueType) : Steady (value fuel declared) := by
  induction fuel generalizing declared with
  | zero => exact steady_throw _
  | succ fuel ih =>
    by_cases hentity : ∃ c, declared = .entity c
    · obtain ⟨c, rfl⟩ := hentity
      exact steady_entity ih c
    · rw [value]
      · refine steady_bind (steady_look (Registry.settles_codec _)) fun c => ?_
        split
        · exact steady_list (ih _)
        · refine steady_get (fun _ _ _ _ => rfl) fun d => ?_
          dsimp only
          split
          · exact ih _
          · split
            · exact ih _
            · exact steady_leaf _
        · exact steady_leaf _
      · exact fun c h => hentity ⟨c, h⟩

end Decoder

namespace Registry

theorem settles_decoding {α : Type} {step : Decoder.Step α} (h : Decoder.Steady step)
    (reader : Reader) : Settles Grows (decoding reader step) := by
  intro r a t hrun
  have hboth : ((step.run ⟨r, reader⟩).1, (step.run ⟨r, reader⟩).2.registry) = (.ok a, t) := hrun
  obtain ⟨hresult, rfl⟩ := Prod.mk.inj hboth
  obtain ⟨hgrows, hsteady⟩ := h r reader a (step.run ⟨r, reader⟩).2 (Prod.ext hresult rfl)
  refine ⟨hgrows, fun u hu => ?_⟩
  show ((step.run ⟨u, reader⟩).1, (step.run ⟨u, reader⟩).2.registry) = _
  rw [hsteady u hu]

/-- A document that was rebuilt is rebuilt as the same record ever after. -/
theorem settles_inflate {E : Type} [Record E] [Record.LooksUp E] (c : ClassRef) (doc : Document) :
    Settles Grows (inflate c doc : RegistryM E) := by
  refine grows_frame.settles_bind (settles_decoding ?_ _) fun found => ?_
  · exact Decoder.steady_fields (Decoder.steady_value _) c
  · exact settles_withCatalog (Record.settles_create c _)

end Registry
end Folio
