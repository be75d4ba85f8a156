/-!
# Running operations

Readers, store calls and operations on records are all of one kind: they work
on a state and may stop, and what they changed stays changed. One equation for
each way to build such an operation says what a run of it does.

Results:
* `run_bind`: the second part runs on the state that the first part left.
* `run_tryCatch`: the handler runs on the state of the failure.
* `forM_cases`: all of a list was gone through, or a front part of it and one more.
* `Frame.within_bind`: what both parts leave alone, the whole does.
* `Agree.bind`: what is built alike of operations that agree, agrees.
* `ok_of_bind`: where two steps succeed, each does.
-/
namespace Folio

variable {ε σ α β : Type}

@[simp] theorem run_pure (a : α) (s : σ) :
    (pure a : ExceptT ε (StateM σ) α).run s = (.ok a, s) := rfl

@[simp] theorem run_throw (e : ε) (s : σ) :
    (throw e : ExceptT ε (StateM σ) α).run s = (.error e, s) := rfl

theorem run_bind (x : ExceptT ε (StateM σ) α) (f : α → ExceptT ε (StateM σ) β) (s : σ) :
    (x >>= f).run s =
      match x.run s with
      | (.ok a, t) => (f a).run t
      | (.error e, t) => (.error e, t) := by
  rw [ExceptT.run_bind]
  show StateT.bind _ _ _ = _
  unfold StateT.bind
  simp only [bind]
  rcases x.run s with ⟨_ | a, t⟩ <;> rfl

theorem run_bind_ok {x : ExceptT ε (StateM σ) α} {f : α → ExceptT ε (StateM σ) β} {s t : σ} {a : α}
    (h : x.run s = (.ok a, t)) : (x >>= f).run s = (f a).run t := by
  rw [run_bind, h]

theorem run_bind_error {x : ExceptT ε (StateM σ) α} {f : α → ExceptT ε (StateM σ) β} {s t : σ}
    {e : ε} (h : x.run s = (.error e, t)) : (x >>= f).run s = (.error e, t) := by
  rw [run_bind, h]

/-- Where the whole succeeds, both parts do. -/
theorem ok_of_run_bind {x : ExceptT ε (StateM σ) α} {f : α → ExceptT ε (StateM σ) β} {s u : σ} {b : β}
    (h : (x >>= f).run s = (.ok b, u)) : ∃ a t, x.run s = (.ok a, t) ∧ (f a).run t = (.ok b, u) := by
  rw [run_bind] at h
  rcases hx : x.run s with ⟨e | a, t⟩
  · rw [hx] at h
    cases h
  · rw [hx] at h
    exact ⟨a, t, rfl, h⟩

/-- Where a list is gone through, its first element and the others are. -/
theorem ok_of_run_mapM_cons {f : α → ExceptT ε (StateM σ) β} {a : α} {as : List α} {bs : List β}
    {s u : σ} (h : ((a :: as).mapM f).run s = (.ok bs, u)) :
    ∃ b others t, (f a).run s = (.ok b, t) ∧ (as.mapM f).run t = (.ok others, u) ∧
      bs = b :: others := by
  rw [List.mapM_cons] at h
  obtain ⟨b, t, hb, h⟩ := ok_of_run_bind h
  obtain ⟨others, v, ho, h⟩ := ok_of_run_bind h
  cases h
  exact ⟨b, others, t, hb, ho, rfl⟩

@[simp] theorem run_get (s : σ) : (get : ExceptT ε (StateM σ) σ).run s = (.ok s, s) := rfl

@[simp] theorem run_getThe (s : σ) :
    (getThe σ : ExceptT ε (StateM σ) σ).run s = (.ok s, s) := rfl

@[simp] theorem run_set (t s : σ) :
    (set t : ExceptT ε (StateM σ) PUnit).run s = (.ok ⟨⟩, t) := rfl

@[simp] theorem run_modify (f : σ → σ) (s : σ) :
    (modify f : ExceptT ε (StateM σ) PUnit).run s = (.ok ⟨⟩, f s) := rfl

/-- A step that may fail and works on no state. -/
@[simp] theorem run_lift (x : Except ε α) (s : σ) :
    (liftM x : ExceptT ε (StateM σ) α).run s = (x, s) := by
  cases x <;> rfl

/-- A step that works on the state and does not fail. -/
@[simp] theorem run_monadLift (x : StateM σ α) (s : σ) :
    (liftM x : ExceptT ε (StateM σ) α).run s = (.ok (x.run s).1, (x.run s).2) := rfl

theorem run_tryCatch (x : ExceptT ε (StateM σ) α) (handler : ε → ExceptT ε (StateM σ) α) (s : σ) :
    (tryCatch x handler : ExceptT ε (StateM σ) α).run s =
      match x.run s with
      | (.ok a, t) => (.ok a, t)
      | (.error e, t) => (handler e).run t := by
  show StateT.bind x (fun r => match r with
    | .ok a => (pure (.ok a) : StateM σ (Except ε α))
    | .error e => handler e) s = _
  rcases h : x.run s with ⟨_ | a, t⟩ <;> simp only [ExceptT.run] at h <;> rw [StateT.bind, h] <;> rfl

theorem run_map (f : α → β) (x : ExceptT ε (StateM σ) α) (s : σ) :
    (f <$> x).run s = ((x.run s).1.map f, (x.run s).2) := by
  rw [map_eq_pure_bind, run_bind]
  rcases x.run s with ⟨_ | a, t⟩ <;> rfl

/-! ## One operation after another -/

/-- Where one operation after another succeeds, each on the state that the one before
left. -/
inductive Passes (f : α → ExceptT ε (StateM σ) PUnit) : List α → σ → σ → Prop
  | nil (s : σ) : Passes f [] s s
  | cons {a : α} {as : List α} {s t u : σ} :
    (f a).run s = (.ok (), t) → Passes f as t u → Passes f (a :: as) s u

/-- Either all succeed, or a front part does and the operation after it fails; then
that failure is the result, and what the operation left is left. -/
theorem forM_cases (f : α → ExceptT ε (StateM σ) PUnit) (as : List α) (s : σ) :
    (∃ t, Passes f as s t ∧ (as.forM f).run s = (.ok (), t)) ∨
    ∃ front a back t e u, as = front ++ a :: back ∧ Passes f front s t ∧
      (f a).run t = (.error e, u) ∧ (as.forM f).run s = (.error e, u) := by
  induction as generalizing s with
  | nil => exact .inl ⟨s, .nil s, rfl⟩
  | cons a rest ih =>
    have hcons : (a :: rest).forM f = f a >>= fun _ => rest.forM f := rfl
    rw [hcons]
    rcases hfirst : (f a).run s with ⟨e | ⟨⟩, t⟩
    · exact .inr ⟨[], a, rest, s, e, t, rfl, .nil s, hfirst, run_bind_error hfirst⟩
    · rw [run_bind_ok hfirst]
      rcases ih t with ⟨u, hpassed, hrun⟩ | ⟨front, b, back, u, e, v, rfl, hpassed, hfailed, hrun⟩
      · exact .inl ⟨u, .cons hfirst hpassed, hrun⟩
      · exact .inr ⟨a :: front, b, back, u, e, v, rfl, .cons hfirst hpassed, hfailed, hrun⟩

/-! ## What operations leave alone -/

/-- The relation holds between whatever the operation is run on and what it
leaves, also after a failure. -/
def Within (R : σ → σ → Prop) (m : ExceptT ε (StateM σ) α) : Prop := ∀ s, R s (m.run s).2

/-- A relation for what operations leave alone, one after another. -/
structure Frame (R : σ → σ → Prop) : Prop where
  refl : ∀ s, R s s
  trans : ∀ {s t u}, R s t → R t u → R s u

namespace Frame

variable {R : σ → σ → Prop}

theorem within_pure (hR : Frame R) (a : α) : Within R (pure a : ExceptT ε (StateM σ) α) := hR.refl

theorem within_throw (hR : Frame R) (e : ε) : Within R (throw e : ExceptT ε (StateM σ) α) := hR.refl

theorem within_lift (hR : Frame R) (x : Except ε α) :
    Within R (liftM x : ExceptT ε (StateM σ) α) := by
  intro s
  rw [run_lift]
  exact hR.refl s

theorem within_get (hR : Frame R) : Within R (getThe σ : ExceptT ε (StateM σ) σ) := hR.refl

theorem within_bind (hR : Frame R) {m : ExceptT ε (StateM σ) α} {f : α → ExceptT ε (StateM σ) β}
    (hm : Within R m) (hf : ∀ a, Within R (f a)) : Within R (m >>= f) := by
  intro s
  have hfirst : R s (m.run s).2 := hm s
  rw [run_bind]
  generalize m.run s = first at hfirst ⊢
  rcases first with ⟨e | a, t⟩
  · exact hfirst
  · exact hR.trans hfirst (hf a t)

theorem within_tryCatch (hR : Frame R) {m : ExceptT ε (StateM σ) α}
    {handler : ε → ExceptT ε (StateM σ) α} (hm : Within R m) (hh : ∀ e, Within R (handler e)) :
    Within R (tryCatch m handler) := by
  intro s
  have hfirst : R s (m.run s).2 := hm s
  rw [run_tryCatch]
  generalize m.run s = first at hfirst ⊢
  rcases first with ⟨e | a, t⟩
  · exact hR.trans hfirst (hh e t)
  · exact hfirst

theorem within_forM (hR : Frame R) {f : α → ExceptT ε (StateM σ) PUnit} (hf : ∀ a, Within R (f a))
    (as : List α) : Within R (as.forM f) := by
  induction as with
  | nil => exact hR.within_pure PUnit.unit
  | cons a rest ih => exact hR.within_bind (hf a) fun _ => ih

end Frame

/-! ## Two runs side by side -/

/-- Run on the two states, the operations succeed alike, with results that are
related, or fail alike, and they leave states that are related. -/
def Agree {τ : Type} (S : σ → τ → Prop) (s : σ) (t : τ) (R : α → β → Prop)
    (x : ExceptT ε (StateM σ) α) (y : ExceptT ε (StateM τ) β) : Prop :=
  (∃ a b s' t', x.run s = (.ok a, s') ∧ y.run t = (.ok b, t') ∧ R a b ∧ S s' t') ∨
    ∃ e s' t', x.run s = (.error e, s') ∧ y.run t = (.error e, t') ∧ S s' t'

namespace Agree

variable {τ γ δ : Type} {S : σ → τ → Prop} {s : σ} {t : τ} {R : α → β → Prop} {P : γ → δ → Prop}

theorem pure (h : S s t) {a : α} {b : β} (hr : R a b) :
    Agree S s t R (Pure.pure a : ExceptT ε (StateM σ) α) (Pure.pure b) :=
  .inl ⟨a, b, s, t, rfl, rfl, hr, h⟩

/-- The second parts agree on what the first parts leave. -/
theorem bind {x : ExceptT ε (StateM σ) α} {y : ExceptT ε (StateM τ) β}
    {f : α → ExceptT ε (StateM σ) γ} {g : β → ExceptT ε (StateM τ) δ} (h : Agree S s t R x y)
    (hf : ∀ a b s' t', R a b → S s' t' → Agree S s' t' P (f a) (g b)) :
    Agree S s t P (x >>= f) (y >>= g) := by
  rcases h with ⟨a, b, s', t', hx, hy, hr, hs⟩ | ⟨e, s', t', hx, hy, hs⟩
  · unfold Agree
    rw [run_bind_ok hx, run_bind_ok hy]
    exact hf a b s' t' hr hs
  · exact .inr ⟨e, s', t', run_bind_error hx, run_bind_error hy, hs⟩

/-- Both results are put into another form. -/
theorem map {x : ExceptT ε (StateM σ) α} {y : ExceptT ε (StateM τ) β} {f : α → γ} {g : β → δ}
    (h : Agree S s t R x y) (hfg : ∀ a b, R a b → P (f a) (g b)) :
    Agree S s t P (f <$> x) (g <$> y) := by
  rw [map_eq_pure_bind, map_eq_pure_bind]
  exact h.bind fun a b _ _ hr hs => .pure hs (hfg a b hr)

/-- A step of its own that both sides take, and that may fail. -/
theorem lift {x : Except ε α} {f : α → ExceptT ε (StateM σ) γ} {g : α → ExceptT ε (StateM τ) δ}
    (h : S s t) (hf : ∀ a, x = .ok a → Agree S s t P (f a) (g a)) :
    Agree S s t P (liftM x >>= f) (liftM x >>= g) := by
  cases x with
  | ok a =>
    have hstep : Agree S s t P (f a) (g a) := hf a rfl
    unfold Agree at hstep ⊢
    rwa [run_bind_ok (run_lift _ s), run_bind_ok (run_lift _ t)]
  | error e => exact .inr ⟨e, s, t, rfl, rfl, h⟩

/-- Where both sides come to the same result. -/
theorem of_run_eq {x : ExceptT ε (StateM σ) α} {y : ExceptT ε (StateM τ) α} {result : Except ε α}
    {s' : σ} {t' : τ} (hx : x.run s = (result, s')) (hy : y.run t = (result, t')) (h : S s' t') :
    Agree S s t (· = ·) x y := by
  cases result with
  | ok a => exact .inl ⟨a, a, s', t', hx, hy, rfl, h⟩
  | error e => exact .inr ⟨e, s', t', hx, hy, h⟩

/-- Results that are equal are the same answer. -/
theorem run_eq {x : ExceptT ε (StateM σ) α} {y : ExceptT ε (StateM τ) α}
    (h : Agree S s t (· = ·) x y) : (x.run s).1 = (y.run t).1 ∧ S (x.run s).2 (y.run t).2 := by
  rcases h with ⟨a, _, s', t', hx, hy, rfl, hs⟩ | ⟨e, s', t', hx, hy, hs⟩
  · rw [hx, hy]
    exact ⟨rfl, hs⟩
  · rw [hx, hy]
    exact ⟨rfl, hs⟩

end Agree

/-! ## Steps without a state -/

theorem ok_of_bind {x : Except ε α} {f : α → Except ε β} {b : β} (h : x >>= f = .ok b) :
    ∃ a, x = .ok a ∧ f a = .ok b := by
  cases x with
  | ok a => exact ⟨a, rfl, h⟩
  | error e => cases h

theorem ok_of_map {f : α → β} {x : Except ε α} {b : β} (h : x.map f = .ok b) :
    ∃ a, x = .ok a ∧ f a = b := by
  cases x with
  | ok a => exact ⟨a, rfl, Except.ok.inj h⟩
  | error e => cases h

theorem ok_of_mapM_cons {f : α → Except ε β} {a : α} {as : List α} {bs : List β}
    (h : (a :: as).mapM f = .ok bs) :
    ∃ b others, f a = .ok b ∧ as.mapM f = .ok others ∧ bs = b :: others := by
  rw [List.mapM_cons] at h
  obtain ⟨b, hb, h⟩ := ok_of_bind h
  obtain ⟨others, ho, h⟩ := ok_of_bind h
  cases h
  exact ⟨b, others, hb, ho, rfl⟩

theorem mapM_eq_ok_iff {f : α → Except ε β} {as : List α} {bs : List β} :
    as.mapM f = .ok bs ↔ as.map f = bs.map .ok := by
  induction as generalizing bs with
  | nil =>
    constructor
    · intro h
      cases h
      rfl
    · intro h
      cases List.map_eq_nil_iff.1 h.symm
      rfl
  | cons a rest ih =>
    constructor
    · intro h
      obtain ⟨b, others, hb, ho, rfl⟩ := ok_of_mapM_cons h
      rw [List.map_cons, List.map_cons, hb, ih.1 ho]
    · intro h
      cases bs with
      | nil => cases h
      | cons b others =>
        obtain ⟨hb, ho⟩ := List.cons_eq_cons.1 h
        rw [List.mapM_cons, hb, ih.2 ho]
        rfl

theorem ok_of_mem_mapM {f : α → Except ε β} {as : List α} {bs : List β} (h : as.mapM f = .ok bs)
    {a : α} (ha : a ∈ as) : ∃ b ∈ bs, f a = .ok b := by
  induction as generalizing bs with
  | nil => cases ha
  | cons first rest ih =>
    obtain ⟨b, others, hb, ho, rfl⟩ := ok_of_mapM_cons h
    rcases List.mem_cons.1 ha with rfl | ha
    · exact ⟨b, List.mem_cons_self, hb⟩
    · obtain ⟨b, hm, hb⟩ := ih ho ha
      exact ⟨b, List.mem_cons_of_mem _ hm, hb⟩

/-- A list can be gone through if each of its elements can. -/
theorem ok_mapM_iff {f : α → Except ε β} {as : List α} :
    (∃ bs, as.mapM f = .ok bs) ↔ ∀ a ∈ as, ∃ b, f a = .ok b := by
  constructor
  · rintro ⟨bs, h⟩ a ha
    obtain ⟨b, -, hb⟩ := ok_of_mem_mapM h ha
    exact ⟨b, hb⟩
  · intro h
    induction as with
    | nil => exact ⟨[], rfl⟩
    | cons a rest ih =>
      obtain ⟨b, hb⟩ := h a List.mem_cons_self
      obtain ⟨bs, hbs⟩ := ih fun x hx => h x (List.mem_cons_of_mem _ hx)
      refine ⟨b :: bs, ?_⟩
      rw [List.mapM_cons, hb, hbs]
      rfl

/-- What has something in it was a success with something in it. -/
theorem ok_some_of_isSome {x : Except ε (Option α)} (h : x.toOption.join.isSome = true) :
    ∃ a, x = .ok (some a) := by
  rcases x with e | _ | a
  · cases h
  · cases h
  · exact ⟨a, rfl⟩

end Folio
