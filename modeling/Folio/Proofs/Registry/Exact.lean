import Mathlib.Data.List.ReduceOption
import Folio.Proofs.Registry.Supplied

/-!
# Decoding takes one value

A step of decoding leaves a sound registry with the same suppliers. If it
succeeds it has taken the value that was due and nothing else, so the next one
begins where this one ended. This is so with codecs from suppliers too, as they are
asked to.

Results:
* `Leads`: what a step makes of a reader, with a rule for each way to build one.
* `leads_entries`: entries are taken one after another.
* `exact_value`: a value of any declared type is taken whole.
* `known_value`: flags are decoded as they are, and so are texts if the suppliers
  leave them so.
-/
namespace Folio

variable {s : Schema} {known : ClassRef → Prop} {suppliers : List Provider}

/-- The properties of known classes are of known classes. -/
def Schema.Closed (s : Schema) (known : ClassRef → Prop) : Prop :=
  ∀ c, known c → ∀ p ∈ (Descriptor.ofClass s c).properties, p.type.Refers known

theorem Schema.Closed.typeOf (h : s.Closed known) {c : ClassRef} (hc : known c) (property : String) :
    ((Descriptor.ofClass s c).typeOf property).Refers known := by
  unfold Descriptor.typeOf
  cases hp : (Descriptor.ofClass s c).property? property with
  | none => trivial
  | some p => exact h c hc p (List.mem_of_find?_eq_some hp)

/-! ## Calls on the reader -/

namespace Reader

variable {α : Type} {v : Value} {rd rd' after : Reader}

/-- What is read of a type is the value that was due. -/
theorem Due.run_typed {expected : String} {view : Value → Option α} {a : α} (h : Due v rd rd')
    (hrun : (typed expected view).run rd = (.ok a, after)) : after = rd' ∧ view v = some a := by
  rw [typed, run_bind_ok h.run_take] at hrun
  cases hview : view v with
  | none =>
    simp only [hview] at hrun
    cases hrun
  | some b =>
    simp only [hview] at hrun
    cases hrun
    exact ⟨rfl, rfl⟩

theorem Due.run_null {a : Unit} (h : Due v rd rd') (hrun : null.run rd = (.ok a, after)) :
    after = rd' := (h.run_typed hrun).1

theorem Due.enters_array {a : Unit} (h : Due v rd rd') (hrun : startArray.run rd = (.ok a, after)) :
    ∃ items, after = ⟨.array items :: rd'.stack, none⟩ := by
  obtain ⟨items, t, htyped, hrun⟩ := ok_of_run_bind hrun
  obtain ⟨rfl, -⟩ := h.run_typed htyped
  cases hrun
  refine ⟨items, ?_⟩
  rw [h.settled]

theorem Due.enters_document {a : Unit} (h : Due v rd rd')
    (hrun : startDocument.run rd = (.ok a, after)) :
    ∃ doc : Document, v = .document doc ∧ after = ⟨.document doc.fields :: rd'.stack, none⟩ := by
  obtain ⟨doc, t, htyped, hrun⟩ := ok_of_run_bind hrun
  obtain ⟨rfl, hview⟩ := h.run_typed htyped
  cases hrun
  refine ⟨doc, ?_, ?_⟩
  · cases v <;> cases hview
    rfl
  · rw [h.settled]

end Reader

namespace Decoder

variable {α β : Type} {rd rd' : Reader} {v : Value}

/-- Run on the reader, beside a sound registry with these suppliers, the step leaves
such a registry; if it succeeds, its answer and the reader that it leaves are as
described. -/
def Leads (s : Schema) (known : ClassRef → Prop) (suppliers : List Provider) (rd : Reader)
    (step : Step α) (post : α → Reader → Prop) : Prop :=
  ∀ r, r.From s known suppliers → ∀ result d, step.run ⟨r, rd⟩ = (result, d) →
    d.registry.From s known suppliers ∧ ∀ a, result = .ok a → post a d.reader

namespace Leads

variable {P Q : α → Reader → Prop}

theorem pure {a : α} (h : Q a rd) : Leads s known suppliers rd (Pure.pure a) Q := by
  intro r hr result d hrun
  cases hrun
  exact ⟨hr, fun b hb => by cases hb; exact h⟩

theorem throw (failure : Failure) : Leads s known suppliers rd (throw failure) Q := by
  intro r hr result d hrun
  cases hrun
  exact ⟨hr, fun a ha => by cases ha⟩

theorem bind {step : Step α} {f : α → Step β} {last : β → Reader → Prop}
    (h : Leads s known suppliers rd step P) (hf : ∀ a rd', P a rd' → Leads s known suppliers rd' (f a) last) :
    Leads s known suppliers rd (step >>= f) last := by
  intro r hr result d hrun
  rw [run_bind] at hrun
  rcases hstep : step.run ⟨r, rd⟩ with ⟨failure | a, t⟩
  · rw [hstep] at hrun
    cases hrun
    exact ⟨(h r hr _ _ hstep).1, fun b hb => by cases hb⟩
  · rw [hstep] at hrun
    obtain ⟨ht, hmid⟩ := h r hr _ _ hstep
    exact hf a t.reader (hmid a rfl) t.registry ht result d hrun

theorem imp {step : Step α} (h : Leads s known suppliers rd step P) (hp : ∀ a rd', P a rd' → Q a rd') :
    Leads s known suppliers rd step Q := by
  intro r hr result d hrun
  obtain ⟨hd, hmid⟩ := h r hr result d hrun
  exact ⟨hd, fun a ha => hp a _ (hmid a ha)⟩

theorem get {f : Decoder → Step α} (h : ∀ d, d.reader = rd → Leads s known suppliers rd (f d) Q) :
    Leads s known suppliers rd (getThe Decoder >>= f) Q := by
  intro r hr result d hrun
  rw [run_bind_ok (run_getThe _)] at hrun
  exact h ⟨r, rd⟩ rfl r hr result d hrun

theorem read {call : Reader.Call α}
    (h : ∀ a after, call.run rd = (.ok a, after) → Q a after) :
    Leads s known suppliers rd (Decoder.read call) Q := by
  intro r hr result d hrun
  have hstep : ((call.run rd).1.mapError Failure.data, (⟨r, (call.run rd).2⟩ : Decoder)) =
      (result, d) := hrun
  rcases hcall : call.run rd with ⟨fault | b, after⟩
  · rw [hcall] at hstep
    cases hstep
    exact ⟨hr, fun a ha => by cases ha⟩
  · rw [hcall] at hstep
    cases hstep
    exact ⟨hr, fun a ha => by cases ha; exact h b after hcall⟩

theorem look {m : RegistryM α} {Q : α → Prop}
    (h : ∀ r, r.From s known suppliers → ∀ result r', m.run r = (result, r') →
      r'.From s known suppliers ∧ ∀ a, result = .ok a → Q a) :
    Leads s known suppliers rd (Decoder.look m) fun a after => Q a ∧ after = rd := by
  intro r hr result d hrun
  cases hrun
  obtain ⟨hr', hq⟩ := h r hr _ _ rfl
  exact ⟨hr', fun a ha => ⟨hq a ha, rfl⟩⟩

end Leads

/-- Wherever a value is due, the step takes it, if it succeeds. -/
def Exact (s : Schema) (known : ClassRef → Prop) (suppliers : List Provider) (step : Step α) : Prop :=
  ∀ v rd rd', Reader.Due v rd rd' → Leads s known suppliers rd step fun _ after => after = rd'

/-! ## Leaves -/

theorem leads_narrow (least most : Int) (n : Int64) (make : Int64 → FieldValue) :
    Leads s known suppliers rd (narrow least most n make) fun _ after => after = rd := by
  unfold narrow
  split
  · exact .pure rfl
  · exact .throw _

theorem leads_primitive (p : Primitive) (v : Value) :
    Leads s known suppliers rd (primitive p v) fun _ after => after = rd := by
  unfold primitive
  split
  case h_10 =>
    split
    · exact .pure rfl
    · exact .throw _
  all_goals first | exact .pure rfl | exact leads_narrow _ _ _ _ | exact .throw _

theorem leads_take (h : Reader.Due v rd rd') :
    Leads s known suppliers rd (read Reader.take) fun w after => w = v ∧ after = rd' := by
  refine .read fun w after hrun => ?_
  rw [h.run_take] at hrun
  cases hrun
  exact ⟨rfl, rfl⟩

/-- A codec that serves a type takes one value. -/
theorem exact_leaf {c : Codec} {t : ValueType} (hc : c.Serves suppliers t) :
    Exact s known suppliers (leaf c) := by
  intro v rd rd' hdue
  unfold leaf
  split
  case h_1 codec =>
    rcases hc with hc | ⟨k, hk, hsound, -⟩
    · cases t <;> cases hc
    · cases hk
      exact .read fun a after hrun => hsound.one v rd rd' hdue a after hrun
  case h_2 => exact .throw _
  case h_3 =>
    refine .bind (leads_take hdue) ?_
    rintro w after ⟨rfl, rfl⟩
    split
    case h_4 => exact .get fun _ _ => .pure rfl
    all_goals
      first
        | exact .pure rfl
        | exact .throw _
        | exact .bind (leads_primitive _ _) fun _ _ h => .pure h

/-! ## Containers -/

/-- Entries are taken one after another. `reader` is the reader before the entries
that are left. -/
theorem leads_entries {entry : Step (Option α)} (reader : List β → Reader)
    {Q : β → Option α → Prop} {items : List β}
    (hnext : ∀ x rest, (reader (x :: rest)).hasNext = true)
    (hentry : ∀ x ∈ items, ∀ rest,
      Leads s known suppliers (reader (x :: rest)) entry fun a after => Q x a ∧ after = reader rest) :
    Leads s known suppliers (reader items) (entries entry items.length) fun found after =>
      (∃ answers, List.Forall₂ Q items answers ∧ found = answers.reduceOption) ∧ after = reader [] := by
  induction items with
  | nil => exact .pure ⟨⟨[], .nil, rfl⟩, rfl⟩
  | cons x rest ih =>
    have hrest := ih fun y hy => hentry y (List.mem_cons_of_mem x hy)
    refine .get fun d hd => ?_
    rw [hd, hnext]
    refine .bind (hentry x List.mem_cons_self rest) ?_
    rintro a after ⟨ha, rfl⟩
    cases a with
    | none =>
      refine hrest.imp ?_
      rintro found after ⟨⟨answers, hall, rfl⟩, hafter⟩
      exact ⟨⟨none :: answers, .cons ha hall, rfl⟩, hafter⟩
    | some a =>
      refine .bind hrest ?_
      rintro found after ⟨⟨answers, hall, rfl⟩, hafter⟩
      exact .pure ⟨⟨some a :: answers, .cons ha hall, rfl⟩, hafter⟩

theorem exact_list {item : Step (Option FieldValue)} (h : Exact s known suppliers item) :
    Exact s known suppliers (list item) := by
  intro v rd rd' hdue
  refine .get fun d hd => ?_
  split
  · refine .bind (.read fun a after hrun => hdue.run_null hrun) ?_
    exact fun _ _ hafter => .pure hafter
  · refine .bind (.read fun a after hrun => hdue.enters_array hrun) ?_
    rintro - after ⟨items, rfl⟩
    refine .get fun d hd => ?_
    have hleft : d.reader.left = items.length := by rw [hd]; rfl
    rw [hleft]
    refine .bind (leads_entries (fun items => ⟨.array items :: rd'.stack, none⟩)
      (Q := fun _ _ => True) (fun x rest => by simp [Reader.hasNext, Reader.left])
      fun x _ rest => (h x _ _ (.item rest _)).imp fun _ _ hafter => ⟨trivial, hafter⟩) ?_
    rintro found after ⟨-, rfl⟩
    refine .bind (.read (Q := fun _ after => after = rd') fun a after hrun => ?_) fun _ _ hafter =>
      .pure hafter
    cases hrun
    exact hdue.settled.symm

/-- The field is taken, and is what its value is decoded as, under its name. -/
theorem leads_field {decode : ValueType → Step (Option FieldValue)} {d : Descriptor}
    {f : String × Value} {rest : List (String × Value)} {below : List Reader.Frame}
    {P : Option FieldValue → Prop}
    (h : Leads s known suppliers ⟨.document rest :: below, some f.2⟩ (decode (d.typeOf f.1))
      fun a after => P a ∧ after = ⟨.document rest :: below, none⟩) :
    Leads s known suppliers ⟨.document (f :: rest) :: below, none⟩ (field decode d) fun a after =>
      (∃ x, P x ∧ a = x.map (f.1, ·)) ∧ after = ⟨.document rest :: below, none⟩ := by
  refine .bind (.read (Q := fun name after =>
    name = f.1 ∧ after = ⟨.document rest :: below, some f.2⟩) fun a after hrun => ?_) ?_
  · cases hrun
    exact ⟨rfl, rfl⟩
  · rintro name after ⟨rfl, rfl⟩
    refine .bind h ?_
    rintro x after ⟨hx, rfl⟩
    exact .pure ⟨⟨x, hx, rfl⟩, rfl⟩

end Decoder

/-! ## Classes -/

theorem Registry.From.withCatalog {r : Registry} (hr : r.From s known suppliers) {k : Catalog}
    (hk : k.Genuine s known) : Registry.From s known suppliers { r with catalog := k } :=
  ⟨⟨hr.sound.providers, hr.sound.codecs, hr.sound.items, hk⟩, hr.suppliers⟩

/-- The descriptor that is found is that of a known class of the name. -/
theorem Registry.sound_descriptor {c : ClassRef} (hc : known c) {r r' : Registry}
    (hr : r.From s known suppliers) {result : Except Failure Descriptor}
    (h : (withCatalog (Catalog.descriptor c)).run r = (result, r')) :
    r'.From s known suppliers ∧ ∀ d, result = .ok d →
      ∃ c', known c' ∧ c'.name = c.name ∧ d = Descriptor.ofClass s c' := by
  obtain ⟨c', k, hrun, hc', hname, hk⟩ := hr.sound.catalog.run_descriptor hc
  have hlift : (liftM (Catalog.descriptor c) : CatalogM Descriptor).run r.catalog =
      (.ok (Descriptor.ofClass s c'), k) := by rw [run_monadLift, hrun]
  have hboth : (withCatalog (Catalog.descriptor c)).run r =
      (.ok (Descriptor.ofClass s c'), { r with catalog := k }) := Decoder.run_withCatalog hlift
  rw [hboth] at h
  cases h
  exact ⟨hr.withCatalog hk, fun d hd => ⟨c', hc', hname, by cases hd; rfl⟩⟩

namespace Decoder

variable {decode : ValueType → Step (Option FieldValue)} {c : ClassRef} {v : Value} {rd rd' : Reader}

/-- Properties are taken field by field, each as the type that a known class of the
name declares for it. -/
theorem leads_fields (hc : known c) (hdue : Reader.Due v rd rd')
    {Q : Descriptor → String × Value → Option (String × FieldValue) → Prop}
    (hfield : ∀ c', known c' → ∀ f : String × Value, ∀ rest below,
      Leads s known suppliers ⟨.document (f :: rest) :: below, none⟩ (field decode (Descriptor.ofClass s c'))
        fun a after => Q (Descriptor.ofClass s c') f a ∧ after = ⟨.document rest :: below, none⟩) :
    Leads s known suppliers rd (fields decode c) fun found after =>
      (∃ doc : Document, v = .document doc ∧ ∃ c', known c' ∧ c'.name = c.name ∧
        ∃ answers, List.Forall₂ (Q (Descriptor.ofClass s c')) doc.fields answers ∧
          found = Keyed.ofList answers.reduceOption) ∧ after = rd' := by
  refine .bind (.look fun r hr result r' h => Registry.sound_descriptor hc hr h) ?_
  rintro d after ⟨⟨c', hc', hname, rfl⟩, rfl⟩
  refine .bind (.read fun a after hrun => hdue.enters_document hrun) ?_
  rintro - after ⟨doc, rfl, rfl⟩
  refine .get fun d hd => ?_
  have hleft : d.reader.left = doc.fields.length := by rw [hd]; rfl
  rw [hleft]
  refine .bind (leads_entries (fun rest => ⟨.document rest :: rd'.stack, none⟩)
    (fun x rest => by simp [Reader.hasNext, Reader.left])
    fun f _ rest => hfield c' hc' f rest rd'.stack) ?_
  rintro found after ⟨⟨answers, hall, rfl⟩, rfl⟩
  refine .bind (.read (Q := fun _ after => after = rd') fun a after hrun => ?_) fun _ _ hafter =>
    .pure ⟨⟨doc, rfl, c', hc', hname, answers, hall, rfl⟩, hafter⟩
  cases hrun
  exact hdue.settled.symm

theorem exact_entity (hc : known c) (hclosed : s.Closed known)
    (h : ∀ t : ValueType, t.Refers known → Exact s known suppliers (decode t)) :
    Exact s known suppliers (entity decode c) := by
  intro v rd rd' hdue
  refine .get fun d hd => ?_
  split
  · refine .bind (.read fun a after hrun => hdue.run_null hrun) ?_
    exact fun _ _ hafter => .pure hafter
  · refine .bind (leads_fields (Q := fun _ _ _ => True) hc hdue fun c' hc' f rest below => ?_) ?_
    · refine (leads_field (P := fun _ => True) ?_).imp fun _ _ hafter => ⟨trivial, hafter.2⟩
      exact (h _ (hclosed.typeOf hc' f.1) _ _ _ (.current _)).imp fun _ _ hafter => ⟨trivial, hafter⟩
    · rintro found after ⟨-, rfl⟩
      refine .bind (.look (Q := fun _ => True) fun r hr result r' hrun => ?_) ?_
      · cases hrun
        exact ⟨hr.withCatalog (Entity.genuine_instantiate hc _ _ hr.sound.catalog), fun _ _ => trivial⟩
      · exact fun _ _ hafter => .pure hafter.2

/-- Decoding a value of any declared type takes the value. -/
theorem exact_value (hclosed : s.Closed known) (fuel : Nat) {t : ValueType} (ht : t.Refers known) :
    Exact s known suppliers (value fuel t) := by
  induction fuel generalizing t with
  | zero => exact fun _ _ _ _ => .throw _
  | succ fuel ih =>
    by_cases hentity : ∃ c, t = .entity c
    · obtain ⟨c, rfl⟩ := hentity
      exact exact_entity ht hclosed fun u hu => ih hu
    · intro v rd rd' hdue
      rw [value]
      · refine .bind (.look fun r hr result r' h => Registry.run_codec_sound ht.items hr h) ?_
        rintro c after ⟨⟨u, -, hserves, hitems⟩, rfl⟩
        split
        · next element =>
          rcases hserves with hserves | ⟨k, hk, -, -⟩
          · cases u <;> cases hserves
            exact exact_list (ih (hitems _ rfl)) v _ rd' hdue
          · cases hk
        · refine .get fun d _ => ?_
          dsimp only
          split
          · exact ih (t := .bytes) trivial v _ rd' hdue
          · split
            · exact ih (t := .list .any) trivial v _ rd' hdue
            · exact exact_leaf hserves v _ rd' hdue
        · exact exact_leaf hserves v _ rd' hdue
      · exact fun c h => hentity ⟨c, h⟩

/-- A value that is decoded in one way whatever the suppliers have, as flags are, or
as long as they leave texts as they are. -/
inductive Settles (suppliers : List Provider) : ValueType → Value → Option FieldValue → Prop
  | flag (flag : Bool) : Settles suppliers (.primitive .bool) (.bool flag) (some (.bool flag))
  | text (literal : ∀ p ∈ suppliers, Provider.Literal p) (text : String) :
    Settles suppliers .text (.text text) (some (.text text))
  | unset (literal : ∀ p ∈ suppliers, Provider.Literal p) : Settles suppliers .text .null none

theorem Settles.eq_of_beq {t u : ValueType} {x : Option FieldValue} (h : Settles suppliers t v x)
    (hu : (t == u) = true) : u = t := by
  cases h with
  | flag =>
    cases u <;> first | cases hu | skip
    next p => cases p <;> first | rfl | cases hu
  | text => cases u <;> first | rfl | cases hu
  | unset => cases u <;> first | rfl | cases hu

theorem Settles.unique {t : ValueType} {x y : Option FieldValue} (h : Settles suppliers t v x)
    (h' : Settles suppliers t v y) : x = y := by
  cases h <;> cases h' <;> rfl

/-- A codec that serves the type decodes the value in the one way. -/
theorem Settles.leaf {t : ValueType} {x : Option FieldValue} (h : Settles suppliers t v x) {c : Codec}
    (hc : c.Serves suppliers t) (hdue : Reader.Due v rd rd') :
    Leads s known suppliers rd (leaf c) fun a after => a = x ∧ after = rd' := by
  rcases hc with hc | ⟨k, rfl, hk, p, hp, hkp⟩
  · cases h <;> cases hc
    all_goals
      refine .bind (leads_take hdue) ?_
      rintro w after ⟨rfl, rfl⟩
      exact .pure ⟨rfl, rfl⟩
  · refine .read fun a after hrun => ⟨?_, hk.one _ _ rd' hdue a after hrun⟩
    cases h with
    | flag flag => exact hk.readsFlag rfl flag _ rd' hdue a after hrun
    | text literal text => exact (literal p hp k hkp).reads text _ rd' hdue a after hrun
    | unset literal => exact (literal p hp k hkp).readsNull _ rd' hdue a after hrun

/-- So does decoding it as a value of the type. -/
theorem known_value (fuel : Nat) {t : ValueType} {x : Option FieldValue} (h : Settles suppliers t v x)
    (hdue : Reader.Due v rd rd') :
    Leads s known suppliers rd (value (fuel + 1) t) fun a after => a = x ∧ after = rd' := by
  have hitems : t.ItemsRefer known := by
    rintro element rfl
    cases h
  rw [value]
  · refine .bind (.look fun r hr result r' hrun => Registry.run_codec_sound hitems hr hrun) ?_
    rintro c after ⟨⟨u, hu, hserves, -⟩, rfl⟩
    rw [h.eq_of_beq hu] at hserves
    split
    · rcases hserves with hserves | ⟨k, hk, -⟩
      · cases h <;> cases hserves
      · cases hk
    · rcases hserves with hserves | ⟨k, hk, -⟩
      · cases h <;> cases hserves
      · cases hk
    · exact h.leaf hserves hdue
  · rintro c rfl
    cases h

end Decoder
end Folio
