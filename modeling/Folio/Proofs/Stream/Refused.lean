import Folio.Proofs.Stream.Calls

/-!
# What a refused call leaves

A call on a writer that is refused leaves the writer as it was, with one
exception: the end of a document in which a name still waits for its value is
refused, and the document is lost with everything written in it. So after any
calls, refused ones among them, whether a further refused call can be noticed
later depends on nothing but whether it is such an end.

Results:
* `Nested.outcome`: a call succeeds, changes nothing, or loses a document.
* `nested_after`: containers are nested properly after whatever calls.
* `stack_after_closing`: what is open can be closed.
* `refused_leaves_iff`: which refused calls leave the writer as it was, in
  itself and as seen by all later calls.
-/
namespace Folio.Writer

/-- The state that the calls leave, whatever they answer. -/
def after (w : Writer) : List Step → Writer
  | [] => w
  | step :: rest => after (step.call.run w).2 rest

/-- What the calls answer, each on the state that those before it left. -/
def answers (w : Writer) : List Step → List (Except DataFault Unit)
  | [] => []
  | step :: rest => (step.call.run w).1 :: answers (step.call.run w).2 rest

/-- The name that waits for its value in the innermost container. -/
def pending? (w : Writer) : Option String :=
  match w.stack with
  | .document _ pending :: _ => pending
  | .array _ :: _ | [] => none

/-- The call ends a document in which a name waits for its value. -/
def Loses (step : Step) (w : Writer) : Prop := step = .endDocument ∧ w.pending?.isSome = true

theorem not_loses_of_none {step : Step} {w : Writer} (h : w.pending? = none) : ¬ Loses step w := by
  rintro ⟨-, hk⟩
  rw [h] at hk
  cases hk

theorem not_loses_of_ne {step : Step} {w : Writer} (h : step ≠ .endDocument) : ¬ Loses step w :=
  fun hl => h hl.1

theorem loses_of_some {step : Step} {w : Writer} {key : String} (hs : step = .endDocument)
    (hk : w.pending? = some key) : Loses step w := ⟨hs, by rw [hk]; rfl⟩

/-! ## Nested containers -/

/-- Each container that is open was opened where a value is due; an array, in
another container. -/
inductive Nested (root : Option Document) : List Frame → Prop
  | nothing : Nested root []
  | document {below : List Frame} (h : Nested root below) (ha : Awaits ⟨below, root⟩)
      (doc : Document) (pending : Option String) : Nested root (.document doc pending :: below)
  | array {below : List Frame} (h : Nested root below) (ha : Awaits ⟨below, root⟩)
      (hs : below ≠ []) (items : List Value) : Nested root (.array items :: below)

theorem Nested.tail {root : Option Document} {stack : List Frame} (h : Nested root stack) :
    Nested root stack.tail := by
  cases h with
  | nothing => exact .nothing
  | document h | array h => exact h

/-- A container that is closed can be put where it was opened. -/
theorem Awaits.puts_document {w : Writer} (h : w.Awaits) (doc : Document) :
    ∃ w', Puts (.document doc) w w' := by
  obtain ⟨stack, root⟩ := w
  rcases stack with _ | ⟨⟨outer, _ | key⟩ | items, below⟩
  · cases (show root = none from h)
    exact ⟨_, .root rfl⟩
  · exact h.elim
  · exact ⟨_, .field⟩
  · exact ⟨_, .item⟩

theorem Awaits.puts {w : Writer} (h : w.Awaits) (hs : w.stack ≠ []) (v : Value) :
    ∃ w', Puts v w w' := by
  obtain ⟨stack, root⟩ := w
  rcases stack with _ | ⟨⟨outer, _ | key⟩ | items, below⟩
  · exact absurd rfl hs
  · exact h.elim
  · exact ⟨_, .field⟩
  · exact ⟨_, .item⟩

theorem Puts.nested {v : Value} {w w' : Writer} (h : Puts v w w') (hn : Nested w.root w.stack) :
    Nested w'.root w'.stack := by
  cases h with
  | field => cases hn with | document hn ha => exact .document hn ha _ none
  | item => cases hn with | array hn ha hs => exact .array hn ha hs _
  | root => exact .nothing

theorem Effect.nested {step : Step} {w w' : Writer} (h : Effect step w w')
    (hn : Nested w.root w.stack) : Nested w'.root w'.stack := by
  cases h with
  | startDocument ha => exact .document hn ha .empty none
  | startArray ha hs => exact .array hn ha hs []
  | endDocument hp | endArray hp => exact hp.nested hn.tail
  | name => cases hn with | document hn ha => exact .document hn ha _ _
  | value _ hp => exact hp.nested hn

/-! ## What a call does -/

theorem put_refused {v : Value} {w w' : Writer} {fault : DataFault}
    (h : (put v).run w = (.error fault, w')) : w' = w := by
  obtain ⟨stack, root⟩ := w
  rcases stack with _ | ⟨⟨doc, _ | key⟩ | items, below⟩
  · cases v <;> cases root <;> cases h <;> rfl
  · cases h
    rfl
  · cases h
  · cases h

theorem checkPlace_refused {w w' : Writer} {fault : DataFault}
    (h : checkPlace.run w = (.error fault, w')) : w' = w := by
  obtain ⟨stack, root⟩ := w
  rcases stack with _ | ⟨⟨doc, _ | key⟩ | items, below⟩
  · cases root <;> cases h
    rfl
  · cases h
    rfl
  · cases h
  · cases h

/-- What a call may answer and leave: it succeeds, it is refused and nothing
has changed, or it is refused and the innermost document is lost. -/
inductive Outcome (step : Step) (w : Writer) : Except DataFault Unit × Writer → Prop
  | done {w' : Writer} (h : Effect step w w') : Outcome step w (.ok (), w')
  | refused (fault : DataFault) (h : ¬ Loses step w) : Outcome step w (.error fault, w)
  | lost {key : String} (hs : step = .endDocument) (hk : w.pending? = some key) :
      Outcome step w (.error (.badState (.fieldWithoutValue key)), ⟨w.stack.tail, w.root⟩)

theorem outcome_of_ok {step : Step} {w w' : Writer} (h : step.call.run w = (.ok (), w')) :
    Outcome step w (step.call.run w) := by
  rw [h]
  exact .done (call_iff.1 h)

/-- A call other than the end of a document, refused without a change. -/
theorem outcome_of_refused {step : Step} {w : Writer} (hs : step ≠ .endDocument)
    (h : ∀ fault w', step.call.run w = (.error fault, w') → w' = w) :
    Outcome step w (step.call.run w) := by
  rcases hr : step.call.run w with ⟨fault | _, w'⟩
  · cases h fault w' hr
    exact .refused fault (not_loses_of_ne hs)
  · exact hr ▸ outcome_of_ok hr

theorem outcome_of_written {step : Step} {v : Value} (hv : step.written? = some v) (w : Writer) :
    Outcome step w (step.call.run w) := by
  have hs : step ≠ .endDocument := by
    rintro rfl
    cases hv
  refine outcome_of_refused hs fun fault w' h => ?_
  rw [call_of_written hv] at h
  exact put_refused h

/-- A call on properly nested containers. Only there an end finds a place for
what it closes, and fails before it has taken the container away. -/
theorem Nested.outcome {w : Writer} (hn : Nested w.root w.stack) (step : Step) :
    Outcome step w (step.call.run w) := by
  obtain ⟨stack, root⟩ := w
  cases step with
  | startDocument =>
    refine outcome_of_refused (by rintro ⟨⟩) fun fault w' h => ?_
    rcases hc : checkPlace.run ⟨stack, root⟩ with ⟨other | _, m⟩
    · rw [Step.call, Writer.startDocument, run_bind_error hc] at h
      cases h
      exact checkPlace_refused hc
    · rw [Step.call, Writer.startDocument, run_bind_ok hc] at h
      cases h
  | endDocument =>
    rcases stack with _ | ⟨⟨doc, _ | key⟩ | items, below⟩
    · exact .refused _ (not_loses_of_none rfl)
    · cases hn with
      | document _ ha =>
        obtain ⟨w', hp⟩ := ha.puts_document doc
        exact outcome_of_ok (call_iff.2 (.endDocument hp))
    · exact .lost rfl rfl
    · exact .refused _ (not_loses_of_none rfl)
  | startArray =>
    refine outcome_of_refused (by rintro ⟨⟩) fun fault w' h => ?_
    rcases stack with _ | ⟨top, below⟩
    · cases h
      rfl
    · rcases hc : checkPlace.run ⟨top :: below, root⟩ with ⟨other | _, m⟩
      · cases (run_bind_error hc).symm.trans (show (checkPlace >>= fun _ =>
          modify fun w => { w with stack := .array [] :: w.stack }).run _ = _ from h)
        exact checkPlace_refused hc
      · cases (run_bind_ok hc).symm.trans (show (checkPlace >>= fun _ =>
          modify fun w => { w with stack := .array [] :: w.stack }).run _ = _ from h)
  | endArray =>
    rcases stack with _ | ⟨⟨doc, pending⟩ | items, below⟩
    · exact .refused _ (not_loses_of_none rfl)
    · exact .refused _ (not_loses_of_ne (by rintro ⟨⟩))
    · cases hn with
      | array _ ha hs =>
        obtain ⟨w', hp⟩ := ha.puts hs (.array items)
        exact outcome_of_ok (call_iff.2 (.endArray hp))
  | name key =>
    refine outcome_of_refused (by rintro ⟨⟩) fun fault w' h => ?_
    rcases stack with _ | ⟨⟨doc, _ | other⟩ | items, below⟩ <;> cases h <;> rfl
  | double d =>
    by_cases hd : d.isNaN = true
    · refine outcome_of_refused (by rintro ⟨⟩) fun fault w' h => ?_
      rw [Step.call, double, if_pos hd] at h
      cases h
      rfl
    · have hv : (Step.double d).written? = some (.double d) := if_neg hd
      exact outcome_of_written hv _
  | _ => exact outcome_of_written rfl _

theorem Outcome.nested {step : Step} {w : Writer} {r : Except DataFault Unit × Writer}
    (h : Outcome step w r) (hn : Nested w.root w.stack) : Nested r.2.root r.2.stack := by
  cases h with
  | done h => exact h.nested hn
  | refused => exact hn
  | lost => exact hn.tail

/-- Whatever calls are made, what is open is nested properly. -/
theorem Nested.after {w : Writer} (h : Nested w.root w.stack) (steps : List Step) :
    Nested (w.after steps).root (w.after steps).stack := by
  induction steps generalizing w with
  | nil => exact h
  | cons step rest ih => exact ih ((h.outcome step).nested h)

theorem nested_after (steps : List Step) :
    Nested (start.after steps).root (start.after steps).stack := Nested.after .nothing steps

/-! ## A document that is lost is missed -/

theorem Puts.length_stack {v : Value} {w w' : Writer} (h : Puts v w w') :
    w'.stack.length = w.stack.length := by
  cases h <;> rfl

/-- A call closes at most one container. -/
theorem Outcome.length_stack {step : Step} {w : Writer} {r : Except DataFault Unit × Writer}
    (h : Outcome step w r) : w.stack.length ≤ r.2.stack.length + 1 := by
  cases h with
  | done h =>
    cases h with
    | startDocument | startArray => simp only [List.length_cons]; omega
    | endDocument hp | endArray hp => exact Nat.succ_le_succ (Nat.le_of_eq hp.length_stack.symm)
    | name => exact Nat.le_succ _
    | value _ hp => rw [hp.length_stack]; exact Nat.le_succ _
  | refused => exact Nat.le_succ _
  | lost => rw [List.length_tail]; omega

theorem Nested.length_stack_after {w : Writer} (h : Nested w.root w.stack) (steps : List Step) :
    w.stack.length ≤ (w.after steps).stack.length + steps.length := by
  induction steps generalizing w with
  | nil => exact Nat.le_refl _
  | cons step rest ih =>
    have hfirst := (h.outcome step).length_stack
    have hrest := ih ((h.outcome step).nested h)
    rw [List.length_cons]
    show _ ≤ ((step.call.run w).2.after rest).stack.length + _
    omega

/-- The call that ends a container of the kind. -/
def Frame.closing : Frame → Step
  | .document _ _ => .endDocument
  | .array _ => .endArray

theorem Puts.closing {v : Value} {w w' : Writer} (h : Puts v w w') :
    w'.stack.map Frame.closing = w.stack.map Frame.closing := by
  cases h <;> rfl

theorem Puts.pending? {v : Value} {w w' : Writer} (h : Puts v w w') : w'.pending? = none := by
  cases h <;> rfl

/-- What is open can be closed, from the innermost to the outermost, unless a
name waits for its value. -/
theorem stack_after_closing {w : Writer} (h : Nested w.root w.stack) (hp : w.pending? = none) :
    (w.after (w.stack.map Frame.closing)).stack = [] := by
  -- the frames change with what is put into them, the calls that end them do not
  generalize hc : w.stack.map Frame.closing = steps
  induction steps generalizing w with
  | nil => exact List.map_eq_nil_iff.1 hc
  | cons step rest ih =>
    obtain ⟨stack, root⟩ := w
    rcases stack with _ | ⟨⟨doc, _ | key⟩ | items, below⟩
    · cases hc
    · cases hc
      cases h with
      | document hn ha =>
        obtain ⟨w', hput⟩ := ha.puts_document doc
        have hend : (Step.call .endDocument).run ⟨.document doc none :: below, root⟩ = (.ok (), w') :=
          call_iff.2 (.endDocument hput)
        have hrest := ih (hput.nested hn) hput.pending? hput.closing
        rw [after, Frame.closing, hend]
        exact hrest
    · cases hp
    · cases hc
      cases h with
      | array hn ha hs =>
        obtain ⟨w', hput⟩ := ha.puts hs (.array items)
        have hend : (Step.call .endArray).run ⟨.array items :: below, root⟩ = (.ok (), w') :=
          call_iff.2 (.endArray hput)
        have hrest := ih (hput.nested hn) hput.pending? hput.closing
        rw [after, Frame.closing, hend]
        exact hrest

theorem document_eq_notClosed_iff {w : Writer} :
    w.document = .error (.badState .notClosed) ↔ w.stack ≠ [] := by
  obtain ⟨_ | ⟨top, below⟩, _ | doc⟩ := w
  · exact iff_of_false nofun fun h => h rfl
  · exact iff_of_false nofun fun h => h rfl
  · exact iff_of_true rfl nofun
  · exact iff_of_true rfl nofun

/-- A document with a name that waits for its value, and what stands around it,
are told apart by a value and the ends of what stands around it. -/
theorem closing_tells (doc : Document) (key : String) {below : List Frame} {root : Option Document}
    (hn : Nested root below) (ha : Awaits ⟨below, root⟩) :
    let steps := .null :: below.map Frame.closing
    (after ⟨.document doc (some key) :: below, root⟩ steps).document = .error (.badState .notClosed) ∧
      (after ⟨below, root⟩ steps).document ≠ .error (.badState .notClosed) := by
  constructor
  · have hnull : Nested root (.document (doc.insert key .null) none :: below) :=
      .document hn ha _ none
    have hlong := Nested.length_stack_after (w := ⟨_, root⟩) hnull (below.map Frame.closing)
    rw [List.length_map] at hlong
    have hvalue : after ⟨.document doc (some key) :: below, root⟩ (.null :: below.map Frame.closing) =
        after ⟨.document (doc.insert key .null) none :: below, root⟩ (below.map Frame.closing) := rfl
    rw [hvalue, document_eq_notClosed_iff]
    intro hshort
    rw [hshort, List.length_cons, List.length_nil] at hlong
    omega
  · have hempty : (after ⟨below, root⟩ (.null :: below.map Frame.closing)).stack = [] := by
      rcases below with _ | ⟨top, below⟩
      · rfl
      · obtain ⟨w', hp⟩ := ha.puts (List.cons_ne_nil _ _) .null
        have hrun : (Step.call .null).run ⟨top :: below, root⟩ = (.ok (), w') := put_iff.2 hp
        have hclosed := stack_after_closing (hp.nested hn) hp.pending?
        rw [hp.closing] at hclosed
        rw [after, hrun]
        exact hclosed
    exact fun hd => document_eq_notClosed_iff.1 hd hempty

/-- After any calls, some of them refused, one more that is refused leaves the
writer as it was exactly if it is not the end of a document in which a name
waits for its value; and exactly then all later calls answer, and the finished
document is, as if it had not been made. That end takes the document away. -/
theorem refused_leaves_iff (steps : List Step) {step : Step} {fault : DataFault} {w' : Writer}
    (h : step.call.run (start.after steps) = (.error fault, w')) :
    (w' = start.after steps ↔ ¬ Loses step (start.after steps)) ∧
      ((∀ more, w'.answers more = (start.after steps).answers more ∧
          (w'.after more).document = ((start.after steps).after more).document) ↔
        ¬ Loses step (start.after steps)) ∧
      ∀ key, step = .endDocument → (start.after steps).pending? = some key →
        fault = .badState (.fieldWithoutValue key) ∧
          w' = ⟨(start.after steps).stack.tail, (start.after steps).root⟩ := by
  have hn := nested_after steps
  generalize start.after steps = w at h hn ⊢
  have ho := hn.outcome step
  rw [h] at ho
  cases ho with
  | refused _ hl =>
    refine ⟨iff_of_true rfl hl, iff_of_true (fun _ => ⟨rfl, rfl⟩) hl, fun key hs hk => ?_⟩
    exact absurd (loses_of_some hs hk) hl
  | @lost key hs hk =>
    have hl := loses_of_some hs hk
    obtain ⟨stack, root⟩ := w
    rcases stack with _ | ⟨⟨doc, pending⟩ | items, below⟩
    · cases hk
    · cases (show pending = some key from hk)
      cases hn with
      | document hn ha =>
        obtain ⟨hopen, hclosed⟩ := closing_tells doc key hn ha
        refine ⟨iff_of_false (fun he => ?_) (not_not_intro hl),
          iff_of_false (fun hsame => ?_) (not_not_intro hl), fun other _ ho => ?_⟩
        · have hlen := congrArg (fun w => w.stack.length) he
          simp only [List.tail_cons, List.length_cons] at hlen
          omega
        · exact hclosed ((hsame _).2.trans hopen)
        · cases ho
          exact ⟨rfl, rfl⟩
    · cases hk

/-- A document is opened, a refused call changes nothing, and the end that
follows a name takes the document away: what is written from then on is written
on an empty writer. -/
theorem refused_end_of_document :
    Step.endDocument.call.run (start.after [.startDocument, .endArray, .name "a"]) =
        (.error (.badState (.fieldWithoutValue "a")), start) ∧
      ¬ ∀ more, start.answers more = (start.after [.startDocument, .endArray, .name "a"]).answers more ∧
        (start.after more).document =
          ((start.after [.startDocument, .endArray, .name "a"]).after more).document := by
  have hend : Step.endDocument.call.run (start.after [.startDocument, .endArray, .name "a"]) =
      (.error (.badState (.fieldWithoutValue "a")), start) := rfl
  have hl : Loses .endDocument (start.after [.startDocument, .endArray, .name "a"]) := ⟨rfl, rfl⟩
  exact ⟨hend, fun hsame => (refused_leaves_iff _ hend).2.1.1 hsame hl⟩

end Folio.Writer
