import Mathlib.Data.List.Infix
import Folio.Proofs.Run
import Folio.Stream.Reader

/-!
# Going into a container and out of it

A value that is due can be passed over, or gone into and left again. Whatever is
read inside, and whatever fails there, the reader stands behind the value after
that, as if it had been passed over.

Results:
* `moves_leaves`: what a call may do to the reader, whether it succeeds or fails.
* `Moves.inside`, `Moves.leaves`: a call inside a container stays in it, or leaves
  nothing of it behind.
* `skip_eq_visit`: a visit to a container passes over it.
-/
namespace Folio

/-- The value is due: taking it from the first reader leaves the second one. -/
inductive Reader.Due (v : Value) : Reader → Reader → Prop
  | current (stack : List Reader.Frame) : Due v ⟨stack, some v⟩ ⟨stack, none⟩
  | item (rest : List Value) (below : List Reader.Frame) :
    Due v ⟨.array (v :: rest) :: below, none⟩ ⟨.array rest :: below, none⟩

namespace Reader.Due

variable {v : Value} {rd rd' : Reader}

theorem run_take (h : Due v rd rd') : take.run rd = (.ok v, rd') := by
  cases h <;> rfl

theorem peekType (h : Due v rd rd') : rd.peekType? = some v.typeName := by
  cases h <;> rfl

theorem settled (h : Due v rd rd') : rd' = ⟨rd'.stack, none⟩ := by
  cases h <;> rfl

theorem run_startArray {items : List Value} (h : Due (.array items) rd rd') :
    startArray.run rd = (.ok (), ⟨.array items :: rd'.stack, none⟩) := by
  cases h <;> rfl

theorem run_startDocument {fields : List (String × Value)} (h : Due (.document ⟨fields⟩) rd rd') :
    startDocument.run rd = (.ok (), ⟨.document fields :: rd'.stack, none⟩) := by
  cases h <;> rfl

end Reader.Due

namespace Reader

/-! ## Calls -/

/-- A call on a reader. -/
inductive Step where
  | startDocument
  | endDocument
  | startArray
  | endArray
  | hasNext
  | name
  | peekType
  | value
  | skip
  | null
  | bool
  | int64
  | int32
  | double
  | text
  | bytes
  | objectId
  | dateTime
  | document

/-- The reader that a call leaves, whatever it answers. -/
def Step.leaves (r : Reader) : Step → Reader
  | startDocument => (Reader.startDocument.run r).2
  | endDocument => (Reader.endDocument.run r).2
  | startArray => (Reader.startArray.run r).2
  | endArray => (Reader.endArray.run r).2
  | hasNext | peekType => r
  | name => (Reader.name.run r).2
  | value => (take.run r).2
  | skip => (Reader.skip.run r).2
  | null => (Reader.null.run r).2
  | bool => (Reader.bool.run r).2
  | int64 => (Reader.int64.run r).2
  | int32 => (Reader.int32.run r).2
  | double => (Reader.double.run r).2
  | text => (Reader.text.run r).2
  | bytes => (Reader.bytes.run r).2
  | objectId => (Reader.objectId.run r).2
  | dateTime => (Reader.dateTime.run r).2
  | document => (Reader.document.run r).2

/-- The reader after calls, each of which may succeed or fail. -/
def after (r : Reader) : List Step → Reader
  | [] => r
  | step :: rest => after (step.leaves r) rest

theorem after_append (r : Reader) (first second : List Step) :
    r.after (first ++ second) = (r.after first).after second := by
  induction first generalizing r with
  | nil => rfl
  | cons step rest ih => exact ih (step.leaves r)

/-! ## What a call does to the reader -/

/-- What calls may do: a value is taken, gone into, or named, a container is
left, or nothing happens. -/
inductive Moves : Reader → Reader → Prop
  | stay (r : Reader) : Moves r r
  | take {v : Value} {r r' : Reader} (h : Due v r r') : Moves r r'
  | enter {v : Value} {r r' : Reader} (h : Due v r r') (frame : Frame) :
      Moves r ⟨frame :: r'.stack, none⟩
  | name {key : String} {v : Value} {rest : List (String × Value)} {below : List Frame} :
      Moves ⟨.document ((key, v) :: rest) :: below, none⟩ ⟨.document rest :: below, some v⟩
  | leaveDocument {fields : List (String × Value)} {below : List Frame} {current : Option Value} :
      Moves ⟨.document fields :: below, current⟩ ⟨below, none⟩
  | leaveArray {items : List Value} {below : List Frame} {current : Option Value} :
      Moves ⟨.array items :: below, current⟩ ⟨below, current⟩

/-- A value may have been taken, and nothing else has happened. -/
def Taken (r r' : Reader) : Prop := r' = r ∨ ∃ v, Due v r r'

theorem Taken.moves {r r' : Reader} (h : Taken r r') : Moves r r' := by
  rcases h with rfl | ⟨v, hdue⟩
  · exact .stay r'
  · exact .take hdue

theorem due_of_take {v : Value} {r r' : Reader} (h : take.run r = (.ok v, r')) : Due v r r' := by
  obtain ⟨stack, _ | w⟩ := r
  · rcases stack with _ | ⟨fields | (_ | ⟨w, rest⟩), below⟩
    case cons.array.cons =>
      cases h
      exact .item rest below
    all_goals cases h
  · cases h
    exact .current stack

theorem taken_take : Within Taken take := by
  rintro ⟨stack, _ | v⟩
  · rcases stack with _ | ⟨fields | (_ | ⟨v, rest⟩), below⟩
    case cons.array.cons => exact .inr ⟨v, .item rest below⟩
    all_goals exact .inl rfl
  · exact .inr ⟨v, .current stack⟩

/-- What is made of the value does not concern the reader. -/
theorem taken_bind {α β : Type} {x : Call α} {f : α → Call β} (hx : Within Taken x)
    (hf : ∀ a r, ((f a).run r).2 = r) : Within Taken (x >>= f) := by
  intro r
  have hfirst := hx r
  rw [run_bind]
  generalize x.run r = first at hfirst ⊢
  rcases first with ⟨fault | a, r'⟩
  · exact hfirst
  · rw [hf a r']
    exact hfirst

section

variable {α : Type} (expected : String) (view : Value → Option α)

/-- A typed read takes the value also if it is of another type. -/
theorem taken_typed : Within Taken (typed expected view) := by
  refine taken_bind taken_take fun v r => ?_
  cases view v <;> rfl

theorem due_of_typed {expected : String} {view : Value → Option α} {a : α} {r r' : Reader}
    (h : (typed expected view).run r = (.ok a, r')) : ∃ v, Due v r r' := by
  obtain ⟨v, t, htake, hview⟩ := ok_of_run_bind h
  cases hv : view v with
  | none =>
    simp only [hv] at hview
    cases hview
  | some b =>
    simp only [hv] at hview
    cases hview
    exact ⟨v, due_of_take htake⟩

theorem moves_enter (frame : α → Frame) (r : Reader) :
    Moves r ((typed expected view >>= fun a =>
      modify fun r => { r with stack := frame a :: r.stack } : Call Unit).run r).2 := by
  rcases hrun : (typed expected view).run r with ⟨fault | a, r'⟩
  · have htaken := taken_typed expected view r
    rw [hrun] at htaken
    rw [run_bind_error hrun]
    exact htaken.moves
  · obtain ⟨v, hdue⟩ := due_of_typed hrun
    rw [run_bind_ok hrun, run_modify, hdue.settled]
    exact .enter hdue (frame a)

end

theorem moves_leaves (step : Step) (r : Reader) : Moves r (step.leaves r) := by
  cases step with
  | startDocument => exact moves_enter "document" Value.document? (fun doc => .document doc.fields) r
  | startArray => exact moves_enter "array" Value.array? .array r
  | endDocument =>
    obtain ⟨_ | ⟨fields | items, below⟩, current⟩ := r
    · exact .stay _
    · exact .leaveDocument
    · exact .stay _
  | endArray =>
    obtain ⟨_ | ⟨fields | items, below⟩, current⟩ := r
    · exact .stay _
    · exact .stay _
    · exact .leaveArray
  | name =>
    obtain ⟨_ | ⟨(_ | ⟨⟨key, v⟩, rest⟩) | items, below⟩, _ | current⟩ := r
    case cons.document.cons.none => exact .name
    all_goals exact .stay _
  | hasNext | peekType => exact .stay r
  | value => exact (taken_take r).moves
  | skip => exact (taken_bind taken_take (fun _ _ => rfl) r).moves
  | int32 =>
    refine (taken_bind (taken_typed _ _) (fun n r => ?_) r).moves
    split <;> rfl
  | _ => exact (taken_typed _ _ r).moves

/-! ## Inside a container -/

/-- The reader is in a container that was entered above the given ones, and a
value is due outside of it only if it is the value of a field. -/
structure Inside (rs : List Frame) (r : Reader) : Prop where
  above : rs <:+ r.stack
  deeper : rs.length < r.stack.length
  pending : r.current ≠ none → ∃ fields below, r.stack = .document fields :: below

variable {rs : List Frame} {r r' : Reader}

theorem inside_enter (frame : Frame) : Inside rs ⟨frame :: rs, none⟩ :=
  ⟨List.suffix_cons frame rs, Nat.lt_succ_self _, fun h => absurd rfl h⟩

/-- What lies below is not touched until the container is left. -/
theorem suffix_of_deeper {frame : Frame} {below : List Frame} (h : rs <:+ frame :: below)
    (hd : rs.length < (frame :: below).length) : rs <:+ below := by
  rcases List.suffix_cons_iff.1 h with rfl | h
  · exact absurd hd (Nat.lt_irrefl _)
  · exact h

theorem Due.inside {v : Value} (h : Due v r r') (hi : Inside rs r) : Inside rs r' := by
  cases h with
  | current => exact ⟨hi.above, hi.deeper, fun hc => absurd rfl hc⟩
  | item rest below =>
    have hbelow := suffix_of_deeper hi.above hi.deeper
    exact ⟨hbelow.trans (List.suffix_cons _ _), hi.deeper, fun hc => absurd rfl hc⟩

/-- A call in the container stays in it, if the container is not left. -/
theorem Moves.inside (h : Moves r r') (hi : Inside rs r) (hd : rs.length < r'.stack.length) :
    Inside rs r' := by
  cases h with
  | stay => exact hi
  | take hdue => exact hdue.inside hi
  | enter hdue frame =>
    exact ⟨(hdue.inside hi).above.trans (List.suffix_cons _ _), hd, fun hc => absurd rfl hc⟩
  | name =>
    have hbelow := suffix_of_deeper hi.above hi.deeper
    exact ⟨hbelow.trans (List.suffix_cons _ _), hd, fun _ => ⟨_, _, rfl⟩⟩
  | leaveDocument =>
    exact ⟨suffix_of_deeper hi.above hi.deeper, hd, fun hc => absurd rfl hc⟩
  | leaveArray =>
    -- in an array no value is due beside its elements
    refine ⟨suffix_of_deeper hi.above hi.deeper, hd, fun hc => ?_⟩
    obtain ⟨fields, below, heq⟩ := hi.pending hc
    cases heq

/-- A call that leaves the container leaves nothing of it behind. -/
theorem Moves.outside (h : Moves r r') (hi : Inside rs r) (hd : r'.stack.length ≤ rs.length) :
    r' = ⟨rs, none⟩ := by
  have hdeeper := hi.deeper
  cases h with
  | stay => omega
  | take hdue =>
    have := (hdue.inside hi).deeper
    omega
  | enter hdue frame =>
    have := (hdue.inside hi).deeper
    rw [List.length_cons] at hd
    omega
  | name =>
    simp only [List.length_cons] at hd hdeeper
    omega
  | leaveDocument =>
    rw [(suffix_of_deeper hi.above hi.deeper).eq_of_length_le hd]
  | @leaveArray items below current =>
    have hnone : current = none := by
      by_contra hc
      obtain ⟨fields, below, heq⟩ := hi.pending hc
      cases heq
    rw [hnone, (suffix_of_deeper hi.above hi.deeper).eq_of_length_le hd]

theorem Inside.after (h : Inside rs r) {steps : List Step}
    (hd : ∀ front, front <+: steps → rs.length < (r.after front).stack.length) :
    Inside rs (r.after steps) := by
  induction steps generalizing r with
  | nil => exact h
  | cons step rest ih =>
    have hfirst := hd [step] (List.cons_prefix_cons.2 ⟨rfl, List.nil_prefix⟩)
    exact ih ((moves_leaves step r).inside h hfirst) fun front hf =>
      hd (step :: front) (List.cons_prefix_cons.2 ⟨rfl, hf⟩)

/-- The first call goes into the value that is due, the next ones stay in it,
whatever they do there, and the last one leaves it. -/
structure Visits (r : Reader) (enter : Step) (inside : List Step) (leave : Step) : Prop where
  stays : ∀ front, front <+: inside → r.stack.length < (r.after (enter :: front)).stack.length
  leaves : (r.after (enter :: (inside ++ [leave]))).stack.length ≤ r.stack.length

/-- A call that goes into a container has taken a value. -/
theorem Moves.due (h : Moves r r') (hd : r.stack.length < r'.stack.length) :
    ∃ v rs frame, Due v r ⟨rs, none⟩ ∧ rs.length = r.stack.length ∧ r' = ⟨frame :: rs, none⟩ := by
  cases h with
  | stay => exact absurd hd (Nat.lt_irrefl _)
  | take hdue => cases hdue <;> exact absurd hd (Nat.lt_irrefl _)
  | @enter v _ r' hdue frame =>
    refine ⟨v, r'.stack, frame, hdue.settled ▸ hdue, ?_, rfl⟩
    cases hdue <;> rfl
  | name => exact absurd hd (Nat.lt_irrefl _)
  | leaveDocument | leaveArray =>
    simp only [List.length_cons] at hd
    omega

/-- Whatever is read of a container, left unread or read in part, and whatever
fails inside: the reader that comes out of it is the one that passes over it. -/
theorem skip_eq_visit {enter leave : Step} {inside : List Step} (h : Visits r enter inside leave) :
    Reader.skip.run r = (.ok (), r.after (enter :: (inside ++ [leave]))) := by
  obtain ⟨v, rs, frame, hdue, hlen, hentered⟩ := (moves_leaves enter r).due (h.stays [] List.nil_prefix)
  have hinside : Inside rs ((enter.leaves r).after inside) := by
    refine Inside.after (hentered ▸ inside_enter frame) fun front hf => ?_
    exact hlen ▸ h.stays front hf
  have hout : r.after (enter :: (inside ++ [leave])) =
      leave.leaves ((enter.leaves r).after inside) := after_append (enter.leaves r) inside [leave]
  have hleft := h.leaves
  rw [hout, ← hlen] at hleft
  rw [hout, (moves_leaves leave _).outside hinside hleft]
  exact run_bind_ok hdue.run_take

/-- A reader at the first of two orders. -/
def atOrder : Reader :=
  (ofDocument ⟨[("first", .document ⟨[("parts", .array [.bool true, .text "x", .null]),
    ("open", .bool true)]⟩), ("second", .null)]⟩).after [.startDocument, .name]

/-- The parts of an order are read in part, and calls fail between them; then
the value of a field is due. -/
def browsing : List Step :=
  [.name, .startArray, .bool, .endDocument, .name, .bool, .endArray, .hasNext, .name]

/-- The order is left with a value due and parts unread, and the reader has passed
over it. -/
theorem skip_eq_visit_order :
    Reader.skip.run atOrder =
      (.ok (), atOrder.after (.startDocument :: (browsing ++ [.endDocument]))) := by
  have hstays : ∀ front ∈ browsing.inits,
      atOrder.stack.length < (atOrder.after (.startDocument :: front)).stack.length := by
    decide +kernel
  refine skip_eq_visit ⟨fun front hf => hstays front ((List.mem_inits front browsing).2 hf), ?_⟩
  decide +kernel

end Reader
end Folio
