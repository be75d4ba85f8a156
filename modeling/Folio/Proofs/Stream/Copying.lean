import Folio.Proofs.Stream.Calls
import Folio.Proofs.Value.WellNamed
import Folio.Stream.Reader

/-!
# Copying a document from a reader to a writer

A copier goes through a document with a reader and makes the mirrored call of a
writer for each call of the reader. At every value it may go into the container
or hand the value over whole.

Results:
* `Lockstep`: of what has been read and written so far, the whole document can
  be put together.
* `lockstep_step`: one step of the copier succeeds, keeps this, and leaves less
  to do.
* `document_of_copy`: whatever is chosen on the way, the copy succeeds and is
  the document.
-/
namespace Folio

/-! ## The copier -/

/-- A kind of container. -/
inductive Copier.Container where
  | document
  | array

/-- The reader and the writer, and the containers the copier is in, the
innermost first. -/
structure Copier where
  reader : Reader
  writer : Writer
  within : List Copier.Container

namespace Copier

/-- A part of the copy. -/
abbrev Copying (α : Type) := ExceptT DataFault (StateM Copier) α

/-- A copier before the document. -/
def start (doc : Document) : Copier := ⟨.ofDocument doc, .start, []⟩

/-- Makes a call on the reader. -/
def reading {α : Type} (call : Reader.Call α) : Copying α := .mk fun s =>
  ((call.run s.reader).1, { s with reader := (call.run s.reader).2 })

/-- Makes a call on the writer. -/
def writing (call : Writer.Call) : Copying Unit := .mk fun s =>
  ((call.run s.writer).1, { s with writer := (call.run s.writer).2 })

/-- Makes a call on the reader and the mirrored one on the writer, which go into
a container or come out of one. -/
def mirrored (read : Reader.Call Unit) (write : Writer.Call)
    (move : List Container → List Container) : Copying Unit := do
  reading read
  writing write
  modify fun s => { s with within := move s.within }

/-- Goes into the next value. -/
def enter : Container → Copying Unit
  | .document => mirrored Reader.startDocument Writer.startDocument (.document :: ·)
  | .array => mirrored Reader.startArray Writer.startArray (.array :: ·)

/-- Comes out of the innermost container. -/
def leave : Container → Copying Unit
  | .document => mirrored Reader.endDocument Writer.endDocument List.tail
  | .array => mirrored Reader.endArray Writer.endArray List.tail

/-- Hands over the next value whole. -/
def transfer : Copying Unit := do
  let v ← reading Reader.take
  writing (Writer.put v)

/-- Copies the next value or, if it is a container and `descend` says so, the
start of it. -/
def value (descend : Bool) : Copying Unit := do
  match (← get).reader.peekType?, descend with
  | some "document", true => enter .document
  | some "array", true => enter .array
  | _, _ => transfer

/-- One step of the copy: the next value, with its name, of the container the
copier is in, or the end of that container. Outside of all containers it is the
document, and when that has been copied nothing is left. -/
def step (descend : Bool) : Copying Unit := do
  let s ← get
  match s.within with
  | .document :: _ =>
    if s.reader.hasNext then
      let key ← reading Reader.name
      writing (Writer.name key)
      value descend
    else leave .document
  | .array :: _ => if s.reader.hasNext then value descend else leave .array
  | [] => if s.reader.peekType?.isSome then value descend

/-- The copy, with a choice for each step. -/
def copy (choices : List Bool) : Copying Unit := choices.forM step

/-- The copier is in no container, and nothing is left to read. -/
def Finished (s : Copier) : Prop := s.within = [] ∧ s.reader.peek? = none

/-! ## What the calls do -/

theorem run_reading {α : Type} {call : Reader.Call α} {a : α} {s : Copier} {r : Reader}
    (h : call.run s.reader = (.ok a, r)) :
    (reading call).run s = (.ok a, { s with reader := r }) := by
  show ((call.run s.reader).1, _) = _
  rw [h]

theorem run_writing {call : Writer.Call} {s : Copier} {w : Writer}
    (h : call.run s.writer = (.ok (), w)) :
    (writing call).run s = (.ok (), { s with writer := w }) := by
  show ((call.run s.writer).1, _) = _
  rw [h]

theorem run_mirrored {read : Reader.Call Unit} {write : Writer.Call} {r r' : Reader} {w w' : Writer}
    (hr : read.run r = (.ok (), r')) (hw : write.run w = (.ok (), w'))
    (move : List Container → List Container) (cs : List Container) :
    (mirrored read write move).run ⟨r, w, cs⟩ = (.ok (), ⟨r', w', move cs⟩) := by
  have hread : (reading read).run ⟨r, w, cs⟩ = (.ok (), ⟨r', w, cs⟩) := run_reading hr
  have hwrite : (writing write).run ⟨r', w, cs⟩ = (.ok (), ⟨r', w', cs⟩) := run_writing hw
  exact (run_bind_ok hread).trans ((run_bind_ok hwrite).trans (run_modify _ _))

/-- The value is read next, and these containers are open behind it. -/
inductive Due (v : Value) : List Reader.Frame → Reader → Prop
  | current {rs : List Reader.Frame} : Due v rs ⟨rs, some v⟩
  | item {rest : List Value} {rs : List Reader.Frame} :
      Due v (.array rest :: rs) ⟨.array (v :: rest) :: rs, none⟩

variable {v : Value} {rs : List Reader.Frame} {r : Reader}

theorem Due.peek (h : Due v rs r) : r.peek? = some v := by
  cases h <;> rfl

theorem Due.take (h : Due v rs r) : Reader.take.run r = (.ok v, ⟨rs, none⟩) := by
  cases h <;> rfl

theorem Due.startDocument {doc : Document} (h : Due (.document doc) rs r) :
    Reader.startDocument.run r = (.ok (), ⟨.document doc.fields :: rs, none⟩) := by
  cases h <;> rfl

theorem Due.startArray {items : List Value} (h : Due (.array items) rs r) :
    Reader.startArray.run r = (.ok (), ⟨.array items :: rs, none⟩) := by
  cases h <;> rfl

/-! ## How much is left -/

mutual

/-- The steps that copy a value if every container is gone into. -/
def cost : Value → Nat
  | .array items => costItems items + 2
  | .document ⟨fields⟩ => costFields fields + 2
  | _ => 1

/-- The steps that copy elements. -/
def costItems : List Value → Nat
  | [] => 0
  | v :: rest => cost v + costItems rest

/-- The steps that copy fields. -/
def costFields : List (String × Value) → Nat
  | [] => 0
  | (_, v) :: rest => cost v + costFields rest

end

/-- The steps that copy the rest of a container and leave it. -/
def frameCost : Reader.Frame → Nat
  | .document fields => costFields fields + 1
  | .array items => costItems items + 1

/-- The steps that copy what is left to read, at most. -/
def left (r : Reader) : Nat :=
  (r.current.map cost).getD 0 + r.stack.foldr (frameCost · + ·) 0

theorem cost_pos (v : Value) : 0 < cost v := by
  cases v with
  | document doc => cases doc; exact Nat.succ_pos _
  | _ => exact Nat.succ_pos _

theorem Due.left (h : Due v rs r) : left r = cost v + left ⟨rs, none⟩ := by
  cases h with
  | current => simp [Copier.left]
  | item =>
    simp only [Copier.left, frameCost, costItems, List.foldr_cons, Option.map_none,
      Option.getD_none]
    omega

/-! ## Reader and writer together -/

/-- The value, put where the copier is, completes the document: what has been
written of each open container, this value and what has not been read of the
container are the container, and so on outwards. -/
inductive Within (whole : Document) :
    List Reader.Frame → List Writer.Frame → List Container → Value → Prop
  | top : Within whole [] [] [] (.document whole)
  | document {rs : List Reader.Frame} {ws : List Writer.Frame} {cs : List Container}
      {before : Document} {key : String} {v : Value} {rest : List (String × Value)}
      (h : Within whole rs ws cs (.document ⟨before.fields ++ (key, v) :: rest⟩)) :
      Within whole (.document rest :: rs) (.document before (some key) :: ws) (.document :: cs) v
  | array {rs : List Reader.Frame} {ws : List Writer.Frame} {cs : List Container}
      {before : List Value} {v : Value} {rest : List Value}
      (h : Within whole rs ws cs (.array (before ++ v :: rest))) :
      Within whole (.array rest :: rs) (.array before :: ws) (.array :: cs) v

/-- The reader and the writer stand at the same place of the document: before
it, in a container of it, or behind it. -/
inductive Lockstep (whole : Document) : Copier → Prop
  | start : Lockstep whole (start whole)
  | document {rs : List Reader.Frame} {ws : List Writer.Frame} {cs : List Container}
      {before : Document} {rest : List (String × Value)}
      (h : Within whole rs ws cs (.document ⟨before.fields ++ rest⟩)) :
      Lockstep whole ⟨⟨.document rest :: rs, none⟩, ⟨.document before none :: ws, none⟩,
        .document :: cs⟩
  | array {rs : List Reader.Frame} {ws : List Writer.Frame} {cs : List Container}
      {before rest : List Value} (h : Within whole rs ws cs (.array (before ++ rest))) :
      Lockstep whole ⟨⟨.array rest :: rs, none⟩, ⟨.array before :: ws, none⟩, .array :: cs⟩
  | finished : Lockstep whole ⟨⟨[], none⟩, ⟨[], some whole⟩, []⟩

variable {whole : Document} {ws : List Writer.Frame} {cs : List Container}

theorem Within.distinct (hw : whole.WellNamed) (h : Within whole rs ws cs v) :
    v.everywhere Value.distinct = true := by
  induction h with
  | top => exact hw
  | document _ ih =>
    exact (Value.everywhere_document.1 ih).2 _ (List.mem_append_right _ List.mem_cons_self)
  | array _ ih =>
    exact (Value.everywhere_array.1 ih).2 _ (List.mem_append_right _ List.mem_cons_self)

theorem Within.awaits (h : Within whole rs ws cs v) : Writer.Awaits ⟨ws, none⟩ := by
  cases h with
  | top => rfl
  | document | array => trivial

/-- A value that has been read and written leaves the two together. Where it is
a field its name is new, because the document has each name once. -/
theorem Within.filled (hw : whole.WellNamed) (h : Within whole rs ws cs v) :
    ∃ w', Writer.Puts v ⟨ws, none⟩ w' ∧ Lockstep whole ⟨⟨rs, none⟩, w', cs⟩ := by
  cases h with
  | top => exact ⟨_, .root rfl, .finished⟩
  | @document rs ws cs before key _ rest h =>
    have hkeys : ((before.fields ++ (key, v) :: rest).map (·.1)).Nodup :=
      (Document.wellNamed_iff.1 (h.distinct hw)).1
    have hnew : key ∉ before.fields.map (·.1) := by
      rw [List.map_append] at hkeys
      exact fun hm => (List.nodup_append.1 hkeys).2.2 key hm key List.mem_cons_self rfl
    refine ⟨_, .field, .document ?_⟩
    rw [Document.insert, Document.put_of_not_mem hnew, List.append_assoc]
    exact h
  | array h =>
    refine ⟨_, .item, .array ?_⟩
    rw [List.append_assoc]
    exact h

/-- The part of the copy succeeds, the two are together, and less is left. -/
def Advances (whole : Document) (s : Copier) (part : Copying Unit) : Prop :=
  ∃ s', part.run s = (.ok (), s') ∧ Lockstep whole s' ∧ left s'.reader < left s.reader

theorem advances_transfer (hw : whole.WellNamed) (hd : Due v rs r) (h : Within whole rs ws cs v) :
    Advances whole ⟨r, ⟨ws, none⟩, cs⟩ transfer := by
  obtain ⟨w', hp, hl⟩ := h.filled hw
  refine ⟨⟨⟨rs, none⟩, w', cs⟩, ?_, hl, ?_⟩
  · exact (run_bind_ok (run_reading hd.take)).trans (run_writing (Writer.put_iff.2 hp))
  · have hpos := cost_pos v
    have hleft := hd.left
    show left ⟨rs, none⟩ < left r
    omega

theorem advances_enter_document {doc : Document} (hd : Due (.document doc) rs r)
    (h : Within whole rs ws cs (.document doc)) :
    Advances whole ⟨r, ⟨ws, none⟩, cs⟩ (enter .document) := by
  obtain ⟨fields⟩ := doc
  have hwrite := Writer.run_of_effect (.startDocument h.awaits)
  have hl : Lockstep whole ⟨⟨.document fields :: rs, none⟩,
      ⟨.document .empty none :: ws, none⟩, .document :: cs⟩ := Lockstep.document h
  refine ⟨_, run_mirrored hd.startDocument hwrite _ cs, hl, ?_⟩
  have hleft := hd.left
  simp only [left, cost, frameCost, List.foldr_cons] at hleft ⊢
  omega

theorem advances_enter_array {items : List Value} (hd : Due (.array items) rs r)
    (h : Within whole rs ws cs (.array items)) :
    Advances whole ⟨r, ⟨ws, none⟩, cs⟩ (enter .array) := by
  have hne : ws ≠ [] := by
    rintro rfl
    cases h
  have hwrite := Writer.run_of_effect (.startArray h.awaits hne)
  have hl : Lockstep whole ⟨⟨.array items :: rs, none⟩, ⟨.array [] :: ws, none⟩, .array :: cs⟩ :=
    Lockstep.array h
  refine ⟨_, run_mirrored hd.startArray hwrite _ cs, hl, ?_⟩
  have hleft := hd.left
  simp only [left, cost, frameCost, List.foldr_cons] at hleft ⊢
  omega

/-- What is done with a value that is due. -/
theorem run_value {s : Copier} (h : s.reader.peek? = some v) (descend : Bool) :
    (value descend).run s = (match v, descend with
      | .document _, true => enter .document
      | .array _, true => enter .array
      | _, _ => transfer).run s := by
  rw [value, run_bind_ok (run_get s), Reader.peekType?, h]
  cases v <;> cases descend <;> rfl

theorem advances_value (hw : whole.WellNamed) (hd : Due v rs r) (h : Within whole rs ws cs v)
    (descend : Bool) : Advances whole ⟨r, ⟨ws, none⟩, cs⟩ (value descend) := by
  unfold Advances
  rw [run_value hd.peek]
  split
  · exact advances_enter_document hd h
  · exact advances_enter_array hd h
  · exact advances_transfer hw hd h

theorem advances_leave_document (hw : whole.WellNamed) {doc : Document}
    (h : Within whole rs ws cs (.document doc)) :
    Advances whole ⟨⟨.document [] :: rs, none⟩, ⟨.document doc none :: ws, none⟩, .document :: cs⟩
      (leave .document) := by
  obtain ⟨w', hp, hl⟩ := h.filled hw
  have hread : Reader.endDocument.run ⟨.document [] :: rs, none⟩ = (.ok (), ⟨rs, none⟩) := rfl
  refine ⟨_, run_mirrored hread (Writer.run_of_effect (.endDocument hp)) _ _, hl, ?_⟩
  simp only [left, frameCost, List.foldr_cons]
  omega

theorem advances_leave_array (hw : whole.WellNamed) {items : List Value}
    (h : Within whole rs ws cs (.array items)) :
    Advances whole ⟨⟨.array [] :: rs, none⟩, ⟨.array items :: ws, none⟩, .array :: cs⟩
      (leave .array) := by
  obtain ⟨w', hp, hl⟩ := h.filled hw
  have hread : Reader.endArray.run ⟨.array [] :: rs, none⟩ = (.ok (), ⟨rs, none⟩) := rfl
  refine ⟨_, run_mirrored hread (Writer.run_of_effect (.endArray hp)) _ _, hl, ?_⟩
  simp only [left, frameCost, List.foldr_cons]
  omega

/-- A field is named on both sides before its value is copied. -/
theorem advances_field (hw : whole.WellNamed) {before : Document} {key : String}
    {rest : List (String × Value)}
    (h : Within whole rs ws cs (.document ⟨before.fields ++ (key, v) :: rest⟩)) (descend : Bool) :
    Advances whole ⟨⟨.document ((key, v) :: rest) :: rs, none⟩, ⟨.document before none :: ws, none⟩,
      .document :: cs⟩ (step descend) := by
  obtain ⟨s', hr, hl, hlt⟩ := advances_value hw .current h.document descend
  have hread : Reader.name.run ⟨.document ((key, v) :: rest) :: rs, none⟩ =
    (.ok key, ⟨.document rest :: rs, some v⟩) := rfl
  have hwrite : (Writer.name key).run ⟨.document before none :: ws, none⟩ =
    (.ok (), ⟨.document before (some key) :: ws, none⟩) := Writer.run_of_effect .name
  refine ⟨s', ?_, hl, ?_⟩
  · rw [step, run_bind_ok (run_get _)]
    exact (run_bind_ok (run_reading hread)).trans ((run_bind_ok (run_writing hwrite)).trans hr)
  · simp only [left, frameCost, costFields, List.foldr_cons, Option.map_some,
      Option.map_none, Option.getD_some, Option.getD_none] at hlt ⊢
    omega

/-- A step succeeds and keeps the two together, and less is left after it,
until nothing is. -/
theorem lockstep_step (hw : whole.WellNamed) {s : Copier} (h : Lockstep whole s) (descend : Bool) :
    ∃ s', (step descend).run s = (.ok (), s') ∧ Lockstep whole s' ∧
      left s'.reader ≤ left s.reader - 1 := by
  have hadvance : Advances whole s (step descend) ∨ s = ⟨⟨[], none⟩, ⟨[], some whole⟩, []⟩ := by
    cases h with
    | start => exact .inl (advances_value hw .current .top descend)
    | @document rs ws cs before rest h =>
      left
      rcases rest with _ | ⟨⟨key, v⟩, rest⟩
      · rw [List.append_nil] at h
        obtain ⟨fields⟩ := before
        exact advances_leave_document hw h
      · exact advances_field hw h descend
    | @array rs ws cs before rest h =>
      left
      rcases rest with _ | ⟨v, rest⟩
      · rw [List.append_nil] at h
        exact advances_leave_array hw h
      · exact advances_value hw .item h.array descend
    | finished => exact .inr rfl
  rcases hadvance with ⟨s', hr, hl, hlt⟩ | rfl
  · exact ⟨s', hr, hl, Nat.le_sub_one_of_lt hlt⟩
  · exact ⟨_, rfl, .finished, Nat.le_refl 0⟩

theorem lockstep_copy (hw : whole.WellNamed) {s : Copier} (h : Lockstep whole s)
    (choices : List Bool) :
    ∃ s', (copy choices).run s = (.ok (), s') ∧ Lockstep whole s' ∧
      left s'.reader ≤ left s.reader - choices.length := by
  induction choices generalizing s with
  | nil => exact ⟨s, rfl, h, Nat.le_refl _⟩
  | cons descend rest ih =>
    obtain ⟨m, hm, hlm, hm_left⟩ := lockstep_step hw h descend
    obtain ⟨s', hr, hl, hs_left⟩ := ih hlm
    refine ⟨s', (run_bind_ok hm).trans hr, hl, ?_⟩
    rw [List.length_cons]
    omega

theorem left_start (doc : Document) : left (start doc).reader = cost (.document doc) := rfl

theorem Lockstep.finished_of_left {s : Copier} (h : Lockstep whole s) (hz : left s.reader = 0) :
    s.Finished := by
  cases h with
  | start => exact absurd hz (Nat.ne_of_gt (cost_pos (.document whole)))
  | document | array =>
    simp only [left, frameCost, List.foldr_cons] at hz
    omega
  | finished => exact ⟨rfl, rfl⟩

/-- Behind the document the writer has it. -/
theorem Lockstep.document_of_finished {s : Copier} (h : Lockstep whole s) (hf : s.Finished) :
    s.writer.document = .ok whole := by
  cases h with
  | start => cases hf.2
  | document | array => cases hf.1
  | finished => rfl

/-- Whatever the copier goes into and whatever it hands over whole, no call
fails; when it is finished the writer has the document; and it is finished after
enough steps. -/
theorem document_of_copy {doc : Document} (h : doc.WellNamed) (choices : List Bool) :
    ∃ s, (copy choices).run (start doc) = (.ok (), s) ∧
      (s.Finished → s.writer.document = .ok doc) ∧
      (cost (.document doc) ≤ choices.length → s.Finished) := by
  obtain ⟨s, hr, hl, hleft⟩ := lockstep_copy h .start choices
  refine ⟨s, hr, hl.document_of_finished, fun hlen => hl.finished_of_left ?_⟩
  rw [left_start] at hleft
  omega

/-- An array is gone into, the document in it is handed over whole, and an
empty document is gone into. -/
theorem document_of_copy_nested :
    let doc : Document :=
      ⟨[("a", .array [.document ⟨[("b", .null)]⟩, .null]), ("c", .document ⟨[]⟩)]⟩
    doc.WellNamed ∧
      ∃ s, (copy [true, true, false, true, true, true, true, true, true, true]).run (start doc) =
        (.ok (), s) ∧ s.writer.document = .ok doc := by
  intro doc
  have hn : doc.WellNamed := rfl
  obtain ⟨s, hr, hdoc, hend⟩ := document_of_copy hn
    [true, true, false, true, true, true, true, true, true, true]
  exact ⟨hn, s, hr, hdoc (hend (by decide))⟩

end Copier
end Folio
