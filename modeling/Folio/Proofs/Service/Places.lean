import Folio.Proofs.Service.Labelling

/-!
# Names, place by place

The stage for names goes through the characters of a name in order. Told by places, it
asks of each one whether it is the first or the last of the name, and it remembers
whether the one before was whitespace. An empty name has no last place, so it must not
come to that question; it does not, as a name of nothing but whitespace is refused
before.

Results:
* `stray_eq_strayAt`: the stray whitespace of a name, told by places.
* `messages?_eq`: what is reported, and that the last place is only asked for where there
  is one.
* `name_reported`: a new name has errors reported unless it is allowed, and no other has.
-/
namespace Folio

namespace NameBounds

/-! ## The places of a name -/

/-- The last of so many places; of none there is no last. -/
def lastPlace? : Nat → Option Nat
  | 0 => none
  | n + 1 => some n

/-- What is wrong with a character at a place, and whether it is whitespace that the next
one must not follow. -/
def strayChar (last place : Nat) (after : Bool) (c : Char) : List NameFault × Bool :=
  if !Text.isBlank c then ([], false)
  else if place = 0 then ([.startsBlank], after)
  else if place = last then ([.endsBlank], after)
  else if after then ([.doubleBlank], after)
  else ([], true)

/-- One place further. -/
def strayStep (last : Nat) (state : List NameFault × Bool) (next : Char × Nat) :
    List NameFault × Bool :=
  let (found, after) := strayChar last next.2 state.2 next.1
  (state.1 ++ found, after)

/-- The stray whitespace of a name with a last place, one place after another. -/
def strayAt (last : Nat) (name : List Char) : List NameFault :=
  (name.zipIdx.foldl (strayStep last) ([], false)).1

/-- The message for a name that is not set. -/
def unset : String := "name is not set"

/-- What is reported of a name, by places; nothing if the last place is asked for and
there is none. -/
def messages? (b : NameBounds) : Option String → Option (List String)
  | none => some [unset]
  | some name =>
    if isBlankText (some name) then some [unset]
    else do
      let last ← lastPlace? name.length
      return (strayAt last name.toList ++ b.lengthFaults name.length).map NameFault.message

/-- Behind the first place, the last one is where the name ends. -/
theorem foldl_strayStep {last place : Nat} {name : List Char} (hplace : place ≠ 0)
    (hlast : name = [] ∨ last + 1 = place + name.length) (found : List NameFault) (after : Bool) :
    ((name.zipIdx place).foldl (strayStep last) (found, after)).1 =
      found ++ strayTail after name := by
  induction name generalizing place found after with
  | nil => simp [strayTail]
  | cons c rest ih =>
    have hend : last = place + rest.length := by
      rcases hlast with h | h
      · cases h
      · rw [List.length_cons] at h
        omega
    have hnext : rest = [] ∨ last + 1 = place + 1 + rest.length := .inr (by omega)
    have hplace' : place + 1 ≠ 0 := Nat.succ_ne_zero place
    rw [List.zipIdx_cons, List.foldl_cons, strayTail, strayStep, strayChar]
    cases hc : Text.isBlank c with
    | false =>
      simp only [Bool.not_false, if_true]
      rw [ih hplace' hnext, List.append_nil]
    | true =>
      simp only [Bool.not_true, Bool.false_eq_true, if_false, hplace]
      cases rest with
      | nil =>
        rw [if_pos (by simpa using hend.symm)]
        rfl
      | cons d more =>
        have hinner : place ≠ last := by
          rw [hend, List.length_cons]
          omega
        simp only [hinner, if_false, List.isEmpty_cons, Bool.false_eq_true]
        cases after with
        | true =>
          simp only [if_true]
          rw [ih hplace' hnext, List.append_assoc]
          rfl
        | false =>
          simp only [Bool.false_eq_true, if_false]
          rw [ih hplace' hnext, List.append_nil]

/-- The stray whitespace of a name is told by its places. -/
theorem stray_eq_strayAt {last : Nat} {name : List Char} (h : lastPlace? name.length = some last) :
    stray name = strayAt last name := by
  cases name with
  | nil => cases h
  | cons c rest =>
    cases h
    have hlast : rest = [] ∨ rest.length + 1 = 1 + rest.length := .inr (Nat.add_comm _ _)
    rw [stray, strayAt, List.zipIdx_cons, List.foldl_cons, strayStep, strayChar]
    cases hc : Text.isBlank c with
    | false =>
      simp only [Bool.not_false, if_true, Bool.false_eq_true, if_false]
      rw [foldl_strayStep Nat.one_ne_zero hlast]
      rfl
    | true =>
      simp only [Bool.not_true, Bool.false_eq_true, if_false, if_true]
      rw [foldl_strayStep Nat.one_ne_zero hlast]
      rfl

theorem exists_lastPlace {name : String} (h : isBlankText (some name) = false) :
    ∃ last, lastPlace? name.length = some last := by
  cases hlength : name.length with
  | zero =>
    have hempty : name = "" := by
      rw [← String.toList_eq_nil_iff, ← List.length_eq_zero_iff, String.length_toList, hlength]
    rw [hempty] at h
    cases h
  | succ n => exact ⟨n, rfl⟩

/-- What is reported of a name, told without places. -/
def messages (b : NameBounds) : Option String → List String
  | none => [unset]
  | some name =>
    if isBlankText (some name) then [unset] else (b.faults name.toList).map NameFault.message

/-- Whatever the name, its last place is only asked for where there is one. -/
theorem messages?_eq (b : NameBounds) (name : Option String) :
    b.messages? name = some (b.messages name) := by
  cases name with
  | none => rfl
  | some name =>
    rw [messages?, messages]
    split
    · rfl
    · next hvisible =>
      obtain ⟨last, hlast⟩ := exists_lastPlace (eq_false_of_ne_true hvisible)
      rw [hlast, faults, stray_eq_strayAt (by rw [String.length_toList]; exact hlast),
        String.length_toList]
      rfl

/-- Nothing is reported of a name that is set and allowed, and of no other. -/
theorem messages_eq_nil_iff {b : NameBounds} {name : Option String} :
    b.messages name = [] ↔ ∃ n ∈ name, b.Admits n := by
  cases name with
  | none => simp [messages]
  | some name =>
    simp only [messages, Option.mem_def, Option.some.injEq, exists_eq_left', admits_iff]
    split
    · next hblank => simp [hblank]
    · next hvisible => simp [eq_false_of_ne_true hvisible]

end NameBounds

/-! ## What is reported -/

namespace Report

/-- The report with several errors of a property. -/
def addFields (r : Report) (name : String) (messages : List String) : Report :=
  messages.foldl (fun r message => r.addField name message) r

theorem field_addFields (r : Report) (name : String) (messages : List String) :
    (r.addFields name messages).field name = r.field name ++ messages := by
  induction messages generalizing r with
  | nil => exact (List.append_nil _).symm
  | cons message rest ih =>
    have hfield : (r.addField name message).field name = r.field name ++ [message] := by
      simp [field, addField]
    rw [addFields, List.foldl_cons]
    refine (ih (r.addField name message)).trans ?_
    rw [hfield, List.append_assoc, List.singleton_append]

/-- The report stays as it is only if nothing is reported. -/
theorem addFields_eq_self_iff {r : Report} {name : String} {messages : List String} :
    r.addFields name messages = r ↔ messages = [] := by
  refine ⟨fun h => ?_, fun h => by rw [h]; rfl⟩
  have hfield := field_addFields r name messages
  rw [h] at hfield
  exact List.self_eq_append_right.1 hfield

end Report

namespace Validation

variable {E L : Type} [Record E]

omit [Record E] in
theorem run_forM_addField (name : String) (faults : List NameFault) (before : Subject E L) :
    (faults.forM fun f => Subject.addField name f.message : SubjectM E L Unit).run before =
      (.ok (), { before with
        report := before.report.addFields name (faults.map NameFault.message) }) := by
  induction faults generalizing before with
  | nil => rfl
  | cons f rest ih => exact ih { before with report := before.report.addField name f.message }

/-- A name that is new, or is not that of the stored version, is looked at: of it
everything that is wrong is reported, and nothing else is done. -/
theorem run_name_changed (bounds : NameBounds) {stored : Option E} {before : Subject E L}
    (h : ∀ o ∈ stored, textOf o nameProperty ≠ textOf before.record nameProperty) :
    ((name bounds : Validation E L).check stored).run before =
      (.ok (), { before with
        report := before.report.addFields nameProperty
          (bounds.messages (textOf before.record nameProperty)) }) := by
  have hchanged : (stored.any fun o =>
      textOf o nameProperty = textOf before.record nameProperty) = false := by
    cases stored with
    | none => rfl
    | some o => exact decide_eq_false (h o rfl)
  unfold name
  rw [run_bind_ok (run_getThe before)]
  dsimp only
  rw [hchanged, if_neg Bool.false_ne_true]
  cases textOf before.record nameProperty with
  | none => rfl
  | some n =>
    dsimp only [NameBounds.messages]
    split
    · rfl
    · exact run_forM_addField nameProperty _ before

/-- With bounds that are taken, a name that is new, or is not that of the stored version,
is gone through place by place, without asking an empty one for its last place. What is
reported then is nothing if and only if the name is set and not empty, has a length
within the bounds, neither begins nor ends with whitespace and has no two whitespace
characters side by side. -/
theorem name_reported {least most : Option Nat} {bounds : NameBounds}
    (h : NameBounds.of? least most = .ok bounds) {stored : Option E} {before : Subject E L}
    (hchanged : ∀ o ∈ stored, textOf o nameProperty ≠ textOf before.record nameProperty) :
    ∃ messages report, bounds.messages? (textOf before.record nameProperty) = some messages ∧
      report = before.report.addFields nameProperty messages ∧
      ((name bounds : Validation E L).check stored).run before =
        (.ok (), { before with report := report }) ∧
      (report = before.report ↔
        ∃ n ∈ textOf before.record nameProperty, NameBounds.Admits ⟨least, most⟩ n) := by
  cases NameBounds.eq_of_bounds h
  refine ⟨_, _, NameBounds.messages?_eq _ _, rfl, run_name_changed _ hchanged, ?_⟩
  rw [Report.addFields_eq_self_iff]
  exact NameBounds.messages_eq_nil_iff

/-- A shelf whose name has stray whitespace at either end and inside. -/
def renamed : Subject Entity Unit :=
  ⟨Service.shelf none " old  maps " "Worn", {}, Service.readingRoom⟩

/-- Of the new name of a shelf all stray whitespace is reported, from left to right. -/
theorem name_reported_shelf :
    (∀ o ∈ some (Service.shelf none "Maps" "Worn"),
      textOf o nameProperty ≠ textOf renamed.record nameProperty) ∧
    ∃ report, ((name ⟨some 2, some 16⟩ : Validation Entity Unit).check
        (some (Service.shelf none "Maps" "Worn"))).run renamed =
      (.ok (), { renamed with report := report }) ∧
      report.field nameProperty = [NameFault.message .startsBlank, NameFault.message .doubleBlank,
        NameFault.message .endsBlank] := by
  have hchanged : ∀ o ∈ some (Service.shelf none "Maps" "Worn"),
      textOf o nameProperty ≠ textOf renamed.record nameProperty := by
    rintro o ⟨⟩
    decide
  have htaken : NameBounds.of? (some 2) (some 16) = .ok ⟨some 2, some 16⟩ := rfl
  obtain ⟨messages, report, hmessages, hreport, hrun, -⟩ := name_reported htaken hchanged
  have htext : textOf renamed.record nameProperty = some " old  maps " := rfl
  have hthree : NameBounds.messages? ⟨some 2, some 16⟩ (some " old  maps ") =
      some [NameFault.message .startsBlank, NameFault.message .doubleBlank,
        NameFault.message .endsBlank] := by
    decide
  rw [htext, hthree, Option.some.injEq] at hmessages
  refine ⟨hchanged, report, hrun, ?_⟩
  rw [hreport, ← hmessages, Report.field_addFields]
  rfl

end Validation
end Folio
