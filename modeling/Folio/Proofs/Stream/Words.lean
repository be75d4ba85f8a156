import Folio.Proofs.Stream.Calls
import Folio.Proofs.Value.Gathering

/-!
# The calls that write a document

A sequence of calls on a new writer succeeds exactly when it is a word of a
small grammar: a document is opened, its fields are named and written one after
another, and it is closed; so are arrays; any other value is one call. The word
also says which document comes out.

Results:
* `runs_of_denotes`: a word of the grammar puts its value where a value is due.
* `follows_of_runs`: whatever calls succeeded, they are a word or the beginning
  of one, and the open containers hold what it denotes so far.
* `build_eq_ok_iff`: the calls give a document iff they are a word for it.
-/
namespace Folio.Writer

/-! ## The grammar -/

/-- Calls, and the value that they write. -/
structure Part where
  word : List Step
  value : Value

/-- The calls that write elements, in order. -/
def itemWord (parts : List Part) : List Step := parts.flatMap Part.word

/-- The calls that write named values, in order. -/
def fieldWord (fields : List (String × Part)) : List Step :=
  fields.flatMap fun f => .name f.1 :: f.2.word

/-- The names with the values that are written. -/
def pairs (fields : List (String × Part)) : List (String × Value) :=
  fields.map fun f => (f.1, f.2.value)

theorem itemWord_snoc (parts : List Part) (p : Part) :
    itemWord (parts ++ [p]) = itemWord parts ++ p.word := by
  simp [itemWord]

theorem fieldWord_snoc (fields : List (String × Part)) (f : String × Part) :
    fieldWord (fields ++ [f]) = fieldWord fields ++ .name f.1 :: f.2.word := by
  simp [fieldWord]

/-- The calls are a word for the value: one call that writes it, or a container
opened, what is in it written, and closed. -/
inductive Denotes : List Step → Value → Prop
  | single {step : Step} {v : Value} (h : step.written? = some v) : Denotes [step] v
  | array (parts : List Part) (h : ∀ p ∈ parts, Denotes p.word p.value) :
      Denotes (.startArray :: (itemWord parts ++ [.endArray])) (.array (parts.map Part.value))
  | document (fields : List (String × Part)) (h : ∀ f ∈ fields, Denotes f.2.word f.2.value)
      {doc : Document} (hd : doc.Gathers (pairs fields)) :
      Denotes (.startDocument :: (fieldWord fields ++ [.endDocument])) (.document doc)

/-- The calls are a word for the document of a writer: it is opened and closed,
or handed over whole. -/
inductive DenotesDocument : List Step → Document → Prop
  | opened {steps : List Step} {doc : Document}
      (h : Denotes (.startDocument :: steps) (.document doc)) :
      DenotesDocument (.startDocument :: steps) doc
  | whole (doc : Document) : DenotesDocument [.value (.document doc)] doc

theorem denotesDocument_iff {steps : List Step} {doc : Document} :
    DenotesDocument steps doc ↔ Denotes steps (.document doc) := by
  constructor
  · rintro (h | _)
    · exact h
    · exact .single rfl
  · intro h
    cases h with
    | document fields h hd => exact .opened (.document fields h hd)
    | @single step _ hs =>
      cases step with
      | value v => cases hs; exact .whole doc
      | double d =>
        rw [Step.written?] at hs
        split at hs <;> cases hs
      | _ => cases hs

/-- The document that the calls write on a new writer, if all are allowed and
it is complete after the last. -/
def build (steps : List Step) : Except DataFault Document :=
  match (steps.forM Step.call).run start with
  | (.ok _, w) => w.document
  | (.error fault, _) => .error fault

/-! ## Words are allowed -/

theorem runs_items {parts : List Part} (below : List Frame) (root : Option Document)
    (h : ∀ p ∈ parts, ∀ w w', Puts p.value w w' → Runs p.word w w') (items : List Value) :
    Runs (itemWord parts) ⟨.array items :: below, root⟩
      ⟨.array (items ++ parts.map Part.value) :: below, root⟩ := by
  induction parts generalizing items with
  | nil => exact (List.append_nil items).symm ▸ .nil _
  | cons p rest ih =>
    have hfirst : Runs p.word ⟨.array items :: below, root⟩
        ⟨.array (items ++ [p.value]) :: below, root⟩ :=
      h p List.mem_cons_self _ _ .item
    have hrest := ih (fun q hq => h q (List.mem_cons_of_mem _ hq)) (items ++ [p.value])
    rw [List.append_assoc] at hrest
    exact runs_append.2 ⟨_, hfirst, hrest⟩

theorem runs_fields {fields : List (String × Part)} (below : List Frame) (root : Option Document)
    (h : ∀ f ∈ fields, ∀ w w', Puts f.2.value w w' → Runs f.2.word w w') (doc : Document) :
    Runs (fieldWord fields) ⟨.document doc none :: below, root⟩
      ⟨.document ((pairs fields).foldl (fun d p => d.insert p.1 p.2) doc) none :: below, root⟩ := by
  induction fields generalizing doc with
  | nil => exact .nil _
  | cons f rest ih =>
    have hfirst : Runs f.2.word ⟨.document doc (some f.1) :: below, root⟩
        ⟨.document (doc.insert f.1 f.2.value) none :: below, root⟩ :=
      h f List.mem_cons_self _ _ .field
    have hrest := ih (fun g hg => h g (List.mem_cons_of_mem _ hg)) (doc.insert f.1 f.2.value)
    exact runs_cons.2 ⟨_, .name, runs_append.2 ⟨_, hfirst, hrest⟩⟩

/-- A word writes its value where one is due. -/
theorem runs_of_denotes {steps : List Step} {v : Value} (h : Denotes steps v) {w w' : Writer}
    (hp : Puts v w w') : Runs steps w w' := by
  induction h generalizing w w' with
  | single hs => exact runs_single.2 (.value hs hp)
  | array parts _ ih =>
    have hs : w.stack ≠ [] := by
      rintro hs
      cases hp with
      | root hv => cases hv
      | _ => cases hs
    have hitems := runs_items w.stack w.root (fun p hm _ _ => ih p hm) []
    exact runs_cons.2 ⟨_, .startArray hp.awaits hs, runs_append.2 ⟨_, hitems,
      runs_single.2 (.endArray hp)⟩⟩
  | document fields _ hd ih =>
    have hfields := runs_fields w.stack w.root (fun f hm _ _ => ih f hm) .empty
    rw [Document.gathers_iff.1 hd] at hp
    exact runs_cons.2 ⟨_, .startDocument hp.awaits, runs_append.2 ⟨_, hfields,
      runs_single.2 (.endDocument hp)⟩⟩

/-! ## What is allowed is a word -/

/-- The calls so far are the beginning of a word: they opened the containers,
and what each container holds is what the calls since then denote. -/
inductive Opened : List Step → List Frame → Prop
  | nothing : Opened [] []
  | document {before : List Step} {stack : List Frame} (h : Opened before stack)
      (fields : List (String × Part)) (hf : ∀ f ∈ fields, Denotes f.2.word f.2.value)
      {doc : Document} (hd : doc.Gathers (pairs fields)) :
      Opened (before ++ .startDocument :: fieldWord fields) (.document doc none :: stack)
  | named {before : List Step} {doc : Document} {stack : List Frame}
      (h : Opened before (.document doc none :: stack)) (key : String) :
      Opened (before ++ [.name key]) (.document doc (some key) :: stack)
  | array {before : List Step} {stack : List Frame} (h : Opened before stack) (parts : List Part)
      (hp : ∀ p ∈ parts, Denotes p.word p.value) :
      Opened (before ++ .startArray :: itemWord parts) (.array (parts.map Part.value) :: stack)

/-- The calls so far are the beginning of a word, or one that is complete. -/
inductive Follows (steps : List Step) : Writer → Prop
  | inside {stack : List Frame} (h : Opened steps stack) : Follows steps ⟨stack, none⟩
  | finished {doc : Document} (h : Denotes steps (.document doc)) : Follows steps ⟨[], some doc⟩

theorem Opened.of_pending {steps : List Step} {doc : Document} {key : String}
    {below : List Frame} (h : Opened steps (.document doc (some key) :: below)) :
    ∃ before, steps = before ++ [.name key] ∧ Opened before (.document doc none :: below) := by
  cases h with
  | named h => exact ⟨_, rfl, h⟩

theorem Opened.of_document {steps : List Step} {doc : Document} {below : List Frame}
    (h : Opened steps (.document doc none :: below)) :
    ∃ before fields, steps = before ++ .startDocument :: fieldWord fields ∧ Opened before below ∧
      (∀ f ∈ fields, Denotes f.2.word f.2.value) ∧ doc.Gathers (pairs fields) := by
  cases h with
  | document h fields hf hd => exact ⟨_, fields, rfl, h, hf, hd⟩

theorem Opened.of_array {steps : List Step} {items : List Value} {below : List Frame}
    (h : Opened steps (.array items :: below)) :
    ∃ before parts, steps = before ++ .startArray :: itemWord parts ∧
      items = parts.map Part.value ∧ Opened before below ∧
      ∀ p ∈ parts, Denotes p.word p.value := by
  cases h with
  | array h parts hp => exact ⟨_, parts, rfl, rfl, h, hp⟩

theorem Opened.field {before steps : List Step} {doc : Document} {key : String}
    {below : List Frame} (h : Opened before (.document doc (some key) :: below)) {v : Value}
    (hv : Denotes steps v) :
    Opened (before ++ steps) (.document (doc.insert key v) none :: below) := by
  obtain ⟨named, rfl, hn⟩ := h.of_pending
  obtain ⟨opened, fields, rfl, ho, hf, hd⟩ := hn.of_document
  have hnew : Opened (opened ++ .startDocument :: fieldWord (fields ++ [(key, ⟨steps, v⟩)]))
      (.document (doc.insert key v) none :: below) := by
    refine .document ho _ (fun f hm => ?_) ?_
    · rcases List.mem_append.1 hm with hm | hm
      · exact hf f hm
      · exact List.mem_singleton.1 hm ▸ hv
    · rw [pairs, List.map_append]
      exact hd.insert key v
  simpa [fieldWord_snoc] using hnew

theorem Opened.item {before steps : List Step} {items : List Value} {below : List Frame}
    (h : Opened before (.array items :: below)) {v : Value} (hv : Denotes steps v) :
    Opened (before ++ steps) (.array (items ++ [v]) :: below) := by
  obtain ⟨opened, parts, rfl, rfl, ho, hp⟩ := h.of_array
  have hnew : Opened (opened ++ .startArray :: itemWord (parts ++ [⟨steps, v⟩]))
      (.array ((parts ++ [(⟨steps, v⟩ : Part)]).map Part.value) :: below) := by
    refine .array ho _ fun p hm => ?_
    rcases List.mem_append.1 hm with hm | hm
    · exact hp p hm
    · exact List.mem_singleton.1 hm ▸ hv
  simpa [itemWord_snoc] using hnew

/-- A word behind the calls so far writes its value where one is due. -/
theorem Opened.puts {before steps : List Step} {stack : List Frame} (h : Opened before stack)
    {v : Value} (hv : Denotes steps v) {w' : Writer} (hp : Puts v ⟨stack, none⟩ w') :
    Follows (before ++ steps) w' := by
  cases hp with
  | field => exact .inside (h.field hv)
  | item => exact .inside (h.item hv)
  | root hd =>
    cases h
    exact .finished (hd ▸ hv)

/-- A call that succeeds adds to the word. -/
theorem Follows.step {steps : List Step} {w w' : Writer} (h : Follows steps w) {step : Step}
    (hs : Effect step w w') : Follows (steps ++ [step]) w' := by
  cases h with
  | @inside stack h =>
    cases hs with
    | startDocument => exact .inside (.document h [] nofun Document.gathers_empty)
    | startArray => exact .inside (.array h [] nofun)
    | endDocument hp =>
      obtain ⟨before, fields, rfl, h, hf, hd⟩ := h.of_document
      rw [List.append_assoc]
      exact h.puts (.document fields hf hd) hp
    | endArray hp =>
      obtain ⟨before, parts, rfl, rfl, h, hparts⟩ := h.of_array
      rw [List.append_assoc]
      exact h.puts (.array parts hparts) hp
    | name => exact .inside (.named h _)
    | value hw hp => exact h.puts (.single hw) hp
  | finished h =>
    -- nothing is open and nothing more is due
    cases hs with
    | startDocument ha => cases ha
    | startArray _ hne => exact absurd rfl hne
    | value _ hp => cases hp

theorem follows_of_runs {steps : List Step} {w : Writer} (h : Runs steps start w) :
    Follows steps w := by
  induction steps using List.reverseRecOn generalizing w with
  | nil =>
    cases h
    exact .inside .nothing
  | append_singleton steps step ih =>
    obtain ⟨m, hm, hs⟩ := runs_append.1 h
    exact (ih hm).step (runs_single.1 hs)

theorem document_eq_ok_iff {w : Writer} {doc : Document} :
    w.document = .ok doc ↔ w = ⟨[], some doc⟩ := by
  obtain ⟨_ | ⟨top, below⟩, _ | other⟩ := w
  · exact iff_of_false nofun nofun
  · constructor
    · intro h
      cases h
      rfl
    · intro h
      cases h
      rfl
  · exact iff_of_false nofun nofun
  · exact iff_of_false nofun nofun

/-- All calls on a new writer are allowed and it then has the document, exactly
when they are a word for the document. -/
theorem build_eq_ok_iff {steps : List Step} {doc : Document} :
    build steps = .ok doc ↔ DenotesDocument steps doc := by
  have hbuild : build steps = .ok doc ↔ Runs steps start ⟨[], some doc⟩ := by
    unfold build Runs
    rcases (steps.forM Step.call).run start with ⟨fault | _, w⟩
    · exact iff_of_false nofun nofun
    · exact document_eq_ok_iff.trans ⟨fun hw => hw ▸ rfl, fun hw => (Prod.mk.inj hw).2⟩
  rw [hbuild, denotesDocument_iff]
  constructor
  · intro h
    cases follows_of_runs h with
    | finished h => exact h
  · intro h
    exact runs_of_denotes h (.root rfl)

example : (build [.startDocument, .name "a", .null, .name "b", .startArray, .null, .endArray,
    .name "a", .bool true, .endDocument]).map Document.fields =
    .ok [("a", .bool true), ("b", .array [.null])] := rfl

end Folio.Writer
