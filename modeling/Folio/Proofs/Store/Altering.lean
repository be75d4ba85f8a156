import Folio.Proofs.Store.Changes

/-!
# Calls that change one document and answer it

Three calls pick the first match, take it out or write another document in its
place, and answer one of the versions. They are one call with different ways
to rewrite what was picked, and what they come to can be told from the entries
before: the document that is answered and the entries that are left.

Results:
* `findOneAndUpdate_eq_alter`, `findOneAndReplace_eq_alter`,
  `findOneAndDelete_eq_alter`: the three calls.
* `alter_cases`: nothing is rewritten and nothing changes, or what is answered
  and what is left are the outcome for the document that is picked.
-/
namespace Folio

/-- One of two versions of a document. -/
def Version.of : Version → (old new : Document) → Document
  | .before, old, _ => old
  | .after, _, new => new

theorem lift_map_bind {ε σ α β γ : Type} (x : Except ε α) (f : α → β)
    (g : β → ExceptT ε (StateM σ) γ) :
    (liftM (f <$> x) >>= g : ExceptT ε (StateM σ) γ) = liftM x >>= fun a => g (f a) := by
  cases x <;> rfl

namespace Store

/-- What comes in the place of a document; nothing if it is taken out. -/
abbrev Rewrite := Document → Except StoreFault (Option Document)

/-- Rewrites the first match and answers one of its versions; of a document
that is taken out there is one only. -/
def alter (collection : String) (filter : Filter) (rewrite : Rewrite) (version : Version) :
    Call (Option Document) := do
  begin .findAndModify collection
  match ← locate collection filter with
  | some (i, before) =>
    match ← rewrite before with
    | some after =>
      overwrite collection i after
      return some (version.of before after)
    | none =>
      evict collection i
      return some before
  | none => return none

variable {c : String} {filter : Filter} {rewrite : Rewrite} {version : Version} {s t : Store}

theorem findOneAndUpdate_eq_alter (c : String) (filter : Filter) (update : Update)
    (version : Version) : findOneAndUpdate c filter update version =
      alter c filter (fun doc => some <$> updated update doc) version := by
  unfold findOneAndUpdate alter
  refine bind_congr fun _ => bind_congr fun found => ?_
  rcases found with _ | ⟨i, before⟩
  · rfl
  · show (liftM (updated update before) >>= _) = (liftM (some <$> updated update before) >>= _)
    rw [lift_map_bind]
    cases version <;> rfl

theorem findOneAndReplace_eq_alter (c : String) (filter : Filter) (doc : Document)
    (version : Version) (fresh : ObjectId) : findOneAndReplace c filter doc version fresh =
      alter c filter (fun existing => some <$> replacement existing doc fresh) version := by
  unfold findOneAndReplace alter
  refine bind_congr fun _ => bind_congr fun found => ?_
  rcases found with _ | ⟨i, before⟩
  · rfl
  · show (liftM (replacement before doc fresh) >>= _) =
      (liftM (some <$> replacement before doc fresh) >>= _)
    rw [lift_map_bind]
    cases version <;> rfl

theorem findOneAndDelete_eq_alter (c : String) (filter : Filter) (version : Version) :
    findOneAndDelete c filter = alter c filter (fun _ => .ok none) version := by
  unfold findOneAndDelete alter
  refine bind_congr fun _ => bind_congr fun found => ?_
  rcases found with _ | ⟨i, before⟩ <;> rfl

/-- The document that a call picks: the first match, where the store can be
reached and everything before the match can be read. -/
def Picks (s : Store) (c : String) (filter : Filter) (i : Nat) (doc : Document) : Prop :=
  s.unavailable = false ∧ Stored.first? filter (s.entries c) 0 = .ok (some (i, doc))

theorem Picks.place {i : Nat} {doc : Document} (h : s.Picks c filter i doc) :
    Stored.At (s.entries c) i doc ∧ filter.matchesDoc doc = true := by
  obtain ⟨j, hj, hat, hm⟩ := Stored.first?_some h.2
  rw [Nat.zero_add] at hj
  exact ⟨hj ▸ hat, hm⟩

theorem Picks.unique {i j : Nat} {doc other : Document} (h : s.Picks c filter i doc)
    (h' : s.Picks c filter j other) : i = j ∧ doc = other := by
  cases h.2.symm.trans h'.2
  exact ⟨rfl, rfl⟩

/-- A collection with other entries makes another store. -/
theorem Changed.same_iff {entries : List Stored} (h : s.Changed c entries t) :
    s.Same t ↔ entries = s.entries c := by
  refine ⟨fun same => h.here.symm.trans (same c), fun kept name => ?_⟩
  by_cases hn : name = c
  · rw [hn, h.here, kept]
  · exact h.elsewhere name hn

/-- What is answered of the document picked, and the entries that are left. -/
def outcome (rewrite : Rewrite) (version : Version) (entries : List Stored) (i : Nat)
    (doc : Document) : Except StoreFault (Document × List Stored) :=
  match rewrite doc with
  | .ok (some next) =>
    (Stored.ofDocument next).map fun entry => (version.of doc next, entries.set i entry)
  | .ok none => .ok (doc, entries.eraseIdx i)
  | .error fault => .error fault

/-- Of a document that is answered as it was, nothing else is. -/
theorem answered_before {entries left : List Stored} {i : Nat} {doc answered : Document}
    (h : outcome rewrite .before entries i doc = .ok (answered, left)) : answered = doc := by
  unfold outcome at h
  split at h
  next next _ =>
    cases hn : Stored.ofDocument next with
    | error fault => rw [hn] at h; cases h
    | ok entry => rw [hn] at h; cases h; rfl
  next => cases h; rfl
  next => cases h

theorem run_alter (c : String) (filter : Filter) (rewrite : Rewrite) (version : Version)
    (s : Store) : (alter c filter rewrite version).run s =
      if s.unavailable then (.error (.unavailable c), s.tick .findAndModify)
      else
        match Stored.first? filter (s.entries c) 0 with
        | .error fault => (.error fault, s.tick .findAndModify)
        | .ok none => (.ok none, s.tick .findAndModify)
        | .ok (some (i, doc)) =>
          match outcome rewrite version (s.entries c) i doc with
          | .error fault => (.error fault, s.tick .findAndModify)
          | .ok (answered, entries) =>
            (.ok (some answered), (s.tick .findAndModify).setEntries c entries) := by
  rw [alter, run_bind, run_begin]
  by_cases hu : s.unavailable = true
  · rw [if_pos hu, if_pos hu]
  rw [if_neg hu, if_neg hu]
  simp only [run_bind, run_locate, entries_tick]
  rcases Stored.first? filter (s.entries c) 0 with fault | _ | ⟨i, doc⟩
  · rfl
  · rfl
  · simp only [run_bind, run_lift, outcome]
    rcases rewrite doc with fault | _ | next
    · rfl
    · rfl
    · simp only [run_bind, run_overwrite]
      cases Stored.ofDocument next <;> rfl

/-- Nothing is rewritten and nothing changes, or what is answered and what is
left are the outcome for the document that is picked. -/
theorem alter_cases {result : Except StoreFault (Option Document)}
    (h : (alter c filter rewrite version).run s = (result, t)) :
    (((∃ fault, result = .error fault) ∨ result = .ok none) ∧ s.Same t ∧
        ∀ i doc, s.Picks c filter i doc →
          ∀ o, outcome rewrite version (s.entries c) i doc ≠ .ok o) ∨
      ∃ i doc answered entries, s.Picks c filter i doc ∧
        outcome rewrite version (s.entries c) i doc = .ok (answered, entries) ∧
        result = .ok (some answered) ∧ s.Changed c entries t := by
  rw [run_alter] at h
  cases hu : s.unavailable with
  | true =>
    rw [hu, if_pos rfl] at h
    cases h
    refine .inl ⟨.inl ⟨_, rfl⟩, fun _ => rfl, fun i doc hp => ?_⟩
    cases hu.symm.trans hp.1
  | false =>
    rw [hu, if_neg Bool.false_ne_true] at h
    rcases hf : Stored.first? filter (s.entries c) 0 with fault | _ | ⟨i, doc⟩
    · simp only [hf] at h
      cases h
      refine .inl ⟨.inl ⟨_, rfl⟩, fun _ => rfl, fun i doc hp => ?_⟩
      cases hf.symm.trans hp.2
    · simp only [hf] at h
      cases h
      refine .inl ⟨.inr rfl, fun _ => rfl, fun i doc hp => ?_⟩
      cases hf.symm.trans hp.2
    · rcases ho : outcome rewrite version (s.entries c) i doc with fault | ⟨answered, entries⟩
      · simp only [hf, ho] at h
        cases h
        refine .inl ⟨.inl ⟨_, rfl⟩, fun _ => rfl, fun j d hp o hj => ?_⟩
        cases hf.symm.trans hp.2
        cases ho.symm.trans hj
      · simp only [hf, ho] at h
        cases h
        exact .inr ⟨i, doc, answered, entries, ⟨hu, hf⟩, ho, rfl, changed_setEntries _ _⟩

end Store
end Folio
