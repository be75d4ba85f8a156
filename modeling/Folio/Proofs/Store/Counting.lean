import Mathlib.Data.List.Count
import Mathlib.Data.List.Perm.Basic
import Folio.Proofs.Cbor.Zeros
import Folio.Proofs.Store.Identity
import Folio.Proofs.Store.Stopped

/-!
# How many documents a request modifies

A request that replaces or updates documents tells how many it modified. It
compares what it read with what it writes as documents, field by field in their
order and with doubles as numbers. What is kept are bytes in canonical form. So
a document whose fields only change places is counted though its bytes stay the
same, and a zero that changes its sign is not counted though they do not.

Results:
* `Revision.kept_iff`: which documents leave the bytes in their place as they are.
* `updateAll_modified`: what the loop over several places counts.
* `Revised.altered_eq`: how many documents have other bytes than before.
* `modified_eq_altered_iff`: when the two numbers are the same.
-/
namespace Folio

/-- A document and what is written in its place. -/
structure Revision where
  old : Document
  new : Document

namespace Revision

/-- A call counts the document: it compares it with what it read. -/
def counted (p : Revision) : Bool := !(p.new == p.old)

/-- Written in canonical form, the zeros have the signs that they had. -/
def sameSigns (p : Revision) : Bool :=
  (Value.document p.new.canonical).zeros == (Value.document p.old).zeros

/-- In canonical form, the new document is the old one. -/
def kept (p : Revision) : Bool := p.new.canonical == p.old && p.sameSigns

/-- The documents differ only in the order of their fields, at some depth. -/
def reordered (p : Revision) : Bool := p.counted && p.kept

/-- The documents are equal and differ in the sign of a zero. -/
def resigned (p : Revision) : Bool := !p.counted && !p.sameSigns

variable {p : Revision} {e entry : Stored}

/-- What is written leaves the bytes in its place as they are if it is, in
canonical form, the document that was there, down to the signs of its zeros. -/
theorem kept_iff (hf : e.Faithful) (ho : e.document = .ok p.old)
    (hn : Stored.ofDocument p.new = .ok entry) : p.kept = true ↔ entry.bytes = e.bytes := by
  obtain ⟨doc, -, hdoc⟩ := hf
  have hnew := (Stored.ofDocument_ok hn).2
  have hold : Cbor.encodeDocument p.old = .ok e.bytes := by
    rw [(Stored.document_of_encode hdoc ho).1, Cbor.encodeDocument_canonical, hdoc]
  rw [kept, Bool.and_eq_true]
  constructor
  · rintro ⟨hequal, hsigns⟩
    have nnew : (Value.document p.new.canonical).hasNaN = false :=
      Cbor.hasNaN_of_encode ((Cbor.encodeDocument_canonical p.new).trans hnew)
    rw [← Value.document_beq] at hequal
    have hsame := (Value.listing_zeros.same nnew (Cbor.hasNaN_of_encode hold) hequal).2
      (eq_of_beq hsigns)
    rw [← Cbor.encodeDocument_canonical, Value.document.inj hsame, hold] at hnew
    exact (Except.ok.inj hnew).symm
  · intro hbytes
    rw [hbytes] at hnew
    have hself := Value.beq_self (Cbor.hasNaN_of_encode hold)
    rw [sameSigns, ← (Stored.document_of_encode hnew ho).1, ← Value.document_beq]
    exact ⟨hself, beq_self_eq_true _⟩

/-- Equal documents have equal canonical forms, and what was read back is its own. -/
theorem canonical_of_uncounted (hf : e.Faithful) (ho : e.document = .ok p.old)
    (h : p.counted = false) : (p.new.canonical == p.old) = true := by
  obtain ⟨doc, -, hdoc⟩ := hf
  have hold : (Value.document p.old).canonical = .document p.old := by
    rw [(Stored.document_of_encode hdoc ho).1, ← Value.document_canonical]
    exact Value.canonical_canonical (.document doc)
  rw [counted, Bool.not_eq_false', ← Value.document_beq] at h
  have hcanonical := Value.canonical_beq h
  rwa [hold, Value.document_canonical, Value.document_beq] at hcanonical

end Revision

namespace Store

variable {c : String} {filter : Filter} {every : Bool} {r : Request}
  {step : Document → Except StoreFault Document} {found : List (Nat × Document)} {s t : Store}

/-- What a request picks: every match, or the first alone. -/
def sought (filter : Filter) (every : Bool) (entries : List Stored) :
    Except StoreFault (List (Nat × Document)) :=
  if every then Stored.matching filter entries 0
  else (Stored.first? filter entries 0).map Option.toList

/-- What is written in the places of what was picked. -/
def revisions (step : Document → Except StoreFault Document) (found : List (Nat × Document)) :
    List Revision :=
  found.filterMap fun q => (step q.2).toOption.map (⟨q.2, ·⟩)

/-- The bytes at a place are others than before. -/
def differs (before after : List Stored) (i : Nat) : Bool :=
  before[i]?.map (·.bytes) != after[i]?.map (·.bytes)

/-- How many of the documents have other bytes afterwards. -/
def altered (before after : List Stored) : Nat :=
  (List.range before.length).countP (differs before after)

theorem at_of_sought {entries : List Stored} (h : sought filter every entries = .ok found) :
    (∀ q ∈ found, Stored.At entries q.1 q.2) ∧ found.Pairwise fun p q => p.1 < q.1 := by
  cases every with
  | true => exact ⟨fun q hq => Stored.at_of_matching h hq, (Stored.matching_ok h).2⟩
  | false =>
    obtain ⟨first, hfirst, rfl⟩ := ok_of_map h
    cases first with
    | none => exact ⟨nofun, .nil⟩
    | some q =>
      refine ⟨List.forall_mem_singleton.2 (Stored.at_of_first? hfirst), ?_⟩
      exact List.pairwise_singleton ..

/-! ## What is counted -/

theorem counted_cons {q : Nat × Document} {next : Document} (h : step q.2 = .ok next) :
    (revisions step (q :: found)).countP Revision.counted =
      (if next == q.2 then 0 else 1) + (revisions step found).countP Revision.counted := by
  rw [revisions, List.filterMap_cons_some (b := ⟨q.2, next⟩) (by rw [h]; rfl), List.countP_cons,
    Nat.add_comm, Revision.counted]
  cases next == q.2 <;> rfl

/-- The loop counts what it writes, one document after another. -/
theorem updateAll_modified {update : Update} {result u : UpdateResult}
    (h : (updateAll c update found result).run s = (.ok u, t)) :
    u.modified = result.modified + (revisions (updated update) found).countP Revision.counted := by
  induction found generalizing s result with
  | nil =>
    cases h
    rfl
  | cons q rest ih =>
    obtain ⟨next, _, hn, h⟩ := ok_of_run_bind h
    rw [run_lift] at hn
    obtain ⟨_, _, -, h⟩ := ok_of_run_bind h
    rw [ih h, counted_cons (Prod.mk.inj hn).1, Nat.add_assoc]

/-- Where nothing matches, nothing is counted. -/
theorem absent_modified {u : UpdateResult} (h : r.absent.run s = (.ok (.result u), t)) :
    u.modified = 0 := by
  unfold Request.absent at h
  split at h
  next name _ doc fresh =>
    rw [run_map, run_bind] at h
    rcases hplaced : (place name doc fresh).run s with ⟨fault | id, _⟩
    · rw [hplaced] at h
      cases h
    · rw [hplaced] at h
      cases h
      rfl
  next => cases h
  next => cases h
  next =>
    cases h
    rfl

/-- A request that rewrites and tells of it has written what it picked, and counts
among that; or nothing matches and one entry is added. -/
theorem perform_modified {u : UpdateResult}
    (hr : r.target? = some ⟨c, filter, every, .rewrite step⟩)
    (h : (perform r).run s = (.ok (.result u), t)) :
    ∃ found, sought filter every (s.entries c) = .ok found ∧
      u.modified = (revisions step found).countP Revision.counted ∧
      (Revised s c step (found.map (·.1)) t ∨
        found = [] ∧ ∃ entry, s.Changed c (s.entries c ++ [entry]) t) := by
  cases every with
  | false =>
    obtain ⟨kind, tell, hperform, htell⟩ := perform_eq_revise hr
    rw [hperform] at h
    rcases revise_run h with ⟨_, hfault, -⟩ | ⟨q, next, hq, hn, ha, hrevised⟩ | ⟨hnone, h⟩
    · cases hfault
    · refine ⟨[q], congrArg (Except.map Option.toList) hq, ?_, .inl hrevised⟩
      rw [(htell q.2 next).2 u (Except.ok.inj ha).symm, counted_cons hn]
      rfl
    · refine ⟨[], congrArg (Except.map Option.toList) hnone, absent_modified h, ?_⟩
      rcases absent_cases hr h with ⟨hsame, -⟩ | ⟨-, entry, _, -, -, hchanged⟩
      · exact .inl (.of_tick (.of_same hsame))
      · exact .inr ⟨rfl, entry, hchanged.here, hchanged.elsewhere⟩
  | true =>
    cases r with
    | updateMany _ _ update =>
      cases hr
      rw [perform, run_map] at h
      obtain ⟨hok, rfl⟩ := Prod.mk.inj h
      obtain ⟨_, hok, hu⟩ := ok_of_map hok
      cases hu
      rcases updateMany_run (Prod.ext (y := (Except.ok u, _)) hok rfl) with
        ⟨_, hfault, -⟩ | ⟨found, hm, hrun⟩
      · cases hfault
      · obtain ⟨hrevised, hall⟩ := updateAll_revised (s := s.tick .update)
          (fun q hq => Stored.at_of_matching hm hq) (Stored.matching_ok hm).2 hrun
        rw [(hall u rfl).1] at hrevised
        refine ⟨found, hm, (updateAll_modified hrun).trans (Nat.zero_add _), .inl ?_⟩
        exact hrevised.of_tick
    | _ => cases hr

/-! ## What has other bytes -/

variable {before after : List Stored} {i : Nat}

theorem differs_of_eq (h : after[i]? = before[i]?) : differs before after i = false := by
  rw [differs, h, bne_self_eq_false]

theorem differs_iff {e entry : Stored} (hb : before[i]? = some e) (ha : after[i]? = some entry) :
    differs before after i = true ↔ ¬ entry.bytes = e.bytes := by
  rw [differs, hb, ha, bne_iff_ne, Option.map_some, Option.map_some, Ne, Option.some.injEq, eq_comm]

/-- The places that differ, told by places that all others are kept beside. -/
theorem altered_of_kept {places : List Nat} (hn : places.Nodup)
    (hlt : ∀ i ∈ places, i < before.length) (hk : ∀ i, i ∉ places → after[i]? = before[i]?) :
    altered before after = places.countP (differs before after) := by
  have hperm : ((List.range before.length).filter (differs before after)).Perm
      (places.filter (differs before after)) := by
    refine (List.perm_ext_iff_of_nodup (List.nodup_range.filter _) (hn.filter _)).2 fun i => ?_
    rw [List.mem_filter, List.mem_filter, List.mem_range, and_congr_left_iff]
    refine fun hi => ⟨fun _ => ?_, hlt i⟩
    by_contra hout
    rw [differs_of_eq (hk i hout)] at hi
    cases hi
  rw [altered, List.countP_eq_length_filter, hperm.length_eq, ← List.countP_eq_length_filter]

/-- Where places are rewritten, the documents that have other bytes are those whose
revision does not keep them. -/
theorem Revised.altered_eq (h : Revised s c step (found.map (·.1)) t)
    (hf : ∀ e ∈ s.entries c, e.Faithful) (hs : sought filter every (s.entries c) = .ok found) :
    altered (s.entries c) (t.entries c) = (revisions step found).countP fun p => !p.kept := by
  obtain ⟨hat, hlt⟩ := at_of_sought hs
  have hinside : ∀ i ∈ found.map (·.1), i < (s.entries c).length := by
    intro i hi
    obtain ⟨q, hq, rfl⟩ := List.mem_map.1 hi
    obtain ⟨e, he, -⟩ := hat q hq
    exact (List.getElem?_eq_some_iff.1 he).1
  rw [altered_of_kept ((List.pairwise_map.2 hlt).imp Nat.ne_of_lt) hinside h.kept, List.countP_map,
    revisions, List.countP_filterMap]
  refine List.countP_congr fun q hq => ?_
  obtain ⟨e, he, hd⟩ := hat q hq
  obtain ⟨doc, next, entry, hdoc, hn, hentry, hget⟩ := h.written q.1 (List.mem_map_of_mem hq)
  cases Stored.At.unique ⟨e, he, hd⟩ hdoc
  have hkept := Revision.kept_iff (p := ⟨q.2, next⟩) (hf e (List.mem_of_getElem? he)) hd hentry
  rw [Function.comp_apply, differs_iff he hget, ← hkept, hn, Bool.not_eq_true]
  exact (Bool.not_eq_true' _).symm.to_iff

theorem altered_append (entries : List Stored) (entry : Stored) :
    altered entries (entries ++ [entry]) = 0 := by
  refine List.countP_eq_zero.2 fun i hi => ?_
  rw [differs_of_eq (List.getElem?_append_left (List.mem_range.1 hi))]
  exact Bool.false_ne_true

/-! ## The two numbers -/

/-- Two ways to count, each with the members that the other one misses. -/
theorem countP_balance {α : Type} (p q : α → Bool) (as : List α) :
    as.countP p + as.countP (fun a => !p a && !q a) =
      as.countP (fun a => !q a) + as.countP fun a => p a && q a := by
  have hp := List.countP_eq_countP_filter_add as p q
  have hq := List.countP_eq_countP_filter_add as (fun a => !q a) p
  simp only [List.countP_filter] at hp hq
  simp only [Bool.and_comm (!q _)] at hq
  omega

/-- What is read, and what is written in its place: it is counted, or it is equal
and then it is kept up to the signs of its zeros. -/
theorem countP_resigned (hf : ∀ e ∈ s.entries c, e.Faithful)
    (hs : sought filter every (s.entries c) = .ok found) :
    (revisions step found).countP Revision.resigned =
      (revisions step found).countP fun p => !p.counted && !p.kept := by
  refine List.countP_congr fun p hp => ?_
  obtain ⟨q, hq, hp⟩ := List.mem_filterMap.1 hp
  obtain ⟨next, -, rfl⟩ := Option.map_eq_some_iff.1 hp
  obtain ⟨e, he, hd⟩ := (at_of_sought hs).1 q hq
  rw [Revision.resigned, Revision.kept]
  cases hcounted : Revision.counted ⟨q.2, next⟩ with
  | true => exact Iff.rfl
  | false =>
    rw [Revision.canonical_of_uncounted (hf e (List.mem_of_getElem? he)) hd hcounted, Bool.true_and]

/-- A request that replaces or updates documents, and succeeds, changes no other
collection. Of its own, it tells of as many modified documents as there are with
other bytes than before if and only if it only reorders as many as it only gives
other signs to zeros. -/
theorem modified_eq_altered_iff {requests : List Request} {u : UpdateResult}
    (hr : r.target? = some ⟨c, filter, every, .rewrite step⟩)
    (h : (perform r).run (empty.after requests) = (.ok (.result u), t)) :
    ∃ found, sought filter every ((empty.after requests).entries c) = .ok found ∧
      (∀ name, name ≠ c → t.entries name = (empty.after requests).entries name) ∧
      u.modified + (revisions step found).countP Revision.resigned =
        altered ((empty.after requests).entries c) (t.entries c) +
          (revisions step found).countP Revision.reordered ∧
      (u.modified = altered ((empty.after requests).entries c) (t.entries c) ↔
        (revisions step found).countP Revision.reordered =
          (revisions step found).countP Revision.resigned) := by
  have hf := after_faithful requests c
  generalize empty.after requests = s at h hf ⊢
  obtain ⟨found, hs, hmodified, hwritten⟩ := perform_modified hr h
  have haltered : altered (s.entries c) (t.entries c) =
      (revisions step found).countP fun p => !p.kept := by
    rcases hwritten with hrevised | ⟨rfl, entry, hchanged⟩
    · exact hrevised.altered_eq hf hs
    · rw [hchanged.here, altered_append]
      rfl
  have helsewhere : ∀ name, name ≠ c → t.entries name = s.entries name := by
    rcases hwritten with hrevised | ⟨-, _, hchanged⟩
    · exact hrevised.elsewhere
    · exact hchanged.elsewhere
  have hbalance := countP_balance Revision.counted Revision.kept (revisions step found)
  rw [← countP_resigned hf hs, ← haltered, ← hmodified] at hbalance
  refine ⟨found, hs, helsewhere, hbalance, ?_⟩
  show _ ↔ (revisions step found).countP (fun p => p.counted && p.kept) = _
  omega

/-- A note, and how it is read. -/
def note : Document := ⟨[("_id", .integer 1), ("a", .integer 2)]⟩

def noteRead : Document := ⟨[("a", .integer 2), ("_id", .integer 1)]⟩

def notes : List Request := [.insertOne "notes" note (.ofParts 1 1)]

/-- The note is replaced by itself. It is read with its id at the end, so it counts
as modified, and its bytes are the same. -/
theorem modified_eq_altered_notes :
    ∃ u t, (perform (.replaceOne "notes" .all note false (.ofParts 1 2))).run
        (empty.after notes) = (.ok (.result u), t) ∧
      u.modified = 1 ∧ altered ((empty.after notes).entries "notes") (t.entries "notes") = 0 := by
  have hrun : (perform (.replaceOne "notes" .all note false (.ofParts 1 2))).run
      (empty.after notes) = (.ok (.result ⟨1, 1, none⟩),
        ((perform (.replaceOne "notes" .all note false (.ofParts 1 2))).run
          (empty.after notes)).2) := by rfl
  have hsought : sought .all false ((empty.after notes).entries "notes") =
      .ok [(0, noteRead)] := by rfl
  obtain ⟨found, hs, -, hbalance, -⟩ := modified_eq_altered_iff rfl hrun
  cases hsought.symm.trans hs
  have hresigned : (revisions (replacement · note (.ofParts 1 2)) [(0, noteRead)]).countP
      Revision.resigned = 0 := by rfl
  have hreordered : (revisions (replacement · note (.ofParts 1 2)) [(0, noteRead)]).countP
      Revision.reordered = 1 := by rfl
  rw [hresigned, hreordered] at hbalance
  exact ⟨_, _, hrun, rfl, Nat.succ.inj hbalance.symm⟩

end Store
end Folio
