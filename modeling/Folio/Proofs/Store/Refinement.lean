import Mathlib.Data.List.Forall2
import Folio.Proofs.Store.Identity
import Folio.Proofs.Store.Ledger
import Folio.Proofs.Value.WellNamed

/-!
# A store keeps a ledger

As long as ids are scalars and documents can be read, a store that keeps bytes
and ids answers as a ledger does. Each entry is the written form of what the
ledger has at the same place, and beside it stands the id that would be read
from it. Requests are followed part by part: a part of a request on the store
agrees with a part of the request on the ledger if both answer alike and leave
a store and a ledger that still mirror each other.

Results:
* `perform_agrees`: a request is answered alike, and so is every later one.
* `answers_eq`: all answers to a run of requests, and the documents after each,
  are those of the ledger.
-/
namespace Folio

open Store (Request Answer)

/-! ## Lists side by side -/

section

variable {α β : Type} {R : α → β → Prop} {as : List α} {bs : List β}

theorem forall₂_set (h : List.Forall₂ R as bs) {a : α} {b : β} (hab : R a b) (i : Nat) :
    List.Forall₂ R (as.set i a) (bs.set i b) := by
  induction h generalizing i with
  | nil => exact .nil
  | cons hx hrest ih =>
    cases i with
    | zero => exact .cons hab hrest
    | succ i => exact .cons hx (ih i)

theorem forall₂_eraseIdx (h : List.Forall₂ R as bs) (i : Nat) :
    List.Forall₂ R (as.eraseIdx i) (bs.eraseIdx i) := by
  induction h generalizing i with
  | nil => exact .nil
  | cons hx hrest ih =>
    cases i with
    | zero => exact hrest
    | succ i => exact .cons hx (ih i)

theorem forall₂_getElem? (h : List.Forall₂ R as bs) {i : Nat} {b : β} (hb : bs[i]? = some b) :
    ∃ a, as[i]? = some a ∧ R a b := by
  induction h generalizing i with
  | nil => cases hb
  | cons hx _ ih =>
    cases i with
    | zero => cases hb; exact ⟨_, rfl, hx⟩
    | succ i => exact ih hb

end

/-! ## Entries -/

/-- The entry is the written form of a document in canonical form, which has
the scalar id that stands beside it. -/
structure Stored.Keeps (e : Stored) (p : Value × Document) : Prop where
  id : e.id = p.1
  scalar : p.1.isScalar = true
  own : p.2.get? idField = some p.1
  bytes : ∃ doc : Document, Cbor.encodeDocument doc = .ok e.bytes ∧ doc.canonical = p.2 ∧
    doc.WellNamed

namespace Stored.Keeps

variable {e : Stored} {p : Value × Document}

theorem wellNamed (h : e.Keeps p) : p.2.WellNamed := by
  obtain ⟨doc, -, hc, hd⟩ := h.bytes
  exact hc ▸ hd.canonical

/-- An id equals itself, as it is no NaN. -/
theorem beq_id (h : e.Keeps p) : (p.1 == p.1) = true := by
  obtain ⟨⟨fields⟩, he, hc, -⟩ := h.bytes
  have hn : (Value.document p.2).hasNaN = false := by
    rw [← hc]
    exact Value.hasNaN_canonical.2 (Cbor.hasNaN_of_encode he)
  obtain ⟨id, ⟨others⟩⟩ := p
  exact Value.beq_self (Value.hasNaN_document.1 hn _ (Document.mem_of_lookup h.own))

/-- What is read is the document, if its sizes can be read. -/
theorem document (h : e.Keeps p) (hs : (Value.document p.2).everywhere Value.sized = true) :
    e.document = .ok p.2 := by
  obtain ⟨⟨fields⟩, he, hc, hd⟩ := h.bytes
  rw [← hc] at hs ⊢
  exact document_of_encoded he
    ((Value.everywhere_canonical Value.sized_canonical (.document ⟨fields⟩)).1 hs) hd

end Stored.Keeps

/-- A document is refused by the store and by the ledger, or kept by both. -/
theorem Stored.ofDocument_kept {doc : Document} {id : Value} (hid : doc.get? idField = some id)
    (hs : id.isScalar = true) (hd : doc.WellNamed) :
    (∃ fault, ofDocument doc = .error fault ∧ Ledger.kept doc = .error fault) ∨
      ∃ e, ofDocument doc = .ok e ∧ Ledger.kept doc = .ok doc.canonical ∧
        e.Keeps (id, doc.canonical) := by
  cases hn : (Value.document doc).hasNaN with
  | true =>
    refine .inl ⟨.data .nanForbidden, ?_, if_pos hn⟩
    rw [ofDocument, hid, Cbor.encodeDocument, Cbor.encode_of_hasNaN hn]
  | false =>
    obtain ⟨bytes, hb, -⟩ := Cbor.decode_encode hn
    refine .inr ⟨⟨id, bytes⟩, ?_, if_neg (by simp [hn]), rfl, hs, ?_, doc, hb, rfl, hd⟩
    · rw [ofDocument, hid, Cbor.encodeDocument, hb]
    · rw [Value.get?_canonical (Document.wellNamed_iff.1 hd).1, hid, Option.map_some,
        Value.canonical_scalar hs]

/-! ## Requests on stores -/

/-- What is handed in has distinct names, at every depth. -/
def Store.Request.WellNamed : Request → Prop
  | .insertOne _ doc _ | .replaceOne _ _ doc _ _ | .findOneAndReplace _ _ doc _ _ => doc.WellNamed
  | .insertMany _ docs _ => ∀ doc ∈ docs, doc.WellNamed
  | .updateOne _ _ update | .updateMany _ _ update | .findOneAndUpdate _ _ update _ =>
    ∀ change ∈ update, change.WellNamed
  | _ => True

/-- The answers to requests made one after another. -/
def Store.answers (s : Store) : List Request → List (Except StoreFault Answer)
  | [] => []
  | r :: rest => ((Store.perform r).run s).1 :: answers ((Store.perform r).run s).2 rest

/-! ## Stores and ledgers -/

/-- The store keeps what the ledger has. -/
structure Ledger.Mirrors (l : Ledger) (s : Store) : Prop where
  reach : l.unavailable = s.unavailable
  entries : ∀ c, List.Forall₂ Stored.Keeps (s.entries c) (l.shelf c)
  distinct : ∀ c, (l.shelf c).Distinct

namespace Ledger

variable {l m : Ledger} {s t : Store} {c : String}

theorem mirrors_empty : empty.Mirrors Store.empty := ⟨rfl, fun _ => .nil, fun _ => .nil⟩

theorem Mirrors.tick (h : l.Mirrors s) (kind : CallKind) : l.Mirrors (s.tick kind) :=
  ⟨h.reach, h.entries, h.distinct⟩

/-- One collection is exchanged on both sides. -/
theorem Mirrors.setEntries (h : l.Mirrors s) {entries : List Stored} {shelf : Shelf}
    (he : List.Forall₂ Stored.Keeps entries shelf) (hd : shelf.Distinct) :
    (l.setShelf c shelf).Mirrors (s.setEntries c entries) := by
  refine ⟨h.reach, ?_, ?_⟩
  · intro name
    rw [Store.entries_setEntries, shelf_setShelf]
    split
    · exact he
    · exact h.entries name
  · intro name
    rw [shelf_setShelf]
    split
    · exact hd
    · exact h.distinct name

/-- What the store reads in a collection is what the ledger has there. -/
theorem Mirrors.reads (h : l.Mirrors s) (hf : l.Fits) (c : String) :
    List.Forall₂ (fun e p => Stored.document e = .ok p.2) (s.entries c) (l.shelf c) := by
  have hall : ∀ p ∈ l.shelf c, (Value.document p.2).everywhere Value.sized = true := hf c
  refine List.forall₂_iff_get.2 ⟨(h.entries c).length_eq, ?_⟩
  intro i hi hj
  exact ((List.forall₂_iff_get.1 (h.entries c)).2 i hi hj).document (hall _ (List.get_mem _ _))

theorem Mirrors.documents (h : l.Mirrors s) (hf : l.Fits) (c : String) :
    s.documents c = .ok (l.documents c) := by
  have hr := h.reads hf c
  rw [Store.documents, Stored.documents, Ledger.documents]
  generalize s.entries c = entries, l.shelf c = shelf at hr
  induction hr with
  | nil => rfl
  | cons he _ ih =>
    rw [List.mapM_cons, he, ih]
    rfl

theorem Mirrors.ids (h : l.Mirrors s) (c : String) :
    (s.entries c).map (·.id) = (l.shelf c).ids := by
  have hk := h.entries c
  generalize s.entries c = entries, l.shelf c = shelf at hk
  induction hk with
  | nil => rfl
  | cons he _ ih => exact congrArg₂ List.cons he.id ih

/-! ## Agreement -/

/-- Run on the store and on the ledger, the operations answer alike, with
results that are related, and leave a store that keeps the ledger. -/
def Agree {α β : Type} (s : Store) (l : Ledger) (related : α → β → Prop) (x : Store.Call α)
    (y : Step β) : Prop :=
  (∃ a b t m, x.run s = (.ok a, t) ∧ y.run l = (.ok b, m) ∧ related a b ∧ m.Mirrors t) ∨
    ∃ fault t m, x.run s = (.error fault, t) ∧ y.run l = (.error fault, m) ∧ m.Mirrors t

namespace Agree

variable {α β γ δ : Type} {R : α → β → Prop} {P : γ → δ → Prop}

theorem pure (h : l.Mirrors s) {a : α} {b : β} (hr : R a b) :
    Agree s l R (Pure.pure a) (Pure.pure b) :=
  .inl ⟨a, b, s, l, rfl, rfl, hr, h⟩

/-- The second parts agree on what the first parts leave. -/
theorem bind {x : Store.Call α} {y : Step β} {f : α → Store.Call γ} {g : β → Step δ}
    (h : Agree s l R x y)
    (hf : ∀ a b t m, x.run s = (.ok a, t) → y.run l = (.ok b, m) → R a b → m.Mirrors t →
      Agree t m P (f a) (g b)) : Agree s l P (x >>= f) (y >>= g) := by
  rcases h with ⟨a, b, t, m, hx, hy, hr, hm⟩ | ⟨fault, t, m, hx, hy, hm⟩
  · unfold Agree
    rw [run_bind_ok hx, run_bind_ok hy]
    exact hf a b t m hx hy hr hm
  · exact .inr ⟨fault, t, m, run_bind_error hx, run_bind_error hy, hm⟩

theorem imp {Q : γ → δ → Prop} {x : Store.Call γ} {y : Step δ} (h : Agree s l P x y)
    (hq : ∀ a b, P a b → Q a b) : Agree s l Q x y := by
  rcases h with ⟨a, b, t, m, hx, hy, hr, hm⟩ | h
  · exact .inl ⟨a, b, t, m, hx, hy, hq a b hr, hm⟩
  · exact .inr h

/-- The store's answer is put into another form. -/
theorem map {x : Store.Call α} {y : Step δ} {f : α → γ} (h : Agree s l (fun a b => P (f a) b) x y) :
    Agree s l P (f <$> x) y := by
  rcases h with ⟨a, b, t, m, hx, hy, hr, hm⟩ | ⟨fault, t, m, hx, hy, hm⟩
  · exact .inl ⟨f a, b, t, m, by rw [run_map, hx]; rfl, hy, hr, hm⟩
  · exact .inr ⟨fault, t, m, by rw [run_map, hx]; rfl, hy, hm⟩

/-- So is the ledger's. -/
theorem answer {x : Store.Call γ} {y : Step β} {g : β → δ}
    (h : Agree s l (fun a b => P a (g b)) x y) : Agree s l P x (y >>= fun b => Pure.pure (g b)) := by
  rcases h with ⟨a, b, t, m, hx, hy, hr, hm⟩ | ⟨fault, t, m, hx, hy, hm⟩
  · exact .inl ⟨a, g b, t, m, hx, by rw [run_bind_ok hy]; rfl, hr, hm⟩
  · exact .inr ⟨fault, t, m, hx, run_bind_error hy, hm⟩

/-- A step of its own that both sides take, and that may fail. -/
theorem lift {x : Except StoreFault α} {f : α → Store.Call γ} {g : α → Step δ} (h : l.Mirrors s)
    (hf : ∀ a, x = .ok a → Agree s l P (f a) (g a)) :
    Agree s l P (liftM x >>= f) (liftM x >>= g) := by
  cases x with
  | ok a => exact bind (R := (· = ·)) (.inl ⟨a, a, s, l, rfl, rfl, rfl, h⟩) (by
      rintro a b t m hx hy rfl hm
      cases hx
      cases hy
      exact hf _ rfl)
  | error fault => exact .inr ⟨fault, s, l, rfl, rfl, h⟩

theorem begin (h : l.Mirrors s) {kind : CallKind} {x : Store.Call γ} {y : Step δ}
    (hxy : l.Mirrors (s.tick kind) → Agree (s.tick kind) l P x y) :
    Agree s l P (Store.begin kind c >>= fun _ => x) (Ledger.begin c >>= fun _ => y) := by
  have hl : (Ledger.begin c).run l =
      if l.unavailable then (.error (.unavailable c), l) else (.ok (), l) := by
    rw [Ledger.begin, run_bind, run_getThe]
    by_cases hu : l.unavailable = true
    · simp only [hu, if_true]
      rfl
    · simp only [hu]
      rfl
  have hs := Store.run_begin kind c s
  rw [h.reach] at hl
  by_cases hu : s.unavailable = true
  · rw [if_pos hu] at hl hs
    exact .inr ⟨.unavailable c, _, _, run_bind_error hs, run_bind_error hl, h.tick kind⟩
  · rw [if_neg hu] at hl hs
    unfold Agree
    rw [run_bind_ok hs, run_bind_ok hl]
    exact hxy (h.tick kind)

end Agree

/-! ## Parts of requests -/

/-- Documents with scalar ids are put in alike. -/
theorem place_agrees (h : l.Mirrors s) {doc : Document} (hd : doc.WellNamed)
    (hs : ∀ id, doc.get? idField = some id → id.isScalar = true) (fresh : ObjectId) :
    Agree s l (· = ·) (Store.place c doc fresh) (insert c doc fresh) := by
  have hid : (doc.withId none fresh).get? idField =
      some ((doc.get? idField).getD (.objectId fresh)) := Store.id_withId doc none fresh
  have hscalar : ((doc.get? idField).getD (.objectId fresh)).isScalar = true := by
    cases hown : doc.get? idField with
    | none => rfl
    | some id => exact hs id hown
  have hnamed : (doc.withId none fresh).WellNamed := hd.withId (fun _ h => by cases h) fresh
  have hstore := Store.run_place c doc fresh s
  have hledger := run_insert c doc fresh l
  generalize (doc.get? idField).getD (.objectId fresh) = id at hid hscalar hledger
  rw [Store.accept_eq] at hstore
  rcases Stored.ofDocument_kept hid hscalar hnamed with ⟨fault, he, hk⟩ | ⟨e, he, hk, hkeeps⟩
  · rw [he] at hstore
    rw [hk] at hledger
    exact .inr ⟨fault, s, l, hstore, hledger, h⟩
  · have hany : (s.entries c).any (·.id == e.id) = (l.shelf c).ids.any (· == id) := by
      rw [hkeeps.id, ← h.ids c, List.any_map]
      rfl
    rw [he] at hstore
    rw [hk] at hledger
    rw [← hany] at hledger
    dsimp only at hstore hledger
    cases ht : (s.entries c).any (·.id == e.id) with
    | true =>
      rw [ht, if_pos rfl, hkeeps.id] at hstore
      rw [ht, if_pos rfl] at hledger
      exact .inr ⟨_, s, l, hstore, hledger, h⟩
    | false =>
      rw [ht, if_neg Bool.false_ne_true] at hstore hledger
      rw [hkeeps.id] at hstore
      refine .inl ⟨id, id, _, _, hstore, hledger, rfl, h.setEntries ?_ ?_⟩
      · exact List.rel_append (h.entries c) (.cons hkeeps .nil)
      · rw [hany] at ht
        rw [Shelf.Distinct, Shelf.ids, List.map_append]
        refine List.pairwise_append.2 ⟨h.distinct c, List.pairwise_singleton .., ?_⟩
        intro a ha b hb
        rw [List.mem_singleton.1 hb]
        exact Bool.eq_false_iff.2 (List.any_eq_false.1 ht a ha)

theorem placeAll_agrees (h : l.Mirrors s) {docs : List Document} (hd : ∀ doc ∈ docs, doc.WellNamed)
    (hs : ∀ doc ∈ docs, ∀ id, doc.get? idField = some id → id.isScalar = true)
    (fresh : Nat → ObjectId) :
    Agree s l (· = ·) (Store.placeAll c fresh docs) (insertAll c fresh docs) := by
  induction docs generalizing s l fresh with
  | nil => exact .pure h rfl
  | cons doc rest ih =>
    obtain ⟨hdoc, hrest⟩ := List.forall_mem_cons.1 hd
    obtain ⟨hid, hids⟩ := List.forall_mem_cons.1 hs
    refine .bind (place_agrees h hdoc hid _) ?_
    rintro a _ t m - - rfl hm
    refine .bind (ih hm hrest hids _) ?_
    rintro as _ t m - - rfl hm
    exact .pure hm rfl

theorem ids_getElem? {i : Nat} {p : Value × Document} (hp : (l.shelf c)[i]? = some p) :
    (l.shelf c).ids[i]? = some p.1 := by
  rw [Shelf.ids, List.getElem?_map, hp]
  rfl

/-- The document at a place takes another document in, under the id that the
place has. -/
theorem overwrite_agrees (h : l.Mirrors s) {i : Nat} {id : Value}
    (hi : (l.shelf c).ids[i]? = some id) {doc : Document} (hid : doc.get? idField = some id)
    (hd : doc.WellNamed) :
    Agree s l (fun _ _ => True) (Store.overwrite c i doc) (overwrite c id doc) := by
  have hstore := Store.run_overwrite c i doc s
  have hledger := run_overwrite c id doc l
  obtain ⟨p, hp, rfl⟩ : ∃ p, (l.shelf c)[i]? = some p ∧ p.1 = id := by
    rwa [Shelf.ids, List.getElem?_map, Option.map_eq_some_iff] at hi
  obtain ⟨old, -, hold⟩ := forall₂_getElem? (h.entries c) hp
  rcases Stored.ofDocument_kept hid hold.scalar hd with ⟨fault, he, hk⟩ | ⟨e, he, hk, hkeeps⟩
  · rw [he] at hstore
    rw [hk] at hledger
    exact .inr ⟨fault, s, l, hstore, hledger, h⟩
  · rw [he] at hstore
    rw [hk] at hledger
    have hset := Shelf.set_eq_set (h.distinct c) hold.beq_id hi doc.canonical
    refine .inl ⟨(), (), _, _, hstore, hledger, trivial, h.setEntries ?_ ?_⟩
    · rw [hset]
      exact forall₂_set (h.entries c) hkeeps i
    · rw [Shelf.Distinct, Shelf.ids_set]
      exact h.distinct c

theorem evict_agrees (h : l.Mirrors s) {i : Nat} {p : Value × Document}
    (hp : (l.shelf c)[i]? = some p) :
    Agree s l (fun _ _ => True) (Store.evict c i) (evict c p.1) := by
  obtain ⟨e, -, he⟩ := forall₂_getElem? (h.entries c) hp
  have herase := Shelf.erase_eq_eraseIdx (h.distinct c) he.beq_id (ids_getElem? hp)
  refine .inl ⟨(), (), _, _, Store.run_evict c i s, rfl, trivial, h.setEntries ?_ ?_⟩
  · rw [herase]
    exact forall₂_eraseIdx (h.entries c) i
  · exact (h.distinct c).sublist ((List.eraseP_sublist).map _)

/-! ## Searches -/

/-- A match in the store and one in the ledger: the document is the same, and
stands in the ledger at the place that the store tells, counted from `k`. -/
def Found (shelf : Shelf) (k : Nat) (q : Nat × Document) (p : Value × Document) : Prop :=
  q.2 = p.2 ∧ ∃ i, q.1 = k + i ∧ shelf[i]? = some p

theorem Found.cons {shelf : Shelf} {k : Nat} {q : Nat × Document} {p : Value × Document}
    (h : Found shelf (k + 1) q p) (first : Value × Document) : Found (first :: shelf) k q p := by
  obtain ⟨hd, i, hi, hp⟩ := h
  exact ⟨hd, i + 1, by omega, hp⟩

section

variable {entries : List Stored} {shelf : Shelf}

theorem first?_found (filter : Filter)
    (h : List.Forall₂ (fun e p => Stored.document e = .ok p.2) entries shelf)
    (k : Nat) : (Stored.first? filter entries k = .ok none ∧ shelf.first? filter = none) ∨
      ∃ q p, Stored.first? filter entries k = .ok (some q) ∧ shelf.first? filter = some p ∧
        Found shelf k q p := by
  induction h generalizing k with
  | nil => exact .inl ⟨rfl, rfl⟩
  | @cons e p entries shelf he _ ih =>
    rw [Stored.first?_cons he, Shelf.first?, List.find?_cons]
    cases filter.matchesDoc p.2 with
    | true => exact .inr ⟨(k, p.2), p, rfl, rfl, rfl, 0, rfl, rfl⟩
    | false =>
      rcases ih (k + 1) with ⟨hs, hl⟩ | ⟨q, p', hs, hl, hfound⟩
      · exact .inl ⟨hs, hl⟩
      · exact .inr ⟨q, p', hs, hl, hfound.cons p⟩

/-- All documents are read, and those that match are found at their places. -/
theorem matching_found (filter : Filter)
    (h : List.Forall₂ (fun e p => Stored.document e = .ok p.2) entries shelf)
    (k : Nat) : ∃ found, Stored.matching filter entries k = .ok found ∧
      List.Forall₂ (Found shelf k) found (shelf.matching filter) := by
  induction h generalizing k with
  | nil => exact ⟨[], rfl, .nil⟩
  | @cons e p entries shelf he _ ih =>
    obtain ⟨others, hs, hfound⟩ := ih (k + 1)
    have hlater := hfound.imp fun _ _ hq => hq.cons p
    rw [Stored.matching_cons he, hs, Shelf.matching, List.filter_cons]
    refine ⟨_, rfl, ?_⟩
    split
    · exact .cons ⟨rfl, 0, rfl, rfl⟩ hlater
    · exact hlater

/-- Entries at other places than those of the matches are those of the
documents that do not match. -/
theorem without_found {found : List (Nat × Document)} {k : Nat}
    (h : List.Forall₂ (fun e p => Stored.Keeps e p ∧ Stored.document e = .ok p.2) entries shelf)
    (hm : Stored.matching filter entries k = .ok found) :
    List.Forall₂ Stored.Keeps
      (((entries.zipIdx k).filter fun e => !(found.map (·.1)).contains e.2).map (·.1))
      (shelf.filter fun p => !filter.matchesDoc p.2) := by
  induction h generalizing k found with
  | nil => exact .nil
  | @cons e p entries shelf he _ ih =>
    obtain ⟨hkeeps, hd⟩ := he
    obtain ⟨doc, hdoc, hm⟩ := ok_of_bind hm
    obtain ⟨others, hothers, hm⟩ := ok_of_bind hm
    rw [hd] at hdoc
    cases hdoc
    cases hm
    have hplaces : ∀ q ∈ others, k < q.1 := by
      intro q hq
      obtain ⟨j, hj, -⟩ := (Stored.matching_ok hothers).1 q hq
      omega
    have hafter : ∀ x ∈ entries.zipIdx (k + 1), k < x.2 := by
      intro x hx
      have := List.le_snd_of_mem_zipIdx hx
      omega
    have hrest := ih hothers
    rw [List.zipIdx_cons, List.filter_cons, List.filter_cons]
    cases filter.matchesDoc p.2 with
    | true =>
      have hsame : (entries.zipIdx (k + 1)).filter
            (fun x => !(((k, p.2) :: others).map (·.1)).contains x.2) =
          (entries.zipIdx (k + 1)).filter fun x => !(others.map (·.1)).contains x.2 := by
        refine List.filter_congr fun x hx => ?_
        have := hafter x hx
        simp [show x.2 ≠ k by omega]
      simp only [if_true, List.map_cons, List.contains_cons, BEq.rfl, Bool.true_or, Bool.not_true,
        Bool.false_eq_true, if_false]
      rw [List.map_cons] at hsame
      simp only [List.contains_cons] at hsame
      rw [hsame]
      exact hrest
    | false =>
      have hout : (others.map (·.1)).contains k = false := by
        refine Bool.eq_false_iff.2 fun hc => ?_
        obtain ⟨q, hq, hk⟩ := List.mem_map.1 (List.contains_iff_mem.1 hc)
        have := hplaces q hq
        omega
      simp only [Bool.false_eq_true, if_false, hout, Bool.not_false, if_true, List.map_cons]
      exact .cons hkeeps hrest

end

/-- Something follows the search for the first match, and agrees on what is
found. -/
theorem Agree.locate {α β : Type} {P : α → β → Prop} (h : l.Mirrors s) (hf : l.Fits)
    {filter : Filter} {f : Option (Nat × Document) → Store.Call α}
    {g : Option (Value × Document) → Step β} (hnone : Agree s l P (f none) (g none))
    (hsome : ∀ i p e, (l.shelf c)[i]? = some p → Stored.Keeps e p →
      Agree s l P (f (some (i, p.2))) (g (some p))) :
    Agree s l P (Store.locate c filter >>= f) (Ledger.locate c filter >>= g) := by
  have hledger : (Ledger.locate c filter).run l = (.ok ((l.shelf c).first? filter), l) := rfl
  have hstore := Store.run_locate c filter s
  unfold Agree
  rw [run_bind_ok hledger]
  rcases first?_found filter (h.reads hf c) 0 with ⟨hs, hl⟩ | ⟨q, p, hs, hl, hd, i, hq, hp⟩
  · rw [hs] at hstore
    rw [run_bind_ok hstore, hl]
    exact hnone
  · rw [hs] at hstore
    rw [run_bind_ok hstore, hl]
    obtain ⟨e, -, he⟩ := forall₂_getElem? (h.entries c) hp
    have : q = (i, p.2) := Prod.ext (by omega) hd
    rw [this]
    exact hsome i p e hp he

/-- Something follows the search for every match. -/
theorem Agree.locateAll {α β : Type} {P : α → β → Prop} (h : l.Mirrors s) (hf : l.Fits)
    {filter : Filter} {f : List (Nat × Document) → Store.Call α} {g : Shelf → Step β}
    (hall : ∀ found, Stored.matching filter (s.entries c) 0 = .ok found →
      List.Forall₂ (Found (l.shelf c) 0) found ((l.shelf c).matching filter) →
      Agree s l P (f found) (g ((l.shelf c).matching filter))) :
    Agree s l P (Store.locateAll c filter >>= f) (Ledger.locateAll c filter >>= g) := by
  have hledger : (Ledger.locateAll c filter).run l = (.ok ((l.shelf c).matching filter), l) := rfl
  have hstore := Store.run_locateAll c filter s
  obtain ⟨found, hs, hfound⟩ := matching_found filter (h.reads hf c) 0
  rw [hs] at hstore
  unfold Agree
  rw [run_bind_ok hledger, run_bind_ok hstore]
  exact hall found hs hfound

theorem found_documents {shelf found : Shelf} {places : List (Nat × Document)} {k : Nat}
    (h : List.Forall₂ (Found shelf k) places found) : places.map (·.2) = found.map (·.2) := by
  induction h with
  | nil => rfl
  | cons hq _ ih => exact congrArg₂ List.cons hq.1 ih

theorem ids_overwrite {id : Value} {doc : Document}
    (h : (overwrite c id doc).run l = (.ok (), m)) : (m.shelf c).ids = (l.shelf c).ids := by
  rw [run_overwrite] at h
  split at h
  · cases h
    rw [shelf_setShelf, if_pos rfl, Shelf.ids_set]
  · cases h

/-- Matches are updated alike: the ids that stood at their places still stand
there when their turn comes. -/
theorem updateAll_agrees {update : Update} (hu : ∀ change ∈ update, change.WellNamed)
    {places : List (Nat × Document)} {found : Shelf} {ids : List Value} (h : l.Mirrors s)
    (hids : (l.shelf c).ids = ids)
    (hfound : List.Forall₂ (fun q p => q.2 = p.2 ∧ ids[q.1]? = some p.1 ∧
      p.2.get? idField = some p.1 ∧ p.2.WellNamed) places found) (result : UpdateResult) :
    Agree s l (· = ·) (Store.updateAll c update places result)
      (updateAll c update found result) := by
  induction hfound generalizing s l result with
  | nil => exact .pure h rfl
  | @cons q p places found hq _ ih =>
    obtain ⟨i, doc⟩ := q
    obtain ⟨id, doc'⟩ := p
    obtain ⟨rfl, hi, hown, hnamed⟩ := hq
    refine .lift h fun next hn => ?_
    have hid : next.get? idField = some id := (Store.id_updated hn).trans hown
    refine .bind (overwrite_agrees h (hids ▸ hi) hid (Store.wellNamed_updated hu hnamed hn)) ?_
    intro _ _ t m _ hrun _ hm
    exact ih hm ((ids_overwrite hrun).trans hids) _

/-! ## Requests -/

/-- The match takes in what an update makes of it. -/
theorem updated_agrees {α β : Type} {P : α → β → Prop} (h : l.Mirrors s) {i : Nat}
    {p : Value × Document} {e : Stored} (hp : (l.shelf c)[i]? = some p) (he : e.Keeps p)
    {update : Update} (hu : ∀ change ∈ update, change.WellNamed) {f : Document → α}
    {g : Document → β} (hfg : ∀ next, P (f next) (g next)) :
    Agree s l P
      (do
        let next ← Store.updated update p.2
        Store.overwrite c i next
        return f next)
      (do
        let next ← Store.updated update p.2
        overwrite c p.1 next
        return g next) := by
  refine .lift h fun next hn => ?_
  have hid : next.get? idField = some p.1 := (Store.id_updated hn).trans he.own
  refine .bind (overwrite_agrees h (ids_getElem? hp) hid
    (Store.wellNamed_updated hu he.wellNamed hn)) ?_
  exact fun _ _ t m _ _ _ hm => .pure hm (hfg next)

/-- The match takes in its replacement. -/
theorem replacement_agrees {α β : Type} {P : α → β → Prop} (h : l.Mirrors s) {i : Nat}
    {p : Value × Document} {e : Stored} (hp : (l.shelf c)[i]? = some p) (he : e.Keeps p)
    {doc : Document} (hd : doc.WellNamed) (fresh : ObjectId) {f : Document → α}
    {g : Document → β} (hfg : ∀ next, P (f next) (g next)) :
    Agree s l P
      (do
        let next ← Store.replacement p.2 doc fresh
        Store.overwrite c i next
        return f next)
      (do
        let next ← Store.replacement p.2 doc fresh
        overwrite c p.1 next
        return g next) := by
  refine .lift h fun next hn => ?_
  have hid : next.get? idField = some p.1 := Store.id_replacement hn he.own
  refine .bind (overwrite_agrees h (ids_getElem? hp) hid
    (Store.wellNamed_replacement he.wellNamed hd hn)) ?_
  exact fun _ _ t m _ _ _ hm => .pure hm (hfg next)

/-- A request with scalar ids is answered alike, and a store that keeps a ledger
keeps it on. -/
theorem perform_agrees (h : l.Mirrors s) (hf : l.Fits) {r : Request} (hr : r.WellNamed)
    (hs : ∀ id ∈ r.ids, id.isScalar = true) :
    Agree s l (· = ·) (Store.perform r) (perform r) := by
  cases r with
  | insertOne c doc fresh =>
    refine .map (.begin h fun h => .answer ?_)
    have hown : ∀ id, doc.get? idField = some id → id.isScalar = true :=
      fun id hid => hs id (by simp [Request.ids, hid])
    refine .imp (place_agrees h hr hown fresh) ?_
    exact fun a b hab => congrArg Answer.id hab
  | insertMany c docs fresh =>
    refine .map (.begin h fun h => .answer ?_)
    have hown : ∀ doc ∈ docs, ∀ id, doc.get? idField = some id → id.isScalar = true :=
      fun doc hdoc id hid => hs id (List.mem_filterMap.2 ⟨doc, hdoc, hid⟩)
    refine .imp (placeAll_agrees h hr hown fresh) ?_
    exact fun a b hab => congrArg Answer.ids hab
  | find c filter options =>
    refine .map (.begin h fun h => .locateAll h hf fun found _ hfound => .pure h ?_)
    rw [found_documents hfound]
  | count c filter =>
    refine .map (.begin h fun h => .locateAll h hf fun found _ hfound => .pure h ?_)
    rw [hfound.length_eq]
  | distinct c field filter =>
    refine .map (.begin h fun h => .locateAll h hf fun found _ hfound => .pure h ?_)
    simp only [← List.flatMap_map, found_documents hfound]
  | aggregate c stages =>
    refine .map (.begin h fun h => .inl ?_)
    simp only [run_bind, run_get, run_getThe, h.documents hf c]
    exact ⟨_, _, _, _, rfl, rfl, rfl, h⟩
  | replaceOne c filter doc upsert fresh =>
    refine .map (.begin h fun h => .locate h hf ?_ fun i p e hp he => ?_)
    · cases upsert with
      | true =>
        have hown : ∀ id, doc.get? idField = some id → id.isScalar = true :=
          fun id hid => hs id (by simp [Request.ids, hid])
        refine .bind (place_agrees h hr hown fresh) ?_
        rintro id _ t m - - rfl hm
        exact .pure hm rfl
      | false => exact .pure h rfl
    · exact replacement_agrees h hp he hr fresh fun _ => rfl
  | updateOne c filter update =>
    refine .map (.begin h fun h => .locate h hf (.pure h rfl) fun i p e hp he => ?_)
    exact updated_agrees h hp he hr fun _ => rfl
  | updateMany c filter update =>
    refine .map (.begin h fun h => .locateAll h hf fun found _ hfound => .answer ?_)
    refine .imp (updateAll_agrees hr h rfl ?_ {}) fun a b hab => congrArg Answer.result hab
    refine hfound.imp fun q p hq => ?_
    obtain ⟨hd, i, hi, hp⟩ := hq
    obtain ⟨e, -, he⟩ := forall₂_getElem? (h.entries c) hp
    rw [Nat.zero_add] at hi
    exact ⟨hd, hi ▸ ids_getElem? hp, he.own, he.wellNamed⟩
  | findOneAndUpdate c filter update version =>
    refine .map (.begin h fun h => .locate h hf (.pure h rfl) fun i p e hp he => ?_)
    exact updated_agrees h hp he hr fun _ => rfl
  | findOneAndReplace c filter doc version fresh =>
    refine .map (.begin h fun h => .locate h hf (.pure h rfl) fun i p e hp he => ?_)
    exact replacement_agrees h hp he hr fresh fun _ => rfl
  | findOneAndDelete c filter =>
    refine .map (.begin h fun h => .locate h hf (.pure h rfl) fun i p e hp he => ?_)
    refine .bind (evict_agrees h hp) ?_
    exact fun _ _ t m _ _ _ hm => .pure hm rfl
  | deleteOne c filter =>
    refine .map (.begin h fun h => .locate h hf (.pure h rfl) fun i p e hp he => ?_)
    refine .bind (evict_agrees h hp) ?_
    exact fun _ _ t m _ _ _ hm => .pure hm rfl
  | deleteMany c filter =>
    refine .map (.begin h fun h => .locateAll h hf fun found hm hfound => ?_)
    have hboth : List.Forall₂ (fun e p => Stored.Keeps e p ∧ Stored.document e = .ok p.2)
        (s.entries c) (l.shelf c) :=
      List.forall₂_iff_get.2 ⟨(h.entries c).length_eq, fun i hi hj =>
        ⟨(List.forall₂_iff_get.1 (h.entries c)).2 i hi hj,
          (List.forall₂_iff_get.1 (h.reads hf c)).2 i hi hj⟩⟩
    refine .inl ⟨_, _, _, _, rfl, rfl, ?_, h.setEntries (without_found hboth hm) ?_⟩
    · rw [List.length_map, hfound.length_eq]
    · exact (h.distinct c).sublist (List.filter_sublist.map _)
  | setUnavailable unavailable => exact .inl ⟨_, _, _, _, rfl, rfl, rfl, rfl, h.entries, h.distinct⟩

/-! ## Runs -/

theorem Mirrors.isMap (h : l.Mirrors s) : l.IsMap := by
  refine ⟨h.distinct, fun c p hp => ?_, fun c p hp => ?_⟩
  all_goals
    obtain ⟨i, hi⟩ := List.getElem?_of_mem hp
    obtain ⟨e, -, he⟩ := forall₂_getElem? (h.entries c) hi
  · exact he.own
  · obtain ⟨⟨fields⟩, -, hc, -⟩ := he.bytes
    rw [← hc]
    exact Value.document.inj (Value.canonical_canonical (.document ⟨fields⟩))

/-- One request: the same answer, and a ledger that the store keeps. -/
theorem perform_eq (h : l.Mirrors s) (hf : l.Fits) {r : Request} (hr : r.WellNamed)
    (hs : ∀ id ∈ r.ids, id.isScalar = true) :
    ((Store.perform r).run s).1 = ((perform r).run l).1 ∧
      (((perform r).run l).2).Mirrors ((Store.perform r).run s).2 := by
  rcases perform_agrees h hf hr hs with ⟨a, b, t, m, hx, hy, rfl, hm⟩ | ⟨fault, t, m, hx, hy, hm⟩
  · rw [hx, hy]
    exact ⟨rfl, hm⟩
  · rw [hx, hy]
    exact ⟨rfl, hm⟩

/-- A run on a store that keeps a ledger: the answers are the same, and after
every part of the run the store keeps the ledger. -/
theorem run_agrees {requests : List Request} (h : l.Mirrors s)
    (hw : ∀ r ∈ requests, r.WellNamed) (hs : ∀ r ∈ requests, ∀ id ∈ r.ids, id.isScalar = true)
    (hf : ∀ k, (l.after (requests.take k)).Fits) :
    s.answers requests = l.answers requests ∧
      ∀ k, (l.after (requests.take k)).Mirrors (s.after (requests.take k)) := by
  induction requests generalizing s l with
  | nil =>
    refine ⟨rfl, fun k => ?_⟩
    rw [List.take_nil]
    exact h
  | cons r rest ih =>
    obtain ⟨hr, hrest⟩ := List.forall_mem_cons.1 hw
    obtain ⟨hids, hothers⟩ := List.forall_mem_cons.1 hs
    obtain ⟨hanswer, hm⟩ := perform_eq h (hf 0) hr hids
    obtain ⟨hanswers, hafter⟩ := ih hm hrest hothers fun k => hf (k + 1)
    refine ⟨congrArg₂ List.cons hanswer hanswers, fun k => ?_⟩
    cases k with
    | zero => exact h
    | succ k => exact hafter k

theorem data_of_answers {requests : List Request} {i : Nat} {fault : DataFault}
    (h : (l.answers requests)[i]? = some (.error (.data fault))) :
    ∃ r, requests[i]? = some r ∧ r.writes = true ∧ fault = .nanForbidden := by
  induction requests generalizing l i with
  | nil => cases h
  | cons r rest ih =>
    cases i with
    | zero =>
      obtain ⟨hw, hfault⟩ := refuses_perform r l fault (Option.some.inj h)
      exact ⟨r, rfl, hw, hfault⟩
    | succ i => exact ih h

/-- Requests with scalar ids on an empty store are answered as by a ledger. After
each of them the ledger is a map, and the store has its documents. Nothing that
is stored makes a request fail: only a write is refused for data, for a NaN. -/
theorem answers_eq {requests : List Request} (hw : ∀ r ∈ requests, r.WellNamed)
    (hs : ∀ r ∈ requests, ∀ id ∈ r.ids, id.isScalar = true)
    (hf : ∀ k, (empty.after (requests.take k)).Fits) :
    Store.empty.answers requests = empty.answers requests ∧
      (∀ k, (empty.after (requests.take k)).IsMap ∧
        ∀ c, (Store.empty.after (requests.take k)).documents c =
          .ok ((empty.after (requests.take k)).documents c)) ∧
      ∀ (i : Nat) (fault : DataFault), (Store.empty.answers requests)[i]? = some (.error (.data fault)) →
        ∃ r, requests[i]? = some r ∧ r.writes = true ∧ fault = .nanForbidden := by
  obtain ⟨hanswers, hafter⟩ := run_agrees mirrors_empty hw hs hf
  refine ⟨hanswers, fun k => ⟨(hafter k).isMap, (hafter k).documents (hf k)⟩, ?_⟩
  intro i fault h
  rw [hanswers] at h
  exact data_of_answers h

/-- An order comes in, its total is raised, and all orders are listed. -/
def sales : List Request :=
  [.insertOne "orders" ⟨[("total", .integer 3), ("by", .text "ada")]⟩ (.ofParts 1 2),
    .updateOne "orders" .all [.inc "total" (.integer 1)],
    .find "orders" .all {}]

theorem fits_sales (k : Nat) : (empty.after (sales.take k)).Fits := by
  obtain ⟨j, hj, htake⟩ : ∃ j < 4, sales.take k = sales.take j :=
    ⟨min k 3, by omega, List.take_eq_take_min⟩
  have horders : ∀ j < 4, ∀ p ∈ (empty.after (sales.take j)).shelf "orders",
      (Value.document p.2).everywhere Value.sized = true := by decide
  have hothers : ∀ c, c ≠ "orders" → (empty.after (sales.take j)).shelf c = [] := by
    intro c hc
    match j with
    | 0 => rfl
    | 1 => exact if_neg hc
    | 2 | 3 => exact (if_neg hc).trans (if_neg hc)
  rw [htake]
  intro c p hp
  by_cases hc : c = "orders"
  · exact horders j hj p (hc ▸ hp)
  · rw [hothers c hc] at hp
    cases hp

theorem answers_eq_sales : (Store.empty.answers sales)[2]? =
    some (.ok (.documents
      [⟨[("by", .text "ada"), ("_id", .objectId (.ofParts 1 2)), ("total", .integer 4)]⟩])) := by
  have hnamed : ∀ r ∈ sales, r.WellNamed := by
    have hraised : Request.WellNamed (.updateOne "orders" .all [.inc "total" (.integer 1)]) :=
      List.forall_mem_singleton.2 trivial
    simp only [sales, List.forall_mem_cons, List.not_mem_nil, false_implies, implies_true, and_true]
    exact ⟨rfl, hraised, trivial⟩
  have hscalar : ∀ r ∈ sales, ∀ id ∈ r.ids, id.isScalar = true := by decide +kernel
  rw [(answers_eq hnamed hscalar fits_sales).1]
  rfl

end Ledger
end Folio
