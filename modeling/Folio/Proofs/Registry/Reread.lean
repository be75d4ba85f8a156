import Folio.Proofs.Entity.Tidy
import Folio.Proofs.Registry.Documents
import Folio.Proofs.Registry.Reload
import Folio.Proofs.Store.Identity

/-!
# Reading back what was not in order

Bytes keep no order of fields, so an entity with documents in it has the bytes
of its tidied form, which is what is read back.

Results:
* `encoding_tidy`: what a value and its tidied form are encoded as has one
  canonical form.
* `inflate_tidy`: what is read back of an entity is its tidied form.
-/
namespace Folio

variable {names : Names} {s : Schema}

/-- Steps that agree, followed by steps that agree on what these give. -/
theorem map_bind_congr {ε α β γ δ : Type} {x x' : Except ε α} {f f' : α → Except ε β} {p : α → γ}
    {q : β → δ} (hx : x.map p = x'.map p) (hf : ∀ a a', p a = p a' → (f a).map q = (f' a').map q) :
    (x >>= f).map q = (x' >>= f').map q := by
  cases x with
  | error e =>
    cases x' with
    | error e' => cases hx; rfl
    | ok a' => cases hx
  | ok a =>
    cases x' with
    | error e' => cases hx
    | ok a' => exact hf a a' (Except.ok.inj hx)

namespace Registry

/-- What the value and its tidied form are encoded as has one canonical form. -/
def EncodesTidy (v : FieldValue) : Prop :=
  (encoding v.tidy).map Value.canonical = (encoding v).map Value.canonical

theorem encodingItems_tidy {items : List FieldValue} (h : ∀ v ∈ items, EncodesTidy v) :
    (encodingItems (items.map FieldValue.tidy)).map (List.map Value.canonical) =
      (encodingItems items).map (List.map Value.canonical) := by
  induction items with
  | nil => rfl
  | cons v rest ih =>
    rw [List.map_cons, encodingItems, encodingItems]
    refine map_bind_congr (h v List.mem_cons_self) fun w w' hw => ?_
    refine map_bind_congr (ih fun w hw => h w (List.mem_cons_of_mem v hw)) fun ws ws' hws => ?_
    show Except.ok (_ :: _) = Except.ok (_ :: _)
    rw [hw, hws]

variable {fields : Fields}

theorem encodingId_tidy (h : ∀ a ∈ fields, EncodesTidy a.2) :
    (encodingId (fields.map fun a => (a.1, a.2.tidy))).map Value.canonicalFields =
      (encodingId fields).map Value.canonicalFields := by
  induction fields with
  | nil => rfl
  | cons a rest ih =>
    obtain ⟨k, v⟩ := a
    rw [List.map_cons, encodingId, encodingId]
    split
    · refine map_bind_congr (h _ List.mem_cons_self) fun w w' hw => ?_
      show Except.ok [(k, w.canonical)] = Except.ok [(k, w'.canonical)]
      rw [hw]
    · exact ih fun b hb => h b (List.mem_cons_of_mem _ hb)

theorem encodingRest_tidy (h : ∀ a ∈ fields, EncodesTidy a.2) :
    (encodingRest (fields.map fun a => (a.1, a.2.tidy))).map Value.canonicalFields =
      (encodingRest fields).map Value.canonicalFields := by
  induction fields with
  | nil => rfl
  | cons a rest ih =>
    obtain ⟨k, v⟩ := a
    have hrest := ih fun b hb => h b (List.mem_cons_of_mem _ hb)
    rw [List.map_cons, encodingRest, encodingRest]
    split
    · exact hrest
    · refine map_bind_congr (h _ List.mem_cons_self) fun w w' hw => ?_
      refine map_bind_congr hrest fun ws ws' hws => ?_
      show Except.ok ((k, w.canonical) :: Value.canonicalFields ws) =
        Except.ok ((k, w'.canonical) :: Value.canonicalFields ws')
      rw [hw, hws]

theorem encodingFields_tidy {e : Entity} (h : ∀ a ∈ e.attributes, EncodesTidy a.2) :
    (encodingFields e.tidy.attributes).map Document.canonical =
      (encodingFields e.attributes).map Document.canonical := by
  refine map_bind_congr (encodingId_tidy h) fun id id' hid => ?_
  refine map_bind_congr (encodingRest_tidy h) fun rest rest' hrest => ?_
  have hfields : Value.canonicalFields (id ++ rest) = Value.canonicalFields (id' ++ rest') := by
    simp only [Value.canonicalFields_eq_map, List.map_append] at hid hrest ⊢
    rw [hid, hrest]
  exact congrArg (fun fields => Except.ok (Document.mk (Value.arrange fields))) hfields

/-- What a value and its tidied form are encoded as has one canonical form. -/
theorem encoding_tidy (v : FieldValue) : EncodesTidy v := by
  induction v using FieldValue.tree with
  | leaf v hl =>
    cases v with
    | document doc =>
      obtain ⟨fields⟩ := doc
      exact congrArg Except.ok (Value.canonical_canonical (.document ⟨fields⟩))
    | list items => cases hl
    | entity e => cases hl
    | _ => rfl
  | list items ih =>
    rw [EncodesTidy, FieldValue.tidy_list, encoding, encoding]
    refine map_bind_congr (encodingItems_tidy ih) fun ws ws' hws => ?_
    show Except.ok (Value.array ws).canonical = Except.ok (Value.array ws').canonical
    rw [Value.canonical_array, Value.canonical_array, hws]
  | entity e ih =>
    rw [EncodesTidy, FieldValue.tidy_entity, encoding_entity, encoding_entity]
    have hfields := encodingFields_tidy ih
    have hdoc : ∀ x : Except Failure Document,
        (x.map Value.document).map Value.canonical = (x.map Document.canonical).map .document := by
      rintro (failure | ⟨⟨fields⟩⟩) <;> rfl
    rw [hdoc, hdoc, hfields]

/-- A reachable entity whose tidied form is storable is encoded, and what is
read back of it is its tidied form. -/
theorem inflate_tidy {e : Entity} (hr : e.Reachable s names.Knows)
    (hclass : s.isEntityClass e.cls = true) (hs : (FieldValue.entity e).tidy.Storable s names) :
    ∃ doc, encodingFields e.attributes = .ok doc ∧
      ∀ entry back, Stored.ofDocument doc = .ok entry → entry.document = .ok back →
        ∀ r, r.Ready s names → ∃ r',
          (inflate e.cls back : RegistryM Entity).run r = (.ok e.tidy, r') ∧ r'.Ready s names := by
  have hreach : e.tidy.Reachable s names.Knows := by
    refine FieldValue.reachable_partOf_tidy (v := .entity e) ?_ hs e.tidy ?_
    · intro n hp
      cases hp with
      | whole => exact hr
      | property ha hp => exact hr.nested _ ha n hp
    · rw [FieldValue.tidy_entity]
      exact .whole _
  rw [FieldValue.tidy_entity] at hs
  obtain ⟨tidied, hencode, hinflate⟩ := inflate_encodeRecord hreach hclass hs
  have htidied : encodingFields e.tidy.attributes = .ok tidied := by
    have hready : Registry.Ready s names ⟨⟨s, [], []⟩, none, [], [], 0⟩ :=
      ⟨⟨rfl, rfl, fun p hp => by cases hp⟩, ⟨rfl, fun p hp => by cases hp⟩⟩
    obtain ⟨r', hrun, -⟩ := hencode _ hready
    exact encodingFields_of_run hready.plain hrun
  have hcanonical := encodingFields_tidy (e := e) fun a _ => encoding_tidy a.2
  rw [htidied] at hcanonical
  cases hdoc : encodingFields e.attributes with
  | error failure =>
    rw [hdoc] at hcanonical
    cases hcanonical
  | ok doc =>
    rw [hdoc] at hcanonical
    refine ⟨doc, rfl, fun entry back hentry hback => ?_⟩
    -- the two documents have one canonical form, so they have the same bytes
    have hbytes : Cbor.encodeDocument tidied = .ok entry.bytes := by
      rw [← Cbor.encodeDocument_canonical, Except.ok.inj hcanonical, Cbor.encodeDocument_canonical]
      exact (Stored.ofDocument_ok hentry).2
    obtain ⟨rfl, hsized, -⟩ := Stored.document_of_encode hbytes hback
    obtain ⟨bytes, back, hbytes', hdecode, hrun⟩ := hinflate hsized
    rw [hbytes] at hbytes'
    cases hbytes'
    rw [Stored.document, hdecode] at hback
    cases hback
    exact hrun

end Registry
end Folio
