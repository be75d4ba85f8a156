import Folio.Proofs.Entity.Storable
import Folio.Proofs.Value.Equality

/-!
# Entities with their documents in order

A document that stands in an entity is kept in canonical order, so an entity
comes back with each such document tidied. Tidying takes nothing from what a
property may hold, and it makes another value only where a name was out of
order.

Results:
* `Kept.tidy`: what a property keeps, it keeps when it is tidied.
* `reachable_tidy`: tidied, entities are still entities of their classes.
* `tidy_beq_iff`: a value equals its tidied form if the names in its documents
  ascend.
-/
namespace Folio

variable {names : Names} {s : Schema}

namespace FieldValue

mutual

/-- The value with every document in it in canonical order. -/
def tidy : FieldValue → FieldValue
  | list items => list (tidyItems items)
  | entity ⟨c, d, fields⟩ => entity ⟨c, d, tidyFields fields⟩
  | document doc => document doc.canonical
  | v => v

/-- Each item with its documents in canonical order. -/
def tidyItems : List FieldValue → List FieldValue
  | [] => []
  | v :: rest => tidy v :: tidyItems rest

/-- Each property with its documents in canonical order. -/
def tidyFields : List (String × FieldValue) → List (String × FieldValue)
  | [] => []
  | (k, v) :: rest => (k, tidy v) :: tidyFields rest

end

theorem tidyItems_eq_map (items : List FieldValue) : tidyItems items = items.map tidy := by
  induction items with
  | nil => rfl
  | cons v rest ih => rw [tidyItems, ih, List.map_cons]

theorem tidyFields_eq_map (fields : Fields) :
    tidyFields fields = fields.map fun a => (a.1, a.2.tidy) := by
  induction fields with
  | nil => rfl
  | cons a rest ih => rw [tidyFields, ih, List.map_cons]

end FieldValue

/-- The entity with every document in it in canonical order. -/
def Entity.tidy (e : Entity) : Entity :=
  { e with attributes := e.attributes.map fun a => (a.1, a.2.tidy) }

namespace FieldValue

theorem tidy_list (items : List FieldValue) : (list items).tidy = list (items.map tidy) := by
  rw [tidy, tidyItems_eq_map]

theorem tidy_entity (e : Entity) : (entity e).tidy = entity e.tidy := by
  obtain ⟨c, d, fields⟩ := e
  rw [tidy, tidyFields_eq_map, Entity.tidy]

/-- A leaf is tidied as it is, unless it is a document. -/
theorem tidy_leaf {v : FieldValue} (hl : v.isLeaf = true) (hv : ∀ doc, v ≠ document doc) :
    v.tidy = v := by
  cases v with
  | document doc => exact absurd rfl (hv doc)
  | list items => cases hl
  | entity e => cases hl
  | _ => rfl

theorem isLeaf_tidy (v : FieldValue) : v.tidy.isLeaf = v.isLeaf := by
  cases v with
  | entity e => rw [tidy_entity]; rfl
  | _ => rfl

/-! ## What properties keep -/

theorem type_tidy (v : FieldValue) : v.tidy.type = v.type := by
  cases v with
  | entity e => rw [tidy_entity]; rfl
  | _ => rfl

theorem list?_tidy (v : FieldValue) : v.tidy.list? = v.list?.map (List.map tidy) := by
  cases v with
  | entity e => rw [tidy_entity]; rfl
  | list items => rw [tidy_list]; rfl
  | _ => rfl

theorem fits_tidy (t : ValueType) (v : FieldValue) : v.tidy.fits s t = v.fits s t := by
  induction t generalizing v with
  | list u ih =>
    have hall : ∀ v : FieldValue, v.fits s (.list u) = (v.list?.any fun items => items.all (fits s u)) := by
      intro v
      cases v <;> rfl
    rw [hall, hall, list?_tidy]
    cases v.list? with
    | none => rfl
    | some items => simp only [Option.map_some, Option.any_some, List.all_map, Function.comp_def, ih]
  | entity c =>
    cases v with
    | entity e => rw [tidy_entity]; rfl
    | list items => rw [tidy_list]; rfl
    | _ => rfl
  | any => cases v.tidy <;> cases v <;> rfl
  | _ =>
    show (v.tidy.type == _) = (v.type == _)
    rw [type_tidy]

theorem hasNaN_tidy (v : FieldValue) : v.tidy.hasNaN = false ↔ v.hasNaN = false := by
  induction v using tree with
  | leaf v hl =>
    cases v with
    | document doc =>
      obtain ⟨fields⟩ := doc
      exact Value.hasNaN_canonical (v := .document ⟨fields⟩)
    | list items => cases hl
    | entity e => cases hl
    | _ => exact Iff.rfl
  | list items ih =>
    rw [tidy_list, hasNaN_list, hasNaN_list, List.forall_mem_map]
    exact forall₂_congr ih
  | entity e =>
    rw [tidy_entity]
    exact Iff.rfl

theorem untyped_tidy {v : FieldValue} (h : v.untyped = .ok v) : v.tidy.untyped = .ok v.tidy := by
  induction v using tree with
  | leaf v hl =>
    cases v with
    | document doc => rfl
    | list items => cases hl
    | entity e => cases hl
    | _ => exact h
  | list items ih =>
    obtain ⟨ws, hws, heq⟩ := untyped_list.1 h
    cases heq
    rw [tidy_list]
    refine untyped_list.2 ⟨_, mapM_self (List.forall_mem_map.2 fun v hv => ?_), rfl⟩
    exact ih v hv (self_of_mapM hws v hv)
  | entity e => cases h

theorem storedForm_tidy {t : ValueType} {v : FieldValue} (h : v.storedForm t = .ok v) :
    v.tidy.storedForm t = .ok v.tidy := by
  induction t generalizing v with
  | any => exact untyped_tidy h
  | list u ih =>
    cases v with
    | list items =>
      obtain ⟨ws, hws, heq⟩ := storedForm_list.1 h
      cases heq
      rw [tidy_list]
      refine storedForm_list.2 ⟨_, mapM_self (List.forall_mem_map.2 fun v hv => ?_), rfl⟩
      exact ih (self_of_mapM hws v hv)
    | entity e => rw [tidy_entity]; rfl
    | document doc => rfl
    | _ => exact h
  | _ => exact storedForm_of_scalar _ (fun h => by cases h) fun _ h => by cases h

/-- What a property keeps, it keeps when it is tidied. -/
theorem Kept.tidy {t : ValueType} {v : FieldValue} (h : v.Kept s t) : v.tidy.Kept s t :=
  ⟨(fits_tidy t v).trans h.fits, (hasNaN_tidy v).2 h.number, storedForm_tidy h.stored⟩

/-! ## Tidied entities -/

theorem get?_tidy (k : String) (fields : Fields) :
    Keyed.get? k (fields.map fun a => (a.1, a.2.tidy)) = (Keyed.get? k fields).map tidy := by
  induction fields with
  | nil => rfl
  | cons a rest ih =>
    obtain ⟨l, v⟩ := a
    rw [List.map_cons, Keyed.get?, Keyed.get?]
    split
    · rfl
    · exact ih

/-- The entities in a tidied value are reachable if those in the value are. -/
theorem reachable_partOf_tidy {v : FieldValue}
    (hr : ∀ n, (entity n).PartOf v → n.Reachable s names.Knows) (hs : v.tidy.Storable s names) :
    ∀ n, (entity n).PartOf v.tidy → n.Reachable s names.Knows := by
  induction v using tree with
  | leaf v hl =>
    intro n hp
    have htidy : v.tidy.isLeaf = true := (isLeaf_tidy v).trans hl
    rw [← eq_of_partOf_leaf htidy hp] at htidy
    cases htidy
  | list items ih =>
    rw [tidy_list] at hs ⊢
    intro n hp
    cases hp with
    | item hv hp =>
      obtain ⟨v, hm, rfl⟩ := List.mem_map.1 hv
      exact ih v hm (fun n hn => hr n (.item hm hn)) (hs.item hv) n hp
  | entity e ih =>
    rw [tidy_entity] at hs ⊢
    have hreach := hr e (.whole _)
    have hnested : ∀ a ∈ e.tidy.attributes, ∀ n, (FieldValue.entity n).PartOf a.2 →
        n.Reachable s names.Knows := by
      intro a ha
      obtain ⟨b, hb, rfl⟩ := List.mem_map.1 ha
      exact ih b hb (fun n hn => hr n (.property hb hn)) (hs.property ha)
    intro n hp
    cases hp with
    | property ha hp => exact hnested _ ha n hp
    | whole =>
      have hclear : s.Clear names e.cls := hs.here.1
      have hself : e.tidy = ⟨e.cls, Descriptor.ofClass s e.cls, e.tidy.attributes⟩ := by
        rw [← hreach.descriptor]
        rfl
      rw [hself]
      refine .of_kept hclear.known hreach.sound.form ?_ ?_ ?_ hnested
      · exact List.pairwise_map.2 hreach.sound.sorted
      · rw [← hreach.descriptor]
        refine List.forall_mem_map.2 fun a ha => ?_
        exact (hreach.kept_typeOf hclear ha).tidy
      · intro p hp
        have hset := hreach.complete hreach.descriptor hclear.agrees p (hreach.descriptor ▸ hp)
        rw [Entity.tidy, get?_tidy, Option.isSome_map]
        exact hset

/-! ## Where tidying makes no difference -/

/-- The names ascend in every document in the value. -/
def Tidy (v : FieldValue) : Prop :=
  ∀ doc, (document doc).PartOf v → (Value.document doc).everywhere Value.ordered = true

theorem tidy_document_iff {doc : Document} :
    (document doc).Tidy ↔ (Value.document doc).everywhere Value.ordered = true := by
  refine ⟨fun h => h doc (.whole _), fun h other hp => ?_⟩
  cases eq_of_partOf_leaf rfl hp
  exact h

theorem tidy_list_iff {items : List FieldValue} : (list items).Tidy ↔ ∀ v ∈ items, v.Tidy := by
  refine ⟨fun h v hv doc hp => h doc (.item hv hp), fun h doc hp => ?_⟩
  cases hp with
  | item hv hp => exact h _ hv doc hp

theorem tidy_entity_iff {e : Entity} : (entity e).Tidy ↔ ∀ a ∈ e.attributes, a.2.Tidy := by
  refine ⟨fun h a ha doc hp => h doc (.property ha hp), fun h doc hp => ?_⟩
  cases hp with
  | property ha hp => exact h _ ha doc hp

theorem Tidy.of_leaf {v : FieldValue} (hl : v.isLeaf = true) (hv : ∀ doc, v ≠ document doc) :
    v.Tidy :=
  fun doc hp => absurd (eq_of_partOf_leaf hl hp).symm (hv doc)

theorem beq_list (items others : List FieldValue) :
    (list items == list others) = equalItems items others := rfl

theorem beq_entity (e f : Entity) :
    (entity e == entity f) =
      (e.cls.name == f.cls.name && equalFields e.attributes f.attributes) := by
  cases e
  cases f
  rfl

theorem equalItems_tidy (items : List FieldValue) :
    equalItems (items.map tidy) items = items.all fun v => v.tidy == v := by
  induction items with
  | nil => rfl
  | cons v rest ih => rw [List.map_cons, equalItems, ih]; rfl

theorem equalFields_tidy (fields : Fields) :
    equalFields (fields.map fun a => (a.1, a.2.tidy)) fields = fields.all fun a => a.2.tidy == a.2 := by
  induction fields with
  | nil => rfl
  | cons a rest ih =>
    obtain ⟨k, v⟩ := a
    rw [List.map_cons, equalFields, ih, beq_self_eq_true, Bool.true_and]
    rfl

/-- A leaf without NaN equals itself. -/
theorem beq_leaf {v : FieldValue} (hl : v.isLeaf = true) (hn : v.hasNaN = false) :
    (v == v) = true := by
  cases v with
  | list items => cases hl
  | entity e => cases hl
  | float x => exact Number.Floating.beq_self hn
  | double x => exact Number.Floating.beq_self hn
  | document doc =>
    obtain ⟨fields⟩ := doc
    exact Value.beq_self (v := .document ⟨fields⟩) hn
  | enum e => show EnumValue.same e e = true; simp [EnumValue.same]
  | _ => show equal _ _ = true; simp [equal]

/-- A value equals its tidied form if the names in its documents ascend. -/
theorem tidy_beq_iff {v : FieldValue} (hr : ∀ n, (entity n).PartOf v → n.Reachable s names.Knows)
    (hn : v.hasNaN = false) (hs : v.tidy.Storable s names) : (v.tidy == v) = true ↔ v.Tidy := by
  induction v using tree with
  | leaf v hl =>
    by_cases hv : ∃ doc, v = document doc
    · obtain ⟨⟨fields⟩, rfl⟩ := hv
      rw [tidy_document_iff]
      exact Value.canonical_beq_iff (v := .document ⟨fields⟩) hn (Value.canonical_ordered.1 hs.here)
    · have hv' : ∀ doc, v ≠ document doc := fun doc h => hv ⟨doc, h⟩
      rw [tidy_leaf hl hv']
      exact iff_of_true (beq_leaf hl hn) (.of_leaf hl hv')
  | list items ih =>
    rw [tidy_list] at hs ⊢
    rw [tidy_list_iff, beq_list, equalItems_tidy, List.all_eq_true]
    refine forall₂_congr fun v hv => ?_
    exact ih v hv (fun n hp => hr n (.item hv hp)) (hasNaN_list.1 hn v hv)
      (hs.item (List.mem_map_of_mem hv))
  | entity e ih =>
    rw [tidy_entity] at hs ⊢
    rw [tidy_entity_iff, beq_entity, Entity.tidy, equalFields_tidy, beq_self_eq_true, Bool.true_and,
      List.all_eq_true]
    refine forall₂_congr fun a ha => ?_
    obtain ⟨t, -, hk⟩ := (hr e (.whole _)).sound.kept a ha
    exact ih a ha (fun n hp => hr n (.property ha hp)) hk.number
      (hs.property (List.mem_map_of_mem (f := fun a : String × FieldValue => (a.1, a.2.tidy)) ha))

end FieldValue
end Folio
