import Mathlib.Data.List.Pairwise
import Folio.Proofs.Store.Ordering

/-!
# Sorting documents, and paging through them

Where all values of a field are of one type that has an order, sorting by the field
has one right answer: the same documents, by value, with those that lack the field
at one end and documents of one level as they stood. Reading that answer page by
page gives it back, each document once.

Results:
* `eq_of_stable`: a stable order of a list is told by its members.
* `mergeSort_pairwise`, `filter_mergeSort`: sorting needs an order of the members
  only.
* `pages_flatMap`: the pages of a list put together.
* `FindOptions.apply_saturated`: a count that is too large to hold is as good as the
  largest one.
* `FindOptions.sorted_pages`: both for the documents of a search.
-/
namespace Folio

/-! ## Sorting a list -/

section
variable {α : Type} {le : α → α → Bool} {l xs ys : List α}

/-- The members of a list are ordered. -/
structure OrderedBy (le : α → α → Bool) (l : List α) : Prop where
  total : ∀ a ∈ l, ∀ b ∈ l, (le a b || le b a) = true
  trans : ∀ a ∈ l, ∀ b ∈ l, ∀ c ∈ l, le a b = true → le b c = true → le a c = true

namespace OrderedBy

theorem mergeSort_eq (le : α → α → Bool) (l : List α) :
    l.mergeSort le = (l.attach.mergeSort fun a b => le a.1 b.1).map Subtype.val := by
  rw [List.map_mergeSort (s := le) fun _ _ _ _ => rfl, List.attach_map_subtype_val]

theorem mergeSort_pairwise (h : OrderedBy le l) :
    (l.mergeSort le).Pairwise fun a b => le a b = true := by
  rw [mergeSort_eq, List.pairwise_map]
  exact List.pairwise_mergeSort (fun ⟨_, ha⟩ ⟨_, hb⟩ ⟨_, hc⟩ => h.trans _ ha _ hb _ hc)
    (fun ⟨_, ha⟩ ⟨_, hb⟩ => h.total _ ha _ hb) l.attach

theorem sublist_mergeSort (h : OrderedBy le l) (hys : ys.Pairwise fun a b => le a b = true)
    (hsub : ys.Sublist l) : ys.Sublist (l.mergeSort le) := by
  rw [← List.attach_map_subtype_val l, List.sublist_map_iff] at hsub
  obtain ⟨zs, hzs, rfl⟩ := hsub
  rw [mergeSort_eq]
  rw [List.pairwise_map] at hys
  exact (List.sublist_mergeSort (fun ⟨_, ha⟩ ⟨_, hb⟩ ⟨_, hc⟩ => h.trans _ ha _ hb _ hc)
    (fun ⟨_, ha⟩ ⟨_, hb⟩ => h.total _ ha _ hb) hys hzs).map _

/-- Members that are all in order among themselves stay as they stood. -/
theorem filter_mergeSort (h : OrderedBy le l) {p : α → Bool}
    (hp : ∀ a ∈ l, ∀ b ∈ l, p a = true → p b = true → le a b = true) :
    (l.mergeSort le).filter p = l.filter p := by
  have hpairwise : (l.filter p).Pairwise fun a b => le a b = true := by
    refine List.pairwise_of_forall_mem_list fun a ha b hb => ?_
    rw [List.mem_filter] at ha hb
    exact hp a ha.1 b hb.1 ha.2 hb.2
  have hsub := (h.sublist_mergeSort hpairwise List.filter_sublist).filter p
  simp only [List.filter_filter, Bool.and_self] at hsub
  refine (hsub.eq_of_length ?_).symm
  exact ((List.mergeSort_perm l le).filter p).length_eq.symm

end OrderedBy

/-- Two lists of the same members in the same order are equal if members that may
stand either way stand alike in both. -/
theorem eq_of_stable {R : α → α → Prop} (same : α → α → Bool) (hperm : xs.Perm ys)
    (hx : xs.Pairwise R) (hy : ys.Pairwise R) (hrefl : ∀ a ∈ xs, same a a = true)
    (hanti : ∀ a ∈ xs, ∀ b ∈ xs, R a b → R b a → same a b = true)
    (hstable : ∀ a ∈ xs, xs.filter (same a) = ys.filter (same a)) : xs = ys := by
  induction xs generalizing ys with
  | nil => exact hperm.nil_eq
  | cons x xs ih =>
    cases ys with
    | nil => cases hperm.eq_nil
    | cons y ys =>
      rw [List.pairwise_cons] at hx hy
      have hxy : x = y := by
        by_contra hne
        have hyxs : y ∈ xs := by
          have := hperm.symm.subset List.mem_cons_self
          simpa [Ne.symm hne] using this
        have hxys : x ∈ ys := by
          have := hperm.subset List.mem_cons_self
          simpa [hne] using this
        have hlevel := hanti x List.mem_cons_self y (List.mem_cons_of_mem _ hyxs)
          (hx.1 y hyxs) (hy.1 x hxys)
        have hheads := hstable x List.mem_cons_self
        rw [List.filter_cons_of_pos (hrefl x List.mem_cons_self),
          List.filter_cons_of_pos hlevel] at hheads
        exact hne (List.cons.inj hheads).1
      subst hxy
      congr 1
      refine ih hperm.cons_inv hx.2 hy.2 (fun a ha => hrefl a (List.mem_cons_of_mem _ ha))
        (fun a ha b hb => hanti a (List.mem_cons_of_mem _ ha) b (List.mem_cons_of_mem _ hb))
        fun a ha => ?_
      have htails := hstable a (List.mem_cons_of_mem _ ha)
      cases hax : same a x with
      | true =>
        rw [List.filter_cons_of_pos hax, List.filter_cons_of_pos hax] at htails
        exact (List.cons.inj htails).2
      | false => rwa [List.filter_cons_of_neg (by simp [hax]),
          List.filter_cons_of_neg (by simp [hax])] at htails

/-- The first pages of a list, put together. -/
theorem pages_flatMap (l : List α) (n m : Nat) :
    ((List.range m).flatMap fun k => (l.drop (k * n)).take n) = l.take (m * n) := by
  induction m with
  | zero => simp
  | succ m ih =>
    rw [List.range_succ, List.flatMap_append, ih, List.flatMap_singleton, Nat.add_mul,
      Nat.one_mul, List.take_add]

end

/-! ## Sorting documents -/

namespace Query

variable {field : String} {direction : Direction} {docs xs ys : List Document}
  {a b : Document} {x y : Value}

/-- The values of the field are all of one type, and of one that has an order. -/
def Uniform (field : String) (docs : List Document) : Prop :=
  ∃ t ∈ Value.orderedTypes, ∀ doc ∈ docs, ∀ v, doc.getPath? field = some v → v.typeName = t

/-- `a` may stand before `b`. -/
def Precedes (field : String) (direction : Direction) (a b : Document) : Prop :=
  match a.getPath? field, b.getPath? field with
  | none, none => True
  | none, some _ => direction = .ascending
  | some _, none => direction = .descending
  | some x, some y =>
    match direction with
    | .ascending => x.compare? y = some .lt ∨ x.compare? y = some .eq
    | .descending => x.compare? y = some .gt ∨ x.compare? y = some .eq

/-- Whether two documents are equal as far as the field goes. -/
def level (field : String) (a b : Document) : Bool :=
  match a.getPath? field, b.getPath? field with
  | none, none => true
  | some x, some y => x.compare? y == some .eq
  | _, _ => false

/-- `out` holds the documents in order, and equal ones as they stood. -/
structure Sorts (field : String) (direction : Direction) (docs out : List Document) : Prop where
  perm : out.Perm docs
  ordered : out.Pairwise (Precedes field direction)
  stable : ∀ doc ∈ docs, out.filter (level field doc) = docs.filter (level field doc)

namespace Uniform

theorem family (h : Uniform field docs) (ha : a ∈ docs) (hb : b ∈ docs)
    (hx : a.getPath? field = some x) (hy : b.getPath? field = some y) :
    ∃ family, x.family? = some family ∧ y.family? = some family := by
  obtain ⟨t, ht, htype⟩ := h
  have hxt := htype a ha x hx
  exact Value.family_of_typeName (hxt.trans (htype b hb y hy).symm) (hxt ▸ ht)

/-- Of two documents, one or both lack the field, or what they have is compared. -/
theorem field_cases (h : Uniform field docs) (ha : a ∈ docs) (hb : b ∈ docs) :
    (a.getPath? field = none ∧ b.getPath? field = none) ∨
    (∃ y, a.getPath? field = none ∧ b.getPath? field = some y) ∨
    (∃ x, a.getPath? field = some x ∧ b.getPath? field = none) ∨
    ∃ x y o, a.getPath? field = some x ∧ b.getPath? field = some y ∧ x.compare? y = some o := by
  cases hx : a.getPath? field with
  | none => cases hy : b.getPath? field <;> simp
  | some x =>
    cases hy : b.getPath? field with
    | none => simp
    | some y =>
      obtain ⟨family, hxf, hyf⟩ := h.family ha hb hx hy
      obtain ⟨o, ho⟩ := Value.exists_compare? hxf hyf
      simp [ho]

theorem coherent (h : Uniform field docs) : Coherent (present field fun doc => doc ∈ docs) := by
  intro x ⟨a, ha, hx⟩ z _ _ y ⟨b, hb, hy⟩
  obtain ⟨family, hyf, hxf⟩ := h.family hb ha hy hx
  obtain ⟨t, -, htype⟩ := h
  exact ⟨hyf.trans hxf.symm,
    Value.not_conflates_of_typeName ((htype b hb y hy).trans (htype a ha x hx).symm)⟩

theorem isLE_iff (h : Uniform field docs) (ha : a ∈ docs) (hb : b ∈ docs) :
    (order field direction a b).isLE = true ↔ Precedes field direction a b := by
  rcases h.field_cases ha hb with ⟨hx, hy⟩ | ⟨y, hx, hy⟩ | ⟨x, hx, hy⟩ | ⟨x, y, o, hx, hy, ho⟩
  · cases direction <;> simp [order, Precedes, hx, hy]
  · cases direction <;> simp [order, Precedes, hx, hy]
  · cases direction <;> simp [order, Precedes, hx, hy]
  · cases direction <;> cases o <;> simp [order, Precedes, hx, hy, ho]

theorem level_iff (h : Uniform field docs) (direction : Direction) (ha : a ∈ docs) (hb : b ∈ docs) :
    level field a b = true ↔ order field direction a b = .eq := by
  rcases h.field_cases ha hb with ⟨hx, hy⟩ | ⟨y, hx, hy⟩ | ⟨x, hx, hy⟩ | ⟨x, y, o, hx, hy, ho⟩
  · cases direction <;> simp [order, level, hx, hy]
  · cases direction <;> simp [order, level, hx, hy]
  · cases direction <;> simp [order, level, hx, hy]
  · cases direction <;> cases o <;> simp [order, level, hx, hy, ho]

theorem level_self (h : Uniform field docs) (ha : a ∈ docs) : level field a a = true := by
  unfold level
  cases hx : a.getPath? field with
  | none => rfl
  | some x =>
    obtain ⟨family, hxf, -⟩ := h.family ha ha hx hx
    simp [Value.compare?_self hxf]

theorem orderedBy (h : Uniform field docs) (direction : Direction) :
    OrderedBy (fun a b => (order field direction a b).isLE) docs where
  total a _ b _ := by
    rw [order_swap field direction a b]
    cases order field direction a b <;> rfl
  trans a ha b hb c hc hab hbc := by
    rw [Ordering.isLE_iff_ne_gt] at hab hbc ⊢
    exact transitive_of_coherent h.coherent direction a ha b hb c hc hab hbc

end Uniform

theorem arrange_sorts (h : Uniform field docs) (direction : Direction) :
    Sorts field direction docs (arrange field direction docs) where
  perm := arrange_perm field direction docs
  ordered := by
    refine (h.orderedBy direction).mergeSort_pairwise.imp_of_mem fun ha hb hle => ?_
    exact (h.isLE_iff (List.mem_mergeSort.1 ha) (List.mem_mergeSort.1 hb)).1 hle
  stable doc hdoc := by
    refine (h.orderedBy direction).filter_mergeSort fun a ha b hb hda hdb => ?_
    rw [h.level_iff direction hdoc ha] at hda
    rw [h.level_iff direction hdoc hb] at hdb
    -- both are equal to `doc`, so `a` is before `doc` and `doc` before `b`
    refine (h.orderedBy direction).trans a ha doc hdoc b hb ?_ ?_
    · rw [order_swap field direction doc a, hda]
      rfl
    · rw [hdb]
      rfl

theorem Sorts.eq (h : Uniform field docs) (hx : Sorts field direction docs xs)
    (hy : Sorts field direction docs ys) : xs = ys := by
  refine eq_of_stable (level field) (hx.perm.trans hy.perm.symm) hx.ordered hy.ordered
    (fun a ha => h.level_self (hx.perm.subset ha)) (fun a ha b hb hab hba => ?_) fun a ha => ?_
  · have ha := hx.perm.subset ha
    have hb := hx.perm.subset hb
    rw [← h.isLE_iff ha hb] at hab
    rw [← h.isLE_iff hb ha, order_swap field direction a b] at hba
    rw [h.level_iff direction ha hb]
    cases ho : order field direction a b <;> simp_all
  · have ha := hx.perm.subset ha
    rw [hx.stable a ha, hy.stable a ha]

end Query

/-! ## Pages -/

namespace FindOptions

variable {field : String} {docs : List Document} {largest : Nat}

/-- The options for page `k` of `n` documents. -/
def page (sort : String × Direction) (n k : Nat) : FindOptions :=
  { skip := some (k * n), limit := some n, sort := some sort }

/-- The options as they are read where no count is larger than `largest`. -/
def saturated (largest : Nat) (options : FindOptions) : FindOptions :=
  { options with
    skip := some (min (options.skip.getD 0) largest)
    limit := some (min (options.limit.getD largest) largest) }

/-- A window on a list that can be counted. -/
theorem window_saturated {α : Type} {l : List α} (hl : l.length ≤ largest)
    (skip limit : Option Nat) :
    (l.drop (min (skip.getD 0) largest)).take (min (limit.getD largest) largest) =
      match limit with
      | some n => (l.drop (skip.getD 0)).take n
      | none => l.drop (skip.getD 0) := by
  have hskip : l.drop (min (skip.getD 0) largest) = l.drop (skip.getD 0) := by
    rw [List.drop_eq_drop_iff]
    omega
  have hrest : (l.drop (skip.getD 0)).length ≤ largest := by
    rw [List.length_drop]
    omega
  rw [hskip]
  cases limit with
  | none => exact List.take_of_length_le (by rw [Option.getD_none]; omega)
  | some n =>
    rw [Option.getD_some, List.take_eq_take_iff]
    omega

/-- Counts that are too large leave no trace among documents that can be counted. -/
theorem apply_saturated (hdocs : docs.length ≤ largest) (options : FindOptions) :
    (options.saturated largest).apply docs = options.apply docs := by
  obtain ⟨skip, limit, sort⟩ := options
  cases sort with
  | none => exact window_saturated hdocs skip limit
  | some s =>
    rw [← (Query.arrange_perm s.1 s.2 docs).length_eq] at hdocs
    exact window_saturated hdocs skip limit

theorem apply_sort (field : String) (direction : Direction) (docs : List Document) :
    FindOptions.apply { sort := some (field, direction) } docs =
      Query.arrange field direction docs := rfl

theorem apply_page (field : String) (direction : Direction) (n k : Nat) (docs : List Document) :
    (page (field, direction) n k).apply docs =
      ((Query.arrange field direction docs).drop (k * n)).take n := rfl

/-- Where the values of the field are of one type, documents are sorted in the one way
that keeps equal ones as they stood, those without the field at the end that their
direction says, and their pages put together are all of them in that order; a count
of a page that is too large to be held does no harm. -/
theorem sorted_pages (h : Query.Uniform field docs) (direction : Direction) :
    (∀ out, Query.Sorts field direction docs out ↔
      FindOptions.apply { sort := some (field, direction) } docs = out) ∧
    ∀ largest n m, docs.length ≤ largest → docs.length ≤ m * n →
      ((List.range m).flatMap fun k =>
          ((page (field, direction) n k).saturated largest).apply docs) =
        FindOptions.apply { sort := some (field, direction) } docs := by
  have hsorts := Query.arrange_sorts h direction
  rw [apply_sort]
  refine ⟨fun out => ⟨fun hout => hsorts.eq h hout, fun hout => hout ▸ hsorts⟩, ?_⟩
  intro largest n m hlargest hall
  simp only [apply_saturated hlargest, apply_page]
  rw [pages_flatMap, List.take_of_length_le]
  rwa [hsorts.perm.length_eq]

/-- Documents with a number, and one without. -/
def marks : List Document :=
  [⟨[("_id", .integer 1), ("n", .integer 2)]⟩, ⟨[("_id", .integer 2)]⟩,
    ⟨[("_id", .integer 3), ("n", .integer 1)]⟩, ⟨[("_id", .integer 4), ("n", .integer 2)]⟩]

/-- They are in order if the two with the greatest number stand as they stood, and the
one without comes last. -/
def sortedMarks : List Document := [0, 3, 2, 1].filterMap (marks[·]?)

theorem marks_uniform : Query.Uniform "n" marks := by
  refine ⟨"integer", by simp [Value.orderedTypes], ?_⟩
  intro doc hdoc v hv
  simp only [marks, List.mem_cons, List.not_mem_nil, or_false] at hdoc
  rcases hdoc with rfl | rfl | rfl | rfl <;> cases hv <;> rfl

theorem sorts_marks : Query.Sorts "n" .descending marks sortedMarks where
  perm := (List.reverse_perm (marks.drop 1)).cons _
  ordered := by
    refine .cons ?_ (.cons ?_ (.cons ?_ (.cons ?_ .nil)))
    · exact List.forall_mem_cons.2 ⟨.inr rfl, List.forall_mem_cons.2 ⟨.inl rfl,
        List.forall_mem_singleton.2 rfl⟩⟩
    · exact List.forall_mem_cons.2 ⟨.inl rfl, List.forall_mem_singleton.2 rfl⟩
    · exact List.forall_mem_singleton.2 rfl
    · exact nofun
  stable := List.forall_mem_cons.2 ⟨rfl, List.forall_mem_cons.2 ⟨rfl, List.forall_mem_cons.2 ⟨rfl,
    List.forall_mem_singleton.2 rfl⟩⟩⟩

theorem sorted_pages_marks : Query.Uniform "n" marks ∧
    FindOptions.apply { sort := some ("n", .descending) } marks = sortedMarks ∧
    ((List.range 2).flatMap fun k =>
      ((page ("n", .descending) 2 k).saturated 4).apply marks) = sortedMarks := by
  obtain ⟨hsorts, hpages⟩ := sorted_pages marks_uniform .descending
  have hsorted := (hsorts sortedMarks).1 sorts_marks
  exact ⟨marks_uniform, hsorted, (hpages 4 2 2 (by decide) (by decide)).trans hsorted⟩

end FindOptions
end Folio
