import Folio.Schema.Basic

/-!
# Lineage

The lineage of a class is the class and its ancestors, depth first, parents in
their declared order, each name once. Parents may form circles.

Results:
* `lineage_nodup`: no name stands twice in a lineage.
* `lineage_eq`: a declared class comes first in its own lineage.
-/
namespace Folio

namespace EntityClass

/-- The characters before the first double colon. -/
def beforeColons : List Char → List Char
  | [] => []
  | ':' :: ':' :: _ => []
  | c :: rest => c :: beforeColons rest

/-- The part of a class name after the last double colon. -/
def simpleName (name : String) : String :=
  String.ofList (beforeColons name.toList.reverse).reverse

end EntityClass

namespace Schema

/-- The declared names that are not yet visited. -/
def unseen (s : Schema) (seen : List EntityClass) : List String :=
  s.names.filter fun n => !(seen.map (·.name)).contains n

theorem length_filter_lt {α : Type} (p q : α → Bool) (h : ∀ x, q x = true → p x = true)
    {xs : List α} {a : α} (ha : a ∈ xs) (hp : p a = true) (hq : q a = false) :
    (xs.filter q).length < (xs.filter p).length := by
  induction xs with
  | nil => simp at ha
  | cons x xs ih =>
    have le : (xs.filter q).length ≤ (xs.filter p).length := by
      simp only [← List.countP_eq_length_filter]
      exact List.countP_mono_left fun y _ => h y
    rcases List.mem_cons.1 ha with rfl | hmem
    · simp [hp, hq]; omega
    · have := ih hmem
      by_cases hqx : q x = true
      · simp [hqx, h x hqx]; omega
      · by_cases hpx : p x = true <;> simp [hqx, hpx] <;> omega

theorem unseen_lt {s : Schema} {seen : List EntityClass} {c : ClassRef} {d : EntityClass}
    (hd : s.find? c = some d) (hn : (seen.map (·.name)).contains d.name = false) :
    (s.unseen (seen ++ [d])).length < (s.unseen seen).length := by
  refine length_filter_lt _ _ ?_ (name_mem_of_find? hd) ?_ ?_
  · intro n; simp; grind
  · simpa using hn
  · simp

/-- Visits the classes on the stack, its head first. A visited class puts its
parents in front. -/
def visit (s : Schema) (seen : List EntityClass) (stack : List ClassRef) : List EntityClass :=
  match stack with
  | [] => seen
  | c :: rest =>
    match _hd : s.find? c with
    | none => visit s seen rest
    | some d =>
      if _hn : (seen.map (·.name)).contains d.name then visit s seen rest
      else visit s (seen ++ [d]) (d.parents ++ rest)
termination_by ((s.unseen seen).length, stack.length)
decreasing_by
  · exact Prod.Lex.right _ (by simp)
  · exact Prod.Lex.right _ (by simp)
  · exact Prod.Lex.left _ _ (unseen_lt _hd (by simpa using _hn))

/-- The class and its ancestors. -/
def lineage (s : Schema) (c : ClassRef) : List EntityClass := s.visit [] [c]

/-- Whether the class or an ancestor implements the capability. -/
def implements (s : Schema) (c : ClassRef) (capability : Capability) : Bool :=
  (s.lineage c).any fun d => d.capabilities.any (·.name == capability.name)

/-- Whether `ancestor` is the class or one of its ancestors. -/
def isA (s : Schema) (c ancestor : ClassRef) : Bool :=
  (s.lineage c).any (·.name == ancestor.name)

/-- The accessors of every class. -/
def baseMethods : List Method :=
  [.getter "getId" .objectId, .getter "getDateCreated" .dateTime,
    .getter "getLastModified" .dateTime]

/-- Adds a method unless one of its name and number of parameters is there. -/
def addMethod (methods : List Method) (m : Method) : List Method :=
  if methods.any fun n => n.name == m.name && n.params.length == m.params.length then methods
  else methods ++ [m]

/-- The methods that a class of the lineage declares: its own, then those of
its capabilities. -/
def declared (d : EntityClass) : List Method :=
  d.methods ++ d.capabilities.flatMap (·.methods)

/-- Every accessor of the class: those of all classes, then those declared
along the lineage. The first declaration wins. -/
def allMethods (s : Schema) (c : ClassRef) : List Method :=
  (baseMethods ++ (s.lineage c).flatMap declared).foldl addMethod []

/-- Whether the class can have instances that are stored: it has a table
marker and a form that can be instantiated. -/
def isEntityClass (s : Schema) (c : ClassRef) : Bool :=
  match s.find? c with
  | none => false
  | some d =>
    d.table.isSome &&
      match d.form with
      | .trait => true
      | .concrete constructible => constructible
      | .abstract => false

theorem visit_nodup (s : Schema) (seen : List EntityClass) (stack : List ClassRef)
    (h : (seen.map (·.name)).Nodup) : ((s.visit seen stack).map (·.name)).Nodup := by
  fun_induction visit s seen stack with
  | case1 => exact h
  | case2 _ _ _ _ ih => exact ih h
  | case3 _ _ _ _ _ _ ih => exact ih h
  | case4 _ _ _ _ _ hn ih =>
    refine ih ?_
    rw [List.map_append, List.nodup_append]
    refine ⟨h, by simp, ?_⟩
    simp only [List.contains_eq_mem, decide_eq_true_eq] at hn
    simp only [List.map_cons, List.map_nil, List.mem_singleton]
    rintro a ha b rfl rfl
    exact hn ha

theorem lineage_nodup (s : Schema) (c : ClassRef) : ((s.lineage c).map (·.name)).Nodup :=
  s.visit_nodup [] [c] (by simp)

theorem lineage_eq {s : Schema} {c : ClassRef} {d : EntityClass} (h : s.find? c = some d) :
    s.lineage c = s.visit [d] d.parents := by
  rw [lineage, visit]
  split
  · simp_all
  · next e he => simp_all

theorem lineage_of_no_parents {s : Schema} {c : ClassRef} {d : EntityClass}
    (h : s.find? c = some d) (hp : d.parents = []) : s.lineage c = [d] := by
  rw [lineage_eq h, hp, visit]

end Schema
end Folio
