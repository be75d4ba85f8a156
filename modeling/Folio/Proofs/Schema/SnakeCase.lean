import Folio.Schema.Naming

/-!
# Collections named after classes

Where no table of a class's lineage has a name, the collection is named after
the class, in snake case. Of a name of letters and digits with a capital first
nothing is lost by that: every underscore stands before what was a capital
letter, so the name can be put together again.

Results:
* `camelCase_snakeChars`: the capital letters are found again.
* `collection?_eq`: a collection's name is its base behind the namespace.
* `snakeCase_capitalised`: what the snake case of such a name is, and that two
  classes of different names do not share it.
-/
namespace Folio

namespace Text

/-! ## Letters of ASCII -/

theorem forall_ascii {P : Char → Prop} (h : ∀ n < 128, P (Char.ofNat n)) {c : Char}
    (hc : c.toNat < 128) : P c := by
  have := h c.toNat hc
  rwa [Char.ofNat_toNat] at this

theorem isAlphanum_of_isUpper {c : Char} (h : c.isUpper = true) : c.isAlphanum = true :=
  Bool.or_eq_true_iff.2 (.inl (Bool.or_eq_true_iff.2 (.inl h)))

theorem ascii_of_le {c z : Char} (h : c.val ≤ z.val) (hz : z.toNat < 128) : c.toNat < 128 :=
  Nat.lt_of_le_of_lt (UInt32.le_iff_toNat_le.1 h) hz

theorem ascii_of_isAlphanum {c : Char} (h : c.isAlphanum = true) : c.toNat < 128 := by
  rcases Bool.or_eq_true_iff.1 h with h | hdigit
  · rcases Bool.or_eq_true_iff.1 h with hupper | hlower
    · exact ascii_of_le (of_decide_eq_true hupper).2 (by decide)
    · exact ascii_of_le (of_decide_eq_true (Bool.and_eq_true_iff.1 hlower).2) (by decide)
  · exact ascii_of_le (of_decide_eq_true (Bool.and_eq_true_iff.1 hdigit).2) (by decide)

theorem upperRanges_ascii : ∀ r ∈ upperRanges, r = (65, 90) ∨ 128 ≤ r.1 := by
  decide +kernel

/-- Among the characters of ASCII the upper case ones are the 26 capital letters. -/
theorem isUpper_ascii {c : Char} (h : c.toNat < 128) : isUpper c = c.isUpper := by
  refine Bool.eq_iff_iff.2 ⟨fun hu => ?_, isUpper_of_isUpper⟩
  obtain ⟨r, hr, hlow, hhigh⟩ := inRanges_iff.1 hu
  rcases upperRanges_ascii r hr with rfl | hr
  · exact decide_eq_true ⟨UInt32.le_iff_toNat_le.2 hlow, UInt32.le_iff_toNat_le.2 hhigh⟩
  · omega

theorem lower_eq_toLower {c : Char} (h : c.isUpper = true) : lower c = [c.toLower] :=
  forall_ascii (P := fun c => c.isUpper = true → lower c = [c.toLower]) (by decide +kernel)
    (ascii_of_isAlphanum (isAlphanum_of_isUpper h)) h

theorem isUpper_toLower {c : Char} (h : c.toNat < 128) : isUpper c.toLower = false := by
  have hlower : c.toLower.toNat < 128 ∧ c.toLower.isUpper = false :=
    forall_ascii (P := fun c => c.toLower.toNat < 128 ∧ c.toLower.isUpper = false)
      (by decide +kernel) h
  rw [isUpper_ascii hlower.1, hlower.2]

theorem toLower_of_isUpper {c : Char} (h : c.isUpper = false) : c.toLower = c :=
  dif_neg (of_decide_eq_false h)

theorem toUpper_toLower {c : Char} (h : c.isUpper = true) : c.toLower.toUpper = c :=
  forall_ascii (P := fun c => c.isUpper = true → c.toLower.toUpper = c) (by decide +kernel)
    (ascii_of_isAlphanum (isAlphanum_of_isUpper h)) h

theorem toLower_ne_underscore {c : Char} (h : c.isAlphanum = true) : c.toLower ≠ '_' :=
  forall_ascii (P := fun c => c.isAlphanum = true → c.toLower ≠ '_') (by decide +kernel)
    (ascii_of_isAlphanum h) h

end Text

namespace Naming

/-! ## Names of letters and digits -/

/-- A name of letters and digits of ASCII with a capital letter first. -/
def capitalised (name : String) : Bool :=
  name.toList.head?.any Char.isUpper && name.toList.all Char.isAlphanum

theorem capitalised_iff {name : String} :
    capitalised name = true ↔ ∃ c rest, name.toList = c :: rest ∧ c.isUpper = true ∧
      ∀ x ∈ c :: rest, x.isAlphanum = true := by
  unfold capitalised
  cases name.toList with
  | nil => simp
  | cons c rest => simp [and_assoc]

/-- A letter or digit after the first becomes a small one, behind an underscore if it is
a capital letter. -/
theorem snakeTail_alphanum {c : Char} (h : c.isAlphanum = true) :
    snakeTail c = if c.isUpper then ['_', c.toLower] else [c.toLower] := by
  rw [snakeTail, Text.isUpper_ascii (Text.ascii_of_isAlphanum h)]
  cases hu : c.isUpper with
  | true => simp [Text.lower_eq_toLower hu]
  | false => simp [Text.toLower_of_isUpper hu]

theorem snakeChars_cons {c : Char} (h : c.isUpper = true) (rest : List Char) :
    snakeChars (c :: rest) = c.toLower :: rest.flatMap snakeTail := by
  rw [snakeChars, if_pos (Text.isUpper_of_isUpper h), Text.lower_eq_toLower h]
  rfl

theorem toList_snakeCase (name : String) : (snakeCase name).toList = snakeChars name.toList :=
  String.toList_ofList

section

variable {rest : List Char}

theorem isUpper_flatMap_snakeTail (h : ∀ c ∈ rest, c.isAlphanum = true) :
    ∀ x ∈ rest.flatMap snakeTail, Text.isUpper x = false := by
  intro x hx
  obtain ⟨c, hc, hx⟩ := List.mem_flatMap.1 hx
  rw [snakeTail_alphanum (h c hc)] at hx
  have hlower := Text.isUpper_toLower (Text.ascii_of_isAlphanum (h c hc))
  split at hx
  · rcases List.mem_cons.1 hx with rfl | hx
    · decide +kernel
    · rwa [List.mem_singleton.1 hx]
  · rwa [List.mem_singleton.1 hx]

theorem filter_flatMap_snakeTail (h : ∀ c ∈ rest, c.isAlphanum = true) :
    (rest.flatMap snakeTail).filter (· ≠ '_') = rest.map Char.toLower := by
  induction rest with
  | nil => rfl
  | cons c rest ih =>
    have hc := h c List.mem_cons_self
    have hone : (snakeTail c).filter (· ≠ '_') = [c.toLower] := by
      rw [snakeTail_alphanum hc]
      split <;> simp [Text.toLower_ne_underscore hc]
    rw [List.flatMap_cons, List.filter_append, hone, ih fun x hx => h x (List.mem_cons_of_mem c hx)]
    rfl

end

/-! ## Out of snake case -/

/-- The characters after the first, out of snake case: what stands behind an underscore
was a capital letter. -/
def camelTail : List Char → List Char
  | '_' :: c :: rest => c.toUpper :: camelTail rest
  | c :: rest => c :: camelTail rest
  | [] => []

/-- A name with a capital letter first, out of snake case. -/
def camelCase : List Char → List Char
  | [] => []
  | c :: rest => c.toUpper :: camelTail rest

theorem camelTail_cons {c : Char} (h : c ≠ '_') (rest : List Char) :
    camelTail (c :: rest) = c :: camelTail rest := by
  rw [camelTail]
  rintro d more rfl
  exact absurd rfl h

theorem camelTail_flatMap {rest : List Char} (h : ∀ c ∈ rest, c.isAlphanum = true) :
    camelTail (rest.flatMap snakeTail) = rest := by
  induction rest with
  | nil => rfl
  | cons c rest ih =>
    have hc := h c List.mem_cons_self
    have hrest := ih fun x hx => h x (List.mem_cons_of_mem c hx)
    rw [List.flatMap_cons, snakeTail_alphanum hc]
    cases hu : c.isUpper with
    | true =>
      show camelTail ('_' :: c.toLower :: rest.flatMap snakeTail) = _
      rw [camelTail, Text.toUpper_toLower hu, hrest]
    | false =>
      show camelTail (c.toLower :: rest.flatMap snakeTail) = _
      rw [camelTail_cons (Text.toLower_ne_underscore hc), Text.toLower_of_isUpper hu, hrest]

theorem camelCase_snakeChars {name : String} (h : capitalised name = true) :
    camelCase (snakeChars name.toList) = name.toList := by
  obtain ⟨c, rest, hname, hu, hall⟩ := capitalised_iff.1 h
  rw [hname, snakeChars_cons hu, camelCase, Text.toUpper_toLower hu,
    camelTail_flatMap fun x hx => hall x (List.mem_cons_of_mem c hx)]

theorem eq_of_snakeCase {name other : String} (hn : capitalised name = true)
    (ho : capitalised other = true) (h : snakeCase other = snakeCase name) : other = name := by
  have hchars : snakeChars other.toList = snakeChars name.toList := by
    rw [← toList_snakeCase, ← toList_snakeCase, h]
  refine String.toList_inj.1 ?_
  rw [← camelCase_snakeChars ho, ← camelCase_snakeChars hn, hchars]

/-! ## Collections -/

variable {s : Schema} {c d : ClassRef}

/-- The base of the name of a class's collection: the first table that names, else the
class's own name in snake case. -/
def base? (s : Schema) (c : ClassRef) : Option String :=
  match (s.lineage c).filterMap (·.table) with
  | [] => none
  | tables => some ((tables.find? (· ≠ "")).getD (snakeCase (EntityClass.simpleName c.name)))

/-- What stands before the base: the first namespace that is not empty, with an underscore
behind it. -/
def lead (s : Schema) (c : ClassRef) : String :=
  match ((s.lineage c).filterMap (·.nameSpace)).find? (· ≠ "") with
  | some space => if space.toList.getLast? = some '_' then space else space ++ "_"
  | none => ""

/-- A collection's name is its base behind the namespace. -/
theorem collection?_eq (s : Schema) (c : ClassRef) :
    collection? s c = (base? s c).map (lead s c ++ ·) := by
  simp only [collection?, base?, lead]
  generalize (s.lineage c).filterMap (·.table) = tables
  generalize ((s.lineage c).filterMap (·.nameSpace)).find? (· ≠ "") = space
  cases tables with
  | nil => rfl
  | cons table tables =>
    simp only [Option.map_some]
    generalize (table :: tables).find? (· ≠ "") = named
    cases named <;> cases space <;> simp only [Option.getD_some, Option.getD_none,
      String.empty_append]
    all_goals split <;> rfl

/-- The lineage has table markers, and all of them are empty. -/
def NamedByClass (s : Schema) (c : ClassRef) : Prop :=
  (s.lineage c).filterMap (·.table) ≠ [] ∧ ∀ t ∈ (s.lineage c).filterMap (·.table), t = ""

theorem NamedByClass.base? (h : NamedByClass s c) :
    base? s c = some (snakeCase (EntityClass.simpleName c.name)) := by
  have hnone : ((s.lineage c).filterMap (·.table)).find? (· ≠ "") = none :=
    List.find?_eq_none.2 fun t ht => by simp [h.2 t ht]
  unfold Naming.base?
  split
  · next hnil => exact absurd hnil h.1
  · rw [hnone]
    rfl

/-- In snake case a name of letters and digits with a capital first has no upper case
letter, no underscore in front, and without underscores it is the name in small letters.
No other such name has the same snake case, so collections that are named after classes of
different names have different bases, and different names if their namespaces are the same. -/
theorem snakeCase_capitalised {name : String} (h : capitalised name = true) :
    (∀ x ∈ (snakeCase name).toList, Text.isUpper x = false) ∧
    (snakeCase name).toList.head? ≠ some '_' ∧
    String.ofList ((snakeCase name).toList.filter (· ≠ '_')) = name.toLower ∧
    (∀ other, capitalised other = true → snakeCase other = snakeCase name → other = name) ∧
    ∀ (s : Schema) (c d : ClassRef), NamedByClass s c → NamedByClass s d →
      EntityClass.simpleName c.name = name → capitalised (EntityClass.simpleName d.name) = true →
      EntityClass.simpleName d.name ≠ name →
      ∃ a b, a ≠ b ∧ collection? s c = some (lead s c ++ a) ∧
        collection? s d = some (lead s d ++ b) := by
  obtain ⟨c, rest, hname, hu, hall⟩ := capitalised_iff.1 h
  have hc := hall c List.mem_cons_self
  have hrest : ∀ x ∈ rest, x.isAlphanum = true := fun x hx => hall x (List.mem_cons_of_mem c hx)
  have hlist : (snakeCase name).toList = c.toLower :: rest.flatMap snakeTail := by
    rw [toList_snakeCase, hname, snakeChars_cons hu]
  refine ⟨?_, ?_, ?_, fun other ho => eq_of_snakeCase h ho, ?_⟩
  · intro x hx
    rw [hlist] at hx
    rcases List.mem_cons.1 hx with rfl | hx
    · exact Text.isUpper_toLower (Text.ascii_of_isAlphanum hc)
    · exact isUpper_flatMap_snakeTail hrest x hx
  · rw [hlist, List.head?_cons, ne_eq, Option.some.injEq]
    exact Text.toLower_ne_underscore hc
  · have hlower : name.toLower.toList = name.toList.map Char.toLower := String.toList_map ..
    refine String.toList_inj.1 ?_
    rw [String.toList_ofList, hlist, List.filter_cons_of_pos
      (by simpa using Text.toLower_ne_underscore hc), filter_flatMap_snakeTail hrest, hlower,
      hname]
    rfl
  · intro s c d hc hd hcname hdname hne
    refine ⟨_, _, fun heq => hne ?_, by rw [collection?_eq, hc.base?]; rfl,
      by rw [collection?_eq, hd.base?]; rfl⟩
    refine eq_of_snakeCase h hdname ?_
    rw [← heq, hcname]

/-- Two classes that an empty marker lets be stored, whose names differ in one letter's case. -/
def orders : Schema :=
  ⟨[{ name := "shop::SalesOrder", form := .trait, table := some "" },
    { name := "shop::Salesorder", form := .trait, table := some "" }]⟩

theorem namedByClass_orders :
    NamedByClass orders ⟨0, "shop::SalesOrder"⟩ ∧ NamedByClass orders ⟨1, "shop::Salesorder"⟩ := by
  unfold NamedByClass
  rw [Schema.lineage_of_no_parents (d := orders.classes[0]) rfl rfl,
    Schema.lineage_of_no_parents (d := orders.classes[1]) rfl rfl]
  decide

/-- They have the collections "sales_order" and "salesorder". -/
theorem snakeCase_capitalised_orders :
    capitalised "SalesOrder" = true ∧ snakeCase "SalesOrder" = "sales_order" ∧
    ∃ a b, a ≠ b ∧
      collection? orders ⟨0, "shop::SalesOrder"⟩ = some (lead orders ⟨0, "shop::SalesOrder"⟩ ++ a) ∧
      collection? orders ⟨1, "shop::Salesorder"⟩ =
        some (lead orders ⟨1, "shop::Salesorder"⟩ ++ b) := by
  have hname : capitalised "SalesOrder" = true := by decide +kernel
  refine ⟨hname, by decide +kernel, ?_⟩
  obtain ⟨-, -, -, -, hcollections⟩ := snakeCase_capitalised hname
  exact hcollections orders _ _ namedByClass_orders.1 namedByClass_orders.2 (by decide +kernel)
    (by decide +kernel) (by decide +kernel)

end Naming
end Folio
