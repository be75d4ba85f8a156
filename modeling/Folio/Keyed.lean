/-!
# Lists sorted by name

Small maps from names to values: lists of pairs in the order of their names,
each name once.

Results:
* `get?_insert`: after an insertion the name has the new value and every other
  name the value it had.
-/
namespace Folio.Keyed

variable {α : Type}

/-- The value under a name. -/
def get? (key : String) : List (String × α) → Option α
  | [] => none
  | (k, a) :: rest => if k = key then some a else get? key rest

/-- The list with `a` under `key`, in its place or instead of what is there. -/
def insert (key : String) (a : α) : List (String × α) → List (String × α)
  | [] => [(key, a)]
  | (k, b) :: rest =>
    if k = key then (key, a) :: rest
    else if key < k then (key, a) :: (k, b) :: rest
    else (k, b) :: insert key a rest

/-- The list without a name. -/
def erase (key : String) (entries : List (String × α)) : List (String × α) :=
  entries.filter fun e => e.1 ≠ key

/-- The list with `a` under `key`, unless the name is there. -/
def insertIfAbsent (key : String) (a : α) (entries : List (String × α)) : List (String × α) :=
  if (get? key entries).isSome then entries else insert key a entries

/-- The list with a name set, or without it. -/
def set (key : String) (a : Option α) (entries : List (String × α)) : List (String × α) :=
  match a with
  | some a => insert key a entries
  | none => erase key entries

/-- The list of the pairs, inserted one after another. -/
def ofList (pairs : List (String × α)) : List (String × α) :=
  pairs.foldl (fun entries p => insert p.1 p.2 entries) []

@[simp] theorem get?_insert (key k : String) (a : α) (entries : List (String × α)) :
    get? k (insert key a entries) = if k = key then some a else get? k entries := by
  induction entries with
  | nil => simp only [insert, get?]; grind
  | cons e rest ih => obtain ⟨l, b⟩ := e; grind [insert, get?]

@[simp] theorem get?_erase (key k : String) (entries : List (String × α)) :
    get? k (erase key entries) = if k = key then none else get? k entries := by
  induction entries with
  | nil => simp [erase, get?]
  | cons e rest ih => obtain ⟨l, b⟩ := e; grind [erase, get?]

end Folio.Keyed
