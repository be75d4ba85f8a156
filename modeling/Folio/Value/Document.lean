import Folio.Value.Basic

/-!
# Operations on documents

A field is found by its name or, one name per level, by a dotted path.
Inserting under a name that is present replaces the value where it stands;
a new name goes to the end.

Results:
* `get?_insert`: after an insertion the name has the new value and every other
  name the value it had.
* `keys_insert`: an insertion moves no field.
* `exchange_eq`, `take_eq`: the value that is given back is the one that was there.
-/
namespace Folio.Document

/-- The document without fields. -/
def empty : Document := ⟨[]⟩

/-- The value under a name. -/
def lookup (key : String) : List (String × Value) → Option Value
  | [] => none
  | (k, v) :: rest => if k = key then some v else lookup key rest

/-- The fields with `value` under `key`. -/
def put (key : String) (value : Value) : List (String × Value) → List (String × Value)
  | [] => [(key, value)]
  | (k, v) :: rest => if k = key then (k, value) :: rest else (k, v) :: put key value rest

/-- The fields without the first one named `key`. -/
def drop (key : String) : List (String × Value) → List (String × Value)
  | [] => []
  | (k, v) :: rest => if k = key then rest else (k, v) :: drop key rest

/-- The value of a field. -/
def get? (doc : Document) (key : String) : Option Value := lookup key doc.fields

/-- The document with a field added or replaced in place. -/
def insert (doc : Document) (key : String) (value : Value) : Document :=
  ⟨put key value doc.fields⟩

/-- The document without a field. -/
def erase (doc : Document) (key : String) : Document := ⟨drop key doc.fields⟩

/-- The value that the first field named `key` has, and the fields with `value` in its
place. -/
def swap (key : String) (value : Value) :
    List (String × Value) → Option Value × List (String × Value)
  | [] => (none, [(key, value)])
  | (k, v) :: rest =>
    if k = key then (some v, (k, value) :: rest)
    else
      let (old, rest) := swap key value rest
      (old, (k, v) :: rest)

/-- The value of the first field named `key`, and the fields without it. -/
def pull (key : String) : List (String × Value) → Option Value × List (String × Value)
  | [] => (none, [])
  | (k, v) :: rest =>
    if k = key then (some v, rest)
    else
      let (old, rest) := pull key rest
      (old, (k, v) :: rest)

/-- Adds a field or replaces it in place, and gives the value that was replaced. -/
def exchange (doc : Document) (key : String) (value : Value) : Option Value × Document :=
  let (old, fields) := swap key value doc.fields
  (old, ⟨fields⟩)

/-- Removes a field and gives its value. -/
def take (doc : Document) (key : String) : Option Value × Document :=
  let (old, fields) := pull key doc.fields
  (old, ⟨fields⟩)

/-- The document of the pairs, inserted one after another. -/
def ofList (pairs : List (String × Value)) : Document :=
  pairs.foldl (fun doc p => doc.insert p.1 p.2) empty

/-- Whether a field is present. -/
def contains (doc : Document) (key : String) : Bool := (doc.get? key).isSome

/-- The names of the fields, in order. -/
def keys (doc : Document) : List String := doc.fields.map (·.1)

/-- The number of fields. -/
def size (doc : Document) : Nat := doc.fields.length

/-- Whether there is no field. -/
def isEmpty (doc : Document) : Bool := doc.fields.isEmpty

/-- Each name stands once. -/
def Distinct (doc : Document) : Prop := doc.keys.Nodup

/-- The value at the end of a chain of names, through nested documents. -/
def walk (doc : Document) : (first : String) → (rest : List String) → Option Value
  | first, [] => doc.get? first
  | first, next :: rest => do walk (← (← doc.get? first).document?) next rest

/-- The parts of a text between its dots. There is always at least one. -/
def splitDots : List Char → List Char × List (List Char)
  | [] => ([], [])
  | c :: rest =>
    let (first, more) := splitDots rest
    if c = '.' then ([], first :: more) else (c :: first, more)

/-- The value at a dotted path. -/
def getPath? (doc : Document) (path : String) : Option Value :=
  let (first, rest) := splitDots path.toList
  doc.walk (String.ofList first) (rest.map String.ofList)

@[simp] theorem lookup_put (key k : String) (v : Value) (fields : List (String × Value)) :
    lookup k (put key v fields) = if k = key then some v else lookup k fields := by
  induction fields with
  | nil => simp only [put, lookup]; grind
  | cons f rest ih => obtain ⟨l, w⟩ := f; grind [put, lookup]

@[simp] theorem get?_insert (doc : Document) (key k : String) (v : Value) :
    (doc.insert key v).get? k = if k = key then some v else doc.get? k :=
  lookup_put ..

theorem keys_insert (doc : Document) (key : String) (v : Value) :
    (doc.insert key v).keys = if key ∈ doc.keys then doc.keys else doc.keys ++ [key] := by
  obtain ⟨fields⟩ := doc
  simp only [insert, keys]
  induction fields with
  | nil => simp [put]
  | cons f rest ih => obtain ⟨l, w⟩ := f; simp only [put]; grind

theorem swap_eq (key : String) (v : Value) (fields : List (String × Value)) :
    swap key v fields = (lookup key fields, put key v fields) := by
  induction fields with
  | nil => rfl
  | cons f rest ih => obtain ⟨l, w⟩ := f; grind [swap, lookup, put]

theorem pull_eq (key : String) (fields : List (String × Value)) :
    pull key fields = (lookup key fields, drop key fields) := by
  induction fields with
  | nil => rfl
  | cons f rest ih => obtain ⟨l, w⟩ := f; grind [pull, lookup, drop]

theorem exchange_eq (doc : Document) (key : String) (v : Value) :
    doc.exchange key v = (doc.get? key, doc.insert key v) := by
  rw [exchange, swap_eq]
  rfl

theorem take_eq (doc : Document) (key : String) :
    doc.take key = (doc.get? key, doc.erase key) := by
  rw [take, pull_eq]
  rfl

end Folio.Document
