import Folio.Bytes

/-!
# Plain data

Plain data is what this library exchanges with other programs: trees of nulls,
flags, whole numbers, texts, lists and objects. Whole numbers that may not fit
another program's numbers are spelt as decimal texts, and byte strings as
hexadecimal texts.

Results:
* `entry_object_nil`: an absent entry is as good as null.
* `toText_text`: a text is read as itself.
-/
namespace Folio

/-- A tree of plain data. -/
inductive Plain where
  | null
  | bool (b : Bool)
  | number (n : Int)
  | text (s : String)
  | list (items : List Plain)
  | object (entries : List (String × Plain))

/-- Plain data that is not what was looked for. -/
inductive PlainFault where
  | expected (what : String)
  /-- A reference to nothing that was declared. -/
  | undeclared (name : String)
  /-- A record that its class refuses. -/
  | refused (reason : String)
  deriving DecidableEq, Repr

namespace PlainFault

/-- The wording of a fault. -/
def message : PlainFault → String
  | expected what => s!"expected {what}"
  | undeclared name => s!"nothing is declared as {name}"
  | refused reason => reason

end PlainFault

namespace Plain

instance : Inhabited Plain := ⟨null⟩

/-- Whether this is null. -/
def isNull : Plain → Bool
  | null => true
  | _ => false

/-- The entry of a name; null if there is none. -/
def entry (p : Plain) (name : String) : Plain :=
  match p with
  | object entries => (entries.lookup name).getD null
  | _ => null

/-- The item at a place; null if there is none. -/
def item (p : Plain) (place : Nat) : Plain :=
  match p with
  | list items => items.getD place null
  | _ => null

theorem entry_object_nil (name : String) : (object []).entry name = null := rfl

/-- The text. -/
def toText : Plain → Except PlainFault String
  | text s => .ok s
  | _ => .error (.expected "a text")

theorem toText_text (s : String) : (text s).toText = .ok s := rfl

/-- The flag. -/
def toFlag : Plain → Bool
  | bool b => b
  | _ => false

/-- The whole number, in decimal if it is a text. -/
def toWhole : Plain → Except PlainFault Int
  | number n => .ok n
  | text s =>
    match s.toInt? with
    | some n => .ok n
    | none => .error (.expected "a decimal")
  | _ => .error (.expected "a whole number")

/-- The items. Null stands for none. -/
def toItems : Plain → Except PlainFault (List Plain)
  | list items => .ok items
  | null => .ok []
  | _ => .error (.expected "a list")

/-- The bytes of pairs of hexadecimal digits. -/
def unhex : List Char → Option Bytes
  | [] => some []
  | [_] => none
  | a :: b :: rest => do
    let high ← Bytes.hexValue? (UInt8.ofNat a.toNat)
    let low ← Bytes.hexValue? (UInt8.ofNat b.toNat)
    return UInt8.ofNat (16 * high + low) :: (← unhex rest)

/-- The byte string. -/
def toBytes (p : Plain) : Except PlainFault Bytes := do
  match unhex (← p.toText).toList with
  | some b => return b
  | none => throw (.expected "hexadecimal digits")

/-- A byte string as plain data. -/
def ofBytes (b : Bytes) : Plain := text b.toHex

/-- A whole number as plain data, spelt in decimal. -/
def ofWhole (n : Int) : Plain := text (toString n)

end Plain

/-- Types whose values can be written as plain data. -/
class ToPlain (α : Type) where
  plain : α → Plain

export ToPlain (plain)

namespace ToPlain

variable {α β : Type}

instance : ToPlain Plain := ⟨id⟩
instance : ToPlain Unit := ⟨fun _ => .null⟩
instance : ToPlain Bool := ⟨.bool⟩
instance : ToPlain String := ⟨.text⟩
instance : ToPlain Nat := ⟨fun n => .number n⟩
instance : ToPlain Int := ⟨.ofWhole⟩
instance : ToPlain Int32 := ⟨fun n => .ofWhole n.toInt⟩
instance : ToPlain Int64 := ⟨fun n => .ofWhole n.toInt⟩
instance [ToPlain α] : ToPlain (Option α) := ⟨fun a => a.elim .null plain⟩
instance [ToPlain α] : ToPlain (List α) := ⟨fun as => .list (as.map plain)⟩
instance [ToPlain α] [ToPlain β] : ToPlain (α × β) := ⟨fun p => .list [plain p.1, plain p.2]⟩
instance : ToPlain Bytes := ⟨.ofBytes⟩

theorem plain_none [ToPlain α] : plain (none : Option α) = .null := rfl

end ToPlain
end Folio
