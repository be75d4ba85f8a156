import Folio.Bytes

/-!
# Item heads

Every item begins with a head: three bits of kind and an argument in its
shortest form. Small arguments stand in the first byte; larger ones in one,
two, four or eight bytes after it.

Results:
* `head_length_pos`: a head is never empty.
-/
namespace Folio.Cbor

/-- The kinds of item. -/
inductive Kind where
  | unsigned
  | negative
  | bytes
  | text
  | array
  | map
  | tag
  | simple
  deriving DecidableEq, Repr

namespace Kind

/-- The number of a kind in a head. -/
def code : Kind → Nat
  | unsigned => 0
  | negative => 1
  | bytes => 2
  | text => 3
  | array => 4
  | map => 5
  | tag => 6
  | simple => 7

/-- The kind that the first byte of a head tells. -/
def ofByte (b : UInt8) : Kind :=
  match b.toNat / 32 with
  | 0 => unsigned
  | 1 => negative
  | 2 => bytes
  | 3 => text
  | 4 => array
  | 5 => map
  | 6 => tag
  | _ => simple

end Kind

/-- The tag of an object id. -/
def objectIdTag : Nat := 1050

/-- The tag of a timestamp. -/
def dateTimeTag : Nat := 1051

/-- The most entries of an array or a map. -/
def maxEntries : Nat := 0x1000000

/-- The most bytes of a text or a byte string. -/
def maxBytes : Nat := 0x10000000

/-- The first byte of a head. -/
def initial (kind : Kind) (info : Nat) : UInt8 := UInt8.ofNat (kind.code * 32 + info)

/-- The largest argument, which fills eight bytes. -/
def maxArgument : Nat := 0xffffffffffffffff

/-- The head with the argument in the fewest bytes. There are eight at most, so
nothing larger than the largest argument can be told. -/
def head (kind : Kind) (argument : Nat) : Bytes :=
  if argument < 24 then [initial kind argument]
  else if argument < 0x100 then initial kind 24 :: Bytes.ofNat 1 argument
  else if argument < 0x10000 then initial kind 25 :: Bytes.ofNat 2 argument
  else if argument < 0x100000000 then initial kind 26 :: Bytes.ofNat 4 argument
  else initial kind 27 :: Bytes.ofNat 8 (min argument maxArgument)

theorem head_length_pos (kind : Kind) (argument : Nat) : 0 < (head kind argument).length := by
  unfold head; repeat' split
  all_goals simp

end Folio.Cbor
