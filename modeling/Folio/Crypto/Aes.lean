import Folio.Bytes

/-!
# AES with keys of 256 bits

The encryption of one block of sixteen bytes, taken column by column. Each of
the fourteen rounds substitutes bytes, shifts rows, mixes columns (but for the
last round) and adds a key.

Results:
* `length_add`: adding a key of a block's length keeps the length.
-/
namespace Folio.Crypto.Aes

/-- The substitution of bytes. -/
def table : Array UInt8 :=
  #[99, 124, 119, 123, 242, 107, 111, 197, 48, 1, 103, 43, 254, 215, 171, 118, 202, 130, 201,
    125, 250, 89, 71, 240, 173, 212, 162, 175, 156, 164, 114, 192, 183, 253, 147, 38, 54, 63,
    247, 204, 52, 165, 229, 241, 113, 216, 49, 21, 4, 199, 35, 195, 24, 150, 5, 154, 7, 18,
    128, 226, 235, 39, 178, 117, 9, 131, 44, 26, 27, 110, 90, 160, 82, 59, 214, 179, 41, 227,
    47, 132, 83, 209, 0, 237, 32, 252, 177, 91, 106, 203, 190, 57, 74, 76, 88, 207, 208, 239,
    170, 251, 67, 77, 51, 133, 69, 249, 2, 127, 80, 60, 159, 168, 81, 163, 64, 143, 146, 157,
    56, 245, 188, 182, 218, 33, 16, 255, 243, 210, 205, 12, 19, 236, 95, 151, 68, 23, 196, 167,
    126, 61, 100, 93, 25, 115, 96, 129, 79, 220, 34, 42, 144, 136, 70, 238, 184, 20, 222, 94,
    11, 219, 224, 50, 58, 10, 73, 6, 36, 92, 194, 211, 172, 98, 145, 149, 228, 121, 231, 200,
    55, 109, 141, 213, 78, 169, 108, 86, 244, 234, 101, 122, 174, 8, 186, 120, 37, 46, 28, 166,
    180, 198, 232, 221, 116, 31, 75, 189, 139, 138, 112, 62, 181, 102, 72, 3, 246, 14, 97, 53,
    87, 185, 134, 193, 29, 158, 225, 248, 152, 17, 105, 217, 142, 148, 155, 30, 135, 233, 206,
    85, 40, 223, 140, 161, 137, 13, 191, 230, 66, 104, 65, 153, 45, 15, 176, 84, 187, 22]

/-- The byte that stands for a byte. -/
def substitute (b : UInt8) : UInt8 := table.getD b.toNat 0

/-- Multiplication by x in the field of bytes. -/
def double (b : UInt8) : UInt8 := if 128 ≤ b then (b <<< 1) ^^^ 0x1b else b <<< 1

/-- The sum of two byte strings, place by place. -/
def add (a b : Bytes) : Bytes := List.zipWith (· ^^^ ·) a b

/-- The place that each byte of a shifted block comes from. -/
def shifts : List Nat := [0, 5, 10, 15, 4, 9, 14, 3, 8, 13, 2, 7, 12, 1, 6, 11]

/-- The block with each row shifted by its number. -/
def shiftRows (block : Bytes) : Bytes := shifts.map fun i => block.getD i 0

/-- The block with each column mixed. -/
def mixColumns : Bytes → Bytes
  | a :: b :: c :: d :: rest =>
    (double a ^^^ double b ^^^ b ^^^ c ^^^ d) :: (a ^^^ double b ^^^ double c ^^^ c ^^^ d) ::
      (a ^^^ b ^^^ double c ^^^ double d ^^^ d) :: (double a ^^^ a ^^^ b ^^^ c ^^^ double d) ::
      mixColumns rest
  | rest => rest

/-- The next four bytes of the key schedule, at place `i` of it, from the four
before them and the four a whole key before them. -/
def nextWord (i : Nat) (recent distant : Bytes) : Bytes :=
  let mask :=
    if i % 8 = 0 then
      let turned := (recent.drop 1 ++ recent.take 1).map substitute
      add turned [1 <<< UInt8.ofNat (i / 8 - 1), 0, 0, 0]
    else if i % 8 = 4 then recent.map substitute
    else recent
  add distant mask

/-- The key schedule, its words latest first. -/
def extend : (count place : Nat) → List Bytes → List Bytes
  | 0, _, words => words
  | n + 1, i, words => extend n (i + 1) (nextWord i (words.getD 0 []) (words.getD 7 []) :: words)

/-- Consecutive pieces of `n` bytes. -/
def pieces (n : Nat) : (count : Nat) → Bytes → List Bytes
  | 0, _ => []
  | k + 1, bytes => bytes.take n :: pieces n k (bytes.drop n)

/-- The fifteen round keys of a key. -/
def roundKeys (key : Bytes) : List Bytes :=
  pieces 16 15 ((extend 52 8 (pieces 4 8 key).reverse).reverse.flatMap fun w => w)

/-- The rounds after the first key. -/
def rounds (block : Bytes) : List Bytes → Bytes
  | [] => block
  | [last] => add (shiftRows (block.map substitute)) last
  | key :: rest => rounds (add (mixColumns (shiftRows (block.map substitute))) key) rest

/-- The encryption of a block under round keys. -/
def encryptWith (keys : List Bytes) (block : Bytes) : Bytes :=
  match keys with
  | [] => block
  | first :: rest => rounds (add block first) rest

theorem length_add (a b : Bytes) : (add a b).length = min a.length b.length := by
  simp [add]

end Folio.Crypto.Aes
