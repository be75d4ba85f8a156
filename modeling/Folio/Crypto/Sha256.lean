import Folio.Bytes

/-!
# SHA-256

The digest of a byte string, and the keyed digest and key derivation built on
it.

Results:
* `length_sha256`: a digest has 32 bytes.
-/
namespace Folio.Crypto

namespace Sha256

/-- The first words of the state: the fractional parts of the square roots of
the first eight primes. -/
def start : List UInt32 :=
  [0x6a09e667, 0xbb67ae85, 0x3c6ef372, 0xa54ff53a, 0x510e527f, 0x9b05688c, 0x1f83d9ab,
   0x5be0cd19]

/-- The constants of the rounds: the fractional parts of the cube roots of the
first 64 primes. -/
def constants : List UInt32 :=
  [0x428a2f98, 0x71374491, 0xb5c0fbcf, 0xe9b5dba5, 0x3956c25b, 0x59f111f1, 0x923f82a4,
   0xab1c5ed5, 0xd807aa98, 0x12835b01, 0x243185be, 0x550c7dc3, 0x72be5d74, 0x80deb1fe,
   0x9bdc06a7, 0xc19bf174, 0xe49b69c1, 0xefbe4786, 0xfc19dc6, 0x240ca1cc, 0x2de92c6f,
   0x4a7484aa, 0x5cb0a9dc, 0x76f988da, 0x983e5152, 0xa831c66d, 0xb00327c8, 0xbf597fc7,
   0xc6e00bf3, 0xd5a79147, 0x6ca6351, 0x14292967, 0x27b70a85, 0x2e1b2138, 0x4d2c6dfc,
   0x53380d13, 0x650a7354, 0x766a0abb, 0x81c2c92e, 0x92722c85, 0xa2bfe8a1, 0xa81a664b,
   0xc24b8b70, 0xc76c51a3, 0xd192e819, 0xd6990624, 0xf40e3585, 0x106aa070, 0x19a4c116,
   0x1e376c08, 0x2748774c, 0x34b0bcb5, 0x391c0cb3, 0x4ed8aa4a, 0x5b9cca4f, 0x682e6ff3,
   0x748f82ee, 0x78a5636f, 0x84c87814, 0x8cc70208, 0x90befffa, 0xa4506ceb, 0xbef9a3f7,
   0xc67178f2]

/-- Rotation to the right. -/
def rotr (x : UInt32) (n : UInt32) : UInt32 := (x >>> n) ||| (x <<< (32 - n))

/-- The word that four bytes spell. -/
def word : Bytes → UInt32
  | bytes => UInt32.ofNat (Bytes.toNat bytes)

/-- Consecutive pieces of `n` elements. -/
def chunks {α : Type} (n : Nat) : (pieces : Nat) → List α → List (List α)
  | 0, _ => []
  | k + 1, xs => xs.take n :: chunks n k (xs.drop n)

/-- The message with the bit one, zeros and its length in bits behind it. -/
def padded (message : Bytes) : Bytes :=
  let zeros := (119 - message.length % 64) % 64
  message ++ 128 :: List.replicate zeros 0 ++ Bytes.ofNat 8 (message.length * 8)

/-- The next word of the schedule, from the sixteen before it, latest first. -/
def extend (recent : List UInt32) : UInt32 :=
  let w := fun i => recent.getD i 0
  let a := w 14
  let b := w 1
  w 15 + (rotr a 7 ^^^ rotr a 18 ^^^ (a >>> 3)) + w 6 + (rotr b 17 ^^^ rotr b 19 ^^^ (b >>> 10))

/-- The words for the rounds of a block. -/
def schedule (block : Bytes) : List UInt32 :=
  let first := (chunks 4 16 block).map word
  ((List.range 48).foldl (fun ws _ => extend ws :: ws) first.reverse).reverse

/-- One round. -/
def round (state : List UInt32) (input : UInt32) : List UInt32 :=
  match state with
  | [a, b, c, d, e, f, g, h] =>
    let t := h + (rotr e 6 ^^^ rotr e 11 ^^^ rotr e 25) + ((e &&& f) ^^^ (~~~e &&& g)) + input
    let u := (rotr a 2 ^^^ rotr a 13 ^^^ rotr a 22) + ((a &&& b) ^^^ (a &&& c) ^^^ (b &&& c))
    [t + u, a, b, c, d + t, e, f, g]
  | other => other

/-- The state after a block. -/
def compress (state : List UInt32) (block : Bytes) : List UInt32 :=
  let inputs := List.zipWith (· + ·) constants (schedule block)
  List.zipWith (· + ·) state (inputs.foldl round state)

end Sha256

/-- The SHA-256 digest. -/
def sha256 (message : Bytes) : Bytes :=
  let input := Sha256.padded message
  let state := (Sha256.chunks 64 (input.length / 64) input).foldl Sha256.compress Sha256.start
  (state.flatMap fun w => Bytes.ofNat 4 w.toNat).take 32

/-- The digest of a message under a key. -/
def hmac (key message : Bytes) : Bytes :=
  let short := if 64 < key.length then sha256 key else key
  let block := short ++ List.replicate (64 - short.length) 0
  sha256 (block.map (· ^^^ 0x5c) ++ sha256 (block.map (· ^^^ 0x36) ++ message))

/-- A key of 32 bytes derived from a secret, for one purpose. -/
def derive (salt secret purpose : Bytes) : Bytes :=
  hmac (hmac salt secret) (purpose ++ [1])

theorem Sha256.length_round {state : List UInt32} (h : state.length = 8) (input : UInt32) :
    (Sha256.round state input).length = 8 := by
  unfold Sha256.round
  split <;> simp_all

theorem Sha256.length_compress {state : List UInt32} (h : state.length = 8) (block : Bytes) :
    (Sha256.compress state block).length = 8 := by
  have rounds : ∀ (inputs : List UInt32) (s : List UInt32), s.length = 8 →
      (inputs.foldl Sha256.round s).length = 8 := by
    intro inputs
    induction inputs with
    | nil => exact fun s hs => hs
    | cons i rest ih => exact fun s hs => ih _ (Sha256.length_round hs i)
  simp [Sha256.compress, h, rounds _ state h]

theorem length_sha256 (message : Bytes) : (sha256 message).length = 32 := by
  have blocks : ∀ (bs : List Bytes) (s : List UInt32), s.length = 8 →
      (bs.foldl Sha256.compress s).length = 8 := by
    intro bs
    induction bs with
    | nil => exact fun s hs => hs
    | cons b rest ih => exact fun s hs => ih _ (Sha256.length_compress hs b)
  have flat : ∀ ws : List UInt32,
      (ws.flatMap fun w => Bytes.ofNat 4 w.toNat).length = 4 * ws.length := by
    intro ws
    induction ws with
    | nil => rfl
    | cons w rest ih => simp [ih]; omega
  simp only [sha256, List.length_take, flat]
  rw [blocks _ _ (by rfl)]
  rfl

theorem length_hmac (key message : Bytes) : (hmac key message).length = 32 := length_sha256 _

theorem length_derive (salt secret purpose : Bytes) :
    (derive salt secret purpose).length = 32 := length_hmac _ _

end Folio.Crypto
