import Folio.Crypto.Aes

/-!
# Sealing with counter mode and an authentication tag

A message is added to a key stream, the encryptions of a running counter, and
a tag of sixteen bytes over the result is put behind it. Opening checks the
tag before it gives the message.

Results:
* `addStream_addStream`: a stream that is added twice is gone.
* `decrypt?_encrypt`: what was sealed opens under the same key and nonce.
-/
namespace Folio.Crypto.Gcm

/-- The product of two blocks as polynomials over bits, the first bit being
the constant term, reduced by the polynomial of the mode. -/
def multiply (x y : Nat) : Nat :=
  let step := fun (acc : Nat × Nat) (i : Nat) =>
    let (z, v) := acc
    (if x.testBit (127 - i) then z ^^^ v else z,
      if v.testBit 0 then (v >>> 1) ^^^ (0xe1 <<< 120) else v >>> 1)
  ((List.range 128).foldl step (0, y)).1

/-- The blocks of sixteen bytes as numbers, the last one filled with zeros. -/
def blocks (bytes : Bytes) : List Nat :=
  (Aes.pieces 16 ((bytes.length + 15) / 16) bytes).map fun piece =>
    Bytes.toNat (piece ++ List.replicate (16 - piece.length) 0)

/-- The digest of a ciphertext without further data. -/
def digest (h : Nat) (ciphertext : Bytes) : Nat :=
  (blocks ciphertext ++ [ciphertext.length * 8]).foldl (fun y x => multiply (y ^^^ x) h) 0

/-- The block for the counter `i` under a nonce. -/
def counterBlock (nonce : Bytes) (i : Nat) : Bytes := nonce ++ Bytes.ofNat 4 i

/-- The key stream for `n` bytes; the counter one is kept for the tag. -/
def stream (keys : List Bytes) (nonce : Bytes) (n : Nat) : Bytes :=
  ((List.range ((n + 15) / 16)).flatMap fun i =>
    Aes.encryptWith keys (counterBlock nonce (i + 2))).take n

/-- The tag of a ciphertext. -/
def tag (keys : List Bytes) (nonce ciphertext : Bytes) : Bytes :=
  let h := Bytes.toNat (Aes.encryptWith keys (List.replicate 16 0))
  Aes.add (Bytes.ofNat 16 (digest h ciphertext)) (Aes.encryptWith keys (counterBlock nonce 1))

/-- The message with the key stream added; nothing is lost where the stream is
too short. -/
def addStream : (stream message : Bytes) → Bytes
  | _, [] => []
  | [], message => message
  | s :: stream, m :: message => (s ^^^ m) :: addStream stream message

/-- The sealed form of a message. -/
def encrypt (keys : List Bytes) (nonce message : Bytes) : Bytes :=
  let ciphertext := addStream (stream keys nonce message.length) message
  ciphertext ++ tag keys nonce ciphertext

/-- The message of a sealed form, if its tag is right. -/
def decrypt? (keys : List Bytes) (nonce sealed : Bytes) : Option Bytes :=
  let ciphertext := sealed.take (sealed.length - 16)
  if sealed.drop (sealed.length - 16) = tag keys nonce ciphertext then
    some (addStream (stream keys nonce ciphertext.length) ciphertext)
  else none

theorem length_addStream (s m : Bytes) : (addStream s m).length = m.length := by
  fun_induction addStream s m <;> simp_all

theorem addStream_addStream (s m : Bytes) : addStream s (addStream s m) = m := by
  fun_induction addStream s m with
  | case1 => cases ‹Bytes› <;> rfl
  | case2 => simp_all [addStream]
  | case3 a s b m ih =>
    rw [addStream, ih, ← UInt8.xor_assoc, UInt8.xor_self, UInt8.zero_xor]

theorem decrypt?_encrypt (keys : List Bytes) (nonce message : Bytes)
    (h : ∀ c, (tag keys nonce c).length = 16) :
    decrypt? keys nonce (encrypt keys nonce message) = some message := by
  have len := length_addStream (stream keys nonce message.length) message
  simp [decrypt?, encrypt, h, len, addStream_addStream]

end Folio.Crypto.Gcm
