import Folio.Crypto.Gcm
import Folio.Crypto.Sha256
import Folio.Failure

/-!
# Keys

A key has 32 bytes. It seals a payload as the nonce, the ciphertext and the
tag, one after another.

Results:
* `ofBytes?_bytes`: the bytes of a key give the key back.
-/
namespace Folio

/-- A key of 32 bytes. -/
structure Key where
  bytes : Bytes
  length_bytes : bytes.length = 32
  deriving DecidableEq

namespace Key

/-- The bytes as a key. -/
def ofBytes? (bytes : Bytes) : Except Failure Key :=
  if h : bytes.length = 32 then .ok ⟨bytes, h⟩ else .error (.keySize bytes.length)

theorem ofBytes?_bytes (key : Key) : ofBytes? key.bytes = .ok key := by
  simp [ofBytes?, key.length_bytes]

/-- The salt of derived keys. -/
def salt : Bytes :=
  [0x65, 0x6e, 0x74, 0x69, 0x64, 0x6f, 0x63, 0x2d, 0x62, 0x69, 0x6e, 0x61, 0x72, 0x79, 0x2d,
   0x74, 0x72, 0x61, 0x6e, 0x73, 0x66, 0x6f, 0x72, 0x6d]

/-- What derived keys are for. -/
def purpose : Bytes :=
  [0x65, 0x6e, 0x74, 0x69, 0x64, 0x6f, 0x63, 0x2d, 0x69, 0x6d, 0x61, 0x67, 0x65, 0x2d, 0x6b,
   0x65, 0x79, 0x2d, 0x76, 0x31]

/-- The key that a shared secret gives. -/
def ofSecret (secret : Bytes) : Key :=
  ⟨Crypto.derive salt secret purpose, Crypto.length_derive ..⟩

/-- The text of a key, which does not tell it. -/
def written (_ : Key) : String := "EncryptionKey \x7b bytes: \"[REDACTED]\" \x7d"

/-- The bytes of a nonce. -/
def nonceSize : Nat := 12

/-- The bytes of a tag. -/
def tagSize : Nat := 16

/-- The nonce with a number. -/
def nonce (n : Nat) : Bytes := Bytes.ofNat nonceSize n

/-- The sealed form of a payload under a nonce. -/
def encrypt (key : Key) (nonce payload : Bytes) : Bytes :=
  nonce ++ Crypto.Gcm.encrypt (Crypto.Aes.roundKeys key.bytes) nonce payload

/-- The payload of a sealed form. -/
def decrypt (key : Key) (sealed : Bytes) : Except Failure Bytes :=
  if sealed.length < nonceSize + tagSize then .error .sealedTooShort
  else
    match Crypto.Gcm.decrypt? (Crypto.Aes.roundKeys key.bytes) (sealed.take nonceSize)
        (sealed.drop nonceSize) with
    | some payload => .ok payload
    | none => .error .sealBroken

end Key
end Folio
