import Folio.Crypto.Key

/-!
# Images

A payload that is recognised as an image is stored encrypted when there is a
key: a marker, then the sealed payload. Restoring takes the marker and the
seal away; a payload that is not marked, or whose seal does not open, is
answered as it is stored.

Results:
* `conceal_of_none`: without a key every payload is stored as it is.
-/
namespace Folio

/-- The formats that are recognised. -/
inductive ImageFormat where
  | png
  | jpeg
  | gif
  | bmp
  | webp
  deriving DecidableEq, Repr

namespace Image

/-- What every PNG begins with. -/
def pngLead : Bytes := [0x89, 0x50, 0x4e, 0x47, 0x0d, 0x0a, 0x1a, 0x0a]

/-- What every JPEG begins with. -/
def jpegLead : Bytes := [0xff, 0xd8, 0xff]

/-- What a GIF begins with, in its two versions. -/
def gifLeads : List Bytes := [Bytes.ofText "GIF87a", Bytes.ofText "GIF89a"]

/-- The format of a payload, told by its first bytes. A bitmap has at least
fourteen bytes, and the name of a WebP stands inside its container. -/
def format? (payload : Bytes) : Option ImageFormat :=
  let begins := fun lead => (Bytes.dropLead? lead payload).isSome
  if begins pngLead then some .png
  else if begins jpegLead then some .jpeg
  else if gifLeads.any begins then some .gif
  else if 14 ≤ payload.length && begins (Bytes.ofText "BM") then some .bmp
  else if begins (Bytes.ofText "RIFF") && (payload.drop 8).take 4 = Bytes.ofText "WEBP" then
    some .webp
  else none

/-- The mark of a sealed payload. -/
def marker : Bytes := [0xed, 0x1c, 0x0d, 0x01]

/-- The stored form of a payload. -/
def conceal (key : Option Key) (nonce payload : Bytes) : Bytes :=
  match key, format? payload with
  | some key, some _ => marker ++ key.encrypt nonce payload
  | _, _ => payload

/-- The payload of a stored form. -/
def restore (key : Option Key) (stored : Bytes) : Bytes :=
  match Bytes.dropLead? marker stored, key with
  | some sealed, some key =>
    match key.decrypt sealed with
    | .ok payload => payload
    | .error _ => stored
  | _, _ => stored

/-- Whether concealing a payload needs a nonce. -/
def needsNonce (key : Option Key) (payload : Bytes) : Bool := key.isSome && (format? payload).isSome

/-- The text of the transformation. -/
def written (key : Option Key) : String :=
  "ImageCodec \x7b transform: " ++ toString key.isSome ++ " \x7d"

theorem conceal_of_none (nonce payload : Bytes) : conceal none nonce payload = payload := rfl

end Image
end Folio
