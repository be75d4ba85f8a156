import Folio.Image
import Folio.Proofs.Crypto.Sealing

/-!
# Which payloads come back from their stored forms

Concealing looks at how a payload begins and restoring at the marker and the
seal, so the two agree on every image. They disagree where a payload that is
no image is itself what the key makes of another one: it is stored as it is,
and restoring opens it.

Results:
* `Sealed.restore`: a marked sealed form restores to what was sealed.
* `format?_marked`: what begins with the marker is not taken for an image.
* `restore_conceal_iff`: a payload comes back from its stored form just when
  it is not itself marked and sealed under the key.
-/
namespace Folio

namespace Bytes

theorem dropLead?_eq_some_iff {lead bytes rest : Bytes} :
    dropLead? lead bytes = some rest ↔ bytes = lead ++ rest := by
  fun_induction dropLead? lead bytes with
  | case1 bytes => rw [Option.some.injEq, List.nil_append]
  | case2 a lead => simp
  | case3 a lead bytes ih => rw [ih, List.cons_append, List.cons.injEq, and_iff_right rfl]
  | case4 a lead b bytes differ =>
    rw [List.cons_append, List.cons.injEq]
    exact ⟨nofun, fun same => absurd same.1.symm differ⟩

end Bytes

namespace Image

/-- The stored bytes are a payload that the key has sealed, behind the
marker. -/
def Sealed (key : Option Key) (stored payload : Bytes) : Prop :=
  ∃ k, key = some k ∧
    ∃ nonce : Bytes, nonce.length = Key.nonceSize ∧ stored = marker ++ k.encrypt nonce payload

variable {key : Option Key} {nonce stored payload : Bytes}

theorem Sealed.restore (h : Sealed key stored payload) : restore key stored = payload := by
  obtain ⟨k, rfl, nonce, sized, rfl⟩ := h
  have marked := Bytes.dropLead?_eq_some_iff.2 (Eq.refl (marker ++ k.encrypt nonce payload))
  have opens := Key.decrypt_eq_ok_iff.2 ⟨nonce, sized, Eq.refl (k.encrypt nonce payload)⟩
  simp only [Image.restore, marked, opens]

/-- What restoring changes was sealed. -/
theorem restore_of_not_sealed (h : ∀ payload, ¬ Sealed key stored payload) :
    restore key stored = stored := by
  unfold restore
  split
  next sealed k marked =>
    split
    next payload opened =>
      obtain ⟨nonce, sized, rfl⟩ := Key.decrypt_eq_ok_iff.1 opened
      exact absurd ⟨k, rfl, nonce, sized, Bytes.dropLead?_eq_some_iff.1 marked⟩ (h payload)
    next => rfl
  next => rfl

/-- A sealed form is longer than its payload: it has the marker, a nonce and
a tag besides. -/
theorem Sealed.length_lt (h : Sealed key stored payload) : payload.length < stored.length := by
  obtain ⟨k, -, nonce, sized, rfl⟩ := h
  rw [List.length_append, Key.length_encrypt k sized]
  unfold Key.nonceSize
  omega

/-- The marker begins like none of the formats. -/
theorem format?_marked (rest : Bytes) : format? (marker ++ rest) = none := by
  have png : Bytes.dropLead? pngLead (marker ++ rest) = none := rfl
  have jpeg : Bytes.dropLead? jpegLead (marker ++ rest) = none := rfl
  have gif : ∀ lead ∈ gifLeads, Bytes.dropLead? lead (marker ++ rest) = none := by
    simp only [gifLeads, List.forall_mem_cons]
    exact ⟨rfl, rfl, nofun⟩
  have bmp : Bytes.dropLead? (Bytes.ofText "BM") (marker ++ rest) = none := rfl
  have riff : Bytes.dropLead? (Bytes.ofText "RIFF") (marker ++ rest) = none := rfl
  have gifs :
      gifLeads.any (fun lead => (Bytes.dropLead? lead (marker ++ rest)).isSome) = false := by
    rw [List.any_eq_false]
    intro lead among
    rw [gif lead among]
    exact Bool.false_ne_true
  simp only [format?, png, jpeg, gifs, bmp, riff, Option.isSome_none, Bool.and_false,
    Bool.false_and, Bool.false_eq_true, if_false]

/-- No image is a sealed form. -/
theorem Sealed.format?_eq_none (h : Sealed key stored payload) : format? stored = none := by
  obtain ⟨k, -, nonce, -, rfl⟩ := h
  exact format?_marked _

/-- A payload is stored as it is, unless it is an image and there is a key. -/
theorem conceal_cases (key : Option Key) (payload : Bytes) (sized : nonce.length = Key.nonceSize) :
    conceal key nonce payload = payload ∨
      format? payload ≠ none ∧ Sealed key (conceal key nonce payload) payload := by
  unfold conceal
  split
  next k format recognised =>
    refine .inr ⟨?_, k, rfl, nonce, sized, rfl⟩
    rw [recognised]
    exact Option.some_ne_none format
  next => exact .inl rfl

/-- **Payloads come back, but for one kind.** A payload that is concealed and
restored under one key, whatever the nonce, is the same unless it is itself
marked and sealed under that key; then the payload sealed in it comes back
instead, which is another one. -/
theorem restore_conceal_iff (key : Option Key) (nonce payload : Bytes)
    (sized : nonce.length = Key.nonceSize) :
    (restore key (conceal key nonce payload) = payload ↔ ∀ inner, ¬ Sealed key payload inner) ∧
      ∀ inner, Sealed key payload inner →
        restore key (conceal key nonce payload) = inner ∧ inner ≠ payload := by
  have inside : ∀ inner, Sealed key payload inner →
      restore key (conceal key nonce payload) = inner ∧ inner ≠ payload := by
    intro inner h
    refine ⟨?_, fun same => absurd h.length_lt (by rw [same]; exact Nat.lt_irrefl _)⟩
    obtain kept | ⟨recognised, -⟩ := conceal_cases key payload sized
    · rw [kept, h.restore]
    · exact absurd h.format?_eq_none recognised
  refine ⟨⟨fun same inner h => ?_, fun apart => ?_⟩, inside⟩
  · obtain ⟨opened, other⟩ := inside inner h
    exact other (opened.symm.trans same)
  · obtain kept | ⟨-, h⟩ := conceal_cases key payload sized
    · rw [kept, restore_of_not_sealed apart]
    · exact h.restore

/-- The key whose bytes count from zero. -/
def countedKey : Key := ⟨(List.range 32).map UInt8.ofNat, rfl⟩

/-- The stored form of three bytes, stored once more as a payload, comes back
as the three bytes. -/
theorem restore_conceal_sealed :
    (Key.nonce 2).length = Key.nonceSize ∧
      restore (some countedKey) (conceal (some countedKey) (Key.nonce 2)
        (marker ++ countedKey.encrypt (Key.nonce 1) [1, 2, 3])) = [1, 2, 3] ∧
      [1, 2, 3] ≠ marker ++ countedKey.encrypt (Key.nonce 1) [1, 2, 3] := by
  have sized : (Key.nonce 1).length = Key.nonceSize := Bytes.length_ofNat ..
  have again : (Key.nonce 2).length = Key.nonceSize := Bytes.length_ofNat ..
  have stored : Sealed (some countedKey)
      (marker ++ countedKey.encrypt (Key.nonce 1) [1, 2, 3]) [1, 2, 3] :=
    ⟨countedKey, rfl, Key.nonce 1, sized, rfl⟩
  exact ⟨again, (restore_conceal_iff (some countedKey) (Key.nonce 2) _ again).2 _ stored⟩

end Image
end Folio
