import Folio.Crypto.Key

/-!
# What sealing and opening say of each other

A block goes through every round with its sixteen bytes, so a tag has sixteen
bytes too. A sealed form is opened by its key, and nothing else is: what a key
opens to a payload is that payload's own sealed form under the nonce in front.

Results:
* `Aes.length_encryptWith`: an encrypted block has a block's length.
* `Gcm.length_tag`: a tag has sixteen bytes.
* `Gcm.decrypt?_eq_some_iff`: what opens to a message is the message sealed.
* `Key.decrypt_eq_ok_iff`: a key opens the sealed forms it makes, no others.
-/
namespace Folio

namespace Crypto

namespace Aes

/-! ## The key schedule -/

theorem length_pieces (n count : Nat) (bytes : Bytes) : (pieces n count bytes).length = count := by
  induction count generalizing bytes with
  | zero => rfl
  | succ count ih => rw [pieces, List.length_cons, ih]

theorem length_of_mem_pieces {n count : Nat} {bytes piece : Bytes}
    (enough : n * count ≤ bytes.length) (h : piece ∈ pieces n count bytes) :
    piece.length = n := by
  induction count generalizing bytes with
  | zero => cases h
  | succ count ih =>
    rw [Nat.mul_succ] at enough
    rw [pieces, List.mem_cons] at h
    obtain rfl | h := h
    · rw [List.length_take]
      omega
    · refine ih ?_ h
      rw [List.length_drop]
      omega

theorem length_nextWord {recent distant : Bytes} (hr : recent.length = 4)
    (hd : distant.length = 4) (i : Nat) : (nextWord i recent distant).length = 4 := by
  unfold nextWord
  split
  · simp [length_add, hr, hd]
  · split <;> simp [length_add, hr, hd]

/-- Words that the next one can be made from: a whole key of them at least,
each of four bytes. -/
def Words (words : List Bytes) : Prop := 8 ≤ words.length ∧ ∀ w ∈ words, w.length = 4

theorem Words.nextWord {words : List Bytes} (h : Words words) (i : Nat) :
    Words (nextWord i (words.getD 0 []) (words.getD 7 []) :: words) := by
  obtain ⟨enough, sized⟩ := h
  have four : ∀ k, k < words.length → (words.getD k []).length = 4 := by
    intro k hk
    rw [List.getD_eq_getElem?_getD, List.getElem?_eq_getElem hk, Option.getD_some]
    exact sized _ (List.getElem_mem hk)
  refine ⟨by simp only [List.length_cons]; omega, ?_⟩
  intro w hw
  obtain rfl | hw := List.mem_cons.1 hw
  · exact length_nextWord (four 0 (by omega)) (four 7 (by omega)) i
  · exact sized w hw

/-- The schedule grows by one word at a time. -/
theorem Words.extend {words : List Bytes} (h : Words words) (count i : Nat) :
    Words (extend count i words) ∧ (extend count i words).length = words.length + count := by
  induction count generalizing words i with
  | zero => exact ⟨h, rfl⟩
  | succ count ih =>
    obtain ⟨all, total⟩ := ih (h.nextWord i) (i + 1)
    refine ⟨all, ?_⟩
    rw [Aes.extend, total, List.length_cons]
    omega

theorem length_flatMap_words {words : List Bytes} (h : ∀ w ∈ words, w.length = 4) :
    (words.flatMap fun w => w).length = 4 * words.length := by
  induction words with
  | nil => rfl
  | cons w rest ih =>
    have first := h w List.mem_cons_self
    have others := ih fun v hv => h v (List.mem_cons_of_mem _ hv)
    rw [List.flatMap_cons, List.length_append, first, others, List.length_cons]
    omega

theorem length_of_mem_roundKeys {key round : Bytes} (sized : key.length = 32)
    (h : round ∈ roundKeys key) : round.length = 16 := by
  have eight : (pieces 4 8 key).reverse.length = 8 := by rw [List.length_reverse, length_pieces]
  have start : Words (pieces 4 8 key).reverse :=
    ⟨Nat.le_of_eq eight.symm,
      fun w hw => length_of_mem_pieces (by omega) (List.mem_reverse.1 hw)⟩
  obtain ⟨⟨-, four⟩, total⟩ := start.extend 52 8
  rw [eight] at total
  refine length_of_mem_pieces (Nat.le_of_eq ?_) h
  rw [length_flatMap_words fun w hw => four w (List.mem_reverse.1 hw), List.length_reverse, total]

/-! ## A block -/

theorem length_shiftRows (block : Bytes) : (shiftRows block).length = 16 := by
  simp [shiftRows, shifts]

theorem length_mixColumns (block : Bytes) : (mixColumns block).length = block.length := by
  fun_induction mixColumns block with
  | case1 a b c d rest ih => simp only [List.length_cons, ih]
  | case2 => rfl

theorem length_rounds {block : Bytes} {keys : List Bytes} (hb : block.length = 16)
    (hk : ∀ key ∈ keys, key.length = 16) : (rounds block keys).length = 16 := by
  fun_induction rounds block keys with
  | case1 block => exact hb
  | case2 block last => rw [length_add, length_shiftRows, hk last List.mem_cons_self]; rfl
  | case3 block key rest _ ih =>
    refine ih ?_ fun k h => hk k (List.mem_cons_of_mem _ h)
    rw [length_add, length_mixColumns, length_shiftRows, hk key List.mem_cons_self]
    rfl

theorem length_encryptWith {block : Bytes} {keys : List Bytes} (hb : block.length = 16)
    (hk : ∀ key ∈ keys, key.length = 16) : (encryptWith keys block).length = 16 := by
  cases keys with
  | nil => exact hb
  | cons first rest =>
    refine length_rounds ?_ fun k h => hk k (List.mem_cons_of_mem _ h)
    rw [length_add, hb, hk first List.mem_cons_self]
    rfl

end Aes

namespace Gcm

variable {keys : List Bytes} {nonce : Bytes}

theorem length_tag (hk : ∀ key ∈ keys, key.length = 16) (hn : nonce.length = 12)
    (ciphertext : Bytes) : (tag keys nonce ciphertext).length = 16 := by
  have first : (counterBlock nonce 1).length = 16 := by
    rw [counterBlock, List.length_append, Bytes.length_ofNat, hn]
  rw [tag, Aes.length_add, Bytes.length_ofNat, Aes.length_encryptWith first hk]
  rfl

theorem length_encrypt (hk : ∀ key ∈ keys, key.length = 16) (hn : nonce.length = 12)
    (message : Bytes) : (encrypt keys nonce message).length = message.length + 16 := by
  rw [encrypt, List.length_append, length_addStream, length_tag hk hn]

/-- A sealed form opens to a message just when it is the message sealed: the
tag is the one of the ciphertext, and the key stream comes off where it went
on. -/
theorem decrypt?_eq_some_iff (hk : ∀ key ∈ keys, key.length = 16) (hn : nonce.length = 12)
    {sealed message : Bytes} :
    decrypt? keys nonce sealed = some message ↔ sealed = encrypt keys nonce message := by
  constructor
  · intro opened
    simp only [decrypt?] at opened
    split at opened
    next tagged =>
      obtain rfl := Option.some.inj opened
      rw [encrypt, length_addStream, addStream_addStream, ← tagged, List.take_append_drop]
    next => cases opened
  · rintro rfl
    exact decrypt?_encrypt _ _ _ (length_tag hk hn)

end Gcm

end Crypto

namespace Key

variable {key : Key} {nonce payload sealed : Bytes}

theorem length_encrypt (key : Key) (sized : nonce.length = nonceSize) (payload : Bytes) :
    (key.encrypt nonce payload).length = nonceSize + (payload.length + tagSize) := by
  rw [encrypt, List.length_append, sized,
    Crypto.Gcm.length_encrypt (fun _ => Crypto.Aes.length_of_mem_roundKeys key.length_bytes) sized]
  rfl

/-- A key opens what it sealed, under whichever nonce, and nothing else. -/
theorem decrypt_eq_ok_iff :
    key.decrypt sealed = .ok payload ↔
      ∃ nonce : Bytes, nonce.length = nonceSize ∧ sealed = key.encrypt nonce payload := by
  have hk : ∀ round ∈ Crypto.Aes.roundKeys key.bytes, round.length = 16 :=
    fun _ => Crypto.Aes.length_of_mem_roundKeys key.length_bytes
  constructor
  · intro opened
    unfold decrypt at opened
    split at opened
    next => cases opened
    next room =>
      have front : (sealed.take nonceSize).length = nonceSize := by
        rw [List.length_take]
        omega
      split at opened
      next p opens =>
        cases opened
        refine ⟨sealed.take nonceSize, front, ?_⟩
        rw [encrypt, ← (Crypto.Gcm.decrypt?_eq_some_iff hk front).1 opens, List.take_append_drop]
      next => cases opened
  · rintro ⟨nonce, sized, rfl⟩
    have room : ¬ (key.encrypt nonce payload).length < nonceSize + tagSize := by
      rw [length_encrypt key sized]
      omega
    have opens := (Crypto.Gcm.decrypt?_eq_some_iff hk sized).2
      (Eq.refl (Crypto.Gcm.encrypt _ nonce payload))
    rw [decrypt, if_neg room, encrypt, List.take_left' sized, List.drop_left' sized, opens]

end Key

end Folio
