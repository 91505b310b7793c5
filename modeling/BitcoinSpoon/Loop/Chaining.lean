/-
  BitcoinSpoon.Loop.Chaining — a block cipher run over a buffer, each block mixed with the
  output before it.

  The cipher, its inverse and the mixing are functions on lists of one width. Where the
  inverse undoes the cipher and the mixing undoes itself, the second loop undoes the first
  on whole blocks (`chainDecrypt_chainEncrypt`). Nothing here names a program.
-/

import Mathlib.Data.List.Basic

namespace BitcoinSpoon.Loop

variable {α : Type}

/-- How blocks of a width are transformed. -/
structure BlockCipher (α : Type) where
  width : Nat
  mix : List α → List α → List α
  cipher : List α → List α
  invCipher : List α → List α

/-- What makes the two loops inverse. -/
structure BlockCipher.Invertible (b : BlockCipher α) : Prop where
  mix_length : ∀ x y, x.length = b.width → y.length = b.width → (b.mix x y).length = b.width
  mix_mix : ∀ x y, x.length = b.width → y.length = b.width → b.mix (b.mix x y) y = x
  cipher_length : ∀ x, x.length = b.width → (b.cipher x).length = b.width
  invCipher_cipher : ∀ x, x.length = b.width → b.invCipher (b.cipher x) = x

variable (b : BlockCipher α)

def chainEncrypt : Nat → List α → List α → List α
  | 0, _, buffer => buffer
  | blocks + 1, iv, buffer =>
    let block := b.cipher (b.mix (buffer.take b.width) iv)
    block ++ chainEncrypt blocks block (buffer.drop b.width)

def chainDecrypt : Nat → List α → List α → List α
  | 0, _, buffer => buffer
  | blocks + 1, iv, buffer =>
    let block := buffer.take b.width
    b.mix (b.invCipher block) iv ++ chainDecrypt blocks block (buffer.drop b.width)

variable {b}

theorem chainEncrypt_length (h : b.Invertible) {blocks : Nat} {iv buffer : List α} (hiv : iv.length = b.width)
    (hbuffer : buffer.length = blocks * b.width) : (chainEncrypt b blocks iv buffer).length = buffer.length := by
  induction blocks generalizing iv buffer with
  | zero => rfl
  | succ blocks ih =>
    rw [Nat.succ_mul] at hbuffer
    have htake : (buffer.take b.width).length = b.width := by rw [List.length_take]; omega
    have hblock := h.cipher_length _ (h.mix_length _ iv htake hiv)
    have hdrop : (buffer.drop b.width).length = blocks * b.width := by rw [List.length_drop]; omega
    have hrest := ih hblock hdrop
    rw [chainEncrypt, List.length_append, hblock, hrest, List.length_drop]
    omega

/-- The block that comes out is the one the next block was mixed with. -/
theorem chainDecrypt_chainEncrypt (h : b.Invertible) {blocks : Nat} {iv buffer : List α} (hiv : iv.length = b.width)
    (hbuffer : buffer.length = blocks * b.width) : chainDecrypt b blocks iv (chainEncrypt b blocks iv buffer) = buffer := by
  induction blocks generalizing iv buffer with
  | zero => rfl
  | succ blocks ih =>
    rw [Nat.succ_mul] at hbuffer
    have htake : (buffer.take b.width).length = b.width := by rw [List.length_take]; omega
    have hmixed := h.mix_length _ iv htake hiv
    have hblock := h.cipher_length _ hmixed
    have hdrop : (buffer.drop b.width).length = blocks * b.width := by rw [List.length_drop]; omega
    have hrest := ih hblock hdrop
    rw [chainEncrypt, chainDecrypt, List.take_left' hblock, List.drop_left' hblock, h.invCipher_cipher _ hmixed,
      h.mix_mix _ _ htake hiv, hrest, List.take_append_drop]

end BitcoinSpoon.Loop
