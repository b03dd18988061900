import Mathlib.Data.Nat.Bitwise
import Mathlib.Tactic

/-! # Digits as characters

Bytes are written as text in a base that is a power of two. The table for decoding
has the base itself for every character that is no digit, so that a single bit tells
whether all characters of a group are digits.
-/
namespace BookmarkFS.Library

theorem forall_byte {p : UInt8 → Prop} (h : ∀ n < 256, p (UInt8.ofNat n)) (c : UInt8) : p c := by
  have hc := h c.toNat c.toNat_lt
  rwa [UInt8.ofNat_toNat] at hc

theorem getD_of_table {α : Type} {f : ℕ → α} {table : List α} (h : table = (List.range 256).map f)
    (c : UInt8) (default : α) : table.getD c.toNat default = f c.toNat := by
  rw [h, List.getD_eq_getElem?_getD, List.getElem?_map, List.getElem?_range c.toNat_lt]
  rfl

section Bits

variable {n m k : ℕ}

theorem and_two_pow_eq_zero (h : n ≤ 2 ^ k) : n &&& 2 ^ k = 0 ↔ n < 2 ^ k := by
  obtain hlt | rfl := h.lt_or_eq
  · rw [Nat.and_two_pow, Nat.testBit_lt_two_pow hlt]
    simpa using hlt
  · rw [Nat.and_self]
    simp

theorem or_and_eq_zero : (n ||| m) &&& k = 0 ↔ n &&& k = 0 ∧ m &&& k = 0 := by
  rw [Nat.and_or_distrib_right, Nat.or_eq_zero_iff]

theorem shiftLeft_or (h : m < 2 ^ k) : n <<< k ||| m = n * 2 ^ k + m := by
  rw [← Nat.shiftLeft_add_eq_or_of_lt h, Nat.shiftLeft_eq]

end Bits

/-- The digits of base `2 ^ bits`, and the value that is looked up for a character -/
structure Alphabet (bits : ℕ) where
  digit : ℕ → UInt8
  value : UInt8 → ℕ
  value_digit : ∀ n < 2 ^ bits, value (digit n) = n
  digit_value : ∀ c, value c < 2 ^ bits → digit (value c) = c
  value_le : ∀ c, value c ≤ 2 ^ bits

namespace Alphabet

variable {bits : ℕ} (A : Alphabet bits)

def IsDigit (c : UInt8) : Prop := A.value c < 2 ^ bits

theorem isDigit_digit {n : ℕ} (h : n < 2 ^ bits) : A.IsDigit (A.digit n) := by
  rw [IsDigit, A.value_digit n h]
  exact h

theorem value_and_eq_zero (c : UInt8) : A.value c &&& 2 ^ bits = 0 ↔ A.IsDigit c :=
  and_two_pow_eq_zero (A.value_le c)

theorem digit_eq_iff {c : UInt8} (h : A.IsDigit c) {n : ℕ} (hn : n < 2 ^ bits) : A.digit n = c ↔
    A.value c = n := by
  constructor
  · rintro rfl
    exact A.value_digit n hn
  · rintro rfl
    exact A.digit_value c h

end Alphabet

end BookmarkFS.Library
