import Mathlib.Data.List.TakeWhile
import Mathlib.Tactic

/-! # C strings and numbers written in them

Strings are byte lists. `strtoull()` and `strtoll()` scan the part of a string
before its first NUL, and `decimal` is what `printf()` writes for an unsigned
number; scanning gives back what has been printed.
-/
namespace BookmarkFS.Library

abbrev Bytes := List UInt8

/-- The part of a string that functions on NUL-terminated strings see. -/
def cString (s : Bytes) : Bytes := s.takeWhile (· ≠ 0)

/-- A string without NULs, which is all that `strlen()` lets a function see. -/
abbrev CString := { s : Bytes // (0 : UInt8) ∉ s }

/-- `isspace()` in the C locale. -/
def isSpace (c : UInt8) : Bool := c = 32 || (9 ≤ c.toNat && c.toNat ≤ 13)

def isDigit (c : UInt8) : Bool := 48 ≤ c.toNat && c.toNat ≤ 57

def digitsValue (s : Bytes) : ℕ := s.foldl (fun v c => 10 * v + (c.toNat - 48)) 0

/-- The optional sign of a number, and whether it is a minus. -/
def scanSign : Bytes → Bool × Bytes
  | [] => (false, [])
  | c :: s => if c = 45 then (true, s) else if c = 43 then (false, s) else (false, c :: s)

/-- Sign, magnitude and what follows a decimal number; `none` when there is no conversion. -/
def scanInteger (s : Bytes) : Option (Bool × ℕ × Bytes) :=
  let (minus, t) := scanSign (s.dropWhile isSpace)
  if t.takeWhile isDigit = [] then
    none
  else
    some (minus, digitsValue (t.takeWhile isDigit), t.dropWhile isDigit)

/-- `strtoull()` in base 10, with the part of the string at `end`. -/
def strtoull (s : Bytes) : ℕ × Bytes :=
  match scanInteger (cString s) with
  | none => (0, cString s)
  | some (minus, v, rest) =>
    (if 2 ^ 64 ≤ v then 2 ^ 64 - 1 else if minus then (2 ^ 64 - v) % 2 ^ 64 else v, rest)

/-- `strtoll()` in base 10, with the part of the string at `end`. -/
def strtoll (s : Bytes) : ℤ × Bytes :=
  match scanInteger (cString s) with
  | none => (0, cString s)
  | some (minus, v, rest) =>
    (if minus then max (-2 ^ 63) (-v) else min (2 ^ 63 - 1) v, rest)

def decimalAux : ℕ → ℕ → Bytes
  | 0, n => [UInt8.ofNat (48 + n)]
  | fuel + 1, n =>
    if n < 10 then [UInt8.ofNat (48 + n)]
    else decimalAux fuel (n / 10) ++ [UInt8.ofNat (48 + n % 10)]

def decimal (n : ℕ) : Bytes := decimalAux n n

section Decimal

theorem digit_toNat {d : ℕ} (h : d < 10) : (UInt8.ofNat (48 + d)).toNat = 48 + d := by
  rw [UInt8.toNat_ofNat']
  omega

theorem isDigit_digit {d : ℕ} (h : d < 10) : isDigit (UInt8.ofNat (48 + d)) = true := by
  simp only [isDigit, digit_toNat h, Bool.and_eq_true, decide_eq_true_eq]
  omega

theorem digitsValue_append (s : Bytes) (c : UInt8) :
    digitsValue (s ++ [c]) = 10 * digitsValue s + (c.toNat - 48) := by
  simp [digitsValue]

/-- By induction on the fuel, which is at least the number printed. -/
theorem decimalAux_spec (fuel n : ℕ) (h : n ≤ fuel) :
    decimalAux fuel n ≠ [] ∧ (∀ c ∈ decimalAux fuel n, isDigit c = true) ∧
      digitsValue (decimalAux fuel n) = n := by
  induction fuel generalizing n with
  | zero =>
    obtain rfl : n = 0 := by omega
    exact ⟨List.cons_ne_nil _ _, fun c hc => List.mem_singleton.mp hc ▸ rfl, rfl⟩
  | succ fuel ih =>
    by_cases hn : n < 10
    · rw [decimalAux, if_pos hn]
      refine ⟨by simp, fun c hc => List.mem_singleton.mp hc ▸ isDigit_digit hn, ?_⟩
      simp only [digitsValue, List.foldl_cons, List.foldl_nil, digit_toNat hn]
      omega
    · obtain ⟨-, hdigits, hvalue⟩ := ih (n / 10) (by omega)
      have hmod : n % 10 < 10 := Nat.mod_lt _ (by decide)
      rw [decimalAux, if_neg hn]
      refine ⟨by simp, fun c hc => ?_, ?_⟩
      · rcases List.mem_append.mp hc with hc | hc
        · exact hdigits c hc
        · exact List.mem_singleton.mp hc ▸ isDigit_digit hmod
      · rw [digitsValue_append, hvalue, digit_toNat hmod]
        omega

theorem decimal_ne_nil (n : ℕ) : decimal n ≠ [] := (decimalAux_spec n n le_rfl).1

theorem decimal_length_le {n k : ℕ} (h : n < 10 ^ (k + 1)) : (decimal n).length ≤ k + 1 := by
  suffices ∀ fuel n k, n ≤ fuel → n < 10 ^ (k + 1) → (decimalAux fuel n).length ≤ k + 1 from
    this n n k le_rfl h
  clear h n k
  intro fuel
  induction fuel with
  | zero => exact fun n k _ _ => by simp [decimalAux]
  | succ fuel ih =>
    intro n k hn hlt
    rw [decimalAux]
    split
    · simp
    · cases k with
      | zero => omega
      | succ k =>
        have := ih (n / 10) k (by omega) (by rw [pow_succ] at hlt; omega)
        simpa using this

theorem isDigit_of_mem_decimal {n : ℕ} {c : UInt8} (h : c ∈ decimal n) : isDigit c = true :=
  (decimalAux_spec n n le_rfl).2.1 c h

theorem digitsValue_decimal (n : ℕ) : digitsValue (decimal n) = n :=
  (decimalAux_spec n n le_rfl).2.2

theorem of_isDigit {c : UInt8} (h : isDigit c = true) :
    isSpace c = false ∧ c ≠ 45 ∧ c ≠ 43 ∧ c ≠ 0 := by
  simp only [isDigit, Bool.and_eq_true, decide_eq_true_eq] at h
  refine ⟨?_, ?_, ?_, ?_⟩
  · simp only [isSpace, Bool.or_eq_false_iff, decide_eq_false_iff_not, Bool.and_eq_false_iff]
    exact ⟨by rintro rfl; simp at h, by omega⟩
  all_goals rintro rfl; simp at h

@[simp] theorem cString_decimal (n : ℕ) : cString (decimal n) = decimal n := by
  refine List.takeWhile_eq_self_iff.mpr fun c hc => ?_
  simpa using (of_isDigit (isDigit_of_mem_decimal hc)).2.2.2

theorem scanInteger_decimal (n : ℕ) : scanInteger (decimal n) = some (false, n, []) := by
  have htake : (decimal n).takeWhile isDigit = decimal n :=
    List.takeWhile_eq_self_iff.mpr fun c hc => isDigit_of_mem_decimal hc
  have hdrop : (decimal n).dropWhile isDigit = [] :=
    List.dropWhile_eq_nil_iff.mpr fun c hc => isDigit_of_mem_decimal hc
  have hsign : scanSign ((decimal n).dropWhile isSpace) = (false, decimal n) := by
    cases h : decimal n with
    | nil => exact absurd h (decimal_ne_nil n)
    | cons c s =>
      obtain ⟨hspace, hminus, hplus, -⟩ :=
        of_isDigit (isDigit_of_mem_decimal (h ▸ List.mem_cons_self))
      simp [hspace, scanSign, hminus, hplus]
  simp only [scanInteger, hsign, htake, hdrop, if_neg (decimal_ne_nil n), digitsValue_decimal]

theorem strtoull_decimal {n : ℕ} (h : n < 2 ^ 64) : strtoull (decimal n) = (n, []) := by
  simp only [strtoull, cString_decimal, scanInteger_decimal]
  rw [if_neg (by omega)]
  simp

theorem strtoll_decimal {n : ℕ} (h : n < 2 ^ 63) : strtoll (decimal n) = ((n : ℤ), []) := by
  simp only [strtoll, cString_decimal, scanInteger_decimal]
  rw [if_neg (by decide)]
  have : min (2 ^ 63 - 1) (n : ℤ) = n := by omega
  rw [this]

end Decimal

/-! ## UTF-8 -/

/-- How many continuation bytes a character still needs, and the bounds of the next one. -/
structure Utf8State where
  owed : ℕ
  lo : ℕ
  hi : ℕ

def Utf8State.start : Utf8State := ⟨0, 0x80, 0xbf⟩

/-- One byte of UTF-8 without overlong forms, surrogates and code points above U+10FFFF. -/
def Utf8State.step (q : Utf8State) (c : UInt8) : Option Utf8State :=
  let b := c.toNat
  if 0 < q.owed then
    if q.lo ≤ b ∧ b ≤ q.hi then some ⟨q.owed - 1, 0x80, 0xbf⟩ else none
  else if b < 0x80 then some .start
  else if b < 0xc2 then none
  else if b < 0xe0 then some ⟨1, 0x80, 0xbf⟩
  else if b < 0xf0 then some ⟨2, if b = 0xe0 then 0xa0 else 0x80, if b = 0xed then 0x9f else 0xbf⟩
  else if b < 0xf5 then some ⟨3, if b = 0xf0 then 0x90 else 0x80, if b = 0xf4 then 0x8f else 0xbf⟩
  else none

def Utf8State.accepts (q : Utf8State) : Bytes → Bool
  | [] => q.owed = 0
  | c :: s => match q.step c with
    | none => false
    | some q => q.accepts s

def validUtf8 (s : Bytes) : Bool := Utf8State.start.accepts s

example : validUtf8 [0x61, 0xc3, 0xa9] = true ∧ validUtf8 [0xc0, 0x80] = false := by decide

theorem validUtf8_of_ascii {s : Bytes} (h : ∀ c ∈ s, c.toNat < 0x80) : validUtf8 s = true := by
  induction s with
  | nil => rfl
  | cons c s ih =>
    have hstep : Utf8State.start.step c = some .start := by
      simp [Utf8State.step, Utf8State.start, h c List.mem_cons_self]
    rw [validUtf8, Utf8State.accepts, hstep]
    exact ih fun d hd => h d (List.mem_cons_of_mem _ hd)

end BookmarkFS.Library
