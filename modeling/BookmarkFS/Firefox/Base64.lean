import BookmarkFS.Library.Alphabet
import BookmarkFS.Library.Text

/-! # Base64url, as base64.c computes it

Three bytes are written as four characters, without padding. As there is one
character for each value, and one value for each character, the texts that are
accepted are those that have been written.
-/
namespace BookmarkFS.Firefox
open Library

/-- `BASE64URL_CHARS`: the table of `base64url_encode_nopad()` -/
def base64urlChars : Bytes := [
  65, 66, 67, 68, 69, 70, 71, 72, 73, 74, 75, 76, 77,
  78, 79, 80, 81, 82, 83, 84, 85, 86, 87, 88, 89, 90,
  97, 98, 99, 100, 101, 102, 103, 104, 105, 106, 107, 108, 109,
  110, 111, 112, 113, 114, 115, 116, 117, 118, 119, 120, 121, 122,
  48, 49, 50, 51, 52, 53, 54, 55, 56, 57, 45, 95]

/-- The table of `base64url_decode_nopad()`, which has 64 for everything but digits. -/
def base64urlLut : List ℕ := [
  64, 64, 64, 64, 64, 64, 64, 64, 64, 64, 64, 64, 64, 64, 64, 64,
  64, 64, 64, 64, 64, 64, 64, 64, 64, 64, 64, 64, 64, 64, 64, 64,
  64, 64, 64, 64, 64, 64, 64, 64, 64, 64, 64, 64, 64, 62, 64, 64,
  52, 53, 54, 55, 56, 57, 58, 59, 60, 61, 64, 64, 64, 64, 64, 64,
  64,  0,  1,  2,  3,  4,  5,  6,  7,  8,  9, 10, 11, 12, 13, 14,
  15, 16, 17, 18, 19, 20, 21, 22, 23, 24, 25, 64, 64, 64, 64, 63,
  64, 26, 27, 28, 29, 30, 31, 32, 33, 34, 35, 36, 37, 38, 39, 40,
  41, 42, 43, 44, 45, 46, 47, 48, 49, 50, 51, 64, 64, 64, 64, 64,
  64, 64, 64, 64, 64, 64, 64, 64, 64, 64, 64, 64, 64, 64, 64, 64,
  64, 64, 64, 64, 64, 64, 64, 64, 64, 64, 64, 64, 64, 64, 64, 64,
  64, 64, 64, 64, 64, 64, 64, 64, 64, 64, 64, 64, 64, 64, 64, 64,
  64, 64, 64, 64, 64, 64, 64, 64, 64, 64, 64, 64, 64, 64, 64, 64,
  64, 64, 64, 64, 64, 64, 64, 64, 64, 64, 64, 64, 64, 64, 64, 64,
  64, 64, 64, 64, 64, 64, 64, 64, 64, 64, 64, 64, 64, 64, 64, 64,
  64, 64, 64, 64, 64, 64, 64, 64, 64, 64, 64, 64, 64, 64, 64, 64,
  64, 64, 64, 64, 64, 64, 64, 64, 64, 64, 64, 64, 64, 64, 64, 64]

def base64Digit (n : ℕ) : UInt8 := base64urlChars.getD n 0

def base64Value (c : UInt8) : ℕ := base64urlLut.getD c.toNat 64

def threeBytes (x y z : UInt8) : ℕ := x.toNat <<< 16 ||| y.toNat <<< 8 ||| z.toNat

def fourDigits (a b c d : ℕ) : ℕ := a <<< 18 ||| b <<< 12 ||| c <<< 6 ||| d

/-- `base64url_encode_nopad()`, which asserts that the length is a multiple of 3. -/
def base64urlEncodeNopad : Bytes → Bytes
  | x :: y :: z :: s =>
    let bits := threeBytes x y z
    base64Digit ((bits >>> 18) &&& 0x3f) :: base64Digit ((bits >>> 12) &&& 0x3f) ::
      base64Digit ((bits >>> 6) &&& 0x3f) :: base64Digit (bits &&& 0x3f) :: base64urlEncodeNopad s
  | _ => []

/-- `base64url_decode_nopad()`, which asserts that the length is a multiple of 4; `none`
stands for -1. -/
def base64urlDecodeNopad : Bytes → Option Bytes
  | [] => some []
  | p :: q :: r :: t :: s =>
    if (base64Value p ||| base64Value q ||| base64Value r ||| base64Value t) &&& 64 ≠ 0 then none
    else
      let bits := fourDigits (base64Value p) (base64Value q) (base64Value r) (base64Value t)
      (base64urlDecodeNopad s).map fun dst =>
        UInt8.ofNat (bits >>> 16) :: UInt8.ofNat (bits >>> 8) :: UInt8.ofNat bits :: dst
  | _ => none

/-- The characters of `BASE64URL_CHARS` -/
def base64Url (c : UInt8) : Bool :=
  (65 ≤ c && c ≤ 90) || (97 ≤ c && c ≤ 122) || (48 ≤ c && c ≤ 57) || c = 45 || c = 95

/-! ## Digits -/

theorem base64Value_eq (c : UInt8) : base64Value c =
    if 65 ≤ c.toNat ∧ c.toNat ≤ 90 then c.toNat - 65
    else if 97 ≤ c.toNat ∧ c.toNat ≤ 122 then c.toNat - 71
    else if 48 ≤ c.toNat ∧ c.toNat ≤ 57 then c.toNat + 4
    else if c.toNat = 45 then 62 else if c.toNat = 95 then 63 else 64 :=
  getD_of_table (f := fun n => if 65 ≤ n ∧ n ≤ 90 then n - 65 else if 97 ≤ n ∧ n ≤ 122 then n - 71
    else if 48 ≤ n ∧ n ≤ 57 then n + 4 else if n = 45 then 62 else if n = 95 then 63 else 64)
    (by decide +kernel) c 64

theorem base64Url_iff (c : UInt8) : base64Url c = true ↔ base64Value c < 64 := by
  simp only [base64Url, base64Value_eq, Bool.or_eq_true, Bool.and_eq_true, decide_eq_true_eq,
    UInt8.le_iff_toNat_le, ← UInt8.toNat_inj, UInt8.reduceToNat]
  split_ifs <;> omega

/-- The digits of base64.c -/
def base64 : Alphabet 6 where
  digit := base64Digit
  value := base64Value
  value_digit := by decide +kernel
  digit_value := forall_byte (by decide +kernel)
  value_le c := by
    rw [base64Value_eq]
    split_ifs <;> omega

theorem base64Url_digit {n : ℕ} (h : n < 64) : base64Url (base64Digit n) = true :=
  (base64Url_iff _).mpr (base64.isDigit_digit h)

/-- The test of `base64url_decode_nopad()` -/
theorem base64_error {p q r t : UInt8} :
    (base64Value p ||| base64Value q ||| base64Value r ||| base64Value t) &&& 64 = 0 ↔
      ((base64Url p = true ∧ base64Url q = true) ∧ base64Url r = true) ∧ base64Url t = true := by
  have hdigit : ∀ c, base64Value c &&& 64 = 0 ↔ base64Url c = true := fun c =>
    (base64.value_and_eq_zero c).trans (base64Url_iff c).symm
  rw [or_and_eq_zero, or_and_eq_zero, or_and_eq_zero, hdigit, hdigit, hdigit, hdigit]

theorem threeBytes_eq (x y z : UInt8) : threeBytes x y z = x.toNat * 65536 +
    y.toNat * 256 + z.toNat := by
  have hy : y.toNat < 256 := y.toNat_lt
  have hz : z.toNat < 2 ^ 8 := z.toNat_lt
  have hyz : y.toNat * 2 ^ 8 + z.toNat < 2 ^ 16 := by omega
  rw [threeBytes, Nat.or_assoc, shiftLeft_or hz, shiftLeft_or hyz]
  omega

theorem fourDigits_eq {a b c d : ℕ} (hb : b < 64) (hc : c < 64) (hd : d < 64) :
    fourDigits a b c d = a * 262144 + b * 4096 + c * 64 + d := by
  have hd : d < 2 ^ 6 := hd
  have hcd : c * 2 ^ 6 + d < 2 ^ 12 := by omega
  have hbcd : b * 2 ^ 12 + (c * 2 ^ 6 + d) < 2 ^ 18 := by omega
  rw [fourDigits, Nat.or_assoc, Nat.or_assoc, shiftLeft_or hd, shiftLeft_or hcd, shiftLeft_or hbcd]
  omega

/-- Three bytes are decoded from the digits that they are encoded in. -/
theorem base64_group {p q r t : UInt8} (hp : base64Url p = true) (hq : base64Url q = true)
    (hr : base64Url r = true) (ht : base64Url t = true) (x y z : UInt8) :
    let bits := fourDigits (base64Value p) (base64Value q) (base64Value r) (base64Value t)
    (UInt8.ofNat (bits >>> 16) = x ∧ UInt8.ofNat (bits >>> 8) = y ∧ UInt8.ofNat bits = z) ↔
      base64Digit ((threeBytes x y z >>> 18) &&& 0x3f) = p ∧
      base64Digit ((threeBytes x y z >>> 12) &&& 0x3f) = q ∧
        base64Digit ((threeBytes x y z >>> 6) &&& 0x3f) = r ∧
        base64Digit (threeBytes x y z &&& 0x3f) = t := by
  have hdigit : ∀ {c : UInt8}, base64Url c = true → ∀ n, base64Digit (n &&& 0x3f) = c ↔
    base64Value c = n % 64 := by
    intro c hc n
    rw [show n &&& 0x3f = n % 64 from Nat.and_two_pow_sub_one_eq_mod n 6]
    exact base64.digit_eq_iff ((base64Url_iff c).mp hc) (show n % 64 < 64 by omega)
  have hx : x.toNat < 256 := x.toNat_lt
  have hy : y.toNat < 256 := y.toNat_lt
  have hz : z.toNat < 256 := z.toNat_lt
  rw [hdigit hp, hdigit hq, hdigit hr, hdigit ht]
  rw [base64Url_iff] at hp hq hr ht
  rw [fourDigits_eq hq hr ht, threeBytes_eq]
  simp only [← UInt8.toNat_inj, UInt8.toNat_ofNat', Nat.shiftRight_eq_div_pow]
  omega

/-! ## Byte strings -/

theorem base64Url_of_mem_encode {s : Bytes} : ∀ c ∈ base64urlEncodeNopad s, base64Url c = true := by
  have hdigit : ∀ n, base64Url (base64Digit (n &&& 0x3f)) = true := fun n => by
    rw [show n &&& 0x3f = n % 64 from Nat.and_two_pow_sub_one_eq_mod n 6]
    exact base64Url_digit (Nat.mod_lt _ (by decide))
  induction s using base64urlEncodeNopad.induct with
  | case1 x y z s ih =>
    simp only [base64urlEncodeNopad, List.mem_cons, forall_eq_or_imp]
    exact ⟨hdigit _, hdigit _, hdigit _, hdigit _, ih⟩
  | case2 s h =>
    rw [base64urlEncodeNopad]
    · exact nofun
    · exact h

theorem base64urlEncodeNopad_cons_iff {p q r t : UInt8} {s dst : Bytes} :
    dst.length % 3 = 0 ∧ base64urlEncodeNopad dst = p :: q :: r :: t :: s ↔
      ∃ x y z dst', dst = x :: y :: z :: dst' ∧
        (base64Digit ((threeBytes x y z >>> 18) &&& 0x3f) = p ∧
          base64Digit ((threeBytes x y z >>> 12) &&& 0x3f) = q ∧
          base64Digit ((threeBytes x y z >>> 6) &&& 0x3f) = r ∧
          base64Digit (threeBytes x y z &&& 0x3f) = t) ∧
        dst'.length % 3 = 0 ∧ base64urlEncodeNopad dst' = s := by
  match dst with
  | [] => simp [base64urlEncodeNopad]
  | [_] => simp
  | [_, _] => simp
  | x :: y :: z :: dst' =>
    simp [base64urlEncodeNopad, Nat.add_assoc]
    tauto

/-- Decoding is the inverse of encoding, in both directions. -/
theorem base64urlDecodeNopad_eq_some {s dst : Bytes} :
    base64urlDecodeNopad s = some dst ↔ dst.length % 3 = 0 ∧ base64urlEncodeNopad dst = s := by
  induction s using base64urlDecodeNopad.induct generalizing dst with
  | case1 =>
    match dst with
    | [] => simp [base64urlDecodeNopad, base64urlEncodeNopad]
    | [_] => simp [base64urlDecodeNopad]
    | [_, _] => simp [base64urlDecodeNopad]
    | x :: y :: z :: dst' => simp [base64urlDecodeNopad, base64urlEncodeNopad]
  | case2 p q r t s h =>
    rw [base64urlDecodeNopad, if_pos h]
    refine ⟨nofun, fun ⟨_, hs⟩ => absurd (base64_error.mpr ?_) h⟩
    have hdigit := base64Url_of_mem_encode (s := dst)
    simp only [hs, List.mem_cons, forall_eq_or_imp] at hdigit
    exact ⟨⟨⟨hdigit.1, hdigit.2.1⟩, hdigit.2.2.1⟩, hdigit.2.2.2.1⟩
  | case3 p q r t s h ih =>
    obtain ⟨⟨⟨hp, hq⟩, hr⟩, ht⟩ := base64_error.mp (not_not.mp h)
    rw [base64urlDecodeNopad, if_neg h, base64urlEncodeNopad_cons_iff]
    simp only [Option.map_eq_some_iff, ← base64_group hp hq hr ht, ← ih]
    constructor
    · rintro ⟨dst', hdst, rfl⟩
      exact ⟨_, _, _, dst', rfl, ⟨rfl, rfl, rfl⟩, hdst⟩
    · rintro ⟨x, y, z, dst', rfl, ⟨rfl, rfl, rfl⟩, hdst⟩
      exact ⟨dst', hdst, rfl⟩
  | case4 s hnil hcons =>
    rw [base64urlDecodeNopad]
    · refine ⟨nofun, fun ⟨hlen, hs⟩ => ?_⟩
      match dst, hlen with
      | [], _ => exact absurd hs.symm hnil
      | x :: y :: z :: dst', _ => exact absurd hs.symm (hcons _ _ _ _ _)
    · exact hnil
    · exact hcons

/-- All that is required of a text is that it consists of digits. -/
theorem base64urlDecodeNopad_accepts {s : Bytes} (h : s.length % 4 = 0) :
    (∃ dst, base64urlDecodeNopad s = some dst) ↔ ∀ c ∈ s, base64Url c = true := by
  induction s using base64urlDecodeNopad.induct with
  | case1 => simp [base64urlDecodeNopad]
  | case2 p q r t s herr =>
    rw [base64urlDecodeNopad, if_pos herr]
    refine ⟨nofun, fun hs => absurd (base64_error.mpr ?_) herr⟩
    simp only [List.mem_cons, forall_eq_or_imp] at hs
    exact ⟨⟨⟨hs.1, hs.2.1⟩, hs.2.2.1⟩, hs.2.2.2.1⟩
  | case3 p q r t s hok ih =>
    obtain ⟨⟨⟨hp, hq⟩, hr⟩, ht⟩ := base64_error.mp (not_not.mp hok)
    have hs : s.length % 4 = 0 := by simpa [Nat.add_assoc] using h
    simp [base64urlDecodeNopad, hok, hp, hq, hr, ht, ← ih hs]
  | case4 s hnil hcons =>
    match s, h with
    | [], _ => exact absurd rfl hnil
    | p :: q :: r :: t :: s, _ => exact absurd rfl (hcons _ _ _ _ _)

/-- Whatever is encoded is decoded again, and the texts that are accepted are those that have
been encoded. -/
theorem base64url_inverts :
    (∀ b : Bytes, b.length % 3 = 0 → base64urlDecodeNopad (base64urlEncodeNopad b) = some b) ∧
    (∀ s : Bytes, s.length % 4 = 0 →
      ((∃ b, base64urlDecodeNopad s = some b) ↔ ∀ c ∈ s, base64Url c = true)) ∧
    ∀ s b, base64urlDecodeNopad s = some b → base64urlEncodeNopad b = s :=
  ⟨fun _ h => base64urlDecodeNopad_eq_some.mpr ⟨h, rfl⟩, fun _ => base64urlDecodeNopad_accepts,
    fun _ _ hrun => (base64urlDecodeNopad_eq_some.mp hrun).2⟩

/-- The bytes 0, 0xff and 0x3f -/
theorem base64url_inverts_three : base64urlEncodeNopad [0, 0xff, 0x3f] = [65, 80, 56, 95] ∧
    base64urlDecodeNopad (base64urlEncodeNopad [0, 0xff, 0x3f]) = some [0, 0xff, 0x3f] :=
  ⟨by decide, base64url_inverts.1 _ rfl⟩

end BookmarkFS.Firefox
