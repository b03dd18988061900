import BookmarkFS.Library.Alphabet
import BookmarkFS.Library.Text

/-! # Base16 and UUIDs, as base16.c and uuid.c compute them

The digits are those of RFC 4648 with letters in lowercase, for decoding as well as
for encoding, so that there is one way to write down a byte string, or a UUID.
-/
namespace BookmarkFS.Chromium
open Library

/-- The encoding table of `base16_encode()`. -/
def base16Digit (n : ℕ) : UInt8 := if n < 10 then UInt8.ofNat (48 + n) else UInt8.ofNat (87 + n)

/-- The table of `base16_decode()`, which has 16 for everything but digits. -/
def base16Lut : List ℕ := [
  16, 16, 16, 16, 16, 16, 16, 16, 16, 16, 16, 16, 16, 16, 16, 16,
  16, 16, 16, 16, 16, 16, 16, 16, 16, 16, 16, 16, 16, 16, 16, 16,
  16, 16, 16, 16, 16, 16, 16, 16, 16, 16, 16, 16, 16, 16, 16, 16,
   0,  1,  2,  3,  4,  5,  6,  7,  8,  9, 16, 16, 16, 16, 16, 16,
  16, 16, 16, 16, 16, 16, 16, 16, 16, 16, 16, 16, 16, 16, 16, 16,
  16, 16, 16, 16, 16, 16, 16, 16, 16, 16, 16, 16, 16, 16, 16, 16,
  16, 10, 11, 12, 13, 14, 15, 16, 16, 16, 16, 16, 16, 16, 16, 16,
  16, 16, 16, 16, 16, 16, 16, 16, 16, 16, 16, 16, 16, 16, 16, 16,
  16, 16, 16, 16, 16, 16, 16, 16, 16, 16, 16, 16, 16, 16, 16, 16,
  16, 16, 16, 16, 16, 16, 16, 16, 16, 16, 16, 16, 16, 16, 16, 16,
  16, 16, 16, 16, 16, 16, 16, 16, 16, 16, 16, 16, 16, 16, 16, 16,
  16, 16, 16, 16, 16, 16, 16, 16, 16, 16, 16, 16, 16, 16, 16, 16,
  16, 16, 16, 16, 16, 16, 16, 16, 16, 16, 16, 16, 16, 16, 16, 16,
  16, 16, 16, 16, 16, 16, 16, 16, 16, 16, 16, 16, 16, 16, 16, 16,
  16, 16, 16, 16, 16, 16, 16, 16, 16, 16, 16, 16, 16, 16, 16, 16,
  16, 16, 16, 16, 16, 16, 16, 16, 16, 16, 16, 16, 16, 16, 16, 16]

def base16Value (c : UInt8) : ℕ := base16Lut.getD c.toNat 16

def base16Encode : Bytes → Bytes
  | [] => []
  | c :: s => base16Digit (c.toNat / 16) :: base16Digit (c.toNat % 16) :: base16Encode s

/-- `base16_decode()`; `none` stands for -1. -/
def base16Decode : Bytes → Option Bytes
  | [] => some []
  | [_] => none
  | c :: d :: s =>
    if (base16Value c ||| base16Value d) &&& 16 ≠ 0 then none
    else (base16Decode s).map (UInt8.ofNat (base16Value c <<< 4 ||| base16Value d) :: ·)

/-- `UUID_LEN` -/
def uuidLen : ℕ := 16

/-- `UUID_HEX_LEN` -/
def uuidHexLen : ℕ := 36

def dash : UInt8 := 45

/-- `uuid_bin2hex()` -/
def uuidBin2hex (src : Bytes) : Bytes :=
  base16Encode (src.take 4) ++ dash :: base16Encode ((src.drop 4).take 2) ++
    dash :: base16Encode ((src.drop 6).take 2) ++ dash :: base16Encode ((src.drop 8).take 2) ++
    dash :: base16Encode ((src.drop 10).take 6)

/-- `uuid_hex2bin()` -/
def uuidHex2bin (src : Bytes) : Option Bytes := do
  let timeLow ← base16Decode (src.take 8)
  guard (src[8]? = some dash)
  let timeMid ← base16Decode ((src.drop 9).take 4)
  guard (src[13]? = some dash)
  let timeHi ← base16Decode ((src.drop 14).take 4)
  guard (src[18]? = some dash)
  let clock ← base16Decode ((src.drop 19).take 4)
  guard (src[23]? = some dash)
  let node ← base16Decode ((src.drop 24).take 12)
  some (timeLow ++ timeMid ++ timeHi ++ clock ++ node)

/-! ## Digits -/

theorem base16Value_eq (c : UInt8) : base16Value c =
    if 48 ≤ c.toNat ∧ c.toNat ≤ 57 then c.toNat - 48
    else if 97 ≤ c.toNat ∧ c.toNat ≤ 102 then c.toNat - 87 else 16 :=
  getD_of_table (f := fun n => if 48 ≤ n ∧ n ≤ 57 then n - 48 else if 97 ≤ n ∧
    n ≤ 102 then n - 87 else 16)
    (by decide +kernel) c 16

/-- The digits of base16.c -/
def base16 : Alphabet 4 where
  digit := base16Digit
  value := base16Value
  value_digit := by decide
  digit_value c := by
    rw [base16Value_eq, base16Digit, ← UInt8.toNat_inj]
    split_ifs <;> rw [UInt8.toNat_ofNat'] <;> omega
  value_le c := by
    rw [base16Value_eq]
    split_ifs <;> omega

/-- A hexadecimal digit, with letters in lowercase -/
def IsHexDigit (c : UInt8) : Prop := (48 ≤ c ∧ c ≤ 57) ∨ (97 ≤ c ∧ c ≤ 102)

instance : DecidablePred IsHexDigit := fun _ => inferInstanceAs (Decidable (_ ∨ _))

theorem base16_isDigit (c : UInt8) : base16.IsDigit c ↔ IsHexDigit c := by
  show base16Value c < 16 ↔ _
  simp only [base16Value_eq, IsHexDigit, UInt8.le_iff_toNat_le, UInt8.reduceToNat]
  split_ifs <;> omega

theorem isHexDigit_digit {n : ℕ} (h : n < 16) : IsHexDigit (base16Digit n) :=
  (base16_isDigit _).mp (base16.isDigit_digit h)

theorem IsHexDigit.ascii {c : UInt8} (h : IsHexDigit c) : c.toNat < 0x80 := by
  simp only [IsHexDigit, UInt8.le_iff_toNat_le, UInt8.reduceToNat] at h
  omega

/-- The test of `base16_decode()` -/
theorem base16_error {c d : UInt8} :
    (base16Value c ||| base16Value d) &&& 16 = 0 ↔ IsHexDigit c ∧ IsHexDigit d := by
  rw [or_and_eq_zero, ← base16_isDigit, ← base16_isDigit]
  exact and_congr (base16.value_and_eq_zero c) (base16.value_and_eq_zero d)

theorem base16_group {c d : UInt8} (hc : IsHexDigit c) (hd : IsHexDigit d) (b : UInt8) :
    UInt8.ofNat (base16Value c <<< 4 ||| base16Value d) = b ↔
      base16Digit (b.toNat / 16) = c ∧ base16Digit (b.toNat % 16) = d := by
  rw [← base16_isDigit] at hc hd
  have hb : b.toNat < 256 := b.toNat_lt
  have hvc : base16Value c < 16 := hc
  have hvd : base16Value d < 2 ^ 4 := hd
  have hhi : base16Digit (b.toNat / 16) = c ↔ base16Value c = b.toNat / 16 :=
    base16.digit_eq_iff hc (show b.toNat / 16 < 16 by omega)
  have hlo : base16Digit (b.toNat % 16) = d ↔ base16Value d = b.toNat % 16 :=
    base16.digit_eq_iff hd (show b.toNat % 16 < 16 by omega)
  rw [hhi, hlo, shiftLeft_or hvd, ← UInt8.toNat_inj, UInt8.toNat_ofNat']
  omega

/-! ## Byte strings -/

@[simp] theorem length_base16Encode (s : Bytes) : (base16Encode s).length = 2 * s.length := by
  induction s with
  | nil => rfl
  | cons c s ih => simp only [base16Encode, List.length_cons, ih]; omega

theorem isHexDigit_of_mem_encode {s : Bytes} : ∀ c ∈ base16Encode s, IsHexDigit c := by
  induction s with
  | nil => exact nofun
  | cons b s ih =>
    have hb : b.toNat < 256 := b.toNat_lt
    simp only [base16Encode, List.mem_cons, forall_eq_or_imp]
    exact ⟨isHexDigit_digit (by omega), isHexDigit_digit (by omega), ih⟩

/-- Decoding is the inverse of encoding, in both directions. -/
theorem base16Decode_eq_some {s t : Bytes} : base16Decode s = some t ↔ base16Encode t = s := by
  induction s using base16Decode.induct generalizing t with
  | case1 => cases t <;> simp [base16Decode, base16Encode]
  | case2 => cases t <;> simp [base16Decode, base16Encode]
  | case3 c d s h =>
    rw [base16Decode, if_pos h]
    refine ⟨nofun, fun ht => absurd (base16_error.mpr ⟨?_, ?_⟩) h⟩
    · exact isHexDigit_of_mem_encode (s := t) c (by simp [ht])
    · exact isHexDigit_of_mem_encode (s := t) d (by simp [ht])
  | case4 c d s h ih =>
    obtain ⟨hc, hd⟩ := base16_error.mp (not_not.mp h)
    rw [base16Decode, if_neg h, Option.map_eq_some_iff]
    cases t with
    | nil => simp [base16Encode]
    | cons b t =>
      rw [base16Encode, List.cons.injEq, List.cons.injEq, ← and_assoc, ← base16_group hc hd, ← ih]
      simp [and_comm]

theorem base16Decode_accepts {s : Bytes} (h : s.length % 2 = 0) :
    (∃ t, base16Decode s = some t) ↔ ∀ c ∈ s, IsHexDigit c := by
  induction s using base16Decode.induct with
  | case1 => simp [base16Decode]
  | case2 => cases h
  | case3 c d s herr =>
    rw [base16Decode, if_pos herr]
    refine ⟨nofun, fun hs => absurd (base16_error.mpr ⟨hs c ?_, hs d ?_⟩) herr⟩ <;> simp
  | case4 c d s hok ih =>
    obtain ⟨hc, hd⟩ := base16_error.mp (not_not.mp hok)
    have hs : s.length % 2 = 0 := by simpa [Nat.add_assoc] using h
    simp [base16Decode, hok, hc, hd, ← ih hs]

theorem base16Decode_encode (s : Bytes) : base16Decode (base16Encode s) = some s :=
    base16Decode_eq_some.mpr rfl

section Uuid

variable {guid s : Bytes}

theorem length_uuidBin2hex (h : guid.length = uuidLen) :
    (uuidBin2hex guid).length = uuidHexLen := by
  simp [uuidBin2hex, uuidLen, uuidHexLen] at h ⊢
  omega

/-- `uuid_hex2bin()` undoes `uuid_bin2hex()`. -/
theorem uuidHex2bin_bin2hex (h : guid.length = uuidLen) :
    uuidHex2bin (uuidBin2hex guid) = some guid := by
  match guid, h with
  | [a, b, c, d, e, f, g, h, i, j, k, l, m, n, o, p], _ =>
    let hex := uuidBin2hex [a, b, c, d, e, f, g, h, i, j, k, l, m, n, o, p]
    have h₁ : hex.take 8 = base16Encode [a, b, c, d] := rfl
    have h₂ : (hex.drop 9).take 4 = base16Encode [e, f] := rfl
    have h₃ : (hex.drop 14).take 4 = base16Encode [g, h] := rfl
    have h₄ : (hex.drop 19).take 4 = base16Encode [i, j] := rfl
    have h₅ : (hex.drop 24).take 12 = base16Encode [k, l, m, n, o, p] := rfl
    have hdash : hex[8]? = some dash ∧ hex[13]? = some dash ∧ hex[18]? = some dash ∧
      hex[23]? = some dash := ⟨rfl, rfl, rfl, rfl⟩
    show uuidHex2bin hex = _
    simp only [uuidHex2bin, h₁, h₂, h₃, h₄, h₅, hdash, base16Decode_encode, guard, if_true]
    rfl

/-- Text of the form 8-4-4-4-12 -/
def IsUuidText (s : Bytes) : Prop :=
  ∃ a b c d e : Bytes, s = a ++ dash :: (b ++ dash :: (c ++ dash :: (d ++ dash :: e))) ∧
    (a.length = 8 ∧ b.length = 4 ∧ c.length = 4 ∧ d.length = 4 ∧ e.length = 12) ∧
    ∀ x ∈ a ++ b ++ c ++ d ++ e, IsHexDigit x

theorem uuidBin2hex_parts {a b c d e : Bytes} (ha : a.length = 4) (hb : b.length = 2)
    (hc : c.length = 2) (hd : d.length = 2) (he : e.length = 6) :
    uuidBin2hex (a ++ b ++ c ++ d ++ e) = base16Encode a ++ dash :: (base16Encode b ++ dash ::
      (base16Encode c ++ dash :: (base16Encode d ++ dash :: base16Encode e))) := by
  simp [uuidBin2hex, List.drop_append, ha, hb, hc, hd, List.take_of_length_le,
    List.drop_of_length_le, he]

theorem isUuidText_bin2hex (h : guid.length = uuidLen) : IsUuidText (uuidBin2hex guid) := by
  rw [uuidLen] at h
  refine ⟨base16Encode (guid.take 4), base16Encode ((guid.drop 4).take 2),
    base16Encode ((guid.drop 6).take 2),
    base16Encode ((guid.drop 8).take 2), base16Encode ((guid.drop 10).take 6), ?_, ?_, ?_⟩
  · simp only [uuidBin2hex, List.append_assoc, List.cons_append]
  · simp only [length_base16Encode, List.length_take, List.length_drop, h]
    decide
  · simp only [List.mem_append, or_imp, forall_and]
    exact ⟨⟨⟨⟨isHexDigit_of_mem_encode, isHexDigit_of_mem_encode⟩, isHexDigit_of_mem_encode⟩,
      isHexDigit_of_mem_encode⟩, isHexDigit_of_mem_encode⟩

theorem IsUuidText.ascii (h : IsUuidText s) : ∀ x ∈ s, x.toNat < 0x80 := by
  obtain ⟨a, b, c, d, e, rfl, -, hdigit⟩ := h
  have hdash : dash.toNat < 0x80 := by decide
  intro x hx
  simp only [List.mem_append, List.mem_cons] at hx hdigit
  rcases hx with hx | rfl | hx | rfl | hx | rfl | hx | rfl | hx
  · exact (hdigit x (by tauto)).ascii
  · exact hdash
  · exact (hdigit x (by tauto)).ascii
  · exact hdash
  · exact (hdigit x (by tauto)).ascii
  · exact hdash
  · exact (hdigit x (by tauto)).ascii
  · exact hdash
  · exact (hdigit x (by tauto)).ascii

theorem cut_at {c : UInt8} {k m : ℕ} (h : s[k + m]? = some c) :
    s.drop k = (s.drop k).take m ++ c :: s.drop (k + m + 1) := by
  obtain ⟨hlt, hc⟩ := List.getElem?_eq_some_iff.mp h
  conv_lhs => rw [← List.take_append_drop m (s.drop k), List.drop_drop,
    List.drop_eq_getElem_cons hlt, hc]

/-- What is read of the text is all that there is. -/
theorem uuidHex2bin_eq_some (h : s.length = uuidHexLen) :
    uuidHex2bin s = some guid ↔ guid.length = uuidLen ∧ uuidBin2hex guid = s := by
  refine ⟨fun hrun => ?_, fun ⟨hlen, heq⟩ => heq ▸ uuidHex2bin_bin2hex hlen⟩
  simp only [uuidHex2bin, Option.bind_eq_bind, Option.bind_eq_some_iff, Option.guard_eq_some',
    Option.some_inj] at hrun
  obtain ⟨a, ha, -, h8, b, hb, -, h13, c, hc, -, h18, d, hd, -, h23, e, he, rfl⟩ := hrun
  rw [base16Decode_eq_some] at ha hb hc hd he
  have hlen := congrArg List.length ha
  have hlen₁ := congrArg List.length hb
  have hlen₂ := congrArg List.length hc
  have hlen₃ := congrArg List.length hd
  have hlen₄ := congrArg List.length he
  rw [uuidHexLen] at h
  simp only [length_base16Encode, List.length_take, List.length_drop,
    h] at hlen hlen₁ hlen₂ hlen₃ hlen₄
  refine ⟨by simp only [List.length_append, uuidLen]; omega, ?_⟩
  rw [uuidBin2hex_parts (by omega) (by omega) (by omega) (by omega) (by omega), ha, hb, hc, hd, he]
  calc s.take 8 ++ dash :: ((s.drop 9).take 4 ++ dash :: ((s.drop 14).take 4 ++ dash ::
        ((s.drop 19).take 4 ++ dash :: (s.drop 24).take 12)))
      = s.take 8 ++ dash :: s.drop 9 := by
        rw [List.take_of_length_le (l := s.drop 24) (by rw [List.length_drop, h]), ← cut_at h23, ←
          cut_at h18, ← cut_at h13]
    _ = s := (cut_at (k := 0) h8).symm

theorem uuidHex2bin_accepts (h : s.length = uuidHexLen) : (∃ guid, uuidHex2bin s = some guid) ↔
    IsUuidText s := by
  constructor
  · rintro ⟨guid, hrun⟩
    obtain ⟨hlen, rfl⟩ := (uuidHex2bin_eq_some h).mp hrun
    exact isUuidText_bin2hex hlen
  · rintro ⟨a, b, c, d, e, rfl, ⟨ha, hb, hc, hd, he⟩, hdigit⟩
    simp only [List.mem_append, or_imp, forall_and] at hdigit
    obtain ⟨⟨⟨⟨hda, hdb⟩, hdc⟩, hdd⟩, hde⟩ := hdigit
    obtain ⟨a', ha'⟩ := (base16Decode_accepts (by rw [ha])).mpr hda
    obtain ⟨b', hb'⟩ := (base16Decode_accepts (by rw [hb])).mpr hdb
    obtain ⟨c', hc'⟩ := (base16Decode_accepts (by rw [hc])).mpr hdc
    obtain ⟨d', hd'⟩ := (base16Decode_accepts (by rw [hd])).mpr hdd
    obtain ⟨e', he'⟩ := (base16Decode_accepts (by rw [he])).mpr hde
    rw [base16Decode_eq_some] at ha' hb' hc' hd' he'
    subst ha' hb' hc' hd' he'
    rw [length_base16Encode] at ha hb hc hd he
    refine ⟨a' ++ b' ++ c' ++ d' ++ e', ?_⟩
    rw [← uuidBin2hex_parts (by omega) (by omega) (by omega) (by omega) (by omega)]
    exact uuidHex2bin_bin2hex (by simp only [List.length_append, uuidLen]; omega)

end Uuid

/-- Whatever is encoded is decoded again, and the texts that are accepted are those that have
been encoded. -/
theorem codecs_invert :
    (∀ b, base16Decode (base16Encode b) = some b) ∧
    (∀ u : Bytes, u.length = 16 → uuidHex2bin (uuidBin2hex u) = some u) ∧
    (∀ s : Bytes, s.length % 2 = 0 → ((∃ b, base16Decode s = some b) ↔ ∀ c ∈ s, IsHexDigit c)) ∧
    (∀ s : Bytes, s.length = 36 → ((∃ u, uuidHex2bin s = some u) ↔ IsUuidText s)) ∧
    (∀ s b, base16Decode s = some b → base16Encode b = s) ∧
    ∀ s u : Bytes, s.length = 36 → uuidHex2bin s = some u → uuidBin2hex u = s :=
  ⟨base16Decode_encode, fun _ => uuidHex2bin_bin2hex, fun _ => base16Decode_accepts,
    fun _ => uuidHex2bin_accepts,
    fun _ _ => base16Decode_eq_some.mp, fun _ _ h hrun => ((uuidHex2bin_eq_some h).mp hrun).2⟩

/-- A UUID whose bytes are all 0xa5 -/
theorem codecs_invert_repeated : (uuidBin2hex (List.replicate 16 0xa5)).take 9 =
    [97, 53, 97, 53, 97, 53, 97, 53, dash] ∧
    uuidHex2bin (uuidBin2hex (List.replicate 16 0xa5)) = some (List.replicate 16 0xa5) :=
  ⟨by decide, codecs_invert.2.1 _ rfl⟩

/-- Digits are not accepted in uppercase. -/
example : base16Decode [70, 48] = none ∧ base16Decode [102, 48] = some [0xf0] := by decide

end BookmarkFS.Chromium
