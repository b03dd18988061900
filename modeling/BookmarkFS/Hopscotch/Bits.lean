import Mathlib.Data.BitVec
import Mathlib.Tactic

/-! # Words and bit masks of the hopscotch table

A bucket keeps its hop bitmask and the fragment of a hashcode in one machine
word. The lower `exp` bits are the hop mask; the home bucket is named by the
upper `exp` bits of a hashcode, which are exactly the bits its fragment lacks.
-/
namespace BookmarkFS.Hopscotch

/-- `HASHMAP_WORD_SIZE` is 64 or 32, according to `unsigned long`. -/
inductive WordSize where
  | w32
  | w64
  deriving DecidableEq

def WordSize.bits : WordSize → ℕ
  | .w32 => 32
  | .w64 => 64

/-- `HOP_IDX_WIDTH`: the binary logarithm of the word size. -/
def WordSize.hopIdxWidth : WordSize → ℕ
  | .w32 => 5
  | .w64 => 6

abbrev Word (w : WordSize) := BitVec w.bits

/-- `EXP_MIN` -/
def expMin : ℕ := 8

/-- `EXP_MAX` -/
def WordSize.expMax (w : WordSize) : ℕ := w.bits - w.hopIdxWidth - 1

variable {w : WordSize}

theorem expMax_lt_bits (w : WordSize) : w.expMax < w.bits := by
  cases w <;> decide

theorem expMax_lt_hopRange (w : WordSize) : w.expMax < 2 ^ w.hopIdxWidth := by
  cases w <;> decide

theorem expMax_add_hopIdxWidth (w : WordSize) : w.expMax + w.hopIdxWidth + 1 = w.bits := by
  cases w <;> rfl

theorem expMin_lt_expMax (w : WordSize) : expMin < w.expMax := by
  cases w <;> decide

/-- `BUCKET_CNT(exp)` -/
def bucketCnt (exp : ℕ) : ℕ := 2 ^ exp + (exp - 1)

/-- `BUCKET_HOP_MASK(exp)` -/
def bucketHopMask (w : WordSize) (exp : ℕ) : Word w := BitVec.twoPow w.bits exp - 1#w.bits

/-- `BUCKET_HASH_MASK(exp)` -/
def bucketHashMask (w : WordSize) (exp : ℕ) : Word w := ~~~bucketHopMask w exp

/-- `HASH_TO_IDX(hash, exp)` -/
def hashToIdx (hash : Word w) (exp : ℕ) : ℕ := (hash >>> (w.bits - exp)).toNat

/-- `PACK_ID(hash_i, hop_i)` -/
def packId (w : WordSize) (hashIdx hopIdx : ℕ) : Word w :=
  (BitVec.ofNat w.bits hashIdx <<< w.hopIdxWidth) + BitVec.ofNat w.bits hopIdx

/-- `BIT_SET(b, i)` -/
def bitSet (b : Word w) (i : ℕ) : Word w := b ||| BitVec.twoPow w.bits i

/-- `BIT_UNSET(b, i)` -/
def bitUnset (b : Word w) (i : ℕ) : Word w := b &&& ~~~BitVec.twoPow w.bits i

/-- Number of trailing zeroes, or the word size for a zero word. -/
def countTz (val : Word w) : ℕ :=
  ((List.range w.bits).find? val.getLsbD).getD w.bits

theorem getLsbD_bitSet (b : Word w) {i : ℕ} (hi : i < w.bits) (j : ℕ) :
    (bitSet b i).getLsbD j = (decide (i = j) || b.getLsbD j) := by
  simp [bitSet, BitVec.getLsbD_twoPow, hi, Bool.or_comm]

theorem getLsbD_bitUnset (b : Word w) (i j : ℕ) :
    (bitUnset b i).getLsbD j = (decide (i ≠ j) && b.getLsbD j) := by
  by_cases hj : j < w.bits
  · by_cases hij : i = j
    · simp [bitUnset, hj, hij]
    · simp [bitUnset, hj, hij, Ne.symm hij]
  · simp [bitUnset, BitVec.getLsbD_of_ge b j (Nat.not_lt.mp hj)]

theorem getLsbD_bucketHopMask {exp : ℕ} (he : exp < w.bits) (j : ℕ) :
    (bucketHopMask w exp).getLsbD j = decide (j < exp) := by
  have hone : 1 % 2 ^ w.bits = 1 := Nat.mod_eq_of_lt (Nat.one_lt_two_pow (by omega))
  have hpow : 2 ^ exp < 2 ^ w.bits := Nat.pow_lt_pow_right (by omega) he
  have hval : (bucketHopMask w exp).toNat = 2 ^ exp - 1 := by
    rw [bucketHopMask, BitVec.toNat_sub, BitVec.toNat_twoPow, BitVec.toNat_ofNat, hone,
      Nat.mod_eq_of_lt hpow]
    have hpos : 0 < 2 ^ exp := Nat.two_pow_pos exp
    rw [show 2 ^ w.bits - 1 + 2 ^ exp = 2 ^ w.bits + (2 ^ exp - 1) by omega,
      Nat.add_mod_left, Nat.mod_eq_of_lt (by omega)]
  rw [← BitVec.testBit_toNat, hval, Nat.testBit_two_pow_sub_one]

theorem getLsbD_bucketHashMask {exp : ℕ} (he : exp < w.bits) (j : ℕ) :
    (bucketHashMask w exp).getLsbD j = (decide (j < w.bits) && decide (exp ≤ j)) := by
  rw [bucketHashMask, BitVec.getLsbD_not, getLsbD_bucketHopMask he]
  by_cases h : j < exp
  · simp [h, show ¬exp ≤ j by omega]
  · simp [h, show exp ≤ j by omega]

theorem getLsbD_countTz (val : Word w) (h : countTz val < w.bits) :
    val.getLsbD (countTz val) = true := by
  unfold countTz at h ⊢
  cases hf : (List.range w.bits).find? val.getLsbD with
  | none => simp [hf] at h
  | some i => simpa using List.find?_some hf

theorem countTz_le_of_getLsbD (val : Word w) {i : ℕ} (hi : val.getLsbD i = true) :
    countTz val ≤ i := by
  have hiw : i < w.bits := BitVec.lt_of_getLsbD hi
  unfold countTz
  cases hf : (List.range w.bits).find? val.getLsbD with
  | none => exact absurd hi (by simpa using List.find?_eq_none.mp hf i (List.mem_range.mpr hiw))
  | some k =>
    by_contra hk
    rw [Option.getD_some, Nat.not_le] at hk
    obtain ⟨_, as, bs, hsplit, has⟩ := List.find?_eq_some_iff_append.mp hf
    have hlen : as.length = k := by
      have hk' := congrArg (·[as.length]?) hsplit
      simp only [List.getElem?_append_right (le_refl as.length), Nat.sub_self,
        List.getElem?_cons_zero] at hk'
      have := List.getElem?_eq_some_iff.mp hk'
      simpa using this.2
    have hmem : i ∈ as := by
      have := congrArg (·[i]?) hsplit
      simp only [List.getElem?_append_left (hlen ▸ hk)] at this
      rw [List.getElem?_range hiw] at this
      exact List.mem_of_getElem? this.symm
    simpa [hi] using has i hmem

theorem hashToIdx_lt (hash : Word w) {exp : ℕ} (he : exp ≤ w.bits) :
    hashToIdx hash exp < 2 ^ exp := by
  rw [hashToIdx, BitVec.toNat_ushiftRight, Nat.shiftRight_eq_div_pow]
  rw [Nat.div_lt_iff_lt_mul (Nat.two_pow_pos _), ← Nat.pow_add]
  rw [show exp + (w.bits - exp) = w.bits by omega]
  exact hash.isLt

theorem hash_eq_of_idx_of_fragment {a b : Word w} {exp : ℕ}
    (hidx : hashToIdx a exp = hashToIdx b exp) (hfrag : a <<< exp = b <<< exp) : a = b := by
  have hshr : a >>> (w.bits - exp) = b >>> (w.bits - exp) := BitVec.eq_of_toNat_eq hidx
  apply BitVec.eq_of_getLsbD_eq
  intro i hi
  by_cases h : i < w.bits - exp
  · have := congrArg (·.getLsbD (exp + i)) hfrag
    simp only [BitVec.getLsbD_shiftLeft, show exp + i < w.bits by omega] at this
    simpa using this
  · have := congrArg (·.getLsbD (i - (w.bits - exp))) hshr
    simp only [BitVec.getLsbD_ushiftRight] at this
    rwa [show w.bits - exp + (i - (w.bits - exp)) = i by omega] at this

theorem hopIdxWidth_lt_bits (w : WordSize) : w.hopIdxWidth < w.bits := by
  cases w <;> decide

/-- A packed identifier is never negative as a `long`, and splits into its two indices. -/
theorem packId_toInt {exp hashIdx hopIdx : ℕ} (he : exp ≤ w.expMax) (hhash : hashIdx < 2 ^ exp)
    (hhop : hopIdx < exp) :
    (packId w hashIdx hopIdx).toInt = ((hashIdx * 2 ^ w.hopIdxWidth + hopIdx : ℕ) : ℤ) := by
  have hsum : hashIdx * 2 ^ w.hopIdxWidth + hopIdx < 2 ^ (w.bits - 1) := by
    have hhop' : hopIdx < 2 ^ w.hopIdxWidth :=
      lt_trans (lt_of_lt_of_le hhop he) (expMax_lt_hopRange w)
    have hle : (hashIdx + 1) * 2 ^ w.hopIdxWidth ≤ 2 ^ w.expMax * 2 ^ w.hopIdxWidth :=
      Nat.mul_le_mul_right _ (hhash.trans_le (Nat.pow_le_pow_right (by omega) he))
    rw [← Nat.pow_add, show w.expMax + w.hopIdxWidth = w.bits - 1 by
      have := expMax_add_hopIdxWidth w; omega] at hle
    rw [Nat.add_mul, Nat.one_mul] at hle
    omega
  have hdouble : 2 ^ w.bits = 2 * 2 ^ (w.bits - 1) := by
    rw [← Nat.pow_succ', Nat.succ_eq_add_one, Nat.sub_add_cancel]
    exact (Nat.zero_le _).trans_lt (hopIdxWidth_lt_bits w)
  have hnat : (packId w hashIdx hopIdx).toNat = hashIdx * 2 ^ w.hopIdxWidth + hopIdx := by
    rw [packId, BitVec.toNat_add, BitVec.toNat_shiftLeft, BitVec.toNat_ofNat, BitVec.toNat_ofNat,
      Nat.shiftLeft_eq, Nat.add_mod_mod, Nat.mod_add_mod, Nat.add_mod, Nat.mod_mul_mod,
      ← Nat.add_mod]
    exact Nat.mod_eq_of_lt (by omega)
  rw [BitVec.toInt_eq_toNat_of_lt (by omega), hnat]

end BookmarkFS.Hopscotch
