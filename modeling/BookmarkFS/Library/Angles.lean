import Mathlib.Analysis.Complex.Trigonometric
import Mathlib.Tactic

/-! # Cosines and sines between integers

The cosine and the sine of an angle are kept as integers, scaled by `D`, with a
bound on the error. The sum of two angles is computed from what is kept of them,
so that small angles, whose cosine and sine a polynomial approximates well, lead
to all others.
-/
namespace BookmarkFS.Library

structure Angle where
  c : ℤ
  s : ℤ
  e : ℕ
  deriving DecidableEq

namespace Angle

/-- The cosine and the sine of `x`, scaled by `D`, differ by no more than the error. -/
def Near (D : ℕ) (a : Angle) (x : ℝ) : Prop :=
  |Real.cos x * D - a.c| ≤ a.e ∧ |Real.sin x * D - a.s| ≤ a.e

def slack (a b : Angle) : ℕ :=
  (a.c.natAbs + a.s.natAbs) * b.e + (b.c.natAbs + b.s.natAbs) * a.e + 2 * (a.e * b.e)

def add (D : ℕ) (a b : Angle) : Angle where
  c := (a.c * b.c - a.s * b.s) / D
  s := (a.s * b.c + a.c * b.s) / D
  e := slack a b / D + 2

section Add

variable {D : ℕ}

/-- A quotient that is rounded down, with an error on the dividend. -/
theorem near_div (hD : 0 < D) {u : ℝ} {n : ℤ} {k : ℕ} (h : |u * D * D - n| ≤ k) :
    |u * D - ((n / D : ℤ) : ℝ)| ≤ ((k / D + 2 : ℕ) : ℝ) := by
  have hpos : (0 : ℝ) < D := by exact_mod_cast hD
  have hposZ : (0 : ℤ) < D := by exact_mod_cast hD
  have hlow : ((n / D : ℤ) : ℝ) * D ≤ n := by exact_mod_cast Int.ediv_mul_le n hposZ.ne'
  have hhigh : (n : ℝ) < ((n / D : ℤ) : ℝ) * D + D := by
    have := Int.lt_ediv_add_one_mul_self n hposZ
    rw [add_mul, one_mul] at this
    exact_mod_cast this
  have hk : (k : ℝ) < ((k / D : ℕ) : ℝ) * D + D := by
    have := Nat.lt_div_mul_add (a := k) hD
    exact_mod_cast this
  rw [abs_le] at h ⊢
  push_cast
  constructor
  · by_contra hlt
    push Not at hlt
    have := mul_lt_mul_of_pos_right hlt hpos
    nlinarith
  · by_contra hlt
    push Not at hlt
    have := mul_lt_mul_of_pos_right hlt hpos
    nlinarith

theorem abs_mul_sub_le {p q : ℝ} {m n : ℤ} {d e : ℕ} (hp : |p - m| ≤ d) (hq : |q - n| ≤ e) :
    |p * q - m * n| ≤ (m.natAbs * e + n.natAbs * d + d * e : ℕ) := by
  have hm : |(m : ℝ)| = m.natAbs := by rw [Nat.cast_natAbs, Int.cast_abs]
  have hn : |(n : ℝ)| = n.natAbs := by rw [Nat.cast_natAbs, Int.cast_abs]
  calc |p * q - m * n| = |m * (q - n) + n * (p - m) + (p - m) * (q - n)| := by ring_nf
    _ ≤ |m * (q - n)| + |n * (p - m)| + |(p - m) * (q - n)| :=
      (abs_add_le _ _).trans (add_le_add_left (abs_add_le _ _) _)
    _ ≤ m.natAbs * e + n.natAbs * d + d * e := by
      rw [abs_mul, abs_mul, abs_mul, hm, hn]
      gcongr
    _ = (m.natAbs * e + n.natAbs * d + d * e : ℕ) := by push_cast; ring

theorem Near.add (hD : 0 < D) {a b : Angle} {x y : ℝ} (ha : a.Near D x) (hb : b.Near D y) :
    (a.add D b).Near D (x + y) := by
  constructor
  · apply near_div hD
    have hcc := abs_mul_sub_le ha.1 hb.1
    have hss := abs_mul_sub_le ha.2 hb.2
    have hsum : Real.cos (x + y) * D * D - ((a.c * b.c - a.s * b.s : ℤ) : ℝ) =
        (Real.cos x * D * (Real.cos y * D) - a.c * b.c) -
        (Real.sin x * D * (Real.sin y * D) - a.s * b.s) := by
      rw [Real.cos_add]
      push_cast
      ring
    rw [hsum]
    refine (abs_sub _ _).trans ((add_le_add hcc hss).trans (le_of_eq ?_))
    rw [slack]
    push_cast
    ring
  · apply near_div hD
    have hsc := abs_mul_sub_le ha.2 hb.1
    have hcs := abs_mul_sub_le ha.1 hb.2
    have hsum : Real.sin (x + y) * D * D - ((a.s * b.c + a.c * b.s : ℤ) : ℝ) =
        (Real.sin x * D * (Real.cos y * D) - a.s * b.c) +
        (Real.cos x * D * (Real.sin y * D) - a.c * b.s) := by
      rw [Real.sin_add]
      push_cast
      ring
    rw [hsum]
    refine (abs_add_le _ _).trans ((add_le_add hsc hcs).trans (le_of_eq ?_))
    rw [slack]
    push_cast
    ring

theorem Near.doubled (hD : 0 < D) {a : Angle} {x : ℝ} (h : a.Near D x) (m : ℕ) :
    ((fun a => a.add D a)^[m] a).Near D (2 ^ m * x) := by
  induction m with
  | zero => simpa using h
  | succ m ih =>
    rw [Function.iterate_succ_apply', show (2 : ℝ) ^ (m + 1) * x = 2 ^ m * x + 2 ^ m * x by ring]
    exact ih.add hD ih

theorem Near.multiple (hD : 0 < D) {a : Angle} {x : ℝ} (h : a.Near D x) (k : ℕ) :
    ((fun b => b.add D a)^[k] a).Near D ((k + 1 : ℕ) * x) := by
  induction k with
  | zero => simpa using h
  | succ k ih =>
    rw [Function.iterate_succ_apply', show ((k + 1 + 1 : ℕ) : ℝ) * x = (k + 1 : ℕ) * x +
      x by push_cast; ring]
    exact ih.add hD h

/-- What is left of a sine that is scaled differently and rounded down. -/
theorem Near.floor_sin {a : Angle} {x : ℝ} (hD : 0 < D) (h : a.Near D x) {scale v : ℕ}
    (hlow : v * D + scale * a.e ≤ scale * a.s.natAbs)
    (hhigh : scale * (a.s.natAbs + a.e) < (v + 1) * D) :
    ⌊(scale : ℝ) * |Real.sin x|⌋₊ = v := by
  have hpos : (0 : ℝ) < D := by exact_mod_cast hD
  have hs : |(a.s : ℝ)| = a.s.natAbs := by rw [Nat.cast_natAbs, Int.cast_abs]
  have hnear : |(|Real.sin x| * D - a.s.natAbs)| ≤ a.e := by
    rw [← hs, ← abs_of_pos hpos, ← abs_mul]
    exact (abs_abs_sub_abs_le_abs_sub _ _).trans h.2
  have hscale : (0 : ℝ) ≤ scale := Nat.cast_nonneg _
  rw [abs_le] at hnear
  rw [Nat.floor_eq_iff (by positivity)]
  have hlow' : (v : ℝ) * D + scale * a.e ≤ scale * a.s.natAbs := by exact_mod_cast hlow
  have hhigh' : (scale : ℝ) * (a.s.natAbs + a.e) < (v + 1) * D := by exact_mod_cast hhigh
  constructor
  · refine le_of_mul_le_mul_right ?_ hpos
    nlinarith
  · refine lt_of_mul_lt_mul_right ?_ hpos.le
    nlinarith

end Add

/-! ## The unit of angles -/

def scale : ℕ := 2 ^ 192

/-- The angle `1 / 2 ^ 48` -/
def small : Angle := ⟨2 ^ 192 - 2 ^ 95, 2 ^ 144 - 2 ^ 48 / 6, 1⟩

def one : Angle := (fun a => a.add scale a)^[48] small

/-- The angle `k + 1` -/
def integer (k : ℕ) : Angle := (fun b => b.add scale one)^[k] one

theorem small_near : small.Near scale (1 / 2 ^ 48) := by
  have habs : |(1 : ℝ) / 2 ^ 48| = 1 / 2 ^ 48 := abs_of_pos (by positivity)
  have hle : |(1 : ℝ) / 2 ^ 48| ≤ 1 := by rw [habs]; norm_num
  have hcos := Real.cos_bound hle
  have hsin := Real.sin_bound hle
  rw [habs, abs_le] at hcos hsin
  have hscale : ((scale : ℕ) : ℝ) = 2 ^ 192 := by norm_num [scale]
  have hc : ((small.c : ℤ) : ℝ) = 2 ^ 192 - 2 ^ 95 := by norm_num [small]
  have hs : ((small.s : ℤ) : ℝ) = 2 ^ 144 - 46912496118442 := by norm_num [small]
  rw [Near, hscale, hc, hs, abs_le, abs_le]
  norm_num [small] at hcos hsin ⊢
  refine ⟨⟨?_, ?_⟩, ?_, ?_⟩ <;> linarith

theorem one_near : one.Near scale 1 := by
  have h := small_near.doubled (by norm_num [scale]) 48
  rwa [mul_one_div_cancel (by positivity)] at h

theorem integer_near (k : ℕ) : (integer k).Near scale (k + 1 : ℕ) := by
  have h := one_near.multiple (by norm_num [scale]) k
  rwa [mul_one] at h

end Angle

end BookmarkFS.Library
