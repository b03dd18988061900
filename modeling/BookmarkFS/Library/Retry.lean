import Mathlib.Data.Nat.Find

/-! # Attempts until one succeeds

A loop that tries again where an attempt fails. It ends if and only if one of the
attempts succeeds, so that a loop whose attempts are all alike ends at once, or never.
-/
namespace BookmarkFS.Library

/-- Each attempt has a result, or says with what the next one starts. -/
def retry {σ α : Type*} (attempt : σ → σ ⊕ α) : ℕ → σ → Option α
  | 0, _ => none
  | fuel + 1, s =>
    match attempt s with
    | .inl s => retry attempt fuel s
    | .inr a => some a

section Retry

variable {σ α : Type*} {attempt : σ → σ ⊕ α} {s : σ} {a : α}

theorem retry_stuck (h : attempt s = .inl s) (fuel : ℕ) : retry attempt fuel s = none := by
  induction fuel with
  | zero => rfl
  | succ fuel ih => rw [retry, h]; exact ih

theorem retry_done (h : attempt s = .inr a) {fuel : ℕ} (hfuel : 0 < fuel) :
    retry attempt fuel s = some a := by
  obtain ⟨fuel, rfl⟩ := Nat.exists_eq_add_one.mpr hfuel
  rw [retry, h]

theorem of_retry {fuel : ℕ} (h : retry attempt fuel s = some a) : ∃ s, attempt s = .inr a := by
  induction fuel generalizing s with
  | zero => cases h
  | succ fuel ih =>
    rw [retry] at h
    split at h
    · exact ih h
    next b hdone => exact ⟨s, Option.some.inj h ▸ hdone⟩

/-- A loop over the natural numbers gets to the first attempt that succeeds. -/
theorem retry_first {attempt : ℕ → ℕ ⊕ α} {n k : ℕ}
    (hfail : ∀ m, n ≤ m → m < n + k → attempt m = .inl (m + 1))
    (hdone : attempt (n + k) = .inr a) (fuel : ℕ) : retry attempt fuel n = if k < fuel then some a
    else none := by
  induction fuel generalizing n k with
  | zero => rfl
  | succ fuel ih =>
    rw [retry]
    cases k with
    | zero => rw [show attempt n = .inr a from hdone, if_pos (Nat.succ_pos _)]
    | succ k =>
      rw [hfail n le_rfl (by omega)]
      dsimp only
      have hrest : ∀ m, n + 1 ≤ m → m < n + 1 + k → attempt m = .inl (m + 1) := fun m hm hlt =>
        hfail m (by omega) (by omega)
      rw [ih hrest (by rwa [Nat.add_right_comm])]
      simp only [Nat.add_lt_add_iff_right]

end Retry

end BookmarkFS.Library
