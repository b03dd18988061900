import Mathlib.Tactic

/-! # Computations that may end in a fault

Rules for `Except` as the monad of checked computations: how a bind steps, what
is known of its parts when the whole succeeds, and a logic of postconditions in
which some faults are put up with and all others are ruled out.
-/
namespace BookmarkFS.Library

variable {ε α β : Type}

@[simp] theorem ok_bind (a : α) (f : α → Except ε β) : (Except.ok a >>= f) = f a := rfl

@[simp] theorem error_bind (e : ε) (f : α → Except ε β) :
    ((Except.error e : Except ε α) >>= f) = .error e := rfl

@[simp] theorem pure_eq_ok (a : α) : (pure a : Except ε α) = .ok a := rfl

theorem bind_eq_ok {x : Except ε α} {f : α → Except ε β} {b : β} :
    x >>= f = .ok b ↔ ∃ a, x = .ok a ∧ f a = .ok b := by
  cases x with
  | error e => simp
  | ok a => simp

/-- The computation ends in a value with `P`, or in a fault that is put up with. -/
def Yields (allowed : ε → Prop) (x : Except ε α) (P : α → Prop) : Prop :=
  match x with
  | .ok a => P a
  | .error e => allowed e

namespace Yields

variable {allowed : ε → Prop} {x : Except ε α} {P Q : α → Prop}

@[simp] theorem ok_iff {a : α} : Yields allowed (.ok a) P ↔ P a := Iff.rfl

@[simp] theorem error_iff {e : ε} : Yields allowed (.error e : Except ε α) P ↔ allowed e := Iff.rfl

theorem mono (h : Yields allowed x P) (hPQ : ∀ a, P a → Q a) : Yields allowed x Q := by
  cases x with
  | ok a => exact hPQ a h
  | error e => exact h

theorem bind {f : α → Except ε β} {R : β → Prop} (h : Yields allowed x P)
    (hf : ∀ a, P a → Yields allowed (f a) R) : Yields allowed (x >>= f) R := by
  cases x with
  | ok a => exact hf a h
  | error e => exact h

/-- As `bind`, for a continuation that depends on where its argument comes from. -/
theorem bind_of {f : α → Except ε β} {R : β → Prop} (h : Yields allowed x P)
    (hf : ∀ a, x = .ok a → P a → Yields allowed (f a) R) : Yields allowed (x >>= f) R := by
  cases x with
  | ok a => exact hf a rfl h
  | error e => exact h

theorem any (x : Except ε α) : Yields (fun _ => True) x fun _ => True := by
  cases x <;> trivial

theorem map {g : α → β} {R : β → Prop} (h : Yields allowed x fun a => R (g a)) :
    Yields allowed (g <$> x) R := by
  cases x with
  | ok a => exact h
  | error e => exact h

theorem of_eq_ok {a : α} (h : x = .ok a) (ha : P a) : Yields allowed x P := by
  subst h; exact ha

theorem of_eq_error {e : ε} (h : x = .error e) (he : allowed e) : Yields allowed x P := by
  subst h; exact he

theorem weaken (h : Yields allowed x P) : Yields (fun _ => True) x P := by
  cases x with
  | ok a => exact h
  | error e => trivial

theorem of_ok {a : α} (h : Yields allowed x P) (hx : x = .ok a) : P a := by
  subst hx; exact h

instance [DecidablePred allowed] [DecidablePred P] (x : Except ε α) :
    Decidable (Yields allowed x P) :=
  match x with
  | .ok a => inferInstanceAs (Decidable (P a))
  | .error e => inferInstanceAs (Decidable (allowed e))

theorem exists_ok (h : Yields (fun _ => False) x P) : ∃ a, x = .ok a ∧ P a := by
  cases x with
  | ok a => exact ⟨a, rfl, h⟩
  | error e => exact h.elim

theorem exists_error (h : Yields allowed x fun _ => False) : ∃ e, x = .error e ∧ allowed e := by
  cases x with
  | ok a => exact h.elim
  | error e => exact ⟨e, rfl, h⟩

theorem allowed_of_error {e : ε} (h : Yields allowed x P) (hx : x = .error e) : allowed e := by
  subst hx; exact h

theorem and (h : Yields allowed x P) (h' : Yields allowed x Q) :
    Yields allowed x fun a => P a ∧ Q a := by
  cases x with
  | ok a => exact ⟨h, h'⟩
  | error e => exact h

end Yields

/-- Whatever `x` ends in, `y` ends in too: `x` may have assertions that `y` has not. -/
structure Guards (x y : Except ε α) : Prop where
  of_ok : ∀ a, x = .ok a → y = .ok a

namespace Guards

variable {x y : Except ε α}

theorem refl (x : Except ε α) : Guards x x := ⟨fun _ h => h⟩

theorem bind {f g : α → Except ε β} (h : Guards x y) (hfg : ∀ a, Guards (f a) (g a)) :
    Guards (x >>= f) (y >>= g) := by
  refine ⟨fun b hb => ?_⟩
  obtain ⟨a, hx, hf⟩ := bind_eq_ok.mp hb
  exact bind_eq_ok.mpr ⟨a, h.of_ok a hx, (hfg a).of_ok b hf⟩

theorem map {g : α → β} (h : Guards x y) : Guards (g <$> x) (g <$> y) := by
  refine ⟨fun b hb => ?_⟩
  cases x with
  | error e => cases hb
  | ok a => rw [h.of_ok a rfl]; exact hb

end Guards

end BookmarkFS.Library
