import Mathlib.Tactic

/-! # Systems that take labelled steps

A step may be refused by the environment (`legal`) or end in a fault. What a
step preserves from any state that meets the invariant holds in every state a
run reaches.
-/
namespace BookmarkFS.Library

variable {σ ℓ ε : Type}

structure System (σ ℓ ε : Type) where
  init : σ → Prop
  legal : σ → ℓ → Prop
  step : σ → ℓ → Except ε σ

namespace System

variable {sys : System σ ℓ ε} {P : σ → Prop}

/-- The states reached by runs whose steps are all legal and all succeed. -/
inductive Reachable (sys : System σ ℓ ε) : σ → Prop
  | init {s : σ} : sys.init s → Reachable sys s
  | step {s : σ} {l : ℓ} {s' : σ} : Reachable sys s → sys.legal s l → sys.step s l = .ok s' →
      Reachable sys s'

/-- What initial states have and legal steps preserve. -/
structure Invariant (sys : System σ ℓ ε) (P : σ → Prop) : Prop where
  init : ∀ s, sys.init s → P s
  step : ∀ s l s', P s → sys.legal s l → sys.step s l = .ok s' → P s'

theorem Reachable.holds {s : σ} (h : sys.Reachable s) (hP : sys.Invariant P) : P s := by
  induction h with
  | init h0 => exact hP.init _ h0
  | step _ hlegal hstep ih => exact hP.step _ _ _ ih hlegal hstep

theorem Reachable.of_stricter {sys' : System σ ℓ ε} {s : σ} (h : sys.Reachable s)
    (hinit : ∀ s, sys.init s → sys'.init s) (hlegal : ∀ s l, sys.legal s l → sys'.legal s l)
    (hstep : sys.step = sys'.step) : sys'.Reachable s := by
  induction h with
  | init h0 => exact .init (hinit _ h0)
  | step _ hl hs ih => exact .step ih (hlegal _ _ hl) (hstep ▸ hs)

end System

end BookmarkFS.Library
