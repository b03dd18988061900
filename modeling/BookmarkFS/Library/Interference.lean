import Mathlib.Tactic

/-! # Operations that do not disturb each other

A machine answers one operation after the other. If the answers to some of the
operations depend on a view of the state only, and no other operation changes
that view, then these answers are the same if the others are left out.
-/
namespace BookmarkFS.Library

variable {σ ν op out : Type}

/-- The operations of a run, each with its answer. -/
def answers (step : σ → op → out × σ) : σ → List op → List (op × out)
  | _, [] => []
  | s, o :: run => (o, (step s o).1) :: answers step (step s o).2 run

/-- In the states with the invariant, the operations `mine` see and change no more than the view,
and no other operation changes the view. -/
structure Apart (step : σ → op → out × σ) (Inv : σ → Prop) (mine : op → Bool) (view : σ → ν) :
    Prop where
  inv : ∀ {s} o, Inv s → Inv (step s o).2
  own : ∀ {s t o}, mine o = true → Inv s → Inv t → view s = view t →
    (step s o).1 = (step t o).1 ∧ view (step s o).2 = view (step t o).2
  other : ∀ {s o}, mine o = false → Inv s → view (step s o).2 = view s

/-- The answers to the operations `mine` are the same without the others. -/
def Undisturbed (step : σ → op → out × σ) (mine : op → Bool) (s : σ) : Prop :=
  ∀ run, (answers step s run).filter (fun answer => mine answer.1) = answers step s
    (run.filter mine)

variable {step : σ → op → out × σ} {Inv : σ → Prop} {mine : op → Bool} {view : σ → ν} {s t : σ}

theorem answers_congr (h : Apart step Inv mine view) {run : List op}
    (hrun : ∀ o ∈ run, mine o = true) (hs : Inv s) (ht : Inv t) (hview : view s = view t) :
    answers step s run = answers step t run := by
  induction run generalizing s t with
  | nil => rfl
  | cons o run ih =>
    obtain ⟨hout, hview⟩ := h.own (hrun o List.mem_cons_self) hs ht hview
    rw [answers, answers, hout, ih (fun o ho => hrun o (List.mem_cons_of_mem _ ho)) (h.inv o hs)
      (h.inv o ht) hview]

theorem Apart.undisturbed (h : Apart step Inv mine view) (hs : Inv s) :
    Undisturbed step mine s := by
  intro run
  induction run generalizing s with
  | nil => rfl
  | cons o run ih =>
    rw [answers, List.filter_cons, List.filter_cons]
    cases hmine : mine o with
    | true =>
      rw [if_pos rfl, if_pos rfl, answers, ih (h.inv o hs)]
    | false =>
      rw [if_neg Bool.false_ne_true, if_neg Bool.false_ne_true, ih (h.inv o hs)]
      exact answers_congr h (fun o ho => (List.mem_filter.mp ho).2)
        (h.inv o hs) hs (h.other hmine hs)

end BookmarkFS.Library
