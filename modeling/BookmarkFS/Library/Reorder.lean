import Mathlib.Tactic

/-! # Moving one element of a list

Two elements of a list change places, or one is taken out and put back next to
the other. On a list cut at the two elements, each operation has a closed form;
keys that agree with the new order prove a sorted list to be the result.
-/
namespace BookmarkFS.Library

variable {α κ : Type} [DecidableEq α] {a b : α} {l l₁ l₂ l₃ : List α}

/-- `a` and `b` change places. -/
def exchange (a b : α) (l : List α) : List α :=
  l.map fun x => if x = a then b else if x = b then a else x

/-- `a` is taken out of the list, and the elements `ab` take the place of `b`. -/
def putAt (a b : α) (ab l : List α) : List α :=
  (l.erase a).flatMap fun x => if x = b then ab else [x]

/-- `a` is taken out of the list, and put back immediately before `b`. -/
def putBefore (a b : α) : List α → List α := putAt a b [a, b]

/-- `a` is taken out of the list, and put back immediately after `b`. -/
def putAfter (a b : α) : List α → List α := putAt a b [b, a]

omit [DecidableEq α] in
theorem exists_cut (ha : a ∈ l) (hb : b ∈ l) (hab : a ≠ b) :
    ∃ l₁ l₂ l₃, l = l₁ ++ a :: (l₂ ++ b :: l₃) ∨ l = l₁ ++ b :: (l₂ ++ a :: l₃) := by
  obtain ⟨s, t, rfl⟩ := List.mem_iff_append.mp ha
  rcases List.mem_append.mp hb with hb | hb
  · obtain ⟨s, u, rfl⟩ := List.mem_iff_append.mp hb
    exact ⟨s, u, t, .inr (by simp)⟩
  · obtain ⟨u, t, rfl⟩ := List.mem_iff_append.mp (List.mem_of_ne_of_mem hab.symm hb)
    exact ⟨s, u, t, .inl rfl⟩

section At

omit [DecidableEq α]

theorem set_at (l₁ l₂ : List α) (x y : α) : (l₁ ++ x :: l₂).set l₁.length y = l₁ ++ y :: l₂ := by
  rw [List.set_append_right _ _ le_rfl, Nat.sub_self, List.set_cons_zero]

theorem eraseIdx_at (l₁ l₂ : List α) (x : α) : (l₁ ++ x :: l₂).eraseIdx l₁.length = l₁ ++ l₂ := by
  rw [List.eraseIdx_append_of_length_le le_rfl, Nat.sub_self, List.eraseIdx_cons_zero]

theorem insertIdx_at (l₁ l₂ : List α) (x : α) :
    (l₁ ++ l₂).insertIdx l₁.length x = l₁ ++ x :: l₂ := by
  induction l₁ with
  | nil => rfl
  | cons y l₁ ih => rw [List.cons_append, List.length_cons, List.insertIdx_succ_cons, ih,
      List.cons_append]

end At

theorem idxOf_at (ha : a ∉ l₁) : (l₁ ++ a :: l₂).idxOf a = l₁.length := by
  rw [List.idxOf_append_of_notMem ha, List.idxOf_cons_self, Nat.add_zero]

theorem map_exchange_of_notMem (ha : a ∉ l) (hb : b ∉ l) :
    (l.map fun x => if x = a then b else if x = b then a else x) = l := by
  refine (List.map_congr_left fun x hx => ?_).trans (List.map_id l)
  rw [if_neg (by rintro rfl; exact ha hx), if_neg (by rintro rfl; exact hb hx)]
  rfl

theorem flatMap_of_notMem {f : α → List α} (hb : b ∉ l) :
    (l.flatMap fun x => if x = b then f x else [x]) = l := by
  induction l with
  | nil => rfl
  | cons x l ih =>
    rw [List.mem_cons, not_or] at hb
    rw [List.flatMap_cons, if_neg (Ne.symm hb.1), ih hb.2, List.singleton_append]

section Cut

variable (h : (l₁ ++ a :: (l₂ ++ b :: l₃)).Nodup)

include h

theorem exchange_cut : exchange a b (l₁ ++ a :: (l₂ ++ b :: l₃)) = l₁ ++ b :: (l₂ ++ a :: l₃) := by
  simp only [List.nodup_append, List.nodup_cons, List.mem_append, List.mem_cons] at h
  have hab : b ≠ a := by rintro rfl; exact h.2.1.1 (.inr (.inl rfl))
  rw [exchange, List.map_append, List.map_cons, List.map_append, List.map_cons, if_pos rfl,
    if_neg hab, if_pos rfl, map_exchange_of_notMem, map_exchange_of_notMem,
    map_exchange_of_notMem] <;>
    grind

theorem exchange_cut' : exchange b a (l₁ ++ a :: (l₂ ++ b :: l₃)) = l₁ ++ b :: (l₂ ++ a :: l₃) := by
  rw [← exchange_cut h]
  refine List.map_congr_left fun x _ => ?_
  grind

theorem putAt_cut (ab : List α) :
    putAt a b ab (l₁ ++ a :: (l₂ ++ b :: l₃)) = l₁ ++ (l₂ ++ (ab ++ l₃)) := by
  simp only [List.nodup_append, List.nodup_cons, List.mem_append, List.mem_cons] at h
  rw [putAt, List.erase_append_right _ (by grind), List.erase_cons_head, List.flatMap_append,
    List.flatMap_append, List.flatMap_cons, if_pos rfl, flatMap_of_notMem (by grind),
    flatMap_of_notMem (by grind), flatMap_of_notMem (by grind)]

theorem putAt_cut' (ab : List α) :
    putAt b a ab (l₁ ++ a :: (l₂ ++ b :: l₃)) = l₁ ++ (ab ++ (l₂ ++ l₃)) := by
  simp only [List.nodup_append, List.nodup_cons, List.mem_append, List.mem_cons] at h
  rw [putAt, List.erase_append_right _ (by grind), List.erase_cons_tail (by grind),
    List.erase_append_right _ (by grind), List.erase_cons_head, List.flatMap_append,
    List.flatMap_cons, if_pos rfl, List.flatMap_append, flatMap_of_notMem (by grind),
    flatMap_of_notMem (by grind), flatMap_of_notMem (by grind)]

end Cut

theorem exchange_cut_perm : (l₁ ++ b :: (l₂ ++ a :: l₃)).Perm (l₁ ++ a :: (l₂ ++ b :: l₃)) := by
  refine List.perm_iff_count.mpr fun x => ?_
  simp only [List.count_append, List.count_cons]
  omega

theorem behind_cut_perm {ab : List α} (h : ab.Perm [a, b]) :
    (l₁ ++ (l₂ ++ (ab ++ l₃))).Perm (l₁ ++ a :: (l₂ ++ b :: l₃)) := by
  refine List.perm_iff_count.mpr fun x => ?_
  have := List.perm_iff_count.mp h x
  simp only [List.count_append, List.count_cons, List.count_nil] at this ⊢
  omega

theorem front_cut_perm {ab : List α} (h : ab.Perm [a, b]) :
    (l₁ ++ (ab ++ (l₂ ++ l₃))).Perm (l₁ ++ a :: (l₂ ++ b :: l₃)) := by
  refine List.perm_iff_count.mpr fun x => ?_
  have := List.perm_iff_count.mp h x
  simp only [List.count_append, List.count_cons, List.count_nil] at this ⊢
  omega

/-! ## Keys -/

section Keys

variable {pos q : α → ℤ}

omit [DecidableEq α] in
theorem keys_cut (pos : α → ℤ)
    (h : (l₁ ++ a :: (l₂ ++ b :: l₃)).Pairwise fun x y => pos x < pos y) :
    (∀ x ∈ l₁, pos x < pos a) ∧ pos a < pos b ∧ (∀ x ∈ l₂, pos a < pos x ∧ pos x < pos b) ∧
      ∀ x ∈ l₃, pos b < pos x := by
  simp only [List.pairwise_append, List.pairwise_cons, List.mem_append, List.mem_cons] at h
  obtain ⟨-, ⟨ha, -, ⟨hb, -⟩, hmid⟩, hfront⟩ := h
  exact ⟨fun x hx => hfront x hx a (.inl rfl), ha b (.inr (.inl rfl)),
    fun x hx => ⟨ha x (.inl hx), hmid x hx b (.inl rfl)⟩, hb⟩

/-- The key of an element when that of `c` becomes `n`, and those in between are shifted. -/
def shifted (pos : α → ℤ) (c : α) (n low high d : ℤ) (x : α) : ℤ :=
  if pos x = pos c then n else if low ≤ pos x ∧ pos x ≤ high then pos x + d else pos x

section Sorted

variable (h : (l₁ ++ a :: (l₂ ++ b :: l₃)).Pairwise fun x y => pos x < pos y)

include h

omit [DecidableEq α] in
theorem sorted_exchange (hq : ∀ x, q x = if pos x = pos a then pos b
      else if pos x = pos b then pos a
    else pos x) : (l₁ ++ b :: (l₂ ++ a :: l₃)).Pairwise fun x y => q x < q y := by
  obtain ⟨h₁, hab, h₂, h₃⟩ := keys_cut pos h
  simp only [List.pairwise_append, List.pairwise_cons, List.mem_append, List.mem_cons] at h ⊢
  obtain ⟨hs₁, ⟨-, hs₂, ⟨-, hs₃⟩, -⟩, -⟩ := h
  have hqa : q a = pos b := by grind
  have hqb : q b = pos a := by grind
  have hkeep : ∀ x, x ∈ l₁ ∨ x ∈ l₂ ∨ x ∈ l₃ → q x = pos x := by grind
  refine ⟨hs₁.imp_of_mem ?_, ⟨?_, hs₂.imp_of_mem ?_, ⟨?_, hs₃.imp_of_mem ?_⟩, ?_⟩, ?_⟩ <;> grind

omit [DecidableEq α] in
theorem sorted_forward_before
    (hq : ∀ x, q x = shifted pos a (pos b - 1) (pos a + 1) (pos b - 1) (-1) x) :
    (l₁ ++ (l₂ ++ a :: b :: l₃)).Pairwise fun x y => q x < q y := by
  obtain ⟨h₁, hab, h₂, h₃⟩ := keys_cut pos h
  simp only [List.pairwise_append, List.pairwise_cons, List.mem_append, List.mem_cons] at h ⊢
  obtain ⟨hs₁, ⟨-, hs₂, ⟨-, hs₃⟩, -⟩, -⟩ := h
  simp only [shifted] at hq
  have hqa : q a = pos b - 1 := by grind
  have hqb : q b = pos b := by grind
  have hkeep : ∀ x, x ∈ l₁ ∨ x ∈ l₃ → q x = pos x := by grind
  have hshift : ∀ x ∈ l₂, q x = pos x - 1 := by grind
  refine ⟨hs₁.imp_of_mem ?_, ⟨hs₂.imp_of_mem ?_, ⟨?_, ?_, hs₃.imp_of_mem ?_⟩, ?_⟩, ?_⟩ <;> grind

omit [DecidableEq α] in
theorem sorted_forward_after
    (hq : ∀ x, q x = shifted pos a (pos b) (pos a + 1) (pos b) (-1) x) :
    (l₁ ++ (l₂ ++ b :: a :: l₃)).Pairwise fun x y => q x < q y := by
  obtain ⟨h₁, hab, h₂, h₃⟩ := keys_cut pos h
  simp only [List.pairwise_append, List.pairwise_cons, List.mem_append, List.mem_cons] at h ⊢
  obtain ⟨hs₁, ⟨-, hs₂, ⟨-, hs₃⟩, -⟩, -⟩ := h
  simp only [shifted] at hq
  have hqa : q a = pos b := by grind
  have hqb : q b = pos b - 1 := by grind
  have hkeep : ∀ x, x ∈ l₁ ∨ x ∈ l₃ → q x = pos x := by grind
  have hshift : ∀ x ∈ l₂, q x = pos x - 1 := by grind
  refine ⟨hs₁.imp_of_mem ?_, ⟨hs₂.imp_of_mem ?_, ⟨?_, ?_, hs₃.imp_of_mem ?_⟩, ?_⟩, ?_⟩ <;> grind

omit [DecidableEq α] in
theorem sorted_backward_before
    (hq : ∀ x, q x = shifted pos b (pos a) (pos a) (pos b - 1) 1 x) :
    (l₁ ++ b :: a :: (l₂ ++ l₃)).Pairwise fun x y => q x < q y := by
  obtain ⟨h₁, hab, h₂, h₃⟩ := keys_cut pos h
  simp only [List.pairwise_append, List.pairwise_cons, List.mem_append, List.mem_cons] at h ⊢
  obtain ⟨hs₁, ⟨-, hs₂, ⟨-, hs₃⟩, -⟩, -⟩ := h
  simp only [shifted] at hq
  have hqa : q a = pos a + 1 := by grind
  have hqb : q b = pos a := by grind
  have hkeep : ∀ x, x ∈ l₁ ∨ x ∈ l₃ → q x = pos x := by grind
  have hshift : ∀ x ∈ l₂, q x = pos x + 1 := by grind
  refine ⟨hs₁.imp_of_mem ?_, ⟨?_, ?_, hs₂.imp_of_mem ?_, hs₃.imp_of_mem ?_, ?_⟩, ?_⟩ <;> grind

omit [DecidableEq α] in
theorem sorted_backward_after
    (hq : ∀ x, q x = shifted pos b (pos a + 1) (pos a + 1) (pos b - 1) 1 x) :
    (l₁ ++ a :: b :: (l₂ ++ l₃)).Pairwise fun x y => q x < q y := by
  obtain ⟨h₁, hab, h₂, h₃⟩ := keys_cut pos h
  simp only [List.pairwise_append, List.pairwise_cons, List.mem_append, List.mem_cons] at h ⊢
  obtain ⟨hs₁, ⟨-, hs₂, ⟨-, hs₃⟩, -⟩, -⟩ := h
  simp only [shifted] at hq
  have hqa : q a = pos a := by grind
  have hqb : q b = pos a + 1 := by grind
  have hkeep : ∀ x, x ∈ l₁ ∨ x ∈ l₃ → q x = pos x := by grind
  have hshift : ∀ x ∈ l₂, q x = pos x + 1 := by grind
  refine ⟨hs₁.imp_of_mem ?_, ⟨?_, ?_, hs₂.imp_of_mem ?_, hs₃.imp_of_mem ?_, ?_⟩, ?_⟩ <;> grind

end Sorted

end Keys

end BookmarkFS.Library
