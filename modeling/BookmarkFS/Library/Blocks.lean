import Mathlib.Tactic

/-! # Folding over blocks

A function of a whole list that is computed block by block, whatever pieces the
list comes in. `foldBlocks` leaves out the elements after the last block that is
complete, and these are the ones to be kept for the next piece.
-/
namespace BookmarkFS.Library

variable {σ α : Type} (f : σ → List α → σ) (n : ℕ)

/-- The blocks of `n` elements in order. -/
def foldBlocks (s : σ) (xs : List α) : σ :=
  (List.range (xs.length / n)).foldl (fun s i => f s ((xs.drop (n * i)).take n)) s

def lastBlock (xs : List α) : List α := xs.drop (n * (xs.length / n))

section Blocks

variable {f n} {s : σ} {xs ys : List α}

theorem foldBlocks_of_lt (h : xs.length < n) : foldBlocks f n s xs = s := by
  rw [foldBlocks, Nat.div_eq_of_lt h]
  rfl

theorem lastBlock_of_lt (h : xs.length < n) : lastBlock n xs = xs := by
  rw [lastBlock, Nat.div_eq_of_lt h]
  simp

theorem lastBlock_length : (lastBlock n xs).length = xs.length % n := by
  rw [lastBlock, List.length_drop, Nat.mod_def]

theorem foldBlocks_block (hn : 0 < n) (h : xs.length = n) :
    foldBlocks f n s (xs ++ ys) = foldBlocks f n (f s xs) ys := by
  have hcount : (xs ++ ys).length / n = ys.length / n + 1 := by
    rw [List.length_append, h, Nat.add_div_left _ hn]
  rw [foldBlocks, hcount, List.range_succ_eq_map, List.foldl_cons, List.foldl_map, foldBlocks]
  have hfirst : ((xs ++ ys).drop (n * 0)).take n = xs := by
    rw [Nat.mul_zero, List.drop_zero, ← h, List.take_left]
  rw [hfirst]
  congr 1
  funext s i
  rw [Nat.mul_succ, Nat.add_comm, ← List.drop_drop, ← h, List.drop_left]

theorem foldBlocks_one (hn : 0 < n) (h : xs.length = n) : foldBlocks f n s xs = f s xs := by
  have hone := (foldBlocks_block hn h : foldBlocks f n s (xs ++ []) = _)
  rwa [List.append_nil, foldBlocks_of_lt (show ([] : List α).length < n from hn)] at hone

theorem lastBlock_block (hn : 0 < n) (h : xs.length = n) :
    lastBlock n (xs ++ ys) = lastBlock n ys := by
  have hcount : (xs ++ ys).length / n = ys.length / n + 1 := by
    rw [List.length_append, h, Nat.add_div_left _ hn]
  rw [lastBlock, hcount, Nat.mul_succ, Nat.add_comm, ← List.drop_drop, ← h,
    List.drop_left, lastBlock]

/-- Whole blocks can be folded first. -/
theorem foldBlocks_append (hn : 0 < n) (h : n ∣ xs.length) :
    foldBlocks f n s (xs ++ ys) = foldBlocks f n (foldBlocks f n s xs) ys ∧
      lastBlock n (xs ++ ys) = lastBlock n ys := by
  obtain ⟨k, hk⟩ := h
  induction k generalizing s xs with
  | zero =>
    obtain rfl := List.eq_nil_of_length_eq_zero hk
    rw [List.nil_append, foldBlocks_of_lt (show ([] : List α).length < n from hn)]
    exact ⟨rfl, rfl⟩
  | succ k ih =>
    have hfirst : (xs.take n).length = n := by
      rw [List.length_take, hk]
      exact min_eq_left (Nat.le_mul_of_pos_right n k.succ_pos)
    have hrest : (xs.drop n).length = n * k := by
      rw [List.length_drop, hk, Nat.mul_succ, Nat.add_sub_cancel]
    obtain ⟨hfold, hlast⟩ := ih (s := f s (xs.take n)) hrest
    have hsplit := List.take_append_drop n xs
    constructor
    · calc foldBlocks f n s (xs ++ ys)
          = foldBlocks f n s (xs.take n ++ (xs.drop n ++ ys)) := by rw [← List.append_assoc, hsplit]
        _ = foldBlocks f n (foldBlocks f n (f s (xs.take n)) (xs.drop n)) ys := by
          rw [foldBlocks_block hn hfirst, hfold]
        _ = foldBlocks f n (foldBlocks f n s xs) ys := by rw [← foldBlocks_block hn hfirst, hsplit]
    · calc lastBlock n (xs ++ ys)
          = lastBlock n (xs.take n ++ (xs.drop n ++ ys)) := by rw [← List.append_assoc, hsplit]
        _ = lastBlock n ys := by rw [lastBlock_block hn hfirst, hlast]

theorem dvd_whole (n : ℕ) (xs : List α) : n ∣ (xs.take (n * (xs.length / n))).length := by
  rw [List.length_take, min_eq_left (Nat.mul_div_le _ _)]
  exact Nat.dvd_mul_right ..

theorem whole_append_lastBlock (n : ℕ) (xs : List α) : xs.take (n * (xs.length / n)) ++
    lastBlock n xs = xs :=
  List.take_append_drop _ xs

theorem foldBlocks_whole (hn : 0 < n) (s : σ) (xs : List α) :
    foldBlocks f n s (xs.take (n * (xs.length / n))) = foldBlocks f n s xs := by
  have hshort : (lastBlock n xs).length < n := by
    rw [lastBlock_length]
    exact Nat.mod_lt _ hn
  conv_rhs => rw [← whole_append_lastBlock n xs]
  rw [(foldBlocks_append hn (dvd_whole n xs)).1, foldBlocks_of_lt hshort]

/-- What has been folded already does not matter for the pieces that follow, but for what
is kept of it. -/
theorem foldBlocks_resume (hn : 0 < n) (s : σ) (xs ys : List α) :
    foldBlocks f n s (xs ++ ys) = foldBlocks f n (foldBlocks f n s xs) (lastBlock n xs ++ ys) ∧
      lastBlock n (xs ++ ys) = lastBlock n (lastBlock n xs ++ ys) := by
  rw [← foldBlocks_whole hn s xs]
  conv => enter [1, 1]; rw [← whole_append_lastBlock n xs, List.append_assoc]
  conv => enter [2, 1]; rw [← whole_append_lastBlock n xs, List.append_assoc]
  exact foldBlocks_append hn (dvd_whole n xs)

end Blocks

end BookmarkFS.Library
