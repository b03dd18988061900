import BookmarkFS.Library.Checked
import BookmarkFS.Library.Text

/-! # Blocks of memory

A block is the bytes, or the records, that have been allocated. What an allocation
finds in them is not known, so it is an argument; what is read or written outside of
a block is a fault.
-/
namespace BookmarkFS.Library

variable {ε α : Type}

/-- `realloc()`, or `malloc()` on an empty block; `fill` is what is in new memory. -/
def reallocate (fill : ℕ → α) (block : List α) (size : ℕ) : List α :=
  (block ++ (List.range size).map fill).take size

@[simp] theorem reallocate_length (fill : ℕ → α) (block : List α) (size : ℕ) :
    (reallocate fill block size).length = size := by
  simp [reallocate]

theorem reallocate_getElem? (fill : ℕ → α) {block : List α} {size i : ℕ} (hi : i < block.length)
    (hsize : i < size) : (reallocate fill block size)[i]? = block[i]? := by
  rw [reallocate, List.getElem?_take_of_lt hsize, List.getElem?_append_left hi]

/-- `memcpy()` into a block -/
def storeBytes (fault : ε) (block : Bytes) (off : ℕ) (val : Bytes) : Except ε Bytes :=
  if off + val.length ≤ block.length then
    .ok (block.take off ++ val ++ block.drop (off + val.length))
  else .error fault

def loadBytes (fault : ε) (block : Bytes) (off len : ℕ) : Except ε Bytes :=
  if off + len ≤ block.length then .ok ((block.drop off).take len) else .error fault

/-- A difference of type `size_t` -/
def subSize (fault : ε) (a b : ℕ) : Except ε ℕ := if b ≤ a then .ok (a - b) else .error fault

theorem subSize_ok (fault : ε) {a b : ℕ} (h : b ≤ a) : subSize fault a b = .ok (a - b) := if_pos h

section Blocks

variable (fault : ε) {block val : Bytes} {off len : ℕ}

theorem storeBytes_ok (h : off + val.length ≤ block.length) :
    ∃ block', storeBytes fault block off val = .ok block' ∧ block'.length = block.length := by
  refine ⟨_, if_pos h, ?_⟩
  simp only [List.length_append, List.length_take, List.length_drop]
  omega

theorem loadBytes_ok (h : off + len ≤ block.length) :
    loadBytes fault block off len = .ok ((block.drop off).take len) ∧
      ((block.drop off).take len).length = len := by
  refine ⟨if_pos h, ?_⟩
  simp only [List.length_take, List.length_drop]
  omega

end Blocks

end BookmarkFS.Library
