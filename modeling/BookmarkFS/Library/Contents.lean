import Mathlib.Tactic

/-! # The contents of a regular file

What POSIX says of reading, writing and truncating: a write past the end leaves a
hole, and so does a truncation to more than there is. A hole reads as filler.

A buffer holds the contents as its first elements. Copying into the buffer, and
then filling what is between the old end and the place of the copy, is a write.
-/
namespace BookmarkFS.Library.Contents

variable {α : Type} (filler : α)

/-- What is read of at most `max` elements from an offset on. -/
def readAt (content : List α) (off max : ℕ) : List α := (content.drop off).take max

def resize (content : List α) (len : ℕ) : List α :=
  content.take len ++ List.replicate (len - content.length) filler

def writeAt (content : List α) (off : ℕ) (val : List α) : List α :=
  if val = [] then content
  else resize filler (content.take off) off ++ val ++ content.drop (off + val.length)

section Spec

variable {filler} {content : List α} {len : ℕ}

theorem resize_of_le (h : len ≤ content.length) : resize filler content len = content.take len := by
  rw [resize, Nat.sub_eq_zero_of_le h, List.replicate_zero, List.append_nil]

theorem resize_of_ge (h : content.length ≤ len) :
    resize filler content len = content ++ List.replicate (len - content.length) filler := by
  rw [resize, List.take_of_length_le h]

end Spec

section Buffer

variable {filler} {block val : List α} {off len : ℕ}

def splice (block : List α) (off : ℕ) (val : List α) : List α :=
  block.take off ++ val ++ block.drop (off + val.length)

theorem splice_nil (block : List α) (off : ℕ) : splice block off [] = block := by
  rw [splice, List.append_nil, List.length_nil, Nat.add_zero, List.take_append_drop]

theorem length_splice (h : off + val.length ≤ block.length) : (splice block off val).length =
    block.length := by
  simp only [splice, List.length_append, List.length_take, List.length_drop]
  omega

theorem take_splice (h : off ≤ block.length) (hlen : len ≤ off) : (splice block off val).take len =
    block.take len := by
  rw [splice, List.append_assoc, List.take_append_of_le_length (by rw [List.length_take]; omega),
    List.take_take,
    Nat.min_eq_left hlen]

theorem take_splice_end (block val : List α) {off : ℕ} (h : off ≤ block.length) :
    (splice block off val).take (off + val.length) = block.take off ++ val := by
  rw [splice, List.take_left']
  rw [List.length_append, List.length_take]
  omega

theorem splice_resize (h : len ≤ off) (hoff : off ≤ block.length) :
    (splice block len (List.replicate (off - len) filler)).take off =
    resize filler (block.take len) off := by
  have hlen : (block.take len).length = len := by
    rw [List.length_take]
    omega
  have hend := take_splice_end block (List.replicate (off - len) filler) (h.trans hoff)
  rw [List.length_replicate, Nat.add_sub_cancel' h] at hend
  rw [hend, resize_of_ge (by omega), hlen]

/-- A copy, and then filler from the old end up to it, is a write. -/
theorem splice_writeAt (hval : val ≠ []) (h : off + val.length ≤ block.length)
    (hlen : len ≤ block.length) :
    (splice (splice block off val) len (List.replicate (off - len) filler)).take
    (max (off + val.length) len) =
      writeAt filler (block.take len) off val := by
  have htake : (block.take len).length = len := by
    rw [List.length_take]
    omega
  rw [writeAt, if_neg hval]
  rcases le_or_gt off len with hoff | hoff
  · -- there is no hole, and what is after the copy stays
    have hresize : resize filler ((block.take len).take off) off = block.take off := by
      rw [resize_of_ge (by rw [List.length_take]; omega), List.length_take, htake,
        Nat.min_eq_left hoff, Nat.sub_self,
        List.replicate_zero, List.append_nil, List.take_take, Nat.min_eq_left hoff]
    have hprefix : (block.take off ++ val).length = off + val.length := by
      rw [List.length_append, List.length_take]
      omega
    rw [Nat.sub_eq_zero_of_le hoff, List.replicate_zero, splice_nil, hresize, splice,
      List.drop_take]
    rw [List.take_append, hprefix, List.take_of_length_le (by omega)]
    congr 2
    omega
  · -- the copy ends the file
    have hnone : (block.take len).drop (off + val.length) = [] := List.drop_eq_nil_of_le (by omega)
    have hhole : ((block.take len).take off) = block.take len := List.take_of_length_le (by omega)
    have hfill : (splice (splice block off val) len (List.replicate (off - len) filler)).take off =
        resize filler (block.take len) off := by
      rw [splice_resize hoff.le (by rw [length_splice h]; omega), take_splice (by omega) hoff.le]
    have hcopy : (splice (splice block off val) len (List.replicate (off - len) filler)).drop off =
        (splice block off val).drop off := by
      have hlength : ((splice block off val).take len ++ List.replicate (off - len) filler).length =
        off := by
        rw [List.length_append, List.length_take, List.length_replicate, length_splice h]
        omega
      rw [splice, List.drop_left' hlength, List.length_replicate, Nat.add_sub_cancel' hoff.le]
    have hval' : ((splice block off val).drop off).take val.length = val := by
      rw [splice, List.append_assoc, List.drop_left' (by rw [List.length_take]; omega),
        List.take_left]
    rw [Nat.max_eq_left (by omega), hnone, hhole, List.append_nil, List.take_add,
      hfill, hcopy, hval']

end Buffer

end BookmarkFS.Library.Contents
