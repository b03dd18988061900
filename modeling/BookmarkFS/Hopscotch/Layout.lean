import BookmarkFS.Library.Checked
import BookmarkFS.Hopscotch.Table
import Mathlib.Data.Finset.Card

/-! # The invariant that ties hop bits, fragments and slots

`Layout` speaks of an occupancy function `occ` rather than of the `entry`
fields, so that it can be stated of a table with one slot set aside: during a
displacement and just before an insertion the slot `make_room()` hands out may
hold a stale pointer, and `occ` calls it empty.
-/
namespace BookmarkFS.Hopscotch
open Library

variable {w : WordSize} {α : Type}

/-- Whether the hop bit `j` of the bucket `h` is set. -/
def Buckets.hop (t : Buckets w α) (h j : ℕ) : Bool := (t.mem h).bits.getLsbD j

/-- The fragment of a hashcode kept in the bucket `i`. -/
def Buckets.fragment (t : Buckets w α) (exp i : ℕ) : Word w :=
  (t.mem i).bits &&& bucketHashMask w exp

def Buckets.occ (t : Buckets w α) (i : ℕ) : Option α :=
  if i < t.size then (t.mem i).entry else none

/-- Every hop bit points to the slot of an entry that is home there, and every entry sits in the
neighborhood of its home bucket, under its hop bit and with its own fragment. -/
structure Layout (t : Buckets w α) (exp : ℕ) (hashOf : α → Word w) (occ : ℕ → Option α) :
    Prop where
  size : t.size = bucketCnt exp
  slot_of_hop : ∀ h j, j < exp → t.hop h j = true →
    ∃ e, occ (h + j) = some e ∧ hashToIdx (hashOf e) exp = h
  hop_of_slot : ∀ i e, occ i = some e →
    (t.mem i).entry = some e ∧ t.fragment exp i = hashOf e <<< exp ∧
      ∃ j < exp, hashToIdx (hashOf e) exp + j = i ∧ t.hop (hashToIdx (hashOf e) exp) j = true
  slot_unique : ∀ i i' e, occ i = some e → occ i' = some e → i = i'

/-- All slots but `b` hold what `occ` says, and `b` is free. -/
def FreeAt (t : Buckets w α) (occ : ℕ → Option α) (b : ℕ) : Prop :=
  b < t.size ∧ occ b = none ∧ ∀ i, i ≠ b → t.occ i = occ i

def SameEntries (occ occ' : ℕ → Option α) : Prop :=
  ∀ e, (∃ i, occ' i = some e) ↔ ∃ i, occ i = some e

theorem SameEntries.refl (occ : ℕ → Option α) : SameEntries occ occ := fun _ => Iff.rfl

theorem SameEntries.trans {occ occ' occ'' : ℕ → Option α} (h : SameEntries occ occ')
    (h' : SameEntries occ' occ'') : SameEntries occ occ'' := fun e => (h' e).trans (h e)

namespace Buckets

theorem get_ok {t : Buckets w α} {i : ℕ} (h : i < t.size) : t.get i = .ok (t.mem i) := if_pos h

theorem set_ok {t : Buckets w α} {i : ℕ} (b : Bucket w α) (h : i < t.size) :
    t.set i b = .ok { t with mem := Function.update t.mem i b } := if_pos h

theorem occ_of_lt {t : Buckets w α} {i : ℕ} (h : i < t.size) : t.occ i = (t.mem i).entry := if_pos h

theorem occ_eq_some {t : Buckets w α} {i : ℕ} {e : α} :
    t.occ i = some e ↔ i < t.size ∧ (t.mem i).entry = some e := by
  unfold occ
  split <;> simp_all

theorem lt_of_occ {t : Buckets w α} {i : ℕ} {e : α} (h : t.occ i = some e) : i < t.size :=
  (occ_eq_some.mp h).1

@[simp] theorem calloc_size (n : ℕ) : (calloc n : Buckets w α).size = n := rfl

@[simp] theorem calloc_occ (n i : ℕ) : (calloc n : Buckets w α).occ i = none := by
  unfold occ
  split <;> rfl

@[simp] theorem calloc_hop (n h j : ℕ) : (calloc n : Buckets w α).hop h j = false := by
  simp [hop, calloc]

end Buckets

theorem Layout.calloc (w : WordSize) (exp : ℕ) (hashOf : α → Word w) :
    Layout (Buckets.calloc (bucketCnt exp)) exp hashOf (Buckets.calloc (w := w) (bucketCnt exp)).occ
    where
  size := rfl
  slot_of_hop h j _ hh := by simp at hh
  hop_of_slot i e hi := by simp at hi
  slot_unique i i' e hi := by simp at hi

section Neighborhood

variable {t : Buckets w α} {exp : ℕ} {hashOf : α → Word w} {occ : ℕ → Option α}

theorem neighborhood_lt {h j : ℕ} (hh : h < 2 ^ exp) (hj : j < exp) : h + j < bucketCnt exp := by
  unfold bucketCnt
  omega

end Neighborhood

/-- The table holds exactly the entries of `S`, each one filed under the hashcode `hashOf`. -/
structure Holds (map : Hashmap w α) (S : Finset α) (hashOf : α → Word w) : Prop where
  exp_ge : expMin ≤ map.exp
  exp_le : map.exp ≤ w.expMax
  layout : Layout map.buckets map.exp hashOf map.buckets.occ
  mem_iff : ∀ e, e ∈ S ↔ ∃ i, map.buckets.occ i = some e
  used : map.numUsed = S.card

theorem Holds.exp_lt_bits {map : Hashmap w α} {S : Finset α} {hashOf : α → Word w}
    (H : Holds map S hashOf) : map.exp < w.bits :=
  H.exp_le.trans_lt (expMax_lt_bits w)

theorem Holds.create (hashOf : α → Word w) : Holds (hashmapCreate : Hashmap w α) ∅ hashOf where
  exp_ge := le_rfl
  exp_le := (expMin_lt_expMax w).le
  layout := Layout.calloc w expMin hashOf
  mem_iff e := by simp [hashmapCreate]
  used := rfl

theorem Layout.congr_hash {t : Buckets w α} {exp : ℕ} {f g : α → Word w} {occ : ℕ → Option α}
    (L : Layout t exp f occ) (h : ∀ i e, occ i = some e → f e = g e) : Layout t exp g occ where
  size := L.size
  slot_of_hop a j hj hh := by
    obtain ⟨e, he, hid⟩ := L.slot_of_hop a j hj hh
    exact ⟨e, he, h _ e he ▸ hid⟩
  hop_of_slot i e hi := h i e hi ▸ L.hop_of_slot i e hi
  slot_unique := L.slot_unique

theorem Holds.congr_hash {map : Hashmap w α} {S : Finset α} {f g : α → Word w}
    (H : Holds map S f) (h : ∀ e ∈ S, f e = g e) : Holds map S g where
  exp_ge := H.exp_ge
  exp_le := H.exp_le
  layout := H.layout.congr_hash fun i e hi => h e ((H.mem_iff e).mpr ⟨i, hi⟩)
  mem_iff := H.mem_iff
  used := H.used

/-- `id` is the identifier of the bucket that holds `e`. -/
def Designates (map : Hashmap w α) (id : Word w) (e : α) : Prop :=
  ∃ hashIdx hopIdx, hashIdx < 2 ^ map.exp ∧ hopIdx < map.exp ∧ id = packId w hashIdx hopIdx ∧
    map.buckets.hop hashIdx hopIdx = true ∧ map.buckets.occ (hashIdx + hopIdx) = some e

end BookmarkFS.Hopscotch
