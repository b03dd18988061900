import Mathlib.Tactic

/-! # Sequences read in pages

A producer offers entries one after the other until a reader refuses one. What
the reader has got is then an initial part of the sequence, and a later page
goes on from there.
-/
namespace BookmarkFS.Library

variable {α β : Type}

/-- The last status, and the entries that the reader has got once it has refused one, or none are
left. -/
def feed (reply : List α → α → ℤ) : List α → List α → ℤ × List α
  | [], got => (0, got)
  | x :: xs, got => if reply got x ≠ 0 then (reply got x, got) else feed reply xs (got ++ [x])

theorem feed_extends (reply : List α → α → ℤ) (xs got : List α) :
    ∃ more, (feed reply xs got).2 = got ++ more := by
  induction xs generalizing got with
  | nil => exact ⟨[], (List.append_nil got).symm⟩
  | cons x xs ih =>
    rw [feed]
    split
    · exact ⟨[], (List.append_nil got).symm⟩
    · obtain ⟨more, hmore⟩ := ih (got ++ [x])
      exact ⟨x :: more, by rw [hmore, List.append_assoc, List.singleton_append]⟩

theorem mem_of_mem_feed {reply : List α → α → ℤ} {xs got : List α} {x : α}
    (h : x ∈ (feed reply xs got).2) : x ∈ got ∨ x ∈ xs := by
  induction xs generalizing got with
  | nil => exact .inl h
  | cons y xs ih =>
    rw [feed] at h
    split at h
    · exact .inl h
    · rcases ih h with h | h
      · rcases List.mem_append.mp h with h | h
        · exact .inl h
        · exact .inr (List.mem_cons.mpr (.inl (List.mem_singleton.mp h)))
      · exact .inr (List.mem_cons_of_mem y h)

theorem feed_all (xs got : List α) : feed (fun _ _ => 0) xs got = (0, got ++ xs) := by
  induction xs generalizing got with
  | nil => rw [List.append_nil]; rfl
  | cons x xs ih => rw [feed, if_neg (not_not.mpr rfl), ih, List.append_assoc,
      List.singleton_append]

theorem feed_until [DecidableEq α] {x : α} {xs got : List α} (hx : x ∈ xs) (hgot : x ∉ got) :
    (feed (fun got _ => if x ∈ got then 1 else 0) xs got).2.getLast? = some x := by
  induction xs generalizing got with
  | nil => cases hx
  | cons y xs ih =>
    rw [feed, if_neg (by simp [hgot])]
    by_cases hy : x = y
    · subst hy
      have hstop : feed (fun got _ => if x ∈ got then 1 else 0) xs (got ++ [x]) =
          ((feed (fun got _ => if x ∈ got then 1 else 0) xs (got ++ [x])).1, got ++ [x]) := by
        cases xs with
        | nil => rfl
        | cons z xs => rw [feed, if_pos (by simp)]
      rw [hstop, List.getLast?_append, List.getLast?_singleton]
      rfl
    · exact ih ((List.mem_cons.mp hx).resolve_left hy) (by simp [hgot, hy])

/-- The entries of a sequence of cells, of which some show none; each knows its place. -/
def offered (shown : β → ℕ → Option α) : List β → ℕ → List α
  | [], _ => []
  | b :: bs, idx => (shown b (idx + 1)).toList ++ offered shown bs (idx + 1)

variable {shown shown' : β → ℕ → Option α}

theorem offered_length_le (bs : List β) (idx : ℕ) : (offered shown bs idx).length ≤ bs.length := by
  induction bs generalizing idx with
  | nil => exact Nat.zero_le _
  | cons b bs ih =>
    rw [offered, List.length_append, List.length_cons, Nat.add_comm]
    exact Nat.add_le_add (ih (idx + 1)) (by cases shown b (idx + 1) <;> simp)

theorem mem_offered {bs : List β} {idx : ℕ} {x : α} :
    x ∈ offered shown bs idx ↔ ∃ k b, bs[k]? = some b ∧ shown b (idx + k + 1) = some x := by
  induction bs generalizing idx with
  | nil => simp [offered]
  | cons b bs ih =>
    rw [offered, List.mem_append, Option.mem_toList, ih]
    constructor
    · rintro (h | ⟨k, c, hat, h⟩)
      · exact ⟨0, b, rfl, h⟩
      · refine ⟨k + 1, c, hat, ?_⟩
        rwa [show idx + (k + 1) + 1 = idx + 1 + k + 1 by omega]
    · rintro ⟨k, c, hat, h⟩
      cases k with
      | zero =>
        obtain rfl : b = c := Option.some.inj hat
        exact .inl h
      | succ k =>
        refine .inr ⟨k, c, hat, ?_⟩
        rwa [show idx + 1 + k + 1 = idx + (k + 1) + 1 by omega]

theorem feed_split (reply : List α → α → ℤ) (xs got : List α) :
    ∃ l₁ l₂, xs = l₁ ++ l₂ ∧ (feed reply xs got).2 = got ++ l₁ := by
  induction xs generalizing got with
  | nil => exact ⟨[], [], rfl, (List.append_nil got).symm⟩
  | cons x xs ih =>
    rw [feed]
    split
    · exact ⟨[], x :: xs, rfl, (List.append_nil got).symm⟩
    · obtain ⟨l₁, l₂, rfl, hgot⟩ := ih (got ++ [x])
      exact ⟨x :: l₁, l₂, rfl, by rw [hgot, List.append_assoc, List.singleton_append]⟩

section Page

variable {off : α → ℕ} (hoff : ∀ b i x, shown b i = some x → off x = i)

include hoff

theorem offered_sorted (bs : List β) (idx : ℕ) :
    (offered shown bs idx).Pairwise fun x y => off x < off y := by
  induction bs generalizing idx with
  | nil => exact .nil
  | cons b bs ih =>
    rw [offered]
    cases hb : shown b (idx + 1) with
    | none => exact ih (idx + 1)
    | some x =>
      refine List.pairwise_cons.mpr ⟨fun y hy => ?_, ih (idx + 1)⟩
      obtain ⟨k, c, -, hc⟩ := mem_offered.mp hy
      rw [hoff _ _ _ hb, hoff _ _ _ hc]
      omega

/-- The last entry of an initial part tells which cells are left. -/
theorem offered_drop {bs : List β} {idx : ℕ} {l₁ l₂ : List α}
    (h : offered shown bs idx = l₁ ++ l₂) :
    ∃ k, (l₁.getLast?.map off).getD idx = idx + k ∧ offered shown (bs.drop k) (idx + k) = l₂ := by
  induction bs generalizing idx l₁ with
  | nil =>
    obtain ⟨rfl, rfl⟩ := List.append_eq_nil_iff.mp h.symm
    exact ⟨0, rfl, rfl⟩
  | cons b bs ih =>
    cases l₁ with
    | nil => exact ⟨0, rfl, h⟩
    | cons x l₁ =>
      have hidx : ∀ k, idx + (k + 1) = idx + 1 + k := fun k => by omega
      rw [offered] at h
      cases hb : shown b (idx + 1) with
      | none =>
        rw [hb, Option.toList_none, List.nil_append] at h
        obtain ⟨k, hlast, hrest⟩ := ih h
        rw [List.getLast?_cons, Option.map_some, Option.getD_some] at hlast ⊢
        exact ⟨k + 1, hlast.trans (hidx k).symm, by rw [List.drop_succ_cons, hidx, hrest]⟩
      | some y =>
        rw [hb, Option.toList_some, List.singleton_append, List.cons_append] at h
        obtain ⟨rfl, htail⟩ := List.cons.inj h
        obtain ⟨k, hlast, hrest⟩ := ih htail
        refine ⟨k + 1, ?_, by rw [List.drop_succ_cons, hidx, hrest]⟩
        rw [List.getLast?_cons, Option.map_some, Option.getD_some, hidx, ← hlast]
        cases l₁.getLast? with
        | none => exact hoff _ _ _ hb
        | some z => rfl

end Page

theorem map_offered_congr {γ : Type} {f : α → γ} {bs : List β} {idx : ℕ}
    (h : ∀ b ∈ bs, ∀ off, (shown b off).map f = (shown' b off).map f) :
    (offered shown bs idx).map f = (offered shown' bs idx).map f := by
  induction bs generalizing idx with
  | nil => rfl
  | cons b bs ih =>
    have hb := h b List.mem_cons_self (idx + 1)
    rw [offered, offered, List.map_append, List.map_append,
      ih fun c hc => h c (List.mem_cons_of_mem b hc), ← Option.toList_map, ← Option.toList_map, hb]

/-- Where a sorted sequence is cut before the first cell that is broken, a cell is left just if no
cell up to it is broken. -/
theorem mem_takeWhile_iff {l : List β} {key : β → ℤ} {p : β → Bool}
    (hsorted : l.Pairwise fun b c => key b < key c) {b : β} :
    b ∈ l.takeWhile p ↔ b ∈ l ∧ ∀ c ∈ l, key c ≤ key b → p c = true := by
  induction l with
  | nil => simp
  | cons c l ih =>
    obtain ⟨hafter, hsorted⟩ := List.pairwise_cons.mp hsorted
    rw [List.takeWhile_cons]
    cases hc : p c with
    | false =>
      rw [if_neg Bool.false_ne_true]
      refine ⟨nofun, fun ⟨hb, hall⟩ => ?_⟩
      have hle : key c ≤ key b := by
        rcases List.mem_cons.mp hb with rfl | hb
        · exact le_rfl
        · exact (hafter b hb).le
      rw [hall c List.mem_cons_self hle] at hc
      cases hc
    | true =>
      rw [if_pos rfl, List.mem_cons, List.mem_cons, ih hsorted]
      constructor
      · rintro (rfl | ⟨hb, hall⟩)
        · refine ⟨.inl rfl, fun d hd hle => ?_⟩
          rcases List.mem_cons.mp hd with rfl | hd
          · exact hc
          · exact absurd hle (hafter d hd).not_ge
        · refine ⟨.inr hb, fun d hd hle => ?_⟩
          rcases List.mem_cons.mp hd with rfl | hd
          · exact hc
          · exact hall d hd hle
      · rintro ⟨rfl | hb, hall⟩
        · exact .inl rfl
        · exact .inr ⟨hb, fun d hd hle => hall d (List.mem_cons_of_mem c hd) hle⟩

/-- In a sorted sequence, the first cell with a property is the least one. -/
theorem le_of_find? {l : List β} {key : β → ℤ} {p : β → Bool}
    (hsorted : l.Pairwise fun b c => key b < key c)
    {b c : β} (hfind : l.find? p = some b) (hc : c ∈ l) (hpc : p c = true) : key b ≤ key c := by
  obtain ⟨-, l₁, l₂, rfl, hbefore⟩ := List.find?_eq_some_iff_append.mp hfind
  rcases List.mem_append.mp hc with hc | hc
  · have := hbefore c hc
    rw [hpc] at this
    cases this
  · rcases List.mem_cons.mp hc with rfl | hc
    · exact le_rfl
    · exact (List.rel_of_pairwise_cons (List.pairwise_append.mp hsorted).2.1 hc).le

end BookmarkFS.Library
