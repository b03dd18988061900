import Mathlib.Tactic

/-! # Walks of bounded depth

A walk over what is below a node, with a callback that is given what the call for
the parent has produced. A loop with an explicit stack makes the same calls as the
recursion, and both give up on a node that would need a level more than there are.
-/
namespace BookmarkFS.Library.Walk

variable {ν σ δ : Type} (kids : ν → Option (List ν)) (visit : σ → ν → δ → Option (σ × δ))

/-- Calls on a node and, if it is a folder, on all that is below, with at most `depth`
levels there. -/
def visitTree : ℕ → σ → ν → δ → Option σ
  | depth, s, n, d =>
    match visit s n d with
    | none => none
    | some (s, d) =>
      match kids n with
      | none => some s
      | some ns =>
        match depth with
        | 0 => none
        | depth + 1 => ns.foldlM (fun s n => visitTree depth s n d) s

/-- A level of the stack: the nodes of a folder, the cursor, and what the call for the folder
has produced. -/
structure Frame (ν δ : Type) where
  nodes : List ν
  idx : ℕ
  data : δ

/-- The loop, with room for `size` levels, from its top on or from the call for a node on. There is
no result if this takes more rounds than there is fuel. -/
def loop (size : ℕ) : ℕ → σ → Option ν → List (Frame ν δ) → Option (Option σ)
  | 0, _, _, _ => none
  | _ + 1, s, _, [] => some (some s)
  | fuel + 1, s, none, frame :: below =>
    match frame.nodes[frame.idx]? with
    | none => if below = [] then some (some s) else loop size fuel s none below
    | some n => loop size fuel s (some n) ({ frame with idx := frame.idx + 1 } :: below)
  | fuel + 1, s, some n, frame :: below =>
    match visit s n frame.data with
    | none => some none
    | some (s, d) =>
      match kids n with
      | none => loop size fuel s none (frame :: below)
      | some ns =>
        if below.length + 1 = size then some none
        else loop size fuel s none (⟨ns, 0, d⟩ :: frame :: below)

/-- The loop ends in `r`, if there is fuel enough. -/
def Ends (size : ℕ) (s : σ) (node : Option ν) (stack : List (Frame ν δ)) (r : Option σ) : Prop :=
  ∃ enough, ∀ fuel ≥ enough, loop kids visit size fuel s node stack = some r

section Loop

variable {kids visit} {size : ℕ}

theorem Ends.step {s s' : σ} {node node' : Option ν} {stack stack' : List (Frame ν δ)}
    {r : Option σ} (h : Ends kids visit size s' node' stack' r)
    (hstep : ∀ fuel, loop kids visit size (fuel + 1) s node stack =
      loop kids visit size fuel s' node' stack') :
    Ends kids visit size s node stack r := by
  obtain ⟨enough, h⟩ := h
  refine ⟨enough + 1, fun fuel hfuel => ?_⟩
  obtain ⟨fuel, rfl⟩ : ∃ k, fuel = k + 1 := ⟨fuel - 1, by omega⟩
  rw [hstep]
  exact h fuel (by omega)

theorem Ends.now {s : σ} {node : Option ν} {stack : List (Frame ν δ)} {r : Option σ}
    (hstep : ∀ fuel, loop kids visit size (fuel + 1) s node stack = some r) :
    Ends kids visit size s node stack r := by
  refine ⟨1, fun fuel hfuel => ?_⟩
  obtain ⟨fuel, rfl⟩ : ∃ k, fuel = k + 1 := ⟨fuel - 1, by omega⟩
  exact hstep fuel

/-- What the loop makes of a node, if the recursion is given as many levels as there are left. -/
def TreeEnds (kids : ν → Option (List ν)) (visit : σ → ν → δ → Option (σ × δ))
    (size depth : ℕ) : Prop :=
  ∀ s n (frame : Frame ν δ) below r, below.length + 1 + depth = size →
    (match visitTree kids visit depth s n frame.data with
      | none => r = none
      | some s' => Ends kids visit size s' none (frame :: below) r) →
    Ends kids visit size s (some n) (frame :: below) r

/-- The rest of a folder, which is left at its end. -/
theorem ends_rest {depth : ℕ} (htree : TreeEnds kids visit size depth) {ns : List ν} {d : δ}
    {below : List (Frame ν δ)} (hbelow : below ≠ []) (hsize : below.length + 1 + depth = size)
    {r : Option σ} (rest : List ν) : ∀ (idx : ℕ) (s : σ), ns.drop idx = rest →
    (match rest.foldlM (fun s n => visitTree kids visit depth s n d) s with
      | none => r = none
      | some s' => Ends kids visit size s' none below r) →
    Ends kids visit size s none (⟨ns, idx, d⟩ :: below) r := by
  induction rest with
  | nil =>
    intro idx s hrest hend
    refine Ends.step hend fun fuel => ?_
    have hnone : ns[idx]? = none := by
      rw [List.getElem?_eq_none_iff]
      exact List.drop_eq_nil_iff.mp hrest
    simp only [loop, hnone, if_neg hbelow]
  | cons n rest ih =>
    intro idx s hrest hend
    have hsome : ns[idx]? = some n := by
      rw [← List.head?_drop, hrest, List.head?_cons]
    have hnext : ns.drop (idx + 1) = rest := by
      rw [← List.tail_drop, hrest, List.tail_cons]
    suffices hcall : Ends kids visit size s (some n) (⟨ns, idx + 1, d⟩ :: below) r from
      hcall.step fun fuel => by simp only [loop, hsome]
    refine htree s n ⟨ns, idx + 1, d⟩ below r hsize ?_
    rw [List.foldlM_cons] at hend
    dsimp only
    cases hvisit : visitTree kids visit depth s n d with
    | none => rwa [hvisit] at hend
    | some s' =>
      rw [hvisit] at hend
      exact ih (idx + 1) s' hnext hend

theorem treeEnds (depth : ℕ) : TreeEnds kids visit size depth := by
  induction depth with
  | zero =>
    intro s n frame below r hsize hend
    rw [visitTree] at hend
    cases hvisit : visit s n frame.data with
    | none =>
      rw [hvisit] at hend
      exact Ends.now fun fuel => by rw [loop, hvisit]; exact congrArg some hend.symm
    | some q =>
      obtain ⟨s', d⟩ := q
      rw [hvisit] at hend
      cases hkids : kids n with
      | none =>
        simp only [hkids] at hend
        exact Ends.step hend fun fuel => by simp only [loop, hvisit, hkids]
      | some ns =>
        simp only [hkids] at hend
        exact Ends.now fun fuel => by
          simp only [loop, hvisit, hkids, if_pos (by omega : below.length + 1 = size), hend]
  | succ depth ih =>
    intro s n frame below r hsize hend
    rw [visitTree] at hend
    cases hvisit : visit s n frame.data with
    | none =>
      rw [hvisit] at hend
      exact Ends.now fun fuel => by rw [loop, hvisit]; exact congrArg some hend.symm
    | some q =>
      obtain ⟨s', d⟩ := q
      rw [hvisit] at hend
      cases hkids : kids n with
      | none =>
        simp only [hkids] at hend
        exact Ends.step hend fun fuel => by simp only [loop, hvisit, hkids]
      | some ns =>
        simp only [hkids] at hend
        have hrest : Ends kids visit size s' none (⟨ns, 0, d⟩ :: frame :: below) r :=
          ends_rest ih (List.cons_ne_nil frame below) (by rw [List.length_cons]; omega)
            ns 0 s' rfl hend
        exact Ends.step hrest fun fuel => by
          simp only [loop, hvisit, hkids, if_neg (by omega : ¬below.length + 1 = size)]

theorem loop_eq (s : σ) (n : ν) (d : δ) (hsize : 0 < size) :
    Ends kids visit size s (some n) [⟨[], 0, d⟩] (visitTree kids visit (size - 1) s n d) := by
  refine treeEnds (size - 1) s n ⟨[], 0, d⟩ [] _ (by simp; omega) ?_
  cases visitTree kids visit (size - 1) s n d with
  | none => rfl
  | some s' => exact Ends.now fun fuel => by simp [loop]

end Loop

/-! ## What is visited -/

/-- A node and all that is below, each node before what is below it, as far as `depth`
levels reach. -/
def preorder : ℕ → ν → List ν
  | depth, n =>
    n :: match kids n with
      | none => []
      | some ns =>
        match depth with
        | 0 => []
        | depth + 1 => ns.flatMap (preorder depth)

/-- A chain of folders, each within the one before. -/
def Nested : ℕ → ν → Prop
  | 0, _ => True
  | k + 1, n => ∃ ns, kids n = some ns ∧ (k = 0 ∨ ∃ m ∈ ns, Nested k m)

section Visited

variable {kids visit}

theorem Nested.of_succ {k : ℕ} {n : ν} (h : Nested kids (k + 1) n) : Nested kids k n := by
  induction k generalizing n with
  | zero => trivial
  | succ k ih =>
    obtain ⟨ns, hns, hk | ⟨m, hm, hnested⟩⟩ := h
    · cases hk
    · cases k with
      | zero => exact ⟨ns, hns, .inl rfl⟩
      | succ k => exact ⟨ns, hns, .inr ⟨m, hm, ih hnested⟩⟩

theorem preorder_deeper {depth : ℕ} {n : ν} (h : ¬Nested kids (depth + 1) n) :
    preorder kids (depth + 1) n = preorder kids depth n := by
  induction depth generalizing n with
  | zero =>
    cases hkids : kids n with
    | none => simp only [preorder, hkids]
    | some ns => exact absurd ⟨ns, hkids, .inl rfl⟩ h
  | succ depth ih =>
    rw [preorder]
    conv_rhs => rw [preorder]
    cases hkids : kids n with
    | none => rfl
    | some ns =>
      dsimp only
      congr 1
      refine List.flatMap_congr fun m hm => ih fun hm' => h ⟨ns, hkids, .inr ⟨m, hm, hm'⟩⟩

theorem preorder_eq {depth depth' : ℕ} {n : ν} (h : ¬Nested kids (depth + 1) n)
    (hle : depth ≤ depth') :
    preorder kids depth' n = preorder kids depth n := by
  induction hle with
  | refl => rfl
  | @step k hle ih =>
    rw [preorder_deeper, ih]
    intro hk
    refine h ?_
    clear ih
    induction hle with
    | refl => exact hk
    | step hle ih => exact ih hk.of_succ

/-- What is visited depends on what can be got at only. -/
theorem preorder_congr {kids' : ν → Option (List ν)} {N : ν → Prop}
    (hkids : ∀ n, N n → kids' n = kids n)
    (hclosed : ∀ n ns, N n → kids n = some ns → ∀ m ∈ ns, N m) (depth : ℕ) {n : ν} (hn : N n) :
    preorder kids' depth n = preorder kids depth n ∧ ∀ m ∈ preorder kids depth n, N m := by
  induction depth generalizing n with
  | zero =>
    rw [preorder, preorder, hkids n hn]
    refine ⟨rfl, fun m hm => ?_⟩
    cases hns : kids n <;> rw [hns] at hm <;> exact List.mem_singleton.mp hm ▸ hn
  | succ depth ih =>
    rw [preorder, preorder, hkids n hn]
    cases hns : kids n with
    | none => exact ⟨rfl, fun m hm => List.mem_singleton.mp hm ▸ hn⟩
    | some ns =>
      have hmem := hclosed n ns hn hns
      refine ⟨congrArg (n :: ·) (List.flatMap_congr fun m hm => (ih (hmem m hm)).1), fun m hm => ?_⟩
      obtain rfl | hm := List.mem_cons.mp hm
      · exact hn
      · obtain ⟨x, hx, hm⟩ := List.mem_flatMap.mp hm
        exact (ih (hmem x hx)).2 m hm

theorem foldlM_eq_none {α : Type} {f : σ → α → Option σ} {l : List α} {a : α} (ha : a ∈ l)
    (h : ∀ s, f s a = none) (s : σ) : l.foldlM f s = none := by
  induction l generalizing s with
  | nil => cases ha
  | cons b l ih =>
    rw [List.foldlM_cons]
    cases hb : f s b with
    | none => rfl
    | some s' =>
      obtain rfl | ha := List.mem_cons.mp ha
      · rw [h s] at hb
        cases hb
      · exact ih ha s'

/-- What is nested too deep is given up, whatever the callback does. -/
theorem visitTree_nested {depth : ℕ} {n : ν} (h : Nested kids (depth + 1) n) (s : σ) (d : δ) :
    visitTree kids visit depth s n d = none := by
  induction depth generalizing n s d with
  | zero =>
    obtain ⟨ns, hns, -⟩ := h
    rw [visitTree]
    cases visit s n d with
    | none => rfl
    | some q => simp only [hns]
  | succ depth ih =>
    obtain ⟨ns, hns, hk | ⟨m, hm, hnested⟩⟩ := h
    · cases hk
    rw [visitTree]
    cases visit s n d with
    | none => rfl
    | some q =>
      simp only [hns]
      exact foldlM_eq_none hm (fun s => ih hnested s q.2) q.1

theorem foldlM_eq_none_iff {α : Type} {f : σ → α → Option σ} {P : α → Prop}
    (h : ∀ s a, f s a = none ↔ P a) (l : List α) (s : σ) : l.foldlM f s = none ↔ ∃ a ∈ l, P a := by
  induction l generalizing s with
  | nil => simp
  | cons a l ih =>
    rw [List.foldlM_cons]
    cases hfa : f s a with
    | none => simp [(h s a).mp hfa]
    | some s' =>
      have hPa : ¬P a := fun hP => by rw [(h s a).mpr hP] at hfa; cases hfa
      simp [ih, hPa]

theorem visitTree_eq_none_iff (htotal : ∀ s n d, (visit s n d).isSome) (depth : ℕ) (s : σ)
    (n : ν) (d : δ) :
    visitTree kids visit depth s n d = none ↔ Nested kids (depth + 1) n := by
  induction depth generalizing s n d with
  | zero =>
    obtain ⟨⟨s', d'⟩, hvisit⟩ := Option.isSome_iff_exists.mp (htotal s n d)
    rw [visitTree, hvisit, Nested]
    cases hkids : kids n <;> simp
  | succ depth ih =>
    obtain ⟨⟨s', d'⟩, hvisit⟩ := Option.isSome_iff_exists.mp (htotal s n d)
    rw [visitTree, hvisit, Nested]
    cases hkids : kids n with
    | none => simp
    | some ns =>
      dsimp only
      rw [foldlM_eq_none_iff fun s m => ih s m d']
      simp

theorem foldlM_isSome {α : Type} {f : σ → α → Option σ} {l : List α}
    (h : ∀ a ∈ l, ∀ s, (f s a).isSome) (s : σ) :
    (l.foldlM f s).isSome := by
  induction l generalizing s with
  | nil => rfl
  | cons a l ih =>
    obtain ⟨s', hs'⟩ := Option.isSome_iff_exists.mp (h a List.mem_cons_self s)
    rw [List.foldlM_cons, hs']
    exact ih (fun b hb => h b (List.mem_cons_of_mem a hb)) s'

/-- A walk over what is not nested too deep succeeds, if all visits do. -/
theorem visitTree_isSome {depth : ℕ} {n : ν} (hnested : ¬Nested kids (depth + 1) n)
    (h : ∀ m ∈ preorder kids depth n, ∀ s d, (visit s m d).isSome) (s : σ) (d : δ) :
    (visitTree kids visit depth s n d).isSome := by
  induction depth generalizing s n d with
  | zero =>
    obtain ⟨⟨s', d'⟩, hvisit⟩ :=
      Option.isSome_iff_exists.mp (h n (by rw [preorder]; exact List.mem_cons_self) s d)
    rw [visitTree, hvisit]
    cases hkids : kids n with
    | none => rfl
    | some ns => exact absurd ⟨ns, hkids, .inl rfl⟩ hnested
  | succ depth ih =>
    obtain ⟨⟨s', d'⟩, hvisit⟩ :=
      Option.isSome_iff_exists.mp (h n (by rw [preorder]; exact List.mem_cons_self) s d)
    rw [visitTree, hvisit]
    cases hkids : kids n with
    | none => rfl
    | some ns =>
      refine foldlM_isSome (fun m hm s => ih (fun hdeep => hnested ⟨ns, hkids, .inr ⟨m, hm, hdeep⟩⟩)
        (fun x hx => h x ?_) s d') s'
      rw [preorder, hkids]
      exact List.mem_cons_of_mem n (List.mem_flatMap.mpr ⟨m, hm, hx⟩)

theorem foldlM_flatMap {α β : Type} {f : σ → α → Option σ} {step : σ → β → Option σ}
    {g : α → List β} (h : ∀ s s' a, f s a = some s' → (g a).foldlM step s = some s') (l : List α)
    {s s' : σ} (hl : l.foldlM f s = some s') : (l.flatMap g).foldlM step s = some s' := by
  induction l generalizing s with
  | nil => exact hl
  | cons a l ih =>
    rw [List.foldlM_cons] at hl
    obtain ⟨s₁, hs₁, hl⟩ := Option.bind_eq_some_iff.mp hl
    rw [List.flatMap_cons, List.foldlM_append, h s s₁ a hs₁]
    exact ih hl

/-- A walk that makes nothing of the datum folds over the nodes in preorder. -/
theorem visitTree_fold {step : σ → ν → Option σ} {depth : ℕ} {s s' : σ} {n : ν}
    (h : visitTree kids (fun s n (_ : Unit) => (step s n).map fun s => (s, ())) depth s n
      () = some s') :
    (preorder kids depth n).foldlM step s = some s' := by
  induction depth generalizing s s' n with
  | zero =>
    rw [visitTree] at h
    rw [preorder, List.foldlM_cons]
    cases hstep : step s n with
    | none => simp [hstep] at h
    | some s₁ =>
      cases hkids : kids n with
      | none => simpa [hstep, hkids] using h
      | some ns => simp [hstep, hkids] at h
  | succ depth ih =>
    rw [visitTree] at h
    rw [preorder, List.foldlM_cons]
    cases hstep : step s n with
    | none => simp [hstep] at h
    | some s₁ =>
      cases hkids : kids n with
      | none => simpa [hstep, hkids] using h
      | some ns =>
        simp only [hstep, Option.map_some, hkids] at h
        exact foldlM_flatMap (fun _ _ _ hm => ih hm) ns h

end Visited

end BookmarkFS.Library.Walk
