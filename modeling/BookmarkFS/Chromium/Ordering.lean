import BookmarkFS.Chromium.Fsck
import BookmarkFS.Library.Reorder

/-! # The order of a directory

What `bookmark_permute()` is to make of the order of a directory, and that the
array operations of the Chromium backend do so, wherever the two entries stand.
-/
namespace BookmarkFS.Chromium
open Library Hopscotch

/-- The reference: what each of the three operations is to make of the old order. -/
def reordered {α : Type} [DecidableEq α] (op : PermdOp) (a b : α) : List α → List α :=
  match op with
  | .swap => exchange a b
  | .moveBefore => putBefore a b
  | .moveAfter => putAfter a b

section Cut

variable {a b : NodeRef} {l₁ l₂ l₃ : List NodeRef}

/-- The array operations where `a` comes first. -/
theorem permuteList_cut (op : PermdOp) (h : (l₁ ++ a :: (l₂ ++ b :: l₃)).Nodup) :
    permuteList op (l₁ ++ a :: (l₂ ++ b :: l₃)) a b l₁.length (l₁ ++ a :: l₂).length =
      reordered op a b (l₁ ++ a :: (l₂ ++ b :: l₃)) := by
  have hlen : (l₁ ++ a :: l₂).length = l₁.length + l₂.length + 1 := by simp; omega
  cases op with
  | swap =>
    rw [reordered, exchange_cut h, permuteList, set_at,
      show (l₁ ++ a :: l₂).length = (l₁ ++ b :: l₂).length by simp,
      show l₁ ++ b :: (l₂ ++ b :: l₃) = (l₁ ++ b :: l₂) ++ b :: l₃ by simp, set_at]
    simp
  | moveBefore =>
    rw [reordered, putBefore, putAt_cut h]
    simp only [permuteList, reduceCtorEq, if_false]
    rw [if_neg (by omega), if_neg (by omega),
      show l₁ ++ a :: (l₂ ++ b :: l₃) = (l₁ ++ a :: l₂) ++ b :: l₃ by simp, insertIdx_at,
      List.append_assoc, List.cons_append, eraseIdx_at]
    rfl
  | moveAfter =>
    rw [reordered, putAfter, putAt_cut h]
    simp only [permuteList, if_true]
    rw [if_neg (by omega), if_neg (by omega),
      show l₁ ++ a :: (l₂ ++ b :: l₃) = (l₁ ++ a :: (l₂ ++ [b])) ++ l₃ by simp,
      show (l₁ ++ a :: l₂).length + 1 = (l₁ ++ a :: (l₂ ++ [b])).length by
      simp; omega, insertIdx_at,
      List.append_assoc, List.cons_append, eraseIdx_at]
    simp

/-- The array operations where `a` comes last. -/
theorem permuteList_cut' (op : PermdOp) (h : (l₁ ++ b :: (l₂ ++ a :: l₃)).Nodup) :
    permuteList op (l₁ ++ b :: (l₂ ++ a :: l₃)) a b (l₁ ++ b :: l₂).length l₁.length =
      reordered op a b (l₁ ++ b :: (l₂ ++ a :: l₃)) := by
  have hlen : (l₁ ++ b :: l₂).length = l₁.length + l₂.length + 1 := by simp; omega
  have hassoc : l₁ ++ b :: (l₂ ++ a :: l₃) = (l₁ ++ b :: l₂) ++ a :: l₃ := by simp
  cases op with
  | swap =>
    rw [reordered, exchange_cut' h, permuteList, hassoc, set_at, List.append_assoc,
      List.cons_append,
      set_at]
  | moveBefore =>
    rw [reordered, putBefore, putAt_cut' h]
    simp only [permuteList, reduceCtorEq, if_false]
    rw [if_neg (by omega), if_pos (by omega), hassoc, eraseIdx_at, List.append_assoc, insertIdx_at]
    rfl
  | moveAfter =>
    rw [reordered, putAfter, putAt_cut' h]
    simp only [permuteList, if_true]
    by_cases hnil : l₂ = []
    · subst hnil
      rw [if_pos (by simp)]
      rfl
    · have hpos := List.length_pos_iff.mpr hnil
      rw [if_neg (by omega), if_pos (by omega), hassoc, eraseIdx_at,
        show l₁ ++ b :: l₂ ++ l₃ = (l₁ ++ [b]) ++ (l₂ ++ l₃) by simp,
        show l₁.length + 1 = (l₁ ++ [b]).length by simp, insertIdx_at]
      simp

end Cut

theorem permuteList_eq (op : PermdOp) {ns : List NodeRef} (hnodup : ns.Nodup) {a b : NodeRef}
    (ha : a ∈ ns) (hb : b ∈ ns) (hab : a ≠ b) :
    permuteList op ns a b (ns.idxOf a) (ns.idxOf b) = reordered op a b ns := by
  obtain ⟨l₁, l₂, l₃, rfl | rfl⟩ := exists_cut ha hb hab
  · have hidx : (l₁ ++ a :: (l₂ ++ b :: l₃)).idxOf b = (l₁ ++ a :: l₂).length := by
      rw [show l₁ ++ a :: (l₂ ++ b :: l₃) = (l₁ ++ a :: l₂) ++ b :: l₃ by simp]
      exact idxOf_at (by grind)
    rw [idxOf_at (by grind), hidx, permuteList_cut op hnodup]
  · have hidx : (l₁ ++ b :: (l₂ ++ a :: l₃)).idxOf a = (l₁ ++ b :: l₂).length := by
      rw [show l₁ ++ b :: (l₂ ++ a :: l₃) = (l₁ ++ b :: l₂) ++ a :: l₃ by simp]
      exact idxOf_at (by grind)
    rw [idxOf_at (by grind), hidx, permuteList_cut' op hnodup]

/-- In any store, a permutation of two children that are found by their names makes the reference
order. -/
theorem bookmarkPermute_found {w : WordSize} {tb : Tables w} {ctx ctx₁ ctx' : Ctx w} {env : Env}
    (hload : storeLoad tb ctx env = .ok (none, ctx₁)) {parentId : ℕ} {p e1 e2 : EntryRef}
    (hp : lookupId tb ctx₁ parentId = .ok (some p)) {a : ArrayRef}
    (ha : (ctx₁.ents p).children = some (.array a)) (hnodup : (ctx₁.json.array a).Nodup)
    {op : PermdOp} {name1 name2 : CString} {lctx1 lctx2 : LookupCtx w}
    (he1 : lookupName tb ctx₁ parentId name1 = .ok (true, lctx1, some e1))
    (he2 : lookupName tb ctx₁ parentId name2 = .ok (true, lctx2, some e2))
    (hne : (ctx₁.ents e1).node ≠ (ctx₁.ents e2).node)
    (hrun : bookmarkPermute tb ctx env parentId op name1 name2 = .ok (.ok (), ctx')) :
    ctx'.json.array a = reordered op (ctx₁.ents e1).node (ctx₁.ents e2).node (ctx₁.json.array a) ∧
      ∀ b, b ≠ a → ctx'.json.array b = ctx₁.json.array b := by
  have hentries : e2 ≠ e1 := fun h => hne (h ▸ rfl)
  rw [bookmarkPermute] at hrun
  by_cases hroot : parentId = rootId
  · rw [if_pos hroot] at hrun; cases hrun
  simp only [if_neg hroot, hload, ok_bind] at hrun
  by_cases hvalid1 : validateFilename (proposed name1) = none
  swap
  · rw [proposed] at hvalid1; rw [if_pos hvalid1] at hrun; cases hrun
  by_cases hvalid2 : validateFilename (proposed name2) = none
  swap
  · rw [proposed] at hvalid1 hvalid2
    rw [if_neg (not_not.mpr hvalid1), if_pos hvalid2] at hrun; cases hrun
  have htake1 := proposed_eq (proposed_valid.mp hvalid1)
  have htake2 := proposed_eq (proposed_valid.mp hvalid2)
  rw [proposed] at hvalid1 hvalid2 htake1 htake2
  rw [if_neg (not_not.mpr hvalid1), if_neg (not_not.mpr hvalid2), hp, htake1, htake2,
    ok_bind] at hrun
  by_cases hname : (ctx₁.ents p).name = none
  · simp only [if_pos hname] at hrun; cases hrun
  simp only [if_neg hname, ha, he1, he2, ok_bind, Bool.true_eq_false, if_false,
    if_neg hentries] at hrun
  have hfail : ∀ n ∉ ctx₁.json.array a, ctx₁.json.arraySearch (.array a) n = .error .assertion :=
    fun n hn => if_neg hn
  have hsearch : ∀ n ∈ ctx₁.json.array a,
      ctx₁.json.arraySearch (.array a) n = .ok ((ctx₁.json.array a).idxOf n) :=
      fun n hn => if_pos hn
  by_cases hmem1 : (ctx₁.ents e1).node ∈ ctx₁.json.array a
  swap
  · rw [hfail _ hmem1] at hrun; cases hrun
  by_cases hmem2 : (ctx₁.ents e2).node ∈ ctx₁.json.array a
  swap
  · rw [hsearch _ hmem1, hfail _ hmem2] at hrun; cases hrun
  rw [hsearch _ hmem1, hsearch _ hmem2, ok_bind, ok_bind] at hrun
  rw [← permuteList_eq op hnodup hmem1 hmem2 hne]
  obtain ⟨hchange, hsame⟩ | hchange := permuteChildren_eq ctx₁.json a op (ctx₁.ents e1).node
    (ctx₁.ents e2).node ((ctx₁.json.array a).idxOf (ctx₁.ents e1).node)
    ((ctx₁.json.array a).idxOf (ctx₁.ents e2).node)
  · rw [hchange] at hrun
    obtain ⟨-, rfl⟩ := Prod.mk.inj (Except.ok.inj hrun)
    exact ⟨hsame.symm, fun b _ => rfl⟩
  · rw [hchange] at hrun
    obtain ⟨-, rfl⟩ := Prod.mk.inj (Except.ok.inj hrun)
    simp only [nodeMtimeNow, Json.set_array, Json.setElems_array]
    exact ⟨if_pos trivial, fun b hb => if_neg hb⟩

/-- A permutation that succeeds makes the reference order of the old one, and touches no other
array. -/
theorem bookmarkPermute_reorders {w : WordSize} {digest : Bytes → Word w} {ctx ctx' : Ctx w}
    {env : Env} (hreach : (backend (Tables.real digest)).Reachable ctx) (henv : env.WellFormed)
    (hload : storeLoad (Tables.real digest) ctx env = .ok (none, ctx)) {p e1 e2 : EntryRef}
    (hp : ctx.idMap.Contains p) {a : ArrayRef} (ha : (ctx.ents p).children = some (.array a))
    {op : PermdOp} {name1 name2 : CString} (he1 : ctx.Visible (ctx.ents p).id name1 e1)
    (he2 : ctx.Visible (ctx.ents p).id name2 e2) (hne : e1 ≠ e2)
    (hrun : bookmarkPermute (Tables.real digest) ctx env (ctx.ents p).id op name1 name2 =
      .ok (.ok (), ctx')) :
    ctx'.json.array a = reordered op (ctx.ents e1).node (ctx.ents e2).node (ctx.json.array a) ∧
      ∀ b, b ≠ a → ctx'.json.array b = ctx.json.array b := by
  have hf := Tables.real_faithful digest
  obtain ⟨-, -, hloaded⟩ :=
    (storeLoad_spec hf henv (hreach.holds (backend_consistent hf))).of_ok hload
  obtain ⟨-, -, S, I⟩ := hloaded rfl
  have hpS := (I.entries p).mpr hp
  obtain ⟨r, hlookup, hlook⟩ := I.lookupId_spec (ctx.ents p).id
  obtain rfl := (hlook p).mpr ⟨hpS, rfl⟩
  have hfound : ∀ {name : CString} {e : EntryRef}, ctx.Visible (ctx.ents p).id name e →
      ∃ lctx, lookupName (.real digest) ctx (ctx.ents p).id name = .ok (true, lctx, some e) := by
    intro name e he
    have he := I.visible_iff.mp he
    have hflag := I.title_mode (mem_named.mp he.1).1 (mem_named.mp he.1).2.1 (mem_named.mp he.1).2.2
    obtain ⟨r, hrun, ⟨f, id, rfl, hf, hparent, hname, -⟩ | ⟨-, hfree⟩⟩ :=
      I.lookupName_spec hflag (ctx.ents p).id name
    · obtain rfl := I.indexed.names f hf e he.1 (hparent.trans he.2.1.symm)
        (hname.trans he.2.2.symm)
      exact ⟨_, hrun⟩
    · exact absurd he.2.2 (hfree e he.1 he.2.1)
  obtain ⟨lctx1, hfound1⟩ := hfound he1
  obtain ⟨lctx2, hfound2⟩ := hfound he2
  have hnodes : (ctx.ents e1).node ≠ (ctx.ents e2).node := fun h => hne
    (I.forest.node_inj e1 ((I.entries e1).mpr he1.1) e2 ((I.entries e2).mpr he2.1) h)
  exact bookmarkPermute_found hload hlookup ha (I.forest.nodup hpS ha) hfound1 hfound2 hnodes hrun

end BookmarkFS.Chromium
