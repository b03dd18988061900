import BookmarkFS.Chromium.Calls

/-! # Calls that fail

A call that need not load the store again makes all of its checks before it changes
anything, except that `build_node()` uses up an identifier before it tries the
name. What it builds by then is on cells of its own.
-/
namespace BookmarkFS.Chromium
open Library Hopscotch

variable {w : WordSize} {tb : Tables w} {ctx ctx' : Ctx w} {env : Env}

/-- Nothing but cells that are not in the store, and the last identifier used, differs. -/
structure Ctx.Untouched (ctx ctx' : Ctx w) : Prop where
  json : ctx.json.Extends ctx'.json
  maxId : ctx.maxId ≤ ctx'.maxId
  rest : ctx' = { ctx with json := ctx'.json, maxId := ctx'.maxId }

theorem Json.Extends.refl (json : Json) : json.Extends json :=
  ⟨fun _ _ _ => rfl, fun _ _ => rfl, le_rfl, le_rfl⟩

theorem Ctx.Untouched.refl (ctx : Ctx w) : ctx.Untouched ctx := ⟨.refl _, le_rfl, rfl⟩

section Failures

variable {status : Option Errno} (hload : storeLoad tb ctx env = .ok (status, ctx))

include hload

theorem bookmarkDelete_error (parentId : ℕ) (name : CString) (deleteDir : Bool) :
    Yields (fun _ => True) (bookmarkDelete tb ctx env parentId name deleteDir) fun r =>
      ∀ err, r.1 = .error err → r.2 = ctx := by
  rw [bookmarkDelete]
  split
  · exact fun _ _ => rfl
  simp only [hload, ok_bind]
  cases status with
  | some err => exact fun _ _ => rfl
  | none =>
  refine (Yields.any _).bind fun parent _ => ?_
  cases parent with
  | none => exact fun _ _ => rfl
  | some p =>
  dsimp only
  split
  · exact fun _ _ => rfl
  cases (ctx.ents p).children with
  | none => exact fun _ _ => rfl
  | some siblings =>
  refine (Yields.any _).bind ?_
  rintro ⟨found, lctx, entry⟩ -
  cases entry with
  | none => exact fun _ _ => rfl
  | some e =>
  dsimp only
  split
  · exact fun _ _ => rfl
  split
  · exact fun _ _ => rfl
  refine (Yields.any _).bind fun idx _ => (Yields.any _).bind fun ctx₁ _ => ?_
  exact fun _ h => absurd h (by simp)

theorem bookmarkPermute_error (parentId : ℕ) (op : PermdOp) (name1 name2 : CString) :
    Yields (fun _ => True) (bookmarkPermute tb ctx env parentId op name1 name2) fun r =>
      ∀ err, r.1 = .error err → r.2 = ctx := by
  rw [bookmarkPermute]
  split
  · exact fun _ _ => rfl
  simp only [hload, ok_bind]
  cases status with
  | some err => exact fun _ _ => rfl
  | none =>
  dsimp only
  split
  · exact fun _ _ => rfl
  split
  · exact fun _ _ => rfl
  refine (Yields.any _).bind fun parent _ => ?_
  cases parent with
  | none => exact fun _ _ => rfl
  | some p =>
  dsimp only
  split
  · exact fun _ _ => rfl
  cases (ctx.ents p).children with
  | none => exact fun _ _ => rfl
  | some siblings =>
  refine (Yields.any _).bind ?_
  rintro ⟨found1, lctx, entry⟩ -
  cases entry with
  | none => exact fun _ _ => rfl
  | some e1 =>
  dsimp only
  split
  · exact fun _ _ => rfl
  refine (Yields.any _).bind ?_
  rintro ⟨found2, lctx, entry⟩ -
  cases entry with
  | none => exact fun _ _ => rfl
  | some e2 =>
  dsimp only
  split
  · exact fun _ _ => rfl
  split
  · exact fun _ h => absurd h (by simp)
  refine (Yields.any _).bind fun idx1 _ => (Yields.any _).bind fun idx2 _ => ?_
  split <;> exact fun _ h => absurd h (by simp)

theorem bookmarkRename_error (oldParentId : ℕ) (oldName : CString) (newParentId : ℕ)
    (newName : CString) (noreplace : Bool) :
    Yields (fun _ => True)
    (bookmarkRename tb ctx env oldParentId oldName newParentId newName noreplace) fun r =>
      ∀ err, r.1 = .error err → r.2 = ctx := by
  rw [bookmarkRename]
  split
  · exact fun _ _ => rfl
  simp only [hload, ok_bind, renameEntry]
  cases status with
  | some err => exact fun _ _ => rfl
  | none =>
  refine (Yields.any _).bind fun oldParent _ => ?_
  cases oldParent with
  | none => exact fun _ _ => rfl
  | some p =>
  dsimp only
  split
  · exact fun _ _ => rfl
  split
  · exact fun _ _ => rfl
  refine (Yields.any _).bind ?_
  rintro ⟨oldFound, lctx, entry⟩ -
  cases entry with
  | none => exact fun _ _ => rfl
  | some x =>
  dsimp only
  split
  · exact fun _ _ => rfl
  refine (Yields.any _).bind fun newParent _ => ?_
  cases newParent with
  | none => exact fun _ _ => rfl
  | some q =>
  dsimp only
  split
  · exact fun _ _ => rfl
  split
  · exact fun _ _ => rfl
  refine (Yields.any _).bind ?_
  rintro ⟨newFound, newLctx, new⟩ -
  dsimp only
  split
  · exact fun _ _ => rfl
  refine (Yields.any _).bind fun updated _ => ?_
  cases updated with
  | none => exact fun _ _ => rfl
  | some updated =>
  -- what is left either succeeds or ends in a fault
  refine (Yields.any _).bind fun moved _ => (Yields.any _).bind fun ctx₁ _ =>
    (Yields.any _).bind fun ctx₂ _ => ?_
  exact fun _ h => absurd h (by simp)

omit hload in
theorem setPrepare_reply (id : ℕ) (e : EntryRef) (key : Key) (val : Bytes) :
    Yields (fun _ => True) (setPrepare tb ctx id e key val) fun r => ∀ reply, r.1 = some reply →
    r.2 = ctx := by
  rw [setPrepare.eq_def]
  split
  · split
    · exact fun _ _ => rfl
    · split
      · exact fun _ _ => rfl
      · exact fun _ h => absurd h (by simp)
  · cases parseGuid val with
    | none => exact fun _ _ => rfl
    | some guid =>
      refine (Yields.any _).bind fun found _ => ?_
      cases found with
      | some found => exact fun _ _ => rfl
      | none => exact (Yields.any _).bind fun ctx₁ _ => fun _ h => absurd h (by simp)
  · split
    · exact fun _ _ => rfl
    · split
      · exact fun _ _ => rfl
      · exact fun _ h => absurd h (by simp)
  · exact fun _ h => absurd h (by simp)

theorem bookmarkSet_error (id : ℕ) (arg : SetArg) :
    Yields (fun _ => True) (bookmarkSet tb ctx env id arg) fun r => ∀ err, r.1 = .error err →
    r.2 = ctx := by
  rw [bookmarkSet]
  split
  · exact fun _ _ => rfl
  simp only [hload, ok_bind, setValue, setTimes]
  cases status with
  | some err => exact fun _ _ => rfl
  | none =>
  refine (Yields.any _).bind fun r _ => ?_
  cases r with
  | none => exact fun _ _ => rfl
  | some e =>
  dsimp only
  split
  · exact fun _ _ => rfl
  split
  · exact fun _ _ => rfl
  cases arg with
  | times atime mtime =>
    dsimp only
    split
    · exact fun _ _ => rfl
    · exact fun _ h => absurd h (by simp)
  | value xattr val =>
    dsimp only
    split
    swap
    · exact fun _ _ => rfl
    split
    · exact fun _ _ => rfl
    refine (setPrepare_reply id e _ val).bind fun r hr => ?_
    split
    next reply heq => exact fun _ _ => hr reply heq
    · exact fun _ h => absurd h (by simp)

theorem bookmarkCheckApply_error (parentId id : ℕ) (name : CString) :
    Yields (fun _ => True) (bookmarkCheckApply tb ctx env parentId id name) fun r =>
      r.1 ≠ .ok none → r.2 = ctx := by
  rw [bookmarkCheckApply]
  cases status with
  | some err =>
    rw [checkDir, hload]
    split <;> exact fun _ => rfl
  | none =>
  refine (checkDir_kept hload parentId).bind ?_
  rintro ⟨dir, ctx₁⟩ hctx
  obtain rfl : ctx₁ = ctx := hctx
  cases dir with
  | error err => exact fun _ => rfl
  | ok children =>
  dsimp only
  rw [fsckApply]
  refine (Yields.any _).bind fun found _ => ?_
  cases found with
  | none => exact fun _ => rfl
  | some e =>
  dsimp only
  split
  · exact fun _ => rfl
  split
  · exact fun _ => rfl
  split
  · exact fun _ => rfl
  refine (Yields.any _).bind fun found _ => ?_
  split
  · exact fun _ => rfl
  split
  · exact (Yields.any _).bind fun assocMap _ => fun h => absurd rfl h
  · exact fun _ => rfl

omit hload in
theorem buildNode_error {json : Json} {node : NodeRef}
    (hnode : ctx.json.nextNode ≤ node) (name : Bytes) (isDir : Bool)
    (hhead : ctx.json.Extends (buildNodeHead json node isDir env.now)) :
    Yields (fun _ => True) (buildNode tb { ctx with json := json } env node name isDir) fun r =>
      ∀ err, r.1 = .error err → ctx.Untouched r.2 := by
  rw [buildNode]
  dsimp only
  split
  · exact fun _ _ => ⟨hhead, le_rfl, rfl⟩
  cases jsonStringn name with
  | none => exact fun _ _ => ⟨hhead.set hnode _ _, Nat.le_succ _, rfl⟩
  | some nameNode =>
    dsimp only
    split
    · exact fun _ h => absurd h (by simp)
    · exact (Yields.any _).bind fun _ _ _ h => absurd h (by simp)

theorem bookmarkCreate_error (parentId : ℕ) (name : CString) (isDir : Bool) :
    Yields (fun _ => True) (bookmarkCreate tb ctx env parentId name isDir) fun r =>
      ∀ err, r.1 = .error err → ctx.Untouched r.2 := by
  rw [bookmarkCreate]
  split
  · exact fun _ _ => .refl ctx
  simp only [hload, ok_bind]
  cases status with
  | some err => exact fun _ _ => .refl ctx
  | none =>
  refine (Yields.any _).bind fun parent _ => ?_
  cases parent with
  | none => exact fun _ _ => .refl ctx
  | some p =>
  dsimp only
  split
  · exact fun _ _ => .refl ctx
  cases (ctx.ents p).children with
  | none => exact fun _ _ => .refl ctx
  | some siblings =>
  refine (Yields.any _).bind ?_
  rintro ⟨found, lctx, entry⟩ -
  dsimp only
  split
  · -- the entry is there, and is looked at for the stat buffer only
    cases entry with
    | none => exact fun _ _ => .refl ctx
    | some e =>
    dsimp only
    cases parseId ctx.json (ctx.ents e).node with
    | none => exact fun _ _ => .refl ctx
    | some id =>
      dsimp only
      split <;> exact fun _ _ => .refl ctx
  split
  · exact fun _ _ => .refl ctx
  refine (buildNode_error le_rfl name isDir (buildNodeHead_extends _ isDir _)).bind ?_
  rintro ⟨built, ctx₁⟩ hbuilt
  cases built with
  | error err => exact fun _ _ => hbuilt err rfl
  | ok bctx =>
    simp only [addNode]
    refine (Yields.any _).bind fun idMap _ => ?_
    split <;>
      exact (Yields.any _).bind fun assocMap _ => (Yields.any _).bind fun guidMap _ =>
        fun _ h => absurd h (by simp)

end Failures

section Calls

variable (tb)

/-- The call returns a negative value, or `fsck_apply()` reports through its callback, and leaves
`ctx'` behind. -/
def Call.Fails (ctx : Ctx w) (env : Env) (ctx' : Ctx w) : Call → Prop
  | .create parentId name isDir =>
    ∃ err, bookmarkCreate tb ctx env parentId name isDir = .ok (.error err, ctx')
  | .delete parentId name deleteDir =>
    ∃ err, bookmarkDelete tb ctx env parentId name deleteDir = .ok (.error err, ctx')
  | .permute parentId op name1 name2 =>
    ∃ err, bookmarkPermute tb ctx env parentId op name1 name2 = .ok (.error err, ctx')
  | .rename oldParentId oldName newParentId newName noreplace =>
    ∃ err, bookmarkRename tb ctx env oldParentId oldName newParentId newName noreplace =
      .ok (.error err, ctx')
  | .set id arg => ∃ err, bookmarkSet tb ctx env id arg = .ok (.error err, ctx')
  | .checkApply parentId id name =>
    (∃ err, bookmarkCheckApply tb ctx env parentId id name = .ok (.error err, ctx')) ∨
      ∃ report, bookmarkCheckApply tb ctx env parentId id name = .ok (.ok (some report), ctx')
  | .lookup .. | .get .. | .list .. | .checkNext .. => False

end Calls

/-- A call that fails without having to load the store again changes nothing in it. -/
theorem failed_call_untouched {status : Option Errno}
    (hload : storeLoad tb ctx env = .ok (status, ctx)) {call : Call}
    (hfail : call.Fails tb ctx env ctx') : ctx.Untouched ctx' := by
  cases call with
  | create parentId name isDir =>
    obtain ⟨err, hrun⟩ := hfail
    exact (bookmarkCreate_error hload parentId name isDir).of_ok hrun err rfl
  | delete parentId name deleteDir =>
    obtain ⟨err, hrun⟩ := hfail
    obtain rfl : ctx' = ctx :=
      (bookmarkDelete_error hload parentId name deleteDir).of_ok hrun err rfl
    exact .refl _
  | permute parentId op name1 name2 =>
    obtain ⟨err, hrun⟩ := hfail
    obtain rfl : ctx' = ctx :=
      (bookmarkPermute_error hload parentId op name1 name2).of_ok hrun err rfl
    exact .refl _
  | rename oldParentId oldName newParentId newName noreplace =>
    obtain ⟨err, hrun⟩ := hfail
    obtain rfl : ctx' = ctx :=
      (bookmarkRename_error hload oldParentId oldName newParentId newName noreplace).of_ok hrun err
        rfl
    exact .refl _
  | set id arg =>
    obtain ⟨err, hrun⟩ := hfail
    obtain rfl : ctx' = ctx := (bookmarkSet_error hload id arg).of_ok hrun err rfl
    exact .refl _
  | checkApply parentId id name =>
    obtain ⟨err, hrun⟩ | ⟨report, hrun⟩ := hfail
    · obtain rfl : ctx' = ctx := (bookmarkCheckApply_error hload parentId id name).of_ok hrun nofun
      exact .refl _
    · obtain rfl : ctx' = ctx := (bookmarkCheckApply_error hload parentId id name).of_ok hrun nofun
      exact .refl _
  | lookup | get | list | checkNext => exact hfail.elim

/-- A name that is not valid UTF-8 is found out after the identifier is used up. -/
theorem failed_create_uses_identifier : ∃ ctx ctx' : Ctx .w64, ctx.maxId = 5 ∧ ctx'.maxId = 6 ∧
    (Call.create 1 ⟨[0xff], by decide⟩ true).Fails polynomial ctx twoFolders ctx' ∧
      ctx.Untouched ctx' := by
  have h : Yields (fun _ => False)
      ((Call.lookup rootId none).run polynomial (.created ⟨false, false, false⟩)
        twoFolders) fun ctx =>
        ctx.watching = true ∧ ctx.loaded = true ∧ ctx.maxId = 5 ∧ Yields (fun _ => False)
          (bookmarkCreate polynomial ctx twoFolders 1 ⟨[0xff], by decide⟩ true)
            fun r => r.1.isOk = false ∧ r.2.maxId = 6 := by
    decide +kernel
  obtain ⟨ctx, -, hwatching, hloaded, hmax, h⟩ := h.exists_ok
  obtain ⟨⟨reply, ctx'⟩, hrun, hreply, hmax'⟩ := h.exists_ok
  cases reply with
  | ok _ => cases hreply
  | error err =>
    have hfail : (Call.create 1 ⟨[0xff], by decide⟩ true).Fails polynomial ctx twoFolders ctx' :=
      ⟨err, hrun⟩
    exact ⟨ctx, ctx', hmax, hmax', hfail,
      failed_call_untouched (storeLoad_loaded hwatching hloaded rfl) hfail⟩

end BookmarkFS.Chromium
