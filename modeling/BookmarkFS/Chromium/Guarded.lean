import BookmarkFS.Chromium.Calls

/-! # The calls on tables that assert what they are asked to do

Where the tables of hashmap.c and those that check their contract are both
asked for the same, a result of the latter is a result of the former; so it is
for every call of the backend. In the states that legal calls reach the
assertions hold.
-/
namespace BookmarkFS.Chromium
open Library Hopscotch

variable {w : WordSize} (digest : Bytes → Word w)

theorem insert_guards (entryHash : EntryRef → Word w) (map : Hashmap w EntryRef) (hash : Word w)
    (e : EntryRef) :
    Guards ((Tables.checked digest).insert entryHash map hash e)
    ((Tables.real digest).insert entryHash map hash e) := by
  refine ⟨fun map' h => ?_⟩
  change checkedInsert entryHash map hash e = _ at h
  rw [checkedInsert] at h
  split_ifs at h
  exact h

theorem remove_guards (entryHash : EntryRef → Word w) (map : Hashmap w EntryRef)
    (e : EntryRef) (id : ℤ) :
    Guards ((Tables.checked digest).remove entryHash map e id)
    ((Tables.real digest).remove entryHash map e id) := by
  refine ⟨fun map' h => ?_⟩
  change checkedRemove entryHash map e id = _ at h
  rw [checkedRemove] at h
  split_ifs at h
  exact h

theorem mapsIterName_guards (ctx : Ctx w) (parent e : EntryRef) (name : Bytes) :
    Guards (mapsIterName (.checked digest) ctx parent e name)
      (mapsIterName (.real digest) ctx parent e name) := by
  simp only [mapsIterName]
  split_ifs
  · exact .refl _
  · exact .refl _
  · exact .refl _
  · refine .bind (.refl _) fun found => ?_
    cases found with
    | some _ => exact .refl _
    | none => exact .bind (insert_guards digest ..) fun _ => .refl _

theorem mapsIterCb_guards (ctx : Ctx w) (node : NodeRef) (children : Option Value)
    (parent : EntryRef) :
    Guards (mapsIterCb (.checked digest) ctx node children parent)
      (mapsIterCb (.real digest) ctx node children parent) := by
  simp only [mapsIterCb]
  cases parseId ctx.json node with
  | none => exact .refl _
  | some id =>
    refine .bind (.refl _) fun found => ?_
    cases found with
    | some _ => exact .refl _
    | none =>
      cases parseGuid ((jsonStringValue (ctx.json.get node .guid)).getD []) with
      | none => exact .refl _
      | some guid =>
        refine .bind (.refl _) fun found => ?_
        cases found with
        | some _ => exact .refl _
        | none =>
          cases jsonStringValue (ctx.json.get node .name) with
          | none => exact .refl _
          | some name =>
            refine .bind (insert_guards digest ..) fun _ => .bind (insert_guards digest ..) fun _ =>
              ?_
            exact .bind (mapsIterName_guards digest ..) fun _ => .refl _

theorem iterList_guards {visit visit' : Ctx w → NodeRef → EntryRef → Except Fault (Option (Ctx w))}
    (h : ∀ ctx node parent, Guards (visit ctx node parent) (visit' ctx node parent))
    (nodes : List NodeRef) (ctx : Ctx w) (parent : EntryRef) :
    Guards (iterList visit ctx nodes parent) (iterList visit' ctx nodes parent) := by
  induction nodes generalizing ctx with
  | nil => exact .refl _
  | cons node nodes ih =>
    refine .bind (h ctx node parent) fun r => ?_
    cases r with
    | none => exact .refl _
    | some ctx => exact ih ctx

theorem iterNode_guards (depth : ℕ) (ctx : Ctx w) (node : NodeRef) (parent : EntryRef) :
    Guards (iterNode (.checked digest) depth ctx node parent)
      (iterNode (.real digest) depth ctx node parent) := by
  induction depth generalizing ctx node parent with
  | zero =>
    simp only [iterNode]
    refine .bind (mapsIterCb_guards digest ..) fun r => ?_
    cases r with
    | none => exact .refl _
    | some r => cases ctx.json.get node .children <;> exact .refl _
  | succ depth ih =>
    simp only [iterNode]
    refine .bind (mapsIterCb_guards digest ..) fun r => ?_
    cases r with
    | none => exact .refl _
    | some r =>
      cases ctx.json.get node .children with
      | none => exact .refl _
      | some children => exact iterList_guards ih _ _ _

theorem buildMaps_guards (ctx : Ctx w) (json : Json) (roots : List NodeRef) :
    Guards (buildMaps (.checked digest) ctx json roots)
    (buildMaps (.real digest) ctx json roots) := by
  simp only [buildMaps]
  refine .bind (insert_guards digest ..) fun _ => .bind (insert_guards digest ..) fun _ => ?_
  simp only [iterRoots]
  split_ifs
  · exact .refl _
  · exact iterList_guards (iterNode_guards digest _) _ _ _

theorem doLoad_guards (ctx : Ctx w) (file : Option Document) :
    Guards (doLoad (.checked digest) ctx file) (doLoad (.real digest) ctx file) := by
  simp only [doLoad]
  cases file with
  | none => exact .refl _
  | some doc =>
    dsimp only
    by_cases hsum : doc.checksum = false
    · rw [if_pos hsum, if_pos hsum]; exact .refl _
    rw [if_neg hsum, if_neg hsum]
    by_cases hversion : doc.version ≠ 1
    · rw [if_pos hversion, if_pos hversion]; exact .refl _
    rw [if_neg hversion, if_neg hversion]
    cases doc.roots with
    | none => exact .refl _
    | some roots => exact .bind (buildMaps_guards digest ..) fun _ => .refl _

theorem storeLoad_guards (ctx : Ctx w) (env : Env) :
    Guards (storeLoad (.checked digest) ctx env) (storeLoad (.real digest) ctx env) := by
  unfold storeLoad
  by_cases hwatching : ctx.watching = false
  · rw [if_pos hwatching, if_pos hwatching]
    split_ifs
    · exact .refl _
    · exact doLoad_guards digest ..
  rw [if_neg hwatching, if_neg hwatching]
  by_cases hdirty : ctx.dirty ≠ .none
  · rw [if_pos hdirty, if_pos hdirty]; exact .refl _
  · rw [if_neg hdirty, if_neg hdirty]
    cases env.poll with
    | unchanged =>
      dsimp only
      split_ifs
      · exact .refl _
      · exact doLoad_guards digest ..
    | changed => exact doLoad_guards digest ..
    | noEntry => exact .refl _
    | failed => exact .refl _

theorem guards_storeLoad_bind {β : Type} {ctx : Ctx w} {env : Env}
    {f g : Option Errno × Ctx w → Except Fault β}
    (herr : ∀ err ctx₁, f (some err, ctx₁) = g (some err, ctx₁))
    (h : ∀ ctx₁, Guards (f (none, ctx₁)) (g (none, ctx₁))) :
    Guards (storeLoad (.checked digest) ctx env >>= f)
    (storeLoad (.real digest) ctx env >>= g) := by
  refine .bind (storeLoad_guards digest ctx env) fun r => ?_
  obtain ⟨status, ctx₁⟩ := r
  cases status with
  | some err => exact (herr err ctx₁).symm ▸ .refl _
  | none => exact h ctx₁

theorem addNode_guards (ctx : Ctx w) (now : Timespec) (parentId : ℕ) (parent : EntryRef)
    (siblings : Value) (node : NodeRef) (name : CString) (isDir : Bool) (lctx : LookupCtx w)
    (bctx : BuildCtx w) :
    Guards (addNode (.checked digest) ctx now parentId parent siblings node name isDir lctx bctx)
      (addNode (.real digest) ctx now parentId parent siblings node name isDir lctx bctx) := by
  unfold addNode
  refine .bind (insert_guards digest ..) fun _ => ?_
  by_cases hmode : ctx.flags.filenameGuid = true
  · simp only [if_pos hmode]
    exact .bind (.refl _) fun _ => .bind (insert_guards digest ..) fun _ => .refl _
  · simp only [if_neg hmode]
    exact .bind (insert_guards digest ..) fun _ => .bind (insert_guards digest ..) fun _ => .refl _

theorem dropEntry_guards (ctx : Ctx w) (e : EntryRef) (entryId : Word w) :
    Guards (dropEntry (.checked digest) ctx e entryId)
    (dropEntry (.real digest) ctx e entryId) := by
  have hrest : ∀ assocMap : Hashmap w EntryRef, ∀ id, Guards
      (do
        let guidMap ← (Tables.checked digest).remove (guidmapHash (.checked digest) ctx.ents)
          ctx.guidMap e id
        let idMap ← (Tables.checked digest).remove (idmapHash (.checked digest) ctx.ents)
          ctx.idMap e (-1)
        .ok { ctx with assocMap := assocMap, guidMap := guidMap, idMap := idMap })
      (do
        let guidMap ← (Tables.real digest).remove (guidmapHash (.real digest) ctx.ents)
          ctx.guidMap e id
        let idMap ← (Tables.real digest).remove (idmapHash (.real digest) ctx.ents) ctx.idMap e (-1)
        .ok { ctx with assocMap := assocMap, guidMap := guidMap, idMap := idMap }) :=
    fun assocMap id => .bind (remove_guards digest ..) fun _ => .bind (remove_guards digest ..)
      fun _ => .refl _
  unfold dropEntry
  split_ifs
  · exact hrest _ _
  · exact .bind (remove_guards digest ..) fun _ => hrest _ _

theorem updateGuid_guards (ctx : Ctx w) (e : EntryRef) (oldEntryId : ℤ) (guid : Bytes)
    (hashcode : Word w) :
    Guards (updateGuid (.checked digest) ctx e oldEntryId guid hashcode)
      (updateGuid (.real digest) ctx e oldEntryId guid hashcode) :=
  .bind (remove_guards digest ..) fun _ => .bind (insert_guards digest ..) fun _ => .refl _

theorem refileRenamed_guards (ctx : Ctx w) (old : EntryRef) (oldLctx newLctx : LookupCtx w) :
    Guards (refileRenamed (.checked digest) ctx old oldLctx newLctx)
      (refileRenamed (.real digest) ctx old oldLctx newLctx) := by
  simp only [refileRenamed]
  split_ifs
  · exact updateGuid_guards digest ..
  · exact .bind (remove_guards digest ..) fun _ => .bind (insert_guards digest ..) fun _ => .refl _

theorem renameEntry_guards (ctx : Ctx w) (now : Timespec) (old oldParent newParent : EntryRef)
    (new : Option EntryRef) (oldName newName : CString) (oldLctx newLctx : LookupCtx w) :
    Guards (renameEntry (.checked digest) ctx now old oldParent newParent new oldName newName
        oldLctx newLctx)
      (renameEntry (.real digest) ctx now old oldParent newParent new oldName newName
        oldLctx newLctx) := by
  simp only [renameEntry]
  refine .bind (.refl _) fun r => ?_
  cases r with
  | none => exact .refl _
  | some r =>
    refine .bind (.refl _) fun r => .bind ?_ fun ctx => .bind (refileRenamed_guards digest ..)
      fun _ => .refl _
    cases new with
    | none => exact .refl _
    | some new => exact dropEntry_guards digest ..

theorem setPrepare_guards (ctx : Ctx w) (id : ℕ) (e : EntryRef) (key : Key) (val : Bytes) :
    Guards (setPrepare (.checked digest) ctx id e key val)
      (setPrepare (.real digest) ctx id e key val) := by
  cases key with
  | guid =>
    simp only [setPrepare]
    cases parseGuid val with
    | none => exact .refl _
    | some guid =>
      refine .bind (.refl _) fun found => ?_
      cases found with
      | some _ => exact .refl _
      | none => exact .bind (updateGuid_guards digest ..) fun _ => .refl _
  | _ => exact .refl _

theorem setValue_guards (ctx : Ctx w) (now : Timespec) (id : ℕ) (e : EntryRef)
    (xattr : Option XattrName) (val : Bytes) :
    Guards (setValue (.checked digest) ctx now id e xattr val)
      (setValue (.real digest) ctx now id e xattr val) := by
  simp only [setValue]
  cases xattrKey xattr ctx.flags with
  | none => exact .refl _
  | some key =>
    dsimp only
    split_ifs <;> first | exact .refl _ | exact .bind (setPrepare_guards digest ..) fun _ => .refl _

theorem fsckApply_guards (ctx : Ctx w) (parentId id : ℕ) (name : CString) :
    Guards (fsckApply (.checked digest) ctx parentId id name)
      (fsckApply (.real digest) ctx parentId id name) := by
  simp only [fsckApply]
  refine .bind (.refl _) fun r => ?_
  cases r with
  | none => exact .refl _
  | some e =>
    dsimp only
    split_ifs
    · exact .refl _
    · exact .refl _
    · cases validateFilenameFsck (name.val.take (nameMax + 1)) with
      | some _ => exact .refl _
      | none =>
        refine .bind (.refl _) fun found => ?_
        cases found with
        | some _ => exact .refl _
        | none =>
          cases jsonStringn (name.val.take (nameMax + 1)) with
          | none => exact .refl _
          | some _ => exact .bind (insert_guards digest ..) fun _ => .refl _

theorem checkDir_guards (ctx : Ctx w) (env : Env) (parentId : ℕ) :
    Guards (checkDir (.checked digest) ctx env parentId)
    (checkDir (.real digest) ctx env parentId) := by
  unfold checkDir
  split_ifs
  · exact .refl _
  · exact guards_storeLoad_bind digest (fun _ _ => rfl) fun _ => .refl _

theorem bookmarkCreate_guards (ctx : Ctx w) (env : Env) (parentId : ℕ) (name : CString)
    (isDir : Bool) :
    Guards (bookmarkCreate (.checked digest) ctx env parentId name isDir)
      (bookmarkCreate (.real digest) ctx env parentId name isDir) := by
  unfold bookmarkCreate
  by_cases hroot : parentId = rootId
  · rw [if_pos hroot, if_pos hroot]; exact .refl _
  rw [if_neg hroot, if_neg hroot]
  refine guards_storeLoad_bind digest (fun _ _ => rfl) fun ctx₁ => .bind (.refl _) fun parent => ?_
  cases parent with
  | none => exact .refl _
  | some parent =>
    dsimp only
    by_cases hname : (ctx₁.ents parent).name = none
    · rw [if_pos hname, if_pos hname]; exact .refl _
    rw [if_neg hname, if_neg hname]
    cases (ctx₁.ents parent).children with
    | none => exact .refl _
    | some siblings =>
      refine .bind (.refl _) fun found => ?_
      by_cases hfound : found.1 = true
      · simp only [if_pos hfound]; exact .refl _
      simp only [if_neg hfound]
      by_cases hsome : found.2.2.isSome = true
      · simp only [if_pos hsome]; exact .refl _
      simp only [if_neg hsome]
      refine .bind (.refl _) fun built => ?_
      cases built.1 with
      | error _ => exact .refl _
      | ok _ => exact addNode_guards digest ..

theorem bookmarkDelete_guards (ctx : Ctx w) (env : Env) (parentId : ℕ) (name : CString)
    (deleteDir : Bool) :
    Guards (bookmarkDelete (.checked digest) ctx env parentId name deleteDir)
      (bookmarkDelete (.real digest) ctx env parentId name deleteDir) := by
  unfold bookmarkDelete
  by_cases hroot : parentId = rootId
  · rw [if_pos hroot, if_pos hroot]; exact .refl _
  rw [if_neg hroot, if_neg hroot]
  refine guards_storeLoad_bind digest (fun _ _ => rfl) fun ctx₁ => .bind (.refl _) fun parent => ?_
  cases parent with
  | none => exact .refl _
  | some parent =>
    dsimp only
    by_cases hname : (ctx₁.ents parent).name = none
    · rw [if_pos hname, if_pos hname]; exact .refl _
    rw [if_neg hname, if_neg hname]
    cases (ctx₁.ents parent).children with
    | none => exact .refl _
    | some siblings =>
      refine .bind (.refl _) fun found => ?_
      obtain ⟨found, lctx, entry⟩ := found
      cases entry with
      | none => exact .refl _
      | some e =>
        dsimp only
        by_cases hfound : found = false
        · rw [if_pos hfound, if_pos hfound]; exact .refl _
        rw [if_neg hfound, if_neg hfound]
        cases checkDeleted ctx₁ deleteDir e with
        | some _ => exact .refl _
        | none =>
          exact .bind (.refl _) fun _ => .bind (dropEntry_guards digest ..) fun _ => .refl _

theorem bookmarkRename_guards (ctx : Ctx w) (env : Env) (oldParentId : ℕ) (oldName : CString)
    (newParentId : ℕ) (newName : CString) (noreplace : Bool) :
    Guards (bookmarkRename (.checked digest) ctx env oldParentId oldName newParentId
      newName noreplace)
      (bookmarkRename (.real digest) ctx env oldParentId oldName newParentId newName
        noreplace) := by
  unfold bookmarkRename
  by_cases hroot : oldParentId = rootId ∨ newParentId = rootId
  · rw [if_pos hroot, if_pos hroot]; exact .refl _
  rw [if_neg hroot, if_neg hroot]
  refine guards_storeLoad_bind digest (fun _ _ => rfl) fun ctx₁ => .bind (.refl _) fun oldParent =>
    ?_
  cases oldParent with
  | none => exact .refl _
  | some oldParent =>
    dsimp only
    by_cases hname : (ctx₁.ents oldParent).name = none
    · rw [if_pos hname, if_pos hname]; exact .refl _
    rw [if_neg hname, if_neg hname]
    by_cases hdir : (ctx₁.ents oldParent).children = none
    · rw [if_pos hdir, if_pos hdir]; exact .refl _
    rw [if_neg hdir, if_neg hdir]
    refine .bind (.refl _) fun found => ?_
    obtain ⟨found, lctx, entry⟩ := found
    cases entry with
    | none => exact .refl _
    | some old =>
      dsimp only
      by_cases hfound : found = false
      · rw [if_pos hfound, if_pos hfound]; exact .refl _
      rw [if_neg hfound, if_neg hfound]
      refine .bind (.refl _) fun newParent => ?_
      cases newParent with
      | none => exact .refl _
      | some newParent =>
        dsimp only
        by_cases hname : (ctx₁.ents newParent).name = none
        · rw [if_pos hname, if_pos hname]; exact .refl _
        rw [if_neg hname, if_neg hname]
        by_cases hdir : (ctx₁.ents newParent).children = none
        · rw [if_pos hdir, if_pos hdir]; exact .refl _
        rw [if_neg hdir, if_neg hdir]
        refine .bind (.refl _) fun found => ?_
        cases checkReplaced ctx₁ noreplace found.1 old found.2.2 with
        | some _ => exact .refl _
        | none => exact renameEntry_guards digest ..

theorem bookmarkSet_guards (ctx : Ctx w) (env : Env) (id : ℕ) (arg : SetArg) :
    Guards (bookmarkSet (.checked digest) ctx env id arg)
      (bookmarkSet (.real digest) ctx env id arg) := by
  unfold bookmarkSet
  by_cases hroot : id = rootId
  · rw [if_pos hroot, if_pos hroot]; exact .refl _
  rw [if_neg hroot, if_neg hroot]
  refine guards_storeLoad_bind digest (fun _ _ => rfl) fun ctx₁ => .bind (.refl _) fun e => ?_
  cases e with
  | none => exact .refl _
  | some e =>
    dsimp only
    by_cases hname : (ctx₁.ents e).name = none
    · rw [if_pos hname, if_pos hname]; exact .refl _
    rw [if_neg hname, if_neg hname]
    by_cases htop : (ctx₁.ents e).parentId = rootId
    · rw [if_pos htop, if_pos htop]; exact .refl _
    rw [if_neg htop, if_neg htop]
    cases arg with
    | times _ _ => exact .refl _
    | value xattr val => exact setValue_guards digest ..

theorem listChildren_checked (ctx : Ctx w) (withStat : Bool) (callback : ListCallback)
    (nodes : List NodeRef) (idx : ℕ) (accepted : List Dirent) :
    listChildren (.checked digest) ctx withStat callback nodes idx accepted =
      listChildren (.real digest) ctx withStat callback nodes idx accepted := by
  induction nodes generalizing idx accepted with
  | nil => rfl
  | cons node nodes ih => simp only [listChildren, ih]; rfl

theorem fsckNext_checked (ctx : Ctx w) (parentId : ℕ) (callback : FsckReport → ℤ)
    (nodes : List NodeRef) (idx : ℕ) :
    fsckNext (.checked digest) ctx parentId callback nodes idx =
      fsckNext (.real digest) ctx parentId callback nodes idx := by
  induction nodes generalizing idx with
  | nil => rfl
  | cons node nodes ih => simp only [fsckNext, ih]; rfl

/-- A call on the tables of hashmap.c ends as it does on the tables that assert what they are asked
to do, if the assertions hold. -/
theorem Call.run_guards (ctx : Ctx w) (env : Env) (call : Call) :
    Guards (call.run (.checked digest) ctx env) (call.run (.real digest) ctx env) := by
  cases call with
  | create parentId name isDir => exact .map (bookmarkCreate_guards digest ..)
  | delete parentId name deleteDir => exact .map (bookmarkDelete_guards digest ..)
  | permute parentId op name1 name2 =>
    refine .map ?_
    unfold bookmarkPermute
    split_ifs
    · exact .refl _
    · exact .bind (storeLoad_guards digest ..) fun _ => .refl _
  | rename oldParentId oldName newParentId newName noreplace =>
    exact .map (bookmarkRename_guards digest ..)
  | set id arg => exact .map (bookmarkSet_guards digest ..)
  | lookup id name => exact .map (.bind (storeLoad_guards digest ..) fun _ => .refl _)
  | get id xattr => exact .map (.bind (storeLoad_guards digest ..) fun _ => .refl _)
  | list id off withStat callback cookie =>
    simp only [run, bookmarkList, listChildren_checked]
    exact .map (.bind (storeLoad_guards digest ..) fun _ => .refl _)
  | checkNext parentId callback idx =>
    simp only [run, bookmarkCheckNext, fsckNext_checked]
    exact .map (.bind (checkDir_guards digest ..) fun _ => .refl _)
  | checkApply parentId id name =>
    refine .map (.bind (checkDir_guards digest ..) fun r => ?_)
    obtain ⟨dir, ctx₁⟩ := r
    cases dir with
    | error _ => exact .refl _
    | ok _ => exact fsckApply_guards digest ..

section Sound

variable {digest} {ctx : Ctx w} {env : Env} {call : Call} {S : Finset EntryRef}

theorem Inv.checked (I : Inv (.real digest) ctx S) : Inv (.checked digest) ctx S :=
  ⟨I.forest, ⟨I.indexed.id, I.indexed.guid, I.indexed.assoc, I.indexed.names⟩, I.entry_lt, I.max_id,
    I.guid_mode, I.roots, I.shown⟩

theorem Call.Legal.checked (h : call.Legal (.real digest) ctx env S) :
    call.Legal (.checked digest) ctx env S := by
  cases call <;> exact h

theorem legal_checked (h : (backend (.real digest)).legal ctx (env, call)) :
    (backend (.checked digest)).legal ctx (env, call) :=
  ⟨h.1, fun ctx₁ S hload hS => (h.2 ctx₁ S ((storeLoad_guards digest ctx env).of_ok _ hload)
    hS).checked⟩

/-- On tables that assert that each removal is of the entry that it is meant for, and that entries
are rehashed as they were filed, a call does what it does without these assertions, in every state
that legal calls reach: none of them fails. -/
theorem map_updates_sound (digest : Bytes → Word w)
    (hreach : (backend (Tables.real digest)).Reachable ctx)
    (hlegal : (backend (Tables.real digest)).legal ctx (env, call)) (hcall : call.Modifies) :
    Yields Fault.Abort (call.run (Tables.checked digest) ctx env) fun ctx' =>
      call.run (Tables.real digest) ctx env = .ok ctx' := by
  have C := hreach.holds (backend_consistent (Tables.real_faithful digest))
  have C' : ctx.Consistent (Tables.checked digest) :=
    ⟨fun h => (C.inv h).imp fun _ I => I.checked, C.dirty⟩
  have hrun := Call.run_modifies (Tables.checked_faithful digest) C' (legal_checked hlegal) hcall
  cases h : call.run (Tables.checked digest) ctx env with
  | error err => exact hrun.allowed_of_error h
  | ok ctx' => exact (Call.run_guards digest ctx env call).of_ok ctx' h

end Sound

/-- The assertions hold in the rename that replaces a bookmark in another directory. -/
theorem map_updates_sound_replaced : ∃ ctx ctx', (backend colliding).Reachable ctx ∧
    ctx'.json.array 0 = [3] ∧ Yields Fault.Abort
      ((Call.rename 1 nameA 2 nameA false).run (.checked fun _ => 0) ctx twoFolders)
      (· = ctx') := by
  obtain ⟨ctx, ctx', hreach, hlegal, hrun, -, harray, -⟩ := twoFolders_rename
  refine ⟨ctx, ctx', hreach, harray, (map_updates_sound (fun _ => 0) hreach hlegal trivial).mono ?_⟩
  exact fun ctx'' hrun' => Except.ok.inj (hrun'.symm.trans hrun)

/-- A folder with one bookmark, and one with six. -/
def nineNames : Env :=
  .written (.written ([writtenFolder 1 [65] 0, writtenFolder 2 [66] 1, writtenUrl 3 [97] []] ++
    (List.range 6).map fun i => writtenUrl (4 + i) [UInt8.ofNat (98 + i)] [])
    [[2], [3, 4, 5, 6, 7, 8]]) [0, 1]

/-- The removal of the bookmark replaced shrinks the association map, which leaves the identifier of
the bookmark renamed stale: it does not designate the bucket of that bookmark any more. -/
theorem stale_identifier : ∃ ctx : Ctx .w64,
    storeLoad polynomial (.created ⟨false, false, false⟩) nineNames = .ok (none, ctx) ∧
    bookmarkRename polynomial ctx nineNames 2 nameB 1 nameA false = .error .assertion := by
  have h : Yields (fun _ => False) (storeLoad polynomial (.created ⟨false, false, false⟩) nineNames)
      fun r => r.1 = none ∧ Yields (· = .assertion)
        (bookmarkRename polynomial r.2 nineNames 2 nameB 1 nameA false) fun _ => False := by
    decide +kernel
  obtain ⟨⟨_, ctx⟩, hload, rfl, h⟩ := h.exists_ok
  obtain ⟨_, hrun, rfl⟩ := h.exists_error
  exact ⟨ctx, hload, hrun⟩

end BookmarkFS.Chromium
