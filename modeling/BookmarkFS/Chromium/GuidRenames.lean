import BookmarkFS.Chromium.GuidNames

/-! # Renames of GUIDs

With GUIDs as filenames a rename is to give a file another GUID, and nothing but
that. The lookup of the new name finds the file itself where it keeps its GUID,
and takes it for another; where it does not, the node gets the new GUID as its
title.
-/
namespace BookmarkFS.Chromium
open Library Hopscotch

variable {w : WordSize} {tb : Tables w} {ctx : Ctx w} {env : Env} {S : Finset EntryRef}
  {old p q : EntryRef} {oldName newName : CString} {noreplace : Bool}

/-- A file goes by a GUID: it is looked up under it in its folder only and listed there only, the
title of its node is the one that is given, and the GUID of its node is the key. -/
structure Ctx.GoesBy (tb : Tables w) (ctx : Ctx w) (e p : EntryRef) (name : Bytes)
    (title : Option Value) : Prop where
  looked : ∀ parentId, ∃ lctx,
    lookupName tb ctx parentId name = .ok (decide ((ctx.ents p).id = parentId), lctx, some e)
  listed : ∀ f a, ctx.idMap.Contains f → (ctx.ents f).children = some (.array a) →
    ((ctx.ents e).node ∈ ctx.json.array a ↔ f = p)
  title : ctx.json.get (ctx.ents e).node .name = title
  keyed : ctx.Keyed e

/-- What is asked of a rename: it succeeds, the file goes by the new GUID in the new folder with
its old title, and so it does when the store has been saved and loaded. -/
structure Ctx.GuidRenamed (tb : Tables w) (utf16 : Bytes → Option Bytes)
    (md5 : Bytes → Bytes) (ctx : Ctx w)
    (old q : EntryRef) (newName : Bytes) (status : Option Errno) (ctx' : Ctx w) : Prop where
  made : status = none
  renamed : ctx'.GoesBy tb old q newName (ctx.json.get (ctx.ents old).node .name)
  reloaded : ∀ sum, (ctx'.dirty ≠ .data → chksumRoot utf16 md5 ctx'.json ctx'.roots = some sum) →
    ∀ s, storeSave utf16 md5 ⟨ctx', sum⟩ true = (true, s) → ∀ base : Ctx w,
      Yields Fault.Abort (doLoad tb base (some (s.file utf16 md5))) fun r => r.1 = none ∧
      ∃ e folder,
        (r.2.ents folder).id = (ctx'.ents q).id ∧
          r.2.GoesBy tb e folder newName (ctx.json.get (ctx.ents old).node .name)

namespace Ctx.GuidVisible

variable (G : ctx.GuidVisible tb S) (hload : storeLoad tb ctx env = .ok (none, ctx))
  (hold : old ∈ S)
  (holdroot : old ≠ rootEntry) (hp : p ∈ S) (hparent : (ctx.ents old).parentId = (ctx.ents p).id)
  (holdname : parseGuid oldName = some (ctx.ents old).guid) (hq : q ∈ S) {c : Value}
  (hqchildren : (ctx.ents q).children = some c)

include G hload hold holdroot hp hparent holdname hq hqchildren

/-- A move that keeps the GUID is refused. -/
theorem move_refused (hpq : q ≠ p) (hsame : parseGuid newName = some (ctx.ents old).guid) :
    bookmarkRename tb ctx env (ctx.ents p).id oldName (ctx.ents q).id newName noreplace =
    .ok (.error .perm, ctx) := by
  by_cases hid : (ctx.ents p).id = rootId ∨ (ctx.ents q).id = rootId
  · rw [bookmarkRename, if_pos hid]
    rfl
  rw [not_or] at hid
  have hproot : p ≠ rootEntry := fun h => hid.1 ((G.inv.id_eq_root hp).mpr h)
  have hqroot : q ≠ rootEntry := fun h => hid.2 ((G.inv.id_eq_root hq).mpr h)
  obtain ⟨id, hname⟩ := G.lookupName_taken (ctx.ents q).id hold hsame
  have helsewhere : (ctx.ents old).parentId ≠ (ctx.ents q).id := fun h =>
    hpq (G.inv.forest.id_inj q hq p hp (h.symm.trans hparent))
  rw [decide_eq_false helsewhere] at hname
  obtain ⟨oldLctx, hrun⟩ :=
    G.rename_eq hload hold holdroot hp hproot hparent holdname hq hqroot hqchildren
    noreplace hname
  exact hrun

/-- A new GUID is stored in the entry, where the node keeps the one it had. -/
theorem renamed_unkeyed {guid : Bytes} {r : Except Errno Unit × Ctx w}
    (hnew : parseGuid newName = some guid) (hfree : ∀ x ∈ S, (ctx.ents x).guid ≠ guid)
    (hrun : bookmarkRename tb ctx env (ctx.ents p).id oldName (ctx.ents q).id newName noreplace =
      .ok r)
    (hmade : errorOf r.1 = none) : (r.2.ents old).guid = guid ∧ ¬r.2.Keyed old := by
  by_cases hid : (ctx.ents p).id = rootId ∨ (ctx.ents q).id = rootId
  · rw [bookmarkRename, if_pos hid] at hrun
    cases hrun
    cases hmade
  rw [not_or] at hid
  have hproot : p ≠ rootEntry := fun h => hid.1 ((G.inv.id_eq_root hp).mpr h)
  have hqroot : q ≠ rootEntry := fun h => hid.2 ((G.inv.id_eq_root hq).mpr h)
  obtain ⟨oldLctx, heq⟩ :=
    G.rename_eq hload hold holdroot hp hproot hparent holdname hq hqroot hqchildren
    noreplace (G.lookupName_free (ctx.ents q).id hnew hfree)
  replace heq := heq.symm.trans hrun
  have hne : oldName ≠ newName := fun h => by
    rw [← h, holdname, Option.some_inj] at hnew
    exact hfree old hold hnew
  exact (renameEntry_unkeyed G.mode hne (G.keyed hold holdroot) (parseGuid_utf8 hnew)
    (fun h => hfree old hold h.symm) heq).2

end Ctx.GuidVisible

/-- A rename to a GUID that no other file has, where no file stands in its way, never does what is
asked of it. -/
theorem guid_not_renamed (utf16 : Bytes → Option Bytes) (md5 : Bytes → Bytes)
    (G : ctx.GuidVisible tb S) (hload : storeLoad tb ctx env = .ok (none, ctx)) (hold : old ∈ S)
    (holdroot : old ≠ rootEntry) (hp : p ∈ S) (hparent : (ctx.ents old).parentId = (ctx.ents p).id)
    (holdname : parseGuid oldName = some (ctx.ents old).guid) (hq : q ∈ S) {c : Value}
    (hqchildren : (ctx.ents q).children = some c) {guid : Bytes}
    (hnew : parseGuid newName = some guid)
    (hfree : ∀ x ∈ S, (ctx.ents x).guid = guid → x = old ∧ q ≠ p) {r : Except Errno Unit × Ctx w}
    (hrun : bookmarkRename tb ctx env (ctx.ents p).id oldName (ctx.ents q).id newName noreplace =
      .ok r) :
    ¬ctx.GuidRenamed tb utf16 md5 old q newName (errorOf r.1) r.2 := by
  intro h
  by_cases hsame : (ctx.ents old).guid = guid
  · subst hsame
    rw [G.move_refused hload hold holdroot hp hparent holdname hq hqchildren
      (hfree old hold rfl).2 hnew] at hrun
    cases hrun
    cases h.made
  · have hunused : ∀ x ∈ S, (ctx.ents x).guid ≠ guid := by
      intro x hx hguid
      obtain ⟨rfl, -⟩ := hfree x hx hguid
      exact hsame hguid
    exact (G.renamed_unkeyed hload hold holdroot hp hparent holdname hq hqchildren hnew hunused
      hrun h.made).2
      h.renamed.keyed

/-- A bookmark, its folder, and another one. -/
theorem twoFolders_move : ∃ (ctx : Ctx .w64) (S : Finset EntryRef) (p q : EntryRef),
    ctx.GuidVisible colliding S ∧
    storeLoad colliding ctx twoFolders = .ok (none, ctx) ∧
    (2 ∈ S ∧ p ∈ S ∧ (ctx.ents 2).parentId = (ctx.ents p).id ∧
      parseGuid guidThree = some (ctx.ents 2).guid) ∧
    (q ∈ S ∧ q ≠ p ∧ (ctx.ents p).id = 1 ∧ (ctx.ents q).id = 2 ∧
      ∃ c, (ctx.ents q).children = some c) := by
  obtain ⟨ctx, S, G, hload, ⟨h1, hid, -⟩, ⟨h2, hparent, hthree⟩, ⟨h5, hparent5, -⟩, -⟩ :=
    twoFolders_shown
  obtain ⟨q, hq, a, ha, hqid, -⟩ := G.inv.forest.folder h5 (by decide)
  replace ha : (ctx.ents q).children = some (.array a) := ha
  replace hqid : (ctx.ents q).id = 2 := hqid.trans hparent5
  refine ⟨ctx, S, 1, q, G, hload, ⟨h2, h1, hparent.trans hid.symm, hthree⟩, hq, ?_,
    hid, hqid, _, ha⟩
  rintro rfl
  rw [hid] at hqid
  cases hqid

/-- The bookmark is to keep its GUID in the other folder. -/
theorem guid_not_renamed_moved : ∃ (ctx : Ctx .w64) (S : Finset EntryRef) (q : EntryRef) (r : _),
    ctx.GuidVisible colliding S ∧ (ctx.ents q).id = 2 ∧
    bookmarkRename colliding ctx twoFolders 1 guidThree 2 guidThree false = .ok r ∧
    ¬ctx.GuidRenamed colliding some id 2 q guidThree (errorOf r.1) r.2 := by
  obtain ⟨ctx, S, p, q, G, hload, ⟨h2, hp, hparent, hthree⟩, hq, hqp, hpid, hqid, c, hc⟩ :=
    twoFolders_move
  have hrun : bookmarkRename colliding ctx twoFolders (ctx.ents p).id guidThree
    (ctx.ents q).id guidThree false =
      .ok (.error .perm, ctx) :=
      G.move_refused hload h2 (by decide) hp hparent hthree hq hc hqp hthree
  have h := guid_not_renamed some id G hload h2 (by decide) hp hparent hthree hq hc hthree
    (fun x hx hguid => ⟨G.guid_inj x hx 2 h2 hguid, hqp⟩) hrun
  rw [hpid, hqid] at hrun
  exact ⟨ctx, S, q, _, G, hqid, hrun, h⟩

/-- A bookmark cannot be moved to another folder, where its GUID is free; it gets a new GUID in its
own folder, but its node keeps the old one. -/
theorem guid_rename_lost : ∃ (ctx : Ctx .w64) (S : Finset EntryRef) (p q : EntryRef),
    ctx.GuidVisible colliding S ∧
    storeLoad colliding ctx twoFolders = .ok (none, ctx) ∧
    (2 ∈ S ∧ (ctx.ents 2).parentId = (ctx.ents p).id ∧
      parseGuid guidThree = some (ctx.ents 2).guid) ∧
    ((ctx.ents p).id = 1 ∧ (ctx.ents q).id = 2) ∧
    (∃ r, bookmarkRename colliding ctx twoFolders 1 guidThree 2 guidThree false = .ok r ∧
      errorOf r.1 = some .perm ∧
      ∀ utf16 md5, ¬ctx.GuidRenamed colliding utf16 md5 2 q guidThree (errorOf r.1) r.2) ∧
    ∃ ctx S, ctx.GuidVisible colliding S ∧ ∃ r,
      bookmarkRename colliding ctx twoFolders 1 guidThree 1 guidNine false = .ok r ∧
      errorOf r.1 = none ∧
      r.2.json.get (r.2.ents 2).node .guid = some (.string guidThree) ∧
      ∀ utf16 md5 p, ¬ctx.GuidRenamed colliding utf16 md5 2 p guidNine (errorOf r.1) r.2 := by
  obtain ⟨ctx, S, p, q, G, hload, ⟨h2, hp, hparent, hthree⟩, hq, hqp, hpid, hqid, c, hc⟩ :=
    twoFolders_move
  have hrun : bookmarkRename colliding ctx twoFolders (ctx.ents p).id guidThree
    (ctx.ents q).id guidThree false =
      .ok (.error .perm, ctx) :=
      G.move_refused hload h2 (by decide) hp hparent hthree hq hc hqp hthree
  rw [hpid, hqid] at hrun
  refine ⟨ctx, S, p, q, G, hload, ⟨h2, hparent, hthree⟩, ⟨hpid, hqid⟩,
    ⟨_, hrun, rfl, fun _ _ h => ?_⟩, ?_⟩
  · cases h.made
  · obtain ⟨ctx, S, G, -, -, ⟨-, -, hthree⟩, -, -, hrename⟩ := twoFolders_shown
    obtain ⟨r, hrename, hmade, hguid, hmember⟩ := hrename.exists_ok
    refine ⟨ctx, S, G, r, hrename, hmade, hmember, fun _ _ _ h => ?_⟩
    have hkeyed := h.renamed.keyed
    rw [Ctx.Keyed, hmember, jsonStringValue, Option.getD_some, hthree, Option.some_inj] at hkeyed
    exact hguid hkeyed.symm

end BookmarkFS.Chromium
