import BookmarkFS.Firefox.Guids
import BookmarkFS.Firefox.Permutation
import BookmarkFS.Firefox.Sharing

/-! # GUIDs as filenames

With `BACKEND_FILENAME_GUID`, the statements look at the column `guid` where they otherwise
look at `title`. What they find is what is found by title in the tables that have the GUIDs
in place of the titles, and so are the listings and the permutations of a directory. Names
are not checked then, and a scan is refused.
-/
namespace BookmarkFS.Firefox
open Library Hopscotch
open Chromium (Errno FsckReport nameMax validateFilename PermdOp reordered)

/-! ## The tables by GUID -/

def MozBookmark.byGuid (guid : ℤ → Option Bytes) (b : MozBookmark) : MozBookmark :=
  { b with title := guid b.id }

/-- The tables with the GUIDs in place of the titles -/
def Db.byGuid (db : Db) (guid : ℤ → Option Bytes) : Db :=
  { db with bookmarks := db.bookmarks.map (·.byGuid guid) }

section ByGuid

variable {db : Db} {guid : ℤ → Option Bytes} {parent : ℤ}

@[simp] theorem byGuid_id (b : MozBookmark) : (b.byGuid guid).id = b.id := rfl

@[simp] theorem byGuid_position (b : MozBookmark) : (b.byGuid guid).position = b.position := rfl

theorem byPosition_byGuid (rows : List MozBookmark) :
    byPosition (rows.map (·.byGuid guid)) = (byPosition rows).map (·.byGuid guid) :=
  (List.map_insertionSort (fun b c : MozBookmark => b.position ≤ c.position)
    (fun b c : MozBookmark => b.position ≤ c.position) (MozBookmark.byGuid guid) rows
    fun _ _ _ _ => Iff.rfl).symm

theorem byId_byGuid (rows : List MozBookmark) :
    byId (rows.map (·.byGuid guid)) = (byId rows).map (·.byGuid guid) :=
  (List.map_insertionSort (fun b c : MozBookmark => b.id ≤ c.id)
    (fun b c : MozBookmark => b.id ≤ c.id) (MozBookmark.byGuid guid) rows
    fun _ _ _ _ => Iff.rfl).symm

theorem children_byGuid : (db.byGuid guid).children parent =
    (db.children parent).map (·.byGuid guid) := by
  rw [Db.children, Db.byGuid, List.filter_map, byPosition_byGuid]
  rfl

theorem order_byGuid : (db.byGuid guid).order parent = db.order parent := by
  rw [Db.order, children_byGuid, List.map_map]
  rfl

theorem keysUnique_byGuid : (db.byGuid guid).KeysUnique ↔ db.KeysUnique := by
  rw [Db.KeysUnique, Db.KeysUnique, Db.byGuid, List.map_map]
  rfl

theorem positionsDistinct_byGuid :
    (db.byGuid guid).PositionsDistinct parent ↔ db.PositionsDistinct parent := by
  simp only [Db.PositionsDistinct, Db.byGuid, List.forall_mem_map]
  rfl

theorem updateBookmarks_byGuid {p : MozBookmark → Bool} {f : MozBookmark → MozBookmark}
    (hp : ∀ b, p (b.byGuid guid) = p b) (hf : ∀ b, f (b.byGuid guid) = (f b).byGuid guid) :
    updateBookmarks (db.byGuid guid) p f = (updateBookmarks db p f).byGuid guid := by
  rw [updateBookmarks, updateBookmarks, Db.byGuid, Db.byGuid, List.map_map, List.map_map]
  refine congrArg (fun rows => { db with bookmarks := rows }) (List.map_congr_left fun b _ => ?_)
  simp only [Function.comp_apply, hp, hf]
  split <;> rfl

end ByGuid

/-! ## Lookups -/

/-- `mozbm_lookup()` by GUID; `validate` is `validate_guid`. -/
def GuidDb.mozbmLookup (s : GuidDb) (parent : ℤ) (name : Bytes) (validate : Bool) :
    Except Errno MozBookmark :=
  if validate && !isValidGuid name then .error .perm
  else
    match s.lookupName true parent name with
    | none => .error .noent
    | some mb => .ok mb

section Lookup

variable {s : GuidDb} {ctx : Ctx} {parent id : ℤ} {name : Bytes}

theorem lookupName_byGuid : (s.db.byGuid s.guid).lookupTitle parent name =
    (s.lookupName true parent name).map (·.byGuid s.guid) := by
  rw [Db.lookupTitle, Db.byGuid, List.filter_map, byPosition_byGuid, List.head?_map]
  rfl

theorem mozbmLookup_byGuid : Firefox.mozbmLookup (s.db.byGuid s.guid) parent name =
    (s.mozbmLookup parent name false).map (·.byGuid s.guid) := by
  rw [Firefox.mozbmLookup, lookupName_byGuid, GuidDb.mozbmLookup, Bool.false_and,
    if_neg Bool.false_ne_true]
  cases s.lookupName true parent name <;> rfl

theorem find_byGuid : ((s.db.byGuid s.guid).bookmarks.find? fun b => bound id = some b.id) =
    (s.db.bookmarks.find? fun b => bound id = some b.id).map (·.byGuid s.guid) :=
  List.find?_map

theorem mozbmLookupId_byGuid : Firefox.mozbmLookupId (s.db.byGuid s.guid) id =
    (s.mozbmLookupId true id).map (·.byGuid s.guid) := by
  rw [Firefox.mozbmLookupId, GuidDb.mozbmLookupId, find_byGuid]
  cases s.db.bookmarks.find? fun b => bound id = some b.id with
  | none => rfl
  | some b =>
    simp only [Option.map_some, Option.bind_some, Db.byGuid, List.filter_map]
    rw [byId_byGuid, List.head?_map]
    have hfound : ∀ found : Option MozBookmark,
        (match found.map (·.byGuid s.guid) with
          | none => .error .stale
          | some b => .ok b : Except Errno MozBookmark) =
        Except.map (·.byGuid s.guid) (match found with
          | none => .error .stale
          | some b => .ok b) := by
      rintro (_ | b) <;> rfl
    exact hfound _

theorem lookupTagged_byGuid : (s.db.byGuid s.guid).lookupTagged parent name =
    (s.lookupTagged true parent name).map (·.byGuid s.guid) := by
  have htagged : ((s.db.byGuid s.guid).bookmarks.filter fun b => bound parent = some b.parent).map
      (·.fk) = (s.db.bookmarks.filter fun b => bound parent = some b.parent).map (·.fk) := by
    rw [Db.byGuid, List.filter_map, List.map_map]
    rfl
  rw [Db.lookupTagged, GuidDb.lookupTagged, htagged]
  simp only [Db.byGuid, List.filter_map]
  rw [byId_byGuid, List.head?_map, Option.filter_map]
  rfl

theorem lookupKeyword_byGuid : (s.db.byGuid s.guid).lookupKeyword name =
    (s.db.lookupKeyword name).map (·.byGuid s.guid) := by
  rw [Db.lookupKeyword, Db.lookupKeyword, Option.map_bind]
  refine congrArg (Option.bind _) (funext fun k => ?_)
  simp only [Db.byGuid, List.filter_map]
  rw [byId_byGuid, List.head?_map]
  rfl

theorem bookmarkDoLookup_byGuid (name : Option Bytes) (type : BookmarkType) :
    Firefox.bookmarkDoLookup (s.db.byGuid s.guid) ctx id name type =
      s.bookmarkDoLookup ctx true id name type false := by
  cases name with
  | none =>
    rw [GuidDb.bookmarkDoLookup, Firefox.bookmarkDoLookup, Firefox.bookmarkDoLookup, find_byGuid]
    cases s.db.bookmarks.find? fun b => bound id = some b.id <;> rfl
  | some name =>
    simp only [GuidDb.bookmarkDoLookup, Firefox.bookmarkDoLookup, lookupName_byGuid,
      lookupTagged_byGuid, lookupKeyword_byGuid, Bool.and_false, Bool.false_and,
      if_neg Bool.false_ne_true]
    have hfound : ∀ found : Option MozBookmark,
        (match found.map (·.byGuid s.guid) with
          | none => .error .noent
          | some b => bookmarkLookupCb (s.db.byGuid s.guid) (some ctx.tagsRootId) b) =
        (match found with
          | none => .error .noent
          | some b => bookmarkLookupCb s.db (some ctx.tagsRootId) b : Except Errno Stat) := by
      rintro (_ | b) <;> rfl
    cases type with
    | bookmark => exact hfound _
    | tag =>
      by_cases hroot : id = ctx.tagsRootId
      · simp only [if_pos hroot]
        exact hfound _
      · simp only [if_neg hroot]
        exact hfound _
    | keyword => exact hfound _

end Lookup

/-! ## Listings -/

/-- `BOOKMARK_COL_BY_FK_`: the GUID of the first row with the same place. -/
def GuidDb.guidByFk (s : GuidDb) (fk : Option ℤ) : Option Bytes :=
  ((byId (s.db.bookmarks.filter fun t => fk ≠ none ∧ t.fk = fk)).head?).bind fun t => s.guid t.id

/-- The rows that the statement of `bookmark_do_list()` yields. -/
def GuidDb.listRows (s : GuidDb) (ctx : Ctx) (id off : ℤ) (type : BookmarkType) (withStat : Bool) :
    List ListRow :=
  let rows := (s.db.children id).filter fun b => off ≤ b.position
  match type with
  | .bookmark => rows.map fun b => s.db.listRow withStat (s.guid b.id) b
  | .tag =>
    if id = ctx.tagsRootId then rows.map fun b => s.db.listRow withStat (s.guid b.id) b
    else rows.map fun b => s.db.listRow withStat (s.guidByFk b.fk) b
  | .keyword => s.db.keywordRows off withStat

/-- `bookmark_list()`, which does not check names. -/
def GuidDb.bookmarkList (s : GuidDb) (ctx : Ctx) (id off : ℤ) (type : BookmarkType)
    (withStat : Bool) (callback : Option ListCallback) (cookie : Option ListCookie) :
    (Option (Except Errno ℤ) × List Dirent) × ListCookie :=
  let dentryMap := cookie.bind (·.dentryMap)
  let idx := (cookie.map (·.idx)).getD 0
  match callback with
  | none => ((some (.ok 0), []), ⟨dentryMap, idx⟩)
  | some callback =>
    -- rewinddir()
    let dentryMap := if off = 0 then none else dentryMap
    let q := dbQuery (bookmarkListCb ctx false callback)
      (s.listRows ctx id off type withStat) ⟨dentryMap, none, []⟩
    ((q.status, q.accepted), ⟨q.dentryMap, idx⟩)

section List

variable {s : GuidDb} {ctx : Ctx} {id : ℤ} {type : BookmarkType}

theorem guidByFk_byGuid (fk : Option ℤ) : (s.db.byGuid s.guid).titleByFk fk = s.guidByFk fk := by
  rw [Db.titleByFk, Db.byGuid, List.filter_map, byId_byGuid, List.head?_map,
    Option.bind_map]
  rfl

theorem keywordRows_byGuid {off : ℤ} {withStat : Bool} :
    (s.db.byGuid s.guid).keywordRows off withStat = s.db.keywordRows off withStat := by
  simp only [Db.keywordRows]
  refine congrArg (fun f => List.filterMap f _) (funext fun k => ?_)
  simp only [Db.byGuid, List.filter_map]
  rw [byId_byGuid, List.head?_map, Option.map_map]
  rfl

theorem listRows_byGuid (off : ℤ) (withStat : Bool) :
    Firefox.listRows (s.db.byGuid s.guid) ctx id off type withStat =
      s.listRows ctx id off type withStat := by
  have hrows : ∀ name : MozBookmark → Option Bytes,
      (((s.db.byGuid s.guid).children id).filter fun b => off ≤ b.position).map
          (fun b => (s.db.byGuid s.guid).listRow withStat (name b) b) =
        ((s.db.children id).filter fun b => off ≤ b.position).map
          fun b => s.db.listRow withStat (name (b.byGuid s.guid)) b := fun name => by
    rw [children_byGuid, List.filter_map, List.map_map]
    rfl
  cases type with
  | bookmark => exact hrows fun b => b.title
  | tag =>
    simp only [Firefox.listRows, GuidDb.listRows]
    split
    · exact hrows fun b => b.title
    · rw [hrows fun b => (s.db.byGuid s.guid).titleByFk b.fk]
      simp only [guidByFk_byGuid]
      rfl
  | keyword => exact keywordRows_byGuid

/-- A listing by GUID is one by title of the tables by GUID, where titles are taken to be
distinct. -/
theorem bookmarkList_byGuid (off : ℤ) (withStat : Bool) (callback : Option ListCallback)
    (cookie : Option ListCookie) :
    s.bookmarkList ctx id off type withStat callback cookie =
      Firefox.bookmarkList (s.db.byGuid s.guid) { ctx with assumeTitleDistinct := true } id off type
        withStat callback cookie := by
  have hcheck : checkName { ctx with assumeTitleDistinct := true } type = false := Bool.and_false _
  cases callback with
  | none => rfl
  | some callback =>
    simp only [GuidDb.bookmarkList, Firefox.bookmarkList, hcheck, listRows_byGuid]
    rfl

end List

/-- `bookmark_check()` is refused before it looks at the cookie. -/
def GuidDb.bookmarkCheck (cookie : Option ListCookie) :
    (Except Errno ℤ × List FsckReport) × Option ListCookie :=
  ((.error .perm, []), cookie)

/-- The calls on a cookie -/
def GuidDb.dirCall (s : GuidDb) (ctx : Ctx) (id : ℤ) (type : BookmarkType) (d : DirState) :
    DirCall → DirReply × DirState
  | .list restart withStat callback =>
    let off := if restart then 0 else d.off
    let ((_, accepted), cookie) :=
      s.bookmarkList ctx id off type withStat (some callback) d.cookie
    (.listed accepted, ⟨some cookie, resume off accepted⟩)
  | .next _ | .rewind =>
    let ((_, reports), cookie) := GuidDb.bookmarkCheck d.cookie
    (.reported reports, ⟨cookie, d.off⟩)

/-- Listings and scans on one cookie do not disturb each other where filenames are GUIDs. -/
theorem GuidDb.undisturbed (s : GuidDb) (ctx : Ctx) (id : ℤ) (type : BookmarkType) :
    Undisturbed (fun d call => s.dirCall ctx id type d call) DirCall.isList .opened ∧
      Undisturbed (fun d call => s.dirCall ctx id type d call) DirCall.isCheck .opened := by
  have hlists : Library.Apart (fun d call => s.dirCall ctx id type d call) (fun _ => True)
      DirCall.isList fun d => d := by
    refine ⟨fun _ _ => trivial, fun _ _ _ hview => ?_, fun {d call} hother _ => ?_⟩
    · subst hview
      exact ⟨rfl, rfl⟩
    · cases call with
      | list => cases hother
      | next | rewind => rfl
  have hchecks : Library.Apart (fun d call => s.dirCall ctx id type d call) (fun _ => True)
      DirCall.isCheck fun _ => () := by
    refine ⟨fun _ _ => trivial, fun {d e call} hmine _ _ _ => ?_, fun _ _ => rfl⟩
    cases call with
    | list => cases hmine
    | next | rewind => exact ⟨rfl, rfl⟩
  exact ⟨hlists.undisturbed trivial, hchecks.undisturbed trivial⟩

/-! ## Permutations -/

/-- `txn_begin()`, and `txn_end()` or `txn_rollback()` -/
def GuidDb.transaction {α : Type} (op : GuidDb → Except Errno (α × GuidDb)) (s : GuidDb) :
    Except Errno α × GuidDb :=
  match op s with
  | .ok (a, s') => (.ok a, s')
  | .error err => (.error err, s)

/-- `bookmark_permute()` -/
def GuidDb.bookmarkPermute (ctx : Ctx) (parent : ℤ) (op : PermdOp) (name1 name2 : CString)
    (type : BookmarkType) (now : ℤ) (s : GuidDb) : Except Errno Unit × GuidDb :=
  if type = .keyword ∨ type = .tag ∧ parent ≠ ctx.tagsRootId then (.error .perm, s) else
  let name1 := name1.val.take (nameMax + 1)
  let name2 := name2.val.take (nameMax + 1)
  if validateFilename name1 ≠ none then (.error .inval, s)
  else if validateFilename name2 ≠ none then (.error .inval, s)
  else GuidDb.transaction (fun s => do
    let mb1 ← s.mozbmLookup parent name1 false
    let mb2 ← s.mozbmLookup parent name2 false
    if mb1.id = mb2.id then return ((), s)
    let shifted ← match op with
      | .swap => .ok (some (mb2.position, mozbmPosUpdate s.db mb2.id mb1.position))
      | _ => mozbmPosShift s.db parent mb1.position mb2.position op
    let some (newPos, shiftedDb) := shifted | return ((), s)
    .ok ((), { s with
      db := mozbmMtimeUpdate (mozbmPosUpdate shiftedDb mb1.id newPos) parent now })) s

/-- A row that is listed under the GUID `name` -/
structure GuidDb.Visible (s : GuidDb) (ctx : Ctx) (parent : ℤ) (name : Bytes) (b : MozBookmark) :
    Prop where
  row : b ∈ s.db.bookmarks
  id : isValidId b.id = true
  inParent : b.parent = parent
  guid : s.guid b.id = some name
  valid : validateFilename name = none
  nonneg : 0 ≤ b.position
  not_tags : b.id ≠ ctx.tagsRootId

section Permute

variable {s s' : GuidDb} {ctx : Ctx} {parent now : ℤ} {type : BookmarkType} {op : PermdOp}
  {name1 name2 : CString} {db : Db} {guid : ℤ → Option Bytes}

/-- In a table without duplicate GUIDs, a row that is listed is found by title in the tables by
GUID. -/
theorem GuidDb.Visible.byGuid {name : Bytes} {b : MozBookmark} (hkeyed : s.Keyed)
    (h : s.Visible ctx parent name b) :
    (s.db.byGuid s.guid).Visible ctx parent name (b.byGuid s.guid) where
  row := List.mem_map_of_mem h.row
  id := h.id
  inParent := h.inParent
  title := h.guid
  valid := h.valid
  nonneg := h.nonneg
  first c hc _ htitle := by
    obtain ⟨c, hcrow, rfl⟩ := List.mem_map.mp hc
    have hid := hkeyed.guids b h.row c hcrow (h.guid ▸ Option.some_ne_none _)
      (h.guid.trans htitle.symm)
    rw [hkeyed.rows.eq_of_id h.row hcrow hid]
  not_tags := h.not_tags

theorem mozbmPosShift_byGuid {posStart posEnd : ℤ} :
    mozbmPosShift (db.byGuid guid) parent posStart posEnd op =
      (mozbmPosShift db parent posStart posEnd op).map
        (Option.map fun r => (r.1, r.2.byGuid guid)) := by
  have hshift : ∀ low high diff : ℤ, updateBookmarks (db.byGuid guid)
      (fun b => b.parent = parent && low ≤ b.position && b.position ≤ high)
        (fun b => { b with position := b.position + (diff - 1) }) =
      (updateBookmarks db (fun b => b.parent = parent && low ≤ b.position && b.position ≤ high)
        fun b => { b with position := b.position + (diff - 1) }).byGuid guid :=
    fun _ _ _ => updateBookmarks_byGuid (fun _ => rfl) fun _ => rfl
  simp only [mozbmPosShift, hshift]
  split
  · rfl
  split
  · cases op with
    | moveBefore => dsimp only; split <;> rfl
    | moveAfter | swap => rfl
  · cases op with
    | moveAfter => dsimp only; split <;> rfl
    | moveBefore | swap => rfl

theorem mozbmPosUpdate_byGuid (id newPos : ℤ) :
    mozbmPosUpdate (db.byGuid guid) id newPos = (mozbmPosUpdate db id newPos).byGuid guid :=
  updateBookmarks_byGuid (fun _ => rfl) fun _ => rfl

theorem mozbmMtimeUpdate_byGuid (id now : ℤ) :
    mozbmMtimeUpdate (db.byGuid guid) id now = (mozbmMtimeUpdate db id now).byGuid guid :=
  updateBookmarks_byGuid (fun _ => rfl) fun _ => rfl

/-- A permutation by GUID is one by title of the tables by GUID. -/
theorem bookmarkPermute_byGuid :
    Firefox.bookmarkPermute ctx parent op name1 name2 type now (s.db.byGuid s.guid) =
      ((s.bookmarkPermute ctx parent op name1 name2 type now).1,
        (s.bookmarkPermute ctx parent op name1 name2 type now).2.db.byGuid s.guid) := by
  simp only [Firefox.bookmarkPermute, GuidDb.bookmarkPermute]
  by_cases htype : type = .keyword ∨ type = .tag ∧ parent ≠ ctx.tagsRootId
  · simp only [if_pos htype]
  simp only [if_neg htype]
  by_cases hname1 : validateFilename (name1.val.take (nameMax + 1)) ≠ none
  · simp only [if_pos hname1]
  by_cases hname2 : validateFilename (name2.val.take (nameMax + 1)) ≠ none
  · simp only [if_neg hname1, if_pos hname2]
  simp only [if_neg hname1, if_neg hname2, transaction, GuidDb.transaction, mozbmLookup_byGuid]
  cases s.mozbmLookup parent (name1.val.take (nameMax + 1)) false with
  | error err => rfl
  | ok mb1 =>
  cases s.mozbmLookup parent (name2.val.take (nameMax + 1)) false with
  | error err => rfl
  | ok mb2 =>
  simp only [Except.map, bind, Except.bind]
  by_cases hid : mb1.id = mb2.id
  · have hid' : (mb1.byGuid s.guid).id = (mb2.byGuid s.guid).id := hid
    simp only [if_pos hid', if_pos hid]
    rfl
  have hid' : (mb1.byGuid s.guid).id ≠ (mb2.byGuid s.guid).id := hid
  simp only [if_neg hid', if_neg hid]
  simp only [byGuid_id, byGuid_position]
  have hshift : mozbmPosShift (s.db.byGuid s.guid) parent mb1.position mb2.position op =
      (mozbmPosShift s.db parent mb1.position mb2.position op).map
        (Option.map fun r => (r.1, r.2.byGuid s.guid)) := mozbmPosShift_byGuid
  cases op with
  | swap => simp only [mozbmPosUpdate_byGuid, mozbmMtimeUpdate_byGuid]
  | moveBefore | moveAfter =>
    simp only [hshift]
    cases mozbmPosShift s.db parent mb1.position mb2.position _ with
    | error err => rfl
    | ok shifted =>
      cases shifted with
      | none => rfl
      | some r => simp only [Except.map, Option.map, mozbmPosUpdate_byGuid, mozbmMtimeUpdate_byGuid]

theorem GuidDb.bookmarkPermute_reorders {a b : MozBookmark} (hkeyed : s.Keyed)
    (hdistinct : s.db.PositionsDistinct parent) (ha : s.Visible ctx parent name1.val a)
    (hb : s.Visible ctx parent name2.val b) (hab : a.id ≠ b.id)
    (hrun : s.bookmarkPermute ctx parent op name1 name2 type now = (.ok (), s')) :
    s'.db.order parent = reordered op a.id b.id (s.db.order parent) ∧
      s'.db.PositionsDistinct parent := by
  have hrun' : Firefox.bookmarkPermute ctx parent op name1 name2 type now (s.db.byGuid s.guid) =
      (.ok (), s'.db.byGuid s.guid) := bookmarkPermute_byGuid.trans (by rw [hrun])
  have h := Firefox.bookmarkPermute_reorders (keysUnique_byGuid.mpr hkeyed.rows)
    (positionsDistinct_byGuid.mpr hdistinct) (ha.byGuid hkeyed) (hb.byGuid hkeyed) hab hrun'
  rwa [order_byGuid, order_byGuid, positionsDistinct_byGuid] at h

end Permute

end BookmarkFS.Firefox
