import BookmarkFS.Firefox.Places

/-! # The operations on bookmarks, tags and keywords

Each is one transaction on the tables, which leaves no trace where it fails.
-/
namespace BookmarkFS.Firefox
open Library
open Chromium (Errno Timespec validTsSec)

/-! ## Lookups -/

/-- `struct bookmarkfs_bookmark_stat`; what has not been assigned is left out. -/
structure Stat where
  id : ℤ
  /-- -1 tells that the entry is a directory. -/
  valueLen : ℤ
  atime : Option Timespec
  mtime : Timespec
  deriving DecidableEq

/-- `bookmark_lookup_cb()`, where `hidden` is never found. -/
def bookmarkLookupCb (db : Db) (hidden : Option ℤ) (b : MozBookmark) : Except Errno Stat :=
  if isValidId b.id = false then .error .io
  else if hidden = some b.id then .error .noent
  else .ok
    { id := b.id
      valueLen := ((db.place b.fk).map fun p => (p.url.length : ℤ)).getD (-1)
      atime := some (usecsToTimespec (((db.place b.fk).bind fun p => p.lastVisitDate).getD 0))
      mtime := usecsToTimespec b.lastModified }

/-- `BOOKMARK_LOOKUP_TITLE` -/
def Db.lookupTitle (db : Db) (parent : ℤ) (name : Bytes) : Option MozBookmark :=
  (byPosition (db.bookmarks.filter fun b => bound parent = some b.parent ∧
    b.title = some name)).head?

section LookupTitle

variable {db : Db} {parent : ℤ} {name : Bytes} {b : MozBookmark}

theorem mem_titled {c : MozBookmark} : c ∈ byPosition (db.bookmarks.filter fun b =>
    bound parent = some b.parent ∧ b.title = some name) ↔
      0 ≤ parent ∧ c ∈ db.children parent ∧ c.title = some name := by
  rw [mem_byPosition, List.mem_filter, decide_eq_true_iff, bound_eq_some, mem_children]
  constructor
  · rintro ⟨hc, ⟨hparent, rfl⟩, htitle⟩
    exact ⟨hparent, ⟨hc, rfl⟩, htitle⟩
  · rintro ⟨hparent, ⟨hc, rfl⟩, htitle⟩
    exact ⟨hc, ⟨hparent, rfl⟩, htitle⟩

theorem of_lookupTitle (h : db.lookupTitle parent name = some b) :
    0 ≤ parent ∧ b ∈ db.children parent ∧ b.title = some name ∧
      ∀ c ∈ db.children parent, c.title = some name → b.position ≤ c.position := by
  have hsorted := byPosition_le (db.bookmarks.filter fun b =>
    bound parent = some b.parent ∧ b.title = some name)
  rw [Db.lookupTitle] at h
  obtain ⟨hparent, hb, htitle⟩ := mem_titled.mp (List.mem_of_head? h)
  refine ⟨hparent, hb, htitle, fun c hc hctitle => ?_⟩
  have hmem := mem_titled.mpr ⟨hparent, hc, hctitle⟩
  obtain ⟨rest, hrest⟩ := List.head?_eq_some_iff.mp h
  rw [hrest] at hmem hsorted
  rcases List.mem_cons.mp hmem with rfl | hmem
  · exact le_rfl
  · exact List.rel_of_pairwise_cons hsorted hmem

theorem lookupTitle_first (hparent : 0 ≤ parent) (hkeys : db.KeysUnique)
    (hdistinct : db.PositionsDistinct parent) (hb : b ∈ db.children parent)
    (htitle : b.title = some name)
    (hfirst : ∀ c ∈ db.children parent, c.title = some name → b.position ≤ c.position) :
    db.lookupTitle parent name = some b := by
  cases hfound : db.lookupTitle parent name with
  | none =>
    rw [Db.lookupTitle, List.head?_eq_none_iff] at hfound
    have hmem := mem_titled.mpr ⟨hparent, hb, htitle⟩
    rw [hfound] at hmem
    cases hmem
  | some c =>
    obtain ⟨-, hc, hctitle, hcfirst⟩ := of_lookupTitle hfound
    have hpos := le_antisymm (hfirst c hc hctitle) (hcfirst b hb htitle)
    have hid := (id_iff_position hkeys hdistinct hb hc).mpr hpos
    rw [hkeys.eq_of_id (mem_children.mp hb).1 (mem_children.mp hc).1 hid]

end LookupTitle

/-- Columns that may be null are looked for in lists. -/
instance lawfulBEq_column : LawfulBEq (Option ℤ) := Option.instLawfulBEq ℤ

/-- `BOOKMARK_LOOKUP_TAG_TITLE` -/
def Db.lookupTagged (db : Db) (parent : ℤ) (name : Bytes) : Option MozBookmark :=
  let tagged := (db.bookmarks.filter fun b => bound parent = some b.parent).map (·.fk)
  (byId (db.bookmarks.filter fun b => b.fk ≠ none ∧ b.fk ∈ tagged ∧
    b.title = some name)).head?.filter
    fun b => (db.place b.fk).isSome

/-- `BOOKMARK_LOOKUP_KEYWORD` -/
def Db.lookupKeyword (db : Db) (name : Bytes) : Option MozBookmark :=
  (db.keywords.find? fun k => k.keyword = name).bind fun k =>
    (byId (db.bookmarks.filter fun b => b.fk = some k.placeId ∧ (db.place b.fk).isSome)).head?

/-- `bookmark_do_lookup()` -/
def bookmarkDoLookup (db : Db) (ctx : Ctx) (id : ℤ) (name : Option Bytes) (type : BookmarkType) :
    Except Errno Stat :=
  match name with
  | none =>
    if type = .keyword then .ok ⟨0, -1, some ⟨0, 0⟩, ⟨0, 0⟩⟩
    else
      match db.bookmarks.find? fun b => bound id = some b.id with
      | none => .error .noent
      | some b => bookmarkLookupCb db none b
  | some name =>
    let found := match type with
      | .bookmark => db.lookupTitle id name
      | .tag => if id = ctx.tagsRootId then db.lookupTitle id name else db.lookupTagged id name
      | .keyword => db.lookupKeyword name
    match found with
    | none => .error .noent
    | some b => bookmarkLookupCb db (some ctx.tagsRootId) b

/-- `bookmark_lookup()` -/
def bookmarkLookup (db : Db) (ctx : Ctx) (id : ℤ) (name : Option CString) (type : BookmarkType) :
    Except Errno Stat :=
  bookmarkDoLookup db ctx id (name.map (·.val)) type

/-! ## Statements on bookmarks -/

/-- `mozbm_lookup()` by title; `place_id` is 0 for a row without a place. -/
def mozbmLookup (db : Db) (parent : ℤ) (name : Bytes) : Except Errno MozBookmark :=
  match db.lookupTitle parent name with
  | none => .error .noent
  | some mb => .ok mb

def MozBookmark.placeId (mb : MozBookmark) : ℤ := mb.fk.getD 0

/-- `mozbm_lookup_id()`: the first row with the same place and title. -/
def mozbmLookupId (db : Db) (id : ℤ) : Except Errno MozBookmark :=
  let found := (db.bookmarks.find? fun b => bound id = some b.id).bind fun b =>
    (byId (db.bookmarks.filter fun c => b.fk ≠ none ∧ b.title ≠ none ∧ c.fk = b.fk ∧
      c.title = b.title)).head?
  match found with
  | none => .error .stale
  | some b => .ok b

/-- `mozbm_insert()`: the identifier of the new row. -/
def mozbmInsert (db : Db) (parent : ℤ) (title : Option Bytes) (dateAdded placeId : ℤ) :
    Except Errno (ℤ × Db) := do
  let position ← safeincr (maxPos db.bookmarks parent)
  let id := newRowid (db.bookmarks.map (·.id))
  if isValidId id = false then .error .nospc
  else .ok (id, { db with bookmarks := db.bookmarks ++
    [⟨id, if placeId < 0 then 2 else 1, bound placeId, parent, position, title, dateAdded,
    dateAdded⟩] })

/-- `mozbm_delete()` of a row that has been found before. An assertion fails where a row that is no
directory cannot be found again. -/
def mozbmDelete (db : Db) (mb : MozBookmark) (isDir purge : Bool) : Except Errno Db :=
  let rest := { db with bookmarks := db.bookmarks.filter fun b => bound mb.id ≠ some b.id }
  if isDir then
    if mb.id ∈ db.bookmarks.map (·.parent) ∨ mb.id < 0 then .error .notempty else .ok rest
  else if mb.id < 0 then .error .io
  else if purge then mozplaceDelref rest mb.placeId
  else mozplaceDelrefPlain rest mb.placeId 1

/-- The row is gone, and maybe others that refer to its place. -/
theorem mozbmDelete_rows {db db' : Db} {mb : MozBookmark} {isDir purge : Bool}
    (h : mozbmDelete db mb isDir purge = .ok db') :
    db.Shrinks db' ∧ ∀ b ∈ db'.bookmarks, b.id ≠ mb.id := by
  have hrest : ∀ {db₁ : Db}, 0 ≤ mb.id → Db.Shrinks { db with
      bookmarks := db.bookmarks.filter fun b => bound mb.id ≠ some b.id } db₁ →
      db.Shrinks db₁ ∧ ∀ b ∈ db₁.bookmarks, b.id ≠ mb.id := by
    intro db₁ hid hshrinks
    refine ⟨⟨hshrinks.bookmarks.trans List.filter_sublist, hshrinks.keywords⟩, fun b hb heq => ?_⟩
    obtain ⟨-, hne⟩ := List.mem_filter.mp (hshrinks.bookmarks.subset hb)
    exact of_decide_eq_true hne (bound_eq_some.mpr ⟨hid, heq.symm⟩)
  rw [mozbmDelete] at h
  split at h
  · split at h
    · cases h
    next hempty =>
      cases h
      exact hrest (not_lt.mp fun hneg => hempty (.inr hneg)) (.refl _)
  · split at h
    · cases h
    next hid =>
      split at h
      · exact hrest (not_lt.mp hid) (mozplaceDelref_shrinks h)
      · obtain ⟨hbookmarks, hkeywords⟩ := mozplaceDelrefPlain_rows h
        exact hrest (not_lt.mp hid) ⟨hbookmarks ▸ List.Sublist.refl _,
          hkeywords ▸ List.Sublist.refl _⟩

/-- `mozbm_mtime_update()` -/
def mozbmMtimeUpdate (db : Db) (id now : ℤ) : Db :=
  updateBookmarks db (·.id = id) fun b => { b with lastModified := now }

/-- `ifnull(?3, safeincr(..))` -/
def positionOr (db : Db) (parent : ℤ) : Option ℤ → Except Errno ℤ
  | some position => .ok position
  | none => safeincr (maxPos db.bookmarks parent)

/-- `mozbm_move()` -/
def mozbmMove (db : Db) (id newParent : ℤ) (newPosition : Option ℤ) (newName : Option Bytes) :
    Except Errno Db :=
  if ∃ b ∈ db.bookmarks, bound id = some b.id then do
    let position ← positionOr db newParent newPosition
    .ok (updateBookmarks db (·.id = id) fun b =>
      { b with parent := newParent, title := newName <|> b.title, position := position })
  else .ok db

/-- `mozbm_update()`: the place of the row afterwards. -/
def mozbmUpdate (db : Db) (id : ℤ) (placeId : Option ℤ) (dateAdded lastModified : Option ℤ) :
    Except Errno (ℤ × Db) :=
  match db.bookmarks.find? fun b => bound id = some b.id with
  | none => .error .stale
  | some mb =>
    let update (b : MozBookmark) : MozBookmark :=
      { b with
          fk := placeId <|> b.fk
          dateAdded := dateAdded.getD b.dateAdded
          lastModified := lastModified.getD b.lastModified }
    .ok ((update mb).placeId, updateBookmarks db (·.id = id) update)

/-! ## Creation -/

def aboutBlank : Bytes := [97, 98, 111, 117, 116, 58, 98, 108, 97, 110, 107]

/-- The place of a new bookmark, or -1 for a folder, and the time of the last visit. -/
def createPlace (db : Db) (isDir : Bool) : Except Errno ((ℤ × Option Timespec) × Db) :=
  if isDir then .ok ((-1, some ⟨0, 0⟩), db)
  else do
    let (r, db) ← mozplaceAddref db aboutBlank
    .ok ((r.1, r.2.map usecsToTimespec), db)

/-- `bookmark_do_create()` -/
def bookmarkDoCreate (env : Env) (ctx : Ctx) (parentId : ℤ) (name : Bytes)
    (isDir : Bool) (db : Db) :
    Except Errno (Stat × Db) :=
  if parentId = ctx.rootId then .error .perm
  else
    match bookmarkDoLookup db ctx parentId (some name) .bookmark with
    | .ok _ => .error .exist
    | .error .noent => do
      let (place, db) ← createPlace db isDir
      let (id, db) ← mozbmInsert db parentId (some name) env.usecs place.1
      .ok (⟨id, if isDir then -1 else 0, place.2, env.now⟩, mozbmMtimeUpdate db parentId env.usecs)
    | .error err => .error err

/-- `tag_entry_lookup()`: one of the entries of the place in the tag. -/
def tagEntryLookup (db : Db) (parent placeId : ℤ) : Except Errno MozBookmark :=
  match db.bookmarks.find? fun b => bound parent = some b.parent ∧ b.fk ≠ none ∧
    b.fk = bound placeId with
  | none => .error .noent
  | some mb => .ok mb

/-- `tag_entry_add()` for the bookmark `id` -/
def tagEntryAdd (env : Env) (ctx : Ctx) (parentId : ℤ) (name : Bytes) (id : ℤ) (db : Db) :
    Except Errno (Stat × Db) := do
  let mb ← mozbmLookupId db id
  if mb.placeId = 0 then .error .perm
  else
    match tagEntryLookup db parentId mb.placeId with
    | .ok _ => .error .exist
    | .error .noent => do
      let (_, db) ← mozbmInsert db parentId none env.usecs mb.placeId
      let stat ← bookmarkDoLookup db ctx parentId (some name) .tag
      let db ← mozplaceAddrefId db mb.placeId
      .ok (stat, mozbmMtimeUpdate db parentId env.usecs)
    | .error err => .error err

/-- `keyword_create()` for the bookmark `id` -/
def keywordCreate (ctx : Ctx) (keyword : Bytes) (id : ℤ) (db : Db) : Except Errno (Stat × Db) := do
  let mb ← mozbmLookupId db id
  if mb.placeId = 0 then .error .perm
  else
    let db ← mozkwInsert db keyword mb.placeId
    let stat ← bookmarkDoLookup db ctx mb.id none .bookmark
    let db ← mozplaceAddrefId db mb.placeId
    .ok (stat, db)

/-- `bookmark_create()`; `id` is that of the bookmark to tag or to give a keyword. -/
def bookmarkCreate (env : Env) (ctx : Ctx) (parentId : ℤ) (name : CString) (type : BookmarkType)
    (isDir : Bool) (id : ℤ) (db : Db) : Except Errno Stat × Db :=
  transaction (match type with
    | .bookmark => bookmarkDoCreate env ctx parentId name.val isDir
    | .tag =>
      if isDir then bookmarkDoCreate env ctx parentId name.val isDir
      else tagEntryAdd env ctx parentId name.val id
    | .keyword => keywordCreate ctx name.val id) db

/-! ## Deletion -/

/-- `bookmark_do_delete()` -/
def bookmarkDoDelete (env : Env) (ctx : Ctx) (parentId : ℤ) (name : Bytes)
    (isDir : Bool) (db : Db) :
    Except Errno (Unit × Db) :=
  if parentId = ctx.rootId then .error .perm
  else do
    let mb ← mozbmLookup db parentId name
    if (mb.placeId = 0) ≠ isDir then .error (if isDir then .notdir else .isdir)
    else
      let db ← mozbmDelete db mb isDir true
      .ok ((), mozbmMtimeUpdate db parentId env.usecs)

/-- `tag_entry_delete()` -/
def tagEntryDelete (env : Env) (ctx : Ctx) (parentId : ℤ) (name : Bytes) (db : Db) :
    Except Errno (Unit × Db) := do
  let stat ← bookmarkDoLookup db ctx parentId (some name) .tag
  let mb ← mozbmLookupId db stat.id
  -- Bad bookmark file.  Tag entry should not be a directory.
  if mb.placeId = 0 then .error .io
  else
    let entry ← tagEntryLookup db parentId mb.placeId
    let db ← mozbmDelete db entry false false
    .ok ((), mozbmMtimeUpdate db parentId env.usecs)

/-- `bookmark_delete()` -/
def bookmarkDelete (env : Env) (ctx : Ctx) (parentId : ℤ) (name : CString) (type : BookmarkType)
    (isDir : Bool) (db : Db) : Except Errno Unit × Db :=
  transaction (match type with
    | .bookmark => bookmarkDoDelete env ctx parentId name.val isDir
    | .tag =>
      if isDir then bookmarkDoDelete env ctx parentId name.val isDir
      else tagEntryDelete env ctx parentId name.val
    | .keyword => fun db => do
      let db ← mozkwDelete env db name.val
      .ok ((), db)) db

/-! ## Renames -/

/-- The entry that has the new name, if any, is deleted: its position, if it is replaced. -/
def replaceTarget (db : Db) (oldMb : MozBookmark) (newParentId : ℤ) (newName : Bytes)
    (noreplace : Bool) : Except Errno (Option ℤ × Db) :=
  match mozbmLookup db newParentId newName with
  -- move
  | .error .noent => .ok (none, db)
  | .error err => .error err
  -- replace
  | .ok newMb =>
    if noreplace then .error .exist
    else if (oldMb.placeId = 0) ≠ (newMb.placeId = 0) then
      .error (if oldMb.placeId = 0 then .notdir else .isdir)
    else do
      let db ← mozbmDelete db newMb (oldMb.placeId = 0) true
      .ok (bound newMb.position, db)

/-- `bookmark_rename()` of bookmarks and tags -/
def bookmarkRename (env : Env) (ctx : Ctx) (oldParentId : ℤ) (oldName : CString) (newParentId : ℤ)
    (newName : CString) (type : BookmarkType) (noreplace : Bool) (db : Db) :
    Except Errno Unit × Db :=
  if type = .bookmark ∧ (oldParentId = ctx.rootId ∨ newParentId = ctx.rootId) then
    (.error .perm, db)
  else if oldName = newName ∧ oldParentId = newParentId then (.ok (), db)
  else transaction (fun db => do
    let oldMb ← mozbmLookup db oldParentId oldName.val
    let (newPos, db) ← replaceTarget db oldMb newParentId newName.val noreplace
    let db ← mozbmMove db oldMb.id newParentId newPos (if oldName = newName then none
      else some newName.val)
    let db := mozbmMtimeUpdate db oldParentId env.usecs
    let db := if oldParentId = newParentId then db else mozbmMtimeUpdate db newParentId env.usecs
    .ok ((), if ctx.ctime then mozbmMtimeUpdate db oldMb.id env.usecs else db)) db

/-! ## Attributes -/

/-- `parse_usecs()` -/
def parseUsecs (str : Bytes) : Option ℤ :=
  if str.length > 19 then none
  else
    let (usecs, rest) := strtoll str
    if rest ≠ [] ∨ usecs < 0 ∨ usecs = int64Max then none else some usecs

/-- What `bookmark_set()` is to set. A GUID, if it is valid, is not part of the model. -/
inductive SetArg where
  | times (atime mtime : Option Timespec)
  | url (val : Bytes)
  | desc (val : Bytes)
  | guid (valid : Bool)
  | dateAdded (val : Bytes)
  | keyword
  | other

/-- What is set of a row of `moz_bookmarks`, and of one of `moz_places`, if any. -/
structure Updates where
  dateAdded : Option ℤ
  lastModified : Option ℤ
  /-- The URL, the time of the last visit and the description. -/
  place : Option (Option Bytes × Option ℤ × Option Bytes)

/-- The checks of `bookmark_set()`, and what it is going to set. -/
def SetArg.updates (env : Env) (ctx : Ctx) : SetArg → Except Errno Updates
  | .times atime mtime =>
    if ∃ ts, atime = some ts ∧ validTsSec ts.sec = false then .error .inval
    else if ∃ ts, mtime = some ts ∧ validTsSec ts.sec = false then .error .inval
    else .ok ⟨none, mtime.map timespecToUsecs,
      atime.map fun ts => (none, some (timespecToUsecs ts), none)⟩
  | .url val => .ok ⟨none, none, some (some val, none, none)⟩
  | .desc val => .ok ⟨none, if ctx.ctime then some env.usecs else none, some (none, none, some val)⟩
  | .guid valid =>
    if valid then .ok ⟨none, if ctx.ctime then some env.usecs else none, none⟩ else .error .inval
  | .dateAdded val =>
    match parseUsecs val with
    | none => .error .inval
    | some usecs => .ok ⟨some usecs, if ctx.ctime then some env.usecs else none, none⟩
  | .keyword => .error .perm
  | .other => .error .noattr

/-- `bookmark_set()` -/
def bookmarkSet (env : Env) (ctx : Ctx) (id : ℤ) (arg : SetArg) (db : Db) :
    Except Errno Unit × Db :=
  match arg.updates env ctx with
  | .error err => (.error err, db)
  | .ok updates => transaction (fun db => do
    let (placeId, db) ← mozbmUpdate db id none updates.dateAdded updates.lastModified
    match updates.place with
    | none => .ok ((), db)
    | some (url, lastVisitDate, description) =>
      -- Attempting to update moz_places fields on a directory.
      if placeId = 0 then .error .perm
      else
        let (newPlaceId, db) ← mozplaceUpdate db placeId url lastVisitDate description
        if newPlaceId = placeId then .ok ((), db)
        else
          let (_, db) ← mozbmUpdate db id (bound newPlaceId) updates.dateAdded updates.lastModified
          .ok ((), db)) db

end BookmarkFS.Firefox
