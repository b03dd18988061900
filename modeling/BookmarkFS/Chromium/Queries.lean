import BookmarkFS.Chromium.Operations
import BookmarkFS.Library.Checked

/-! # The operations of the backend that only read

Lookups, listings, attribute values, and the two commands of `bookmark_check()`:
the scan for entries that have no name in the filesystem, and the command that
gives one of them a new name, which modifies the store after all.
-/
namespace BookmarkFS.Chromium
open Library Hopscotch

variable {w : WordSize} (tb : Tables w)

/-- The part of `bookmark_lookup()` that finds the entry: that of the bookmark itself, without a
name. -/
def lookupEntry (ctx : Ctx w) (id : ℕ) (name : Option CString) :
    Except Fault (Except Errno EntryRef) := do
  let some e ← lookupId tb ctx id | .ok (.error .stale)
  if (ctx.ents e).name = none then return .error .stale
  let some name := name | .ok (.ok e)
  if (ctx.ents e).children = none then return .error .notdir
  let (found, _, child) ← lookupName tb ctx id name
  let some child := child | .ok (.error .noent)
  if found = false then return .error .noent
  .ok (.ok child)

/-- The part of `bookmark_lookup()` that fills the stat buffer. -/
def lookupStat (ctx : Ctx w) (id : ℕ) (name : Option CString) (e : EntryRef) :
    Except Errno Stat :=
  match (if name = none then some id else parseId ctx.json (ctx.ents e).node) with
  | none => .error .io
  | some id =>
    match parseStats ctx.json (ctx.ents e) id with
    | none => .error .io
    | some stat => .ok stat

/-- `bookmark_lookup()` -/
def bookmarkLookup (ctx : Ctx w) (env : Env) (id : ℕ) (name : Option CString) :
    Except Fault (Except Errno Stat × Ctx w) := do
  let (status, ctx) ← storeLoad tb ctx env
  if let some err := status then return (.error err, ctx)
  match ← lookupEntry tb ctx id name with
  | .error err => .ok (.error err, ctx)
  | .ok e => .ok (lookupStat ctx id name e, ctx)

/-- `bookmark_get()` without a cookie: the value that the callback is given. -/
def bookmarkGet (ctx : Ctx w) (env : Env) (id : ℕ) (xattr : Option XattrName) :
    Except Fault (Except Errno Bytes × Ctx w) := do
  let (status, ctx) ← storeLoad tb ctx env
  if let some err := status then return (.error err, ctx)
  let some e ← lookupId tb ctx id | return (.error .stale, ctx)
  if (ctx.ents e).name = none then return (.error .stale, ctx)
  if (ctx.ents e).id = rootId then
    return (.error (if xattr = none then .isdir else .noattr), ctx)
  let some key := xattrKey xattr ctx.flags | return (.error .noattr, ctx)
  let some value := ctx.json.get (ctx.ents e).node key
    | return (.error (if xattr = none then .io else .isdir), ctx)
  match jsonStringValue (some value) with
  | none => .ok (.error .io, ctx)
  | some value => .ok (.ok value, ctx)

/-- `struct bookmarkfs_bookmark_entry` -/
structure Dirent where
  name : Bytes
  off : ℕ
  id : ℕ
  /-- `none` stands for -1, which tells that the entry is a directory. -/
  valueLen : Option ℕ
  /-- The access and modification times, if they are asked for. -/
  times : Option (Timespec × Timespec)
  deriving DecidableEq

/-- `parse_entry()` -/
def parseEntry (ctx : Ctx w) (node : NodeRef) (off : ℕ) (withStat : Bool) :
    Except Fault (Option Dirent) := do
  let some id := parseId ctx.json node | .error .assertion
  let some e ← lookupId tb ctx id | .ok none
  let some name := (ctx.ents e).name | .ok none
  let guid := jsonStringValue (ctx.json.get (ctx.ents e).node .guid)
  let some name := (if ctx.flags.filenameGuid then guid else some name) | .error .assertion
  if withStat then
    .ok ((parseStats ctx.json (ctx.ents e) id).map fun stat =>
      ⟨name, off, id, stat.valueLen, some (stat.atime, stat.mtime)⟩)
  else
    .ok (some ⟨name, off, id, if (ctx.ents e).children = none then some 0 else none, none⟩)

/-- What the callback of `bookmark_list()` returns for an entry, given the entries that it has
accepted before. -/
abbrev ListCallback := List Dirent → Dirent → ℤ

/-- The loop of `bookmark_list()` on the children from index `idx` on: the last status, and the
entries that the callback has accepted. -/
def listChildren (ctx : Ctx w) (withStat : Bool) (callback : ListCallback) :
    List NodeRef → ℕ → List Dirent → Except Fault (ℤ × List Dirent)
  | [], _, accepted => .ok (0, accepted)
  | node :: nodes, idx, accepted => do
    match ← parseEntry tb ctx node (idx + 1) withStat with
    -- Silently ignore bookmark entries with bad or duplicate names.
    | none => listChildren ctx withStat callback nodes (idx + 1) accepted
    | some entry =>
      if callback accepted entry ≠ 0 then .ok (callback accepted entry, accepted)
      else listChildren ctx withStat callback nodes (idx + 1) (accepted ++ [entry])

/-- The children that a cookie holds: the array in the store itself, or a copy of it. -/
inductive Children where
  | live (children : Value)
  | copy (nodes : List NodeRef)

/-- `struct bookmark_lcookie` -/
structure ListCookie where
  children : Children
  /-- Of `bookmark_check()` only. -/
  idx : ℕ

def Children.nodes (json : Json) : Children → List NodeRef
  | .live children => json.elems children
  | .copy nodes => nodes

/-- The children to be listed, and whether they are looked up anew. -/
def listDir (ctx : Ctx w) (id off : ℕ) (cookie : Option ListCookie) :
    Except Fault (Except Errno (Children × Bool)) := do
  match cookie, off with
  | some cookie, _ + 1 => .ok (.ok (cookie.children, false))
  -- `off == 0` implies rewinddir()
  | _, _ =>
    let some e ← lookupId tb ctx id | return .error .stale
    if (ctx.ents e).name = none then return .error .stale
    let some children := (ctx.ents e).children | return .error .notdir
    .ok (.ok (.live children, true))

/-- The cookie that `bookmark_list()` leaves: with a copy of the children, if they have been looked
up, unless there is no callback. -/
def listCookie (json : Json) (children : Children) (fresh hasCallback : Bool)
    (cookie : Option ListCookie) : Option ListCookie :=
  if fresh then
    some { children := if hasCallback then .copy (children.nodes json) else children
           idx := (cookie.map (·.idx)).getD 0 }
  else cookie

/-- `bookmark_list()` with the cookie at `cookie_ptr`, if that is not NULL: the last status and the
entries that the callback has accepted, and the cookie afterwards. -/
def bookmarkList (ctx : Ctx w) (env : Env) (id off : ℕ) (withStat : Bool)
    (callback : Option ListCallback) (cookie : Option ListCookie) :
    Except Fault ((Except Errno (ℤ × List Dirent) × Option ListCookie) × Ctx w) := do
  let (status, ctx) ← storeLoad tb ctx env
  if let some err := status then return ((.error err, cookie), ctx)
  match ← listDir tb ctx id off cookie with
  | .error err => .ok ((.error err, cookie), ctx)
  | .ok (children, fresh) =>
    match callback with
    | none => .ok ((.ok (0, []), listCookie ctx.json children fresh false cookie), ctx)
    | some callback =>
      let result ← listChildren tb ctx withStat callback ((children.nodes ctx.json).drop off) off []
      .ok ((.ok result, listCookie ctx.json children fresh true cookie), ctx)

/-- `enum bookmarkfs_fsck_result` -/
inductive FsckResult where
  | nameDuplicate
  | nameBadChar
  | nameBadLen
  | nameDotDot
  | nameInvalid
  deriving DecidableEq

/-- What a callback of `bookmark_check()` is told. -/
structure FsckReport where
  result : FsckResult
  id : ℕ
  extra : ℕ
  name : Bytes
  deriving DecidableEq

/-- `validate_filename_fsck()`: the result and the extra information for an invalid name. -/
def validateFilenameFsck (str : Bytes) : Option (FsckResult × ℕ) :=
  (validateFilename str).map fun err => match err with
    | .badChar => (.nameBadChar, str.idxOf slash)
    | .badLen => (.nameBadLen, str.length)
    | .dotDot => (.nameDotDot, if str.length = 1 then 1 else 0)

theorem validateFilenameFsck_none {str : Bytes} : validateFilenameFsck str = none ↔
    validateFilename str = none :=
  Option.map_eq_none_iff

/-- One round of the loop of `fsck_next()`: the report on a child, if there is one to be made. -/
def fsckChild (ctx : Ctx w) (parentId : ℕ) (child : NodeRef) :
    Except Fault (Option FsckReport) := do
  let some id := parseId ctx.json child | .error .assertion
  let some e ← lookupId tb ctx id | .ok none
  if (ctx.ents e).name ≠ none then return none
  let some name := jsonStringValue (ctx.json.get child .name) | .error .assertion
  match validateFilenameFsck name with
  | some (result, extra) => .ok (some ⟨result, id, extra, name⟩)
  | none =>
    let found ← lookupAssoc tb ctx parentId name
    -- The duplicate entry may already be renamed.
    let extra := match found with
      | none => rootId
      | some (other, _) => (ctx.ents other).id
    .ok (some ⟨.nameDuplicate, id, extra, name⟩)

/-- `fsck_next()` on the children from index `idx` on: the status of the last callback, the index
to go on from, and the reports made. -/
def fsckNext (ctx : Ctx w) (parentId : ℕ) (callback : FsckReport → ℤ) :
    List NodeRef → ℕ → Except Fault (ℤ × ℕ × List FsckReport)
  | [], idx => .ok (0, idx + 1, [])
  | child :: rest, idx => do
    match ← fsckChild tb ctx parentId child with
    | none => fsckNext ctx parentId callback rest (idx + 1)
    | some report =>
      if callback report ≠ 0 then .ok (callback report, idx + 1, [report])
      else
        let (status, idx, reports) ← fsckNext ctx parentId callback rest (idx + 1)
        .ok (status, idx, report :: reports)

/-- `fsck_apply()`: either a return value, or the report that is passed to the callback. -/
def fsckApply (ctx : Ctx w) (parentId id : ℕ) (name : CString) :
    Except Fault (Except Errno (Option FsckReport) × Ctx w) := do
  let some e ← lookupId tb ctx id | return (.error .noent, ctx)
  if (ctx.ents e).parentId ≠ parentId then return (.error .noent, ctx)
  -- Given ID refers to a valid entry.  No fix shall be performed.
  if (ctx.ents e).name ≠ none then return (.ok none, ctx)
  let name := name.val.take (nameMax + 1)
  if let some (result, extra) := validateFilenameFsck name then
    return (.ok (some ⟨result, id, extra, name⟩), ctx)
  let hashcode := hashAssoc tb id name
  if (← hashmapSearch (assocmapComp ctx.ents parentId name) ctx.assocMap hashcode).isSome then
    return (.ok (some ⟨.nameDuplicate, id, (ctx.ents e).id, name⟩), ctx)
  -- `BOOKMARKFS_NAME_INVALID_REASON_NOTUTF8`
  let some nameNode := jsonStringn name | return (.ok (some ⟨.nameInvalid, id, 256, name⟩), ctx)
  let json := ctx.json.set (ctx.ents e).node .name nameNode
  let ents := Function.update ctx.ents e { ctx.ents e with name := some name }
  let assocMap ← tb.insert (assocmapHash tb ents) ctx.assocMap hashcode e
  .ok (.ok none, { ctx with json := json, ents := ents, assocMap := assocMap, dirty := .data })

/-- What the checks common to the commands of `bookmark_check()` find: the children to scan. -/
def checkDir (ctx : Ctx w) (env : Env) (parentId : ℕ) :
    Except Fault (Except Errno Value × Ctx w) := do
  if ctx.flags.filenameGuid then return (.error .perm, ctx)
  let (status, ctx) ← storeLoad tb ctx env
  if let some err := status then return (.error err, ctx)
  let some e ← lookupId tb ctx parentId | return (.error .stale, ctx)
  if (ctx.ents e).name = none then return (.error .stale, ctx)
  let some children := (ctx.ents e).children | return (.error .notdir, ctx)
  .ok (.ok children, ctx)

/-- `bookmark_check()` without data, on the index kept in a cookie. -/
def bookmarkCheckNext (ctx : Ctx w) (env : Env) (parentId : ℕ) (callback : FsckReport → ℤ)
    (idx : ℕ) : Except Fault (Except Errno (ℤ × ℕ × List FsckReport) × Ctx w) := do
  let (dir, ctx) ← checkDir tb ctx env parentId
  match dir with
  | .error err => .ok (.error err, ctx)
  | .ok children =>
    let result ← fsckNext tb ctx parentId callback ((ctx.json.elems children).drop idx) idx
    .ok (.ok result, ctx)

/-- `bookmark_check()` with data -/
def bookmarkCheckApply (ctx : Ctx w) (env : Env) (parentId id : ℕ) (name : CString) :
    Except Fault (Except Errno (Option FsckReport) × Ctx w) := do
  let (dir, ctx) ← checkDir tb ctx env parentId
  match dir with
  | .error err => .ok (.error err, ctx)
  | .ok _ => fsckApply tb ctx parentId id name

theorem checkDir_kept {tb : Tables w} {ctx : Ctx w} {env : Env}
    (hload : storeLoad tb ctx env = .ok (none, ctx))
    (parentId : ℕ) : Yields (fun _ => True) (checkDir tb ctx env parentId) fun r => r.2 = ctx := by
  rw [checkDir, hload]
  split
  · rfl
  simp only [ok_bind]
  refine (Yields.any _).bind fun r _ => ?_
  cases r with
  | none => rfl
  | some e =>
    dsimp only
    split
    · rfl
    · split <;> rfl

end BookmarkFS.Chromium
