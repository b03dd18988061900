import BookmarkFS.Chromium.Load

/-! # The operations of the backend that modify the store

Each one first brings the store up to date, then looks its arguments up, checks
them, and only then changes the JSON tree and the maps, in the order of the
source. A call ends in an error of its own, in success, or in a fault.
-/
namespace BookmarkFS.Chromium
open Library Hopscotch

variable {w : WordSize}

/-- `node_mtime_now()` -/
def nodeMtimeNow (json : Json) (node : NodeRef) (now : Timespec) : Json :=
  json.set node .dateModified (.string (buildTsnode now))

section Create

variable (tb : Tables w)

/-- `build_node_guid()`. The `continue` leaves its loop, a GUID in use or not, but only the other
way out stores the hashcode. -/
def buildNodeGuid (ctx : Ctx w) (uuid : Bytes) : Except Fault (Word w) := do
  match ← hashmapSearch (guidmapComp ctx.ents uuid) ctx.guidMap (tb.digest uuid) with
  | some _ => .ok 0
  | none => .ok (tb.digest uuid)

/-- What `build_node()` hands back: the GUID, its hashcode and the filled stat buffer. -/
structure BuildCtx (w : WordSize) where
  guid : Bytes
  hashcode : Word w
  stat : Stat

/-- The members that `build_node()` sets before it asks for an identifier. -/
def buildNodeHead (json : Json) (node : NodeRef) (isDir : Bool) (now : Timespec) : Json :=
  let json := if isDir then
      let (children, json) := json.newArray
      (json.set node .children children).set node .type (.string [0x66, 0x6f, 0x6c,
        0x64, 0x65, 0x72])
    else
      (json.set node .url (.string [])).set node .type (.string [0x75, 0x72, 0x6c])
  let dateAdded := buildTsnode now
  (json.set node .dateAdded (.string dateAdded)).set node .dateLastUsed (.string dateAdded)

/-- `build_node()` with `build_node_id()` -/
def buildNode (ctx : Ctx w) (env : Env) (node : NodeRef) (name : Bytes) (isDir : Bool) :
    Except Fault (Except Errno (BuildCtx w) × Ctx w) := do
  let json := buildNodeHead ctx.json node isDir env.now
  let id := ctx.maxId + 1
  if id > maxBookmarkId then return (.error .io, { ctx with json := json })
  let json := json.set node .id (.string (decimal id))
  let ctx := { ctx with json := json, maxId := id }
  let some nameNode := jsonStringn name | return (.error .perm, ctx)
  let json := json.set node .name nameNode
  let stat : Stat := ⟨id, if isDir then none else some 0, env.now, env.now⟩
  if ctx.flags.filenameGuid then
    .ok (.ok ⟨[], 0, stat⟩, { ctx with json := json.set node .guid nameNode })
  else
    let hashcode ← buildNodeGuid tb ctx env.uuid
    let json := json.set node .guid (.string (uuidBin2hex env.uuid))
    .ok (.ok ⟨env.uuid, hashcode, stat⟩, { ctx with json := json })

/-- The part of `bookmark_create()` that links the node built and files its entry. -/
def addNode (ctx : Ctx w) (now : Timespec) (parentId : ℕ) (parent : EntryRef) (siblings : Value)
    (node : NodeRef) (name : CString) (isDir : Bool) (lctx : LookupCtx w) (bctx : BuildCtx w) :
    Except Fault (Except Errno Stat × Ctx w) := do
  let json := ctx.json.arrayAppend siblings node
  let e := ctx.nextEntry
  let entry : NodeEntry :=
    { id := bctx.stat.id, parentId := parentId, guid := [], name := some name, node := node,
      children := if isDir then json.get node .children else none }
  let ents := Function.update ctx.ents e entry
  let idMap ← tb.insert (idmapHash tb ents) ctx.idMap (tb.digest (uint64Bytes entry.id)) e
  let assocMap ← if ctx.flags.filenameGuid then .ok ctx.assocMap
    else tb.insert (assocmapHash tb ents) ctx.assocMap lctx.hashcode e
  let (guid, hashcode) := if ctx.flags.filenameGuid then (lctx.guid, lctx.hashcode)
    else (bctx.guid, bctx.hashcode)
  let guidMap ← tb.insert (guidmapHash tb ents) ctx.guidMap hashcode e
  let ents := Function.update ents e { entry with guid := guid }
  .ok (.ok bctx.stat, { ctx with
    json := nodeMtimeNow json (ents parent).node now, ents := ents, nextEntry := e + 1,
    idMap := idMap, assocMap := assocMap, guidMap := guidMap, dirty := .data })

/-- `bookmark_create()` -/
def bookmarkCreate (ctx : Ctx w) (env : Env) (parentId : ℕ) (name : CString) (isDir : Bool) :
    Except Fault (Except Errno Stat × Ctx w) := do
  if parentId = rootId then return (.error .perm, ctx)
  let (status, ctx) ← storeLoad tb ctx env
  if let some err := status then return (.error err, ctx)
  let some parent ← lookupId tb ctx parentId | return (.error .stale, ctx)
  if (ctx.ents parent).name = none then return (.error .stale, ctx)
  let some siblings := (ctx.ents parent).children | return (.error .notdir, ctx)
  let (found, lctx, entry) ← lookupName tb ctx parentId name
  if found then
    let some e := entry | return (.error .exist, ctx)
    let some id := parseId ctx.json (ctx.ents e).node | return (.error .io, ctx)
    if (parseStats ctx.json (ctx.ents e) id).isNone then return (.error .io, ctx)
    return (.error .exist, ctx)
  -- duplicate GUID
  if entry.isSome then return (.error .perm, ctx)
  let (node, json) := ctx.json.newObject
  let (built, ctx) ← buildNode tb { ctx with json := json } env node name isDir
  match built with
  | .error err => .ok (.error err, ctx)
  | .ok bctx => addNode tb ctx env.now parentId parent siblings node name isDir lctx bctx

end Create

section Delete

variable (tb : Tables w)

/-- The checks of `bookmark_delete()` on the entry to be deleted. -/
def checkDeleted (ctx : Ctx w) (deleteDir : Bool) (e : EntryRef) : Option Errno :=
  match deleteDir, (ctx.ents e).children with
  | true, none => some .notdir
  | true, some children => if ctx.json.arraySize children ≠ 0 then some .notempty else none
  | false, some _ => some .isdir
  | false, none => none

/-- The part of `bookmark_delete()`, and of `bookmark_rename()` on the entry replaced, that removes
an entry from the maps. -/
def dropEntry (ctx : Ctx w) (e : EntryRef) (entryId : Word w) : Except Fault (Ctx w) := do
  let assocMap ← if ctx.flags.filenameGuid then .ok ctx.assocMap
    else tb.remove (assocmapHash tb ctx.ents) ctx.assocMap e entryId.toInt
  let guidmapEntryId := if ctx.flags.filenameGuid then entryId.toInt else -1
  let guidMap ← tb.remove (guidmapHash tb ctx.ents) ctx.guidMap e guidmapEntryId
  let idMap ← tb.remove (idmapHash tb ctx.ents) ctx.idMap e (-1)
  .ok { ctx with assocMap := assocMap, guidMap := guidMap, idMap := idMap }

/-- `bookmark_delete()` -/
def bookmarkDelete (ctx : Ctx w) (env : Env) (parentId : ℕ) (name : CString) (deleteDir : Bool) :
    Except Fault (Except Errno Unit × Ctx w) := do
  if parentId = rootId then return (.error .perm, ctx)
  let (status, ctx) ← storeLoad tb ctx env
  if let some err := status then return (.error err, ctx)
  let some parent ← lookupId tb ctx parentId | return (.error .stale, ctx)
  if (ctx.ents parent).name = none then return (.error .stale, ctx)
  let some siblings := (ctx.ents parent).children | return (.error .notdir, ctx)
  let (found, lctx, entry) ← lookupName tb ctx parentId name
  let some e := entry | return (.error .noent, ctx)
  if found = false then return (.error .noent, ctx)
  if let some err := checkDeleted ctx deleteDir e then return (.error err, ctx)
  let idx ← ctx.json.arraySearch siblings (ctx.ents e).node
  let json := ctx.json.arrayRemove siblings idx
  let ctx ← dropEntry tb { ctx with json := json } e lctx.entryId
  .ok (.ok (), { ctx with
    json := nodeMtimeNow ctx.json (ctx.ents parent).node env.now, dirty := .data })

end Delete

inductive PermdOp where
  | swap
  | moveBefore
  | moveAfter
  deriving DecidableEq

section Permute

variable (tb : Tables w)

/-- The array operations of `bookmark_permute()`; `none` when there is nothing to do. -/
def permuteChildren (json : Json) (children : Value) (op : PermdOp) (node1 node2 : NodeRef)
    (idx1 idx2 : ℕ) : Option Json :=
  match op with
  | .swap => some ((json.arraySet children idx1 node2).arraySet children idx2 node1)
  | _ =>
    let idx2 := if op = .moveAfter then idx2 + 1 else idx2
    if idx1 = idx2 then none
    else
      let json := if idx1 > idx2 then json.arrayRemove children idx1 else json
      let json := json.arrayInsert children idx2 node1
      some (if idx1 < idx2 then json.arrayRemove children idx1 else json)

/-- `bookmark_permute()` -/
def bookmarkPermute (ctx : Ctx w) (env : Env) (parentId : ℕ) (op : PermdOp)
    (name1 name2 : CString) : Except Fault (Except Errno Unit × Ctx w) := do
  if parentId = rootId then return (.error .perm, ctx)
  let (status, ctx) ← storeLoad tb ctx env
  if let some err := status then return (.error err, ctx)
  let name1 := name1.val.take (nameMax + 1)
  if validateFilename name1 ≠ none then return (.error .inval, ctx)
  let name2 := name2.val.take (nameMax + 1)
  if validateFilename name2 ≠ none then return (.error .inval, ctx)
  let some parent ← lookupId tb ctx parentId | return (.error .stale, ctx)
  if (ctx.ents parent).name = none then return (.error .stale, ctx)
  let some children := (ctx.ents parent).children | return (.error .notdir, ctx)
  let (found1, _, entry1) ← lookupName tb ctx parentId name1
  let some e1 := entry1 | return (.error .noent, ctx)
  if found1 = false then return (.error .noent, ctx)
  let (found2, _, entry2) ← lookupName tb ctx parentId name2
  let some e2 := entry2 | return (.error .noent, ctx)
  if found2 = false then return (.error .noent, ctx)
  if e2 = e1 then return (.ok (), ctx)
  let node1 := (ctx.ents e1).node
  let node2 := (ctx.ents e2).node
  let idx1 ← ctx.json.arraySearch children node1
  let idx2 ← ctx.json.arraySearch children node2
  match permuteChildren ctx.json children op node1 node2 idx1 idx2 with
  | none => .ok (.ok (), ctx)
  | some json => .ok (.ok (), { ctx with
      json := nodeMtimeNow json (ctx.ents parent).node env.now, dirty := .data })

end Permute

section Rename

variable (tb : Tables w)

/-- The part of `bookmark_rename()` that renames the node, unless only its parent changes. -/
def updateName (ctx : Ctx w) (old oldParent newParent : EntryRef) (oldName newName : CString) :
    Except Fault (Option (Json × Entries)) := do
  if oldName = newName then
    debugAssert (oldParent ≠ newParent)
    .ok (some (ctx.json, ctx.ents))
  else
    let some nameNode := jsonStringn newName.val | .ok none
    .ok (some (ctx.json.set (ctx.ents old).node .name nameNode,
      Function.update ctx.ents old { ctx.ents old with name := some newName }))

/-- The part of `bookmark_rename()` at `move_node`: the node moves to another array, or takes over
the object of the node it replaces. -/
def moveNode (json : Json) (ents : Entries) (old oldParent newParent : EntryRef)
    (oldNode : NodeRef) (new : Option EntryRef) : Except Fault (Json × Entries) := do
  let moved := { ents old with parentId := (ents newParent).id }
  let (json, moved) := match new with
    | none => (match (ents newParent).children with
      | none => json
      | some children => json.arrayAppend children oldNode, moved)
    | some new => (json.update (ents new).node oldNode, { moved with node := (ents new).node })
  match (ents oldParent).children with
  | none => .error .assertion
  | some siblings => do
    let oldIdx ← json.arraySearch siblings oldNode
    .ok (json.arrayRemove siblings oldIdx, Function.update ents old moved)

/-- `update_guid()` -/
def updateGuid (ctx : Ctx w) (e : EntryRef) (oldEntryId : ℤ) (guid : Bytes) (hashcode : Word w) :
    Except Fault (Ctx w) := do
  let guidMap ← tb.remove (guidmapHash tb ctx.ents) ctx.guidMap e oldEntryId
  let guidMap ← tb.insert (guidmapHash tb ctx.ents) guidMap hashcode e
  .ok { ctx with guidMap := guidMap,
                 ents := Function.update ctx.ents e { ctx.ents e with guid := guid } }

/-- The part of `bookmark_rename()` that files the entry under its new name. -/
def refileRenamed (ctx : Ctx w) (old : EntryRef) (oldLctx newLctx : LookupCtx w) :
    Except Fault (Ctx w) := do
  if ctx.flags.filenameGuid then
    updateGuid tb ctx old oldLctx.entryId.toInt newLctx.guid newLctx.hashcode
  else
    let assocMap ← tb.remove (assocmapHash tb ctx.ents) ctx.assocMap old oldLctx.entryId.toInt
    let assocMap ← tb.insert (assocmapHash tb ctx.ents) assocMap newLctx.hashcode old
    .ok { ctx with assocMap := assocMap }

/-- The time stamps that `bookmark_rename()` sets last. -/
def renameTimes (ctx : Ctx w) (now : Timespec) (oldParent newParent : EntryRef)
    (oldNode : NodeRef) : Json :=
  let json := nodeMtimeNow ctx.json (ctx.ents oldParent).node now
  let json := if oldParent ≠ newParent then nodeMtimeNow json (ctx.ents newParent).node now
    else json
  if ctx.flags.ctime then nodeMtimeNow json oldNode now else json

/-- The checks of `bookmark_rename()` on the entry to be replaced. -/
def checkReplaced (ctx : Ctx w) (noreplace : Bool) (found : Bool) (old : EntryRef)
    (new : Option EntryRef) : Option (Except Errno Unit) :=
  match found, new with
  | true, some new =>
    if noreplace then some (.error .exist)
    else if new = old then some (.ok ())
    else match (ctx.ents new).children, (ctx.ents old).children with
      | some _, none => some (.error .isdir)
      | none, some _ => some (.error .notdir)
      | some children, some _ =>
        if ctx.json.arraySize children ≠ 0 then some (.error .notempty) else none
      | none, none => none
  -- duplicate GUID
  | false, some _ => some (.error .perm)
  | _, none => none

/-- The part of `bookmark_rename()` that removes the entry replaced from the maps. -/
def dropReplaced (ctx : Ctx w) (new : Option EntryRef) (entryId : Word w) :
    Except Fault (Ctx w) :=
  match new with
  | none => .ok ctx
  | some new => dropEntry tb ctx new entryId

/-- The part of `bookmark_rename()` after the checks. -/
def renameEntry (ctx : Ctx w) (now : Timespec) (old oldParent newParent : EntryRef)
    (new : Option EntryRef) (oldName newName : CString) (oldLctx newLctx : LookupCtx w) :
    Except Fault (Except Errno Unit × Ctx w) := do
  let oldNode := (ctx.ents old).node
  let some (json, ents) ← updateName ctx old oldParent newParent oldName newName
    | return (.error .perm, ctx)
  let (json, ents) ← (if oldParent ≠ newParent then
      moveNode json ents old oldParent newParent oldNode new
    else .ok (json, ents))
  let ctx ← dropReplaced tb { ctx with json := json, ents := ents } new newLctx.entryId
  let ctx ← refileRenamed tb ctx old oldLctx newLctx
  let json := renameTimes ctx now oldParent newParent oldNode
  .ok (.ok (), { ctx with json := json, dirty := .data })

/-- `bookmark_rename()` -/
def bookmarkRename (ctx : Ctx w) (env : Env) (oldParentId : ℕ) (oldName : CString)
    (newParentId : ℕ) (newName : CString) (noreplace : Bool) :
    Except Fault (Except Errno Unit × Ctx w) := do
  if oldParentId = rootId ∨ newParentId = rootId then return (.error .perm, ctx)
  let (status, ctx) ← storeLoad tb ctx env
  if let some err := status then return (.error err, ctx)
  let some oldParent ← lookupId tb ctx oldParentId | return (.error .stale, ctx)
  if (ctx.ents oldParent).name = none then return (.error .stale, ctx)
  if (ctx.ents oldParent).children = none then return (.error .notdir, ctx)
  let (oldFound, oldLctx, oldEntry) ← lookupName tb ctx oldParentId oldName
  let some old := oldEntry | return (.error .noent, ctx)
  if oldFound = false then return (.error .noent, ctx)
  let some newParent ← (if oldParentId = newParentId then .ok (some oldParent)
    else lookupId tb ctx newParentId) | return (.error .stale, ctx)
  if (ctx.ents newParent).name = none then return (.error .stale, ctx)
  if (ctx.ents newParent).children = none then return (.error .notdir, ctx)
  let (newFound, newLctx, new) ← lookupName tb ctx newParentId newName
  if let some reply := checkReplaced ctx noreplace newFound old new then return (reply, ctx)
  renameEntry tb ctx env.now old oldParent newParent new oldName newName oldLctx newLctx

end Rename

/-- The extended attributes that the backend knows. -/
inductive XattrName where
  | dateAdded
  | title
  | guid
  | unknown
  deriving DecidableEq

/-- `get_xattr_val()`: the member that holds an attribute, `none` standing for the URL. -/
def xattrKey (xattr : Option XattrName) (flags : Flags) : Option Key :=
  match xattr with
  | none => some .url
  | some .dateAdded => some .dateAdded
  | some .title => if flags.filenameGuid then some .name else none
  | some .guid => if flags.filenameGuid then none else some .guid
  | some .unknown => none

/-- `json_string_setn_nocheck()`, which fails on anything but a string. -/
def setString (json : Json) (node : NodeRef) (key : Key) (val : Bytes) : Json :=
  match json.get node key with
  | some (.string _) => json.set node key (.string val)
  | _ => json

/-- What `bookmark_set()` is asked to set: at least one of two times, or a value. -/
inductive SetArg where
  | times (atime mtime : Option Timespec)
  | value (xattr : Option XattrName) (val : Bytes)

section Set

variable (tb : Tables w)

/-- The time stamps that `bookmark_set()` stores. -/
def storeTimes (json : Json) (node : NodeRef) (atime mtime : Option Timespec) : Json :=
  let json := match atime with
    | none => json
    | some ts => json.set node .dateLastUsed (.string (buildTsnode ts))
  match mtime with
  | none => json
  | some ts => json.set node .dateModified (.string (buildTsnode ts))

/-- `bookmark_set()` with `BOOKMARKFS_BOOKMARK_SET_ATIME` or `BOOKMARKFS_BOOKMARK_SET_MTIME` -/
def setTimes (ctx : Ctx w) (node : NodeRef) (atime mtime : Option Timespec) :
    Except Errno Unit × Ctx w :=
  if (atime.any fun ts => !validTsSec ts.sec) ∨ (mtime.any fun ts => !validTsSec ts.sec) then
    (.error .inval, ctx)
  else
    (.ok (), { ctx with json := storeTimes ctx.json node atime mtime
                        dirty := if ctx.dirty = .none then .metadata else ctx.dirty })

/-- The checks that `bookmark_set()` makes on the new value of an attribute, and what it does
before the value is stored; `none` when the value is to be stored. -/
def setPrepare (ctx : Ctx w) (id : ℕ) (e : EntryRef) (key : Key) (val : Bytes) :
    Except Fault (Option (Except Errno Unit) × Ctx w) := do
  match key with
  | .dateAdded =>
    -- `MAX_TIME_STR_LEN`
    if 19 < val.length then .ok (some (.error .inval), ctx)
    else if (parseTs val).isNone then .ok (some (.error .inval), ctx)
    else .ok (none, ctx)
  | .guid =>
    let some guid := parseGuid val | return (some (.error .inval), ctx)
    match ← lookupGuid tb ctx guid with
    | some (found, _) =>
      -- Must not overwrite existing entry.
      .ok (some (if (ctx.ents found).id = id then .ok () else .error .perm), ctx)
    | none =>
      let ctx ← updateGuid tb ctx e (-1) guid (tb.digest guid)
      .ok (none, ctx)
  | .name =>
    if (0 : UInt8) ∈ val then .ok (some (.error .inval), ctx)
    -- The new value is not valid UTF-8 and cannot fit in JSON.
    else if validUtf8 val = false then .ok (some (.error .inval), ctx)
    else .ok (none, ctx)
  | _ => .ok (none, ctx)

/-- `bookmark_set()` on a value -/
def setValue (ctx : Ctx w) (now : Timespec) (id : ℕ) (e : EntryRef) (xattr : Option XattrName)
    (val : Bytes) : Except Fault (Except Errno Unit × Ctx w) := do
  let node := (ctx.ents e).node
  let some key := xattrKey xattr ctx.flags | return (.error .noattr, ctx)
  if ctx.json.get node key = none then
    return (.error (if xattr = none then .io else .isdir), ctx)
  let (reply, ctx) ← setPrepare tb ctx id e key val
  if let some reply := reply then return (reply, ctx)
  let json := setString ctx.json node key val
  let json := if xattr ≠ none ∧ ctx.flags.ctime then nodeMtimeNow json node now else json
  .ok (.ok (), { ctx with json := json, dirty := .data })

/-- `bookmark_set()` -/
def bookmarkSet (ctx : Ctx w) (env : Env) (id : ℕ) (arg : SetArg) :
    Except Fault (Except Errno Unit × Ctx w) := do
  if id = rootId then return (.error .perm, ctx)
  let (status, ctx) ← storeLoad tb ctx env
  if let some err := status then return (.error err, ctx)
  let some e ← lookupId tb ctx id | return (.error .stale, ctx)
  if (ctx.ents e).name = none then return (.error .stale, ctx)
  if (ctx.ents e).parentId = rootId then return (.error .perm, ctx)
  match arg with
  | .times atime mtime => .ok (setTimes ctx (ctx.ents e).node atime mtime)
  | .value xattr val => setValue tb ctx env.now id e xattr val

end Set

end BookmarkFS.Chromium
