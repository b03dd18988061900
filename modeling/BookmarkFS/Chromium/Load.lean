import BookmarkFS.Chromium.Context

/-! # Loading the store and building the maps

The store is read by a parser that is not part of the backend, so a file is
what that parser makes of it. `iter_node()` walks a root in preorder, the depth
of its explicit stack being bounded; here the stack is that of the recursion.
-/
namespace BookmarkFS.Chromium
open Library Hopscotch

variable {w : WordSize}

/-- The parsed contents of a store file. -/
structure Document where
  json : Json
  checksum : Bool
  version : ℤ
  /-- The members of `roots`, or `none` if there is none. -/
  roots : Option (List NodeRef)

/-- Results of `watcher_poll()`. -/
inductive Poll where
  | unchanged
  | changed
  | noEntry
  | failed
  deriving DecidableEq

/-- What a call finds outside of the context. The clock does not move during a call. -/
structure Env where
  initWatcher : Bool
  poll : Poll
  file : Option Document
  now : Timespec
  uuid : Bytes

section Maps

variable (tb : Tables w)

/-- The last part of `maps_iter_cb()`: the entry becomes visible under its name, unless the name
is not a valid filename, or taken, or the parent is not visible either. -/
def mapsIterName (ctx : Ctx w) (parent e : EntryRef) (name : Bytes) : Except Fault (Ctx w) :=
  let parentEntry := ctx.ents parent
  -- Do not check for name duplicates if using GUID as filename.
  if ctx.flags.filenameGuid then .ok ctx
  else if parentEntry.name = none ∧ parentEntry.id ≠ rootId then .ok ctx
  else if validateFilename name ≠ none then .ok ctx
  else do
    match ← lookupAssoc tb ctx parentEntry.id name with
    | some _ => .ok ctx
    | none =>
      let ents := Function.update ctx.ents e { ctx.ents e with name := some name }
      let assocMap ← tb.insert (assocmapHash tb ents) ctx.assocMap
        (hashAssoc tb parentEntry.id name) e
      .ok { ctx with ents := ents, assocMap := assocMap }

/-- `maps_iter_cb()`; the result is the entry of the node, or `none` for a failure. -/
def mapsIterCb (ctx : Ctx w) (node : NodeRef) (children : Option Value) (parent : EntryRef) :
    Except Fault (Option (EntryRef × Ctx w)) := do
  let some id := parseId ctx.json node | .ok none
  if (← lookupId tb ctx id).isSome then return none
  let some guid := parseGuid ((jsonStringValue (ctx.json.get node .guid)).getD []) | .ok none
  if (← lookupGuid tb ctx guid).isSome then return none
  let some name := jsonStringValue (ctx.json.get node .name) | .ok none
  let parentEntry := ctx.ents parent
  let e := ctx.nextEntry
  let entry : NodeEntry :=
    { id := id, parentId := parentEntry.id, guid := guid, name := none, node := node,
      children := children }
  let ents := Function.update ctx.ents e entry
  let idMap ← tb.insert (idmapHash tb ents) ctx.idMap (tb.digest (uint64Bytes id)) e
  let guidMap ← tb.insert (guidmapHash tb ents) ctx.guidMap (tb.digest guid) e
  let json := if parentEntry.id = rootId then
      match parentEntry.children with
      | none => ctx.json
      | some siblings => ctx.json.arrayAppend siblings node
    else ctx.json
  let ctx := { ctx with json := json, ents := ents, nextEntry := e + 1, idMap := idMap,
                        guidMap := guidMap, maxId := max ctx.maxId id }
  let ctx ← mapsIterName tb ctx parent e name
  .ok (some (e, ctx))

/-- The nodes of an array one after the other. -/
def iterList (visit : Ctx w → NodeRef → EntryRef → Except Fault (Option (Ctx w))) :
    Ctx w → List NodeRef → EntryRef → Except Fault (Option (Ctx w))
  | ctx, [], _ => .ok (some ctx)
  | ctx, node :: nodes, parent => do
    let some ctx ← visit ctx node parent | .ok none
    iterList visit ctx nodes parent

/-- `iter_node()` with `maps_iter_cb()`; `none` also if the directory is too deeply nested. -/
def iterNode : ℕ → Ctx w → NodeRef → EntryRef → Except Fault (Option (Ctx w))
  | depth, ctx, node, parent => do
    let children := ctx.json.get node .children
    let some (e, ctx) ← mapsIterCb tb ctx node children parent | .ok none
    match children with
    | none => .ok (some ctx)
    | some children =>
      match depth with
      | 0 => .ok none
      | depth + 1 => iterList (iterNode depth) ctx (ctx.json.elems children) e

/-- `MAX_NODE_ITER_DEPTH` -/
def maxNodeIterDepth : ℕ := 128

/-- `iter_roots()` with `maps_iter_cb()` -/
def iterRoots (ctx : Ctx w) (roots : List NodeRef) (parent : EntryRef) :
    Except Fault (Option (Ctx w)) :=
  if roots = [] then .ok none else iterList (iterNode tb (maxNodeIterDepth - 1)) ctx roots parent

/-- `bookmarks::kRootNodeUuid` -/
def rootGuid : Bytes :=
  [0x25, 0x09, 0xa7, 0xdc, 0x21, 0x5d, 0x52, 0xf7, 0xa4, 0x29, 0x8d, 0x80, 0x43, 0x1c, 0x6c, 0x75]

def rootEntry : EntryRef := 0

/-- The node of the mountpoint, which is no part of the store. -/
def makeFakeRoot (json : Json) : NodeRef × Value × Json :=
  let (root, json) := json.newObject
  let (children, json) := json.newArray
  let json := json.set root .children children
  let json := json.set root .dateAdded (.string (decimal 0))
  let json := json.set root .dateLastUsed (.string (decimal 0))
  let json := json.set root .dateModified (.string (decimal 0))
  (root, children, json)

/-- `build_maps()` on the store just loaded; `none` for a failure. -/
def buildMaps (ctx : Ctx w) (json : Json) (roots : List NodeRef) :
    Except Fault (Option (Ctx w)) := do
  let (root, children, json) := makeFakeRoot json
  let entry : NodeEntry :=
    { id := rootId, parentId := rootId, guid := rootGuid, name := some [], node := root,
      children := some children }
  let ents : Entries := fun _ => entry
  let idMap ← tb.insert (idmapHash tb ents) hashmapCreate (tb.digest (uint64Bytes rootId)) rootEntry
  let guidMap ← tb.insert (guidmapHash tb ents) hashmapCreate (tb.digest rootGuid) rootEntry
  let ctx := { ctx with json := json, ents := ents, nextEntry := 1, idMap := idMap,
                        guidMap := guidMap, assocMap := hashmapCreate, roots := roots, maxId := 0 }
  iterRoots tb ctx roots rootEntry

/-- The part of `store_load()` at `do_load`. -/
def doLoad (ctx : Ctx w) (file : Option Document) : Except Fault (Option Errno × Ctx w) := do
  let some doc := file | .ok (some .perm, ctx)
  if doc.checksum = false then .ok (some .perm, ctx)
  else if doc.version ≠ 1 then .ok (some .perm, ctx)
  else
    let some roots := doc.roots | .ok (some .perm, ctx)
    let some new ← buildMaps tb ctx doc.json roots | .ok (some .perm, ctx)
    let dirty := if ctx.flags.readonly then ctx.dirty else .none
    .ok (none, { new with loaded := true, dirty := dirty })

/-- `store_load()`; `none` stands for 0. -/
def storeLoad (ctx : Ctx w) (env : Env) : Except Fault (Option Errno × Ctx w) :=
  if ctx.watching = false then
    if env.initWatcher = false then .ok (some .io, ctx)
    else doLoad tb { ctx with watching := true } env.file
  -- Prioritize client-side modification to the store.
  else if ctx.dirty ≠ .none then .ok (none, ctx)
  else match env.poll with
    | .unchanged => if ctx.loaded then .ok (none, ctx) else doLoad tb ctx env.file
    | .changed => doLoad tb { ctx with loaded := false } env.file
    | .noEntry => .ok (some .nxio, ctx)
    | .failed => .ok (some .io, ctx)

end Maps

end BookmarkFS.Chromium
