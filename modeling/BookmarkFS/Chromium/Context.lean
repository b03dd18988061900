import BookmarkFS.Chromium.Json
import BookmarkFS.Chromium.Uuid

/-! # The backend context: entries, maps and lookups

Node entries are cells of their own, since the maps hold pointers to them whose
hash inputs change in place. The hash function of the library, and the two
calls that modify a table, are parameters, so that the same operations can be
run on tables that check what they are asked to do.
-/
namespace BookmarkFS.Chromium
open Library Hopscotch

/-- Negated `errno` values; a plain -1 is `perm`, as its value says. -/
inductive Errno where
  | perm
  | noent
  | io
  | nxio
  | exist
  | notdir
  | isdir
  | inval
  | notempty
  | stale
  | again
  | noattr
  | nospc
  deriving DecidableEq

abbrev EntryRef := ℕ

structure NodeEntry where
  id : ℕ
  parentId : ℕ
  guid : Bytes
  name : Option Bytes
  node : NodeRef
  children : Option Value

abbrev Entries := EntryRef → NodeEntry

/-- `XXH3_64bits_withSeed()`, and the calls that modify a hashmap. -/
structure Tables (w : WordSize) where
  digest : Bytes → Word w
  insert : (EntryRef → Word w) → Hashmap w EntryRef → Word w → EntryRef →
    Except Fault (Hashmap w EntryRef)
  remove : (EntryRef → Word w) → Hashmap w EntryRef → EntryRef → ℤ →
    Except Fault (Hashmap w EntryRef)

variable {w : WordSize}

/-- The tables of hashmap.c. -/
def Tables.real (digest : Bytes → Word w) : Tables w where
  digest := digest
  insert := hashmapInsert
  remove entryHash map entry id := hashmapUpdate entryHash map entry none id

/-! ## Numbers, identifiers and time stamps -/

/-- `BOOKMARKFS_MAX_ID` -/
def maxBookmarkId : ℕ := 2 ^ 61 - 1

/-- `BOOKMARKS_ROOT_ID` -/
def rootId : ℕ := 0

/-- `parse_id()` -/
def parseId (json : Json) (node : NodeRef) : Option ℕ :=
  let idNode := json.get node .id
  if jsonStringLength idNode = 0 then none
  else
    let (idVal, rest) := strtoull ((jsonStringValue idNode).getD [])
    if rest ≠ [] then none
    else if idVal > maxBookmarkId then none
    else some idVal

/-- `parse_guid()` -/
def parseGuid (str : Bytes) : Option Bytes :=
  if str.length ≠ uuidHexLen then none else uuidHex2bin str

structure Timespec where
  sec : ℤ
  nsec : ℤ
  deriving DecidableEq

/-- `TIMESPEC_SEC_MAX` -/
def timespecSecMax : ℤ := 9211727563253

/-- `valid_ts_sec()` -/
def validTsSec (sec : ℤ) : Bool := 0 ≤ sec && sec ≤ timespecSecMax

/-- What the real-time clock can show. -/
structure Timespec.Valid (ts : Timespec) : Prop where
  sec : validTsSec ts.sec = true
  nsec_nonneg : 0 ≤ ts.nsec
  nsec_lt : ts.nsec < 1000000000

def epochDiff : ℤ := 11644473600

/-- The digits that `build_tsnode()` puts into a node. -/
def buildTsnode (ts : Timespec) : Bytes :=
  decimal ((ts.sec + epochDiff) * 1000000 + ts.nsec / 1000).toNat

/-- `parse_ts()` on a 64-bit `time_t` -/
def parseTs (str : Bytes) : Option Timespec :=
  let (microsecs, rest) := strtoll str
  if rest ≠ [] ∨ microsecs < 0 ∨ microsecs = 2 ^ 63 - 1 then none
  else
    let secs := microsecs / 1000000 - epochDiff
    some ⟨max 0 secs, microsecs % 1000000 * 1000⟩

/-- `NAME_MAX` -/
def nameMax : ℕ := 255

def slash : UInt8 := 47

def dot : UInt8 := 46

inductive FilenameError where
  | badChar
  | badLen
  | dotDot
  deriving DecidableEq

/-- `validate_filename()` -/
def validateFilename (str : Bytes) : Option FilenameError :=
  if str = [dot] ∨ str = [dot, dot] then some .dotDot
  else if str.length = 0 ∨ nameMax < str.length then some .badLen
  else if slash ∈ str then some .badChar
  else none

/-! ## Hashcodes and comparisons -/

/-- The eight bytes of a `uint64_t` in memory. -/
def uint64Bytes (n : ℕ) : Bytes := (List.range 8).map fun i => UInt8.ofNat (n / 256 ^ i)

section Hash

variable (tb : Tables w) (ents : Entries)

/-- `hash_assoc()` -/
def hashAssoc (parentId : ℕ) (name : Bytes) : Word w := tb.digest (uint64Bytes parentId ++ name)

/-- `idmap_hash()` -/
def idmapHash (e : EntryRef) : Word w := tb.digest (uint64Bytes (ents e).id)

/-- `guidmap_hash()` -/
def guidmapHash (e : EntryRef) : Word w := tb.digest (ents e).guid

/-- `assocmap_hash()` -/
def assocmapHash (e : EntryRef) : Word w :=
  hashAssoc tb (ents e).parentId ((ents e).name.getD [])

/-- `idmap_comp()` -/
def idmapComp (id : ℕ) (e : EntryRef) : Bool := id = (ents e).id

/-- `guidmap_comp()` -/
def guidmapComp (guid : Bytes) (e : EntryRef) : Bool := guid = (ents e).guid

/-- `assocmap_comp()` -/
def assocmapComp (parentId : ℕ) (name : Bytes) (e : EntryRef) : Bool :=
  parentId = (ents e).parentId && some name = (ents e).name

end Hash

/-! ## The context -/

inductive DirtyLevel where
  | none
  | metadata
  | data
  deriving DecidableEq

/-- `BACKEND_FILENAME_GUID`, `BOOKMARKFS_BACKEND_CTIME` and `BOOKMARKFS_BACKEND_READONLY` -/
structure Flags where
  filenameGuid : Bool
  ctime : Bool
  readonly : Bool

structure Ctx (w : WordSize) where
  json : Json
  ents : Entries
  nextEntry : ℕ
  idMap : Hashmap w EntryRef
  guidMap : Hashmap w EntryRef
  /-- Not used if filenames are GUIDs. -/
  assocMap : Hashmap w EntryRef
  /-- The members of the object `roots`. -/
  roots : List NodeRef
  /-- Whether there is a watcher. -/
  watching : Bool
  /-- Whether there is a store. -/
  loaded : Bool
  maxId : ℕ
  dirty : DirtyLevel
  flags : Flags

section Lookup

variable (tb : Tables w) (ctx : Ctx w)

/-- `lookup_id()` -/
def lookupId (id : ℕ) : Except Fault (Option EntryRef) := do
  let found ← hashmapSearch (idmapComp ctx.ents id) ctx.idMap (tb.digest (uint64Bytes id))
  .ok (found.map Prod.fst)

structure LookupCtx (w : WordSize) where
  hashcode : Word w
  entryId : Word w
  guid : Bytes

/-- `lookup_guid()` -/
def lookupGuid (guid : Bytes) : Except Fault (Option (EntryRef × Word w)) :=
  hashmapSearch (guidmapComp ctx.ents guid) ctx.guidMap (tb.digest guid)

/-- `lookup_assoc()` -/
def lookupAssoc (parentId : ℕ) (name : Bytes) : Except Fault (Option (EntryRef × Word w)) :=
  hashmapSearch (assocmapComp ctx.ents parentId name) ctx.assocMap (hashAssoc tb parentId name)

/-- `lookup_name()`: whether it succeeds, what it stores in the lookup context, and the entry. -/
def lookupName (parentId : ℕ) (name : Bytes) :
    Except Fault (Bool × LookupCtx w × Option EntryRef) :=
  if ctx.flags.filenameGuid then
    match parseGuid name with
    | none => .ok (false, ⟨0, 0, []⟩, none)
    | some guid => do
      match ← lookupGuid tb ctx guid with
      | none => .ok (false, ⟨tb.digest guid, 0, guid⟩, none)
      | some (e, id) =>
        -- An entry with the same GUID may be found in another directory.
        .ok (decide ((ctx.ents e).parentId = parentId), ⟨tb.digest guid, id, guid⟩, some e)
  else do
    match ← lookupAssoc tb ctx parentId name with
    | none => .ok (false, ⟨hashAssoc tb parentId name, 0, []⟩, none)
    | some (e, id) => .ok (true, ⟨hashAssoc tb parentId name, id, []⟩, some e)

end Lookup

/-- `struct bookmarkfs_bookmark_stat` -/
structure Stat where
  id : ℕ
  /-- `none` stands for -1. -/
  valueLen : Option ℕ
  atime : Timespec
  mtime : Timespec
  deriving DecidableEq

/-- `parse_stats()`, which leaves the `id` of the buffer alone. -/
def parseStats (json : Json) (entry : NodeEntry) (id : ℕ) : Option Stat := do
  let atime ← jsonStringValue (json.get entry.node .dateLastUsed)
  let atime ← parseTs atime
  -- If the bookmark has not been modified, this field does not exist.
  let mtimeNode := (json.get entry.node .dateModified).or (json.get entry.node .dateAdded)
  let mtime ← jsonStringValue mtimeNode
  let mtime ← parseTs mtime
  let valueLen := match entry.children with
    | none => some (jsonStringLength (json.get entry.node .url))
    | some _ => none
  some ⟨id, valueLen, atime, mtime⟩

end BookmarkFS.Chromium
