import BookmarkFS.Chromium.Accepting
import BookmarkFS.Chromium.Failures

/-! # GUIDs given as filenames

A new file is to be refused unless its name is a GUID that no other file has. A name
that is no GUID at all is looked up without a result, as if it were free: the node
gets it as its GUID, and the entry one that is undefined. A rename stores the new
GUID in the entry, and the new name in the node, but leaves the GUID of the node.
-/
namespace BookmarkFS.Chromium
open Library Hopscotch

variable {w : WordSize} {tb : Tables w} {ctx ctx' : Ctx w} {env : Env} {S : Finset EntryRef}

/-- The entries without the names that they have in the filesystem. -/
def unnamed (ents : Entries) : Entries := fun e =>
  { ents e with name := if e = rootEntry then (ents e).name else none }

def Ctx.unnamed (ctx : Ctx w) : Ctx w := { ctx with ents := Chromium.unnamed ctx.ents }

/-- A store with GUIDs as filenames, all of them visible. -/
structure Ctx.GuidVisible (tb : Tables w) (ctx : Ctx w) (S : Finset EntryRef) : Prop where
  mode : ctx.flags.filenameGuid = true
  inv : Inv tb ctx.unnamed S
  visible : ∀ e ∈ S, (ctx.ents e).name ≠ none
  guid_inj : ∀ e ∈ S, ∀ e' ∈ S, (ctx.ents e).guid = (ctx.ents e').guid → e = e'
  root_guid : (ctx.ents rootEntry).guid = rootGuid
  roots : ctx.roots ≠ []

/-- A GUID in the 8-4-4-4-12 format, with all letters in lowercase. -/
def IsGuid (name : Bytes) : Prop := ∃ guid : Bytes, guid.length = uuidLen ∧ name = uuidBin2hex guid

/-- The key of an entry is the GUID of its node. -/
def Ctx.Keyed (ctx : Ctx w) (e : EntryRef) : Prop :=
  parseGuid ((jsonStringValue (ctx.json.get (ctx.ents e).node .guid)).getD []) =
    some (ctx.ents e).guid

/-- What the parser makes of a store that has been saved. -/
def Saver.file (utf16 : Bytes → Option Bytes) (md5 : Bytes → Bytes) (s : Saver w) : Document where
  json := s.ctx.json
  checksum := chksumRoot utf16 md5 s.ctx.json s.ctx.roots = some s.sum
  version := 1
  roots := some s.ctx.roots

/-- The parser does not take a string with a null character. -/
def Json.NulFree (json : Json) (roots : List NodeRef) : Prop :=
  ∀ n, Reaches json roots n → ∀ k s, json.get n k = some (.string s) → (0 : UInt8) ∉ s

/-- Whatever `store_save()` writes, `store_load()` accepts. The member `checksum` is right unless
the data has changed. -/
def Ctx.Reloads (tb : Tables w) (utf16 : Bytes → Option Bytes) (md5 : Bytes → Bytes)
    (ctx : Ctx w) : Prop :=
  ∀ sum, (ctx.dirty ≠ .data → chksumRoot utf16 md5 ctx.json ctx.roots = some sum) →
    ∀ s, storeSave utf16 md5 ⟨ctx, sum⟩ true = (true, s) → s.ctx.json.NulFree s.ctx.roots ∧
      ∀ base : Ctx w, Yields Fault.Abort (doLoad tb base (some (s.file utf16 md5))) fun r =>
      r.1 = none

/-- What is asked of a call that gives a name to an entry. -/
structure Ctx.GuidChecked (tb : Tables w) (utf16 : Bytes → Option Bytes) (md5 : Bytes → Bytes)
    (ctx : Ctx w) (S : Finset EntryRef) (parentId : ℕ) (name : Bytes) (e : EntryRef)
    (status : Option Errno) (ctx' : Ctx w) :
    Prop where
  refused : (¬IsGuid name ∨ ∃ x ∈ S, parseGuid name = some (ctx.ents x).guid ∧
    (ctx.ents x).parentId ≠ parentId) →
    status = some .perm ∧ ctx.Untouched ctx'
  made : status = none → ctx'.guidMap.Contains e ∧ ctx'.Keyed e ∧ ctx'.Reloads tb utf16 md5

def errorOf {α : Type} : Except Errno α → Option Errno
  | .error err => some err
  | .ok _ => none

/-! ## Names -/

theorem parseGuid_ascii {s guid : Bytes} (h : parseGuid s = some guid) :
    ∀ c ∈ s, c.toNat < 0x80 := by
  obtain ⟨hlen, rfl⟩ := parseGuid_eq_some.mp h
  exact (isUuidText_bin2hex hlen).ascii

theorem parseGuid_utf8 {s guid : Bytes} (h : parseGuid s = some guid) : validUtf8 s = true :=
  validUtf8_of_ascii (parseGuid_ascii h)

theorem parseGuid_ne_nil {s guid : Bytes} (h : parseGuid s = some guid) : guid ≠ [] := by
  obtain ⟨hlen, -⟩ := parseGuid_eq_some.mp h
  rintro rfl
  cases hlen

theorem IsGuid.parse {name : Bytes} (h : IsGuid name) :
    ∃ guid, guid.length = uuidLen ∧ name = uuidBin2hex guid ∧ parseGuid name = some guid := by
  obtain ⟨guid, hlen, rfl⟩ := h
  exact ⟨guid, hlen, rfl, parseGuid_uuidBin2hex hlen⟩

theorem IsGuid.of_parse {name guid : Bytes} (h : parseGuid name = some guid) : IsGuid name :=
  ⟨guid, (parseGuid_eq_some.mp h).1, (parseGuid_eq_some.mp h).2.symm⟩

/-! ## What has been saved -/

/-- What a successful `store_save()` leaves has the right checksum. -/
theorem storeSave_sum {utf16 : Bytes → Option Bytes} {md5 : Bytes → Bytes} {sum : Bytes}
    {s : Saver w} (hsum : ctx.dirty ≠ .data → chksumRoot utf16 md5 ctx.json ctx.roots = some sum)
    (h : storeSave utf16 md5 ⟨ctx, sum⟩ true = (true, s)) :
    s.ctx.json = ctx.json ∧ s.ctx.roots = ctx.roots ∧ chksumRoot utf16 md5 ctx.json ctx.roots =
    some s.sum := by
  rw [storeSave] at h
  dsimp only at h
  by_cases hdirty : ctx.dirty = .none
  · rw [if_pos hdirty] at h
    cases h
    exact ⟨rfl, rfl, hsum (by rw [hdirty]; decide)⟩
  rw [if_neg hdirty] at h
  by_cases hdata : ctx.dirty = .data
  · rw [if_pos hdata] at h
    cases hchksum : chksumRoot utf16 md5 ctx.json ctx.roots with
    | none => rw [hchksum] at h; cases h
    | some sum' =>
      rw [hchksum] at h
      cases h
      exact ⟨rfl, rfl, rfl⟩
  · rw [if_neg hdata] at h
    cases h
    exact ⟨rfl, rfl, hsum hdata⟩

theorem Inv.reloads {ctx₀ : Ctx w} (I : Inv tb ctx₀ S) (hf : tb.Faithful)
    (utf16 : Bytes → Option Bytes) (md5 : Bytes → Bytes)
    (hguid : ∀ e ∈ S, ∀ e' ∈ S, (ctx₀.ents e).guid = (ctx₀.ents e').guid → e = e')
    (hrootguid : (ctx₀.ents rootEntry).guid = rootGuid) (hjson : ctx.json = ctx₀.json)
    (hroots : ctx.roots = ctx₀.roots) (hempty : ctx.roots ≠ []) (hnul : ctx.json.NulFree ctx.roots)
    : ctx.Reloads tb utf16 md5 := by
  intro sum hsum s hsave
  obtain ⟨hsjson, hsroots, hchksum⟩ := storeSave_sum hsum hsave
  refine ⟨by rwa [hsjson, hsroots], fun base => ?_⟩
  have hfile : s.file utf16 md5 = ⟨ctx₀.json, true, 1, some ctx₀.roots⟩ := by
    rw [Saver.file, hsjson, hsroots, hchksum, hjson, hroots]
    simp
  rw [hfile]
  rw [hjson, hroots] at hchksum
  exact doLoad_accepts hf I.separate (I.loadable hguid hrootguid (hroots ▸ hempty) fun d n hn hc =>
    chksumRoot_shallow hchksum hn hc) base

/-! ## Lookups -/

namespace Ctx.GuidVisible

variable (G : ctx.GuidVisible tb S)

include G

theorem lookupId (id : ℕ) :
    ∃ r, Chromium.lookupId tb ctx id = .ok r ∧ ∀ e, r = some e ↔ e ∈ S ∧ (ctx.ents e).id = id :=
  lookupId_spec G.inv.indexed.id G.inv.forest.id_inj id

theorem lookupId_of_mem {e : EntryRef} (he : e ∈ S) : Chromium.lookupId tb ctx (ctx.ents e).id =
    .ok (some e) := by
  obtain ⟨r, hrun, hlook⟩ := G.lookupId (ctx.ents e).id
  rw [hrun, (hlook e).mpr ⟨he, rfl⟩]

theorem id_ne_root {e : EntryRef} (he : e ∈ S) (hroot : e ≠ rootEntry) : (ctx.ents e).id ≠ rootId :=
  fun h => hroot ((G.inv.id_eq_root he).mp h)

theorem lookupName_invalid (parentId : ℕ) {name : Bytes} (h : parseGuid name = none) :
    lookupName tb ctx parentId name = .ok (false, ⟨0, 0, []⟩, none) := by
  rw [lookupName, if_pos G.mode, h]

theorem lookupName_free (parentId : ℕ) {name guid : Bytes} (h : parseGuid name = some guid)
    (hfree : ∀ e ∈ S, (ctx.ents e).guid ≠ guid) :
    lookupName tb ctx parentId name = .ok (false, ⟨tb.digest guid, 0, guid⟩, none) := by
  obtain ⟨r, hrun, hfound, -⟩ := lookupGuid_spec G.inv.indexed.guid guid
  obtain rfl : r = none := by
    cases r with
    | none => rfl
    | some q => exact absurd (hfound q.1 q.2 rfl).2.1 (hfree q.1 (hfound q.1 q.2 rfl).1)
  replace hrun : lookupGuid tb ctx guid = .ok none := hrun
  rw [lookupName, if_pos G.mode, h]
  simp only [hrun, ok_bind]

theorem lookupName_taken (parentId : ℕ) {name : Bytes} {e : EntryRef} (he : e ∈ S)
    (h : parseGuid name = some (ctx.ents e).guid) :
    ∃ id, lookupName tb ctx parentId name = .ok (decide ((ctx.ents e).parentId = parentId),
      ⟨tb.digest (ctx.ents e).guid, id, (ctx.ents e).guid⟩, some e) := by
  obtain ⟨r, hrun, hfound, hnone⟩ := lookupGuid_spec G.inv.indexed.guid (ctx.ents e).guid
  cases r with
  | none => exact absurd rfl (hnone rfl e he)
  | some q =>
    obtain ⟨hq, hqguid, -⟩ := hfound q.1 q.2 rfl
    obtain rfl := G.guid_inj q.1 hq e he hqguid
    replace hrun : lookupGuid tb ctx (ctx.ents q.1).guid = .ok (some q) := hrun
    refine ⟨q.2, ?_⟩
    rw [lookupName, if_pos G.mode, h]
    simp only [hrun, ok_bind]

theorem keyed {e : EntryRef} (he : e ∈ S) (hroot : e ≠ rootEntry) : ctx.Keyed e :=
  (G.inv.forest.describes e he hroot).guid

theorem reloads (hf : tb.Faithful) (utf16 : Bytes → Option Bytes) (md5 : Bytes → Bytes)
    (hnul : ctx.json.NulFree ctx.roots) : ctx.Reloads tb utf16 md5 :=
  G.inv.reloads hf utf16 md5 G.guid_inj G.root_guid rfl rfl G.roots hnul

end Ctx.GuidVisible

/-! ## Creating a bookmark -/

section Create

variable {p : EntryRef} {siblings : Value} {name : CString} {isDir : Bool}

/-- What `bookmark_create()` does once it has found the directory, and the name is not found. -/
def createFree (tb : Tables w) (ctx : Ctx w) (env : Env) (p : EntryRef) (siblings : Value) (name : CString)
    (isDir : Bool) (lctx : LookupCtx w) : Except Fault (Except Errno Stat × Ctx w) := do
  let (built, ctx') ← buildNode tb { ctx with json := ctx.json.newObject.2 } env ctx.json.nextNode name isDir
  match built with
  | .error err => .ok (.error err, ctx')
  | .ok bctx => addNode tb ctx' env.now (ctx.ents p).id p siblings ctx.json.nextNode name isDir lctx bctx

namespace Ctx.GuidVisible

variable (G : ctx.GuidVisible tb S) (hload : storeLoad tb ctx env = .ok (none, ctx)) (hp : p ∈ S)
  (hroot : p ≠ rootEntry) (hchildren : (ctx.ents p).children = some siblings)

include G hload hp hroot hchildren

theorem create_free (isDir : Bool) {lctx : LookupCtx w}
    (hname : lookupName tb ctx (ctx.ents p).id name = .ok (false, lctx, none)) :
    bookmarkCreate tb ctx env (ctx.ents p).id name isDir = createFree tb ctx env p siblings name
    isDir lctx := by
  rw [bookmarkCreate, if_neg (G.id_ne_root hp hroot)]
  simp only [hload, ok_bind, G.lookupId_of_mem hp, if_neg (G.visible p hp), hchildren,
    hname, createFree,
    Bool.false_eq_true, if_false, Option.isSome_none]
  rfl

theorem create_taken (isDir : Bool) {lctx : LookupCtx w} {e : EntryRef}
    (hname : lookupName tb ctx (ctx.ents p).id name = .ok (true, lctx, some e)) :
    ∃ err, bookmarkCreate tb ctx env (ctx.ents p).id name isDir = .ok (.error err, ctx) ∧
    err ≠ .perm := by
  rw [bookmarkCreate, if_neg (G.id_ne_root hp hroot)]
  simp only [hload, ok_bind, G.lookupId_of_mem hp, if_neg (G.visible p hp), hchildren,
    hname, if_true]
  cases parseId ctx.json (ctx.ents e).node with
  | none => exact ⟨.io, rfl, by decide⟩
  | some id =>
    dsimp only
    split_ifs
    · exact ⟨.io, rfl, by decide⟩
    · exact ⟨.exist, rfl, by decide⟩

theorem create_elsewhere (isDir : Bool) {lctx : LookupCtx w} {e : EntryRef}
    (hname : lookupName tb ctx (ctx.ents p).id name = .ok (false, lctx, some e)) :
    bookmarkCreate tb ctx env (ctx.ents p).id name isDir = .ok (.error .perm, ctx) := by
  rw [bookmarkCreate, if_neg (G.id_ne_root hp hroot)]
  simp only [hload, ok_bind, G.lookupId_of_mem hp, if_neg (G.visible p hp), hchildren, hname]
  rfl

end Ctx.GuidVisible

theorem addNode_ok (ctx : Ctx w) (now : Timespec) (parentId : ℕ) (p : EntryRef) (siblings : Value) (n : NodeRef)
    (name : CString) (isDir : Bool) (lctx : LookupCtx w) (bctx : BuildCtx w) :
    Yields (fun _ => True) (addNode tb ctx now parentId p siblings n name isDir lctx bctx) fun r =>
      r.1 = .ok bctx.stat := by
  rw [addNode]
  refine (Yields.any _).bind fun idMap _ => ?_
  by_cases hguid : ctx.flags.filenameGuid = true
  · simp only [hguid, if_true, ok_bind]
    exact (Yields.any _).bind fun guidMap _ => rfl
  · simp only [hguid]
    exact (Yields.any _).bind fun assocMap _ => (Yields.any _).bind fun guidMap _ => rfl

theorem createFree_not_perm (ctx : Ctx w) (lctx : LookupCtx w)
    (h : validUtf8 name = true ∨ maxBookmarkId ≤ ctx.maxId) :
    Yields (fun _ => True) (createFree tb ctx env p siblings name isDir lctx) fun r => errorOf r.1 ≠ some .perm := by
  rw [createFree, buildNode]
  by_cases hmax : ctx.maxId + 1 > maxBookmarkId
  · simp only [hmax, if_true]
    exact fun h => by cases h
  have hutf8 : validUtf8 name = true := h.resolve_right fun h => hmax (by omega)
  simp only [hmax, if_false, jsonStringn, hutf8, if_true]
  by_cases hguid : ctx.flags.filenameGuid = true
  · simp only [hguid, if_true]
    exact (addNode_ok _ _ _ _ _ _ _ _ _ _).mono fun r hr => by rw [hr]; rintro ⟨⟩
  · simp only [hguid, Bool.false_eq_true, if_false]
    rw [bind_assoc]
    refine (Yields.any _).bind fun hashcode _ => ?_
    exact (addNode_ok _ _ _ _ _ _ _ _ _ _).mono fun r hr => by rw [hr]; rintro ⟨⟩

theorem createFree_perm (tb : Tables w) (env : Env) (p : EntryRef) (siblings : Value) (isDir : Bool)
    (lctx : LookupCtx w) (hutf8 : validUtf8 name = false) (hmax : ctx.maxId < maxBookmarkId) :
    ∃ ctx', createFree tb ctx env p siblings name isDir lctx = .ok (.error .perm, ctx') := by
  rw [createFree, buildNode]
  have hmax : ¬ctx.maxId + 1 > maxBookmarkId := by omega
  simp only [hmax, if_false, jsonStringn, hutf8]
  exact ⟨_, rfl⟩

theorem createFree_full (tb : Tables w) (env : Env) (p : EntryRef) (siblings : Value) (name : CString) (isDir : Bool)
    (lctx : LookupCtx w) (hmax : maxBookmarkId ≤ ctx.maxId) :
    ∃ ctx', createFree tb ctx env p siblings name isDir lctx = .ok (.error .io, ctx') := by
  rw [createFree, buildNode]
  have hmax : ctx.maxId + 1 > maxBookmarkId := by omega
  simp only [hmax, if_true]
  exact ⟨_, rfl⟩

/-- The store with a new node, the directory of which may have no array. -/
def createdJson (ctx : Ctx w) (env : Env) (p : EntryRef) (siblings : Value) (guid name : Bytes)
    (isDir : Bool) : Json :=
  nodeMtimeNow ((builtJson ctx.json isDir (ctx.maxId + 1) guid name env.now).arrayAppend siblings
    ctx.json.nextNode)
    (ctx.ents p).node env.now

/-- The context with a new node and its entry. -/
def createdCtx (ctx : Ctx w) (env : Env) (p : EntryRef) (siblings : Value) (guid name : Bytes)
    (isDir : Bool) (idMap guidMap : Hashmap w EntryRef) : Ctx w :=
  { ctx with
    json := createdJson ctx env p siblings guid name isDir
    ents := Function.update ctx.ents ctx.nextEntry
      (createdEntry ctx (ctx.ents p).id guid name isDir)
    nextEntry := ctx.nextEntry + 1, maxId := ctx.maxId + 1, idMap := idMap, guidMap :=
      guidMap, dirty := .data }

theorem createdJson_get (ctx : Ctx w) (env : Env) (p : EntryRef) (siblings : Value)
    (guid name : Bytes) (isDir : Bool) (n : NodeRef) (k : Key) :
    (createdJson ctx env p siblings guid name isDir).get n k =
      if n = (ctx.ents p).node ∧ k = .dateModified then some (.string (buildTsnode env.now))
      else if n = ctx.json.nextNode then builtObject isDir ctx.json.nextArray (ctx.maxId + 1)
      guid name env.now k
      else ctx.json.get n k := by
  rw [createdJson, nodeMtimeNow, Json.get_set, Json.arrayAppend, Json.setElems_get, builtJson_get]
  split_ifs <;> rfl

theorem builtJson_extends (json : Json) (isDir : Bool) (id : ℕ) (guid name : Bytes)
    (now : Timespec) :
    json.Extends (builtJson json isDir id guid name now) where
  get n hn k := by rw [builtJson_get, if_neg hn.ne]
  array b hb := by rw [builtJson_array, if_neg fun h => hb.ne h.2]
  nextNode := Nat.le_succ _
  nextArray := by
    simp only [builtJson]
    split_ifs <;> omega

theorem Inv.mtime (I : Inv tb ctx S) (n : NodeRef) (now : Timespec) :
    Inv tb { ctx with json := nodeMtimeNow ctx.json n now } S :=
  ⟨I.forest.set n _ (by decide), ⟨I.indexed.id, I.indexed.guid, I.indexed.assoc, I.indexed.names⟩,
    I.entry_lt,
    I.max_id, I.guid_mode, I.roots, I.shown⟩

theorem nul_not_mem_decimal (n : ℕ) : (0 : UInt8) ∉ decimal n := fun h => by
  have := isDigit_of_mem_decimal h
  revert this
  decide

/-- The strings of a new node are plain text. -/
theorem createdJson_nulFree (hnul : ctx.json.NulFree ctx.roots) {guid : Bytes}
    (hname : (name : Bytes) = uuidBin2hex guid) {roots : List NodeRef}
    (hreach : ∀ n, Reaches (createdJson ctx env p siblings guid name isDir) roots n →
      n = ctx.json.nextNode ∨ Reaches ctx.json ctx.roots n) :
    (createdJson ctx env p siblings guid name isDir).NulFree roots := by
  intro n hn k s hs
  rw [createdJson_get] at hs
  by_cases hmtime : n = (ctx.ents p).node ∧ k = .dateModified
  · rw [if_pos hmtime] at hs
    cases hs
    exact nul_not_mem_decimal _
  rw [if_neg hmtime] at hs
  by_cases hnew : n = ctx.json.nextNode
  · rw [if_pos hnew] at hs
    cases k <;> simp only [builtObject] at hs
    case id => cases hs; exact nul_not_mem_decimal _
    case guid => cases hs; exact hname ▸ name.property
    case name => cases hs; exact name.property
    case url => split_ifs at hs; cases hs; simp
    case type => split_ifs at hs <;> cases hs <;> decide
    case children => split_ifs at hs; cases hs
    case dateAdded => cases hs; exact nul_not_mem_decimal _
    case dateLastUsed => cases hs; exact nul_not_mem_decimal _
    all_goals cases hs
  · rw [if_neg hnew] at hs
    exact hnul n ((hreach n hn).resolve_left hnew) k s hs

theorem buildNode_guid (tb : Tables w) (env : Env) (isDir : Bool)
    (hmode : ctx.flags.filenameGuid = true) {guid : Bytes} (hlen : guid.length = uuidLen)
    (hname : (name : Bytes) = uuidBin2hex guid) (hmax : ctx.maxId < maxBookmarkId) :
    ∃ stat : Stat, stat.id = ctx.maxId + 1 ∧
      buildNode tb { ctx with json := ctx.json.newObject.2 } env ctx.json.nextNode name isDir =
        .ok (.ok ⟨[], 0, stat⟩, { ctx with
          json := builtJson ctx.json isDir (ctx.maxId + 1) guid name env.now, maxId :=
            ctx.maxId + 1 }) := by
  have hutf8 : validUtf8 name = true := parseGuid_utf8 (hname ▸ parseGuid_uuidBin2hex hlen)
  refine ⟨⟨ctx.maxId + 1, if isDir then none else some 0, env.now, env.now⟩, rfl, ?_⟩
  rw [buildNode]
  simp only [show ¬ctx.maxId + 1 > maxBookmarkId by omega, if_false, jsonStringn, hutf8,
    if_true, hmode]
  rw [← builtJson_eq, ← hname]

namespace Ctx.GuidVisible

variable (G : ctx.GuidVisible tb S) (hp : p ∈ S) {guid : Bytes} (hlen : guid.length = uuidLen)
  (hname : (name : Bytes) = uuidBin2hex guid) (hmax : ctx.maxId < maxBookmarkId)

include G hp hlen hmax

/-- The tree agrees with the entries again if the directory has an array. -/
theorem created_inv (env : Env) (name : CString) (isDir : Bool) (hroot : p ≠ rootEntry)
    {a : ArrayRef}
    (ha : (ctx.ents p).children = some (.array a)) {idMap guidMap : Hashmap w EntryRef}
    (Hid : Holds idMap (insert ctx.nextEntry S)
      (idmapHash tb (createdCtx ctx env p (.array a) guid name isDir idMap guidMap).ents))
    (Hguid : Holds guidMap (insert ctx.nextEntry S)
      (guidmapHash tb (createdCtx ctx env p (.array a) guid name isDir idMap guidMap).ents)) :
    Inv tb (createdCtx ctx env p (.array a) guid name isDir idMap guidMap).unnamed
    (insert ctx.nextEntry S) := by
  have I := G.inv
  have hnew : ctx.nextEntry ∉ S := I.nextEntry_not_mem
  have hnewroot : ctx.nextEntry ≠ rootEntry := fun h => hnew (h ▸ I.forest.root_mem)
  have hents : (createdCtx ctx env p (.array a) guid name isDir idMap guidMap).unnamed.ents =
      Function.update ctx.unnamed.ents ctx.unnamed.nextEntry
        { createdEntry ctx.unnamed (ctx.unnamed.ents p).id guid name isDir with name := none } := by
    funext x
    by_cases hx : x = ctx.nextEntry
    · subst hx
      simp [Ctx.unnamed, Chromium.unnamed, createdCtx, createdEntry, hnewroot]
    · simp [Ctx.unnamed, Chromium.unnamed, createdCtx, hx]
  have hother : ∀ x ∈ S,
    (createdCtx ctx env p (.array a) guid name isDir idMap guidMap).unnamed.ents x =
      ctx.unnamed.ents x := fun x hx => by
    rw [hents]
    exact update_of_mem hnew _ hx
  have hnone : ∀ x, x ≠ rootEntry →
      ((createdCtx ctx env p (.array a) guid name isDir idMap guidMap).unnamed.ents x).name =
      none := fun x hx => by
    simp [Ctx.unnamed, Chromium.unnamed, hx]
  have hnamed : ∀ T,
    named (createdCtx ctx env p (.array a) guid name isDir idMap guidMap).unnamed.ents T = ∅ := by
    intro T
    ext x
    rw [mem_named]
    simp only [Finset.notMem_empty, iff_false]
    exact fun h => h.2.2 (hnone x h.2.1)
  have hnamed₀ : named ctx.unnamed.ents S = ∅ := by
    ext x
    rw [mem_named]
    simp only [Finset.notMem_empty, iff_false]
    exact fun h => h.2.2 (by simp [Ctx.unnamed, Chromium.unnamed, h.2.1])
  have F := I.forest_created hp ha hlen hmax name isDir env.now none (fun _ h => by cases h)
  refine ⟨hents ▸ F.set _ _ (by decide), ⟨Hid, Hguid, ?_, ?_⟩, fun x hx => ?_,
    ⟨hmax, fun x hx => ?_⟩,
    fun _ x _ hx => hnone x hx, fun b hb => ?_, ?_⟩
  · rw [hnamed]
    have hassoc := I.indexed.assoc
    rw [hnamed₀] at hassoc
    exact hassoc.congr_hash (by simp)
  · rw [hnamed]
    simp
  · rcases Finset.mem_insert.mp hx with rfl | hx
    · exact Nat.lt_succ_self _
    · exact Nat.lt_succ_of_lt (I.entry_lt x hx)
  · rcases Finset.mem_insert.mp hx with rfl | hx
    · rw [hents, show ctx.unnamed.nextEntry = ctx.nextEntry from rfl, Function.update_self]
      exact le_rfl
    · rw [hother x hx]
      exact (I.max_id.2 x hx).trans (Nat.le_succ _)
  · rw [hother _ I.forest.root_mem] at hb
    refine Eq.trans ?_ (I.roots b hb)
    show (createdJson ctx env p (.array a) guid name isDir).array b = _
    rw [createdJson, nodeMtimeNow, Json.set_array]
    refine (created_array I hp ha guid name isDir env.now b).trans ?_
    rw [if_neg, if_neg]
    · exact fun h => (I.forest.array_lt _ I.forest.root_mem b hb).ne h.2
    · rintro rfl
      exact hroot (I.forest.owner p hp _ I.forest.root_mem _ ha hb)
  · rw [hnamed]
    simp

include hname

theorem createFree_made (hf : tb.Faithful) (utf16 : Bytes → Option Bytes) (md5 : Bytes → Bytes)
    (hroot : p ≠ rootEntry) (hchildren : (ctx.ents p).children = some siblings)
    (hfree : ∀ e ∈ S, (ctx.ents e).guid ≠ guid) (hnul : ctx.json.NulFree ctx.roots) :
    Yields Fault.Abort (createFree tb ctx env p siblings name isDir ⟨tb.digest guid, 0, guid⟩)
    fun r =>
      errorOf r.1 = none ∧ r.2.guidMap.Contains ctx.nextEntry ∧ r.2.Keyed ctx.nextEntry ∧
        r.2.Reloads tb utf16 md5 := by
  have I := G.inv
  have hnew : ctx.nextEntry ∉ S := I.nextEntry_not_mem
  have hnewroot : ctx.nextEntry ≠ rootEntry := fun h => hnew (h ▸ I.forest.root_mem)
  have hother : ∀ entry : NodeEntry, ∀ x ∈ S, Function.update ctx.ents ctx.nextEntry entry x =
    ctx.ents x :=
    fun entry x hx => update_of_mem hnew entry hx
  have hnode : ctx.json.nextNode ≠ (ctx.ents p).node := (I.forest.node_lt p hp).ne'
  obtain ⟨stat, hstat, hbuild⟩ :=
    buildNode_guid tb env isDir G.mode hlen hname hmax
  rw [createFree, hbuild]
  simp only [ok_bind, addNode, G.mode, if_true, hstat, Json.arrayAppend, Json.setElems_get]
  have hnode' : (if isDir = true then
    (builtJson ctx.json isDir (ctx.maxId + 1) guid name env.now).get
      ctx.json.nextNode .children else none) = if isDir then some (.array ctx.json.nextArray)
        else none := by
    rw [builtJson_get, if_pos rfl]
    cases isDir <;> rfl
  rw [hnode']
  have hids : Holds ctx.idMap S fun x => tb.digest (uint64Bytes (ctx.ents x).id) := I.indexed.id
  have hguids : Holds ctx.guidMap S fun x => tb.digest (ctx.ents x).guid := I.indexed.guid
  refine (hf.yields_file (fun entry => tb.digest (uint64Bytes entry.id)) hids hnew
    (createdEntry ctx (ctx.ents p).id guid name isDir)).bind fun idMap Hid => ?_
  refine (hf.yields_file (fun entry => tb.digest entry.guid) hguids hnew
    (createdEntry ctx (ctx.ents p).id guid name isDir)).bind fun guidMap Hguid => ?_
  rw [Function.update_idem, hother _ p hp]
  show errorOf (.ok stat) = none ∧
    (createdCtx ctx env p siblings guid name isDir idMap guidMap).guidMap.Contains ctx.nextEntry ∧
    (createdCtx ctx env p siblings guid name isDir idMap guidMap).Keyed ctx.nextEntry ∧
    (createdCtx ctx env p siblings guid name isDir idMap guidMap).Reloads tb utf16 md5
  refine ⟨rfl, (Hguid.contains_iff _).mpr (Finset.mem_insert_self _ _), ?_, ?_⟩
  · rw [Ctx.Keyed]
    simp only [createdCtx, Function.update_self, createdEntry]
    rw [createdJson_get, if_neg fun h => hnode h.1, if_pos rfl]
    exact parseGuid_uuidBin2hex hlen
  · have hguid : ∀ e ∈ insert ctx.nextEntry S, ∀ e' ∈ insert ctx.nextEntry S,
        ((createdCtx ctx env p siblings guid name isDir idMap guidMap).ents e).guid =
          ((createdCtx ctx env p siblings guid name isDir idMap guidMap).ents e').guid →
          e = e' := by
      intro e he e' he' h
      simp only [createdCtx] at h
      rcases Finset.mem_insert.mp he with rfl | heS <;> rcases Finset.mem_insert.mp he'
        with rfl | heS'
      · rfl
      · rw [Function.update_self, hother _ e' heS'] at h
        exact absurd h.symm (hfree e' heS')
      · rw [Function.update_self, hother _ e heS] at h
        exact absurd h (hfree e heS)
      · rw [hother _ e heS, hother _ e' heS'] at h
        exact G.guid_inj e heS e' heS' h
    have hrootents : (createdCtx ctx env p siblings guid name isDir idMap guidMap).ents rootEntry =
        ctx.ents rootEntry := hother _ _ I.forest.root_mem
    by_cases harray : ∃ a, siblings = .array a
    · obtain ⟨a, rfl⟩ := harray
      have I' := G.created_inv hp hlen hmax env name isDir hroot hchildren Hid Hguid
      refine I'.reloads hf utf16 md5 hguid ((congrArg NodeEntry.guid hrootents).trans G.root_guid)
        rfl rfl G.roots
        (createdJson_nulFree hnul hname fun n hn => ?_)
      obtain ⟨e, he, heroot, rfl⟩ := I'.entry_of_reaches hn
      rcases Finset.mem_insert.mp he with rfl | he
      · refine .inl ?_
        show (Function.update ctx.ents ctx.nextEntry _ ctx.nextEntry).node = _
        rw [Function.update_self]
        rfl
      · refine .inr ?_
        show Reaches ctx.json ctx.roots (Function.update ctx.ents ctx.nextEntry _ e).node
        rw [hother _ e he]
        exact I.reaches he heroot
    · -- the node is not linked
      have hjson : createdJson ctx env p siblings guid name isDir =
          nodeMtimeNow (builtJson ctx.json isDir (ctx.maxId + 1) guid name env.now)
          (ctx.ents p).node env.now := by
        rw [createdJson, Json.arrayAppend]
        cases siblings with
        | array a => exact absurd ⟨a, rfl⟩ harray
        | string _ => rfl
        | other _ => rfl
      have I' := ((I.extends (builtJson_extends ctx.json isDir (ctx.maxId + 1) guid name env.now)
        ⟨Nat.le_succ _, hmax⟩).mtime (ctx.ents p).node env.now)
      refine I'.reloads hf utf16 md5 G.guid_inj G.root_guid hjson rfl G.roots
        (createdJson_nulFree hnul hname fun n hn => ?_)
      rw [hjson] at hn
      obtain ⟨e, he, heroot, rfl⟩ := I'.entry_of_reaches hn
      exact .inr (I.reaches he heroot)

end Ctx.GuidVisible

end Create

/-! ## Renaming a bookmark -/

section Rename

variable {old p q : EntryRef} {new : Option EntryRef} {oldName newName : CString} {noreplace : Bool}

/-- The GUID of a node goes where the node goes. -/
theorem moveNode_guid (old p q : EntryRef) (new : Option EntryRef) (json : Json) (ents : Entries)
    (hguid : json.get (ents old).node .guid ≠ none) :
    Yields (fun _ => True) (moveNode json ents old p q (ents old).node new) fun r =>
      r.1.get (r.2 old).node .guid = json.get (ents old).node .guid := by
  unfold moveNode
  cases hp : (ents p).children with
  | none => exact trivial
  | some siblings =>
  refine (Yields.any _).bind fun idx _ => ?_
  cases new with
  | none =>
    simp only [Yields.ok_iff, Function.update_self, Json.arrayRemove, Json.setElems_get]
    cases (ents q).children with
    | none => rfl
    | some children => simp only [Json.arrayAppend, Json.setElems_get]
  | some new =>
    simp only [Yields.ok_iff, Function.update_self, Json.arrayRemove, Json.setElems_get]
    obtain ⟨v, hv⟩ := Option.ne_none_iff_exists'.mp hguid
    rw [hv, Json.get, Json.update]
    simp only [Function.update_self]
    rw [show json.object (ents old).node .guid = some v from hv]
    rfl

theorem dropReplaced_same (ctx : Ctx w) (entryId : Word w) :
    Yields (fun _ => True) (dropReplaced tb ctx new entryId) fun ctx' =>
      ctx'.json = ctx.json ∧ ctx'.ents = ctx.ents ∧ ctx'.flags = ctx.flags := by
  cases new with
  | none => exact ⟨rfl, rfl, rfl⟩
  | some new =>
    rw [dropReplaced, dropEntry]
    by_cases hguid : ctx.flags.filenameGuid = true
    · simp only [hguid, if_true, ok_bind]
      exact (Yields.any _).bind fun _ _ => (Yields.any _).bind fun _ _ => ⟨rfl, rfl, rfl⟩
    · simp only [hguid]
      exact (Yields.any _).bind fun _ _ => (Yields.any _).bind fun _ _ =>
        (Yields.any _).bind fun _ _ =>
        ⟨rfl, rfl, rfl⟩

theorem renameTimes_guid (ctx : Ctx w) (now : Timespec) (n m : NodeRef) :
    (renameTimes ctx now p q n).get m .guid = ctx.json.get m .guid := by
  simp only [renameTimes, nodeMtimeNow]
  split_ifs <;> simp [Json.get_set]

/-- A rename that is carried out stores the new GUID in the entry only. -/
theorem renameEntry_guid (hmode : ctx.flags.filenameGuid = true) (hne : oldName ≠ newName)
    (hguid : ctx.json.get (ctx.ents old).node .guid ≠ none) (now : Timespec)
    (oldLctx newLctx : LookupCtx w) :
    Yields (fun _ => True)
    (renameEntry tb ctx now old p q new oldName newName oldLctx newLctx) fun r =>
      (validUtf8 newName = false ∧ r = (.error .perm, ctx)) ∨
      (validUtf8 newName = true ∧ r.1 = .ok () ∧ (r.2.ents old).guid = newLctx.guid ∧
        r.2.json.get (r.2.ents old).node .guid = ctx.json.get (ctx.ents old).node .guid) := by
  rw [renameEntry, updateName, if_neg hne, jsonStringn]
  by_cases hutf8 : validUtf8 newName = true
  swap
  · simp only [hutf8]
    exact .inl ⟨by simp, rfl⟩
  simp only [hutf8, if_true, ok_bind]
  have hnode : (Function.update ctx.ents old { ctx.ents old with name := some newName } old).node =
      (ctx.ents old).node := by rw [Function.update_self]
  have hset : ∀ m, (ctx.json.set (ctx.ents old).node .name (.string newName)).get m .guid =
    ctx.json.get m .guid :=
    fun m => Json.get_set_of_key (by decide)
  have hmove : Yields (fun _ => True) (if p ≠ q then
      moveNode (ctx.json.set (ctx.ents old).node .name (.string newName))
        (Function.update ctx.ents old { ctx.ents old with name := some newName }) old p q
          (ctx.ents old).node new
      else .ok (ctx.json.set (ctx.ents old).node .name (.string newName),
        Function.update ctx.ents old { ctx.ents old with name := some newName })) fun r =>
      r.1.get (r.2 old).node .guid = ctx.json.get (ctx.ents old).node .guid := by
    split_ifs
    · have h := moveNode_guid old p q new
        (ctx.json.set (ctx.ents old).node .name (.string newName))
        (Function.update ctx.ents old { ctx.ents old with name := some newName })
        (by rwa [hnode, hset])
      rw [hnode, hset] at h
      exact h
    · rw [Yields.ok_iff, hnode, hset]
  refine hmove.bind fun r hr => ?_
  refine (dropReplaced_same _ newLctx.entryId).bind fun ctx₁ hctx₁ => ?_
  obtain ⟨hjson, hents, hflags⟩ := hctx₁
  have hflag : ctx₁.flags.filenameGuid = true := by rw [hflags]; exact hmode
  rw [refileRenamed, if_pos hflag, updateGuid]
  rw [bind_assoc]
  refine (Yields.any _).bind fun guidMap _ => ?_
  rw [bind_assoc]
  refine (Yields.any _).bind fun guidMap' _ => ?_
  refine .inr ⟨trivial, rfl, ?_, ?_⟩
  · simp
  · simp only [Function.update_self]
    rw [renameTimes_guid, hents, hjson]
    exact hr

theorem renameEntry_unkeyed (hmode : ctx.flags.filenameGuid = true) (hne : oldName ≠ newName)
    (hkeyed : ctx.Keyed old) (hutf8 : validUtf8 newName = true) {now : Timespec}
    {oldLctx newLctx : LookupCtx w}
    (hguid : newLctx.guid ≠ (ctx.ents old).guid) {r : Except Errno Unit × Ctx w}
    (hrun : renameEntry tb ctx now old p q new oldName newName oldLctx newLctx = .ok r) :
    r.1 = .ok () ∧ (r.2.ents old).guid = newLctx.guid ∧ ¬r.2.Keyed old := by
  have hmember : ctx.json.get (ctx.ents old).node .guid ≠ none := fun hnone => by
    rw [Ctx.Keyed, hnone] at hkeyed
    simp [jsonStringValue, parseGuid, uuidHexLen] at hkeyed
  obtain ⟨hinvalid, -⟩ | ⟨-, hok, hstored, hget⟩ :=
    (renameEntry_guid hmode hne hmember now oldLctx newLctx).of_ok hrun
  · rw [hutf8] at hinvalid
    cases hinvalid
  · refine ⟨hok, hstored, fun hkeyed' => ?_⟩
    rw [Ctx.Keyed, hget, hstored, hkeyed, Option.some_inj] at hkeyed'
    exact hguid hkeyed'.symm

/-- An entry is not refused for its GUID where it is found. -/
theorem checkReplaced_found {e : EntryRef} {reply : Except Errno Unit}
    (h : checkReplaced ctx noreplace true old (some e) = some reply) :
    errorOf reply ≠ some .perm ∧ (errorOf reply = none → e = old ∧ noreplace = false) := by
  rw [checkReplaced] at h
  by_cases hnoreplace : noreplace = true
  · rw [if_pos hnoreplace] at h
    cases h
    exact ⟨fun h => (by cases h), fun h => by cases h⟩
  rw [if_neg hnoreplace] at h
  by_cases hsame : e = old
  · rw [if_pos hsame] at h
    cases h
    exact ⟨fun h => (by cases h), fun _ => ⟨hsame, by simpa using hnoreplace⟩⟩
  rw [if_neg hsame] at h
  cases hnew : (ctx.ents e).children <;> cases hold : (ctx.ents old).children <;>
    simp only [hnew, hold] at h
  · cases h
  · cases h
    exact ⟨fun h => (by cases h), fun h => by cases h⟩
  · cases h
    exact ⟨fun h => (by cases h), fun h => by cases h⟩
  · split_ifs at h
    cases h
    exact ⟨fun h => (by cases h), fun h => by cases h⟩

namespace Ctx.GuidVisible

variable (G : ctx.GuidVisible tb S) (hload : storeLoad tb ctx env = .ok (none, ctx))
  (hold : old ∈ S) (holdroot : old ≠ rootEntry) (hp : p ∈ S) (hproot : p ≠ rootEntry)
  (hparent : (ctx.ents old).parentId = (ctx.ents p).id) (holdname :
    parseGuid oldName = some (ctx.ents old).guid)
  (hq : q ∈ S) (hqroot : q ≠ rootEntry) {c : Value} (hqchildren : (ctx.ents q).children = some c)

include G hload hold holdroot hp hproot hparent holdname hq hqroot hqchildren

theorem rename_eq (noreplace : Bool) {found : Bool} {lctx : LookupCtx w}
    (hname : lookupName tb ctx (ctx.ents q).id newName = .ok (found, lctx, new)) : ∃ oldLctx,
    bookmarkRename tb ctx env (ctx.ents p).id oldName (ctx.ents q).id newName noreplace =
      match checkReplaced ctx noreplace found old new with
      | some reply => .ok (reply, ctx)
      | none => renameEntry tb ctx env.now old p q new oldName newName oldLctx lctx := by
  obtain ⟨r, hr, a, ha, hrid, -⟩ := G.inv.forest.folder hold holdroot
  obtain rfl : r = p := G.inv.forest.id_inj r hr p hp (hrid.trans hparent)
  have hpchildren : (ctx.ents r).children ≠ none := by
    rw [show (ctx.ents r).children = some (.array a) from ha]
    exact Option.some_ne_none _
  obtain ⟨id, hlookup⟩ := G.lookupName_taken (ctx.ents r).id hold holdname
  have hnew : (if (ctx.ents r).id = (ctx.ents q).id then .ok (some r)
      else Chromium.lookupId tb ctx (ctx.ents q).id) = .ok (some q) := by
    by_cases hid : (ctx.ents r).id = (ctx.ents q).id
    · rw [if_pos hid, G.inv.forest.id_inj r hr q hq hid]
    · rw [if_neg hid, G.lookupId_of_mem hq]
  refine ⟨⟨tb.digest (ctx.ents old).guid, id, (ctx.ents old).guid⟩, ?_⟩
  rw [bookmarkRename, if_neg fun h => h.elim (G.id_ne_root hp hproot) (G.id_ne_root hq hqroot)]
  simp only [hload, ok_bind, G.lookupId_of_mem hp, if_neg (G.visible r hp),
    if_neg hpchildren, hlookup,
    decide_eq_true hparent, Bool.true_eq_false, if_false, hnew, if_neg (G.visible q hq),
    hqchildren, reduceCtorEq,
    hname]
  cases checkReplaced ctx noreplace found old new with
  | some reply => rfl
  | none => rfl

end Ctx.GuidVisible

end Rename

/-! ## When names are checked -/

/-- When `bookmark_create()` treats a name as it should. -/
def CreateChecks (ctx : Ctx w) (parentId : ℕ) (name : Bytes) : Prop :=
  parentId = rootId ∨ (parseGuid name = none → validUtf8 name = false ∧ ctx.maxId < maxBookmarkId)

/-- A file that is not replaced when another one is given its name. -/
def Ctx.Stays (ctx : Ctx w) (noreplace : Bool) (old x : EntryRef) : Prop :=
  noreplace = true ∨ x = old ∨ (ctx.ents x).children.isSome ≠ (ctx.ents old).children.isSome ∨
    ∃ children, (ctx.ents x).children = some children ∧ ctx.json.elems children ≠ []

/-- When `bookmark_rename()` treats a name as it should. -/
def RenameChecks (ctx : Ctx w) (S : Finset EntryRef) (old : EntryRef) (oldParentId newParentId : ℕ)
    (name : Bytes) (noreplace : Bool) : Prop :=
  oldParentId = rootId ∨ newParentId = rootId ∨
    (parseGuid name = none → validUtf8 name = false) ∧
    (parseGuid name ≠ none → ∃ x ∈ S, parseGuid name = some (ctx.ents x).guid ∧
      ((ctx.ents x).parentId ≠ newParentId ∨ IsGuid name ∧ ctx.Stays noreplace old x))

theorem stays_iff {old x : EntryRef} {noreplace : Bool} :
    ctx.Stays noreplace old x ↔ checkReplaced ctx noreplace true old (some x) ≠ none := by
  rw [Ctx.Stays, checkReplaced]
  by_cases hnoreplace : noreplace = true
  · simp [hnoreplace]
  by_cases hsame : x = old
  · simp [hnoreplace, hsame]
  cases hx : (ctx.ents x).children <;> cases hold : (ctx.ents old).children <;>
    simp [hnoreplace, hsame, Json.arraySize]

section Checks

variable {p old q : EntryRef} {siblings : Value} {name oldName newName : CString}
  {isDir noreplace : Bool} {utf16 : Bytes → Option Bytes} {md5 : Bytes → Bytes}

theorem Ctx.GuidChecked.of_perm {parentId : ℕ} {e : EntryRef} (h : ctx.Untouched ctx') :
    ctx.GuidChecked tb utf16 md5 S parentId name e (some .perm) ctx' :=
  ⟨fun _ => ⟨rfl, h⟩, nofun⟩

namespace Ctx.GuidVisible

variable (G : ctx.GuidVisible tb S) (hload : storeLoad tb ctx env = .ok (none, ctx)) (hp : p ∈ S)

include G

theorem not_elsewhere {parentId : ℕ} {name : Bytes} {e : EntryRef} (he : e ∈ S)
    (h : parseGuid name = some (ctx.ents e).guid) (hparent : (ctx.ents e).parentId = parentId) :
    ¬∃ x ∈ S, parseGuid name = some (ctx.ents x).guid ∧ (ctx.ents x).parentId ≠ parentId := by
  rintro ⟨x, hx, hxguid, hxparent⟩
  rw [h, Option.some_inj] at hxguid
  exact hxparent (G.guid_inj e he x hx hxguid ▸ hparent)

include hload hp

theorem create_checks (hf : tb.Faithful) (hchildren : (ctx.ents p).children = some siblings)
    (h : CreateChecks ctx (ctx.ents p).id name)
    (hnul : IsGuid name → (∀ x ∈ S, parseGuid name ≠ some (ctx.ents x).guid) →
      ctx.json.NulFree ctx.roots) :
    Yields Fault.Abort (bookmarkCreate tb ctx env (ctx.ents p).id name isDir) fun r =>
      ctx.GuidChecked tb utf16 md5 S (ctx.ents p).id name ctx.nextEntry (errorOf r.1) r.2 := by
  by_cases hid : (ctx.ents p).id = rootId
  · rw [bookmarkCreate, if_pos hid]
    exact Ctx.GuidChecked.of_perm (.refl ctx)
  have hroot : p ≠ rootEntry := fun h => hid ((G.inv.id_eq_root hp).mpr h)
  cases hparse : parseGuid name with
  | none =>
    obtain ⟨hutf8, hmax⟩ := h.resolve_left hid hparse
    have hrun := G.create_free hload hp hroot hchildren isDir (G.lookupName_invalid _ hparse)
    obtain ⟨ctx', hfail⟩ := createFree_perm tb env p siblings isDir ⟨0, 0, []⟩ hutf8 hmax
    rw [hfail] at hrun
    have huntouched := (bookmarkCreate_error hload _ name isDir).of_ok hrun .perm rfl
    rw [hrun]
    exact Ctx.GuidChecked.of_perm huntouched
  | some guid =>
    have hguid : IsGuid name := .of_parse hparse
    by_cases htaken : ∃ x ∈ S, (ctx.ents x).guid = guid
    · obtain ⟨x, hx, rfl⟩ := htaken
      obtain ⟨id, hname⟩ := G.lookupName_taken (ctx.ents p).id hx hparse
      by_cases hparent : (ctx.ents x).parentId = (ctx.ents p).id
      · rw [decide_eq_true hparent] at hname
        obtain ⟨err, hrun, -⟩ := G.create_taken hload hp hroot hchildren isDir hname
        rw [hrun]
        have hother := G.not_elsewhere hx hparse hparent
        exact ⟨fun h => absurd h (by
          rw [hparse] at hother ⊢
          exact not_or.mpr ⟨not_not.mpr hguid, hother⟩),
            fun h => by cases h⟩
      · rw [decide_eq_false hparent] at hname
        rw [G.create_elsewhere hload hp hroot hchildren isDir hname]
        exact Ctx.GuidChecked.of_perm (.refl ctx)
    · push Not at htaken
      have hother : ¬∃ x ∈ S, parseGuid name = some (ctx.ents x).guid ∧
          (ctx.ents x).parentId ≠ (ctx.ents p).id := by
        rintro ⟨x, hx, hxguid, -⟩
        rw [hparse, Option.some_inj] at hxguid
        exact htaken x hx hxguid.symm
      have hrefused : ∀ {P : Prop}, (¬IsGuid name ∨
        ∃ x ∈ S, parseGuid name = some (ctx.ents x).guid ∧
          (ctx.ents x).parentId ≠ (ctx.ents p).id) → P := fun h => absurd h
        (not_or.mpr ⟨not_not.mpr hguid, hother⟩)
      obtain ⟨guid', hlen, hname, hparse'⟩ := hguid.parse
      obtain rfl : guid = guid' := Option.some.inj (hparse.symm.trans hparse')
      rw [G.create_free hload hp hroot hchildren isDir (G.lookupName_free _ hparse htaken)]
      by_cases hmax : ctx.maxId < maxBookmarkId
      · refine (G.createFree_made hp hlen hname hmax hf utf16 md5 hroot hchildren htaken
          (hnul hguid fun x hx h => ?_)).mono fun r hr => ⟨hrefused, fun _ => hr.2⟩
        rw [hparse, Option.some_inj] at h
        exact htaken x hx h.symm
      · obtain ⟨ctx', hfail⟩ :=
          createFree_full tb env p siblings name isDir ⟨tb.digest guid, 0, guid⟩
          (not_lt.mp hmax)
        rw [hfail]
        exact ⟨hrefused, fun h => by cases h⟩

theorem checks_of_create (hchildren : (ctx.ents p).children = some siblings)
    {r : Except Errno Stat × Ctx w}
    (hrun : bookmarkCreate tb ctx env (ctx.ents p).id name isDir = .ok r)
    (h : ctx.GuidChecked tb utf16 md5 S (ctx.ents p).id name ctx.nextEntry (errorOf r.1) r.2) :
    CreateChecks ctx (ctx.ents p).id name := by
  by_cases hid : (ctx.ents p).id = rootId
  · exact .inl hid
  have hroot : p ≠ rootEntry := fun h => hid ((G.inv.id_eq_root hp).mpr h)
  refine .inr fun hparse => ?_
  by_contra hchecks
  have hinvalid : ¬IsGuid name := fun hguid => by
    obtain ⟨guid, -, -, hsome⟩ := hguid.parse
    rw [hparse] at hsome
    cases hsome
  rw [G.create_free hload hp hroot hchildren isDir (G.lookupName_invalid _ hparse)] at hrun
  refine (createFree_not_perm ctx _ ?_).of_ok hrun (h.refused (.inl hinvalid)).1
  by_contra hboth
  push Not at hboth
  exact hchecks ⟨by simpa using hboth.1, hboth.2⟩

variable (hold : old ∈ S) (holdroot : old ≠ rootEntry)
  (hparent : (ctx.ents old).parentId = (ctx.ents p).id)
  (holdname : parseGuid oldName = some (ctx.ents old).guid) (hq : q ∈ S)
  (hqchildren : (ctx.ents q).children = some siblings) (hne : newName ≠ oldName)

include hold holdroot hparent holdname hq hqchildren hne

theorem rename_checks (hf : tb.Faithful)
    (h : RenameChecks ctx S old (ctx.ents p).id (ctx.ents q).id newName noreplace)
    (hnul : parseGuid newName = some (ctx.ents old).guid → ctx.json.NulFree ctx.roots) :
    ∃ r, bookmarkRename tb ctx env (ctx.ents p).id oldName (ctx.ents q).id newName noreplace =
    .ok r ∧
      ctx.GuidChecked tb utf16 md5 S (ctx.ents q).id newName old (errorOf r.1) r.2 := by
  by_cases hid : (ctx.ents p).id = rootId ∨ (ctx.ents q).id = rootId
  · rw [bookmarkRename, if_pos hid]
    exact ⟨_, rfl, .of_perm (.refl ctx)⟩
  have hproot : p ≠ rootEntry := fun h => hid (.inl ((G.inv.id_eq_root hp).mpr h))
  have hqroot : q ≠ rootEntry := fun h => hid (.inr ((G.inv.id_eq_root hq).mpr h))
  rw [not_or] at hid
  obtain ⟨hinvalid, hvalid⟩ := (h.resolve_left hid.1).resolve_left hid.2
  cases hparse : parseGuid newName with
  | none =>
    obtain ⟨oldLctx, hrun⟩ := G.rename_eq hload hold holdroot hp hproot hparent holdname hq
      hqroot hqchildren noreplace (G.lookupName_invalid _ hparse)
    refine ⟨(.error .perm, ctx), hrun.trans ?_, .of_perm (.refl ctx)⟩
    simp only [checkReplaced, renameEntry, updateName, if_neg hne.symm, jsonStringn,
      hinvalid hparse]
    rfl
  | some guid =>
    obtain ⟨x, hx, hxguid, hkept⟩ := hvalid (by rw [hparse]; exact Option.some_ne_none _)
    obtain ⟨id, hname⟩ := G.lookupName_taken (ctx.ents q).id hx hxguid
    by_cases hxparent : (ctx.ents x).parentId = (ctx.ents q).id
    · rw [decide_eq_true hxparent] at hname
      obtain ⟨oldLctx, hrun⟩ := G.rename_eq hload hold holdroot hp hproot hparent holdname hq
        hqroot hqchildren noreplace hname
      obtain ⟨hguid, hstays⟩ := hkept.resolve_left (not_not.mpr hxparent)
      obtain ⟨reply, hreply⟩ := Option.ne_none_iff_exists'.mp (stays_iff.mp hstays)
      rw [hreply] at hrun
      refine ⟨_, hrun, fun h => ?_, fun h => ?_⟩
      · exact absurd h (not_or.mpr ⟨not_not.mpr hguid, G.not_elsewhere hx hxguid hxparent⟩)
      · obtain ⟨rfl, -⟩ := (checkReplaced_found hreply).2 h
        exact ⟨(G.inv.indexed.guid.contains_iff x).mpr hx, G.keyed hx holdroot,
          G.reloads hf utf16 md5 (hnul hxguid)⟩
    · rw [decide_eq_false hxparent] at hname
      obtain ⟨oldLctx, hrun⟩ := G.rename_eq hload hold holdroot hp hproot hparent holdname hq
        hqroot hqchildren noreplace hname
      exact ⟨_, hrun, .of_perm (.refl ctx)⟩

/-- A rename that takes place does not do what is asked of it. -/
theorem renamed_unchecked {found : Bool} {lctx : LookupCtx w} {new : Option EntryRef}
    {r : Except Errno Unit × Ctx w} (hproot : p ≠ rootEntry) (hqroot : q ≠ rootEntry)
    (hname : lookupName tb ctx (ctx.ents q).id newName = .ok (found, lctx, new))
    (hcheck : checkReplaced ctx noreplace found old new = none) (hutf8 : validUtf8 newName = true)
    (hlctx : lctx.guid ≠ (ctx.ents old).guid)
    (hrun : bookmarkRename tb ctx env (ctx.ents p).id oldName (ctx.ents q).id newName noreplace =
      .ok r) :
    ¬ctx.GuidChecked tb utf16 md5 S (ctx.ents q).id newName old (errorOf r.1) r.2 := by
  intro h
  obtain ⟨oldLctx, heq⟩ := G.rename_eq hload hold holdroot hp hproot hparent holdname hq
    hqroot hqchildren noreplace hname
  rw [hcheck] at heq
  rw [heq] at hrun
  obtain ⟨hok, -, hunkeyed⟩ :=
    renameEntry_unkeyed G.mode hne.symm (G.keyed hold holdroot) hutf8 hlctx hrun
  rw [hok] at h
  exact hunkeyed (h.made rfl).2.1

theorem checks_of_rename {r : Except Errno Unit × Ctx w}
    (hrun : bookmarkRename tb ctx env (ctx.ents p).id oldName (ctx.ents q).id newName noreplace =
      .ok r)
    (h : ctx.GuidChecked tb utf16 md5 S (ctx.ents q).id newName old (errorOf r.1) r.2) :
    RenameChecks ctx S old (ctx.ents p).id (ctx.ents q).id newName noreplace := by
  by_cases hpid : (ctx.ents p).id = rootId
  · exact .inl hpid
  by_cases hqid : (ctx.ents q).id = rootId
  · exact .inr (.inl hqid)
  have hproot : p ≠ rootEntry := fun h => hpid ((G.inv.id_eq_root hp).mpr h)
  have hqroot : q ≠ rootEntry := fun h => hqid ((G.inv.id_eq_root hq).mpr h)
  refine .inr (.inr ⟨fun hparse => ?_, fun hparse => ?_⟩)
  · by_contra hutf8
    exact G.renamed_unchecked hload hp hold holdroot hparent holdname hq hqchildren
      hne hproot hqroot
      (G.lookupName_invalid _ hparse) rfl (by simpa using hutf8)
        (parseGuid_ne_nil holdname).symm hrun h
  · obtain ⟨guid, hguid⟩ := Option.ne_none_iff_exists'.mp hparse
    by_cases htaken : ∃ x ∈ S, (ctx.ents x).guid = guid
    · obtain ⟨x, hx, rfl⟩ := htaken
      refine ⟨x, hx, hguid, ?_⟩
      by_contra hkept
      obtain ⟨hxparent, hkept⟩ := not_or.mp hkept
      have hxparent := not_not.mp hxparent
      obtain ⟨id, hname⟩ := G.lookupName_taken (ctx.ents q).id hx hguid
      rw [decide_eq_true hxparent] at hname
      cases hcheck : checkReplaced ctx noreplace true old (some x) with
      | none =>
        refine G.renamed_unchecked hload hp hold holdroot hparent holdname hq hqchildren
          hne hproot hqroot
          hname hcheck (parseGuid_utf8 hguid) (fun hsame => ?_) hrun h
        have hsame : x = old := G.guid_inj x hx old hold hsame
        exact stays_iff.mp (.inr (.inl hsame)) hcheck
      | some reply =>
        obtain ⟨oldLctx, heq⟩ := G.rename_eq hload hold holdroot hp hproot hparent holdname hq
          hqroot hqchildren noreplace hname
        rw [hcheck] at heq
        rw [heq] at hrun
        cases hrun
        have hstays : ctx.Stays noreplace old x :=
          stays_iff.mpr (by rw [hcheck]; exact Option.some_ne_none _)
        have hinvalid : ¬IsGuid newName := fun hvalid => hkept ⟨hvalid, hstays⟩
        exact (checkReplaced_found hcheck).1 (h.refused (.inl hinvalid)).1
    · push Not at htaken
      exact absurd h (G.renamed_unchecked hload hp hold holdroot hparent holdname hq hqchildren
        hne hproot hqroot
        (G.lookupName_free _ hguid htaken) rfl (parseGuid_utf8 hguid)
          (fun hsame => htaken old hold hsame.symm) hrun)

end Ctx.GuidVisible

end Checks

/-- In a store that need not be loaded again, the conditions are enough, and a call that does what
is asked of it has met those on the name. -/
theorem guid_names_checked (digest : Bytes → Word w) (utf16 : Bytes → Option Bytes)
    (md5 : Bytes → Bytes) (G : ctx.GuidVisible (.real digest) S)
    (hload : storeLoad (.real digest) ctx env = .ok (none, ctx)) :
    (∀ p ∈ S, ∀ siblings, (ctx.ents p).children = some siblings → ∀ (name : CString) isDir,
      (CreateChecks ctx (ctx.ents p).id name →
        (IsGuid name → (∀ x ∈ S, parseGuid name ≠ some (ctx.ents x).guid) →
          ctx.json.NulFree ctx.roots) →
        Yields Fault.Abort (bookmarkCreate (.real digest) ctx env (ctx.ents p).id name isDir)
        fun r =>
          ctx.GuidChecked (.real digest) utf16 md5 S (ctx.ents p).id name ctx.nextEntry
          (errorOf r.1) r.2) ∧
      ∀ r, bookmarkCreate (.real digest) ctx env (ctx.ents p).id name isDir = .ok r →
        ctx.GuidChecked (.real digest) utf16 md5 S (ctx.ents p).id name ctx.nextEntry
        (errorOf r.1) r.2 →
        CreateChecks ctx (ctx.ents p).id name) ∧
    ∀ old ∈ S, old ≠ rootEntry → ∀ p ∈ S, (ctx.ents old).parentId = (ctx.ents p).id →
      ∀ oldName : CString, parseGuid oldName = some (ctx.ents old).guid →
      ∀ q ∈ S, ∀ siblings, (ctx.ents q).children = some siblings →
      ∀ newName : CString, newName ≠ oldName → ∀ noreplace,
      (RenameChecks ctx S old (ctx.ents p).id (ctx.ents q).id newName noreplace →
        (parseGuid newName = some (ctx.ents old).guid → ctx.json.NulFree ctx.roots) →
        ∃ r, bookmarkRename (.real digest) ctx env (ctx.ents p).id oldName (ctx.ents q).id newName
        noreplace = .ok r ∧
          ctx.GuidChecked (.real digest) utf16 md5 S (ctx.ents q).id newName old
          (errorOf r.1) r.2) ∧
      ∀ r, bookmarkRename (.real digest) ctx env (ctx.ents p).id oldName (ctx.ents q).id newName
      noreplace = .ok r →
        ctx.GuidChecked (.real digest) utf16 md5 S (ctx.ents q).id newName old (errorOf r.1) r.2 →
        RenameChecks ctx S old (ctx.ents p).id (ctx.ents q).id newName noreplace := by
  have hf := Tables.real_faithful digest
  refine ⟨fun p hp siblings hchildren name isDir => ⟨fun h hnul => ?_, fun r hrun h => ?_⟩,
    fun old hold hroot p hp hparent oldName holdname q hq siblings hchildren newName
    hne noreplace =>
      ⟨fun h hnul => ?_, fun r hrun h => ?_⟩⟩
  · exact G.create_checks hload hp hf hchildren h hnul
  · exact G.checks_of_create hload hp hchildren hrun h
  · exact G.rename_checks hload hp hold hroot hparent holdname hq hchildren hne hf h hnul
  · exact G.checks_of_rename hload hp hold hroot hparent holdname hq hchildren hne hrun h

/-! ## A store with visible files -/

/-- The entries that a store would have if files were named after their GUIDs. -/
def Ctx.namedByGuid (ctx : Ctx w) : Ctx w := { ctx with
  ents := fun e =>
    { ctx.ents e with name := some ((ctx.ents e).name.getD (uuidBin2hex (ctx.ents e).guid)) } }

/-- Cells that hold no entry do not matter. -/
theorem Inv.congr_ents (I : Inv tb ctx S) {ents : Entries} (h : ∀ e ∈ S, ents e = ctx.ents e) :
    Inv tb { ctx with ents := ents } S where
  forest := by
    refine I.forest.congr (fun _ _ _ _ => rfl) le_rfl le_rfl (fun e he => ?_)
      (congrArg NodeEntry.name (h _ I.forest.root_mem)) (fun e he hroot => ?_) fun _ _ => rfl
    · have hsame := h e he
      exact ⟨congrArg _ hsame, congrArg _ hsame, congrArg _ hsame, congrArg _ hsame⟩
    · have D := I.forest.describes e he hroot
      rwa [← h e he] at D
  indexed := by
    have hnamed : named ents S = named ctx.ents S := named_congr fun e he => by rw [h e he]
    have hmem : ∀ e ∈ named ctx.ents S, ents e = ctx.ents e := fun e he => h e (mem_named.mp he).1
    refine ⟨I.indexed.id.congr_hash fun e he => ?_, I.indexed.guid.congr_hash fun e he => ?_, ?_,
      ?_⟩
    · show tb.digest (uint64Bytes (ctx.ents e).id) = tb.digest (uint64Bytes (ents e).id)
      rw [h e he]
    · show tb.digest (ctx.ents e).guid = tb.digest (ents e).guid
      rw [h e he]
    · dsimp only
      rw [hnamed]
      exact I.indexed.assoc.congr_hash fun e he => by rw [assocmapHash, assocmapHash, hmem e he]
    · dsimp only
      rw [hnamed]
      intro e he e' he' hparent hname
      rw [hmem e he, hmem e' he'] at hparent hname
      exact I.indexed.names e he e' he' hparent hname
  entry_lt := I.entry_lt
  max_id := ⟨I.max_id.1, fun e he => (congrArg NodeEntry.id (h e he)).trans_le (I.max_id.2 e he)⟩
  guid_mode hmode e he hroot :=
    (congrArg NodeEntry.name (h e he)).trans (I.guid_mode hmode e he hroot)
  roots a ha := I.roots a ((congrArg NodeEntry.children (h _ I.forest.root_mem)).symm.trans ha)
  shown e he p hp hid := by
    obtain ⟨heS, heroot, hename⟩ := mem_named.mp he
    dsimp only at hid hename ⊢
    rw [h e heS, h p hp] at hid
    rw [h e heS] at hename
    rw [h p hp]
    exact I.shown e (mem_named.mpr ⟨heS, heroot, hename⟩) p hp hid

theorem Inv.guidVisible (I : Inv tb ctx S) (hmode : ctx.flags.filenameGuid = true)
    (hguid : ∀ e ∈ S, ∀ e' ∈ S, (ctx.ents e).guid = (ctx.ents e').guid → e = e')
    (hroot : (ctx.ents rootEntry).guid = rootGuid) (hroots : ctx.roots ≠ []) :
    ctx.namedByGuid.GuidVisible tb S where
  mode := hmode
  inv := by
    refine I.congr_ents fun e he => ?_
    by_cases heroot : e = rootEntry
    · subst heroot
      have hname := I.forest.root_name
      simp only [Chromium.unnamed, Ctx.namedByGuid, if_true]
      rw [hname, Option.getD_some, ← hname]
    · simp only [Chromium.unnamed, Ctx.namedByGuid, if_neg heroot]
      rw [← I.guid_mode hmode e he heroot]
  visible e _ := by simp [Ctx.namedByGuid]
  guid_inj := hguid
  root_guid := hroot
  roots := hroots

def guidNine : CString := ⟨uuidBin2hex (List.replicate 15 0 ++ [9]), by decide +kernel⟩

/-- The GUIDs of a bookmark in the first folder, and of one in the second -/
def guidThree : CString := ⟨uuidBin2hex (List.replicate 15 0 ++ [3]), by decide +kernel⟩

def guidFive : CString := ⟨uuidBin2hex (List.replicate 15 0 ++ [5]), by decide +kernel⟩

theorem twoFolders_shown : ∃ (ctx : Ctx .w64) (S : Finset EntryRef), ctx.GuidVisible colliding S ∧
    storeLoad colliding ctx twoFolders = .ok (none, ctx) ∧
    (1 ∈ S ∧ (ctx.ents 1).id = 1 ∧ (ctx.ents 1).children = some (.array 0)) ∧
    (2 ∈ S ∧ (ctx.ents 2).parentId = 1 ∧ parseGuid guidThree = some (ctx.ents 2).guid) ∧
    (5 ∈ S ∧ (ctx.ents 5).parentId = 2 ∧ parseGuid guidFive = some (ctx.ents 5).guid) ∧
    Yields (fun _ => False) (bookmarkCreate colliding ctx twoFolders 1 nameA false) (fun r =>
      errorOf r.1 = none ∧ (r.2.json.get (r.2.ents ctx.nextEntry).node .guid) =
      some (.string [97])) ∧
    Yields (fun _ => False) (bookmarkRename colliding ctx twoFolders 1 guidThree 1 guidNine false)
    (fun r =>
      errorOf r.1 = none ∧ (r.2.ents 2).guid ≠ (ctx.ents 2).guid ∧
        r.2.json.get (r.2.ents 2).node .guid = some (.string guidThree)) := by
  have h : Yields (fun _ => False) (storeLoad colliding (.created ⟨true, false, false⟩)
    twoFolders) fun r =>
      r.1 = none ∧ (r.2.watching = true ∧ r.2.loaded = true ∧ r.2.roots ≠ [] ∧
        (r.2.ents rootEntry).guid = rootGuid) ∧
      (∀ e ∈ r.2.idMap.visited, ∀ e' ∈ r.2.idMap.visited, (r.2.ents e).guid = (r.2.ents e').guid →
      e = e') ∧
      (Yields (fun _ => False) (lookupId colliding r.2 1) (· = some 1) ∧
        Yields (fun _ => False) (lookupId colliding r.2 3) (· = some 2) ∧
        Yields (fun _ => False) (lookupId colliding r.2 5) (· = some 5)) ∧
      ((r.2.ents 1).id = 1 ∧ (r.2.ents 1).children = some (.array 0)) ∧
      ((r.2.ents 2).parentId = 1 ∧ parseGuid guidThree = some (r.2.ents 2).guid) ∧
      ((r.2.ents 5).parentId = 2 ∧ parseGuid guidFive = some (r.2.ents 5).guid) ∧
      Yields (fun _ => False) (bookmarkCreate colliding r.2.namedByGuid twoFolders 1 nameA false)
      (fun r' =>
        errorOf r'.1 = none ∧ (r'.2.json.get (r'.2.ents r.2.nextEntry).node .guid) =
          some (.string [97])) ∧
      Yields (fun _ => False)
      (bookmarkRename colliding r.2.namedByGuid twoFolders 1 guidThree 1 guidNine
        false) (fun r' => errorOf r'.1 = none ∧ (r'.2.ents 2).guid ≠ (r.2.ents 2).guid ∧
          r'.2.json.get (r'.2.ents 2).node .guid = some (.string guidThree)) := by
    decide +kernel
  obtain ⟨⟨_, ctx⟩, hload, rfl, ⟨hwatching, hloaded, hroots, hrootguid⟩, hguid, ⟨h1, h3, h5⟩,
    hfolder, hthree, hfive,
    hcreate, hrename⟩ := h.exists_ok
  have hwf : twoFolders.WellFormed := Env.written_wellFormed (by decide +kernel)
  obtain ⟨-, -, hflags, S, I, -⟩ := first_load_spec (Tables.real_faithful _) hwf hload
  have hvisited : ∀ e ∈ S, e ∈ ctx.idMap.visited := fun e he => (I.indexed.id.mem_visited e).mpr he
  have hmem : ∀ id e, Yields (fun _ => False) (lookupId colliding ctx id) (· = some e) → e ∈ S := by
    intro id e h
    obtain ⟨r, hrun, hlook⟩ := I.lookupId_spec id
    exact ((hlook e).mp (h.of_ok hrun)).1
  exact ⟨ctx.namedByGuid, S,
    I.guidVisible (by rw [hflags]) (fun e he e' he' => hguid e (hvisited e he) e' (hvisited e' he'))
    hrootguid hroots, storeLoad_loaded hwatching hloaded rfl, ⟨hmem _ _ h1, hfolder⟩,
    ⟨hmem _ _ h3, hthree⟩,
    ⟨hmem _ _ h5, hfive⟩, hcreate, hrename⟩

/-- A folder is not made under the GUID of a bookmark in the other folder. -/
theorem guid_names_checked_taken : ∃ (ctx : Ctx .w64) (S : Finset EntryRef),
    ctx.GuidVisible colliding S ∧
    Yields Fault.Abort (bookmarkCreate colliding ctx twoFolders 1 guidFive true) fun r =>
      ctx.GuidChecked colliding some id S 1 guidFive ctx.nextEntry (errorOf r.1) r.2 := by
  obtain ⟨ctx, S, G, hload, ⟨h1, hid, hchildren⟩, -, ⟨h5, hparent, hfive⟩, -, -⟩ := twoFolders_shown
  have h := ((guid_names_checked (fun _ => 0) some id G hload).1 1 h1 _ hchildren guidFive true).1
    (.inr fun hnone => ?_) fun _ hfree => absurd hfive (hfree 5 h5)
  · rw [hid] at h
    exact ⟨ctx, S, G, h⟩
  · rw [hfive] at hnone
    cases hnone

/-- A bookmark is made under a name that is no GUID, and one that is renamed has two GUIDs. -/
theorem guid_names_unchecked : ∃ (ctx : Ctx .w64) (S : Finset EntryRef),
    ctx.GuidVisible colliding S ∧
    storeLoad colliding ctx twoFolders = .ok (none, ctx) ∧ (1 ∈ S ∧ (ctx.ents 1).id = 1) ∧
    (2 ∈ S ∧ (ctx.ents 2).parentId = 1 ∧ parseGuid guidThree = some (ctx.ents 2).guid) ∧
    (¬IsGuid nameA ∧ ∃ r, bookmarkCreate colliding ctx twoFolders 1 nameA false = .ok r ∧
      errorOf r.1 = none ∧
      ∀ utf16 md5, ¬ctx.GuidChecked colliding utf16 md5 S 1 nameA ctx.nextEntry (errorOf r.1) r.2) ∧
    (IsGuid guidNine ∧ ∃ r, bookmarkRename colliding ctx twoFolders 1 guidThree 1 guidNine false =
      .ok r ∧
      errorOf r.1 = none ∧ ∀ utf16 md5, ¬ctx.GuidChecked colliding utf16 md5 S 1 guidNine 2
      (errorOf r.1) r.2) := by
  obtain ⟨ctx, S, G, hload, ⟨h1, hid, -⟩, hthree, -, hcreate, hrename⟩ := twoFolders_shown
  obtain ⟨r, hcreate, hmade, -⟩ := hcreate.exists_ok
  obtain ⟨r', hrename, hmade', hguid, hmember⟩ := hrename.exists_ok
  have hinvalid : ¬IsGuid nameA := fun h => by
    obtain ⟨guid, hlen, hname⟩ := h
    have hlength := congrArg List.length hname
    rw [length_uuidBin2hex hlen] at hlength
    exact absurd hlength (by decide)
  refine ⟨ctx, S, G, hload, ⟨h1, hid⟩, hthree, ⟨hinvalid, r, hcreate, hmade, fun _ _ h => ?_⟩,
    ⟨_, by decide, rfl⟩, r', hrename, hmade', fun _ _ h => ?_⟩
  · have hperm := (h.refused (.inl hinvalid)).1
    rw [hmade] at hperm
    cases hperm
  · obtain ⟨-, hkeyed, -⟩ := h.made hmade'
    rw [Ctx.Keyed, hmember, jsonStringValue, Option.getD_some, hthree.2.2,
      Option.some_inj] at hkeyed
    exact hguid hkeyed.symm

end BookmarkFS.Chromium
