import BookmarkFS.Chromium.Changes

/-! # What creating a bookmark changes

The node is built on cells of its own, so that a creation that fails half-way
leaves nothing in the store; and the entry of a node that has been built is
filed in all maps before its GUID is stored in it.
-/
namespace BookmarkFS.Chromium
open Library Hopscotch

variable {w : WordSize} {tb : Tables w} {ctx : Ctx w} {env : Env} {S : Finset EntryRef}

/-- `json'` is `json` with more cells. -/
structure Json.Extends (json json' : Json) : Prop where
  get : ∀ n < json.nextNode, ∀ k, json'.get n k = json.get n k
  array : ∀ b < json.nextArray, json'.array b = json.array b
  nextNode : json.nextNode ≤ json'.nextNode
  nextArray : json.nextArray ≤ json'.nextArray

namespace Json.Extends

variable {json json' : Json}

theorem newObject (json : Json) : json.Extends json.newObject.2 where
  get n hn k := by simp [Json.newObject, Json.get, hn.ne]
  array _ _ := rfl
  nextNode := Nat.le_succ _
  nextArray := le_rfl

theorem newArray (h : json.Extends json') : json.Extends json'.newArray.2 where
  get := h.get
  array b hb := by
    rw [← h.array b hb]
    exact Function.update_of_ne (hb.trans_le h.nextArray).ne _ _
  nextNode := h.nextNode
  nextArray := h.nextArray.trans (Nat.le_succ _)

theorem set (h : json.Extends json') {n : NodeRef} (hn : json.nextNode ≤ n) (k : Key) (v : Value) :
    json.Extends (json'.set n k v) where
  get m hm l := by rw [Json.get_set_of_node (hm.trans_le hn).ne, h.get m hm]
  array := h.array
  nextNode := h.nextNode
  nextArray := h.nextArray

end Json.Extends

theorem Inv.extends (I : Inv tb ctx S) {json' : Json} (h : ctx.json.Extends json') {maxId : ℕ}
    (hmax : ctx.maxId ≤ maxId ∧ maxId ≤ maxBookmarkId) :
    Inv tb { ctx with json := json', maxId := maxId } S where
  forest := by
    refine I.forest.congr (fun e he a ha => h.array a (I.forest.array_lt e he a ha)) h.nextNode
      h.nextArray (fun e he => ⟨rfl, rfl, rfl, rfl⟩) rfl (fun e he hroot => ?_) fun e he =>
      h.get _ (I.forest.node_lt e he) _
    exact (I.forest.describes e he hroot).congr fun k _ => h.get _ (I.forest.node_lt e he) _
  indexed := ⟨I.indexed.id, I.indexed.guid, I.indexed.assoc, I.indexed.names⟩
  entry_lt := I.entry_lt
  max_id := ⟨hmax.2, fun e he => (I.max_id.2 e he).trans hmax.1⟩
  guid_mode := I.guid_mode
  roots a ha := by
    rw [← I.roots a ha]
    exact h.array a (I.forest.array_lt _ I.forest.root_mem a ha)
  shown := I.shown

/-! ## The node -/

/-- The members of the node of a new bookmark. -/
def builtObject (isDir : Bool) (children : ArrayRef) (id : ℕ) (guid name : Bytes)
    (now : Timespec) : Object
  | .id => some (.string (decimal id))
  | .guid => some (.string (uuidBin2hex guid))
  | .name => some (.string name)
  | .url => if isDir then none else some (.string [])
  | .type => if isDir then some (.string [0x66, 0x6f, 0x6c, 0x64, 0x65, 0x72])
    else some (.string [0x75, 0x72, 0x6c])
  | .children => if isDir then some (.array children) else none
  | .dateAdded => some (.string (buildTsnode now))
  | .dateLastUsed => some (.string (buildTsnode now))
  | .dateModified => none
  | .other _ => none

/-- The store once the node of a new bookmark is complete. -/
def builtJson (json : Json) (isDir : Bool) (id : ℕ) (guid name : Bytes)
    (now : Timespec) : Json where
  object := Function.update json.object json.nextNode
    (builtObject isDir json.nextArray id guid name now)
  array := if isDir then Function.update json.array json.nextArray [] else json.array
  nextNode := json.nextNode + 1
  nextArray := if isDir then json.nextArray + 1 else json.nextArray

theorem buildNodeHead_extends (json : Json) (isDir : Bool) (now : Timespec) :
    json.Extends (buildNodeHead json.newObject.2 json.nextNode isDir now) := by
  have h := Json.Extends.newObject json
  cases isDir with
  | true => exact (((h.newArray.set le_rfl _ _).set le_rfl _ _).set le_rfl _ _).set le_rfl _ _
  | false => exact (((h.set le_rfl _ _).set le_rfl _ _).set le_rfl _ _).set le_rfl _ _

theorem builtJson_eq (json : Json) (isDir : Bool) (id : ℕ) (guid name : Bytes) (now : Timespec) :
    (((buildNodeHead json.newObject.2 json.nextNode isDir now).set json.nextNode .id
        (.string (decimal id))).set json.nextNode .name (.string name)).set json.nextNode .guid
      (.string (uuidBin2hex guid)) = builtJson json isDir id guid name now := by
  cases isDir with
  | true =>
    simp only [buildNodeHead, builtJson, Json.newObject, Json.newArray, Json.set, if_true,
      Function.update_idem, Function.update_self]
    congr 2
    funext k
    cases k <;> simp [builtObject]
  | false =>
    simp only [buildNodeHead, builtJson, Json.newObject, Json.set, Bool.false_eq_true, if_false,
      Function.update_idem, Function.update_self]
    congr 2
    funext k
    cases k <;> simp [builtObject]

theorem builtJson_get (json : Json) (isDir : Bool) (id : ℕ) (guid name : Bytes) (now : Timespec)
    (n : NodeRef) : (builtJson json isDir id guid name now).get n =
      if n = json.nextNode then builtObject isDir json.nextArray id guid name now
      else json.get n := by
  funext k
  by_cases h : n = json.nextNode
  · subst h; simp [builtJson, Json.get]
  · simp [builtJson, Json.get, h]

theorem builtJson_array (json : Json) (isDir : Bool) (id : ℕ) (guid name : Bytes) (now : Timespec)
    (b : ArrayRef) : (builtJson json isDir id guid name now).array b =
      if isDir = true ∧ b = json.nextArray then [] else json.array b := by
  cases isDir <;> simp [builtJson, Function.update_apply]

theorem parseId_decimal {json : Json} {node : NodeRef} {id : ℕ}
    (h : json.get node .id = some (.string (decimal id))) (hid : id ≤ maxBookmarkId) :
    parseId json node = some id := by
  have hlt : id < 2 ^ 64 := hid.trans_lt (by decide)
  have hne : (decimal id).length ≠ 0 := fun h => decimal_ne_nil id (List.length_eq_zero_iff.mp h)
  simp [parseId, h, jsonStringLength, jsonStringValue, hne, strtoull_decimal hlt, hid.not_gt]

theorem parseGuid_eq_some {s guid : Bytes} :
    parseGuid s = some guid ↔ guid.length = uuidLen ∧ uuidBin2hex guid = s := by
  by_cases hlen : s.length = uuidHexLen
  · rw [parseGuid, if_neg (not_not.mpr hlen), uuidHex2bin_eq_some hlen]
  · rw [parseGuid, if_pos hlen]
    refine ⟨nofun, fun ⟨hguid, heq⟩ => absurd ?_ hlen⟩
    rw [← heq, length_uuidBin2hex hguid]

theorem parseGuid_uuidBin2hex {guid : Bytes} (h : guid.length = uuidLen) :
    parseGuid (uuidBin2hex guid) = some guid := parseGuid_eq_some.mpr ⟨h, rfl⟩

/-- `build_node()` in title mode, on an object just allocated. -/
theorem buildNode_spec (I : Inv tb ctx S) (hflag : ctx.flags.filenameGuid = false) (env : Env)
    (name : Bytes) (isDir : Bool) :
    Yields Fault.Abort (buildNode tb { ctx with json := ctx.json.newObject.2 } env
      ctx.json.nextNode name isDir) fun r =>
      (∃ err, r.1 = .error err ∧ Inv tb r.2 S ∧ r.2.loaded = ctx.loaded) ∨
      ∃ hashcode, ctx.maxId + 1 ≤ maxBookmarkId ∧ validUtf8 name = true ∧
        ((∀ e ∈ S, (ctx.ents e).guid ≠ env.uuid) → hashcode = tb.digest env.uuid) ∧
        r = (.ok ⟨env.uuid, hashcode, ctx.maxId + 1, if isDir then none
        else some 0, env.now, env.now⟩,
          { ctx with json := builtJson ctx.json isDir (ctx.maxId + 1) env.uuid name env.now
                     maxId := ctx.maxId + 1 }) := by
  have hhead := buildNodeHead_extends ctx.json isDir env.now
  rw [buildNode]
  by_cases hmax : ctx.maxId + 1 > maxBookmarkId
  · simp only [hmax, if_true]
    exact .inl ⟨_, rfl, I.extends hhead ⟨le_rfl, I.max_id.1⟩, rfl⟩
  simp only [hmax, if_false, jsonStringn]
  have hmax := not_lt.mp hmax
  by_cases hutf8 : validUtf8 name = true
  swap
  · simp only [hutf8]
    exact .inl ⟨_, rfl, I.extends (hhead.set le_rfl _ _) ⟨Nat.le_succ _, hmax⟩, rfl⟩
  simp only [hutf8, if_true, hflag, Bool.false_eq_true, if_false]
  obtain ⟨r, hrun, hfound, hfree⟩ := lookupGuid_spec I.indexed.guid env.uuid
  rw [lookupGuid] at hrun
  simp only [buildNodeGuid, hrun, ok_bind]
  cases r with
  | none =>
    refine .inr ⟨tb.digest env.uuid, hmax, trivial, fun _ => rfl, ?_⟩
    simp only [builtJson_eq]
  | some q =>
    refine .inr ⟨0, hmax, trivial, fun h => ?_, ?_⟩
    · exact absurd (hfound q.1 q.2 rfl).2.1 (h q.1 (hfound q.1 q.2 rfl).1)
    · simp only [builtJson_eq]

/-! ## The entry -/

theorem Inv.nextEntry_not_mem (I : Inv tb ctx S) : ctx.nextEntry ∉ S :=
    fun h => lt_irrefl _ (I.entry_lt _ h)

/-- The entry of a new bookmark. -/
def createdEntry (ctx : Ctx w) (parentId : ℕ) (guid name : Bytes) (isDir : Bool) : NodeEntry where
  id := ctx.maxId + 1
  parentId := parentId
  guid := guid
  name := some name
  node := ctx.json.nextNode
  children := if isDir then some (.array ctx.json.nextArray) else none

/-- What `bookmark_create()` does on success. -/
structure Creates (tb : Tables w) (ctx : Ctx w) (S : Finset EntryRef) (env : Env) (parentId : ℕ)
    (name : Bytes) (isDir : Bool) (p : EntryRef) (c : Value) (ctx' : Ctx w) : Prop where
  parent : p ∈ S ∧ p ≠ rootEntry ∧ (ctx.ents p).id = parentId ∧ (ctx.ents p).name ≠ none
  siblings : (ctx.ents p).children = some c
  free : ∀ e ∈ named ctx.ents S, (ctx.ents e).parentId = parentId → (ctx.ents e).name ≠ some name
  fresh : ∀ e ∈ S, (ctx.ents e).guid ≠ env.uuid
  id_le : ctx.maxId + 1 ≤ maxBookmarkId
  utf8 : validUtf8 name = true
  change : ∃ idMap guidMap assocMap, ctx' = { ctx with
    json := nodeMtimeNow
      ((builtJson ctx.json isDir (ctx.maxId + 1) env.uuid name env.now).arrayAppend
      c ctx.json.nextNode) (ctx.ents p).node env.now
    ents := Function.update ctx.ents ctx.nextEntry (createdEntry ctx parentId env.uuid name isDir)
    nextEntry := ctx.nextEntry + 1, maxId := ctx.maxId + 1
    idMap := idMap, guidMap := guidMap, assocMap := assocMap, dirty := .data }
  indexed : Indexed tb ctx' (insert ctx.nextEntry S)

/-- The entries in the maps, one that is not in them yet being filed in each. -/
theorem Indexed.addEntry (I : Indexed tb ctx S) {e : EntryRef} (he : e ∉ S) (hroot : e ≠ rootEntry)
    {entry : NodeEntry} {name : Bytes} (hname : entry.name = some name)
    (hfree : ∀ x ∈ named ctx.ents S, (ctx.ents x).parentId = entry.parentId →
      (ctx.ents x).name ≠ some name) {ctx' : Ctx w}
    (hents : ctx'.ents = Function.update ctx.ents e entry)
    (Hid : Holds ctx'.idMap (insert e S) (idmapHash tb ctx'.ents))
    (Hguid : Holds ctx'.guidMap (insert e S) (guidmapHash tb ctx'.ents))
    (Hassoc : Holds ctx'.assocMap (insert e (named ctx.ents S)) (assocmapHash tb ctx'.ents)) :
    Indexed tb ctx' (insert e S) := by
  have hself : ctx'.ents e = entry := by simp [hents]
  have hother : ∀ x ∈ S, ctx'.ents x = ctx.ents x := fun x hx => by
    rw [hents, Function.update_of_ne]
    rintro rfl
    exact he hx
  have hnamed : named ctx'.ents (insert e S) = insert e (named ctx.ents S) := by
    ext x
    by_cases hx : x = e
    · subst hx
      simp [mem_named, hself, hname, hroot]
    · rw [mem_named, Finset.mem_insert, Finset.mem_insert, mem_named, hents,
        Function.update_of_ne hx]
      simp [hx]
  refine ⟨Hid, Hguid, hnamed ▸ Hassoc, ?_⟩
  rw [hnamed]
  intro x hx y hy hparent hnames
  rcases Finset.mem_insert.mp hx with rfl | hxS <;> rcases Finset.mem_insert.mp hy with rfl | hyS
  · rfl
  · rw [hself, hother y (mem_named.mp hyS).1] at hparent hnames
    exact absurd (hnames.symm.trans hname) (hfree y hyS hparent.symm)
  · rw [hself, hother x (mem_named.mp hxS).1] at hparent hnames
    exact absurd (hnames.trans hname) (hfree x hxS hparent)
  · rw [hother x (mem_named.mp hxS).1, hother y (mem_named.mp hyS).1] at hparent hnames
    exact I.names x hxS y hyS hparent hnames

/-- What `bookmark_create()` does on success, if `build_node_guid()` leaves this hashcode. -/
structure Adds (tb : Tables w) (ctx : Ctx w) (S : Finset EntryRef) (env : Env) (parentId : ℕ)
    (name : Bytes) (isDir : Bool) (p : EntryRef) (c : Value) (hashcode : Word w)
    (ctx' : Ctx w) : Prop where
  parent : p ∈ S ∧ p ≠ rootEntry ∧ (ctx.ents p).id = parentId ∧ (ctx.ents p).name ≠ none
  siblings : (ctx.ents p).children = some c
  free : ∀ e ∈ named ctx.ents S, (ctx.ents e).parentId = parentId → (ctx.ents e).name ≠ some name
  id_le : ctx.maxId + 1 ≤ maxBookmarkId
  utf8 : validUtf8 name = true
  change : ∃ idMap guidMap assocMap, ctx' = { ctx with
    json := nodeMtimeNow
      ((builtJson ctx.json isDir (ctx.maxId + 1) env.uuid name env.now).arrayAppend
      c ctx.json.nextNode) (ctx.ents p).node env.now
    ents := Function.update ctx.ents ctx.nextEntry (createdEntry ctx parentId env.uuid name isDir)
    nextEntry := ctx.nextEntry + 1, maxId := ctx.maxId + 1
    idMap := idMap, guidMap := guidMap, assocMap := assocMap, dirty := .data }
  idMap : Holds ctx'.idMap (insert ctx.nextEntry S) (idmapHash tb ctx'.ents)
  assocMap : Holds ctx'.assocMap (insert ctx.nextEntry (named ctx.ents S))
    (assocmapHash tb ctx'.ents)
  guidMap : Holds ctx'.guidMap (insert ctx.nextEntry S)
    (Function.update (guidmapHash tb ctx'.ents) ctx.nextEntry hashcode)

theorem Adds.creates {ctx' : Ctx w} {parentId : ℕ} {name : Bytes} {isDir : Bool} {p : EntryRef}
    {c : Value} (I : Inv tb ctx S) (hfresh : ∀ e ∈ S, (ctx.ents e).guid ≠ env.uuid)
    (A : Adds tb ctx S env parentId name isDir p c (tb.digest env.uuid) ctx') :
    Creates tb ctx S env parentId name isDir p c ctx' := by
  refine ⟨A.parent, A.siblings, A.free, hfresh, A.id_le, A.utf8, A.change, ?_⟩
  have hnew : ctx.nextEntry ∉ S := I.nextEntry_not_mem
  have hroot : ctx.nextEntry ≠ rootEntry := fun h => hnew (h ▸ I.forest.root_mem)
  obtain ⟨idMap, guidMap, assocMap, rfl⟩ := A.change
  have hself : guidmapHash tb (Function.update ctx.ents ctx.nextEntry
      (createdEntry ctx parentId env.uuid name isDir)) ctx.nextEntry = tb.digest env.uuid := by
    rw [guidmapHash, Function.update_self]
    rfl
  have Hguid := A.guidMap
  rw [← hself, Function.update_eq_self] at Hguid
  exact I.indexed.addEntry hnew hroot (rfl :
    (createdEntry ctx parentId env.uuid name isDir).name = _) A.free rfl
    A.idMap Hguid A.assocMap

/-- The part of `bookmark_create()` after `build_node()`. -/
theorem addNode_adds (hf : tb.Faithful) (I : Inv tb ctx S) (hflag : ctx.flags.filenameGuid = false)
    {p : EntryRef} {siblings : Value} {name : CString} {isDir : Bool}
    (hparent : p ∈ S ∧ p ≠ rootEntry ∧ (ctx.ents p).name ≠ none)
    (hsiblings : (ctx.ents p).children = some siblings)
    (hfree : ∀ e ∈ named ctx.ents S, (ctx.ents e).parentId = (ctx.ents p).id →
      (ctx.ents e).name ≠ some name)
    (hmax : ctx.maxId + 1 ≤ maxBookmarkId) (hutf8 : validUtf8 name = true)
    (hashcode : Word w) (stat : Stat)
    (hstat : stat.id = ctx.maxId + 1) :
    Yields Fault.Abort (addNode tb
      { ctx with json := builtJson ctx.json isDir (ctx.maxId + 1) env.uuid name env.now
                 maxId := ctx.maxId + 1 }
      env.now (ctx.ents p).id p siblings ctx.json.nextNode name isDir
      ⟨hashAssoc tb (ctx.ents p).id name, 0, []⟩ ⟨env.uuid, hashcode, stat⟩) fun r =>
        r.1 = .ok stat ∧ Adds tb ctx S env (ctx.ents p).id name isDir p siblings hashcode r.2 := by
  obtain ⟨hp, hproot, hname⟩ := hparent
  have hnew : ctx.nextEntry ∉ S := I.nextEntry_not_mem
  have hchildren : (if isDir = true then (builtJson ctx.json isDir (ctx.maxId + 1) env.uuid name
      env.now).get ctx.json.nextNode .children else none) =
        if isDir then some (.array ctx.json.nextArray) else none := by
    rw [builtJson_get, if_pos rfl]
    cases isDir <;> rfl
  rw [addNode]
  simp only [hflag, Bool.false_eq_true, if_false, hstat, Json.arrayAppend, Json.setElems_get,
    hchildren]
  refine (hf.yields_file (fun entry => tb.digest (uint64Bytes entry.id)) I.indexed.id hnew
    (createdEntry ctx (ctx.ents p).id env.uuid name isDir)).bind fun idMap Hid => ?_
  refine (hf.yields_file (fun entry => hashAssoc tb entry.parentId (entry.name.getD []))
    I.indexed.assoc
    (fun h => hnew (mem_named.mp h).1) (createdEntry ctx (ctx.ents p).id env.uuid name isDir)).bind
    fun assocMap Ha => ?_
  -- the hashcode need not be that of the entry
  have hother : ∀ (stored : NodeEntry), ∀ x ∈ S,
      guidmapHash tb (Function.update ctx.ents ctx.nextEntry stored) x =
      guidmapHash tb ctx.ents x :=
    fun stored x hx => by rw [guidmapHash, guidmapHash, update_of_mem hnew _ hx]
  have hfiled : ∀ x ∈ S, Function.update (guidmapHash tb (Function.update ctx.ents ctx.nextEntry
      (createdEntry ctx (ctx.ents p).id env.uuid name isDir))) ctx.nextEntry hashcode x =
        guidmapHash tb ctx.ents x := fun x hx => by
    rw [Function.update_of_ne (fun h : x = ctx.nextEntry => hnew (h ▸ hx)), hother _ x hx]
  refine (hf.yields_insert _ (I.indexed.guid.congr_hash fun x hx => (hfiled x hx).symm)
    (Function.update_self ..) hnew fun x hx => (hother _ x hx).trans (hfiled x hx).symm).bind
      fun guidMap Hg => ?_
  rw [Function.update_idem, update_of_mem hnew _ hp]
  exact ⟨rfl, ⟨hp, hproot, rfl, hname⟩, hsiblings, hfree, hmax, hutf8,
    ⟨idMap, guidMap, assocMap, rfl⟩, Hid, Ha, Hg⟩

/-- The hashcode is that of the GUID, unless the GUID is in use. -/
theorem bookmarkCreate_adds (hf : tb.Faithful) (henv : env.WellFormed) (C : ctx.Consistent tb)
    (parentId : ℕ) (name : CString) (isDir : Bool) :
    Yields Fault.Abort (bookmarkCreate tb ctx env parentId name isDir) fun r =>
      (∃ err, r.1 = .error err ∧ r.2.Consistent tb) ∨
      ∃ ctx₁ S p siblings hashcode, Refreshed tb ctx env ctx₁ S ∧
        ((∀ e ∈ S, (ctx₁.ents e).guid ≠ env.uuid) → hashcode = tb.digest env.uuid) ∧
        Adds tb ctx₁ S env parentId name isDir p siblings hashcode r.2 := by
  rw [bookmarkCreate]
  by_cases hroot : parentId = rootId
  · rw [if_pos hroot]; exact .inl ⟨_, rfl, C⟩
  rw [if_neg hroot]
  refine storeLoad_bind hf henv C (fun err ctx₁ C₁ => .inl ⟨_, rfl, C₁⟩) fun ctx₁ S R C₁ => ?_
  have I := R.inv
  obtain ⟨r, hrun, hlook⟩ := I.lookupId_spec parentId
  simp only [hrun, ok_bind]
  cases r with
  | none => exact .inl ⟨_, rfl, C₁⟩
  | some p =>
  obtain ⟨hp, rfl⟩ := (hlook p).mp rfl
  have hproot : p ≠ rootEntry := fun h => hroot ((I.id_eq_root hp).mpr h)
  dsimp only
  by_cases hname : (ctx₁.ents p).name = none
  · rw [if_pos hname]; exact .inl ⟨_, rfl, C₁⟩
  rw [if_neg hname]
  have hflag := I.title_mode hp hproot hname
  cases hchildren : (ctx₁.ents p).children with
  | none => exact .inl ⟨_, rfl, C₁⟩
  | some siblings =>
  obtain ⟨r, hrun, hr⟩ := I.lookupName_spec hflag (ctx₁.ents p).id name
  simp only [hrun, ok_bind]
  obtain ⟨e, id, rfl, he, -⟩ | ⟨rfl, hfree⟩ := hr
  · -- the name is taken
    rw [if_pos rfl]
    dsimp only
    cases parseId ctx₁.json (ctx₁.ents e).node with
    | none => exact Or.inl ⟨_, rfl, C₁⟩
    | some eid =>
      dsimp only
      split_ifs <;> exact Or.inl ⟨_, rfl, C₁⟩
  simp only [Option.isSome_none, Bool.false_eq_true, if_false]
  refine (buildNode_spec I hflag env name isDir).bind fun r hr => ?_
  obtain ⟨err, herr, I', hloaded⟩ | ⟨hashcode, hmax, hutf8, hhash, rfl⟩ := hr
  · rw [herr]
    exact .inl ⟨err, rfl, fun _ => ⟨S, I'⟩, fun _ => hloaded.trans R.loaded⟩
  refine (addNode_adds hf I hflag ⟨hp, hproot, hname⟩ hchildren hfree hmax hutf8
    hashcode _ rfl).mono
    fun r hr => .inr ⟨ctx₁, S, p, siblings, hashcode, R, hhash, hr.2⟩

/-- A create that comes to draw a UUID. -/
structure Draws (ctx : Ctx w) (S : Finset EntryRef) (parentId : ℕ) (name : Bytes)
    (p : EntryRef) (c : Value) :
    Prop where
  parent : p ∈ S ∧ p ≠ rootEntry ∧ (ctx.ents p).id = parentId ∧ (ctx.ents p).name ≠ none
  siblings : (ctx.ents p).children = some c
  free : ∀ e ∈ named ctx.ents S, (ctx.ents e).parentId = parentId → (ctx.ents e).name ≠ some name
  id_le : ctx.maxId + 1 ≤ maxBookmarkId
  utf8 : validUtf8 name = true

theorem bookmarkCreate_spec (hf : tb.Faithful) (henv : env.WellFormed) (C : ctx.Consistent tb)
    (parentId : ℕ) (name : CString) (isDir : Bool)
    (hfresh : ∀ ctx₁ S p c, Refreshed tb ctx env ctx₁ S → Draws ctx₁ S parentId name p c →
      ∀ e ∈ S, (ctx₁.ents e).guid ≠ env.uuid) :
    Yields Fault.Abort (bookmarkCreate tb ctx env parentId name isDir) fun r =>
      (∃ err, r.1 = .error err ∧ r.2.Consistent tb) ∨
      ∃ ctx₁ S p siblings, Refreshed tb ctx env ctx₁ S ∧
        Creates tb ctx₁ S env parentId name isDir p siblings r.2 := by
  refine (bookmarkCreate_adds hf henv C parentId name isDir).mono fun r hr => ?_
  obtain h | ⟨ctx₁, S, p, siblings, hashcode, R, hhash, A⟩ := hr
  · exact .inl h
  have hfresh := hfresh ctx₁ S p siblings R ⟨A.parent, A.siblings, A.free, A.id_le, A.utf8⟩
  obtain rfl := hhash hfresh
  exact .inr ⟨ctx₁, S, p, siblings, R, A.creates R.inv hfresh⟩

theorem created_array (I : Inv tb ctx S) {p : EntryRef} {a : ArrayRef} (hp : p ∈ S)
    (ha : (ctx.ents p).children = some (.array a)) (guid name : Bytes) (isDir : Bool)
    (now : Timespec) (b : ArrayRef) :
    ((builtJson ctx.json isDir (ctx.maxId + 1) guid name now).arrayAppend (.array a)
      ctx.json.nextNode).array b = if b = a then ctx.json.array a ++ [ctx.json.nextNode]
      else if isDir = true ∧ b = ctx.json.nextArray then [] else ctx.json.array b := by
  have halt : a < ctx.json.nextArray := I.forest.array_lt p hp a ha
  rw [Json.arrayAppend, Json.setElems_array, builtJson_array, Json.elems, builtJson_array,
    if_neg fun h : isDir = true ∧ a = _ => halt.ne h.2]

/-- In an array, the new node is a leaf of the tree, whether its entry is visible or not. -/
theorem Inv.forest_created (I : Inv tb ctx S) {p : EntryRef} {a : ArrayRef} (hp : p ∈ S)
    (ha : (ctx.ents p).children = some (.array a)) {guid : Bytes} (hguid : guid.length = uuidLen)
    (hmax : ctx.maxId + 1 ≤ maxBookmarkId) (name : Bytes) (isDir : Bool) (now : Timespec)
    (shown : Option Bytes) (hshown : ∀ n, shown = some n → n = name) :
    Forest ((builtJson ctx.json isDir (ctx.maxId + 1) guid name now).arrayAppend (.array a)
      ctx.json.nextNode)
      (Function.update ctx.ents ctx.nextEntry
        { createdEntry ctx (ctx.ents p).id guid name isDir with name := shown })
      (insert ctx.nextEntry S) nonePending := by
  have hnew : ctx.nextEntry ∉ S := I.nextEntry_not_mem
  have hother : ∀ x ∈ S, Function.update ctx.ents ctx.nextEntry
      { createdEntry ctx (ctx.ents p).id guid name isDir with name := shown } x = ctx.ents x :=
    fun x hx => update_of_mem hnew _ hx
  have hget : ∀ n k, ((builtJson ctx.json isDir (ctx.maxId + 1) guid name now).arrayAppend
      (.array a) ctx.json.nextNode).get n k = if n = ctx.json.nextNode then
        builtObject isDir ctx.json.nextArray (ctx.maxId + 1) guid name now k
      else ctx.json.get n k := by
    intro n k
    rw [Json.arrayAppend, Json.setElems_get, builtJson_get]
    split_ifs <;> rfl
  have halt : a < ctx.json.nextArray := I.forest.array_lt p hp a ha
  have harray := created_array I hp ha guid name isDir now
  refine I.forest.addLeaf (p := p) (a := a) hnew hp ha hother (by simp [createdEntry])
    (fun x hx => ?_) (fun x hx => ?_) ⟨?_, ?_, ?_⟩ (fun x hx k _ => ?_) ?_ (fun seen hseen => ?_)
    (fun x hx hxp => ⟨rfl, fun b hb => ?_⟩) (fun b hb => ⟨?_, fun x hx hxb => ?_, ?_⟩) ⟨?_, ?_, ?_⟩
  · rw [Function.update_self]
    exact (Nat.lt_succ_of_le (I.max_id.2 x hx)).ne
  · rw [Function.update_self]
    exact (I.forest.node_lt x hx).ne
  · rw [Function.update_self]
    exact parseId_decimal ((hget _ _).trans (if_pos rfl)) hmax
  · rw [Function.update_self, hget, createdEntry, if_pos rfl]
    exact parseGuid_uuidBin2hex hguid
  · rw [Function.update_self]
    exact ⟨name, (hget _ _).trans (if_pos rfl), hshown⟩
  · rw [hget, if_neg (I.forest.node_lt x hx).ne]
  · rw [Function.update_self, hget, createdEntry, if_pos rfl]
    rfl
  · rw [harray, if_pos rfl, Function.update_self, hseen]
    simp [nonePending, createdEntry]
  · rw [harray, if_neg, if_neg]
    · exact fun h => (I.forest.array_lt x hx b hb).ne h.2
    · rintro rfl
      exact hxp (I.forest.owner x hx p hp b hb ha)
  · rw [Function.update_self] at hb
    cases isDir with
    | false => simp [createdEntry] at hb
    | true =>
      obtain rfl : ctx.json.nextArray = b := by simpa [createdEntry] using hb
      rw [harray, if_neg halt.ne', if_pos ⟨rfl, rfl⟩, nonePending]
  · rw [Function.update_self] at hb
    cases isDir with
    | false => simp [createdEntry] at hb
    | true =>
      obtain rfl : ctx.json.nextArray = b := by simpa [createdEntry] using hb
      exact lt_irrefl _ (I.forest.array_lt x hx _ hxb)
  · rw [Function.update_self] at hb
    cases isDir with
    | false => simp [createdEntry] at hb
    | true =>
      obtain rfl : ctx.json.nextArray = b := by simpa [createdEntry] using hb
      simp [Json.arrayAppend, builtJson]
  · simp [Json.arrayAppend, builtJson]
  · simp only [Json.arrayAppend, builtJson, Json.setElems_nextArray]
    split_ifs <;> simp
  · rw [Function.update_self]
    simp [Json.arrayAppend, builtJson, createdEntry]

theorem Creates.inv {ctx' : Ctx w} {parentId : ℕ} {name : Bytes} {isDir : Bool} {p : EntryRef}
    {a : ArrayRef} (I : Inv tb ctx S) (huuid : env.uuid.length = uuidLen)
    (K : Creates tb ctx S env parentId name isDir p (.array a) ctx') :
    Inv tb ctx' (insert ctx.nextEntry S) := by
  obtain ⟨⟨hp, hproot, rfl, hname⟩, ha, -, -, hmax, -, ⟨idMap, guidMap, assocMap, rfl⟩, hindexed⟩ :=
    K
  have hnew : ctx.nextEntry ∉ S := I.nextEntry_not_mem
  have hother : ∀ x ∈ S, Function.update ctx.ents ctx.nextEntry
      (createdEntry ctx (ctx.ents p).id env.uuid name isDir) x = ctx.ents x :=
    fun x hx => update_of_mem hnew _ hx
  have harray := created_array I hp ha env.uuid name isDir env.now
  have F := I.forest_created hp ha huuid hmax name isDir env.now (some name) fun n h => by
    simpa using h.symm
  refine ⟨F.set _ _ (by decide), hindexed, fun x hx => ?_, ⟨hmax, fun x hx => ?_⟩,
    fun h x hx hxroot => ?_, fun b hb => ?_, fun x hx r hr hrid => ?_⟩
  · rcases Finset.mem_insert.mp hx with rfl | hx
    · exact Nat.lt_succ_self _
    · exact Nat.lt_succ_of_lt (I.entry_lt x hx)
  · rcases Finset.mem_insert.mp hx with rfl | hx
    · simp [createdEntry]
    · dsimp only
      rw [hother x hx]
      exact (I.max_id.2 x hx).trans (Nat.le_succ _)
  · exact absurd (I.title_mode hp hproot hname) (by simpa using h)
  · have hroot := hother _ I.forest.root_mem
    simp only [hroot] at hb
    refine Eq.trans ?_ (I.roots b hb)
    rw [nodeMtimeNow, Json.set_array, harray, if_neg, if_neg]
    · exact fun h => (I.forest.array_lt _ I.forest.root_mem b hb).ne h.2
    · rintro rfl
      exact hproot (I.forest.owner p hp _ I.forest.root_mem _ ha hb)
  · dsimp only at hrid ⊢
    rcases Finset.mem_insert.mp hr with rfl | hr
    · rw [Function.update_self]
      rintro ⟨⟩
    rw [hother r hr] at hrid ⊢
    obtain ⟨hx, hxroot, hxname⟩ := mem_named.mp hx
    rcases Finset.mem_insert.mp hx with rfl | hx
    · rw [Function.update_self] at hrid
      rwa [I.forest.id_inj r hr p hp hrid]
    · dsimp only at hxname
      rw [hother x hx] at hrid hxname
      exact I.shown x (mem_named.mpr ⟨hx, hxroot, hxname⟩) r hr hrid

end BookmarkFS.Chromium
