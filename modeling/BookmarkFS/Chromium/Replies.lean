import BookmarkFS.Chromium.Fsck
import BookmarkFS.Times

/-! # What a creation replies

The reply of `bookmark_create()` is put together while the node is built; a lookup reads it from the members of the
node, which keep less of the times. That the GUID of the new node may be in use plays no part.
-/
namespace BookmarkFS.Chromium
open Library Hopscotch

variable {w : WordSize} {tb : Tables w} {ctx ctx' : Ctx w} {env : Env} {S : Finset EntryRef}

/-- Two replies that differ by less than a microsecond. -/
structure Stat.Same (stat found : Stat) : Prop where
  id : stat.id = found.id
  valueLen : stat.valueLen = found.valueLen
  atime : stat.atime.micros = found.atime.micros
  mtime : stat.mtime.micros = found.mtime.micros

/-- What `bookmark_create()` leaves in the stat buffer: the reply, or what it has decoded of the
entry that it has found; the context is that which it leaves behind. -/
def createStat (tb : Tables w) (ctx : Ctx w) (parentId : ℕ) (name : CString) :
    Except Errno Stat → Except Fault (Option Stat)
  | .ok stat => .ok (some stat)
  | .error _ => do
    let (_, _, entry) ← lookupName tb ctx parentId name
    .ok (entry.bind fun e => (parseId ctx.json (ctx.ents e).node).bind
      (parseStats ctx.json (ctx.ents e)))

/-- The lookups by name and by identifier find the same, as long as nothing else writes the file. -/
structure Ctx.LooksUp (tb : Tables w) (ctx : Ctx w) (parentId : ℕ) (name : CString)
    (stat : Stat) : Prop where
  named : ∀ env : Env, env.poll = .unchanged →
    ∃ found, bookmarkLookup tb ctx env parentId (some name) = .ok (.ok found, ctx) ∧ stat.Same found
  self : ∀ env : Env, env.poll = .unchanged →
    ∃ found, bookmarkLookup tb ctx env stat.id none = .ok (.ok found, ctx) ∧ stat.Same found

theorem Stat.Same.refl (stat : Stat) : stat.Same stat := ⟨rfl, rfl, rfl, rfl⟩

theorem storeLoad_still (hwatching : ctx.watching = true) (hloaded : ctx.loaded = true)
    (hpoll : env.poll = .unchanged) : storeLoad tb ctx env = .ok (none, ctx) := by
  rw [storeLoad, if_neg (by rw [hwatching]; decide)]
  split
  · rfl
  · rw [hpoll]

theorem parseStats_id {json : Json} {entry : NodeEntry} {id : ℕ} {stat : Stat}
    (h : parseStats json entry id = some stat) : stat.id = id := by
  rw [parseStats_eq] at h
  obtain ⟨atime, -, h⟩ := Option.bind_eq_some_iff.mp h
  obtain ⟨mtime, -, rfl⟩ := Option.map_eq_some_iff.mp h
  rfl

/-- What is decoded of an entry that is found in either way is what lookups reply. -/
theorem Ctx.LooksUp.of_found {parentId : ℕ} {name : CString} {stat found : Stat} {p e : EntryRef}
    {lctx : LookupCtx w} (hwatching : ctx.watching = true) (hloaded : ctx.loaded = true)
    (hparent : lookupId tb ctx parentId = .ok (some p))
    (hdir : (ctx.ents p).name ≠ none ∧ (ctx.ents p).children ≠ none)
    (hname : lookupName tb ctx parentId name = .ok (true, lctx, some e))
    (hself : lookupId tb ctx stat.id = .ok (some e)) (hshown : (ctx.ents e).name ≠ none)
    (hid : parseId ctx.json (ctx.ents e).node = some stat.id)
    (hstats : parseStats ctx.json (ctx.ents e) stat.id = some found) (hsame : stat.Same found) :
    ctx.LooksUp tb parentId name stat where
  named env hpoll := by
    refine ⟨found, ?_, hsame⟩
    simp only [bookmarkLookup, storeLoad_still hwatching hloaded hpoll, lookupEntry, hparent,
      ok_bind, if_neg hdir.1,
      if_neg hdir.2, hname, Bool.true_eq_false, if_false, lookupStat, reduceCtorEq, hid, hstats]
  self env hpoll := by
    refine ⟨found, ?_, hsame⟩
    rw [bookmarkLookup_self (storeLoad_still hwatching hloaded hpoll) hself]
    dsimp only
    rw [if_neg hshown, hstats]

/-! ## The new entry -/

/-- The store with a new entry, which is filed under its identifier and its name -/
structure Files (tb : Tables w) (ctx : Ctx w) (S : Finset EntryRef) (json : Json)
    (entry : NodeEntry) (ctx' : Ctx w) : Prop where
  json : ctx'.json = json
  ents : ctx'.ents = Function.update ctx.ents ctx.nextEntry entry
  watching : ctx'.watching = ctx.watching
  loaded : ctx'.loaded = ctx.loaded
  flags : ctx'.flags = ctx.flags
  id : Holds ctx'.idMap (insert ctx.nextEntry S) (idmapHash tb ctx'.ents)
  assoc : Holds ctx'.assocMap (insert ctx.nextEntry (named ctx.ents S)) (assocmapHash tb ctx'.ents)

/-- Whatever the GUID of the node is, and the hashcode it is filed under -/
theorem addNode_files (hf : tb.Faithful) (I : Inv tb ctx S) (hflag : ctx.flags.filenameGuid = false)
    {json : Json} {maxId parentId : ℕ} {p : EntryRef} (hp : p ∈ S) {siblings : Value}
    {node : NodeRef} {name : CString} {isDir : Bool} {guid : Bytes} {hashcode : Word w}
    {stat : Stat} {now : Timespec} {r : Except Errno Stat × Ctx w}
    (hrun : addNode tb { ctx with json := json, maxId := maxId } now parentId p siblings
      node name isDir
      ⟨hashAssoc tb parentId name, 0, []⟩ ⟨guid, hashcode, stat⟩ = .ok r) :
    r.1 = .ok stat ∧
      Files tb ctx S (nodeMtimeNow (json.arrayAppend siblings node) (ctx.ents p).node now)
      ⟨stat.id, parentId, guid, some name.val, node,
        if isDir then (json.arrayAppend siblings node).get node .children else none⟩ r.2 := by
  have hnew : ctx.nextEntry ∉ S := I.nextEntry_not_mem
  rw [addNode] at hrun
  simp only [hflag, Bool.false_eq_true, if_false] at hrun
  obtain ⟨idMap, hidMap, hrun⟩ := bind_eq_ok.mp hrun
  obtain ⟨assocMap, hassocMap, hrun⟩ := bind_eq_ok.mp hrun
  obtain ⟨guidMap, -, hrun⟩ := bind_eq_ok.mp hrun
  obtain rfl := Except.ok.inj hrun
  simp only [Function.update_idem, update_of_mem hnew _ hp]
  refine ⟨trivial, rfl, rfl, rfl, rfl, rfl, ?_, ?_⟩
  · exact (hf.yields_file (fun entry => tb.digest (uint64Bytes entry.id)) I.indexed.id hnew
      ⟨stat.id, parentId, guid, some name.val, node, _⟩).of_ok hidMap
  · exact (hf.yields_file (fun entry => hashAssoc tb entry.parentId (entry.name.getD []))
      I.indexed.assoc
      (fun h => hnew (mem_named.mp h).1) ⟨stat.id, parentId, guid, some name.val, node,
        _⟩).of_ok hassocMap

namespace Files

variable {json : Json} {entry : NodeEntry} (F : Files tb ctx S json entry ctx') (I : Inv tb ctx S)

include F

theorem self : ctx'.ents ctx.nextEntry = entry := by
  rw [F.ents, Function.update_self]

include I

theorem other {x : EntryRef} (hx : x ∈ S) : ctx'.ents x = ctx.ents x := by
  rw [F.ents]
  exact update_of_mem I.nextEntry_not_mem _ hx

/-- Entries are found by their identifiers, of which that of the new one is the largest. -/
theorem lookupId_mem (hid : ctx.maxId < entry.id) :
    ∀ x ∈ insert ctx.nextEntry S, lookupId tb ctx' (ctx'.ents x).id = .ok (some x) := by
  have hinj : ∀ x ∈ insert ctx.nextEntry S, ∀ y ∈ insert ctx.nextEntry S,
      (ctx'.ents x).id = (ctx'.ents y).id → x = y := by
    have hfresh : ∀ x ∈ S, (ctx.ents x).id ≠ entry.id :=
      fun x hx => ((I.max_id.2 x hx).trans_lt hid).ne
    intro x hx y hy h
    rcases Finset.mem_insert.mp hx with rfl | hx <;> rcases Finset.mem_insert.mp hy with rfl | hy
    · rfl
    · rw [F.self, F.other I hy] at h
      exact absurd h.symm (hfresh y hy)
    · rw [F.self, F.other I hx] at h
      exact absurd h (hfresh x hx)
    · rw [F.other I hx, F.other I hy] at h
      exact I.forest.id_inj x hx y hy h
  intro x hx
  obtain ⟨found, hrun, hlook⟩ := lookupId_spec F.id hinj (ctx'.ents x).id
  rw [hrun, (hlook x).mpr ⟨hx, rfl⟩]

/-- The new entry is found by its name, if no other has it in the same folder. -/
theorem lookupName_self (hflag : ctx.flags.filenameGuid = false) {name : Bytes}
    (hname : entry.name = some name)
    (hfree : ∀ e ∈ named ctx.ents S, (ctx.ents e).parentId = entry.parentId →
      (ctx.ents e).name ≠ some name) :
    ∃ lctx, lookupName tb ctx' entry.parentId name = .ok (true, lctx, some ctx.nextEntry) := by
  obtain ⟨found, hrun, hfound, hnone⟩ := lookupAssoc_spec F.assoc entry.parentId name
  simp only [lookupName, F.flags, hflag, Bool.false_eq_true, if_false, hrun, ok_bind]
  cases found with
  | none =>
    refine absurd ?_ (hnone rfl ctx.nextEntry (Finset.mem_insert_self _ _) ?_)
    · rw [F.self, hname]
    · rw [F.self]
  | some q =>
    obtain ⟨e, id⟩ := q
    obtain ⟨he, hparent, hename, -⟩ := hfound e id rfl
    rcases Finset.mem_insert.mp he with rfl | he
    · exact ⟨_, rfl⟩
    · rw [F.other I (mem_named.mp he).1] at hparent hename
      exact absurd hename (hfree e he hparent)

end Files

theorem linked_get (json : Json) (isDir : Bool) (id : ℕ) (guid name : Bytes) (now : Timespec)
    (siblings : Value) {n : NodeRef} (hn : n ≠ json.nextNode) (k : Key) :
    (nodeMtimeNow ((builtJson json isDir id guid name now).arrayAppend siblings json.nextNode)
      n now).get
      json.nextNode k = builtObject isDir json.nextArray id guid name now k := by
  rw [nodeMtimeNow, Json.get_set_of_node hn.symm, Json.arrayAppend, Json.setElems_get,
    builtJson_get, if_pos rfl]

theorem builtObject_children (isDir : Bool) (children : ArrayRef) (id : ℕ) (guid name : Bytes)
    (now : Timespec) :
    (if isDir = true then builtObject isDir children id guid name now .children else none) =
      if isDir then some (.array children) else none := by
  cases isDir <;> rfl

theorem parseStats_built {json : Json} {isDir : Bool} {children : ArrayRef} {id : ℕ}
    {guid name : Bytes} {now : Timespec} (hnow : now.Valid) {entry : NodeEntry}
    (hget : ∀ k, json.get entry.node k = builtObject isDir children id guid name now k)
    (hchildren : entry.children = if isDir then some (.array children) else none) :
    parseStats json entry id =
    some ⟨id, if isDir then none else some 0, now.micros, now.micros⟩ := by
  have hatime : storedAtime json entry.node = some now.micros := by
    rw [storedAtime, hget]
    exact parseTs_buildTsnode hnow
  have hmtime : storedMtime json entry.node = some now.micros := by
    rw [storedMtime, hget, hget]
    exact parseTs_buildTsnode hnow
  rw [parseStats_eq, hatime, hmtime, hchildren, hget]
  cases isDir <;> rfl

theorem Inv.lookupId_mem (I : Inv tb ctx S) {e : EntryRef} (he : e ∈ S) :
    lookupId tb ctx (ctx.ents e).id = .ok (some e) := by
  obtain ⟨r, hlookup, hlook⟩ := I.lookupId_spec (ctx.ents e).id
  rw [hlookup, (hlook e).mpr ⟨he, rfl⟩]

section Create

variable (I : Inv tb ctx S) (hwatching : ctx.watching = true) (hloaded : ctx.loaded = true)
  {p : EntryRef} (hp : p ∈ S) (hdir : (ctx.ents p).name ≠ none ∧ (ctx.ents p).children ≠ none)

include I hwatching hloaded hp hdir

theorem looksUp_exist {e : EntryRef} {name : CString} {lctx : LookupCtx w} {stat : Stat}
    (he : e ∈ named ctx.ents S)
    (hname : lookupName tb ctx (ctx.ents p).id name = .ok (true, lctx, some e))
    (hstats : parseStats ctx.json (ctx.ents e) (ctx.ents e).id = some stat) :
    ctx.LooksUp tb (ctx.ents p).id name stat := by
  obtain ⟨heS, heroot, hshown⟩ := mem_named.mp he
  have hid := parseStats_id hstats
  have hparse := (I.forest.describes e heS heroot).id
  refine .of_found hwatching hloaded (I.lookupId_mem hp) hdir hname ?_ hshown ?_ ?_ (.refl _)
  · rw [hid, I.lookupId_mem heS]
  · rw [hid, hparse]
  · rw [hid, hstats]

/-- Where it is not, once the node is linked and its entry filed -/
theorem looksUp_created (hf : tb.Faithful) (hflag : ctx.flags.filenameGuid = false)
    (henv : env.WellFormed)
    (hmax : ctx.maxId + 1 ≤ maxBookmarkId) {siblings : Value} {name : CString} {isDir : Bool}
    (hfree : ∀ e ∈ named ctx.ents S, (ctx.ents e).parentId = (ctx.ents p).id →
      (ctx.ents e).name ≠ some name.val)
    {guid : Bytes} {hashcode : Word w} {stat : Stat}
    (hstat : stat = ⟨ctx.maxId + 1, if isDir then none else some 0, env.now, env.now⟩)
    {r : Except Errno Stat × Ctx w}
    (hrun : addNode tb
      { ctx with json := builtJson ctx.json isDir (ctx.maxId + 1) guid name env.now,
                                  maxId := ctx.maxId + 1 } env.now (ctx.ents p).id p siblings
                                  ctx.json.nextNode name
      isDir ⟨hashAssoc tb (ctx.ents p).id name, 0, []⟩ ⟨guid, hashcode, stat⟩ = .ok r) :
    r.1 = .ok stat ∧ r.2.LooksUp tb (ctx.ents p).id name stat := by
  obtain ⟨hreply, F⟩ := addNode_files hf I hflag hp hrun
  have hchildren :
    (if isDir = true then
    ((builtJson ctx.json isDir (ctx.maxId + 1) guid name.val env.now).arrayAppend
      siblings ctx.json.nextNode).get ctx.json.nextNode .children else none) =
        if isDir then some (.array ctx.json.nextArray) else none := by
    rw [Json.arrayAppend, Json.setElems_get, builtJson_get, if_pos rfl, builtObject_children]
  rw [hchildren, hstat] at F
  have hself := F.self
  have hfind := F.lookupId_mem I (Nat.lt_succ_self _)
  obtain ⟨lctx, hname⟩ := F.lookupName_self I hflag rfl hfree
  have hp' := F.other I hp
  have hget := fun k => F.json ▸ linked_get ctx.json isDir (ctx.maxId + 1)
    guid name.val env.now siblings
    (I.forest.node_lt p hp).ne k
  have hstats : parseStats r.2.json (r.2.ents ctx.nextEntry) stat.id =
      some ⟨ctx.maxId + 1, if isDir then none else some 0, env.now.micros, env.now.micros⟩ := by
    rw [hstat]
    exact parseStats_built henv.now (by rw [hself]; exact hget) (by rw [hself])
  refine ⟨hreply, .of_found (F.watching.trans hwatching) (F.loaded.trans hloaded) ?_
    (hp'.symm ▸ hdir) hname ?_ ?_ ?_
    hstats ?_⟩
  · rw [← hp', hfind p (Finset.mem_insert_of_mem hp)]
  · rw [hstat, ← hfind _ (Finset.mem_insert_self _ _), hself]
  · rw [hself]
    exact Option.some_ne_none _
  · rw [hself, hstat]
    exact parseId_decimal (hget .id) hmax
  · rw [hstat]
    exact ⟨rfl, rfl, (micros_micros _).symm, (micros_micros _).symm⟩

end Create

theorem doLoad_ne_exist {file : Option Document} {err : Errno}
    (h : doLoad tb ctx file = .ok (some err, ctx')) :
    err ≠ .exist := by
  unfold doLoad at h
  cases file with
  | none =>
    cases h
    decide
  | some doc =>
  dsimp only at h
  split at h
  · cases h
    decide
  split at h
  · cases h
    decide
  cases hroots : doc.roots with
  | none =>
    rw [hroots] at h
    cases h
    decide
  | some roots =>
  rw [hroots] at h
  obtain ⟨new, -, h⟩ := bind_eq_ok.mp h
  cases new <;> cases h
  decide

theorem storeLoad_ne_exist {err : Errno} (h : storeLoad tb ctx env = .ok (some err, ctx')) :
    err ≠ .exist := by
  rw [storeLoad] at h
  split at h
  · split at h
    · cases h
      decide
    · exact doLoad_ne_exist h
  split at h
  · cases h
  split at h
  · split at h
    · cases h
    · exact doLoad_ne_exist h
  · exact doLoad_ne_exist h
  · cases h
    decide
  · cases h
    decide

theorem buildNode_ne_exist {node : NodeRef} {name : Bytes} {isDir : Bool} {err : Errno}
    (h : buildNode tb ctx env node name isDir = .ok (.error err, ctx')) : err ≠ .exist := by
  rw [buildNode] at h
  split at h
  · cases h
    decide
  dsimp only at h
  split at h
  · split at h
    · cases h
    · obtain ⟨hashcode, -, h⟩ := bind_eq_ok.mp h
      cases h
  · cases h
    decide

theorem other_error {err : Errno} (h : err ≠ .exist) :
    ¬((∃ stat : Stat, (Except.error err : Except Errno Stat) = .ok stat) ∨
      (Except.error err : Except Errno Stat) = .error .exist) := by
  rintro (⟨stat, hok⟩ | hexist)
  · cases hok
  · exact h (Except.error.inj hexist)

/-- Whenever a creation succeeds, or the name is taken, lookups reply the same. -/
theorem create_looksUp (hf : tb.Faithful) (henv : env.WellFormed) (C : ctx.Consistent tb)
    {parentId : ℕ} {name : CString} {isDir : Bool} {reply : Except Errno Stat}
    (hreply : (∃ stat, reply = .ok stat) ∨ reply = .error .exist)
    (hrun : bookmarkCreate tb ctx env parentId name isDir = .ok (reply, ctx')) :
    ∃ stat, createStat tb ctx' parentId name reply = .ok (some stat) ∧
    ctx'.LooksUp tb parentId name stat := by
  rw [bookmarkCreate] at hrun
  split at hrun
  · cases hrun
    exact absurd hreply (other_error (by decide))
  next hroot =>
  obtain ⟨⟨status, ctx₁⟩, hload, hrun⟩ := bind_eq_ok.mp hrun
  cases status with
  | some err =>
    cases hrun
    exact absurd hreply (other_error (storeLoad_ne_exist hload))
  | none =>
  obtain ⟨-, -, hinv⟩ := (storeLoad_spec hf henv C).of_ok hload
  obtain ⟨hloaded, hwatching, S, I⟩ := hinv rfl
  obtain ⟨found, hlookup, hrun⟩ := bind_eq_ok.mp hrun
  cases found with
  | none =>
    cases hrun
    exact absurd hreply (other_error (by decide))
  | some p =>
  obtain ⟨r, hlookup', hlook⟩ := I.lookupId_spec parentId
  rw [hlookup] at hlookup'
  cases hlookup'
  obtain ⟨hp, rfl⟩ := (hlook p).mp rfl
  dsimp only at hrun
  split at hrun
  · cases hrun
    exact absurd hreply (other_error (by decide))
  next hname =>
  have hflag := I.title_mode hp (fun h => hroot ((I.id_eq_root hp).mpr h)) hname
  split at hrun
  next siblings hsiblings =>
    have hdir : (ctx₁.ents p).name ≠ none ∧ (ctx₁.ents p).children ≠ none :=
      ⟨hname, hsiblings ▸ Option.some_ne_none _⟩
    obtain ⟨r, hlookupName, hrun⟩ := bind_eq_ok.mp hrun
    obtain ⟨r', hr', hspec⟩ := I.lookupName_spec hflag (ctx₁.ents p).id name
    obtain rfl := Except.ok.inj (hlookupName.symm.trans hr')
    obtain ⟨e, id, rfl, he, -⟩ | ⟨rfl, hfree⟩ := hspec
    · have hid := (I.forest.describes e (mem_named.mp he).1 (mem_named.mp he).2.1).id
      simp only [if_true, hid] at hrun
      cases hstats : parseStats ctx₁.json (ctx₁.ents e) (ctx₁.ents e).id with
      | none =>
        rw [hstats] at hrun
        cases hrun
        exact absurd hreply (other_error (by decide))
      | some stat =>
        rw [hstats] at hrun
        cases hrun
        refine ⟨stat, ?_, looksUp_exist I hwatching hloaded hp hdir he hlookupName hstats⟩
        simp only [createStat, hlookupName, ok_bind, Option.bind_some, hid, hstats]
    · simp only [Bool.false_eq_true, if_false, Option.isSome_none] at hrun
      obtain ⟨⟨built, ctx₂⟩, hbuild, hrun⟩ := bind_eq_ok.mp hrun
      cases built with
      | error err =>
        cases hrun
        exact absurd hreply (other_error (buildNode_ne_exist hbuild))
      | ok bctx =>
      obtain ⟨err, herr, -⟩ | ⟨hashcode, hmax, -, -, heq⟩ :=
        (buildNode_spec I hflag env name.val isDir).of_ok hbuild
      · cases herr
      · cases heq
        obtain ⟨hok, hlooks⟩ :=
          looksUp_created I hwatching hloaded hp hdir hf hflag henv hmax hfree rfl hrun
        obtain rfl : reply = .ok _ := hok
        exact ⟨_, rfl, hlooks⟩
  · cases hrun
    exact absurd hreply (other_error (by decide))

end BookmarkFS.Chromium
