import BookmarkFS.Chromium.Calls
import BookmarkFS.Firefox.Orphans

/-! # Time stamps in both stores

A store for Chromium holds microseconds since 1601 in decimal notation, one for
Firefox microseconds since 1970. What is left of a time stamp of the kernel is
the same in both.
-/
namespace BookmarkFS
open Library
open Chromium (Timespec timespecSecMax epochDiff buildTsnode parseTs)
open Firefox (timespecToUsecs usecsToTimespec)

def Chromium.Timespec.micros (ts : Timespec) : Timespec := ⟨ts.sec, ts.nsec / 1000 * 1000⟩

/-- The range of an `int64_t`. -/
def Int64Range (n : ℤ) : Prop := -2 ^ 63 ≤ n ∧ n < 2 ^ 63

/-- Everything that `build_tsnode()` computes before it prints the last of it. -/
def tsnodeValues (ts : Timespec) : List ℤ :=
  [ts.sec + epochDiff, (ts.sec + epochDiff) * 1000000, ts.nsec / 1000,
    (ts.sec + epochDiff) * 1000000 + ts.nsec / 1000]

/-- Everything that `parse_ts()` computes from what it has scanned. -/
def parseTsValues (microsecs : ℤ) : List ℤ :=
  [microsecs, microsecs / 1000000, microsecs / 1000000 - epochDiff, microsecs % 1000000,
    microsecs % 1000000 * 1000]

/-- Everything that `timespec_to_usecs()` computes. -/
def usecsValues (ts : Timespec) : List ℤ :=
  [ts.sec * 1000000, ts.nsec.tdiv 1000, timespecToUsecs ts]

/-- Everything that `usecs_to_timespec()` computes. -/
def timespecValues (microsecs : ℤ) : List ℤ :=
  [microsecs.tdiv 1000000, microsecs.tmod 1000000, microsecs.tmod 1000000 * 1000]

section Encoding

variable {ts : Timespec}

theorem Chromium.Timespec.Valid.bounds (h : ts.Valid) :
    0 ≤ ts.sec ∧ ts.sec ≤ 9211727563253 ∧ 0 ≤ ts.nsec ∧ ts.nsec < 1000000000 := by
  have hsec := h.sec
  simp only [Chromium.validTsSec, timespecSecMax, Bool.and_eq_true, decide_eq_true_eq] at hsec
  exact ⟨hsec.1, of_decide_eq_true hsec.2, h.nsec_nonneg, h.nsec_lt⟩

theorem values_in_range (h : ts.Valid) : ∀ n ∈ tsnodeValues ts ++
    parseTsValues ((ts.sec + epochDiff) * 1000000 + ts.nsec / 1000) ++ usecsValues ts ++
    timespecValues (timespecToUsecs ts), Int64Range n := by
  obtain ⟨hsec, hmax, hnsec, hlt⟩ := h.bounds
  have hdiv : ts.nsec.tdiv 1000 = ts.nsec / 1000 := Int.tdiv_eq_ediv_of_nonneg hnsec
  have husecs : 0 ≤ timespecToUsecs ts := by
    rw [timespecToUsecs, hdiv]
    omega
  simp only [tsnodeValues, parseTsValues, usecsValues, timespecValues,
    Int.tdiv_eq_ediv_of_nonneg husecs, Int.tmod_eq_emod_of_nonneg husecs]
  simp only [timespecToUsecs, hdiv, epochDiff, List.cons_append, List.nil_append,
    List.forall_mem_cons,
    Int64Range]
  refine ⟨?_, ?_, ?_, ?_, ?_, ?_, ?_, ?_, ?_, ?_, ?_, ?_, ?_, ?_, ?_, nofun⟩ <;> omega

theorem buildTsnode_length (h : ts.Valid) : (buildTsnode ts).length ≤ 19 := by
  obtain ⟨hsec, hmax, hnsec, hlt⟩ := h.bounds
  refine decimal_length_le ?_
  rw [epochDiff]
  omega

/-- `parse_ts()` accepts what `build_tsnode()` prints. -/
theorem parseTs_buildTsnode (h : ts.Valid) : parseTs (buildTsnode ts) = some ts.micros := by
  obtain ⟨hsec, hmax, hnsec, hlt⟩ := h.bounds
  have hpos : 0 ≤ (ts.sec + epochDiff) * 1000000 + ts.nsec / 1000 := by
    rw [epochDiff]
    omega
  have hlt63 : ((ts.sec + epochDiff) * 1000000 + ts.nsec / 1000).toNat < 2 ^ 63 := by
    rw [epochDiff]
    omega
  simp only [parseTs, buildTsnode, strtoll_decimal hlt63, Int.toNat_of_nonneg hpos]
  rw [if_neg (by rw [epochDiff]; rintro (h | h | h) <;> first | exact h rfl | omega)]
  simp only [Timespec.micros, epochDiff, Option.some.injEq, Timespec.mk.injEq]
  omega

theorem micros_micros (ts : Timespec) : ts.micros.micros = ts.micros := by
  simp only [Timespec.micros, Timespec.mk.injEq, true_and]
  omega

/-- `usecs_to_timespec()` undoes `timespec_to_usecs()`. -/
theorem usecsToTimespec_timespecToUsecs (h : ts.Valid) :
    0 ≤ timespecToUsecs ts ∧ usecsToTimespec (timespecToUsecs ts) = ts.micros := by
  obtain ⟨hsec, hmax, hnsec, hlt⟩ := h.bounds
  have hdiv : ts.nsec.tdiv 1000 = ts.nsec / 1000 := Int.tdiv_eq_ediv_of_nonneg hnsec
  have husecs : 0 ≤ timespecToUsecs ts := by
    rw [timespecToUsecs, hdiv]
    omega
  refine ⟨husecs, ?_⟩
  rw [usecsToTimespec, Int.tdiv_eq_ediv_of_nonneg husecs, Int.tmod_eq_emod_of_nonneg husecs,
    timespecToUsecs, hdiv]
  simp only [Timespec.micros, Timespec.mk.injEq]
  omega

end Encoding

/-! ## The store for Chromium -/

section Chromium

open Chromium Hopscotch

variable {w : WordSize} {tb : Tables w} {ctx ctx₀ : Chromium.Ctx w} {env : Chromium.Env}

/-- The time of the last access that `parse_stats()` decodes. -/
def storedAtime (json : Json) (node : NodeRef) : Option Timespec :=
  (jsonStringValue (json.get node .dateLastUsed)).bind parseTs

/-- The time of the last modification that `parse_stats()` decodes. -/
def storedMtime (json : Json) (node : NodeRef) : Option Timespec :=
  (jsonStringValue ((json.get node .dateModified).or (json.get node .dateAdded))).bind parseTs

theorem parseStats_eq (json : Json) (entry : NodeEntry) (id : ℕ) : parseStats json entry id =
    (storedAtime json entry.node).bind fun atime => (storedMtime json entry.node).map fun mtime =>
      ⟨id, match entry.children with
        | none => some (jsonStringLength (json.get entry.node .url))
        | some _ => none, atime, mtime⟩ := by
  simp only [parseStats, storedAtime, storedMtime]
  cases jsonStringValue (json.get entry.node .dateLastUsed) with
  | none => rfl
  | some atime =>
    cases jsonStringValue ((json.get entry.node .dateModified).or (json.get entry.node .dateAdded))
      with
    | none => cases h : parseTs atime <;> simp [h]
    | some mtime =>
      cases h : parseTs atime <;> cases h' : parseTs mtime <;> cases entry.children <;> simp [h, h']

section Stored

variable (json : Json) (node : NodeRef) {atime mtime : Option Timespec}

/-- The times stored are those that are set, and otherwise those that were there. -/
theorem storedTimes_storeTimes (hatime : ∀ ts ∈ atime, ts.Valid) (hmtime : ∀ ts ∈ mtime, ts.Valid) :
    storedAtime (storeTimes json node atime mtime) node =
      (atime.map Timespec.micros).or (storedAtime json node) ∧
    storedMtime (storeTimes json node atime mtime) node =
      (mtime.map Timespec.micros).or (storedMtime json node) := by
  cases atime with
  | none =>
    cases mtime with
    | none => exact ⟨rfl, rfl⟩
    | some mts =>
      have hparse := parseTs_buildTsnode (hmtime mts rfl)
      simp [storeTimes, storedAtime, storedMtime, Json.get_set, jsonStringValue, hparse]
  | some ats =>
    have hparse := parseTs_buildTsnode (hatime ats rfl)
    cases mtime with
    | none => simp [storeTimes, storedAtime, storedMtime, Json.get_set, jsonStringValue, hparse]
    | some mts =>
      have hparse' := parseTs_buildTsnode (hmtime mts rfl)
      simp [storeTimes, storedAtime, storedMtime, Json.get_set, jsonStringValue, hparse, hparse']

theorem storeTimes_url : (storeTimes json node atime mtime).get node .url = json.get node .url := by
  cases atime <;> cases mtime <;> simp [storeTimes, Json.get_set]

end Stored

/-! A store that has been loaded is watched, and stays so. -/

theorem mapsIterName_watching (parent e : EntryRef) (name : Bytes) :
    Yields (fun _ => True) (mapsIterName tb ctx parent e name) fun ctx' => ctx'.watching =
    ctx.watching := by
  rw [mapsIterName]
  dsimp only
  split
  · rfl
  split
  · rfl
  split
  · rfl
  refine (Yields.any _).bind fun found _ => ?_
  cases found with
  | some other => rfl
  | none => exact (Yields.any _).bind fun assocMap _ => rfl

theorem mapsIterCb_watching (node : NodeRef) (children : Option Value) (parent : EntryRef) :
    Yields (fun _ => True) (mapsIterCb tb ctx node children parent) fun r =>
      ∀ e ctx', r = some (e, ctx') → ctx'.watching = ctx.watching := by
  rw [mapsIterCb]
  cases parseId ctx.json node with
  | none => exact fun _ _ h => absurd h (by simp)
  | some id =>
  refine (Yields.any _).bind fun known _ => ?_
  split
  · exact fun _ _ h => absurd h (by simp)
  cases parseGuid ((jsonStringValue (ctx.json.get node .guid)).getD []) with
  | none => exact fun _ _ h => absurd h (by simp)
  | some guid =>
  refine (Yields.any _).bind fun known _ => ?_
  split
  · exact fun _ _ h => absurd h (by simp)
  cases jsonStringValue (ctx.json.get node .name) with
  | none => exact fun _ _ h => absurd h (by simp)
  | some name =>
  refine (Yields.any _).bind fun idMap _ => (Yields.any _).bind fun guidMap _ => ?_
  refine (mapsIterName_watching _ _ _).bind fun ctx₁ hctx e ctx' h => ?_
  obtain ⟨-, rfl⟩ := Prod.mk.inj (Option.some.inj h)
  exact hctx

theorem iterList_watching {visit : Chromium.Ctx w → NodeRef → EntryRef →
      Except Fault (Option (Chromium.Ctx w))}
    (hvisit : ∀ ctx node parent, Yields (fun _ => True) (visit ctx node parent) fun r =>
      ∀ ctx' ∈ r, ctx'.watching = ctx.watching) (nodes : List NodeRef) (parent : EntryRef)
    (ctx : Chromium.Ctx w) : Yields (fun _ => True) (iterList visit ctx nodes parent) fun r =>
      ∀ ctx' ∈ r, ctx'.watching = ctx.watching := by
  induction nodes generalizing ctx with
  | nil => exact fun ctx' h => by cases h; rfl
  | cons node nodes ih =>
    rw [iterList]
    refine (hvisit ctx node parent).bind fun r hr => ?_
    cases r with
    | none => exact nofun
    | some ctx₁ => exact (ih ctx₁).mono fun r h ctx' hctx' => (h ctx' hctx').trans (hr ctx₁ rfl)

theorem iterNode_watching (depth : ℕ) (ctx : Chromium.Ctx w) (node : NodeRef) (parent : EntryRef) :
    Yields (fun _ => True) (iterNode tb depth ctx node parent) fun r =>
      ∀ ctx' ∈ r, ctx'.watching = ctx.watching := by
  induction depth generalizing ctx node parent with
  | zero =>
    rw [iterNode]
    refine (mapsIterCb_watching node _ parent).bind fun r hr => ?_
    cases r with
    | none => rintro _ ⟨⟩
    | some found =>
      cases ctx.json.get node .children with
      | none => exact fun ctx' h => by cases h; exact hr _ _ rfl
      | some children => rintro _ ⟨⟩
  | succ depth ih =>
    rw [iterNode]
    refine (mapsIterCb_watching node _ parent).bind fun r hr => ?_
    cases r with
    | none => rintro _ ⟨⟩
    | some found =>
      cases ctx.json.get node .children with
      | none => exact fun ctx' h => by cases h; exact hr _ _ rfl
      | some children =>
        exact (iterList_watching ih _ _ _).mono fun r h ctx' hctx' =>
          (h ctx' hctx').trans (hr _ _ rfl)

theorem doLoad_watching (file : Option Document) : Yields (fun _ => True)
    (doLoad tb ctx file) fun r =>
    r.1 = none → r.2.watching = ctx.watching := by
  unfold doLoad
  cases file with
  | none => rintro ⟨⟩
  | some doc =>
  dsimp only
  split
  · rintro ⟨⟩
  split
  · rintro ⟨⟩
  cases doc.roots with
  | none => rintro ⟨⟩
  | some roots =>
  have hbuild : Yields (fun _ => True) (buildMaps tb ctx doc.json roots) fun r =>
      ∀ ctx' ∈ r, ctx'.watching = ctx.watching := by
    simp only [buildMaps, iterRoots]
    refine (Yields.any _).bind fun idMap _ => (Yields.any _).bind fun guidMap _ => ?_
    split
    · rintro _ ⟨⟩
    · exact iterList_watching (iterNode_watching _) _ _ _
  refine hbuild.bind fun r hr => ?_
  cases r with
  | none => rintro ⟨⟩
  | some new => exact fun _ => hr new rfl

theorem storeLoad_watching (h : storeLoad tb ctx₀ env = .ok (none, ctx)) : ctx.watching = true := by
  rw [storeLoad] at h
  split at h
  · split at h
    · cases h
    · exact (doLoad_watching _).of_ok h rfl
  next hwatching =>
    have hwatching : ctx₀.watching = true := by simpa using hwatching
    split at h
    · cases h; exact hwatching
    split at h
    · split at h
      · cases h; exact hwatching
      · exact ((doLoad_watching _).of_ok h rfl).trans hwatching
    · exact ((doLoad_watching _).of_ok h rfl).trans hwatching
    · cases h
    · cases h

/-- The reply of a lookup, which fails where a time is not there or cannot be decoded. -/
def statReply (id : ℕ) (valueLen : Option ℕ) : Option Timespec → Option Timespec →
    Except Errno Chromium.Stat
  | some atime, some mtime => .ok ⟨id, valueLen, atime, mtime⟩
  | _, _ => .error .io

theorem bookmarkLookup_statReply (hload : storeLoad tb ctx₀ env = .ok (none, ctx)) {id : ℕ}
    {e : EntryRef} (hfound : lookupId tb ctx id = .ok (some e)) (hname : (ctx.ents e).name ≠ none)
    (hfile : (ctx.ents e).children = none) : bookmarkLookup tb ctx₀ env id none =
      .ok (statReply id (some (jsonStringLength (ctx.json.get (ctx.ents e).node .url)))
        (storedAtime ctx.json (ctx.ents e).node) (storedMtime ctx.json (ctx.ents e).node),
        ctx) := by
  simp only [bookmarkLookup, lookupEntry, hload, hfound, ok_bind, if_neg hname, lookupStat, if_true,
    parseStats_eq, hfile]
  cases storedAtime ctx.json (ctx.ents e).node with
  | none => rfl
  | some atime => cases storedMtime ctx.json (ctx.ents e).node <;> rfl

variable {atime mtime : Option Timespec}

/-- Times that are set are seen by the lookups that follow, and no others change. -/
theorem chromium_times (hatime : ∀ ts ∈ atime, ts.Valid) (hmtime : ∀ ts ∈ mtime, ts.Valid)
    (hload : storeLoad tb ctx₀ env = .ok (none, ctx)) {id : ℕ} (hid : id ≠ rootId) {e : EntryRef}
    (hfound : lookupId tb ctx id = .ok (some e)) (hname : (ctx.ents e).name ≠ none)
    (hfile : (ctx.ents e).children = none) (htop : (ctx.ents e).parentId ≠ rootId) :
    ∃ ctx', bookmarkSet tb ctx₀ env id (.times atime mtime) = .ok (.ok (), ctx') ∧
      ∀ env', bookmarkLookup tb ctx' env' id none =
        .ok (statReply id (some (jsonStringLength (ctx.json.get (ctx.ents e).node .url)))
          ((atime.map Timespec.micros).or (storedAtime ctx.json (ctx.ents e).node))
          ((mtime.map Timespec.micros).or (storedMtime ctx.json (ctx.ents e).node)), ctx') := by
  have hvalid : ∀ time : Option Timespec, (∀ ts ∈ time, ts.Valid) →
      (time.any fun ts => !Chromium.validTsSec ts.sec) = false := by
    intro time htime
    cases time with
    | none => rfl
    | some ts => simp [(htime ts rfl).sec]
  have hset : bookmarkSet tb ctx₀ env id (.times atime mtime) = .ok (.ok (), { ctx with
      json := storeTimes ctx.json (ctx.ents e).node atime mtime
      dirty := if ctx.dirty = .none then .metadata else ctx.dirty }) := by
    simp only [bookmarkSet, if_neg hid, hload, hfound, ok_bind, if_neg hname, if_neg htop, setTimes,
      hvalid atime hatime, hvalid mtime hmtime]
    rfl
  refine ⟨_, hset, fun env' => ?_⟩
  have hload' : storeLoad tb { ctx with
      json := storeTimes ctx.json (ctx.ents e).node atime mtime
      dirty := if ctx.dirty = .none then .metadata else ctx.dirty } env' = .ok (none, { ctx with
      json := storeTimes ctx.json (ctx.ents e).node atime mtime
      dirty := if ctx.dirty = .none then .metadata else ctx.dirty }) := by
    have hdirty : (if ctx.dirty = .none then DirtyLevel.metadata else ctx.dirty) ≠ .none := by
      split
      · simp
      · assumption
    simp [storeLoad, storeLoad_watching hload, hdirty]
  obtain ⟨ha, hm⟩ := storedTimes_storeTimes ctx.json (ctx.ents e).node hatime hmtime
  rw [bookmarkLookup_statReply hload' hfound hname hfile, ha, hm, storeTimes_url]

end Chromium

/-! ## The store for Firefox -/

section Firefox

open Firefox
open Chromium (Errno)

variable {db : Db} {ctx : Firefox.Ctx} {env : Firefox.Env} {atime mtime : Option Timespec}

/-- A row that is found by its identifier is found where it has been changed. -/
theorem find?_updateBookmarks {id : ℤ} {b : MozBookmark} {f : MozBookmark → MozBookmark}
    (hf : ∀ b, (f b).id = b.id) (hb : (db.bookmarks.find? fun b => bound id = some b.id) = some b) :
    ((updateBookmarks db (·.id = id) f).bookmarks.find? fun b => bound id = some b.id) =
    some (f b) := by
  have hid : bound id = some b.id := by simpa using List.find?_some hb
  have hcongr : ∀ c : MozBookmark, (if c.id = id then f c else c).id = c.id := fun c => by
    split
    · exact hf c
    · rfl
  simp only [updateBookmarks, List.find?_map, Function.comp_def, decide_eq_true_eq, hcongr, hb,
    Option.map_some, if_pos (bound_eq_some.mp hid).2.symm]

theorem place_updatePlaces {id : ℤ} (hid : 0 < id) {p : MozPlace} {f : MozPlace → MozPlace}
    (hf : ∀ p, (f p).id = p.id) (hp : db.place (some id) = some p) :
    (updatePlaces db (fun mp => bound id = some mp.id) f).place (some id) = some (f p) := by
  have hp : (db.places.find? fun p => p.id = id) = some p := hp
  have hpid : p.id = id := by simpa using List.find?_some hp
  have hcongr : ∀ c : MozPlace, (if bound id = some c.id then f c else c).id = c.id := fun c => by
    split
    · exact hf c
    · rfl
  simp only [Db.place, updatePlaces, Option.bind_some, List.find?_map, Function.comp_def,
    decide_eq_true_eq, hcongr, hp, Option.map_some, if_pos (bound_eq_some.mpr ⟨hid.le, hpid.symm⟩)]

theorem bookmarkLookup_of_row {id : ℤ} {b : MozBookmark} {p : MozPlace}
    (hvalid : isValidId b.id = true)
    (hb : (db.bookmarks.find? fun b => bound id = some b.id) = some b)
    (hp : db.place b.fk = some p) :
    bookmarkLookup db ctx id none .bookmark = .ok ⟨b.id, p.url.length,
      some (usecsToTimespec (p.lastVisitDate.getD 0)), usecsToTimespec b.lastModified⟩ := by
  simp [bookmarkLookup, bookmarkDoLookup, hb, bookmarkLookupCb, hvalid, hp]

/-- As for the other store. -/
theorem firefox_times (hatime : ∀ ts ∈ atime, ts.Valid) (hmtime : ∀ ts ∈ mtime, ts.Valid) {id : ℤ}
    {b : MozBookmark} (hb : (db.bookmarks.find? fun b => bound id = some b.id) = some b)
    {p : MozPlace} (hp : db.place b.fk = some p) (hpos : 0 < p.id) {stat : Firefox.Stat}
    (hstat : bookmarkLookup db ctx id none .bookmark = .ok stat) :
    ∃ db', bookmarkSet env ctx id (.times atime mtime) db = (.ok (), db') ∧
      bookmarkLookup db' ctx id none .bookmark = .ok { stat with
        atime := (atime.map Timespec.micros).or stat.atime
        mtime := (mtime.map Timespec.micros).getD stat.mtime } := by
  have hid : bound id = some b.id := by simpa using List.find?_some hb
  obtain ⟨fk, hfk⟩ : ∃ fk, b.fk = some fk := by
    cases hfk : b.fk with
    | none => rw [hfk] at hp; cases hp
    | some fk => exact ⟨fk, rfl⟩
  rw [hfk] at hp
  have hpid : p.id = fk := by
    have hp : (db.places.find? fun p => p.id = fk) = some p := hp
    simpa using List.find?_some hp
  subst hpid
  have hinvalid : ∀ time : Option Timespec, (∀ ts ∈ time, ts.Valid) →
      ¬∃ ts, time = some ts ∧ Chromium.validTsSec ts.sec = false := by
    rintro time htime ⟨ts, rfl, hts⟩
    rw [(htime ts rfl).sec] at hts
    cases hts
  have hupdates : (SetArg.times atime mtime).updates env ctx = .ok ⟨none, mtime.map timespecToUsecs,
      atime.map fun ts => (none, some (timespecToUsecs ts), none)⟩ := by
    rw [SetArg.updates, if_neg (hinvalid atime hatime), if_neg (hinvalid mtime hmtime)]
  -- the row, and the place if the time of the last visit is set
  have hrow : mozbmUpdate db id none none (mtime.map timespecToUsecs) = .ok (p.id,
      updateBookmarks db (·.id = id) fun b =>
        { b with lastModified := (mtime.map timespecToUsecs).getD b.lastModified }) := by
    simp [mozbmUpdate, hb, MozBookmark.placeId, hfk]
  have hvalid : isValidId b.id = true := by
    cases hvalid : isValidId b.id with
    | true => rfl
    | false => simp [bookmarkLookup, bookmarkDoLookup, hb, bookmarkLookupCb, hvalid] at hstat
  obtain rfl := Except.ok.inj (hstat.symm.trans (bookmarkLookup_of_row hvalid hb (hfk ▸ hp)))
  have hmodified : usecsToTimespec ((mtime.map timespecToUsecs).getD b.lastModified) =
      (mtime.map Timespec.micros).getD (usecsToTimespec b.lastModified) := by
    cases mtime with
    | none => rfl
    | some ts => exact (usecsToTimespec_timespecToUsecs (hmtime ts rfl)).2
  have hrow' := find?_updateBookmarks
    (f := fun b => { b with lastModified := (mtime.map timespecToUsecs).getD b.lastModified })
      (fun _ => rfl) hb
  cases atime with
  | none =>
    refine ⟨_, by simp only [bookmarkSet, hupdates, transaction, hrow, ok_bind]; rfl, ?_⟩
    refine (bookmarkLookup_of_row (p := p) ?_ hrow' ?_).trans ?_
    · exact hvalid
    · rw [hfk]; exact hp
    · simp [hmodified]
  | some ts =>
    have hvisit := (usecsToTimespec_timespecToUsecs (hatime ts rfl)).2
    have hp' : Db.place (updateBookmarks db (·.id = id) fun b =>
        { b with lastModified := (mtime.map timespecToUsecs).getD b.lastModified })
          (some p.id) = some p := hp
    have hplace := place_updatePlaces hpos (f := fun mp => { mp with
      lastVisitDate := some (timespecToUsecs ts) <|> mp.lastVisitDate
      description := none <|> mp.description }) (fun _ => rfl) hp'
    refine ⟨_, by simp only [bookmarkSet, hupdates, transaction, hrow, ok_bind, Option.map_some,
      if_neg hpos.ne', mozplaceUpdate, mozplaceReplace, if_true]; rfl, ?_⟩
    refine (@bookmarkLookup_of_row (updatePlaces _ _ _) _ _
      { b with lastModified := (mtime.map timespecToUsecs).getD b.lastModified } _ hvalid hrow'
      ((congrArg _ hfk).trans hplace)).trans ?_
    simp [hmodified, hvisit]

end Firefox

/-- A time that can be set is stored up to whole microseconds in either store, without an overflow
and in a form that is read back; and a time that is not set stays. -/
theorem times_survive {atime mtime : Option Timespec} (hatime : ∀ ts ∈ atime, ts.Valid)
    (hmtime : ∀ ts ∈ mtime, ts.Valid) :
    (∀ {w : Hopscotch.WordSize} {tb : Chromium.Tables w} {ctx₀ ctx : Chromium.Ctx w}
      {env : Chromium.Env}
      {id : ℕ} {e : Chromium.EntryRef}, Chromium.storeLoad tb ctx₀ env = .ok (none, ctx) →
      id ≠ Chromium.rootId → Chromium.lookupId tb ctx id = .ok (some e) → (ctx.ents e).name ≠ none →
      (ctx.ents e).children = none → (ctx.ents e).parentId ≠ Chromium.rootId →
      Chromium.bookmarkLookup tb ctx₀ env id none =
          .ok (statReply id (some (Chromium.jsonStringLength (ctx.json.get (ctx.ents e).node .url)))
            (storedAtime ctx.json (ctx.ents e).node) (storedMtime ctx.json (ctx.ents e).node),
            ctx) ∧
        ∃ ctx', Chromium.bookmarkSet tb ctx₀ env id (.times atime mtime) = .ok (.ok (), ctx') ∧
          ∀ env', Chromium.bookmarkLookup tb ctx' env' id none =
            .ok (statReply id
              (some (Chromium.jsonStringLength (ctx.json.get (ctx.ents e).node .url)))
              ((atime.map Timespec.micros).or (storedAtime ctx.json (ctx.ents e).node))
              ((mtime.map Timespec.micros).or (storedMtime ctx.json (ctx.ents e).node)), ctx')) ∧
    (∀ {db : Firefox.Db} {ctx : Firefox.Ctx} {env : Firefox.Env} {id : ℤ} {b : Firefox.MozBookmark}
      {p : Firefox.MozPlace} {stat : Firefox.Stat},
      (db.bookmarks.find? fun b => Firefox.bound id = some b.id) = some b → db.place b.fk = some p →
      0 < p.id → Firefox.bookmarkLookup db ctx id none .bookmark = .ok stat →
      ∃ db', Firefox.bookmarkSet env ctx id (.times atime mtime) db = (.ok (), db') ∧
        Firefox.bookmarkLookup db' ctx id none .bookmark = .ok { stat with
          atime := (atime.map Timespec.micros).or stat.atime
          mtime := (mtime.map Timespec.micros).getD stat.mtime }) ∧
    ∀ ts, ts ∈ atime ∨ ts ∈ mtime →
      (∀ n ∈ tsnodeValues ts ++ parseTsValues ((ts.sec + epochDiff) * 1000000 + ts.nsec / 1000) ++
        usecsValues ts ++ timespecValues (timespecToUsecs ts), Int64Range n) ∧
      (buildTsnode ts).length ≤ 19 ∧ parseTs (buildTsnode ts) = some ts.micros ∧
      usecsToTimespec (timespecToUsecs ts) = ts.micros := by
  refine ⟨fun hload hid hfound hname hfile htop => ?_, fun hb hp hpos hstat =>
    firefox_times hatime hmtime hb hp hpos hstat, fun ts hts => ?_⟩
  · exact ⟨bookmarkLookup_statReply hload hfound hname hfile,
      chromium_times hatime hmtime hload hid hfound hname hfile htop⟩
  · have hvalid : ts.Valid := hts.elim (hatime ts) (hmtime ts)
    exact ⟨values_in_range hvalid, buildTsnode_length hvalid, parseTs_buildTsnode hvalid,
      (usecsToTimespec_timespecToUsecs hvalid).2⟩

/-- The latest time that can be set, as the time of the last access only. -/
theorem times_survive_latest :
    (∃ ctx' : Chromium.Ctx .w64, ∀ env',
      Chromium.bookmarkLookup Chromium.polynomial ctx' env' 3 none =
      .ok (.ok ⟨3, some 0, ⟨9211727563253, 999999000⟩, ⟨0, 0⟩⟩, ctx')) ∧
    ∃ db', Firefox.bookmarkLookup db' ⟨1, 3, false, true⟩ 4 none .bookmark =
      .ok ⟨4, 2, some ⟨9211727563253, 999999000⟩, ⟨0, 0⟩⟩ := by
  have hvalid : Timespec.Valid ⟨9211727563253, 999999999⟩ := ⟨rfl, by decide, by decide⟩
  have hvalid : ∀ ts ∈ some (⟨9211727563253, 999999999⟩ : Timespec), ts.Valid :=
    fun ts hts => Option.some.inj hts ▸ hvalid
  obtain ⟨hchromium, hfirefox, -⟩ := times_survive hvalid (fun ts (hts : ts ∈ none) => by cases hts)
  constructor
  · have h : Yields (fun _ => False) (Chromium.storeLoad Chromium.polynomial
        (.created ⟨false, false, false⟩) Chromium.twoFolders) fun r => r.1 = none ∧
          Yields (fun _ => False) (Chromium.lookupId Chromium.polynomial r.2 3) fun found =>
          ∃ e ∈ found,
            (r.2.ents e).name ≠ none ∧ (r.2.ents e).children = none ∧
            (r.2.ents e).parentId ≠ Chromium.rootId ∧
            r.2.json.get (r.2.ents e).node .url = some (.string []) ∧
            storedMtime r.2.json (r.2.ents e).node = some ⟨0, 0⟩ := by
      decide +kernel
    obtain ⟨⟨status, ctx⟩, hload, hstatus, h⟩ := h.exists_ok
    obtain rfl : status = none := hstatus
    obtain ⟨found, hfound, e, rfl, hname, hfile, htop, hurl, hmtime⟩ := h.exists_ok
    obtain ⟨-, ctx', -, hafter⟩ := hchromium hload (by decide) hfound hname hfile htop
    rw [hurl, hmtime] at hafter
    exact ⟨ctx', hafter⟩
  · have hstat : Firefox.bookmarkLookup Firefox.tagged ⟨1, 3, false, true⟩ 4 none .bookmark =
        .ok ⟨4, 2, some ⟨0, 0⟩, ⟨0, 0⟩⟩ := by
      decide +kernel
    obtain ⟨db', -, hafter⟩ := @hfirefox _ _ ⟨⟨0, 0⟩, 0⟩ _ _ _ _ rfl rfl (by decide) hstat
    exact ⟨db', hafter⟩

end BookmarkFS
