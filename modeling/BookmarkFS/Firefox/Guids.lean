import BookmarkFS.Firefox.Base64
import BookmarkFS.Firefox.Operations
import BookmarkFS.Library.Retry

/-! # GUIDs of new rows

Rows of `moz_bookmarks` and `moz_places` have GUIDs, and no two rows of a table have the
same. A row that is inserted gets a random one; or, where GUIDs are filenames, the name
that the caller gives. If it is taken, the statement is made again: with another GUID for
a place, but for a bookmark with the one that has just failed.
-/
namespace BookmarkFS.Firefox
open Library
open Chromium (Errno Timespec)

/-- The tables with the columns `guid`, by the rowid -/
structure GuidDb where
  db : Db
  guid : ℤ → Option Bytes
  placeGuid : ℤ → Option Bytes

/-- The GUID is that of a row of `moz_bookmarks`. -/
def GuidDb.Taken (s : GuidDb) (guid : Bytes) : Prop := ∃ b ∈ s.db.bookmarks, s.guid b.id = some guid

/-- The GUID is that of a row of `moz_places`. -/
def GuidDb.PlaceTaken (s : GuidDb) (guid : Bytes) : Prop :=
  ∃ mp ∈ s.db.places, s.placeGuid mp.id = some guid

instance (s : GuidDb) (guid : Bytes) : Decidable (s.Taken guid) :=
  inferInstanceAs (Decidable (∃ b ∈ s.db.bookmarks, _))

instance (s : GuidDb) (guid : Bytes) : Decidable (s.PlaceTaken guid) :=
  inferInstanceAs (Decidable (∃ mp ∈ s.db.places, _))

/-- `is_valid_guid()` -/
def isValidGuid (str : Bytes) : Bool := str.length = 12 && str.all base64Url

/-! ## Lookups

The column of the filename is `guid` where `byGuid` is set, that is with `BACKEND_FILENAME_GUID`. -/

section Lookup

variable (s : GuidDb) (ctx : Ctx) (byGuid : Bool)

def GuidDb.column (b : MozBookmark) : Option Bytes := if byGuid then s.guid b.id else b.title

/-- `BOOKMARK_LOOKUP_GUID` or `BOOKMARK_LOOKUP_TITLE` -/
def GuidDb.lookupName (parent : ℤ) (name : Bytes) : Option MozBookmark :=
  (byPosition (s.db.bookmarks.filter fun b => bound parent = some b.parent ∧
    s.column byGuid b = some name)).head?

/-- `BOOKMARK_LOOKUP_TAG_GUID` or `BOOKMARK_LOOKUP_TAG_TITLE` -/
def GuidDb.lookupTagged (parent : ℤ) (name : Bytes) : Option MozBookmark :=
  let tagged := (s.db.bookmarks.filter fun b => bound parent = some b.parent).map (·.fk)
  (byId (s.db.bookmarks.filter fun b =>
    b.fk ≠ none ∧ b.fk ∈ tagged ∧ s.column byGuid b = some name)).head?.filter fun b =>
      (s.db.place b.fk).isSome

/-- `bookmark_do_lookup()`; `validate` is `BOOKMARKFS_BOOKMARK_LOOKUP_VALIDATE_GUID`. -/
def GuidDb.bookmarkDoLookup (id : ℤ) (name : Option Bytes) (type : BookmarkType) (validate : Bool) :
    Except Errno Stat :=
  match name with
  | none => Firefox.bookmarkDoLookup s.db ctx id none type
  | some name =>
    if byGuid && validate && !isValidGuid name then .error .perm
    else
      let found := match type with
        | .bookmark => s.lookupName byGuid id name
        | .tag => if id = ctx.tagsRootId then s.lookupName byGuid id name
            else s.lookupTagged byGuid id name
        | .keyword => s.db.lookupKeyword name
      match found with
      | none => .error .noent
      | some b => bookmarkLookupCb s.db (some ctx.tagsRootId) b

/-- `mozbm_lookup_id()`: the first row with the same place and filename. -/
def GuidDb.mozbmLookupId (id : ℤ) : Except Errno MozBookmark :=
  let found := (s.db.bookmarks.find? fun b => bound id = some b.id).bind fun b =>
    (byId (s.db.bookmarks.filter fun c => b.fk ≠ none ∧ s.column byGuid b ≠ none ∧ c.fk = b.fk ∧
      s.column byGuid c = s.column byGuid b)).head?
  match found with
  | none => .error .stale
  | some b => .ok b

end Lookup

/-! ## Insertions -/

/-- The statement of `mozbm_insert()`, and what comes after it if it succeeds -/
def GuidDb.insertRow (s : GuidDb) (parent : ℤ) (title : Option Bytes) (dateAdded placeId : ℤ)
    (guid : Bytes) :
    Except Errno (ℤ × GuidDb) := do
  let _ ← safeincr (maxPos s.db.bookmarks parent)
  if s.Taken guid then .error .exist
  else
    let (id, db) ← mozbmInsert s.db parent title dateAdded placeId
    .ok (id, { s with db := db, guid := Function.update s.guid id (some guid) })

/-- `mozbm_insert()`, which starts again with the same GUID. -/
def GuidDb.mozbmInsert (s : GuidDb) (parent : ℤ) (title : Option Bytes) (dateAdded placeId : ℤ)
    (guid : Bytes) (fuel : ℕ) : Option (Except Errno (ℤ × GuidDb)) :=
  retry (fun _ => match s.insertRow parent title dateAdded placeId guid with
    | .error .exist => .inl ()
    | r => .inr r) fuel ()

/-- `mozplace_addref()`, of which the insertion starts again with another GUID: the number of GUIDs
that have been drawn. -/
def GuidDb.mozplaceAddref (s : GuidDb) (random : ℕ → Bytes) (url : Bytes) (fuel : ℕ) :
    Option (Except Errno ((ℤ × Option ℤ) × GuidDb × ℕ)) :=
  match Firefox.mozplaceAddref s.db url with
  | .error err => some (.error err)
  | .ok ((id, some visit), db) => some (.ok ((id, some visit), { s with db := db }, 0))
  | .ok ((id, none), db) =>
    (retry (fun n => if s.PlaceTaken (random n) then .inl (n + 1) else .inr n) fuel 0).map fun n =>
      .ok ((id, none), { s with db := db, placeGuid := Function.update s.placeGuid id (some (random n)) }, n + 1)

/-! ## Creation -/

section Create

variable (env : Env) (ctx : Ctx) (byGuid : Bool) (random : ℕ → Bytes) (fuel : ℕ)

/-- The place of a new bookmark, or -1 for a folder, and the number of GUIDs that
have been drawn. -/
def GuidDb.createPlace (s : GuidDb) (isDir : Bool) :
    Option (Except Errno ((ℤ × Option Timespec) × GuidDb × ℕ)) :=
  if isDir then some (.ok ((-1, some ⟨0, 0⟩), s, 0))
  else
    (s.mozplaceAddref random aboutBlank fuel).map fun r => r.map fun (r, s, n) =>
      ((r.1, r.2.map usecsToTimespec), s, n)

/-- The reply for a new row, and the time of its folder -/
def GuidDb.created (parentId : ℤ) (isDir : Bool) (atime : Option Timespec) (r : ℤ × GuidDb) :
    Stat × GuidDb :=
  (⟨r.1, if isDir then -1 else 0, atime, env.now⟩,
    { r.2 with db := mozbmMtimeUpdate r.2.db parentId env.usecs })

/-- `bookmark_do_create()`, or nothing as long as it tries. -/
def GuidDb.bookmarkDoCreate (parentId : ℤ) (name : Bytes) (isDir : Bool) (s : GuidDb) :
    Option (Except Errno (Stat × GuidDb)) :=
  if parentId = ctx.rootId then some (.error .perm)
  else
    match s.bookmarkDoLookup ctx byGuid parentId (some name) .bookmark true with
    | .ok _ => some (.error .exist)
    | .error .noent =>
      match s.createPlace random fuel isDir with
      | none => none
      | some (.error err) => some (.error err)
      | some (.ok (place, s, n)) =>
        let guid := if byGuid then name else random n
        (s.mozbmInsert parentId (some name) env.usecs place.1 guid fuel).map
          (Except.map (GuidDb.created env parentId isDir place.2))
    | .error err => some (.error err)

/-- `tag_entry_add()` for the bookmark `id` -/
def GuidDb.tagEntryAdd (parentId : ℤ) (name : Bytes) (id : ℤ) (s : GuidDb) :
    Option (Except Errno (Stat × GuidDb)) :=
  match s.mozbmLookupId byGuid id with
  | .error err => some (.error err)
  | .ok mb =>
    if mb.placeId = 0 then some (.error .perm)
    else
      match tagEntryLookup s.db parentId mb.placeId with
      | .ok _ => some (.error .exist)
      | .error .noent =>
        (s.mozbmInsert parentId none env.usecs mb.placeId (random 0) fuel).map fun r => do
          let (_, s) ← r
          let stat ← s.bookmarkDoLookup ctx byGuid parentId (some name) .tag false
          let db ← mozplaceAddrefId s.db mb.placeId
          .ok (stat, { s with db := mozbmMtimeUpdate db parentId env.usecs })
      | .error err => some (.error err)

/-- `keyword_create()` for the bookmark `id` -/
def GuidDb.keywordCreate (keyword : Bytes) (id : ℤ) (s : GuidDb) :
    Except Errno (Stat × GuidDb) := do
  let mb ← s.mozbmLookupId byGuid id
  if mb.placeId = 0 then .error .perm
  else
    let db ← mozkwInsert s.db keyword mb.placeId
    let stat ← Firefox.bookmarkDoLookup db ctx mb.id none .bookmark
    let db ← mozplaceAddrefId db mb.placeId
    .ok (stat, { s with db := db })

/-- `txn_end()` or `txn_rollback()` -/
def GuidDb.txnEnd (s : GuidDb) : Except Errno (Stat × GuidDb) → Except Errno Stat × GuidDb
  | .ok (stat, s') => (.ok stat, s')
  | .error err => (.error err, s)

/-- `bookmark_create()`; `id` is that of the bookmark to tag or to give a keyword. -/
def GuidDb.bookmarkCreate (parentId : ℤ) (name : CString) (type : BookmarkType) (isDir : Bool)
    (id : ℤ) (s : GuidDb) :
    Option (Except Errno Stat × GuidDb) :=
  let r := match type with
    | .bookmark => s.bookmarkDoCreate env ctx byGuid random fuel parentId name.val isDir
    | .tag =>
      if isDir then s.bookmarkDoCreate env ctx byGuid random fuel parentId name.val isDir
      else s.tagEntryAdd env ctx byGuid random fuel parentId name.val id
    | .keyword => some (s.keywordCreate ctx byGuid name.val id)
  r.map s.txnEnd

end Create

/-! ## Titles as filenames

A creation that ends is one of those without GUIDs. -/

section Titles

variable {s : GuidDb} {ctx : Ctx} {env : Env} {random : ℕ → Bytes} {fuel : ℕ}

theorem mozbmInsert_titles {parent dateAdded placeId : ℤ} {title : Option Bytes} {guid : Bytes}
    {r : Except Errno (ℤ × GuidDb)}
    (h : s.mozbmInsert parent title dateAdded placeId guid fuel = some r) :
    Firefox.mozbmInsert s.db parent title dateAdded placeId = r.map fun r => (r.1, r.2.db) := by
  obtain ⟨-, hdone⟩ := of_retry h
  have hrow : s.insertRow parent title dateAdded placeId guid = r ∧ r ≠ .error .exist := by
    split at hdone
    · cases hdone
    next hne => exact ⟨Sum.inr.inj hdone, fun heq => hne (Sum.inr.inj hdone ▸ heq)⟩
  obtain ⟨rfl, hne⟩ := hrow
  rw [GuidDb.insertRow] at hne ⊢
  cases hposition : safeincr (maxPos s.db.bookmarks parent) with
  | error err => rw [Firefox.mozbmInsert, hposition]; rfl
  | ok position =>
    rw [hposition] at hne
    by_cases htaken : s.Taken guid
    · exact absurd (if_pos htaken) hne
    · simp only [bind, Except.bind, if_neg htaken]
      cases Firefox.mozbmInsert s.db parent title dateAdded placeId <;> rfl

theorem bookmarkDoLookup_titles (id : ℤ) (name : Option Bytes) (type : BookmarkType)
    (validate : Bool) :
    s.bookmarkDoLookup ctx false id name type validate = Firefox.bookmarkDoLookup s.db ctx id
    name type := by
  cases name with
  | none => rfl
  | some name => cases type <;> rfl

theorem createPlace_titles {isDir : Bool} {r : Except Errno ((ℤ × Option Timespec) × GuidDb × ℕ)}
    (h : s.createPlace random fuel isDir = some r) :
    Firefox.createPlace s.db isDir = r.map fun r => (r.1, r.2.1.db) := by
  cases isDir with
  | true =>
    obtain rfl := Option.some.inj h
    rfl
  | false =>
    rw [GuidDb.createPlace, if_neg Bool.false_ne_true] at h
    obtain ⟨r', haddref, rfl⟩ := Option.map_eq_some_iff.mp h
    have hplace : Firefox.mozplaceAddref s.db aboutBlank = r'.map fun r => (r.1, r.2.1.db) := by
      rw [GuidDb.mozplaceAddref] at haddref
      split at haddref
      next herr =>
        obtain rfl := Option.some.inj haddref
        exact herr
      next hold =>
        obtain rfl := Option.some.inj haddref
        exact hold
      next hnew =>
        obtain ⟨n, -, rfl⟩ := Option.map_eq_some_iff.mp haddref
        exact hnew
    rw [Firefox.createPlace, if_neg Bool.false_ne_true, hplace]
    cases r' <;> rfl

theorem bookmarkDoCreate_titles {parentId : ℤ} {name : Bytes} {isDir : Bool}
    {r : Except Errno (Stat × GuidDb)}
    (h : s.bookmarkDoCreate env ctx false random fuel parentId name isDir = some r) :
    Firefox.bookmarkDoCreate env ctx parentId name isDir s.db = r.map fun r => (r.1, r.2.db) := by
  rw [GuidDb.bookmarkDoCreate, bookmarkDoLookup_titles] at h
  rw [Firefox.bookmarkDoCreate]
  split at h
  next hroot =>
    obtain rfl := Option.some.inj h
    exact if_pos hroot
  next hroot =>
    rw [if_neg hroot]
    cases hlookup : Firefox.bookmarkDoLookup s.db ctx parentId (some name) .bookmark with
    | ok stat =>
      rw [hlookup] at h
      obtain rfl := Option.some.inj h
      rfl
    | error err =>
      rw [hlookup] at h
      cases err with
      | noent =>
        dsimp only at h ⊢
        split at h
        · cases h
        next herr =>
          obtain rfl := Option.some.inj h
          rw [createPlace_titles herr]
          rfl
        next place s₁ n hplace =>
          rw [createPlace_titles hplace]
          obtain ⟨inserted, hinsert, rfl⟩ := Option.map_eq_some_iff.mp h
          simp only [bind, Except.bind, Except.map]
          rw [mozbmInsert_titles hinsert]
          cases inserted <;> rfl
      | _ =>
        obtain rfl := Option.some.inj h
        rfl

theorem tagEntryAdd_titles {parentId id : ℤ} {name : Bytes} {r : Except Errno (Stat × GuidDb)}
    (h : s.tagEntryAdd env ctx false random fuel parentId name id = some r) :
    Firefox.tagEntryAdd env ctx parentId name id s.db = r.map fun r => (r.1, r.2.db) := by
  have hlookupId : s.mozbmLookupId false id = Firefox.mozbmLookupId s.db id := rfl
  rw [GuidDb.tagEntryAdd, hlookupId] at h
  rw [Firefox.tagEntryAdd]
  cases hlookup : Firefox.mozbmLookupId s.db id with
  | error err =>
    rw [hlookup] at h
    obtain rfl := Option.some.inj h
    rfl
  | ok mb =>
    rw [hlookup] at h
    simp only [bind, Except.bind] at h ⊢
    split at h
    next hplace =>
      obtain rfl := Option.some.inj h
      exact if_pos hplace
    next hplace =>
      rw [if_neg hplace]
      cases hentry : tagEntryLookup s.db parentId mb.placeId with
      | ok entry =>
        rw [hentry] at h
        obtain rfl := Option.some.inj h
        rfl
      | error err =>
        rw [hentry] at h
        cases err with
        | noent =>
          obtain ⟨inserted, hinsert, rfl⟩ := Option.map_eq_some_iff.mp h
          simp only [bookmarkDoLookup_titles]
          rw [mozbmInsert_titles hinsert]
          cases inserted with
          | error err => rfl
          | ok inserted =>
            simp only [Except.map]
            cases Firefox.bookmarkDoLookup inserted.2.db ctx parentId (some name) .tag with
            | error err => rfl
            | ok stat => cases mozplaceAddrefId inserted.2.db mb.placeId <;> rfl
        | _ =>
          obtain rfl := Option.some.inj h
          rfl

theorem keywordCreate_titles {id : ℤ} {keyword : Bytes} :
    Firefox.keywordCreate ctx keyword id s.db =
      (s.keywordCreate ctx false keyword id).map fun r => (r.1, r.2.db) := by
  have hlookupId : s.mozbmLookupId false id = Firefox.mozbmLookupId s.db id := rfl
  rw [GuidDb.keywordCreate, hlookupId, Firefox.keywordCreate]
  cases Firefox.mozbmLookupId s.db id with
  | error err => rfl
  | ok mb =>
    simp only [bind, Except.bind]
    split
    · rfl
    cases mozkwInsert s.db keyword mb.placeId with
    | error err => rfl
    | ok db =>
      dsimp only
      cases Firefox.bookmarkDoLookup db ctx mb.id none .bookmark with
      | error err => rfl
      | ok stat => cases mozplaceAddrefId db mb.placeId <;> rfl

/-- With titles as filenames, GUIDs decide whether a creation ends, and nothing else. -/
theorem bookmarkCreate_titles {parentId id : ℤ} {name : CString} {type : BookmarkType}
    {isDir : Bool} {r : Except Errno Stat} {s' : GuidDb}
    (h : s.bookmarkCreate env ctx false random fuel parentId name type isDir id = some (r, s')) :
    Firefox.bookmarkCreate env ctx parentId name type isDir id s.db = (r, s'.db) := by
  obtain ⟨done, hrun, hend⟩ := Option.map_eq_some_iff.mp h
  have htxn : ∀ {op : Db → Except Errno (Stat × Db)}, op s.db = done.map (fun r => (r.1, r.2.db)) →
      transaction op s.db = (r, s'.db) := by
    intro op hop
    rw [transaction, hop]
    cases done <;> cases hend <;> rfl
  refine htxn ?_
  cases type with
  | bookmark => exact bookmarkDoCreate_titles hrun
  | tag =>
    cases isDir with
    | true => exact bookmarkDoCreate_titles hrun
    | false => exact tagEntryAdd_titles hrun
  | keyword =>
    obtain rfl := Option.some.inj hrun
    exact keywordCreate_titles

end Titles

/-! ## Where an insertion ends -/

/-- `id` is a primary key, and `guid` is unique. -/
structure GuidDb.Keyed (s : GuidDb) : Prop where
  rows : s.db.KeysUnique
  guids : ∀ b ∈ s.db.bookmarks, ∀ c ∈ s.db.bookmarks, s.guid b.id ≠ none →
    s.guid b.id = s.guid c.id → b.id = c.id

/-- The random source has unused GUIDs again and again. -/
def GuidDb.Supplied (s : GuidDb) (random : ℕ → Bytes) : Prop :=
  ∀ n, ∃ m, n ≤ m ∧ ¬s.Taken (random m) ∧ ¬s.PlaceTaken (random m)

def GuidDb.Full (s : GuidDb) (parentId : ℤ) : Prop :=
  safeincr (maxPos s.db.bookmarks parentId) = .error .io

/-- The place of the new row draws `n` GUIDs: none where there already is one, and else all up to
the first that is not taken. -/
def GuidDb.Draws (s : GuidDb) (random : ℕ → Bytes) (isDir : Bool) (n : ℕ) : Prop :=
  if isDir = true ∨ ∃ mp ∈ s.db.places, mp.urlHash = mozplaceUrlHash aboutBlank ∧
    mp.url = aboutBlank then n = 0
  else ∃ k, n = k + 1 ∧ ¬s.PlaceTaken (random k) ∧ ∀ m < k, s.PlaceTaken (random m)

def GuidDb.Elsewhere (s : GuidDb) (parentId : ℤ) (guid : Bytes) : Prop :=
  ∃ b ∈ s.db.bookmarks, s.guid b.id = some guid ∧ b.parent ≠ parentId

variable {s s' : GuidDb} {random : ℕ → Bytes} {parent dateAdded placeId : ℤ} {title : Option Bytes}
  {guid : Bytes}

theorem safeincr_cases (last : Option ℤ) : (∃ position, safeincr last = .ok position) ∨
    safeincr last = .error .io := by
  cases last with
  | none => exact .inl ⟨_, rfl⟩
  | some n =>
    rw [safeincr]
    split
    · exact .inr rfl
    · exact .inl ⟨_, rfl⟩

theorem insertRow_full (h : s.Full parent) : s.insertRow parent title dateAdded placeId guid =
    .error .io := by
  rw [GuidDb.Full] at h
  rw [GuidDb.insertRow, h]
  rfl

theorem insertRow_taken (h : ¬s.Full parent) (htaken : s.Taken guid) :
    s.insertRow parent title dateAdded placeId guid = .error .exist := by
  obtain ⟨position, hposition⟩ := (safeincr_cases _).resolve_right h
  rw [GuidDb.insertRow, hposition]
  exact if_pos htaken

theorem insertRow_new (htaken : ¬s.Taken guid) : s.insertRow parent title dateAdded placeId guid ≠
    .error .exist := by
  rw [GuidDb.insertRow]
  rcases safeincr_cases (maxPos s.db.bookmarks parent) with ⟨position, hposition⟩ | hfull
  · rw [hposition]
    simp only [bind, Except.bind, if_neg htaken, Firefox.mozbmInsert, hposition]
    split
    · rename_i err hinsert
      split at hinsert
      · cases hinsert
        nofun
      · cases hinsert
    · nofun
  · rw [hfull]
    nofun

theorem mozbmInsert_full (h : s.Full parent) {fuel : ℕ} (hfuel : 0 < fuel) :
    s.mozbmInsert parent title dateAdded placeId guid fuel = some (.error .io) :=
  retry_done (by rw [insertRow_full h]) hfuel

theorem mozbmInsert_taken (h : ¬s.Full parent) (htaken : s.Taken guid) (fuel : ℕ) :
    s.mozbmInsert parent title dateAdded placeId guid fuel = none :=
  retry_stuck (by rw [insertRow_taken h htaken]) fuel

theorem mozbmInsert_new (htaken : ¬s.Taken guid) {fuel : ℕ} (hfuel : 0 < fuel) :
    ∃ r, s.mozbmInsert parent title dateAdded placeId guid fuel = some r := by
  refine ⟨s.insertRow parent title dateAdded placeId guid, retry_done ?_ hfuel⟩
  split
  next hexist => exact absurd hexist (insertRow_new htaken)
  · rfl

theorem mozbmInsert_ends :
    (∃ fuel r, s.mozbmInsert parent title dateAdded placeId guid fuel = some r) ↔
    s.Full parent ∨ ¬s.Taken guid := by
  constructor
  · rintro ⟨fuel, r, hrun⟩
    by_contra hboth
    obtain ⟨hfull, htaken⟩ := not_or.mp hboth
    rw [mozbmInsert_taken hfull (not_not.mp htaken)] at hrun
    cases hrun
  · rintro (hfull | htaken)
    · exact ⟨1, _, mozbmInsert_full hfull Nat.one_pos⟩
    · exact ⟨1, mozbmInsert_new htaken Nat.one_pos⟩

/-! ## Where a creation ends -/

theorem draws_unique {isDir : Bool} {n m : ℕ} (hn : s.Draws random isDir n)
    (hm : s.Draws random isDir m) : n = m := by
  rw [GuidDb.Draws] at hn hm
  split at hn
  next hnone =>
    rw [if_pos hnone] at hm
    rw [hn, hm]
  next hsome =>
    rw [if_neg hsome] at hm
    obtain ⟨k, rfl, hk, hbefore⟩ := hn
    obtain ⟨l, rfl, hl, hbefore'⟩ := hm
    rcases Nat.lt_trichotomy k l with hlt | rfl | hlt
    · exact absurd (hbefore' k hlt) hk
    · rfl
    · exact absurd (hbefore l hlt) hl

/-- What a loop gives, once there is enough fuel -/
def Settles {α : Type} (run : ℕ → Option α) (a : α) : Prop :=
  (∀ fuel, run fuel = none ∨ run fuel = some a) ∧ ∃ fuel, ∀ more, fuel ≤ more → run more = some a

theorem parseMozurl_aboutBlank :
    parseMozurl aboutBlank = some ([97, 98, 111, 117, 116, 58], []) := by decide

theorem addref_aboutBlank (db : Db) : ∃ id visit db', Firefox.mozplaceAddref db aboutBlank =
    .ok ((id, visit), db') ∧
    db'.bookmarks = db.bookmarks ∧
    ((∃ mp ∈ db.places, mp.urlHash = mozplaceUrlHash aboutBlank ∧ mp.url = aboutBlank) ↔
      visit ≠ none) := by
  rw [Firefox.mozplaceAddref, parseMozurl_aboutBlank]
  cases hfind : db.places.find? fun mp => mp.urlHash = mozplaceUrlHash aboutBlank && mp.url =
    aboutBlank with
  | some mp =>
    have hhere : mp.urlHash = mozplaceUrlHash aboutBlank ∧ mp.url = aboutBlank := by
      simpa using List.find?_some hfind
    dsimp only
    rw [hfind]
    exact ⟨_, _, _, rfl, rfl, fun _ h => (by cases h),
      fun _ => ⟨mp, List.mem_of_find?_eq_some hfind, hhere⟩⟩
  | none =>
    dsimp only
    rw [hfind]
    refine ⟨_, _, _, rfl, ?_, ?_, fun hnone => absurd rfl hnone⟩
    · rw [mozorigin]
      split <;> rfl
    · rintro ⟨mp, hmp, hhere⟩
      have := List.find?_eq_none.mp hfind mp hmp
      simp [hhere] at this

/-- The place of a new row is found in the end, and the rows are the same. -/
theorem createPlace_draws (hsupplied : s.Supplied random) (isDir : Bool) :
    ∃ n place s₁, s.Draws random isDir n ∧ s₁.db.bookmarks = s.db.bookmarks ∧ s₁.guid = s.guid ∧
      Settles (s.createPlace random · isDir) (.ok (place, s₁, n)) := by
  cases isDir with
  | true =>
    refine ⟨0, _, s, ?_, rfl, rfl, fun _ => .inr rfl, 0, fun _ _ => rfl⟩
    rw [GuidDb.Draws, if_pos (.inl rfl)]
  | false =>
    obtain ⟨id, visit, db, haddref, hrows, hexists⟩ := addref_aboutBlank s.db
    cases visit with
    | some visit =>
      have hrun : ∀ fuel, s.createPlace random fuel false =
          some (.ok ((id, some (usecsToTimespec visit)), { s with db := db }, 0)) := by
        intro fuel
        rw [GuidDb.createPlace, GuidDb.mozplaceAddref, haddref]
        rfl
      refine ⟨0, _, { s with db := db }, ?_, hrows, rfl, fun fuel => .inr (hrun fuel),
        0, fun fuel _ => hrun fuel⟩
      rw [GuidDb.Draws, if_pos (.inr (hexists.mpr nofun))]
    | none =>
      have hfree : ∃ n, ¬s.PlaceTaken (random n) := (hsupplied 0).imp fun _ h => h.2.2
      have hrun : ∀ fuel, s.createPlace random fuel false =
          if Nat.find hfree < fuel then some (.ok ((id, none), { s with
            db := db, placeGuid :=
              Function.update s.placeGuid id (some (random (Nat.find hfree))) },
            Nat.find hfree + 1)) else none := by
        intro fuel
        rw [GuidDb.createPlace, GuidDb.mozplaceAddref, haddref, if_neg Bool.false_ne_true]
        dsimp only
        rw [retry_first (k := Nat.find hfree) (a := Nat.find hfree)]
        · split <;> rfl
        · intro m _ hm
          rw [Nat.zero_add] at hm
          rw [if_pos (not_not.mp (Nat.find_min hfree hm))]
        · rw [Nat.zero_add, if_neg (Nat.find_spec hfree)]
      refine ⟨Nat.find hfree + 1, (id, none), { s with
        db := db, placeGuid := Function.update s.placeGuid id (some (random (Nat.find hfree))) },
          ?_, hrows, rfl,
        fun fuel => ?_, Nat.find hfree + 1, fun fuel hfuel => (hrun fuel).trans (if_pos hfuel)⟩
      · rw [GuidDb.Draws, if_neg]
        · exact ⟨_, rfl, Nat.find_spec hfree, fun m hm => not_not.mp (Nat.find_min hfree hm)⟩
        · rintro (hdir | hblank)
          · cases hdir
          · exact hexists.mp hblank rfl
      · dsimp only
        rw [hrun]
        split
        · exact .inr rfl
        · exact .inl rfl

section Fresh

variable (ctx : Ctx) (byGuid : Bool) (random : ℕ → Bytes) (parentId : ℤ) (name : Bytes)

/-- `bookmark_do_create()` fails before it inserts a row, or there is no position for it, or its
GUID is not taken. Under GUIDs as filenames, the second must not hide that the name is taken in
another folder. -/
def GuidDb.CreateFresh (s : GuidDb) (isDir : Bool) : Prop :=
  parentId = ctx.rootId ∨ s.bookmarkDoLookup ctx byGuid parentId (some name) .bookmark true ≠
    .error .noent ∨
    (byGuid = true → ¬s.Elsewhere parentId name) ∧
      (s.Full parentId ∨ ∀ n, s.Draws random isDir n → ¬s.Taken (if byGuid then name else random n))

/-- The same of `tag_entry_add()`, which draws the GUID before anything else -/
def GuidDb.TagFresh (s : GuidDb) (id : ℤ) : Prop :=
  ∀ mb, s.mozbmLookupId byGuid id = .ok mb → mb.placeId ≠ 0 →
    tagEntryLookup s.db parentId mb.placeId = .error .noent → s.Full parentId ∨ ¬s.Taken (random 0)

/-- The GUID of the row that `bookmark_create()` is going to insert is not taken. -/
def GuidDb.Fresh (s : GuidDb) (type : BookmarkType) (isDir : Bool) (id : ℤ) : Prop :=
  match type with
  | .bookmark => s.CreateFresh ctx byGuid random parentId name isDir
  | .tag => if isDir then s.CreateFresh ctx byGuid random parentId name isDir
      else s.TagFresh byGuid random parentId id
  | .keyword => True

end Fresh

section Ends

variable {ctx : Ctx} {byGuid : Bool} {parentId : ℤ} {name : Bytes}

theorem elsewhere_taken (h : s.Elsewhere parentId name) : s.Taken name := by
  obtain ⟨b, hb, hguid, -⟩ := h
  exact ⟨b, hb, hguid⟩

/-- Nothing in the folder has a GUID that is in another. -/
theorem lookup_elsewhere (hkeyed : s.Keyed) (h : s.Elsewhere parentId name) :
    s.bookmarkDoLookup ctx true parentId (some name) .bookmark true = .error .noent ∨
      s.bookmarkDoLookup ctx true parentId (some name) .bookmark true = .error .perm := by
  obtain ⟨b, hb, hguid, hparent⟩ := h
  have hnone : s.lookupName true parentId name = none := by
    rw [GuidDb.lookupName, List.head?_eq_none_iff, List.eq_nil_iff_forall_not_mem]
    intro c hc
    rw [mem_byPosition, List.mem_filter, decide_eq_true_iff, bound_eq_some] at hc
    obtain ⟨hc, ⟨-, hcparent⟩, hcguid⟩ := hc
    have hcguid : s.guid c.id = some name := hcguid
    have hid : b.id = c.id :=
      hkeyed.guids b hb c hc (hguid ▸ Option.some_ne_none _) (hguid.trans hcguid.symm)
    exact hparent (hkeyed.rows.eq_of_id hb hc hid ▸ hcparent.symm)
  rw [GuidDb.bookmarkDoLookup]
  split
  · exact .inr rfl
  · rw [hnone]
    exact .inl rfl

theorem full_congr {s₁ : GuidDb} (hrows : s₁.db.bookmarks = s.db.bookmarks) : s₁.Full parentId ↔
    s.Full parentId := by
  rw [GuidDb.Full, GuidDb.Full, hrows]

theorem taken_congr {s₁ : GuidDb} (hrows : s₁.db.bookmarks = s.db.bookmarks)
    (hguid : s₁.guid = s.guid) :
    s₁.Taken guid ↔ s.Taken guid := by
  rw [GuidDb.Taken, GuidDb.Taken, hrows, hguid]

/-- The insertion that is left to do once there is a place -/
def GuidDb.insertion (s₁ : GuidDb) (env : Env) (parentId : ℤ) (name guid : Bytes) (isDir : Bool)
    (place : ℤ × Option Timespec) (fuel : ℕ) : Option (Except Errno (Stat × GuidDb)) :=
  (s₁.mozbmInsert parentId (some name) env.usecs place.1 guid fuel).map
    (Except.map (GuidDb.created env parentId isDir place.2))

/-- Past the checks, a creation is the insertion of a row into the tables with a place. -/
theorem bookmarkDoCreate_inserts (env : Env) (isDir : Bool) (hsupplied : s.Supplied random)
    (hroot : parentId ≠ ctx.rootId)
    (hlookup : s.bookmarkDoLookup ctx byGuid parentId (some name) .bookmark true = .error .noent) :
    ∃ (n : ℕ) (place : ℤ × Option Timespec) (s₁ : GuidDb) (least : ℕ),
      (s.Draws random isDir n ∧ s₁.db.bookmarks = s.db.bookmarks ∧ s₁.guid = s.guid) ∧ ∀ fuel,
        (s.bookmarkDoCreate env ctx byGuid random fuel parentId name isDir = none ∨
          s.bookmarkDoCreate env ctx byGuid random fuel parentId name isDir =
            s₁.insertion env parentId name (if byGuid then name else random n) isDir place fuel) ∧
        (least ≤ fuel → s.bookmarkDoCreate env ctx byGuid random fuel parentId name isDir =
          s₁.insertion env parentId name (if byGuid then name else random n) isDir place fuel) := by
  obtain ⟨n, place, s₁, hdraws, hrows, hguid, heither, least, hleast⟩ :=
    createPlace_draws hsupplied isDir
  refine ⟨n, place, s₁, least, ⟨hdraws, hrows, hguid⟩, fun fuel => ?_⟩
  have hdone : s.createPlace random fuel isDir = some (.ok (place, s₁, n)) →
      s.bookmarkDoCreate env ctx byGuid random fuel parentId name isDir =
        s₁.insertion env parentId name (if byGuid then name else random n) isDir place fuel := by
    intro hplace
    rw [GuidDb.bookmarkDoCreate, if_neg hroot, hlookup]
    dsimp only
    rw [hplace]
    rfl
  refine ⟨(heither fuel).imp (fun hnone => ?_) hdone, fun hfuel => hdone (hleast fuel hfuel)⟩
  rw [GuidDb.bookmarkDoCreate, if_neg hroot, hlookup]
  dsimp only at hnone ⊢
  rw [hnone]

theorem bookmarkDoCreate_ends (env : Env) (isDir : Bool) (hsupplied : s.Supplied random)
    (hroot : parentId ≠ ctx.rootId)
    (hlookup : s.bookmarkDoLookup ctx byGuid parentId (some name) .bookmark true = .error .noent) :
    (∃ fuel r, s.bookmarkDoCreate env ctx byGuid random fuel parentId name isDir = some r) ↔
      s.Full parentId ∨ ∀ n, s.Draws random isDir n →
      ¬s.Taken (if byGuid then name else random n) := by
  obtain ⟨n, place, s₁, least, ⟨hdraws, hrows, hguid⟩, hruns⟩ :=
    bookmarkDoCreate_inserts env isDir hsupplied hroot hlookup
  constructor
  · rintro ⟨fuel, r, hrun⟩
    rcases (hruns fuel).1 with hnone | hinsert
    · rw [hnone] at hrun
      cases hrun
    rw [hrun, eq_comm, GuidDb.insertion, Option.map_eq_some_iff] at hinsert
    obtain ⟨inserted, hinsert, -⟩ := hinsert
    have hends := mozbmInsert_ends.mp ⟨fuel, inserted, hinsert⟩
    rw [full_congr hrows, taken_congr hrows hguid] at hends
    exact hends.imp id fun htaken m hm => draws_unique hdraws hm ▸ htaken
  · intro hfresh
    have hfresh : s₁.Full parentId ∨ ¬s₁.Taken (if byGuid then name else random n) := by
      rw [full_congr hrows, taken_congr hrows hguid]
      exact hfresh.imp id fun htaken => htaken n hdraws
    obtain ⟨r, hr⟩ : ∃ r, s₁.mozbmInsert parentId (some name) env.usecs place.1 (if byGuid then name
      else random n)
        (least + 1) = some r := by
      rcases hfresh with hfull | htaken
      · exact ⟨_, mozbmInsert_full hfull (Nat.succ_pos _)⟩
      · exact mozbmInsert_new htaken (Nat.succ_pos _)
    refine ⟨least + 1, r.map (GuidDb.created env parentId isDir place.2),
      ((hruns (least + 1)).2 (Nat.le_succ _)).trans ?_⟩
    rw [GuidDb.insertion, hr]
    rfl

/-- Past the checks, nothing tells that a name is taken in another folder. -/
theorem bookmarkDoCreate_unchecked (env : Env) (isDir : Bool) (hsupplied : s.Supplied random)
    (hroot : parentId ≠ ctx.rootId)
    (hlookup : s.bookmarkDoLookup ctx true parentId (some name) .bookmark true = .error .noent)
    (htaken : s.Taken name) (fuel : ℕ) :
    s.bookmarkDoCreate env ctx true random fuel parentId name isDir ≠ some (.error .perm) := by
  obtain ⟨n, place, s₁, least, ⟨-, hrows, hguid⟩, hruns⟩ :=
    bookmarkDoCreate_inserts env isDir hsupplied hroot hlookup
  intro hrun
  rcases (hruns fuel).1 with hnone | hinsert
  · rw [hnone] at hrun
    cases hrun
  rw [hrun, eq_comm, GuidDb.insertion, Option.map_eq_some_iff] at hinsert
  obtain ⟨inserted, hinsert, hreply⟩ := hinsert
  obtain rfl : inserted = .error .perm := by
    cases inserted <;> cases hreply
    rfl
  have htaken : s₁.Taken name := (taken_congr hrows hguid).mpr htaken
  by_cases hfull : s₁.Full parentId
  · cases fuel with
    | zero => cases hinsert
    | succ fuel =>
      rw [mozbmInsert_full hfull (Nat.succ_pos _)] at hinsert
      cases hinsert
  · rw [if_pos rfl, mozbmInsert_taken hfull htaken] at hinsert
    cases hinsert

theorem bookmarkDoCreate_root (env : Env) (isDir : Bool) (hroot : parentId = ctx.rootId)
    (fuel : ℕ) :
    s.bookmarkDoCreate env ctx byGuid random fuel parentId name isDir = some (.error .perm) := by
  rw [GuidDb.bookmarkDoCreate, if_pos hroot]

theorem bookmarkDoCreate_found (env : Env) (isDir : Bool) (hroot : parentId ≠ ctx.rootId)
    (hlookup : s.bookmarkDoLookup ctx byGuid parentId (some name) .bookmark true ≠ .error .noent)
    (fuel : ℕ) :
    ∃ err, s.bookmarkDoCreate env ctx byGuid random fuel parentId name isDir = some (.error err) ∧
      (s.bookmarkDoLookup ctx byGuid parentId (some name) .bookmark true = .error .perm →
        err = .perm) := by
  rw [GuidDb.bookmarkDoCreate, if_neg hroot]
  split
  next hfound => exact ⟨.exist, rfl, fun hperm => by rw [hperm] at hfound; cases hfound⟩
  next hnoent => exact absurd hnoent hlookup
  next err _ herr => exact ⟨err, rfl, fun hperm => by rw [hperm] at herr; cases herr; rfl⟩

/-- What is asked of creating a bookmark or a folder -/
theorem createFresh_iff (env : Env) (isDir : Bool) (hkeyed : s.Keyed)
    (hsupplied : s.Supplied random) :
    ((∃ fuel r, s.bookmarkDoCreate env ctx byGuid random fuel parentId name isDir = some r) ∧
      (byGuid = true → s.Elsewhere parentId name →
        ∃ fuel, s.bookmarkDoCreate env ctx byGuid random fuel parentId name isDir =
        some (.error .perm))) ↔
      s.CreateFresh ctx byGuid random parentId name isDir := by
  by_cases hroot : parentId = ctx.rootId
  · have hrun : ∀ fuel, s.bookmarkDoCreate env ctx byGuid random fuel parentId name isDir =
      some (.error .perm) :=
      bookmarkDoCreate_root env isDir hroot
    exact ⟨fun _ => .inl hroot, fun _ => ⟨⟨0, _, hrun 0⟩, fun _ _ => ⟨0, hrun 0⟩⟩⟩
  by_cases hlookup : s.bookmarkDoLookup ctx byGuid parentId (some name) .bookmark true =
    .error .noent
  · rw [GuidDb.CreateFresh, bookmarkDoCreate_ends env isDir hsupplied hroot hlookup, and_comm]
    simp only [hroot, hlookup, ne_eq, not_true_eq_false, false_or]
    refine and_congr_left fun _ => forall_congr' fun hguid =>
      ⟨fun hperm helsewhere => ?_, fun hnot helsewhere => ?_⟩
    · subst hguid
      obtain ⟨fuel, hrun⟩ := hperm helsewhere
      exact bookmarkDoCreate_unchecked env isDir hsupplied hroot hlookup
        (elsewhere_taken helsewhere) fuel hrun
    · exact absurd helsewhere hnot
  · obtain ⟨err, hrun, hperm⟩ : ∃ err,
        s.bookmarkDoCreate env ctx byGuid random 0 parentId name isDir = some (.error err) ∧
          (s.bookmarkDoLookup ctx byGuid parentId (some name) .bookmark true = .error .perm →
          err = .perm) :=
      bookmarkDoCreate_found env isDir hroot hlookup 0
    refine ⟨fun _ => .inr (.inl hlookup), fun _ => ⟨⟨0, _, hrun⟩, fun hguid helsewhere => ⟨0, ?_⟩⟩⟩
    subst hguid
    rw [hrun, hperm ((lookup_elsewhere hkeyed helsewhere).resolve_left hlookup)]

theorem tagFresh_iff (env : Env) (id : ℤ) :
    (∃ fuel r, s.tagEntryAdd env ctx byGuid random fuel parentId name id = some r) ↔
      s.TagFresh byGuid random parentId id := by
  rw [GuidDb.TagFresh]
  cases hlookup : s.mozbmLookupId byGuid id with
  | error err =>
    refine iff_of_true ⟨0, .error err, ?_⟩ nofun
    rw [GuidDb.tagEntryAdd, hlookup]
  | ok mb =>
    have hmb : ∀ P : MozBookmark → Prop, (∀ mb', Except.ok (ε := Errno) mb = .ok mb' → P mb') ↔
      P mb := fun P =>
      ⟨fun h => h mb rfl, fun h mb' heq => Except.ok.inj heq ▸ h⟩
    rw [hmb]
    simp only [GuidDb.tagEntryAdd, hlookup]
    by_cases hplace : mb.placeId = 0
    · exact iff_of_true ⟨0, _, if_pos hplace⟩ fun hne => absurd hplace hne
    simp only [ne_eq, hplace, if_false, not_false_eq_true, true_imp_iff]
    cases hentry : tagEntryLookup s.db parentId mb.placeId with
    | ok entry => exact iff_of_true ⟨0, _, rfl⟩ nofun
    | error err =>
      by_cases hnoent : err = .noent
      · subst hnoent
        simp only [true_imp_iff]
        rw [← mozbmInsert_ends]
        constructor
        · rintro ⟨fuel, r, hrun⟩
          obtain ⟨inserted, hinsert, -⟩ := Option.map_eq_some_iff.mp hrun
          exact ⟨fuel, inserted, hinsert⟩
        · rintro ⟨fuel, inserted, hinsert⟩
          exact ⟨fuel, _, Option.map_eq_some_iff.mpr ⟨inserted, hinsert, rfl⟩⟩
      · refine iff_of_true ⟨0, .error err, ?_⟩ fun heq => absurd (Except.error.inj heq) hnoent
        split
        next heq => cases heq
        next heq => exact absurd (Except.error.inj heq) hnoent
        next heq => rw [Except.error.inj heq]

end Ends

/-- What is asked of `bookmark_create()`: it ends, and with EPERM where the name is the GUID of a
row in another folder. -/
structure CreateEnds (s : GuidDb) (byGuid : Bool) (parentId : ℤ) (name : Bytes)
    (type : BookmarkType) (isDir : Bool)
    (run : ℕ → Option (Except Errno Stat × GuidDb)) : Prop where
  ends : ∃ fuel r, run fuel = some r
  elsewhere : byGuid = true → type = .bookmark ∨ (type = .tag ∧ isDir = true) →
    s.Elsewhere parentId name →
    ∃ fuel, run fuel = some (.error .perm, s)

theorem txnEnd_ends {run : ℕ → Option (Except Errno (Stat × GuidDb))} :
    (∃ fuel r, (run fuel).map s.txnEnd = some r) ↔ ∃ fuel r, run fuel = some r := by
  refine exists_congr fun fuel => ?_
  cases run fuel with
  | none => simp
  | some r => simp

theorem txnEnd_perm {r : Option (Except Errno (Stat × GuidDb))} :
    r.map s.txnEnd = some (.error .perm, s) ↔ r = some (.error .perm) := by
  constructor
  · intro h
    obtain ⟨r', rfl, hr'⟩ := Option.map_eq_some_iff.mp h
    cases r' <;> cases hr'
    rfl
  · rintro rfl
    rfl

/-- A creation ends right if and only if the GUID of the new row is not taken, or it does not get
to the insertion. -/
theorem create_ends (env : Env) (ctx : Ctx) (byGuid : Bool) (random : ℕ → Bytes) (parentId : ℤ)
    (name : CString) (type : BookmarkType) (isDir : Bool) (id : ℤ) (s : GuidDb) (hkeyed : s.Keyed)
    (hsupplied : s.Supplied random) :
    CreateEnds s byGuid parentId name.val type isDir
        (fun fuel => s.bookmarkCreate env ctx byGuid random fuel parentId name type isDir id) ↔
      s.Fresh ctx byGuid random parentId name.val type isDir id := by
  have hcreate : ((∃ fuel r,
    (s.bookmarkDoCreate env ctx byGuid random fuel parentId name.val isDir).map s.txnEnd =
        some r) ∧ (byGuid = true → s.Elsewhere parentId name.val → ∃ fuel,
          (s.bookmarkDoCreate env ctx byGuid random fuel parentId name.val isDir).map s.txnEnd =
            some (.error .perm, s))) ↔ s.CreateFresh ctx byGuid random parentId name.val isDir := by
    simp only [txnEnd_perm]
    rw [txnEnd_ends]
    exact createFresh_iff env isDir hkeyed hsupplied
  rw [GuidDb.Fresh.eq_def]
  cases type with
  | bookmark =>
    rw [← hcreate]
    exact ⟨fun h => ⟨h.ends, fun hguid => h.elsewhere hguid (.inl rfl)⟩,
      fun h => ⟨h.1, fun hguid _ => h.2 hguid⟩⟩
  | tag =>
    cases isDir with
    | true =>
      rw [if_pos rfl, ← hcreate]
      exact ⟨fun h => ⟨h.ends, fun hguid => h.elsewhere hguid (.inr ⟨rfl, rfl⟩)⟩,
        fun h => ⟨h.1, fun hguid _ => h.2 hguid⟩⟩
    | false =>
      rw [if_neg Bool.false_ne_true, ← tagFresh_iff env id]
      refine ⟨fun h => txnEnd_ends.mp h.ends, fun h => ⟨txnEnd_ends.mpr h, fun _ hkind => ?_⟩⟩
      rcases hkind with hkind | ⟨-, hdir⟩
      · cases hkind
      · cases hdir
  | keyword =>
    refine iff_of_true ⟨⟨0, _, rfl⟩, fun _ hkind => ?_⟩ trivial
    rcases hkind with hkind | ⟨hkind, -⟩ <;> cases hkind

/-- A bookmark in the first of two folders -/
def foldered : GuidDb where
  db := { bookmarks := [⟨2, 2, none, 1, 0, some [102], 0, 0⟩, ⟨3, 2, none, 1, 1, some [103], 0, 0⟩,
            ⟨4, 1, some 1, 2, 0, some [97], 0, 0⟩]
          places := [⟨1, [120, 58], none, none, 1, mozplaceUrlHash [120, 58], 1⟩]
          keywords := [], keywordSeq := 0, origins := [⟨1, [120, 58], []⟩] }
  guid id := some (List.replicate 11 65 ++ [UInt8.ofNat (65 + id.toNat)])
  placeGuid _ := some (List.replicate 12 65)

theorem foldered_keyed : foldered.Keyed :=
  ⟨by unfold Db.KeysUnique; decide +kernel, by decide +kernel⟩

theorem foldered_supplied : foldered.Supplied fun _ => List.replicate 12 67 := by
  have hnew : ¬foldered.Taken (List.replicate 12 67) := by decide +kernel
  have hplace : ¬foldered.PlaceTaken (List.replicate 12 67) := by decide +kernel
  exact fun n => ⟨n, le_rfl, hnew, hplace⟩

/-- With a GUID that is new, a bookmark is created in the other. -/
theorem create_ends_folder : CreateEnds foldered true 3 (List.replicate 12 66)
    .bookmark false fun fuel =>
    foldered.bookmarkCreate ⟨⟨0, 0⟩, 0⟩ ⟨1, 9, false, true⟩ true (fun _ => List.replicate 12 67)
    fuel 3
      ⟨List.replicate 12 66, by decide⟩ .bookmark false 0 := by
  have hnew : ¬foldered.Taken (List.replicate 12 66) := by decide +kernel
  refine (create_ends ⟨⟨0, 0⟩, 0⟩ ⟨1, 9, false, true⟩ true (fun _ => List.replicate 12 67) 3
    ⟨List.replicate 12 66, by decide⟩ .bookmark false 0 foldered foldered_keyed
      foldered_supplied).mpr (.inr (.inr ?_))
  exact ⟨fun _ helsewhere => hnew (elsewhere_taken helsewhere), .inr fun _ _ => hnew⟩

/-- With the GUID of the bookmark, it is tried forever. -/
theorem create_not_ends : foldered.Keyed ∧ (foldered.Supplied fun _ => List.replicate 12 67) ∧
    foldered.Elsewhere 3 (List.replicate 11 65 ++ [69]) ∧
    ¬CreateEnds foldered true 3 (List.replicate 11 65 ++ [69]) .bookmark false fun fuel =>
      foldered.bookmarkCreate ⟨⟨0, 0⟩, 0⟩ ⟨1, 9, false, true⟩ true (fun _ => List.replicate 12 67)
      fuel 3
        ⟨List.replicate 11 65 ++ [69], by decide⟩ .bookmark false 0 := by
  refine ⟨foldered_keyed, foldered_supplied, ?_, fun right => ?_⟩
  · exact ⟨⟨4, 1, some 1, 2, 0, some [97], 0, 0⟩, by decide, by decide +kernel, by decide⟩
  · rcases (bookmarkDoCreate_ends ⟨⟨0, 0⟩, 0⟩ false foldered_supplied (by decide)
      (by decide +kernel)).mp
      (txnEnd_ends.mp right.ends) with hfull | htaken
    · exact absurd hfull (by unfold GuidDb.Full; decide +kernel)
    · exact htaken 1 ⟨0, rfl, by decide +kernel, nofun⟩ (by decide +kernel)

end BookmarkFS.Firefox
