import BookmarkFS.Firefox.Listing

/-! # Places, origins and keywords

The statements on `moz_places`, which counts the rows that refer to each place,
and on the tables that depend on it. A place is deleted when its count gets to
zero; one of the ways to give up a reference also gives up the tags and keywords
of a place that has no bookmark left.
-/
namespace BookmarkFS.Firefox
open Library
open Chromium (Errno Timespec)

/-- What an operation finds in its environment. -/
structure Env where
  now : Timespec
  /-- What is in a variable that has not been assigned. -/
  uninit : ℤ

/-- `timespec_to_usecs()` -/
def timespecToUsecs (ts : Timespec) : ℤ := ts.sec * 1000000 + ts.nsec.tdiv 1000

/-- `usecs_now()` -/
def Env.usecs (env : Env) : ℤ := timespecToUsecs env.now

/-! ## URLs -/

def colon : UInt8 := 58

/-- `parse_mozurl()`: the prefix and the host of a URL. -/
def parseMozurl (url : Bytes) : Option (Bytes × Bytes) :=
  match url.dropWhile (· ≠ colon) with
  | [] => none
  | _ :: part =>
    match part with
    | 47 :: 47 :: authority =>
      let host := match authority.dropWhile (· ≠ 64) with
        | [] => authority
        | _ :: host => host
      some (url.take (url.length - authority.length), host.takeWhile (· ≠ Chromium.slash))
    | _ => some (url.take (url.length - part.length), [])

/-- The bytes of a URL that are hashed, as signed characters. -/
def hashedChar (c : UInt8) : UInt32 := if c < 128 then c.toUInt32 else c.toUInt32 ||| 0xffffff00

/-- The loop of `mozplace_url_hash()`: the hash up to the first colon, if there was one, and the
hash. -/
def urlHashLoop : Bytes → Option UInt32 → UInt32 → Option UInt32 × UInt32
  | [], before, hash => (before, hash)
  | c :: url, before, hash =>
    let before := if before = none ∧ c = colon then some hash else before
    urlHashLoop url before ((((hash <<< 5) ||| (hash >>> 27)) ^^^ hashedChar c) * 0x9e3779b9)

/-- `mozplace_url_hash()` -/
def mozplaceUrlHash (url : Bytes) : ℤ :=
  let (before, hash) := urlHashLoop (url.take 1500) none 0
  (((before.getD 0xffffffff).toNat % 2 ^ 16) * 2 ^ 32 + hash.toNat : ℕ)

/-! ## Origins -/

/-- `mozorigin_get()` and, if there is none, `mozorigin_insert()` -/
def mozorigin (db : Db) (originPrefix host : Bytes) : ℤ × Db :=
  match db.origins.find? fun mo => mo.originPrefix = originPrefix ∧ mo.host = host with
  | some mo => (mo.id, db)
  | none =>
    let id := newRowid (db.origins.map (·.id))
    (id, { db with origins := db.origins ++ [⟨id, originPrefix, host⟩] })

/-- `mozorigin_delete()` -/
def mozoriginDelete (db : Db) (id : ℤ) : Db :=
  { db with origins := db.origins.filter fun mo =>
      ¬(mo.id = id ∧ ∀ p ∈ db.places, p.originId ≠ id) }

/-! ## Places -/

def updatePlaces (db : Db) (p : MozPlace → Bool) (f : MozPlace → MozPlace) : Db :=
  { db with places := db.places.map fun mp => if p mp then f mp else mp }

/-- `mozplace_addref()`: the place of a URL, and the time of its last visit, unless it is new. -/
def mozplaceAddref (db : Db) (url : Bytes) : Except Errno ((ℤ × Option ℤ) × Db) :=
  match parseMozurl url with
  | none => .error .inval
  | some (originPrefix, host) =>
    let urlHash := mozplaceUrlHash url
    let here (mp : MozPlace) : Bool := mp.urlHash = urlHash && mp.url = url
    match db.places.find? here with
    | some mp =>
      .ok ((mp.id, some (mp.lastVisitDate.getD 0)), updatePlaces db here fun mp =>
        { mp with foreignCount := mp.foreignCount + 1 })
    | none =>
      let (originId, db) := mozorigin db originPrefix host
      let id := newRowid (db.places.map (·.id))
      .ok ((id, none),
        { db with places := db.places ++ [⟨id, url, none, none, 1, urlHash, originId⟩] })

/-- `mozplace_addref_id()` -/
def mozplaceAddrefId (db : Db) (id : ℤ) : Except Errno Db :=
  if ∃ mp ∈ db.places, bound id = some mp.id then
    .ok (updatePlaces db (·.id = id) fun mp => { mp with foreignCount := mp.foreignCount + 1 })
  else .error .stale

/-- `mozplace_delete()` -/
def mozplaceDelete (db : Db) (id originId : ℤ) : Except Errno Db :=
  if ∃ mp ∈ db.places, mp.id = id then
    .ok (mozoriginDelete { db with places := db.places.filter fun mp => ¬mp.id = id } originId)
  else .error .io

/-- `mozplace_delref()`, which gives up `count` references, and passes a place that has others to
`purge`. -/
def mozplaceDelrefWith (purge : Db → ℤ → Except Errno Db) (db : Db) (id count : ℤ) :
    Except Errno Db :=
  match db.places.find? fun mp => bound id = some mp.id with
  | none => .error .io
  | some mp =>
    let db := updatePlaces db (·.id = id) fun mp =>
      { mp with foreignCount := mp.foreignCount - count }
    if mp.foreignCount - count = 0 then mozplaceDelete db id mp.originId else purge db id

/-- `mozplace_delref()` where `purge` is positive -/
def mozplaceDelrefPlain (db : Db) (id count : ℤ) : Except Errno Db :=
  mozplaceDelrefWith (fun db _ => .ok db) db id count

/-- `mozbm_purge_check()` -/
def mozbmPurgeCheck (db : Db) (placeId : ℤ) : Bool :=
  db.bookmarks.all fun b => ¬(b.fk = some placeId ∧ b.title ≠ none)

/-- `mozbm_purge()` and `mozkw_purge()` -/
def purgeRows (db : Db) (placeId : ℤ) : Db :=
  { db with
      bookmarks := db.bookmarks.filter fun b => b.fk ≠ some placeId
      keywords := db.keywords.filter fun k => k.placeId ≠ placeId }

def Db.references (db : Db) (placeId : ℤ) : ℕ :=
  (db.bookmarks.filter fun b => b.fk = some placeId).length +
    (db.keywords.filter fun k => k.placeId = placeId).length

/-- `mozplace_purge()` -/
def mozplacePurge (db : Db) (id : ℤ) : Except Errno Db :=
  if mozbmPurgeCheck db id then
    if db.references id = 0 then .ok db
    else mozplaceDelrefPlain (purgeRows db id) id (db.references id)
  else .ok db

/-- `mozplace_delref()` where `purge` is zero -/
def mozplaceDelref (db : Db) (id : ℤ) : Except Errno Db := mozplaceDelrefWith mozplacePurge db id 1

/-- A reference moves from a place to that of the new URL, if there is one. -/
def mozplaceReplace (db : Db) (id : ℤ) (url : Option Bytes) : Except Errno (ℤ × Db) :=
  match url with
  | none => .ok (id, db)
  | some url => do
    let (r, db) ← mozplaceAddref db url
    let db ← mozplaceDelrefPlain db id 1
    .ok (r.1, db)

/-- `mozplace_update()`: the place afterwards. -/
def mozplaceUpdate (db : Db) (id : ℤ) (url : Option Bytes) (lastVisitDate : Option ℤ)
    (description : Option Bytes) : Except Errno (ℤ × Db) := do
  let (id, db) ← mozplaceReplace db id url
  .ok (id, updatePlaces db (fun mp => bound id = some mp.id) fun mp =>
    { mp with
        lastVisitDate := lastVisitDate <|> mp.lastVisitDate
        description := description <|> mp.description })

/-! ## Keywords -/

/-- `mozkw_insert()` -/
def mozkwInsert (db : Db) (keyword : Bytes) (placeId : ℤ) : Except Errno Db :=
  if ∃ k ∈ db.keywords, k.keyword = keyword then .error .exist
  else
    let id := max db.keywordSeq ((db.keywords.map (·.id)).max?.getD 0) + 1
    .ok { db with keywords := db.keywords ++ [⟨id, keyword, placeId⟩], keywordSeq := id }

/-- `mozkw_delete()`, which does not notice where there is no such keyword. -/
def mozkwDelete (env : Env) (db : Db) (keyword : Bytes) : Except Errno Db :=
  let placeId := ((db.keywords.find? fun k => k.keyword = keyword).map (·.placeId)).getD env.uninit
  mozplaceDelrefPlain { db with keywords := db.keywords.filter fun k => k.keyword ≠
    keyword } placeId 1

/-! ## What the statements on places leave -/

/-- Some bookmarks and keywords are gone. -/
structure Db.Shrinks (db db' : Db) : Prop where
  bookmarks : db'.bookmarks.Sublist db.bookmarks
  keywords : db'.keywords.Sublist db.keywords

variable {db db' : Db} {id count : ℤ}

theorem Db.Shrinks.refl (db : Db) : db.Shrinks db := ⟨List.Sublist.refl _, List.Sublist.refl _⟩

theorem Db.Shrinks.trans {db₁ : Db} (h : db.Shrinks db₁) (h' : db₁.Shrinks db') : db.Shrinks db' :=
  ⟨h'.bookmarks.trans h.bookmarks, h'.keywords.trans h.keywords⟩

theorem mozorigin_places (db : Db) (originPrefix host : Bytes) :
    (mozorigin db originPrefix host).2.places = db.places := by
  rw [mozorigin]
  split <;> rfl

theorem mozplaceAddref_rows {url : Bytes} {r : ℤ × Option ℤ}
    (h : mozplaceAddref db url = .ok (r, db')) :
    db'.bookmarks = db.bookmarks ∧ db'.keywords = db.keywords := by
  rw [mozplaceAddref] at h
  split at h
  · cases h
  · dsimp only at h
    split at h
    · cases h
      exact ⟨rfl, rfl⟩
    · cases h
      rw [mozorigin]
      split <;> exact ⟨rfl, rfl⟩

theorem mozplaceAddrefId_rows (h : mozplaceAddrefId db id = .ok db') :
    db'.bookmarks = db.bookmarks ∧ db'.keywords = db.keywords := by
  rw [mozplaceAddrefId] at h
  split at h <;> cases h
  exact ⟨rfl, rfl⟩

theorem mozplaceDelete_rows {originId : ℤ} (h : mozplaceDelete db id originId = .ok db') :
    db'.bookmarks = db.bookmarks ∧ db'.keywords = db.keywords := by
  rw [mozplaceDelete] at h
  split at h <;> cases h
  exact ⟨rfl, rfl⟩

theorem mozplaceDelrefWith_shrinks {purge : Db → ℤ → Except Errno Db}
    (hpurge : ∀ {db db' id}, purge db id = .ok db' → db.Shrinks db')
    (h : mozplaceDelrefWith purge db id count = .ok db') : db.Shrinks db' := by
  rw [mozplaceDelrefWith] at h
  split at h
  · cases h
  · dsimp only at h
    split at h
    · obtain ⟨hbookmarks, hkeywords⟩ := mozplaceDelete_rows h
      exact ⟨hbookmarks ▸ List.Sublist.refl _, hkeywords ▸ List.Sublist.refl _⟩
    · exact ⟨(hpurge h).bookmarks, (hpurge h).keywords⟩

theorem mozplaceDelrefPlain_rows (h : mozplaceDelrefPlain db id count = .ok db') :
    db'.bookmarks = db.bookmarks ∧ db'.keywords = db.keywords := by
  rw [mozplaceDelrefPlain, mozplaceDelrefWith] at h
  split at h
  · cases h
  · dsimp only at h
    split at h
    · exact ⟨(mozplaceDelete_rows h).1, (mozplaceDelete_rows h).2⟩
    · cases h
      exact ⟨rfl, rfl⟩

theorem mozplacePurge_shrinks (h : mozplacePurge db id = .ok db') : db.Shrinks db' := by
  rw [mozplacePurge] at h
  split at h
  · split at h
    · cases h
      exact .refl _
    · obtain ⟨hbookmarks, hkeywords⟩ := mozplaceDelrefPlain_rows h
      exact ⟨hbookmarks ▸ List.filter_sublist, hkeywords ▸ List.filter_sublist⟩
  · cases h
    exact .refl _

theorem mozplaceDelref_shrinks (h : mozplaceDelref db id = .ok db') : db.Shrinks db' :=
  mozplaceDelrefWith_shrinks mozplacePurge_shrinks h

end BookmarkFS.Firefox
