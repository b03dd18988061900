import BookmarkFS.Firefox.Guids
import BookmarkFS.Times

/-! # What a creation replies

The reply of `bookmark_create()` is put together while the row is inserted; a lookup reads it from the tables. They are
the same for a folder. The place of a new bookmark has a URL that the reply knows nothing of.
-/
namespace BookmarkFS.Firefox
open Library
open Chromium (Errno Timespec)

/-- Two replies that differ by less than a microsecond; a time that has not been assigned differs
from any other. -/
structure Stat.Same (stat found : Stat) : Prop where
  id : stat.id = found.id
  valueLen : stat.valueLen = found.valueLen
  atime : stat.atime.map Timespec.micros = found.atime.map Timespec.micros
  mtime : stat.mtime.micros = found.mtime.micros

/-- What `bookmark_create()` leaves in the stat buffer: the reply, or what
`bookmark_do_lookup()` has found. -/
def GuidDb.createStat (s : GuidDb) (ctx : Ctx) (byGuid : Bool) (parentId : ℤ) (name : Bytes) :
    Except Errno Stat → Option Stat
  | .ok stat => some stat
  | .error _ => (s.bookmarkDoLookup ctx byGuid parentId (some name) .bookmark true).toOption

/-- The lookups by name and by identifier find the same. -/
structure GuidDb.LooksUp (s : GuidDb) (ctx : Ctx) (byGuid : Bool) (parentId : ℤ) (name : Bytes)
    (type : BookmarkType) (validate : Bool) (stat : Stat) : Prop where
  named : ∃ found, s.bookmarkDoLookup ctx byGuid parentId (some name) type validate = .ok found ∧
    stat.Same found
  self : ∃ found, s.bookmarkDoLookup ctx byGuid stat.id none type validate = .ok found ∧
    stat.Same found

/-- The name is taken, or a folder is created where no row has it, not even one that
lookups hide. -/
def GuidDb.ReplyRight (s : GuidDb) (ctx : Ctx) (byGuid : Bool) (parentId : ℤ) (name : Bytes)
    (isDir : Bool) : Prop :=
  (∃ stat, s.bookmarkDoLookup ctx byGuid parentId (some name) .bookmark true = .ok stat) ∨
    (isDir = true ∧ s.lookupName byGuid parentId name = none ∧
    newRowid (s.db.bookmarks.map (·.id)) ≠ ctx.tagsRootId)

variable {s s' : GuidDb} {ctx : Ctx} {env : Env} {byGuid : Bool} {random : ℕ → Bytes} {fuel : ℕ}
  {parentId : ℤ} {name : Bytes} {isDir : Bool} {stat : Stat}

theorem Stat.Same.refl (stat : Stat) : stat.Same stat := ⟨rfl, rfl, rfl, rfl⟩

/-! ## Lookups by name -/

theorem mem_lookupName {b : MozBookmark} : b ∈ byPosition (s.db.bookmarks.filter fun b =>
    bound parentId = some b.parent ∧ s.column byGuid b = some name) ↔
      b ∈ s.db.bookmarks ∧ (0 ≤ parentId ∧ parentId = b.parent) ∧
      s.column byGuid b = some name := by
  rw [mem_byPosition, List.mem_filter, decide_eq_true_iff, bound_eq_some]

theorem lookupName_eq_none (hparent : 0 ≤ parentId) : s.lookupName byGuid parentId name = none ↔
    ∀ b ∈ s.db.bookmarks, b.parent = parentId → s.column byGuid b ≠ some name := by
  rw [GuidDb.lookupName, List.head?_eq_none_iff, List.eq_nil_iff_forall_not_mem]
  refine forall_congr' fun b => ?_
  rw [mem_lookupName]
  exact ⟨fun h hb hb' hname => h ⟨hb, ⟨hparent, hb'.symm⟩, hname⟩,
    fun h hb => h hb.1 hb.2.1.2.symm hb.2.2⟩

theorem of_lookupName {b : MozBookmark} (h : s.lookupName byGuid parentId name = some b) :
    b ∈ s.db.bookmarks ∧ b.parent = parentId ∧ s.column byGuid b = some name ∧
      ∀ c ∈ s.db.bookmarks, c.parent = parentId → s.column byGuid c = some name →
      b.position ≤ c.position := by
  have hsorted := byPosition_le (s.db.bookmarks.filter fun b =>
    bound parentId = some b.parent ∧ s.column byGuid b = some name)
  rw [GuidDb.lookupName] at h
  obtain ⟨hb, ⟨hparent, hbparent⟩, hname⟩ := mem_lookupName.mp (List.mem_of_head? h)
  refine ⟨hb, hbparent.symm, hname, fun c hc hcparent hcname => ?_⟩
  have hmem := mem_lookupName.mpr ⟨hc, ⟨hparent, hcparent.symm⟩, hcname⟩
  obtain ⟨rest, hrest⟩ := List.head?_eq_some_iff.mp h
  rw [hrest] at hmem hsorted
  rcases List.mem_cons.mp hmem with rfl | hmem
  · exact le_rfl
  · exact List.rel_of_pairwise_cons hsorted hmem

theorem name_checked {r : Except Errno Stat}
    (h : s.bookmarkDoLookup ctx byGuid parentId (some name) .bookmark true = r)
    (hr : r ≠ .error .perm) :
    (byGuid && !isValidGuid name) = false := by
  rw [GuidDb.bookmarkDoLookup, Bool.and_true] at h
  by_contra hinvalid
  exact hr (h ▸ if_pos (Bool.not_eq_false _ ▸ hinvalid))

theorem bookmarkDoLookup_checked (h : (byGuid && !isValidGuid name) = false) (validate : Bool) :
    s.bookmarkDoLookup ctx byGuid parentId (some name) .bookmark validate =
      match s.lookupName byGuid parentId name with
      | none => .error .noent
      | some b => bookmarkLookupCb s.db (some ctx.tagsRootId) b := by
  rw [GuidDb.bookmarkDoLookup]
  refine if_neg ?_
  cases validate
  · simp
  · rw [Bool.and_true, h]
    decide

theorem bookmarkDoLookup_row {validate : Bool}
    (h : s.bookmarkDoLookup ctx byGuid parentId (some name) .bookmark validate = .ok stat) :
    ∃ b, s.lookupName byGuid parentId name = some b ∧
    bookmarkLookupCb s.db (some ctx.tagsRootId) b = .ok stat := by
  rw [GuidDb.bookmarkDoLookup] at h
  dsimp only at h
  split at h
  · cases h
  · cases hfound : s.lookupName byGuid parentId name with
    | none =>
      rw [hfound] at h
      cases h
    | some b =>
      rw [hfound] at h
      exact ⟨b, rfl, h⟩

theorem bookmarkLookupCb_hidden {db : Db} {hidden : Option ℤ} {b : MozBookmark}
    (h : bookmarkLookupCb db hidden b = .ok stat) :
    isValidId b.id = true ∧ stat.id = b.id ∧ bookmarkLookupCb db none b = .ok stat := by
  rw [bookmarkLookupCb] at h ⊢
  split at h
  · cases h
  next hvalid =>
  split at h
  · cases h
  · cases h
    exact ⟨Bool.not_eq_false _ ▸ hvalid, rfl, by rw [if_neg hvalid, if_neg fun h => by cases h]⟩

theorem bookmarkDoLookup_self {type : BookmarkType} {validate : Bool} {b : MozBookmark}
    (htype : type ≠ .keyword)
    (hkeys : s.db.KeysUnique) (hb : b ∈ s.db.bookmarks) (hvalid : isValidId b.id = true) :
    s.bookmarkDoLookup ctx byGuid b.id none type validate = bookmarkLookupCb s.db none b := by
  have hpos : 0 ≤ b.id := by
    rw [isValidId, Bool.and_eq_true, decide_eq_true_iff] at hvalid
    exact hvalid.1.le
  have hfind : (s.db.bookmarks.find? fun c => bound b.id = some c.id) = some b := by
    cases hfound : s.db.bookmarks.find? fun c => bound b.id = some c.id with
    | none =>
      have hnone := List.find?_eq_none.mp hfound b hb
      exact absurd (decide_eq_true (bound_eq_some.mpr ⟨hpos, rfl⟩)) hnone
    | some c =>
      have hid : bound b.id = some c.id := by simpa using List.find?_some hfound
      rw [hkeys.eq_of_id hb (List.mem_of_find?_eq_some hfound) (bound_eq_some.mp hid).2]
  rw [GuidDb.bookmarkDoLookup, Firefox.bookmarkDoLookup, if_neg htype, hfind]

theorem looksUp_taken {validate : Bool} (hkeys : s.db.KeysUnique)
    (h : s.bookmarkDoLookup ctx byGuid parentId (some name) .bookmark true = .ok stat) :
    s.LooksUp ctx byGuid parentId name .bookmark validate stat := by
  obtain ⟨b, hfound, hcb⟩ := bookmarkDoLookup_row h
  obtain ⟨hvalid, hid, hself⟩ := bookmarkLookupCb_hidden hcb
  have hnamed : s.bookmarkDoLookup ctx byGuid parentId (some name) .bookmark validate =
    .ok stat := by
    rw [bookmarkDoLookup_checked (name_checked h nofun) validate, hfound]
    exact hcb
  refine ⟨⟨stat, hnamed, .refl _⟩, ⟨stat, ?_, .refl _⟩⟩
  rw [hid, bookmarkDoLookup_self (by decide) hkeys (of_lookupName hfound).1 hvalid]
  exact hself

/-! ## The new row -/

/-- `mozbm_mtime_update()` on a row -/
def touched (parentId now : ℤ) (b : MozBookmark) : MozBookmark :=
  if b.id = parentId then { b with lastModified := now } else b

@[simp] theorem touched_id (parentId now : ℤ) (b : MozBookmark) :
    (touched parentId now b).id = b.id := by
  rw [touched]
  split <;> rfl

@[simp] theorem touched_parent (parentId now : ℤ) (b : MozBookmark) :
    (touched parentId now b).parent = b.parent := by
  rw [touched]
  split <;> rfl

@[simp] theorem touched_title (parentId now : ℤ) (b : MozBookmark) :
    (touched parentId now b).title = b.title := by
  rw [touched]
  split <;> rfl

@[simp] theorem touched_position (parentId now : ℤ) (b : MozBookmark) :
    (touched parentId now b).position = b.position := by
  rw [touched]
  split <;> rfl

/-- The tables after a creation: the new row is the last of its folder, and of the table. -/
structure GuidDb.Made (s s' : GuidDb) (now : ℤ) (byGuid : Bool) (parentId : ℤ) (name : Bytes)
    (placeId : ℤ) (row : MozBookmark) : Prop where
  rows : s'.db.bookmarks = s.db.bookmarks.map (touched parentId now) ++ [row]
  id : row.id = newRowid (s.db.bookmarks.map (·.id))
  valid : isValidId row.id = true
  parent : row.parent = parentId
  fk : row.fk = bound placeId
  modified : row.lastModified = now
  last : ∀ b ∈ s.db.bookmarks, b.parent = parentId → b.position < row.position
  name : s'.column byGuid row = some name
  guid : ∀ b ∈ s.db.bookmarks, s'.guid b.id = s.guid b.id

theorem createPlace_keeps {r : (ℤ × Option Timespec) × GuidDb × ℕ}
    (h : s.createPlace random fuel isDir = some (.ok r)) :
    r.2.1.db.bookmarks = s.db.bookmarks ∧ r.2.1.guid = s.guid := by
  cases isDir with
  | true =>
    cases h
    exact ⟨rfl, rfl⟩
  | false =>
    rw [GuidDb.createPlace, if_neg Bool.false_ne_true] at h
    obtain ⟨r', haddref, hr⟩ := Option.map_eq_some_iff.mp h
    cases r' with
    | error err => cases hr
    | ok r' =>
    cases hr
    rw [GuidDb.mozplaceAddref] at haddref
    split at haddref
    · cases haddref
    next hold =>
      cases haddref
      exact ⟨(mozplaceAddref_rows hold).1, rfl⟩
    next hnew =>
      obtain ⟨n, -, hr⟩ := Option.map_eq_some_iff.mp haddref
      cases hr
      exact ⟨(mozplaceAddref_rows hnew).1, rfl⟩

theorem insertRow_made {s₁ : GuidDb} {placeId id now : ℤ} {guid : Bytes}
    (hrows : s₁.db.bookmarks = s.db.bookmarks) (hguid : s₁.guid = s.guid)
    (hname : byGuid = true → guid = name)
    (h : s₁.insertRow parentId (some name) now placeId guid = .ok (id, s')) :
    ∃ row, row.id = id ∧ s'.db.places = s₁.db.places ∧
      s.Made { s' with db := mozbmMtimeUpdate s'.db parentId now } now byGuid parentId name
      placeId row := by
  rw [GuidDb.insertRow] at h
  obtain ⟨pos, hpos, h⟩ := bind_eq_ok.mp h
  split at h
  · cases h
  obtain ⟨⟨id', db⟩, hinsert, h⟩ := bind_eq_ok.mp h
  cases h
  rw [Firefox.mozbmInsert, hpos, ok_bind] at hinsert
  dsimp only at hinsert
  split at hinsert
  · cases hinsert
  next hvalid =>
  cases hinsert
  rw [hrows] at hpos hvalid
  have hlt : ∀ b ∈ s.db.bookmarks, b.id < newRowid (s.db.bookmarks.map (·.id)) := fun b hb =>
    lt_newRowid (List.mem_map_of_mem hb)
  refine ⟨⟨newRowid (s.db.bookmarks.map (·.id)), if placeId < 0 then 2 else 1, bound placeId,
    parentId, pos, some name,
    now, now⟩, ?_, rfl, ?_, rfl, Bool.not_eq_false _ ▸ hvalid, rfl, rfl,
    rfl, fun b hb hparent => ?_, ?_,
    fun b hb => ?_⟩
  · rw [hrows]
  · simp only [mozbmMtimeUpdate, updateBookmarks, hrows, List.map_append, List.map_singleton,
      decide_eq_true_eq]
    congr 1
    split <;> rfl
  · exact position_lt_safeincr hpos hb hparent
  · rw [GuidDb.column, hrows]
    cases byGuid with
    | true =>
      dsimp only
      rw [if_pos rfl, Function.update_self, hname rfl]
    | false => rfl
  · dsimp only
    rw [hrows, Function.update_of_ne (hlt b hb).ne, hguid]

/-- A creation that succeeds has found no row that it shows. -/
theorem bookmarkDoCreate_made
    (h : s.bookmarkDoCreate env ctx byGuid random fuel parentId name isDir =
      some (.ok (stat, s'))) :
    s.bookmarkDoLookup ctx byGuid parentId (some name) .bookmark true = .error .noent ∧
      ∃ place s₁ n row, s.createPlace random fuel isDir = some (.ok (place, s₁, n)) ∧ s'.db.places = s₁.db.places ∧
        s.Made s' env.usecs byGuid parentId name place.1 row ∧
        stat = ⟨row.id, if isDir then -1 else 0, place.2, env.now⟩ := by
  rw [GuidDb.bookmarkDoCreate] at h
  split at h
  · cases h
  cases hlookup : s.bookmarkDoLookup ctx byGuid parentId (some name) .bookmark true with
  | ok found =>
    rw [hlookup] at h
    cases h
  | error err =>
    rw [hlookup] at h
    cases err with
    | noent =>
      refine ⟨rfl, ?_⟩
      dsimp only at h
      split at h
      · cases h
      · cases h
      next place s₁ n hplace =>
        obtain ⟨hrows, hguid⟩ := createPlace_keeps hplace
        obtain ⟨inserted, hinsert, hreply⟩ := Option.map_eq_some_iff.mp h
        cases inserted with
        | error err => cases hreply
        | ok inserted =>
        cases hreply
        obtain ⟨-, hdone⟩ := of_retry hinsert
        split at hdone
        · cases hdone
        obtain ⟨row, hid, hplaces, hmade⟩ :=
          insertRow_made hrows hguid (fun hbyGuid => if_pos hbyGuid) (Sum.inr.inj hdone)
        exact ⟨place, s₁, n, row, hplace, hplaces, hmade, hid ▸ rfl⟩
    | _ => cases h

namespace GuidDb.Made

variable {now placeId : ℤ} {row : MozBookmark} (M : s.Made s' now byGuid parentId name placeId row)

include M

theorem mem_row : row ∈ s'.db.bookmarks := by
  rw [M.rows]
  exact List.mem_append_right _ List.mem_cons_self

theorem id_lt {b : MozBookmark} (hb : b ∈ s.db.bookmarks) : b.id < row.id :=
  M.id ▸ lt_newRowid (List.mem_map_of_mem hb)

theorem eq_row_or {c : MozBookmark} (hc : c ∈ s'.db.bookmarks) : c = row ∨ ∃ b ∈ s.db.bookmarks,
    c = touched parentId now b ∧ s'.column byGuid c = s.column byGuid b := by
  rw [M.rows] at hc
  rcases List.mem_append.mp hc with hc | hc
  · obtain ⟨b, hb, rfl⟩ := List.mem_map.mp hc
    refine .inr ⟨b, hb, rfl, ?_⟩
    rw [GuidDb.column, GuidDb.column, touched_id, touched_title, M.guid b hb]
  · exact .inl (List.mem_singleton.mp hc)

theorem keysUnique (hkeys : s.db.KeysUnique) : s'.db.KeysUnique := by
  have htouched : Db.KeysUnique { s.db with bookmarks := s.db.bookmarks.map (touched parentId now) } :=
    keysUnique_map hkeys rfl (touched_id parentId now)
  refine keysUnique_insert htouched M.rows fun hmem => ?_
  obtain ⟨c, hc, hid⟩ := List.mem_map.mp hmem
  obtain ⟨b, hb, rfl⟩ := List.mem_map.mp hc
  exact (M.id_lt hb).ne ((touched_id ..).symm.trans hid)

theorem lookupName_row (hparent : 0 ≤ parentId) (hfree : s.lookupName byGuid parentId name = none) :
    s'.lookupName byGuid parentId name = some row := by
  rw [lookupName_eq_none hparent] at hfree
  cases hfound : s'.lookupName byGuid parentId name with
  | none => exact absurd M.name ((lookupName_eq_none hparent).mp hfound row M.mem_row M.parent)
  | some c =>
    obtain ⟨hc, hcparent, hcname, -⟩ := of_lookupName hfound
    rcases M.eq_row_or hc with rfl | ⟨b, hb, rfl, hcolumn⟩
    · rfl
    · exact absurd (hcolumn.symm.trans hcname)
        (hfree b hb ((touched_parent _ _ _).symm.trans hcparent))

theorem lookupName_ne {b : MozBookmark} (hfound : s.lookupName byGuid parentId name = some b) :
    s'.lookupName byGuid parentId name ≠ some row := by
  intro hrow
  obtain ⟨hb, hparent, hname, -⟩ := of_lookupName hfound
  obtain ⟨-, -, -, hfirst⟩ := of_lookupName hrow
  have hmem : touched parentId now b ∈ s'.db.bookmarks := by
    rw [M.rows]
    exact List.mem_append_left _ (List.mem_map_of_mem hb)
  have hcolumn : s'.column byGuid (touched parentId now b) = some name := by
    rw [← hname, GuidDb.column, GuidDb.column, touched_id, touched_title, M.guid b hb]
  have hle := hfirst _ hmem ((touched_parent _ _ _).trans hparent) hcolumn
  rw [touched_position] at hle
  exact absurd (M.last b hb hparent) hle.not_gt

theorem lookup_self {type : BookmarkType} {validate : Bool} (htype : type ≠ .keyword)
    (hkeys : s.db.KeysUnique) :
    s'.bookmarkDoLookup ctx byGuid row.id none type validate = bookmarkLookupCb s'.db none row :=
  bookmarkDoLookup_self htype (M.keysUnique hkeys) M.mem_row M.valid

theorem lookupCb_folder (hplace : placeId = -1) {hidden : Option ℤ}
    (hhidden : hidden ≠ some row.id) :
    bookmarkLookupCb s'.db hidden row = .ok ⟨row.id, -1, some ⟨0, 0⟩, usecsToTimespec now⟩ := by
  have hfk : row.fk = none := by rw [M.fk, hplace, bound, if_pos (by decide)]
  rw [bookmarkLookupCb, if_neg (by rw [M.valid]; decide), if_neg hhidden, hfk, M.modified]
  rfl

theorem lookupCb_file (hurl : ∀ mp ∈ s'.db.places, mp.id = placeId → mp.url = aboutBlank)
    {found : Stat} (h : bookmarkLookupCb s'.db none row = .ok found) : found.valueLen ≠ 0 := by
  rw [bookmarkLookupCb, if_neg (by rw [M.valid]; decide), if_neg fun h => (by cases h), M.fk] at h
  cases h
  dsimp only
  cases hplace : s'.db.place (bound placeId) with
  | none => decide
  | some mp =>
    have hurl : mp.url = aboutBlank := by
      obtain ⟨id, hid, hfind⟩ := Option.bind_eq_some_iff.mp hplace
      refine hurl mp (List.mem_of_find?_eq_some hfind) ?_
      exact (by simpa using List.find?_some hfind : mp.id = id).trans (bound_eq_some.mp hid).2.symm
    rw [Option.map_some, Option.getD_some, hurl]
    decide

end GuidDb.Made

/-- The place is that of the URL. -/
theorem mozplaceAddref_url {db db' : Db} {url : Bytes} {r : ℤ × Option ℤ}
    (hplaces : (db.places.map (·.id)).Nodup)
    (h : mozplaceAddref db url = .ok (r, db')) : ∀ mp ∈ db'.places, mp.id = r.1 → mp.url = url := by
  rw [mozplaceAddref] at h
  split at h
  · cases h
  dsimp only at h
  split at h
  next found hfind =>
    cases h
    intro mp hmp hid
    obtain ⟨old, hold, rfl⟩ := List.mem_map.mp hmp
    have hurl : found.url = url := by
      have := List.find?_some hfind
      simp only [Bool.and_eq_true, decide_eq_true_eq] at this
      exact this.2
    have hsame : old = found := by
      refine List.inj_on_of_nodup_map hplaces hold (List.mem_of_find?_eq_some hfind) ?_
      refine Eq.trans ?_ hid
      split <;> rfl
    rw [hsame]
    split <;> exact hurl
  next =>
    cases h
    intro mp hmp hid
    rcases List.mem_append.mp hmp with hmp | hmp
    · exact absurd hid (lt_newRowid (List.mem_map_of_mem hmp)).ne
    · rw [List.mem_singleton.mp hmp]

theorem createPlace_file {place : ℤ × Option Timespec} {s₁ : GuidDb} {n : ℕ}
    (hplaces : (s.db.places.map (·.id)).Nodup)
    (h : s.createPlace random fuel false = some (.ok (place, s₁, n))) :
    ∀ mp ∈ s₁.db.places, mp.id = place.1 → mp.url = aboutBlank := by
  rw [GuidDb.createPlace, if_neg Bool.false_ne_true] at h
  obtain ⟨r', haddref, hr⟩ := Option.map_eq_some_iff.mp h
  cases r' with
  | error err => cases hr
  | ok r' =>
  cases hr
  rw [GuidDb.mozplaceAddref] at haddref
  split at haddref
  · cases haddref
  next hold =>
    cases haddref
    exact mozplaceAddref_url hplaces hold
  next hnew =>
    obtain ⟨n, -, hr⟩ := Option.map_eq_some_iff.mp haddref
    cases hr
    exact mozplaceAddref_url hplaces hnew

theorem bookmarkDoLookup_ne_exist :
    s.bookmarkDoLookup ctx byGuid parentId (some name) .bookmark true ≠ .error .exist := by
  intro h
  rw [GuidDb.bookmarkDoLookup] at h
  dsimp only at h
  split at h
  · cases h
  split at h
  · cases h
  · rw [bookmarkLookupCb] at h
    split at h
    · cases h
    · split at h <;> cases h

/-- The only error is that of a URL without a colon. -/
theorem createPlace_ne_exist : s.createPlace random fuel isDir ≠ some (.error .exist) := by
  intro h
  cases isDir with
  | true => cases h
  | false =>
  rw [GuidDb.createPlace, if_neg Bool.false_ne_true] at h
  obtain ⟨r, haddref, hr⟩ := Option.map_eq_some_iff.mp h
  cases r with
  | ok r => cases hr
  | error err =>
  cases hr
  rw [GuidDb.mozplaceAddref, Firefox.mozplaceAddref] at haddref
  split at haddref
  next herr =>
    cases haddref
    split at herr
    · cases herr
    · dsimp only at herr
      split at herr <;> cases herr
  · cases haddref
  · obtain ⟨_, -, hr⟩ := Option.map_eq_some_iff.mp haddref
    cases hr

/-- EEXIST is the reply where the name is taken, and nowhere else. -/
theorem bookmarkDoCreate_exist
    (h : s.bookmarkDoCreate env ctx byGuid random fuel parentId name isDir = some (.error .exist)) :
    ∃ stat, s.bookmarkDoLookup ctx byGuid parentId (some name) .bookmark true = .ok stat := by
  rw [GuidDb.bookmarkDoCreate] at h
  split at h
  · cases h
  cases hlookup : s.bookmarkDoLookup ctx byGuid parentId (some name) .bookmark true with
  | ok found => exact ⟨found, rfl⟩
  | error err =>
    rw [hlookup] at h
    cases err with
    | exist => exact absurd hlookup bookmarkDoLookup_ne_exist
    | noent =>
      dsimp only at h
      split at h
      · cases h
      next err hplace =>
        cases h
        exact absurd hplace createPlace_ne_exist
      next place s₁ n hplace =>
        -- The insertion starts again where a GUID is taken.
        obtain ⟨inserted, hinsert, hreply⟩ := Option.map_eq_some_iff.mp h
        cases inserted with
        | ok inserted => cases hreply
        | error err =>
        cases hreply
        obtain ⟨-, hdone⟩ := of_retry hinsert
        split at hdone
        · cases hdone
        next hne => exact absurd (Sum.inr.inj hdone) (hne ·)
    | _ => cases h

/-! ## The replies -/

section Agreement

variable (hkeys : s.db.KeysUnique) (hplaces : (s.db.places.map (·.id)).Nodup)
  (hparent : 0 ≤ parentId) (hnow : env.now.Valid)

include hkeys hplaces hparent hnow

/-- The reply to a creation that succeeds -/
theorem looksUp_created
    (h : s.bookmarkDoCreate env ctx byGuid random fuel parentId name isDir =
      some (.ok (stat, s'))) :
    (∀ validate, s'.LooksUp ctx byGuid parentId name .bookmark validate stat) ↔
      s.ReplyRight ctx byGuid parentId name isDir := by
  obtain ⟨hlookup, place, s₁, n, row, hplace, hs₁, M, rfl⟩ := bookmarkDoCreate_made h
  have hnone : ¬∃ stat, s.bookmarkDoLookup ctx byGuid parentId (some name) .bookmark true =
    .ok stat := by
    rintro ⟨stat, hstat⟩
    rw [hlookup] at hstat
    cases hstat
  rw [GuidDb.ReplyRight, or_iff_right hnone, ← M.id]
  cases isDir with
  | false =>
    -- The lookup reports the length of the URL.
    refine iff_of_false (fun hlooks => ?_) fun h => Bool.false_ne_true h.1
    obtain ⟨found, hfound, hsame⟩ := (hlooks false).self
    rw [M.lookup_self (by decide) hkeys] at hfound
    exact M.lookupCb_file (hs₁ ▸ createPlace_file hplaces hplace) hfound hsame.valueLen.symm
  | true =>
    cases hplace
    have hcb : ∀ hidden, hidden ≠ some row.id → bookmarkLookupCb s'.db hidden row =
        .ok ⟨row.id, -1, some ⟨0, 0⟩, usecsToTimespec env.usecs⟩ := fun _ => M.lookupCb_folder rfl
    have hsame : Stat.Same ⟨row.id, -1, some ⟨0, 0⟩, env.now⟩ ⟨row.id, -1, some ⟨0, 0⟩,
      usecsToTimespec env.usecs⟩ := by
      refine ⟨rfl, rfl, rfl, ?_⟩
      rw [Env.usecs, (usecsToTimespec_timespecToUsecs hnow).2, micros_micros]
    constructor
    · intro hlooks
      obtain ⟨found, hfound, hlike⟩ := (hlooks true).named
      obtain ⟨b, hb, hbcb⟩ := bookmarkDoLookup_row hfound
      obtain ⟨-, hid, -⟩ := bookmarkLookupCb_hidden hbcb
      obtain rfl : b = row :=
        (M.keysUnique hkeys).eq_of_id (of_lookupName hb).1 M.mem_row (hid.symm.trans hlike.id.symm)
      refine ⟨rfl, ?_, fun hroot => ?_⟩
      · cases hbefore : s.lookupName byGuid parentId name with
        | none => rfl
        | some c => exact absurd hb (M.lookupName_ne hbefore)
      · rw [bookmarkLookupCb, if_neg (by rw [M.valid]; decide), if_pos (hroot ▸ rfl)] at hbcb
        cases hbcb
    · rintro ⟨-, hfree, hroot⟩ validate
      refine ⟨⟨_, ?_, hsame⟩,
        ⟨_, (M.lookup_self (by decide) hkeys).trans (hcb none fun h => by cases h), hsame⟩⟩
      rw [bookmarkDoLookup_checked (name_checked hlookup fun h => by cases h) validate,
        M.lookupName_row hparent hfree]
      exact hcb _ fun h => hroot (Option.some.inj h).symm

/-- A creation in either mode, of a bookmark, of a folder, or of a tag -/
theorem create_reply_iff {type : BookmarkType} {id : ℤ} {name : CString} {reply : Except Errno Stat}
    (htype : type = .bookmark ∨ (type = .tag ∧ isDir = true ∧ parentId = ctx.tagsRootId))
    (hreply : (∃ stat, reply = .ok stat) ∨ reply = .error .exist)
    (h : s.bookmarkCreate env ctx byGuid random fuel parentId name type isDir id =
      some (reply, s')) :
    (∃ stat, s.createStat ctx byGuid parentId name.val reply = some stat ∧
      ∀ validate, s'.LooksUp ctx byGuid parentId name.val type validate stat) ↔
        s.ReplyRight ctx byGuid parentId name.val isDir := by
  have hkind : ∀ validate stat, s'.LooksUp ctx byGuid parentId name.val type validate stat ↔
      s'.LooksUp ctx byGuid parentId name.val .bookmark validate stat := by
    rcases htype with rfl | ⟨rfl, -, rfl⟩
    · exact fun _ _ => Iff.rfl
    · have hnamed : ∀ validate, s'.bookmarkDoLookup ctx byGuid ctx.tagsRootId (some name.val)
        .tag validate =
          s'.bookmarkDoLookup ctx byGuid ctx.tagsRootId (some name.val) .bookmark validate :=
          fun validate => by
        simp only [GuidDb.bookmarkDoLookup, if_true]
      exact fun validate stat => ⟨fun h => ⟨hnamed validate ▸ h.named, h.self⟩,
        fun h => ⟨hnamed validate ▸ h.named, h.self⟩⟩
  have hrun : (s.bookmarkDoCreate env ctx byGuid random fuel parentId name.val isDir).map s.txnEnd =
      some (reply, s') := by
    rcases htype with rfl | ⟨rfl, rfl, -⟩ <;> exact h
  obtain ⟨done, hdone, hend⟩ := Option.map_eq_some_iff.mp hrun
  simp only [hkind]
  cases done with
  | ok done =>
    cases hend
    rw [← looksUp_created hkeys hplaces hparent hnow hdone]
    refine ⟨?_, fun hlooks => ⟨_, rfl, hlooks⟩⟩
    rintro ⟨stat, hstat, hlooks⟩
    exact Option.some.inj hstat ▸ hlooks
  | error err =>
    cases hend
    obtain rfl : err = .exist := by
      rcases hreply with ⟨_, h⟩ | h <;> cases h
      rfl
    obtain ⟨stat, hstat⟩ := bookmarkDoCreate_exist hdone
    refine iff_of_true ⟨stat, ?_, fun validate => looksUp_taken hkeys hstat⟩ (.inl ⟨stat, hstat⟩)
    rw [GuidDb.createStat, hstat]
    rfl

end Agreement

end BookmarkFS.Firefox
