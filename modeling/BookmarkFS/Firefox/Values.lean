import BookmarkFS.Firefox.Counts
import BookmarkFS.Firefox.Listing

/-! # The URLs of bookmarks

Bookmarks of one URL share a place, and a place is deleted with its last reference.
Whatever is done to other bookmarks, tags and keywords, each bookmark has the URL
that has last been set for it.
-/
namespace BookmarkFS.Firefox
open Library
open Chromium (Errno)

/-- The attributes of a bookmark, where titles are filenames. GUIDs are not part of the model. -/
inductive Xattr where
  | url
  | desc
  | dateAdded
  | keyword

def integerText (n : ℤ) : Bytes := if n < 0 then 45 :: decimal n.natAbs else decimal n.natAbs

/-- The column that `bookmark_do_get()` selects, which may be NULL. -/
def Db.value (db : Db) (b : MozBookmark) : Xattr → Option Bytes
  | .url => (db.place b.fk).map (·.url)
  | .desc => (db.place b.fk).bind (·.description)
  | .dateAdded => some (integerText b.dateAdded)
  | .keyword => (db.keywords.find? fun k => some k.placeId = b.fk).map (·.keyword)

/-- `bookmark_get()` without a cookie: the value that the callback is given. -/
def bookmarkGet (db : Db) (id : ℤ) (xattr : Xattr) : Except Errno Bytes :=
  match db.bookmarks.find? fun b => bound id = some b.id with
  | none => .error .stale
  | some b => .ok ((db.value b xattr).getD [])

def MozPlace.address (mp : MozPlace) : ℤ × Bytes := (mp.id, mp.url)

def MozBookmark.link (b : MozBookmark) : ℤ × Option ℤ := (b.id, b.fk)

/-- All places and links have been there before. -/
structure Db.Inherits (db db' : Db) : Prop where
  places : ∀ mp ∈ db'.places, mp.address ∈ db.places.map (·.address)
  links : ∀ b ∈ db'.bookmarks, b.link ∈ db.bookmarks.map (·.link)

/-- All places and links have been there before, or are new; except for a bookmark that gets
another URL. -/
structure Db.Continues (db : Db) (target : Option ℤ) (db' : Db) : Prop where
  places : ∀ mp ∈ db'.places, mp.address ∈ db.places.map (·.address) ∨ mp.id ∉ db.places.map (·.id)
  links : ∀ b ∈ db'.bookmarks, target = some b.id ∨ b.link ∈ db.bookmarks.map (·.link) ∨
    b.id ∉ db.bookmarks.map (·.id)

variable {db db₁ db' : Db} {target : Option ℤ}

theorem Db.Inherits.refl (db : Db) : db.Inherits db :=
  ⟨fun _ h => List.mem_map_of_mem h, fun _ h => List.mem_map_of_mem h⟩

theorem Db.Inherits.trans (h : db.Inherits db₁) (h' : db₁.Inherits db') : db.Inherits db' where
  places mp hmp := by
    obtain ⟨mp', hmp', hsame⟩ := List.mem_map.mp (h'.places mp hmp)
    exact hsame ▸ h.places mp' hmp'
  links b hb := by
    obtain ⟨b', hb', hsame⟩ := List.mem_map.mp (h'.links b hb)
    exact hsame ▸ h.links b' hb'

theorem Db.Inherits.continues (h : db.Inherits db') (target : Option ℤ) :
    db.Continues target db' where
  places mp hmp := .inl (h.places mp hmp)
  links b hb := .inr (.inl (h.links b hb))

theorem Db.Continues.inherits (h : db.Continues target db₁) (h' : db₁.Inherits db') :
    db.Continues target db' where
  places mp hmp := by
    obtain ⟨mp', hmp', hsame⟩ := List.mem_map.mp (h'.places mp hmp)
    have hid : mp'.id = mp.id := congrArg Prod.fst hsame
    exact hsame ▸ hid ▸ h.places mp' hmp'
  links b hb := by
    obtain ⟨b', hb', hsame⟩ := List.mem_map.mp (h'.links b hb)
    have hid : b'.id = b.id := congrArg Prod.fst hsame
    exact hsame ▸ hid ▸ h.links b' hb'

/-! ## What places and rows inherit -/

theorem inherits_updatePlaces {p : MozPlace → Bool} {f : MozPlace → MozPlace}
    (hf : ∀ mp, (f mp).address = mp.address) :
    db.Inherits (updatePlaces db p f) where
  places mp hmp := by
    obtain ⟨mp', hmp', rfl⟩ := List.mem_map.mp hmp
    refine List.mem_map.mpr ⟨mp', hmp', ?_⟩
    split
    · exact (hf mp').symm
    · rfl
  links b hb := List.mem_map_of_mem hb

theorem inherits_updateBookmarks {p : MozBookmark → Bool} {f : MozBookmark → MozBookmark}
    (hf : ∀ b, (f b).link = b.link) : db.Inherits (updateBookmarks db p f) where
  places mp hmp := List.mem_map_of_mem hmp
  links b hb := by
    obtain ⟨b', hb', rfl⟩ := List.mem_map.mp hb
    refine List.mem_map.mpr ⟨b', hb', ?_⟩
    split
    · exact (hf b').symm
    · rfl

theorem inherits_sublist (hplaces : db'.places.Sublist db.places)
    (hrows : db'.bookmarks.Sublist db.bookmarks) :
    db.Inherits db' :=
  ⟨fun _ hmp => List.mem_map_of_mem (hplaces.subset hmp), fun _ hb => List.mem_map_of_mem
    (hrows.subset hb)⟩

theorem mozplaceDelrefWith_inherits {purge : Db → ℤ → Except Errno Db} {id count : ℤ}
    (hpurge : ∀ {db db' : Db} {id : ℤ}, purge db id = .ok db' → db.Inherits db')
    (h : mozplaceDelrefWith purge db id count = .ok db') : db.Inherits db' := by
  rw [mozplaceDelrefWith] at h
  split at h
  · cases h
  have hupdate : db.Inherits (updatePlaces db (·.id = id) fun mp =>
      { mp with foreignCount := mp.foreignCount - count }) := inherits_updatePlaces fun _ => rfl
  dsimp only at h
  split at h
  · refine hupdate.trans ?_
    rw [mozplaceDelete] at h
    split at h <;> cases h
    exact inherits_sublist List.filter_sublist (List.Sublist.refl _)
  · exact hupdate.trans (hpurge h)

theorem mozplaceDelrefPlain_inherits {id count : ℤ}
    (h : mozplaceDelrefPlain db id count = .ok db') :
    db.Inherits db' :=
  mozplaceDelrefWith_inherits (fun h => Except.ok.inj h ▸ .refl _) h

theorem mozplaceDelref_inherits {id : ℤ} (h : mozplaceDelref db id = .ok db') :
    db.Inherits db' := by
  refine mozplaceDelrefWith_inherits (fun {db db' id} h => ?_) h
  rw [mozplacePurge] at h
  split at h
  swap
  · cases h
    exact .refl _
  split at h
  · cases h
    exact .refl _
  · have hpurged : db.Inherits (purgeRows db id) := inherits_sublist (List.Sublist.refl _) List.filter_sublist
    exact hpurged.trans (mozplaceDelrefPlain_inherits h)

theorem mozbmDelete_inherits {mb : MozBookmark} {isDir purge : Bool} (h : mozbmDelete db mb isDir purge = .ok db') :
    db.Inherits db' := by
  have hrest : db.Inherits { db with bookmarks := db.bookmarks.filter fun b => bound mb.id ≠ some b.id } :=
    inherits_sublist (List.Sublist.refl _) List.filter_sublist
  rw [mozbmDelete] at h
  split at h
  · split at h
    · cases h
    · cases h
      exact hrest
  split at h
  · cases h
  split at h
  · exact hrest.trans (mozplaceDelref_inherits h)
  · exact hrest.trans (mozplaceDelrefPlain_inherits h)

theorem mozbmMove_inherits {id newParent : ℤ} {newPos : Option ℤ} {newName : Option Bytes}
    (h : mozbmMove db id newParent newPos newName = .ok db') : db.Inherits db' := by
  rw [mozbmMove] at h
  split at h
  · obtain ⟨pos, -, h⟩ := bind_eq_ok.mp h
    cases h
    exact inherits_updateBookmarks fun _ => rfl
  · cases h
    exact .refl _

/-- The place of a URL has that URL, and others are as they have been. -/
theorem mozplaceAddref_continues (target : Option ℤ) (hkeyed : db.Keyed) {url : Bytes}
    {r : ℤ × Option ℤ} (h : mozplaceAddref db url = .ok (r, db')) :
    db.Continues target db' ∧ 0 < r.1 ∧ ∀ mp ∈ db'.places, mp.id = r.1 → mp.url = url := by
  rw [mozplaceAddref] at h
  split at h
  · cases h
  dsimp only at h
  split at h
  next mp hfind =>
    cases h
    have hupdate : db.Inherits (updatePlaces db (fun mp => mp.urlHash = mozplaceUrlHash url &&
      mp.url = url) fun mp =>
        { mp with foreignCount := mp.foreignCount + 1 }) := inherits_updatePlaces fun _ => rfl
    have hmem := List.mem_of_find?_eq_some hfind
    refine ⟨hupdate.continues target, hkeyed.positive mp hmem, fun mp' hmp' hid => ?_⟩
    obtain ⟨q, hq, hsame⟩ := List.mem_map.mp (hupdate.places mp' hmp')
    obtain rfl := List.inj_on_of_nodup_map hkeyed.places hq hmem
      ((congrArg Prod.fst hsame).trans hid)
    have hhere := List.find?_some hfind
    simp only [Bool.and_eq_true, decide_eq_true_eq] at hhere
    exact (congrArg Prod.snd hsame).symm.trans hhere.2
  next hfind =>
    cases h
    have hfresh : newRowid (db.places.map (·.id)) ∉ db.places.map (·.id) :=
      fun hmem => (lt_newRowid hmem).false
    rw [show (mozorigin db _ _).2.places = db.places from mozorigin_places db _ _]
    refine ⟨⟨fun mp' hmp' => ?_, fun b hb => .inr (.inl ?_)⟩, newRowid_pos fun id hid => ?_,
      fun mp' hmp' hid => ?_⟩
    · obtain hmp' | hmp' := List.mem_append.mp hmp'
      · exact .inl (List.mem_map_of_mem hmp')
      · rw [List.mem_singleton.mp hmp']
        exact .inr hfresh
    · refine List.mem_map_of_mem ?_
      rw [mozorigin] at hb
      split at hb <;> exact hb
    · obtain ⟨mp', hmp', rfl⟩ := List.mem_map.mp hid
      exact hkeyed.positive mp' hmp'
    · obtain hmp' | hmp' := List.mem_append.mp hmp'
      · have hid : mp'.id = newRowid (db.places.map (·.id)) := hid
        exact absurd (hid ▸ List.mem_map_of_mem hmp') hfresh
      · rw [List.mem_singleton.mp hmp']

variable {env : Env} {ctx : Ctx}

theorem mozbmInsert_continues (h : db.Continues target db₁) (hrows : db₁.bookmarks = db.bookmarks)
    {parent dateAdded placeId id : ℤ} {title : Option Bytes}
    (hrun : mozbmInsert db₁ parent title dateAdded placeId = .ok (id, db')) :
    db.Continues target db' := by
  obtain ⟨b, hrows', ⟨hfresh, -⟩, -, -, -, hplaces⟩ := mozbmInsert_row hrun
  refine ⟨hplaces ▸ h.places, fun c hc => ?_⟩
  rw [hrows', hrows] at hc
  obtain hc | hc := List.mem_append.mp hc
  · exact .inr (.inl (List.mem_map_of_mem hc))
  · rw [List.mem_singleton.mp hc]
    exact .inr (.inr (hrows ▸ hfresh))

theorem mozplaceAddrefId_inherits {id : ℤ} (h : mozplaceAddrefId db id = .ok db') :
    db.Inherits db' := by
  rw [mozplaceAddrefId] at h
  split at h <;> cases h
  exact inherits_updatePlaces fun _ => rfl

theorem mozbmMtimeUpdate_inherits (id now : ℤ) : db.Inherits (mozbmMtimeUpdate db id now) :=
  inherits_updateBookmarks fun _ => rfl

theorem bookmarkDoCreate_continues (hkeyed : db.Keyed) {parentId : ℤ} {name : Bytes} {isDir : Bool}
    {stat : Stat} (hrun : bookmarkDoCreate env ctx parentId name isDir db = .ok (stat, db')) :
    db.Continues target db' := by
  obtain ⟨r, db₁, id, db₂, hplace, hinsert, rfl⟩ := bookmarkDoCreate_cases hrun
  have hcontinues : db.Continues target db₁ := by
    rw [createPlace] at hplace
    split at hplace
    · cases hplace
      exact (Db.Inherits.refl db).continues target
    · obtain ⟨⟨r', db₂⟩, haddref, hplace⟩ := bind_eq_ok.mp hplace
      cases hplace
      exact (mozplaceAddref_continues target hkeyed haddref).1
  exact (mozbmInsert_continues hcontinues (createPlace_rows hplace).1 hinsert).inherits
    (mozbmMtimeUpdate_inherits _ _)

theorem Db.Continues.of_same (hplaces : db₁.places = db.places)
    (hlinks : db₁.bookmarks.map (·.link) = db.bookmarks.map (·.link))
    (h : db₁.Continues target db') :
    db.Continues target db' where
  places mp hmp := hplaces ▸ h.places mp hmp
  links b hb := by
    have hids := congrArg (List.map Prod.fst) hlinks
    rw [List.map_map, List.map_map] at hids
    have hids : db₁.bookmarks.map (·.id) = db.bookmarks.map (·.id) := hids
    exact hlinks ▸ hids ▸ h.links b hb

theorem Db.Keyed.of_same (h : db.Keyed) (hplaces : db'.places = db.places)
    (hkeywords : db'.keywords = db.keywords)
    (hlinks : db'.bookmarks.map (·.link) = db.bookmarks.map (·.link)) : db'.Keyed := by
  have hids := congrArg (List.map Prod.fst) hlinks
  rw [List.map_map, List.map_map] at hids
  have hids : db'.bookmarks.map (·.id) = db.bookmarks.map (·.id) := hids
  exact ⟨by rw [Db.KeysUnique, hids]; exact h.rows, hplaces ▸ h.places, hkeywords ▸ h.keywords,
    hplaces ▸ h.positive⟩

theorem mozbmUpdate_links {id r : ℤ} {dateAdded lastModified : Option ℤ}
    (h : mozbmUpdate db id none dateAdded lastModified = .ok (r, db')) :
    db'.places = db.places ∧ db'.keywords = db.keywords ∧
      db'.bookmarks.map (·.link) = db.bookmarks.map (·.link) := by
  obtain ⟨mb, -, -, -, ⟨g, hrows, hg⟩, hkeywords, hplaces⟩ := mozbmUpdate_cases h
  refine ⟨hplaces, hkeywords, ?_⟩
  rw [hrows, List.map_map]
  refine List.map_congr_left fun b _ => Prod.ext (hg b).1 ((hg b).2.2.trans ?_)
  split <;> rfl

theorem mozbmUpdate_continues {id r : ℤ} {placeId dateAdded lastModified : Option ℤ}
    (h : db.Continues (some id) db₁)
    (hrun : mozbmUpdate db₁ id placeId dateAdded lastModified = .ok (r, db')) :
    db.Continues (some id) db' := by
  obtain ⟨mb, -, -, -, ⟨g, hrows, hg⟩, -, hplaces⟩ := mozbmUpdate_cases hrun
  refine ⟨hplaces ▸ h.places, fun b' hb' => ?_⟩
  rw [hrows] at hb'
  obtain ⟨b, hb, rfl⟩ := List.mem_map.mp hb'
  by_cases hid : b.id = id
  · exact .inl (congrArg some (hid.symm.trans (hg b).1.symm))
  · have hlink : (g b).link = b.link := Prod.ext (hg b).1 ((hg b).2.2.trans (if_neg hid))
    rw [hlink, (hg b).1]
    exact h.links b hb

theorem mozplaceUpdate_continues (target : Option ℤ) (hkeyed : db.Keyed) {id r : ℤ}
    {url desc : Option Bytes}
    {visit : Option ℤ} (h : mozplaceUpdate db id url visit desc = .ok (r, db')) :
    db.Continues target db' ∧ ∀ val, url = some val → 0 < r ∧ ∀ mp ∈ db'.places, mp.id = r → mp.url = val := by
  rw [mozplaceUpdate] at h
  obtain ⟨⟨r', db₁⟩, hreplace, h⟩ := bind_eq_ok.mp h
  cases h
  have hstamp : db₁.Inherits (updatePlaces db₁ (fun mp => bound r = some mp.id) fun mp =>
      { mp with lastVisitDate := visit <|> mp.lastVisitDate, description := desc <|> mp.description }) :=
    inherits_updatePlaces fun _ => rfl
  cases url with
  | none =>
    cases hreplace
    exact ⟨hstamp.continues target, fun val h => (by cases h)⟩
  | some val =>
    obtain ⟨⟨r', db₂⟩, haddref, hreplace⟩ := bind_eq_ok.mp hreplace
    obtain ⟨db₃, hdelref, hreplace⟩ := bind_eq_ok.mp hreplace
    cases hreplace
    obtain ⟨hcontinues, hpos, hurl⟩ := mozplaceAddref_continues target hkeyed haddref
    have hrest := (mozplaceDelrefPlain_inherits hdelref).trans hstamp
    refine ⟨hcontinues.inherits hrest, fun val' hval => ⟨hpos, fun mp hmp hid => ?_⟩⟩
    obtain rfl := Option.some.inj hval
    obtain ⟨q, hq, hsame⟩ := List.mem_map.mp (hrest.places mp hmp)
    exact (congrArg Prod.snd hsame).symm.trans (hurl q hq ((congrArg Prod.fst hsame).trans hid))

/-- Whatever is done, other bookmarks keep their places, and places their URLs. -/
theorem Call.run_continues (hkeyed : db.Keyed) (env : Env) (ctx : Ctx) (call : Call)
    (htarget : ∀ id val, call = .set id (.url val) → target = some id) :
    db.Continues target (call.run env ctx db).2 := by
  have hrefl := (Db.Inherits.refl db).continues target
  have hstamp : ∀ {db' : Db} (id now : ℤ), db.Continues target db' →
      db.Continues target (mozbmMtimeUpdate db' id now) :=
    fun _ _ h => h.inherits (mozbmMtimeUpdate_inherits _ _)
  refine Call.run_keeps hrefl call (fun _ _ => bookmarkDoCreate_continues hkeyed) (fun _ hrun => ?_)
    (fun _ hrun => ?_)
    (fun hrun => ?_) (fun _ hrun => ?_) (fun _ hrun => ?_)
    (fun {oldParentId oldName newParentId newName type noreplace} _ => ?_)
    (fun {parentId op name1 name2 type now} => ?_) fun {id arg} hcall => ?_
  · obtain ⟨mb, entry, db₁, db₂, -, -, hinsert, haddref, rfl⟩ := tagEntryAdd_cases hrun
    exact hstamp _ _ ((mozbmInsert_continues hrefl rfl hinsert).inherits
      (mozplaceAddrefId_inherits haddref))
  · obtain ⟨mb, db₁, -, -, hinsert, haddref⟩ := keywordCreate_cases hrun
    have hinherits : db.Inherits db₁ := by
      rw [mozkwInsert] at hinsert
      split at hinsert <;> cases hinsert
      exact inherits_sublist (List.Sublist.refl _) (List.Sublist.refl _)
    exact (hinherits.trans (mozplaceAddrefId_inherits haddref)).continues target
  · obtain ⟨mb, db₁, -, -, hdelete, rfl⟩ := bookmarkDoDelete_cases hrun
    exact hstamp _ _ ((mozbmDelete_inherits hdelete).continues target)
  · obtain ⟨stat, mb, entry, db₁, -, -, -, -, hdelete, rfl⟩ := tagEntryDelete_cases hrun
    exact hstamp _ _ ((mozbmDelete_inherits hdelete).continues target)
  · have hrest : ∀ keywords : List MozKeyword, db.Inherits { db with keywords := keywords } :=
      fun _ =>
      inherits_sublist (List.Sublist.refl _) (List.Sublist.refl _)
    exact ((hrest _).trans (mozplaceDelrefPlain_inherits hrun)).continues target
  · refine bookmarkRename_cases _ _ _ _ _ _ hrefl hstamp fun _ hreplace hmove => ?_
    obtain ⟨-, rfl⟩ | ⟨newMb, -, -, hdelete, -⟩ := replaceTarget_cases hreplace
    · exact (mozbmMove_inherits hmove).continues target
    · exact ((mozbmDelete_inherits hdelete).trans (mozbmMove_inherits hmove)).continues target
  · have hpos : ∀ {db : Db} (id newPos : ℤ), db.Inherits (mozbmPosUpdate db id newPos) := fun _ _ =>
      inherits_updateBookmarks fun _ => rfl
    refine bookmarkPermute_cases _ _ _ _ _ _ hrefl hstamp (fun _ _ _ => ?_) fun _ _ hshift => ?_
    · exact ((hpos _ _).trans (hpos _ _)).continues target
    · obtain ⟨p, d, rfl⟩ := mozbmPosShift_update hshift
      have hshifted : db.Inherits (updateBookmarks db p fun b =>
        { b with position := b.position + d }) :=
        inherits_updateBookmarks fun _ => rfl
      exact (hshifted.trans (hpos _ _)).continues target
  · subst hcall
    refine bookmarkSet_cases id arg hrefl fun {updates placeId db₁} hupdates hupdate => ?_
    obtain ⟨hplaces, hkeywords, hlinks⟩ := mozbmUpdate_links hupdate
    have hkeyed₁ := hkeyed.of_same hplaces hkeywords hlinks
    have hsame : ∀ {db' : Db}, db₁.Continues target db' → db.Continues target db' :=
      fun h => h.of_same hplaces hlinks
    refine ⟨fun _ => hsame ((Db.Inherits.refl db₁).continues target),
      fun {url visit desc newPlaceId db₂} hplace hplaceId hrun => ?_⟩
    obtain ⟨hcontinues, -⟩ := mozplaceUpdate_continues target hkeyed₁ hrun
    refine ⟨fun _ => hsame hcontinues, fun {r db₃} hmoved hupdate' => ?_⟩
    cases url with
    | none =>
      obtain ⟨-, hsameId, -⟩ | ⟨val, hval, -⟩ := mozplaceUpdate_places hrun
      · exact absurd hsameId hmoved
      · cases hval
    | some val =>
      obtain rfl := htarget id val (congrArg (Call.set id) (updates_url hupdates hplace))
      exact mozbmUpdate_continues (hsame hcontinues) hupdate'

/-! ## The URLs -/

theorem bookmarkGet_row (hkeyed : db.Keyed) {b : MozBookmark} (hb : b ∈ db.bookmarks)
    (xattr : Xattr) :
    bookmarkGet db b.id xattr = if b.id < 0 then .error .stale
    else .ok ((db.value b xattr).getD []) := by
  rw [bookmarkGet]
  by_cases hneg : b.id < 0
  · have hnone : (db.bookmarks.find? fun c => bound b.id = some c.id) = none := by
      rw [List.find?_eq_none]
      intro c _ hc
      exact absurd (bound_eq_some.mp (of_decide_eq_true hc)).1 (not_le.mpr hneg)
    rw [hnone, if_pos hneg]
  · have hfind : (db.bookmarks.find? fun c => bound b.id = some c.id) = some b := by
      have hsome : (db.bookmarks.find? fun c => bound b.id = some c.id).isSome = true :=
        List.find?_isSome.mpr ⟨b, hb, decide_eq_true (bound_eq_some.mpr ⟨not_lt.mp hneg, rfl⟩)⟩
      obtain ⟨c, hc⟩ := Option.isSome_iff_exists.mp hsome
      have hbound := List.find?_some hc
      have hid := (bound_eq_some.mp (of_decide_eq_true hbound)).2
      rw [hc, hkeyed.rows.eq_of_id hb (List.mem_of_find?_eq_some hc) hid]
    rw [hfind, if_neg hneg]

theorem bookmarkGet_mem {id : ℤ} {xattr : Xattr} {val : Bytes}
    (h : bookmarkGet db id xattr = .ok val) :
    id ∈ db.bookmarks.map (·.id) := by
  rw [bookmarkGet] at h
  split at h
  · cases h
  next b hfind =>
    have hbound := List.find?_some hfind
    have hid := (bound_eq_some.mp (of_decide_eq_true hbound)).2
    exact hid ▸ List.mem_map_of_mem (List.mem_of_find?_eq_some hfind)

theorem Db.Counted.place_spec (h : db.Counted) (hkeyed : db.Keyed) {b : MozBookmark}
    (hb : b ∈ db.bookmarks)
    {place : ℤ} (hfk : b.fk = some place) : ∃ mp ∈ db.places, mp.id = place ∧
    db.place b.fk = some mp := by
  obtain ⟨mp, hmp, rfl⟩ := List.mem_map.mp (h.mem (references_ne_zero.mpr (.inl ⟨b, hb, hfk⟩)))
  refine ⟨mp, hmp, rfl, ?_⟩
  rw [Db.place, hfk]
  exact hkeyed.find_place hmp

/-- Where places and links go on, so does the URL. -/
theorem url_continues (hkeyed : db.Keyed) (hcounted : db.Counted) (hkeyed' : db'.Keyed)
    (hcounted' : db'.Counted) (h : db.Continues target db') {b b' : MozBookmark}
    (hb : b ∈ db.bookmarks) (hb' : b' ∈ db'.bookmarks) (hid : b'.id = b.id)
    (htarget : target ≠ some b.id) : db'.value b' .url = db.value b .url := by
  have hfk : b'.fk = b.fk := by
    obtain hsome | hlink | hfresh := h.links b' hb'
    · exact absurd (hid ▸ hsome) htarget
    · obtain ⟨c, hc, hsame⟩ := List.mem_map.mp hlink
      obtain rfl := hkeyed.rows.eq_of_id hc hb ((congrArg Prod.fst hsame).trans hid)
      exact (congrArg Prod.snd hsame).symm
    · exact absurd (hid ▸ List.mem_map_of_mem hb) hfresh
  rw [Db.value, Db.value]
  cases hplace : b.fk with
  | none =>
    rw [hfk, hplace]
    rfl
  | some place =>
    obtain ⟨mp, hmp, rfl, hfound⟩ := hcounted.place_spec hkeyed hb hplace
    obtain ⟨mp', hmp', hsame, hfound'⟩ := hcounted'.place_spec hkeyed' hb' (hfk.trans hplace)
    rw [hfound', ← hplace, hfound, Option.map_some, Option.map_some]
    obtain haddress | hfresh := h.places mp' hmp'
    · obtain ⟨q, hq, haddr⟩ := List.mem_map.mp haddress
      obtain rfl := List.inj_on_of_nodup_map hkeyed.places hq hmp
        ((congrArg Prod.fst haddr).trans hsame)
      exact congrArg some (congrArg Prod.snd haddr).symm
    · exact absurd (hsame ▸ List.mem_map_of_mem hmp) hfresh

theorem transaction_ok {α : Type} {op : Db → Except Errno (α × Db)} {a : α}
    (h : transaction op db = (.ok a, db')) : op db = .ok (a, db') := by
  rw [transaction] at h
  split at h
  next hrun =>
    cases h
    exact hrun
  · cases h

theorem mozbmUpdate_nonneg {id r : ℤ} {placeId dateAdded lastModified : Option ℤ}
    (h : mozbmUpdate db id placeId dateAdded lastModified = .ok (r, db')) : 0 ≤ id := by
  rw [mozbmUpdate] at h
  split at h
  · cases h
  next mb hfind =>
    have hbound := List.find?_some hfind
    exact (bound_eq_some.mp (of_decide_eq_true hbound)).1

/-- The URL that has been set -/
theorem bookmarkSet_url (hkeyed : db.Keyed) {id : ℤ} {val : Bytes}
    (hrun : bookmarkSet env ctx id (.url val) db = (.ok (), db')) (hkeyed' : db'.Keyed)
    (hcounted' : db'.Counted) :
    bookmarkGet db' id .url = .ok val := by
  simp only [bookmarkSet, SetArg.updates] at hrun
  have hop := transaction_ok hrun
  obtain ⟨⟨placeId, db₁⟩, hupdate, hop⟩ := bind_eq_ok.mp hop
  dsimp only at hop
  split at hop
  · cases hop
  next hplaceId =>
  obtain ⟨⟨newPlaceId, db₂⟩, hplace, hop⟩ := bind_eq_ok.mp hop
  obtain ⟨hplaces, hkeywords, hlinks⟩ := mozbmUpdate_links hupdate
  obtain ⟨-, hurl⟩ := mozplaceUpdate_continues none (hkeyed.of_same hplaces hkeywords hlinks) hplace
  obtain ⟨hpos, hurl⟩ := hurl val rfl
  have hnonneg := mozbmUpdate_nonneg hupdate
  obtain ⟨mb, hmb, rfl, hfk, ⟨g, hrows, hg⟩, -⟩ := mozbmUpdate_cases hupdate
  obtain ⟨hrows₂, -⟩ := mozplaceUpdate_rows hplace
  -- The bookmark refers to the place of the URL, which is still there.
  obtain ⟨b, hb, hid, hplace', hplaces'⟩ : ∃ b ∈ db'.bookmarks, b.id = mb.id ∧
    b.fk = some newPlaceId ∧
      db'.places = db₂.places := by
    have hgmb : g mb ∈ db₂.bookmarks := by
      rw [hrows₂, hrows]
      exact List.mem_map_of_mem hmb
    dsimp only at hop
    split at hop
    next hsame =>
      cases hop
      refine ⟨g mb, hgmb, (hg mb).1, ?_, rfl⟩
      rw [(hg mb).2.2, if_pos rfl, hsame, hfk]
      cases hmbfk : mb.fk with
      | none =>
        rw [hmbfk] at hfk
        exact absurd hfk hplaceId
      | some place => rfl
    next hmoved =>
      obtain ⟨⟨r, db₃⟩, hupdate', hop⟩ := bind_eq_ok.mp hop
      cases hop
      obtain ⟨mb', -, -, -, ⟨g', hrows', hg'⟩, -, hplaces'⟩ := mozbmUpdate_cases hupdate'
      refine ⟨g' (g mb), hrows' ▸ List.mem_map_of_mem hgmb, (hg' _).1.trans (hg mb).1, ?_, hplaces'⟩
      rw [(hg' _).2.2, if_pos (hg mb).1, bound_eq_some.mpr ⟨hpos.le, rfl⟩]
      rfl
  obtain ⟨mp, hmp, hmpid, hfound⟩ := hcounted'.place_spec hkeyed' hb hplace'
  rw [← hid, bookmarkGet_row hkeyed' hb, if_neg (not_lt.mpr (hid ▸ hnonneg)), Db.value, hfound,
    Option.map_some, hurl mp (hplaces' ▸ hmp) hmpid]
  rfl

/-- A call leaves the URLs of all bookmarks alone but for the one that it sets. -/
theorem Call.run_urls (hkeyed : db.Keyed) (hcounted : db.Counted) (env : Env) (ctx : Ctx)
    (call : Call) (hcounting : call.Counting ctx db) :
    (∀ b ∈ db.bookmarks, ∀ b' ∈ (call.run env ctx db).2.bookmarks, b'.id = b.id →
      (∀ val, call = .set b.id (.url val) → (call.run env ctx db).1 ≠ .ok ()) →
        bookmarkGet (call.run env ctx db).2 b.id .url = bookmarkGet db b.id .url) ∧
      ∀ id val, call = .set id (.url val) → (call.run env ctx db).1 = .ok () →
        bookmarkGet (call.run env ctx db).2 id .url = .ok val := by
  have hkeeps := call.run_counts hcounted hkeyed env ctx hcounting
  refine ⟨fun b hb b' hb' hid hother => ?_, fun id val hcall hok => ?_⟩
  · by_cases hset : ∃ val, call = .set b.id (.url val)
    · obtain ⟨val, hset⟩ := hset
      cases hreply : (call.run env ctx db).1 with
      | ok u => exact absurd hreply (hother val hset)
      | error err => rw [call.run_error hreply]
    · obtain ⟨target, htarget, hne⟩ : ∃ target : Option ℤ,
          (∀ id val, call = .set id (.url val) → target = some id) ∧ target ≠ some b.id := by
        by_cases hurl : ∃ id val, call = .set id (.url val)
        · obtain ⟨id, val, rfl⟩ := hurl
          refine ⟨some id, fun id' val' h => ?_, fun h => hset ⟨val, ?_⟩⟩
          · cases h
            rfl
          · rw [Option.some.inj h]
        · exact ⟨none, fun id val h => absurd ⟨id, val, h⟩ hurl, fun h => (by cases h)⟩
      have hvalue := url_continues hkeyed hcounted hkeeps.keyed hkeeps.counted
        (call.run_continues hkeyed env ctx htarget) hb hb' hid hne
      rw [bookmarkGet_row hkeyed hb, ← hid, bookmarkGet_row hkeeps.keyed hb', hvalue]
  · subst hcall
    exact bookmarkSet_url hkeyed (Prod.ext hok rfl) hkeeps.keyed hkeeps.counted

/-- In every run, each bookmark has the URL that has last been set for it, whatever is done to
others: a call leaves the URLs of all bookmarks alone but for the one that it sets. -/
theorem urls_last_set (ctx : Ctx) (db : Db) (hreach : (allCalls ctx).Reachable db) (env : Env)
    (call : Call) (hcounting : call.Counting ctx db) :
    (∀ b ∈ db.bookmarks, ∀ b' ∈ (call.run env ctx db).2.bookmarks, b'.id = b.id →
      (∀ val, call = .set b.id (.url val) → (call.run env ctx db).1 ≠ .ok ()) →
        bookmarkGet (call.run env ctx db).2 b.id .url = bookmarkGet db b.id .url) ∧
      ∀ id val, call = .set id (.url val) → (call.run env ctx db).1 = .ok () →
        bookmarkGet (call.run env ctx db).2 id .url = .ok val := by
  obtain ⟨hkeyed, hcounted⟩ := hreach.holds (allCalls_counted ctx)
  exact call.run_urls hkeyed hcounted env ctx hcounting

/-- Two bookmarks of one URL -/
def sharing : Db where
  bookmarks := [⟨2, 2, none, 1, 0, some [102], 0, 0⟩, ⟨3, 1, some 1, 2, 0, some [97], 0, 0⟩,
    ⟨4, 1, some 1, 2, 1, some [98], 0, 0⟩]
  places := [⟨1, [120, 58], none, none, 2, mozplaceUrlHash [120, 58], 1⟩]
  keywords := []
  keywordSeq := 0
  origins := [⟨1, [120, 58], []⟩]

theorem sharing_keyed : sharing.Keyed :=
    ⟨by unfold Db.KeysUnique; decide, by decide, by decide, by decide +kernel⟩

theorem sharing_clean : sharing.UrlClean [121, 58] := by
  intro mp hmp _ hurl
  rw [List.mem_singleton.mp hmp] at hurl
  cases hurl

/-- One of the two gets another URL, and the other keeps its own. -/
theorem urls_last_set_sharing : ∃ db,
    db = ((Call.set 3 (.url [121, 58])).run ⟨⟨0, 0⟩, 0⟩ ⟨1, 5, false, true⟩ sharing).2 ∧
      bookmarkGet db 3 .url = .ok [121, 58] ∧ bookmarkGet db 4 .url = .ok [120, 58] := by
  obtain ⟨hothers, hset⟩ :=
    urls_last_set ⟨1, 5, false, true⟩ sharing (.init ⟨sharing_keyed, by decide +kernel⟩)
    ⟨⟨0, 0⟩, 0⟩ (.set 3 (.url [121, 58])) fun _ _ => sharing_clean
  refine ⟨_, rfl, hset 3 _ rfl (by decide +kernel), ?_⟩
  refine (hothers ⟨4, 1, some 1, 2, 1, some [98], 0, 0⟩ (by decide) ⟨4, 1, some 1, 2, 1,
    some [98], 0, 0⟩
    (by decide +kernel) rfl fun val h => ?_).trans (by decide +kernel)
  cases h

/-! ## Cookies -/

/-- `bookmark_get()` with a cookie, where `get_data_version()` returns `version`: the reply, and
the cookie after it -/
def bookmarkGetCookie (db : Db) (version id : ℤ) (xattr : Xattr) (cookie : Option ℤ) :
    Except Errno Bytes × Option ℤ :=
  if cookie = some version then (.error .again, cookie)
  else
    match bookmarkGet db id xattr with
    | .error err => (.error err, cookie)
    | .ok val => (.ok val, some version)

/-- The database as a connection sees it, the cookies of the open files, and what each file is
known to contain: what has been delivered with its cookie, or set since, as long as the
bookmark is there. -/
structure Connection where
  db : Db
  version : ℤ
  cookie : ℕ → Option ℤ
  known : ℕ → Option Bytes

/-- What happens to a connection: a call of its own, a commit by another, or the URL of an open
file is asked for. -/
inductive Use where
  | call (env : Env) (call : Call)
  | commit (db : Db) (version : ℤ)
  | get (file : ℕ)

/-- What is known of a bookmark after a call -/
def knownAfter (id : ℤ) (call : Call) (reply : Except Errno Unit) (db : Db) (known : Option Bytes) :
    Option Bytes :=
  if id ∈ db.bookmarks.map (·.id) then
    match call, reply with
    | .set id' (.url val), .ok () => if id' = id then some val else known
    | _, _ => known
  else none

/-- All uses of a connection, where the file `n` has been opened for the bookmark `ids n`. The
data version that SQLite returns after another connection has committed is none that has been
returned before. -/
def connection (ctx : Ctx) (ids : ℕ → ℤ) : System Connection Use Errno where
  init c := (c.db.Keyed ∧ c.db.Counted) ∧ ∀ n, c.cookie n = none
  legal c use := match use with
    | .call _ call => call.Counting ctx c.db
    | .commit db version => (db.Keyed ∧ db.Counted) ∧ version ≠ c.version ∧
        ∀ n, c.cookie n ≠ some version
    | .get _ => True
  step c use := match use with
    | .call env call =>
      let (reply, db) := call.run env ctx c.db
      .ok { c with db := db, known := fun n => knownAfter (ids n) call reply db (c.known n) }
    | .commit db version => .ok { c with db := db, version := version }
    | .get n =>
      let reply := bookmarkGetCookie c.db c.version (ids n) .url (c.cookie n)
      .ok { c with
        cookie := Function.update c.cookie n reply.2
        known := Function.update c.known n (match reply.1 with
          | .ok val => some val
          | .error _ => c.known n) }

/-- Of a file whose cookie is fresh, what is known is what it contains. -/
structure Connection.Fresh (ids : ℕ → ℤ) (c : Connection) : Prop where
  keyed : c.db.Keyed
  counted : c.db.Counted
  known : ∀ n val, c.cookie n = some c.version → c.known n = some val →
    ids n ∈ c.db.bookmarks.map (·.id) ∧ bookmarkGet c.db (ids n) .url = .ok val

/-- What is known of a bookmark stays right. -/
theorem knownAfter_right (hkeyed : db.Keyed) (hcounted : db.Counted) (env : Env) (ctx : Ctx)
    (call : Call) (hcounting : call.Counting ctx db) {id : ℤ} {known : Option Bytes} {val : Bytes}
    (hknown : known = some val → id ∈ db.bookmarks.map (·.id) ∧ bookmarkGet db id .url = .ok val)
    (h : knownAfter id call (call.run env ctx db).1 (call.run env ctx db).2 known = some val) :
    id ∈ (call.run env ctx db).2.bookmarks.map (·.id) ∧
    bookmarkGet (call.run env ctx db).2 id .url = .ok val := by
  rw [knownAfter.eq_def] at h
  split at h
  swap
  · cases h
  next hmem =>
  obtain ⟨hothers, hset⟩ := call.run_urls hkeyed hcounted env ctx hcounting
  refine ⟨hmem, ?_⟩
  by_cases htarget : ∃ val', call = .set id (.url val') ∧ (call.run env ctx db).1 = .ok ()
  · obtain ⟨val', rfl, hok⟩ := htarget
    rw [hok] at h
    dsimp only at h
    rw [if_pos rfl] at h
    obtain rfl := Option.some.inj h
    exact hset id val' rfl hok
  · have hkept : known = some val := by
      split at h
      next id' val' hok =>
        split at h
        next hid => exact absurd ⟨val', by rw [hid], hok⟩ htarget
        · exact h
      · exact h
    obtain ⟨hbefore, hget⟩ := hknown hkept
    obtain ⟨b, hb, rfl⟩ := List.mem_map.mp hbefore
    obtain ⟨b', hb', hid⟩ := List.mem_map.mp hmem
    exact (hothers b hb b' hb' hid fun val' hcall hok => htarget ⟨val', hcall, hok⟩).trans hget

theorem connection_fresh (ctx : Ctx) (ids : ℕ → ℤ) :
    (connection ctx ids).Invariant (Connection.Fresh ids) where
  init c := by
    rintro ⟨⟨hkeyed, hcounted⟩, hnone⟩
    refine ⟨hkeyed, hcounted, fun n val hcookie => ?_⟩
    rw [hnone n] at hcookie
    cases hcookie
  step c use c' h hlegal hstep := by
    cases use with
    | call env call =>
      cases hstep
      have hkeeps := call.run_counts h.counted h.keyed env ctx hlegal
      exact ⟨hkeeps.keyed, hkeeps.counted, fun n val hcookie hknown =>
        knownAfter_right h.keyed h.counted env ctx call hlegal (h.known n val hcookie) hknown⟩
    | commit db version =>
      cases hstep
      obtain ⟨⟨hkeyed, hcounted⟩, -, hold⟩ := hlegal
      exact ⟨hkeyed, hcounted, fun n val hcookie => absurd hcookie (hold n)⟩
    | get n =>
      cases hstep
      refine ⟨h.keyed, h.counted, fun m val hcookie hknown => ?_⟩
      dsimp only at hcookie hknown
      by_cases hm : m = n
      swap
      · rw [Function.update_of_ne hm] at hcookie hknown
        exact h.known m val hcookie hknown
      obtain rfl := hm
      rw [Function.update_self] at hcookie hknown
      rw [bookmarkGetCookie] at hcookie hknown
      by_cases hfresh : c.cookie m = some c.version
      · rw [if_pos hfresh] at hknown
        exact h.known m val hfresh hknown
      rw [if_neg hfresh] at hcookie hknown
      cases hget : bookmarkGet c.db (ids m) .url with
      | error err =>
        rw [hget] at hcookie
        exact absurd hcookie hfresh
      | ok val' =>
        rw [hget] at hknown
        obtain rfl := Option.some.inj hknown
        exact ⟨bookmarkGet_mem hget, rfl⟩

/-- In every run, with whatever other connections commit, a file of which `bookmark_get()` says
that there is nothing new contains what has last been delivered for it, or been set since. -/
theorem nothing_new (ctx : Ctx) (ids : ℕ → ℤ) {c : Connection}
    (hreach : (connection ctx ids).Reachable c) (n : ℕ)
    (hagain : (bookmarkGetCookie c.db c.version (ids n) .url (c.cookie n)).1 = .error .again)
    {val : Bytes} (hknown : c.known n = some val) : bookmarkGet c.db (ids n) .url = .ok val := by
  have hfresh := hreach.holds (connection_fresh ctx ids)
  refine (hfresh.known n val ?_ hknown).2
  rw [bookmarkGetCookie] at hagain
  split at hagain
  next hcookie => exact hcookie
  · rw [bookmarkGet] at hagain
    split at hagain
    next hget =>
      split at hget
      · cases hget
        cases hagain
      · cases hget
    · cases hagain

theorem setting_reachable : ∃ c : Connection,
    (connection ⟨1, 5, false, true⟩ fun _ => 3).Reachable c ∧
    (bookmarkGetCookie c.db c.version 3 .url (c.cookie 0)).1 = .error .again ∧
    c.known 0 = some [121, 58] := by
  have h₀ : (connection ⟨1, 5, false, true⟩ fun _ => 3).Reachable ⟨sharing, 1, fun _ => none,
    fun _ => none⟩ :=
    .init ⟨⟨sharing_keyed, by decide +kernel⟩, fun _ => rfl⟩
  have h₁ := h₀.step (l := Use.get 0) (by exact trivial) rfl
  have h₂ := h₁.step (l := Use.call ⟨⟨0, 0⟩, 0⟩ (.set 3 (.url [121, 58])))
    (by exact fun _ _ => sharing_clean) rfl
  exact ⟨_, h₂, by decide +kernel, by decide +kernel⟩

/-- The reply says that there is nothing new, also where the file has been opened twice, and set
from the other. -/
theorem nothing_new_set : ∃ c : Connection,
    (connection ⟨1, 5, false, true⟩ fun _ => 3).Reachable c ∧
    (bookmarkGetCookie c.db c.version 3 .url (c.cookie 0)).1 = .error .again ∧
      bookmarkGet c.db 3 .url = .ok [121, 58] := by
  obtain ⟨c, hreach, hagain, hknown⟩ := setting_reachable
  exact ⟨c, hreach, hagain, nothing_new ⟨1, 5, false, true⟩ (fun _ => 3) hreach 0 hagain hknown⟩

end BookmarkFS.Firefox
