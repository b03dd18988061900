import BookmarkFS.Firefox.Calls

/-! # Tags and keywords without a bookmark

A row without a title tags a place, and a keyword belongs to one. When the last
titled bookmark of a place is deleted, they are given up, too; when its URL is
set, they are not.
-/
namespace BookmarkFS.Firefox
open Library
open Chromium (Errno PermdOp)

def Db.Associated (db : Db) (place : ℤ) : Prop :=
  (∃ b ∈ db.bookmarks, b.fk = some place ∧ b.title = none) ∨ ∃ k ∈ db.keywords, k.placeId = place

/-- A bookmark with a title refers to the place. -/
def Db.Owned (db : Db) (place : ℤ) : Prop := ∃ b ∈ db.bookmarks, b.fk = some place ∧ b.title ≠ none

/-- A bookmark with a title, other than the row `id`, refers to the place. -/
def Db.OwnedBut (db : Db) (id place : ℤ) : Prop :=
  ∃ b ∈ db.bookmarks, b.id ≠ id ∧ b.fk = some place ∧ b.title ≠ none

def Db.NoOrphans (db : Db) : Prop := ∀ mp ∈ db.places, db.Associated mp.id → db.Owned mp.id

/-- Identifiers of rows are keys, those of places are positive, and there are no orphans. -/
structure Db.Tidy (db : Db) : Prop where
  keys : db.KeysUnique
  positive : ∀ mp ∈ db.places, 0 < mp.id
  noOrphans : db.NoOrphans

/-- The place that a URL has, or is going to have. -/
def Db.urlPlace (db : Db) (url : Bytes) : ℤ :=
  ((db.places.find? fun mp => mp.urlHash = mozplaceUrlHash url && mp.url = url).map (·.id)).getD
    (newRowid (db.places.map (·.id)))

/-- Where a tag entry is deleted, it is not the last bookmark with a title of a place that tags or
keywords refer to; where the URL of a bookmark is set, neither; and a tag entry is not given the URL
of a place that has no such bookmark. -/
def Call.Safe (db : Db) : Call → Prop
  | .delete parentId name .tag false =>
    ∀ b ∈ db.bookmarks, b.parent = parentId → b.title ≠ none →
      (∃ c ∈ db.bookmarks, c.fk = b.fk ∧ c.title = some name.val) →
      ∀ place, b.fk = some place → db.Associated place → db.OwnedBut b.id place
  | .set id (.url val) =>
    parseMozurl val ≠ none → ∀ b ∈ db.bookmarks, b.id = id → ∀ place, b.fk = some place →
      (b.title ≠ none → place ≠ db.urlPlace val → db.Associated place → db.OwnedBut id place) ∧
        (b.title = none → db.Owned (db.urlPlace val))
  | _ => True

/-- The calls that succeed. -/
def calls (ctx : Ctx) : System Db (Env × Call) Errno where
  init := Db.Tidy
  legal db call := call.2.Safe db
  step db call :=
    match call.2.run call.1 ctx db with
    | (.ok _, db') => .ok db'
    | (.error err, _) => .error err

variable {db db' : Db} {place : ℤ}

/-! ## Statements -/

/-- The places are those of before, or some of them are gone. -/
def Db.FewerPlaces (db db' : Db) : Prop := ∀ mp ∈ db'.places, mp.id ∈ db.places.map (·.id)

/-- Rows are changed in place, keep their places, and do not lose their titles. -/
theorem Db.Tidy.map (h : db.Tidy) {g : MozBookmark → MozBookmark}
    (hrows : db'.bookmarks = db.bookmarks.map g)
    (hg : ∀ b, (g b).id = b.id ∧ (g b).fk = b.fk ∧ ((g b).title = none → b.title = none))
    (hkeywords : db'.keywords = db.keywords) (hplaces : db.FewerPlaces db') : db'.Tidy := by
  refine ⟨?_, fun mp hmp => ?_, fun mp hmp hassoc => ?_⟩
  · rw [Db.KeysUnique, hrows, List.map_map]
    rw [show ((fun b : MozBookmark => b.id) ∘ g) = fun b => b.id from funext fun b => (hg b).1]
    exact h.keys
  · obtain ⟨mp', hmp', hid⟩ := List.mem_map.mp (hplaces mp hmp)
    exact hid ▸ h.positive mp' hmp'
  · obtain ⟨mp', hmp', hid⟩ := List.mem_map.mp (hplaces mp hmp)
    have hassoc' : db.Associated mp.id := by
      rcases hassoc with ⟨b', hb', hfk, htitle⟩ | ⟨k, hk, hplace⟩
      · rw [hrows] at hb'
        obtain ⟨b, hb, rfl⟩ := List.mem_map.mp hb'
        exact .inl ⟨b, hb, (hg b).2.1.symm.trans hfk, (hg b).2.2 htitle⟩
      · exact .inr ⟨k, hkeywords ▸ hk, hplace⟩
    obtain ⟨b, hb, hfk, htitle⟩ := h.noOrphans mp' hmp' (hid ▸ hassoc')
    refine ⟨g b, hrows ▸ List.mem_map_of_mem hb, ?_, fun hnone => htitle ((hg b).2.2 hnone)⟩
    exact (hg b).2.1.trans (hfk.trans (congrArg some hid))

theorem Db.Tidy.update (h : db.Tidy) {p : MozBookmark → Bool} {f : MozBookmark → MozBookmark}
    (hf : ∀ b, (f b).id = b.id ∧ (f b).fk = b.fk ∧ ((f b).title = none → b.title = none)) :
    (updateBookmarks db p f).Tidy := by
  refine h.map rfl (fun b => ?_) rfl fun mp hmp => List.mem_map_of_mem hmp
  split
  · exact hf b
  · exact ⟨rfl, rfl, id⟩

theorem Db.Tidy.mtime (h : db.Tidy) (id now : ℤ) : (mozbmMtimeUpdate db id now).Tidy :=
  h.update fun _ => ⟨rfl, rfl, fun h => h⟩

theorem updatePlaces_ids {p : MozPlace → Bool} {f : MozPlace → MozPlace}
    (hf : ∀ mp, (f mp).id = mp.id) :
    (updatePlaces db p f).places.map (·.id) = db.places.map (·.id) := by
  rw [updatePlaces, List.map_map]
  refine List.map_congr_left fun mp _ => ?_
  rw [Function.comp_apply]
  split
  · exact hf mp
  · rfl

theorem updatePlaces_fewer {p : MozPlace → Bool} {f : MozPlace → MozPlace}
    (hf : ∀ mp, (f mp).id = mp.id) :
    db.FewerPlaces (updatePlaces db p f) := by
  intro mp hmp
  rw [← updatePlaces_ids hf]
  exact List.mem_map_of_mem hmp

theorem Db.FewerPlaces.trans {db₁ : Db} (h : db.FewerPlaces db₁) (h' : db₁.FewerPlaces db') :
    db.FewerPlaces db' := fun mp hmp => by
  obtain ⟨mp', hmp', hid⟩ := List.mem_map.mp (h' mp hmp)
  exact hid ▸ h mp' hmp'

theorem mozplaceAddrefId_fewer {id : ℤ} (h : mozplaceAddrefId db id = .ok db') :
    db.FewerPlaces db' := by
  rw [mozplaceAddrefId] at h
  split at h <;> cases h
  exact updatePlaces_fewer fun _ => rfl

theorem mozplaceDelete_places {id originId : ℤ} (h : mozplaceDelete db id originId = .ok db') :
    db.FewerPlaces db' ∧ ∀ mp ∈ db'.places, mp.id ≠ id := by
  rw [mozplaceDelete] at h
  split at h <;> cases h
  refine ⟨fun mp hmp => List.mem_map_of_mem (List.mem_filter.mp hmp).1, fun mp hmp => ?_⟩
  exact of_decide_eq_true (List.mem_filter.mp hmp).2

theorem mozplaceDelrefPlain_fewer {id count : ℤ} (h : mozplaceDelrefPlain db id count = .ok db') :
    db.FewerPlaces db' := by
  rw [mozplaceDelrefPlain, mozplaceDelrefWith] at h
  split at h
  · cases h
  have hupdate : db.FewerPlaces (updatePlaces db (·.id = id) fun mp =>
      { mp with foreignCount := mp.foreignCount - count }) :=
    updatePlaces_fewer fun _ => rfl
  dsimp only at h
  split at h
  · exact hupdate.trans (mozplaceDelete_places h).1
  · cases h
    exact hupdate

/-- A place is that of the URL; if it is new, no other is. -/
theorem mozplaceAddref_places {url : Bytes} {r : ℤ × Option ℤ}
    (h : mozplaceAddref db url = .ok (r, db')) :
    parseMozurl url ≠ none ∧ r.1 = db.urlPlace url ∧
      (r.1 ∈ db.places.map (·.id) ∨ r.1 = newRowid (db.places.map (·.id))) ∧
      ∀ mp ∈ db'.places, mp.id ∈ db.places.map (·.id) ∨ mp.id = r.1 := by
  rw [mozplaceAddref] at h
  split at h
  · cases h
  next hparse =>
  refine ⟨by rw [hparse]; exact Option.some_ne_none _, ?_⟩
  dsimp only at h
  split at h
  next mp hfind =>
    cases h
    have hfewer : db.FewerPlaces (updatePlaces db
        (fun mp => mp.urlHash = mozplaceUrlHash url && mp.url = url) fun mp =>
          { mp with foreignCount := mp.foreignCount + 1 }) :=
      updatePlaces_fewer fun _ => rfl
    exact ⟨by rw [Db.urlPlace, hfind]; rfl,
      .inl (List.mem_map_of_mem (List.mem_of_find?_eq_some hfind)),
      fun mp hmp => .inl (hfewer mp hmp)⟩
  next hfind =>
    cases h
    rw [mozorigin_places]
    refine ⟨by rw [Db.urlPlace, hfind]; rfl, .inr rfl, fun mp hmp => ?_⟩
    rcases List.mem_append.mp hmp with hmp | hmp
    · exact .inl (List.mem_map_of_mem hmp)
    · exact .inr (congrArg MozPlace.id (List.mem_singleton.mp hmp))

theorem newRowid_pos {ids : List ℤ} (h : ∀ id ∈ ids, 0 < id) : 0 < newRowid ids := by
  cases hmax : ids.max? with
  | none => rw [newRowid, hmax]; exact Int.one_pos
  | some m =>
    have hm := h m (List.max?_eq_some_iff.mp hmax).1
    rw [newRowid, hmax, Option.map_some, Option.getD_some]
    omega

/-! ## Calls -/

/-- A row is inserted for a place that has a bookmark with a title then. -/
theorem Db.Tidy.insert (h : db.Tidy) {b : MozBookmark} (hrows : db'.bookmarks = db.bookmarks ++ [b])
    (hfresh : b.id ∉ db.bookmarks.map (·.id)) (hkeywords : db'.keywords = db.keywords)
    (hplaces : ∀ mp ∈ db'.places, mp.id ∈ db.places.map (·.id) ∨ 0 < mp.id ∧ b.fk = some mp.id ∧
      b.title ≠ none)
    (howned : b.title = none → ∀ place, b.fk = some place → db.Owned place) : db'.Tidy := by
  refine ⟨?_, fun mp hmp => ?_, fun mp hmp hassoc => ?_⟩
  · rw [Db.KeysUnique, hrows, List.map_append, List.nodup_append]
    refine ⟨h.keys, List.nodup_singleton _, fun i hi j hj => ?_⟩
    rw [List.map_singleton, List.mem_singleton] at hj
    exact fun hij => hfresh (hj ▸ hij ▸ hi)
  · rcases hplaces mp hmp with hold | hnew
    · obtain ⟨mp', hmp', hid⟩ := List.mem_map.mp hold
      exact hid ▸ h.positive mp' hmp'
    · exact hnew.1
  · have hkeep : db.Owned mp.id → db'.Owned mp.id := by
      rintro ⟨c, hc, hown⟩
      exact ⟨c, hrows ▸ List.mem_append_left _ hc, hown⟩
    rcases hplaces mp hmp with hold | ⟨-, hfk, htitle⟩
    · obtain ⟨mp', hmp', hid⟩ := List.mem_map.mp hold
      rcases hassoc with ⟨c, hc, hfk, htitle⟩ | ⟨k, hk, hplace⟩
      · rw [hrows] at hc
        rcases List.mem_append.mp hc with hc | hc
        · exact hkeep (hid ▸ h.noOrphans mp' hmp' (.inl ⟨c, hc, hid ▸ hfk, htitle⟩))
        · obtain rfl := List.mem_singleton.mp hc
          exact hkeep (howned htitle mp.id hfk)
      · exact hkeep (hid ▸ h.noOrphans mp' hmp' (.inr ⟨k, hkeywords ▸ hk, hid ▸ hplace⟩))
    · exact ⟨b, hrows ▸ List.mem_append_right _ (List.mem_singleton_self b), hfk, htitle⟩

variable {env : Env} {ctx : Ctx}

theorem bookmarkDoCreate_tidy (h : db.Tidy) {parentId : ℤ} {name : Bytes}
    {isDir : Bool} {stat : Stat}
    (hrun : bookmarkDoCreate env ctx parentId name isDir db = .ok (stat, db')) : db'.Tidy := by
  obtain ⟨r, db₁, id, db₂, hcreate, hinsert, rfl⟩ := bookmarkDoCreate_cases hrun
  obtain ⟨b, hrows, ⟨hfresh, -⟩, hfk, htitle, hkeywords, hplaces⟩ := mozbmInsert_row hinsert
  obtain ⟨hrows₁, hkeywords₁⟩ := createPlace_rows hcreate
  have hnone : b.title ≠ none := htitle ▸ Option.some_ne_none _
  refine (h.insert (hrows₁ ▸ hrows) (hrows₁ ▸ hfresh) (hkeywords.trans hkeywords₁)
    (fun mp hmp => ?_)
    fun hnone' => absurd hnone' hnone).mtime _ _
  rw [hplaces] at hmp
  rw [createPlace] at hcreate
  split at hcreate
  · cases hcreate
    exact .inl (List.mem_map_of_mem hmp)
  · obtain ⟨⟨r', db₃⟩, haddref, hcreate⟩ := bind_eq_ok.mp hcreate
    cases hcreate
    obtain ⟨-, -, hr, hids⟩ := mozplaceAddref_places haddref
    rcases hids mp hmp with hold | hnew
    · exact .inl hold
    rcases hr with hr | hr
    · exact .inl (hnew ▸ hr)
    · have hpos : 0 < r'.1 := hr ▸ newRowid_pos fun id hid => by
        obtain ⟨mp, hmp, rfl⟩ := List.mem_map.mp hid
        exact h.positive mp hmp
      exact .inr ⟨hnew ▸ hpos, hfk.trans (bound_eq_some.mpr ⟨hpos.le, hnew.symm⟩), hnone⟩

/-- A bookmark that is found has a title, and a place. -/
theorem mozbmLookupId_row {id : ℤ} {mb : MozBookmark} (h : mozbmLookupId db id = .ok mb) :
    mb ∈ db.bookmarks ∧ mb.title ≠ none ∧ mb.fk = some mb.placeId ∧
      ∃ b ∈ db.bookmarks, b.id = id ∧ b.fk = mb.fk ∧ b.title = mb.title := by
  rw [mozbmLookupId] at h
  split at h
  · cases h
  next b hfound =>
    obtain rfl := Except.ok.inj h
    obtain ⟨c, hc, hfound⟩ := Option.bind_eq_some_iff.mp hfound
    obtain ⟨hb, hcond⟩ := List.mem_filter.mp ((List.perm_insertionSort _ _).mem_iff.mp
      (List.mem_of_head? hfound))
    obtain ⟨hfk, htitle, hsame, htitle'⟩ := of_decide_eq_true hcond
    have hid : bound id = some c.id := by simpa using List.find?_some hc
    have hid := bound_eq_some.mp hid
    refine ⟨hb, htitle' ▸ htitle, ?_, c, List.mem_of_find?_eq_some hc, hid.2.symm,
      hsame.symm, htitle'.symm⟩
    rw [MozBookmark.placeId, hsame]
    obtain ⟨fk, hfk⟩ := Option.ne_none_iff_exists'.mp hfk
    rw [hfk, Option.getD_some]

theorem tagEntryAdd_tidy (h : db.Tidy) {parentId id : ℤ} {name : Bytes} {stat : Stat}
    (hrun : tagEntryAdd env ctx parentId name id db = .ok (stat, db')) : db'.Tidy := by
  obtain ⟨mb, entry, db₁, db₂, hlookup, -, hinsert, haddref, rfl⟩ := tagEntryAdd_cases hrun
  obtain ⟨b, hrows, ⟨hfresh, -⟩, hfk, htitle, hkeywords, hplaces⟩ := mozbmInsert_row hinsert
  obtain ⟨hmb, hmbtitle, hmbfk, -⟩ := mozbmLookupId_row hlookup
  obtain ⟨hrows₂, hkeywords₂⟩ := mozplaceAddrefId_rows haddref
  refine (h.insert (hrows₂.trans hrows) hfresh (hkeywords₂.trans hkeywords) (fun mp hmp => .inl ?_)
    fun _ place hplace => ⟨mb, hmb, ?_, hmbtitle⟩).mtime _ _
  · exact hplaces ▸ mozplaceAddrefId_fewer haddref mp hmp
  · rw [hmbfk, (bound_eq_some.mp (hfk.symm.trans hplace)).2]

theorem keywordCreate_tidy (h : db.Tidy) {keyword : Bytes} {id : ℤ} {stat : Stat}
    (hrun : keywordCreate ctx keyword id db = .ok (stat, db')) : db'.Tidy := by
  obtain ⟨mb, db₁, hlookup, -, hinsert, haddref⟩ := keywordCreate_cases hrun
  obtain ⟨hmb, hmbtitle, hmbfk, -⟩ := mozbmLookupId_row hlookup
  obtain ⟨hrows, hkeywords⟩ := mozplaceAddrefId_rows haddref
  have hfewer := mozplaceAddrefId_fewer haddref
  rw [mozkwInsert] at hinsert
  split at hinsert <;> cases hinsert
  refine ⟨?_, fun mp hmp => ?_, fun mp hmp hassoc => ?_⟩
  · rw [Db.KeysUnique, hrows]
    exact h.keys
  · obtain ⟨mp', hmp', hid⟩ := List.mem_map.mp (hfewer mp hmp)
    exact hid ▸ h.positive mp' hmp'
  · obtain ⟨mp', hmp', hid⟩ := List.mem_map.mp (hfewer mp hmp)
    rw [Db.Owned, hrows]
    rcases hassoc with ⟨c, hc, hfk, htitle⟩ | ⟨k, hk, hplace⟩
    · rw [hrows] at hc
      exact hid ▸ h.noOrphans mp' hmp' (.inl ⟨c, hc, hid ▸ hfk, htitle⟩)
    · rw [hkeywords] at hk
      rcases List.mem_append.mp hk with hk | hk
      · exact hid ▸ h.noOrphans mp' hmp' (.inr ⟨k, hk, hid ▸ hplace⟩)
      · obtain rfl := List.mem_singleton.mp hk
        exact ⟨mb, hmb, hmbfk.trans (congrArg some hplace), hmbtitle⟩

/-- A place is as it has to be: it has a bookmark with a title, or neither tags nor keywords. -/
def Db.Settled (db : Db) (place : ℤ) : Prop := db.Associated place → db.Owned place

theorem settled_congr {db₁ db₂ : Db} (hrows : db₁.bookmarks = db₂.bookmarks)
    (hkeywords : db₁.keywords = db₂.keywords) : db₁.Settled place ↔ db₂.Settled place := by
  simp only [Db.Settled, Db.Associated, Db.Owned, hrows, hkeywords]

theorem purgeRows_settled {id : ℤ} (h : place ≠ id → db.Settled place) :
    (purgeRows db id).Settled place := by
  intro hassoc
  by_cases hplace : place = id
  · subst hplace
    rcases hassoc with ⟨b, hb, hfk, -⟩ | ⟨k, hk, hkplace⟩
    · exact absurd hfk (of_decide_eq_true (List.mem_filter.mp hb).2)
    · exact absurd hkplace (of_decide_eq_true (List.mem_filter.mp hk).2)
  have hassoc' : db.Associated place := by
    rcases hassoc with ⟨b, hb, hrow⟩ | ⟨k, hk, hkplace⟩
    · exact .inl ⟨b, (List.mem_filter.mp hb).1, hrow⟩
    · exact .inr ⟨k, (List.mem_filter.mp hk).1, hkplace⟩
  obtain ⟨b, hb, hfk, htitle⟩ := h hplace hassoc'
  refine ⟨b, List.mem_filter.mpr ⟨hb, decide_eq_true fun h => hplace ?_⟩, hfk, htitle⟩
  exact Option.some.inj (hfk.symm.trans h)

theorem mozplacePurge_fewer {id : ℤ} (hrun : mozplacePurge db id = .ok db') :
    db.FewerPlaces db' := by
  have hrefl : db.FewerPlaces db := fun mp hmp => List.mem_map_of_mem hmp
  rw [mozplacePurge] at hrun
  split at hrun
  · split at hrun
    · cases hrun
      exact hrefl
    · exact fun mp hmp => mozplaceDelrefPlain_fewer hrun mp hmp
  · cases hrun
    exact hrefl

/-- What gives up a reference of a bookmark leaves the place settled. -/
theorem mozplacePurge_settled {id : ℤ} (h : place ≠ id → db.Settled place)
    (hrun : mozplacePurge db id = .ok db') : db'.Settled place := by
  rw [mozplacePurge] at hrun
  split at hrun
  next hcheck =>
    split at hrun
    next hnone =>
      cases hrun
      by_cases hplace : place = id
      · subst hplace
        rw [Db.references, Nat.add_eq_zero_iff, List.length_eq_zero_iff, List.length_eq_zero_iff,
          List.filter_eq_nil_iff, List.filter_eq_nil_iff] at hnone
        rintro (⟨b, hb, hfk, -⟩ | ⟨k, hk, hkplace⟩)
        · exact absurd (decide_eq_true hfk) (hnone.1 b hb)
        · exact absurd (decide_eq_true hkplace) (hnone.2 k hk)
      · exact h hplace
    · obtain ⟨hrows, hkeywords⟩ := mozplaceDelrefPlain_rows hrun
      exact (settled_congr hrows hkeywords).mpr (purgeRows_settled h)
  next hcheck =>
    cases hrun
    by_cases hplace : place = id
    · subst hplace
      rw [mozbmPurgeCheck, List.all_eq_true] at hcheck
      push Not at hcheck
      obtain ⟨b, hb, hcond⟩ := hcheck
      exact fun _ => ⟨b, hb, by simpa using hcond⟩
    · exact h hplace

theorem mozplaceDelref_settled {id : ℤ} (h : ∀ mp ∈ db.places, mp.id ≠ id → db.Settled mp.id)
    (hrun : mozplaceDelref db id = .ok db') : db.FewerPlaces db' ∧ db'.NoOrphans := by
  rw [mozplaceDelref, mozplaceDelrefWith] at hrun
  split at hrun
  · cases hrun
  have hupdate : db.FewerPlaces (updatePlaces db (·.id = id) fun mp =>
      { mp with foreignCount := mp.foreignCount - 1 }) :=
    updatePlaces_fewer fun _ => rfl
  dsimp only at hrun
  split at hrun
  · obtain ⟨hfewer, hgone⟩ := mozplaceDelete_places hrun
    obtain ⟨hrows, hkeywords⟩ := mozplaceDelete_rows hrun
    refine ⟨hupdate.trans hfewer, fun mp hmp => ?_⟩
    obtain ⟨mp', hmp', hid⟩ := List.mem_map.mp (hupdate.trans hfewer mp hmp)
    exact (settled_congr hrows hkeywords).mpr (hid ▸ h mp' hmp' (hid ▸ hgone mp hmp))
  · have hfewer := hupdate.trans (mozplacePurge_fewer hrun)
    refine ⟨hfewer, fun mp hmp => mozplacePurge_settled (fun hplace => ?_) hrun⟩
    obtain ⟨mp', hmp', hid⟩ := List.mem_map.mp (hfewer mp hmp)
    exact (settled_congr rfl rfl).mpr (hid ▸ h mp' hmp' (hid ▸ hplace))

/-- A row is gone: the places of the other rows are settled. -/
theorem Db.Tidy.without (h : db.Tidy) {mb : MozBookmark} (hmb : mb ∈ db.bookmarks)
    (hplace : db.Settled place)
    (hother : mb.title ≠ none → mb.fk = some place → db.Associated place →
      db.OwnedBut mb.id place) :
    Db.Settled { db with bookmarks := db.bookmarks.filter fun b => bound mb.id ≠ some b.id }
    place := by
  have hkeep : ∀ {b : MozBookmark}, b ∈ db.bookmarks → b.id ≠ mb.id →
      b ∈ db.bookmarks.filter fun b => bound mb.id ≠ some b.id := fun hb hne =>
    List.mem_filter.mpr ⟨hb, decide_eq_true fun hid => hne (bound_eq_some.mp hid).2.symm⟩
  intro hassoc
  have hassoc' : db.Associated place := by
    rcases hassoc with ⟨b, hb, hrow⟩ | hkeyword
    · exact .inl ⟨b, (List.mem_filter.mp hb).1, hrow⟩
    · exact .inr hkeyword
  obtain ⟨b, hb, hfk, htitle⟩ := hplace hassoc'
  by_cases hid : b.id = mb.id
  · obtain rfl := h.keys.eq_of_id hb hmb hid
    obtain ⟨c, hc, hne, hrow⟩ := hother htitle hfk hassoc'
    exact ⟨c, hkeep hc hne, hrow⟩
  · exact ⟨b, hkeep hb hid, hfk, htitle⟩

theorem mozbmDelete_tidy (h : db.Tidy) {mb : MozBookmark} (hmb : mb ∈ db.bookmarks) {isDir : Bool}
    (hkind : (mb.placeId = 0) = (isDir = true)) (hrun : mozbmDelete db mb isDir true = .ok db') :
    db'.Tidy := by
  have hkeys : db'.KeysUnique := h.keys.sublist ((mozbmDelete_rows hrun).1.bookmarks.map _)
  have hplace : ∀ {place : ℤ}, place ≠ 0 → mb.fk = some place → mb.placeId = place := by
    intro place _ hfk
    rw [MozBookmark.placeId, hfk, Option.getD_some]
  rw [mozbmDelete] at hrun
  cases isDir with
  | true =>
    rw [if_pos rfl] at hrun
    split at hrun
    · cases hrun
    cases hrun
    refine ⟨hkeys, h.positive, fun mp hmp => h.without hmb (h.noOrphans mp hmp) fun _ hfk => ?_⟩
    have hpos := (h.positive mp hmp).ne'
    exact absurd ((hplace hpos hfk).symm.trans (hkind.mpr rfl)) hpos
  | false =>
    rw [if_neg Bool.false_ne_true] at hrun
    split at hrun
    · cases hrun
    rw [if_pos rfl] at hrun
    obtain ⟨hfewer, hnoOrphans⟩ := mozplaceDelref_settled (fun mp hmp hne => h.without hmb
      (h.noOrphans mp hmp) fun _ hfk => absurd (hplace (h.positive mp hmp).ne' hfk).symm hne) hrun
    refine ⟨hkeys, fun mp hmp => ?_, hnoOrphans⟩
    obtain ⟨mp', hmp', hid⟩ := List.mem_map.mp (hfewer mp hmp)
    exact hid ▸ h.positive mp' hmp'

theorem mozplaceDelrefPlain_tidy {db₀ : Db} (h₀ : db₀.Tidy) (hkeys : db.KeysUnique)
    (hfewer₀ : db₀.FewerPlaces db) (hsettled : ∀ mp ∈ db₀.places, db.Settled mp.id) {id count : ℤ}
    (hrun : mozplaceDelrefPlain db id count = .ok db') : db'.Tidy := by
  obtain ⟨hrows, hkeywords⟩ := mozplaceDelrefPlain_rows hrun
  have hfewer := hfewer₀.trans (mozplaceDelrefPlain_fewer hrun)
  refine ⟨?_, fun mp hmp => ?_, fun mp hmp => ?_⟩
  · rw [Db.KeysUnique, hrows]
    exact hkeys
  · obtain ⟨mp', hmp', hid⟩ := List.mem_map.mp (hfewer mp hmp)
    exact hid ▸ h₀.positive mp' hmp'
  · obtain ⟨mp', hmp', hid⟩ := List.mem_map.mp (hfewer mp hmp)
    exact (settled_congr hrows hkeywords).mpr (hid ▸ hsettled mp' hmp')

theorem mozkwDelete_tidy (h : db.Tidy) {keyword : Bytes}
    (hrun : mozkwDelete env db keyword = .ok db') :
    db'.Tidy := by
  rw [mozkwDelete] at hrun
  refine mozplaceDelrefPlain_tidy h ?_ ?_ ?_ hrun
  · exact h.keys
  · exact fun mp hmp => List.mem_map_of_mem hmp
  · rintro mp hmp (hrow | ⟨k, hk, hplace⟩)
    · exact h.noOrphans mp hmp (.inl hrow)
    · exact h.noOrphans mp hmp (.inr ⟨k, (List.mem_filter.mp hk).1, hplace⟩)

/-- What is found under a name has it as its title. -/
theorem bookmarkDoLookup_tag {parentId : ℤ} {name : Bytes} {stat : Stat}
    (h : bookmarkDoLookup db ctx parentId (some name) .tag = .ok stat) :
    ∃ b ∈ db.bookmarks, b.id = stat.id ∧ b.title = some name := by
  have hcb : ∀ {b : MozBookmark}, bookmarkLookupCb db (some ctx.tagsRootId) b = .ok stat →
    b.id = stat.id := by
    intro b hb
    rw [bookmarkLookupCb] at hb
    split at hb
    · cases hb
    split at hb <;> cases hb
    rfl
  rw [bookmarkDoLookup] at h
  split at h
  · cases h
  next b hfound =>
  refine ⟨b, ?_, hcb h, ?_⟩ <;> split at hfound
  · exact (mem_children.mp (of_lookupTitle hfound).2.1).1
  · have hhead := (Option.filter_eq_some_iff.mp hfound).1
    exact (List.mem_filter.mp ((List.perm_insertionSort _ _).mem_iff.mp
      (List.mem_of_head? hhead))).1
  · exact (of_lookupTitle hfound).2.2.1
  · have hhead := (Option.filter_eq_some_iff.mp hfound).1
    have hmem := List.mem_filter.mp ((List.perm_insertionSort _ _).mem_iff.mp
      (List.mem_of_head? hhead))
    exact (of_decide_eq_true hmem.2).2.2

theorem tagEntryLookup_row {parent placeId : ℤ} {entry : MozBookmark}
    (h : tagEntryLookup db parent placeId = .ok entry) :
    entry ∈ db.bookmarks ∧ entry.parent = parent ∧ entry.fk = some placeId := by
  rw [tagEntryLookup] at h
  split at h
  · cases h
  next mb hfind =>
    obtain rfl := Except.ok.inj h
    have hcond := List.find?_some hfind
    simp only [decide_eq_true_eq, Bool.decide_and, Bool.and_eq_true] at hcond
    obtain ⟨hparent, hsome, hfk⟩ := hcond
    obtain ⟨fk, hfk'⟩ := Option.ne_none_iff_exists'.mp hsome
    refine ⟨List.mem_of_find?_eq_some hfind, (bound_eq_some.mp hparent).2.symm, ?_⟩
    rw [hfk', (bound_eq_some.mp (hfk.symm.trans hfk')).2]

/-- A tag entry is deleted, that is not the last bookmark of its place. -/
theorem tagEntryDelete_tidy (h : db.Tidy) {parentId : ℤ} {name : CString} {u : Unit}
    (hsafe : (Call.delete parentId name .tag false).Safe db)
    (hrun : tagEntryDelete env ctx parentId name.val db = .ok (u, db')) : db'.Tidy := by
  obtain ⟨stat, mb, entry, db₁, hstat, hlookup, hplace, hentry, hdelete, rfl⟩ :=
    tagEntryDelete_cases hrun
  obtain ⟨hmb, -, hmbfk, b, hb, hbid, hbfk, hbtitle⟩ := mozbmLookupId_row hlookup
  obtain ⟨c, hc, hcid, hctitle⟩ := bookmarkDoLookup_tag hstat
  obtain rfl := h.keys.eq_of_id hb hc (hbid.trans hcid.symm)
  obtain ⟨hmem, hparent, hfk⟩ := tagEntryLookup_row hentry
  have hkeys := h.keys.sublist (List.Sublist.map MozBookmark.id (List.filter_sublist
    (p := fun b => bound entry.id ≠ some b.id)))
  rw [mozbmDelete, if_neg Bool.false_ne_true] at hdelete
  split at hdelete
  · cases hdelete
  rw [if_neg Bool.false_ne_true] at hdelete
  refine Db.Tidy.mtime (mozplaceDelrefPlain_tidy h ?_ ?_ ?_ hdelete) _ _
  · exact hkeys
  · exact fun mp hmp => List.mem_map_of_mem hmp
  · refine fun mp hmp => h.without hmem (h.noOrphans mp hmp) fun htitle => ?_
    exact hsafe entry hmem hparent htitle ⟨b, hb, hbfk.trans (hmbfk.trans hfk.symm), hctitle⟩ mp.id

theorem mozbmMove_tidy (h : db.Tidy) {id newParent : ℤ} {newPos : Option ℤ} {newName : Option Bytes}
    (hrun : mozbmMove db id newParent newPos newName = .ok db') : db'.Tidy := by
  rw [mozbmMove] at hrun
  split at hrun
  swap
  · cases hrun
    exact h
  obtain ⟨pos, -, hrun⟩ := bind_eq_ok.mp hrun
  cases hrun
  refine h.update fun b => ⟨rfl, rfl, fun htitle => ?_⟩
  cases newName
  · exact htitle
  · cases htitle

theorem mozbmPosUpdate_tidy (h : db.Tidy) (id newPos : ℤ) : (mozbmPosUpdate db id newPos).Tidy :=
  h.update fun _ => ⟨rfl, rfl, fun h => h⟩

theorem mozbmPosShift_tidy (h : db.Tidy) {parent posStart posEnd newPos : ℤ} {op : PermdOp}
    (hrun : mozbmPosShift db parent posStart posEnd op = .ok (some (newPos, db'))) : db'.Tidy := by
  obtain ⟨p, d, rfl⟩ := mozbmPosShift_update hrun
  exact h.update fun _ => ⟨rfl, rfl, fun h => h⟩

/-- A row gets another place: what it leaves has a bookmark with a title still, or did
not need it. -/
theorem Db.Tidy.rehome (h : db.Tidy) {id new : ℤ} {mb : MozBookmark} {g : MozBookmark → MozBookmark}
    (hrows : db'.bookmarks = db.bookmarks.map g)
    (hg : ∀ b ∈ db.bookmarks, (g b).id = b.id ∧ (g b).title = b.title ∧
      (g b).fk = if b.id = id then some new else b.fk)
    (hkeywords : db'.keywords = db.keywords) (hnew : 0 < new)
    (hplaces : ∀ mp ∈ db'.places, mp.id ∈ db.places.map (·.id) ∨ mp.id = new)
    (hmb : mb ∈ db.bookmarks) (hid : mb.id = id)
    (htitled : mb.title ≠ none → ∀ place, mb.fk = some place → place ≠ new → db.Associated place →
      db.OwnedBut id place)
    (huntitled : mb.title = none → db.Owned new) : db'.Tidy := by
  have hkeep : ∀ {b : MozBookmark}, b ∈ db.bookmarks → b.id ≠ id →
      g b ∈ db'.bookmarks ∧ (g b).fk = b.fk ∧ (g b).title = b.title := by
    intro b hb hne
    obtain ⟨-, htitle, hfk⟩ := hg b hb
    exact ⟨hrows ▸ List.mem_map_of_mem hb, hfk.trans (if_neg hne), htitle⟩
  have hbut : ∀ {place}, db.OwnedBut id place → db'.Owned place := by
    rintro place ⟨b, hb, hne, hfk, htitle⟩
    obtain ⟨hmem, hfk', htitle'⟩ := hkeep hb hne
    exact ⟨g b, hmem, hfk'.trans hfk, htitle'.symm ▸ htitle⟩
  have hrow : ∀ {b : MozBookmark}, b ∈ db.bookmarks → b.id = id → b = mb := fun hb hbid =>
    h.keys.eq_of_id hb hmb (hbid.trans hid.symm)
  refine ⟨?_, fun mp hmp => ?_, fun mp hmp hassoc => ?_⟩
  · have hids : db.bookmarks.map ((fun b => b.id) ∘ g) = db.bookmarks.map fun b => b.id :=
      List.map_congr_left fun b hb => (hg b hb).1
    rw [Db.KeysUnique, hrows, List.map_map, hids]
    exact h.keys
  · rcases hplaces mp hmp with hold | hid
    · obtain ⟨mp', hmp', hid⟩ := List.mem_map.mp hold
      exact hid ▸ h.positive mp' hmp'
    · exact hid ▸ hnew
  · by_cases hplace : mp.id = new
    · rw [hplace]
      by_cases htitle : mb.title = none
      · obtain ⟨b, hb, hfk, hbtitle⟩ := huntitled htitle
        refine hbut ⟨b, hb, fun hbid => hbtitle ?_, hfk, hbtitle⟩
        rw [hrow hb hbid, htitle]
      · obtain ⟨-, hgtitle, hgfk⟩ := hg mb hmb
        exact ⟨g mb, hrows ▸ List.mem_map_of_mem hmb, hgfk.trans (if_pos hid), hgtitle ▸ htitle⟩
    obtain ⟨mp', hmp', hmpid⟩ := List.mem_map.mp ((hplaces mp hmp).resolve_right hplace)
    have hassoc' : db.Associated mp.id := by
      rcases hassoc with ⟨b', hb', hfk, htitle⟩ | ⟨k, hk, hkplace⟩
      · rw [hrows] at hb'
        obtain ⟨b, hb, rfl⟩ := List.mem_map.mp hb'
        obtain ⟨-, hgtitle, hgfk⟩ := hg b hb
        by_cases hbid : b.id = id
        · rw [hgfk, if_pos hbid] at hfk
          exact absurd (Option.some.inj hfk).symm hplace
        · rw [hgfk, if_neg hbid] at hfk
          exact .inl ⟨b, hb, hfk, hgtitle ▸ htitle⟩
      · exact .inr ⟨k, hkeywords ▸ hk, hkplace⟩
    obtain ⟨b, hb, hfk, htitle⟩ := h.noOrphans mp' hmp' (hmpid ▸ hassoc')
    rw [hmpid] at hfk
    by_cases hbid : b.id = id
    · obtain rfl := hrow hb hbid
      exact hbut (htitled htitle mp.id hfk hplace hassoc')
    · exact hbut ⟨b, hb, hbid, hfk, htitle⟩

/-- A row is updated: its place afterwards, and what all rows become. -/
theorem mozbmUpdate_cases {id r : ℤ} {placeId dateAdded lastModified : Option ℤ}
    (h : mozbmUpdate db id placeId dateAdded lastModified = .ok (r, db')) :
    ∃ mb ∈ db.bookmarks, mb.id = id ∧ r = (placeId <|> mb.fk).getD 0 ∧
      (∃ g : MozBookmark → MozBookmark, db'.bookmarks = db.bookmarks.map g ∧
        ∀ b, (g b).id = b.id ∧ ((g b).title = b.title ∧ (g b).parent = b.parent) ∧
          (g b).fk = if b.id = id then placeId <|> b.fk else b.fk) ∧
      db'.keywords = db.keywords ∧ db'.places = db.places := by
  rw [mozbmUpdate] at h
  split at h
  · cases h
  next mb hfind =>
    cases h
    have hid : bound id = some mb.id := by simpa using List.find?_some hfind
    refine ⟨mb, List.mem_of_find?_eq_some hfind, (bound_eq_some.mp hid).2.symm, rfl, ⟨_, rfl, fun b => ?_⟩,
      rfl, rfl⟩
    by_cases hb : b.id = id
    · simp only [hb, decide_true, if_true, and_self]
    · simp only [hb, decide_false, Bool.false_eq_true, if_false, and_self]

theorem mozplaceUpdate_places {id r : ℤ} {url desc : Option Bytes} {visit : Option ℤ}
    (h : mozplaceUpdate db id url visit desc = .ok (r, db')) :
    (url = none ∧ r = id ∧ db.FewerPlaces db') ∨
      ∃ val, url = some val ∧ parseMozurl val ≠ none ∧ r = db.urlPlace val ∧
        (r ∈ db.places.map (·.id) ∨ r = newRowid (db.places.map (·.id))) ∧
        ∀ mp ∈ db'.places, mp.id ∈ db.places.map (·.id) ∨ mp.id = r := by
  rw [mozplaceUpdate] at h
  obtain ⟨⟨r', db₁⟩, hreplace, h⟩ := bind_eq_ok.mp h
  cases h
  have hupdate : db₁.FewerPlaces (updatePlaces db₁ (fun mp => bound r = some mp.id) fun mp =>
      { mp with lastVisitDate := visit <|> mp.lastVisitDate, description := desc <|> mp.description }) :=
    updatePlaces_fewer fun _ => rfl
  cases url with
  | none =>
    cases hreplace
    exact .inl ⟨rfl, rfl, hupdate⟩
  | some val =>
    obtain ⟨⟨r', db₂⟩, haddref, hreplace⟩ := bind_eq_ok.mp hreplace
    obtain ⟨db₃, hdelref, hreplace⟩ := bind_eq_ok.mp hreplace
    cases hreplace
    obtain ⟨hparse, hplace, hr, hids⟩ := mozplaceAddref_places haddref
    refine .inr ⟨val, rfl, hparse, hplace, hr, fun mp hmp => ?_⟩
    obtain ⟨mp', hmp', hid⟩ :=
      List.mem_map.mp (((mozplaceDelrefPlain_fewer hdelref).trans hupdate) mp hmp)
    exact hid ▸ hids mp' hmp'

/-- Only one attribute is the URL. -/
theorem updates_url {arg : SetArg} {updates : Updates} {val : Bytes} {visit : Option ℤ}
    {desc : Option Bytes} (h : arg.updates env ctx = .ok updates)
    (hplace : updates.place = some (some val, visit, desc)) :
    arg = .url val := by
  cases arg with
  | url val' =>
    cases h
    cases hplace
    rfl
  | times atime mtime =>
    simp only [SetArg.updates] at h
    split at h
    · cases h
    split at h
    · cases h
    cases h
    cases atime <;> cases hplace
  | desc val' => cases h; cases hplace
  | guid valid =>
    simp only [SetArg.updates] at h
    split at h <;> cases h
    cases hplace
  | dateAdded val' =>
    simp only [SetArg.updates] at h
    split at h <;> cases h
    cases hplace
  | keyword => cases h
  | other => cases h

theorem bookmarkSet_tidy (h : db.Tidy) (id : ℤ) (arg : SetArg) (hsafe : (Call.set id arg).Safe db) :
    (bookmarkSet env ctx id arg db).2.Tidy := by
  refine bookmarkSet_cases id arg h fun {updates placeId db₁} hupdates hupdate => ?_
  obtain ⟨mb, hmb, hid, hplaceId, ⟨g, hrows, hg⟩, hkeywords, hplaces⟩ := mozbmUpdate_cases hupdate
  have hgfk : ∀ b, (g b).fk = b.fk := fun b => (hg b).2.2.trans (by split <;> rfl)
  have h₁ : db₁.Tidy :=
    h.map hrows (fun b => ⟨(hg b).1, hgfk b, fun htitle => (hg b).2.1.1 ▸ htitle⟩)
    hkeywords fun mp hmp => List.mem_map_of_mem (hplaces ▸ hmp)
  refine ⟨fun _ => h₁, fun {url visit desc newPlaceId db₂} hplace hplaceId0 hrun => ?_⟩
  obtain ⟨hrows₂, hkeywords₂⟩ := mozplaceUpdate_rows hrun
  rcases mozplaceUpdate_places hrun with ⟨-, rfl, hfewer⟩ | ⟨val, rfl, hparse, hurl, hnew, hids⟩
  · refine ⟨fun _ => ?_, fun hne => absurd rfl hne⟩
    exact h₁.map (hrows₂.trans (List.map_id _).symm) (fun b => ⟨rfl, rfl, fun h => h⟩)
      hkeywords₂ hfewer
  obtain rfl := updates_url hupdates hplace
  have hmbfk : mb.fk = some placeId := by
    cases hfk : mb.fk with
    | none =>
      rw [hfk] at hplaceId
      exact absurd hplaceId hplaceId0
    | some fk =>
      rw [hfk] at hplaceId
      exact congrArg some hplaceId.symm
  rw [Db.urlPlace, hplaces] at hurl
  rw [hplaces] at hnew hids
  have hpos : 0 < newPlaceId := by
    have hpositive : ∀ id ∈ db.places.map (·.id), 0 < id := fun id hid => by
      obtain ⟨mp, hmp, rfl⟩ := List.mem_map.mp hid
      exact h.positive mp hmp
    rcases hnew with hold | hnew
    · exact hpositive _ hold
    · exact hnew ▸ newRowid_pos hpositive
  obtain ⟨htitled, huntitled⟩ := hsafe hparse mb hmb hid placeId hmbfk
  rw [← show newPlaceId = db.urlPlace val from hurl] at htitled huntitled
  have htitled' : mb.title ≠ none → ∀ place, mb.fk = some place → place ≠ newPlaceId →
      db.Associated place → db.OwnedBut id place := by
    intro htitle place hfk hne
    obtain rfl := Option.some.inj (hmbfk.symm.trans hfk)
    exact htitled htitle hne
  refine ⟨fun hsame => ?_, fun {r db₃} _ hupdate' => ?_⟩
  · refine h.rehome (hrows₂.trans hrows) (fun b hb => ⟨(hg b).1, (hg b).2.1.1, ?_⟩)
      (hkeywords₂.trans hkeywords) hpos hids hmb hid htitled' huntitled
    split
    next hbid =>
      obtain rfl := h.keys.eq_of_id hb hmb (hbid.trans hid.symm)
      rw [hgfk, hmbfk, hsame]
    · exact hgfk b
  · obtain ⟨-, -, -, -, ⟨g', hrows', hg'⟩, hkeywords', hplaces'⟩ := mozbmUpdate_cases hupdate'
    rw [hrows₂, hrows, List.map_map] at hrows'
    refine h.rehome hrows' (fun b hb => ⟨(hg' _).1.trans (hg b).1, (hg' _).2.1.1.trans (hg b).2.1.1,
      ?_⟩)
      (hkeywords'.trans (hkeywords₂.trans hkeywords)) hpos (hplaces' ▸ hids)
        hmb hid htitled' huntitled
    rw [Function.comp_apply, (hg' _).2.2, (hg b).1, hgfk, bound_eq_some.mpr ⟨hpos.le, rfl⟩]
    rfl

/-- A call that is safe leaves no orphans. -/
theorem Call.run_tidy (h : db.Tidy) (env : Env) (ctx : Ctx) (call : Call) (hsafe : call.Safe db) :
    (call.run env ctx db).2.Tidy := by
  refine Call.run_keeps h call (fun _ _ => bookmarkDoCreate_tidy h) (fun _ => tagEntryAdd_tidy h)
    (fun _ => keywordCreate_tidy h)
    (fun hrun => ?_) (fun hcall hrun => tagEntryDelete_tidy h (hcall ▸ hsafe) hrun)
    (fun _ => mozkwDelete_tidy h)
      (fun {oldParentId oldName newParentId newName type noreplace} _ => ?_)
    (fun {parentId op name1 name2 type now} => ?_) fun {id arg} hcall =>
      bookmarkSet_tidy h id arg (hcall ▸ hsafe)
  · obtain ⟨mb, db₁, hlookup, hkind, hdelete, rfl⟩ := bookmarkDoDelete_cases hrun
    exact (mozbmDelete_tidy h (mem_children.mp (mozbmLookup_child hlookup)).1 hkind hdelete).mtime _
      _
  · refine bookmarkRename_cases _ _ _ _ _ _ h (fun _ _ h => h.mtime _ _)
      fun hlookup hreplace hmove => ?_
    obtain ⟨rfl, rfl⟩ | ⟨newMb, hnew, hkind, hdelete, rfl⟩ := replaceTarget_cases hreplace
    · exact mozbmMove_tidy h hmove
    refine mozbmMove_tidy (mozbmDelete_tidy h (mem_children.mp (mozbmLookup_child hnew)).1 ?_
      hdelete) hmove
    rw [← hkind, decide_eq_true_eq]
  · exact bookmarkPermute_cases _ _ _ _ _ _ h (fun _ _ h => h.mtime _ _)
      (fun _ _ _ => mozbmPosUpdate_tidy (mozbmPosUpdate_tidy h _ _) _ _)
      fun _ _ hshift => mozbmPosUpdate_tidy (mozbmPosShift_tidy h hshift) _ _

theorem calls_step {call : Call} (h : (call.run env ctx db).1 = .ok ()) :
    (calls ctx).step db (env, call) = .ok (call.run env ctx db).2 := by
  simp only [calls]
  split
  next hrun => rw [hrun]
  next hrun =>
    rw [hrun] at h
    cases h

theorem calls_tidy (ctx : Ctx) : (calls ctx).Invariant Db.Tidy where
  init _ h := h
  step db call db' h hsafe hstep := by
    have := call.2.run_tidy h call.1 ctx hsafe
    simp only [calls] at hstep
    split at hstep
    next hrun =>
      cases hstep
      rwa [hrun] at this
    · cases hstep

/-- In every run of calls that are safe, no tag and no keyword loses its last bookmark. -/
theorem noOrphans_of_safe (ctx : Ctx) (db : Db) (hreach : (calls ctx).Reachable db) :
    db.NoOrphans :=
  (hreach.holds (calls_tidy ctx)).noOrphans

/-- A bookmark with a tag and a keyword. -/
def tagged : Db where
  bookmarks := [⟨2, 2, none, 1, 0, some [102], 0, 0⟩, ⟨3, 2, none, 1, 1, some [116], 0, 0⟩,
    ⟨4, 1, some 1, 2, 0, some [97], 0, 0⟩, ⟨5, 1, some 1, 3, 0, none, 0, 0⟩]
  places := [⟨1, [120, 58], none, none, 3, mozplaceUrlHash [120, 58], 1⟩]
  keywords := [⟨1, [107], 1⟩]
  keywordSeq := 1
  origins := [⟨1, [120, 58], []⟩]

theorem tagged_tidy : tagged.Tidy :=
  ⟨by unfold Db.KeysUnique; decide, by decide +kernel, by
    unfold Db.NoOrphans Db.Associated Db.Owned; decide +kernel⟩

/-- When the bookmark is deleted, its tag and its keyword go away with it. -/
theorem noOrphans_of_safe_deleted : ∃ db, (calls ⟨1, 3, false, true⟩).Reachable db ∧ db.NoOrphans ∧
    db.bookmarks.map (·.id) = [2, 3] ∧ db.keywords = [] := by
  have hrun : ((Call.delete 2 ⟨[97], by decide⟩ .bookmark false).run ⟨⟨0, 0⟩, 0⟩ ⟨1, 3, false,
    true⟩ tagged).1 =
        .ok () ∧
      ((Call.delete 2 ⟨[97], by decide⟩ .bookmark false).run ⟨⟨0, 0⟩, 0⟩ ⟨1, 3, false, true⟩
        tagged).2.bookmarks.map (·.id) = [2, 3] ∧
      ((Call.delete 2 ⟨[97], by decide⟩ .bookmark false).run ⟨⟨0, 0⟩, 0⟩ ⟨1, 3, false, true⟩
        tagged).2.keywords = [] := by
    decide +kernel
  obtain ⟨hok, hrows, hkeywords⟩ := hrun
  have hreach := System.Reachable.step (.init tagged_tidy)
    (show (calls ⟨1, 3, false, true⟩).legal tagged
      (⟨⟨0, 0⟩, 0⟩, Call.delete 2 ⟨[97], by decide⟩ .bookmark false) from trivial) (calls_step hok)
  exact ⟨_, hreach, noOrphans_of_safe _ _ hreach, hrows, hkeywords⟩

/-- When its URL is set, they stay behind. -/
theorem orphans_of_url : tagged.Tidy ∧
    ((Call.set 4 (.url [121, 58])).run ⟨⟨0, 0⟩, 0⟩ ⟨1, 3, false, true⟩ tagged).1 = .ok () ∧
    ¬((Call.set 4 (.url [121, 58])).run ⟨⟨0, 0⟩, 0⟩ ⟨1, 3, false, true⟩ tagged).2.NoOrphans := by
  refine ⟨tagged_tidy, by decide +kernel, ?_⟩
  unfold Db.NoOrphans Db.Associated Db.Owned
  decide +kernel

end BookmarkFS.Firefox
