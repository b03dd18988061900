import BookmarkFS.Firefox.Calls

/-! # A listing in pages

A reader gets a folder in pages, each of which goes on behind the last entry of
the one before. Whatever the pages, it gets the same entries; the status of the
last page is another matter, for it is only assigned where there is an entry.
-/
namespace BookmarkFS.Firefox
open Library
open Chromium (Errno validateFilename)

/-- What the reader of a directory has got, and where it goes on. -/
structure Pass where
  listed : List Dirent
  off : ℤ
  cookie : Option ListCookie

def Pass.begin (cookie : Option ListCookie) : Pass := ⟨[], 0, cookie⟩

/-- The next page of a pass. -/
def Pass.page (db : Db) (ctx : Ctx) (id : ℤ) (type : BookmarkType) (withStat : Bool) (s : Pass)
    (callback : ListCallback) : Pass :=
  let ((_, accepted), cookie) := bookmarkList db ctx id s.off type withStat (some callback) s.cookie
  ⟨s.listed ++ accepted, resume s.off accepted, some cookie⟩

/-- Pages that end where their callbacks refuse an entry. -/
def pages (db : Db) (ctx : Ctx) (id : ℤ) (type : BookmarkType) (withStat : Bool)
    (cookie : Option ListCookie) (callbacks : List ListCallback) : Pass :=
  callbacks.foldl (Pass.page db ctx id type withStat) (.begin cookie)

/-- The last page, whose callback refuses nothing. -/
def Pass.last (db : Db) (ctx : Ctx) (id : ℤ) (type : BookmarkType) (withStat : Bool) (s : Pass) :
    Option (Except Errno ℤ) × List Dirent :=
  (bookmarkList db ctx id s.off type withStat (some fun _ _ => 0) s.cookie).1

/-! ## What is to be listed -/

/-- The rows of a folder with a valid filename that are the first with their title, but the root of
the tags. -/
def Db.entries (db : Db) (ctx : Ctx) (id : ℤ) : List MozBookmark :=
  (db.children id).filter fun b => b.id ≠ ctx.tagsRootId && validateFilename (b.title.getD []) =
    none &&
    (db.children id).all fun c => c.title ≠ b.title || b.position ≤ c.position

/-- A pass has listed what is to be listed, and each entry is found under its name. -/
structure Db.Lists (db : Db) (ctx : Ctx) (id : ℤ) (type : BookmarkType) (listed : List Dirent) :
    Prop where
  entries : listed.map (fun x => (x.name, x.id, x.off)) =
    (db.entries ctx id).map fun b => (b.title.getD [], b.id, b.position + 1)
  found : ∀ x ∈ listed, ∃ name : CString, name.val = x.name ∧
    ∃ stat, bookmarkLookup db ctx id (some name) type = .ok stat ∧ stat.id = x.id

/-- The last page of a pass succeeds, and completes what is to be listed. -/
structure Pass.Completes (db : Db) (ctx : Ctx) (id : ℤ) (type : BookmarkType)
    (withStat : Bool) (s : Pass) :
    Prop where
  lists : db.Lists ctx id type (s.listed ++ (s.last db ctx id type withStat).2)
  status : (s.last db ctx id type withStat).1 = some (.ok 0)

/-- Where names are checked, `bookmark_list_cb()` shows the first row with a name, but for the root
of the tags; else all of them. -/
structure Db.Shows (db : Db) (ctx : Ctx) (id : ℤ) (type : BookmarkType)
    (b : MozBookmark) : Prop where
  not_tags : b.id ≠ ctx.tagsRootId
  valid : validateFilename (b.title.getD []) = none
  first : checkName ctx type = true → ∀ c ∈ db.children id, c.id ≠ ctx.tagsRootId →
    c.title = b.title →
    b.position ≤ c.position

/-- A folder that can be listed: its identifiers are valid, what is shown is the first row with its
title, and no title of an entry contains a NUL. -/
structure Db.Listable (db : Db) (ctx : Ctx) (id : ℤ) (type : BookmarkType) : Prop where
  ids : ∀ b ∈ db.children id, isValidId b.id = true
  first : ∀ b ∈ db.children id, db.Shows ctx id type b →
    ∀ c ∈ db.children id, c.title = b.title → b.position ≤ c.position
  names : ∀ b ∈ db.entries ctx id, (0 : UInt8) ∉ b.title.getD []

variable {db : Db} {ctx : Ctx} {id : ℤ} {type : BookmarkType} {withStat : Bool} {b : MozBookmark}

theorem mem_entries : b ∈ db.entries ctx id ↔ b ∈ db.children id ∧ b.id ≠ ctx.tagsRootId ∧
    validateFilename (b.title.getD []) = none ∧
      ∀ c ∈ db.children id, c.title = b.title → b.position ≤ c.position := by
  simp only [Db.entries, List.mem_filter, Bool.and_eq_true, decide_eq_true_eq, List.all_eq_true,
    Bool.or_eq_true, and_assoc, Classical.or_iff_not_imp_left, ne_eq, not_not]

theorem title_of_valid (h : validateFilename (b.title.getD []) = none) :
    b.title = some (b.title.getD []) := by
  cases htitle : b.title with
  | none =>
    rw [htitle] at h
    cases h
  | some title => rfl

theorem title_eq_iff {c : MozBookmark} (h : validateFilename (b.title.getD []) = none) :
    c.title.getD [] = b.title.getD [] ↔ c.title = b.title := by
  refine ⟨fun hname => ?_, fun htitle => by rw [htitle]⟩
  rw [title_of_valid h, title_of_valid (hname ▸ h), hname]

/-- An entry without a NUL in its title is found. -/
theorem lookup_entry (h : db.Ordered) (hid : 0 ≤ id) (htype : Titled ctx id type)
    (hb : b ∈ db.entries ctx id) (hvalid : isValidId b.id = true)
    (hname : (0 : UInt8) ∉ b.title.getD []) :
    ∃ stat, bookmarkLookup db ctx id (some ⟨b.title.getD [], hname⟩) type = .ok stat ∧
    stat.id = b.id := by
  obtain ⟨hchild, htags, hfilename, hfirst⟩ := mem_entries.mp hb
  have htitle := title_of_valid hfilename
  have hlookup : db.lookupTitle id (b.title.getD []) = some b :=
    lookupTitle_first hid h.keys (h.distinct id) hchild htitle fun c hc hctitle =>
      hfirst c hc (hctitle.trans htitle.symm)
  have hcb : ∃ stat, bookmarkLookupCb db (some ctx.tagsRootId) b = .ok stat ∧ stat.id = b.id := by
    rw [bookmarkLookupCb, if_neg (by rw [hvalid]; decide),
      if_neg fun h => htags (Option.some.inj h).symm]
    exact ⟨_, rfl, rfl⟩
  obtain rfl | ⟨rfl, hroot⟩ := htype
  · simp only [bookmarkLookup, bookmarkDoLookup, Option.map_some, hlookup]
    exact hcb
  · simp only [bookmarkLookup, bookmarkDoLookup, Option.map_some, if_pos hroot, hlookup]
    exact hcb

/-! ## Passes -/

/-- The rows that names belong to, where they are checked. -/
def owners (db : Db) (ctx : Ctx) (id : ℤ) (type : BookmarkType) (withStat : Bool) :
    Option DentryMap :=
  if checkName ctx type then some (firstNamed ctx (listRows db ctx id 0 type withStat)) else none

theorem owners_isSome : (owners db ctx id type withStat).isSome = checkName ctx type := by
  rw [owners]
  cases checkName ctx type <;> rfl

/-- What has been listed and what there is still to be seen is what there is to be seen at first. -/
structure Pass.Sound (db : Db) (ctx : Ctx) (id : ℤ) (type : BookmarkType)
    (withStat : Bool) (s : Pass) :
    Prop where
  nonneg : 0 ≤ s.off
  clear : db.Clear id s.off
  heads : s.off ≠ 0 → ∀ own ∈ owners db ctx id type withStat,
    Heads ctx own (known (s.cookie.bind (·.dentryMap))) (listRows db ctx id s.off type withStat)
  rest : s.listed ++ sight ctx (owners db ctx id type withStat)
    (listRows db ctx id s.off type withStat) =
    sight ctx (owners db ctx id type withStat) (listRows db ctx id 0 type withStat)

theorem Pass.begin_sound (cookie : Option ListCookie) :
    (Pass.begin cookie).Sound db ctx id type withStat :=
  ⟨le_rfl, clear_zero, fun h => absurd rfl h, List.nil_append _⟩

section Pages

variable (h : db.Ordered) (htype : Titled ctx id type) {s : Pass}

include h htype

/-- A page of a pass, as a query. -/
theorem bookmarkList_listed (hs : s.Sound db ctx id type withStat) (callback : ListCallback) :
    ∃ map q idx, Listed ctx callback (owners db ctx id type withStat) s.off
        (listRows db ctx id s.off type withStat) ⟨map, none, []⟩ q ∧
      bookmarkList db ctx id s.off type withStat (some callback) s.cookie =
        ((q.status, q.accepted), ⟨q.dentryMap, idx⟩) := by
  have hheads : ∀ own ∈ owners db ctx id type withStat,
      Heads ctx own (known (if s.off = 0 then none else s.cookie.bind (·.dentryMap)))
        (listRows db ctx id s.off type withStat) := by
    intro own hown
    by_cases hoff : s.off = 0
    · rw [if_pos hoff, hoff]
      rw [owners] at hown
      split at hown
      · obtain rfl := Option.some.inj hown
        exact heads_firstNamed ctx _
      · cases hown
    · rw [if_neg hoff]
      exact hs.heads hoff own hown
  have L : Listed ctx callback (owners db ctx id type withStat) s.off
      (listRows db ctx id s.off type withStat) ⟨if s.off = 0 then none
        else s.cookie.bind (·.dentryMap), none, []⟩ _ :=
    dbQuery_listed callback (listRows_sorted htype h.keys (h.distinct id) s.off withStat)
    (fun row hrow => ⟨hs.nonneg.trans (listRows_le htype row hrow), listRows_le htype row hrow⟩)
      hheads
  rw [owners_isSome] at L
  exact ⟨_, _, _, L, rfl⟩

theorem Pass.page_sound (hs : s.Sound db ctx id type withStat) (callback : ListCallback) :
    (s.page db ctx id type withStat callback).Sound db ctx id type withStat := by
  obtain ⟨map, q, idx, L, hrun⟩ := bookmarkList_listed h htype hs callback
  have hpage : s.page db ctx id type withStat callback =
      ⟨s.listed ++ q.accepted, resume s.off q.accepted, some ⟨q.dentryMap, idx⟩⟩ := by
    rw [Pass.page, hrun]
  have hforth : s.off ≤ resume s.off q.accepted := L.forth
  have hrows : _ = listRows db ctx id (resume s.off q.accepted) type withStat :=
    listRows_filter htype hforth withStat
  rw [hpage]
  refine ⟨hs.nonneg.trans hforth, ?_, fun _ own hown => hrows ▸ L.heads own hown, ?_⟩
  · show db.Clear id (resume s.off q.accepted)
    rw [resume]
    cases hlast : q.accepted.getLast? with
    | none => exact hs.clear
    | some x =>
      have hx := List.mem_of_getLast? hlast
      rw [L.accepted] at hx
      rcases mem_of_mem_feed hx with hx | hx
      · cases hx
      obtain ⟨row, hrow, hshown⟩ := List.mem_filterMap.mp hx
      obtain ⟨b, hb, -, rfl⟩ :=
        reached_of_intact htype h.keys (h.distinct id) hs.nonneg hs.clear hrow
      rw [ListRow.shown] at hshown
      split at hshown
      · cases hshown
        exact hb.clear
      · cases hshown
  · have hrest := L.rest
    rw [hrows] at hrest
    show s.listed ++ q.accepted ++ _ = _
    rw [List.append_assoc, hrest]
    exact hs.rest

theorem Pass.pages_sound (hs : s.Sound db ctx id type withStat) (callbacks : List ListCallback) :
    (callbacks.foldl (Pass.page db ctx id type withStat) s).Sound db ctx id type withStat := by
  induction callbacks generalizing s with
  | nil => exact hs
  | cons callback callbacks ih => exact ih (Pass.page_sound h htype hs callback)

theorem Pass.last_eq (hs : s.Sound db ctx id type withStat) :
    s.last db ctx id type withStat =
        (endStatus (listRows db ctx id s.off type withStat) [] none
          (0, sight ctx (owners db ctx id type withStat) (listRows db ctx id s.off type withStat)),
          sight ctx (owners db ctx id type withStat) (listRows db ctx id s.off type withStat)) := by
  obtain ⟨map, q, idx, L, hrun⟩ := bookmarkList_listed h htype hs fun _ _ => 0
  have haccepted := L.accepted
  have hstatus := L.status
  rw [feed_all] at haccepted hstatus
  rw [Pass.last, hrun, hstatus, haccepted, List.nil_append]

end Pages

/-! ## What is listed -/

theorem nul_notMem_cstr (text : Bytes) : (0 : UInt8) ∉ cstr text := by
  intro h
  rw [cstr] at h
  simpa using List.mem_takeWhile_imp h

theorem cstr_of_nul_notMem {text : Bytes} (h : (0 : UInt8) ∉ text) : cstr text = text :=
  List.takeWhile_eq_self_iff.mpr fun c hc => decide_eq_true fun h0 : c = 0 => h (h0 ▸ hc)

theorem endStatus_eq_ok {rows : List ListRow} {entries : List Dirent} :
    endStatus rows [] none (0, entries) = some (.ok 0) ↔
      (∀ row ∈ rows, isValidId row.id = true) ∧ entries ≠ [] := by
  rw [endStatus, if_neg (not_not.mpr rfl)]
  by_cases hall : rows.all (fun row => isValidId row.id) = true
  · rw [if_pos hall]
    refine Iff.trans ?_ (and_iff_right (List.all_eq_true.mp hall)).symm
    by_cases hentries : entries = []
    · simp [hentries]
    · simp [hentries]
  · rw [if_neg hall]
    exact ⟨fun h => (by cases h), fun h => absurd (List.all_eq_true.mpr h.1) hall⟩

section Shown

variable (h : db.Ordered) (htype : Titled ctx id type)
  (hids : ∀ b ∈ db.children id, isValidId b.id = true)

include htype hids

theorem intact_eq (off : ℤ) :
    intact (listRows db ctx id off type withStat) = listRows db ctx id off type withStat := by
  refine List.takeWhile_eq_self_iff.mpr fun row hrow => ?_
  obtain ⟨b, hb, -, rfl⟩ := (mem_listRows htype).mp hrow
  exact hids b hb

include h

/-- The first row that has a name is the one that comes before all others. -/
theorem firstNamed_iff (hb : b ∈ db.children id) (htags : b.id ≠ ctx.tagsRootId)
    (hvalid : validateFilename (b.title.getD []) = none) :
    firstNamed ctx (listRows db ctx id 0 type withStat) (b.title.getD []) = some b.id ↔
      ∀ c ∈ db.children id, c.id ≠ ctx.tagsRootId → c.title = b.title →
      b.position ≤ c.position := by
  have hsorted := listRows_sorted htype h.keys (h.distinct id) 0 withStat
  have hrow : ∀ c ∈ db.children id, db.listRow withStat c.title c ∈
    listRows db ctx id 0 type withStat :=
    fun c hc => (mem_listRows htype).mpr ⟨c, hc, h.nonneg c (mem_children.mp hc).1, rfl⟩
  have hnamed : ∀ {c : MozBookmark}, (db.listRow withStat c.title c).named ctx (b.title.getD []) =
    true ↔
      c.id ≠ ctx.tagsRootId ∧ c.title = b.title := by
    intro c
    rw [named_iff]
    refine and_congr_right fun _ => Iff.trans ?_ (title_eq_iff hvalid)
    exact ⟨fun ⟨_, hname⟩ => hname, fun hname => ⟨hname ▸ hvalid, hname⟩⟩
  rw [firstNamed, intact_eq htype hids, Option.map_eq_some_iff]
  constructor
  · rintro ⟨row, hfind, hid⟩ c hc hctags htitle
    obtain ⟨b', hb', -, rfl⟩ := (mem_listRows htype).mp (List.mem_of_find?_eq_some hfind)
    obtain rfl := h.keys.eq_of_id (mem_children.mp hb').1 (mem_children.mp hb).1 hid
    exact le_of_find? hsorted hfind (hrow c hc) (hnamed.mpr ⟨hctags, htitle⟩)
  · intro hfirst
    have hsome := List.find?_isSome.mpr ⟨_, hrow b hb, hnamed.mpr ⟨htags, rfl⟩⟩
    obtain ⟨row, hfind⟩ := Option.isSome_iff_exists.mp hsome
    obtain ⟨c, hc, -, rfl⟩ := (mem_listRows htype).mp (List.mem_of_find?_eq_some hfind)
    obtain ⟨hctags, htitle⟩ := hnamed.mp (List.find?_some hfind)
    have hle : c.position ≤ b.position :=
      le_of_find? hsorted hfind (hrow b hb) (hnamed.mpr ⟨htags, rfl⟩)
    refine ⟨_, hfind, ?_⟩
    exact (id_iff_position h.keys (h.distinct id) hc hb).mpr
      (le_antisymm hle (hfirst c hc hctags htitle))

theorem shown_eq (hb : b ∈ db.children id) [Decidable (db.Shows ctx id type b)] :
    (db.listRow withStat b.title b).shown ctx (owners db ctx id type withStat) =
      if db.Shows ctx id type b then some (db.listRow withStat b.title b).dirent else none := by
  rw [ListRow.shown]
  refine if_congr ?_ rfl rfl
  rw [Bool.and_eq_true, named_iff]
  constructor
  · rintro ⟨⟨htags, hvalid, -⟩, hown⟩
    refine ⟨htags, hvalid, fun hcheck => ?_⟩
    rw [owners, if_pos hcheck, Option.all_some, decide_eq_true_eq] at hown
    exact (firstNamed_iff h htype hids hb htags hvalid).mp hown
  · rintro ⟨htags, hvalid, hfirst⟩
    refine ⟨⟨htags, hvalid, rfl⟩, ?_⟩
    rw [owners]
    split
    next hcheck =>
      rw [Option.all_some, decide_eq_true_eq]
      exact (firstNamed_iff h htype hids hb htags hvalid).mpr (hfirst hcheck)
    · rfl

theorem mem_seen {off : ℤ} {x : Dirent} :
    x ∈ sight ctx (owners db ctx id type withStat) (listRows db ctx id off type withStat) ↔
      ∃ b ∈ db.children id, off ≤ b.position ∧ db.Shows ctx id type b ∧
        (db.listRow withStat b.title b).dirent = x := by
  classical
  rw [sight, intact_eq htype hids, List.mem_filterMap]
  constructor
  · rintro ⟨row, hrow, hshown⟩
    obtain ⟨b, hb, hoff, rfl⟩ := (mem_listRows htype).mp hrow
    rw [shown_eq h htype hids hb, Option.ite_none_right_eq_some] at hshown
    exact ⟨b, hb, hoff, hshown.1, Option.some.inj hshown.2⟩
  · rintro ⟨b, hb, hoff, hshows, rfl⟩
    exact ⟨_, (mem_listRows htype).mpr ⟨b, hb, hoff, rfl⟩, by rw [shown_eq h htype hids hb,
      if_pos hshows]⟩

/-- Where the folder can be listed, what there is to be seen are the entries. -/
theorem seen_eq (hlistable : db.Listable ctx id type) :
    sight ctx (owners db ctx id type withStat) (listRows db ctx id 0 type withStat) =
      (db.entries ctx id).map fun b => (db.listRow withStat b.title b).dirent := by
  classical
  have hfrom : (db.children id).filter (fun b => 0 ≤ b.position) = db.children id :=
    List.filter_eq_self.mpr fun b hb => decide_eq_true (h.nonneg b (mem_children.mp hb).1)
  have hshows : ∀ b ∈ db.children id, decide (db.Shows ctx id type b) = true ↔
    b ∈ db.entries ctx id := by
    intro b hb
    rw [decide_eq_true_iff, mem_entries]
    exact ⟨fun hs => ⟨hb, hs.not_tags, hs.valid, hlistable.first b hb hs⟩,
      fun ⟨_, htags, hvalid, hfirst⟩ => ⟨htags, hvalid, fun _ c hc _ => hfirst c hc⟩⟩
  have hentries : db.entries ctx id = (db.children id).filter fun b => db.Shows ctx id type b := by
    refine List.filter_congr fun b hb => Bool.eq_iff_iff.mpr ((hshows b hb).trans ?_).symm
    rw [Db.entries, List.mem_filter, and_iff_right hb]
  rw [sight, intact_eq htype hids, listRows_titled htype, hfrom, List.filterMap_map, hentries,
    ← List.filterMap_eq_map, List.filterMap_filter]
  refine List.filterMap_congr fun b hb => ?_
  rw [Function.comp_apply, shown_eq h htype hids hb]
  simp only [decide_eq_true_eq, Function.comp_apply]

end Shown

/-- A pass lists what is to be listed, and its last page succeeds, just if the folder can be listed,
and there is an entry left for the last page. -/
theorem completes_iff (h : db.Ordered) (hid : 0 ≤ id) (htype : Titled ctx id type) {s : Pass}
    (hs : s.Sound db ctx id type withStat) :
    s.Completes db ctx id type withStat ↔
      db.Listable ctx id type ∧ ∃ b ∈ db.entries ctx id, s.off ≤ b.position := by
  have hlast := Pass.last_eq h htype hs
  have hlisted : s.listed ++ (s.last db ctx id type withStat).2 =
      sight ctx (owners db ctx id type withStat) (listRows db ctx id 0 type withStat) := by
    rw [hlast]
    exact hs.rest
  constructor
  · rintro ⟨hlists, hstatus⟩
    rw [hlast] at hstatus
    obtain ⟨hvalid, hsome⟩ := endStatus_eq_ok.mp hstatus
    have hids : ∀ b ∈ db.children id, isValidId b.id = true := by
      intro b hb
      by_cases hoff : s.off ≤ b.position
      · exact hvalid _ ((mem_listRows htype).mpr ⟨b, hb, hoff, rfl⟩)
      · exact hs.clear b hb (h.nonneg b (mem_children.mp hb).1) (not_le.mp hoff)
    rw [hlisted] at hlists
    -- What is shown is an entry.
    have hentry : ∀ b ∈ db.children id, db.Shows ctx id type b → b ∈ db.entries ctx id := by
      intro b hb hshows
      have hseen : (db.listRow withStat b.title b).dirent ∈
          sight ctx (owners db ctx id type withStat) (listRows db ctx id 0 type withStat) :=
        (mem_seen h htype hids).mpr ⟨b, hb, h.nonneg b (mem_children.mp hb).1, hshows, rfl⟩
      have hmem := List.mem_map_of_mem (f := fun x : Dirent => (x.name, x.id, x.off)) hseen
      rw [hlists.entries] at hmem
      obtain ⟨c, hc, heq⟩ := List.mem_map.mp hmem
      have hbc := h.keys.eq_of_id (mem_children.mp (mem_entries.mp hc).1).1 (mem_children.mp hb).1
        (Prod.mk.inj (Prod.mk.inj heq).2).1
      exact hbc ▸ hc
    refine ⟨⟨hids, fun b hb hshows => (mem_entries.mp (hentry b hb hshows)).2.2.2, fun b hb => ?_⟩,
      ?_⟩
    · have hmem := List.mem_map_of_mem (f := fun b : MozBookmark => (b.title.getD [], b.id,
        b.position + 1)) hb
      rw [← hlists.entries] at hmem
      obtain ⟨x, hx, heq⟩ := List.mem_map.mp hmem
      obtain ⟨c, -, -, -, rfl⟩ := (mem_seen h htype hids).mp hx
      rw [← (Prod.mk.inj heq).1]
      exact nul_notMem_cstr _
    · obtain ⟨x, hx⟩ := List.exists_mem_of_ne_nil _ hsome
      obtain ⟨b, hb, hoff, hshows, -⟩ := (mem_seen h htype hids).mp hx
      exact ⟨b, hentry b hb hshows, hoff⟩
  · rintro ⟨hlistable, b, hb, hoff⟩
    have hids := hlistable.ids
    have hshows : db.Shows ctx id type b := by
      obtain ⟨-, htags, hvalid, hfirst⟩ := mem_entries.mp hb
      exact ⟨htags, hvalid, fun _ c hc _ => hfirst c hc⟩
    constructor
    · rw [hlisted, seen_eq h htype hids hlistable]
      constructor
      · rw [List.map_map]
        refine List.map_congr_left fun c hc => ?_
        exact Prod.ext (cstr_of_nul_notMem (hlistable.names c hc)) rfl
      · intro x hx
        obtain ⟨c, hc, rfl⟩ := List.mem_map.mp hx
        have hname := hlistable.names c hc
        refine ⟨⟨c.title.getD [], hname⟩, (cstr_of_nul_notMem hname).symm, ?_⟩
        exact lookup_entry h hid htype hc (hids c (mem_entries.mp hc).1) hname
    · rw [hlast]
      refine endStatus_eq_ok.mpr ⟨fun row hrow => ?_, fun hnil => ?_⟩
      · obtain ⟨c, hc, -, rfl⟩ := (mem_listRows htype).mp hrow
        exact hids c hc
      · have hmem : (db.listRow withStat b.title b).dirent ∈
            sight ctx (owners db ctx id type withStat) (listRows db ctx id s.off type withStat) :=
          (mem_seen h htype hids).mpr ⟨b, (mem_entries.mp hb).1, hoff, hshows, rfl⟩
        rw [hnil] at hmem
        cases hmem

/-- Calls keep the rows ordered; and a folder is listed in pages as it is to be, and the last page
succeeds, just if the folder can be listed, and there is an entry left for the last page. -/
theorem listing_complete_iff (db : Db) (ctx : Ctx) (h : db.Ordered) :
    (∀ (env : Env) (call : Call), (call.run env ctx db).2.Ordered) ∧
    ∀ (id : ℤ) (type : BookmarkType) (withStat : Bool) (cookie : Option ListCookie)
      (callbacks : List ListCallback), 0 ≤ id → Titled ctx id type →
      ((pages db ctx id type withStat cookie callbacks).Completes db ctx id type withStat ↔
        db.Listable ctx id type ∧
          ∃ b ∈ db.entries ctx id, (pages db ctx id type withStat cookie callbacks).off ≤
          b.position) :=
  ⟨fun env call => call.run_ordered h env ctx,
    fun _ _ _ cookie callbacks hid htype =>
      completes_iff h hid htype (Pass.pages_sound h htype (Pass.begin_sound cookie) callbacks)⟩

/-- A folder whose titles are distinct, listed on one page. -/
theorem listing_complete_written :
    (pages gapped ⟨1, 0, false, true⟩ 1 .bookmark false none []).Completes gapped
    ⟨1, 0, false, true⟩ 1
      .bookmark false := by
  have hdistinct : ∀ b ∈ gapped.bookmarks, ∀ c ∈ gapped.bookmarks, b.position = c.position →
    b.id = c.id := by
    decide
  have htitles : ∀ b ∈ gapped.children 1, ∀ c ∈ gapped.children 1, c.title = b.title →
      b.position ≤ c.position := by
    decide
  have hordered : gapped.Ordered :=
    ⟨by unfold Db.KeysUnique; decide, fun _ b hb c hc _ _ => hdistinct b hb c hc, by decide⟩
  refine ((listing_complete_iff gapped ⟨1, 0, false, true⟩ hordered).2 1 .bookmark false none []
    (by decide) (.inl rfl)).mpr ⟨⟨by decide, fun b hb _ => htitles b hb, by decide⟩, ?_⟩
  decide

/-- In an empty folder, the status of the last page has never been assigned. -/
theorem empty_folder_unassigned :
    ¬(pages ⟨[], [], [], 0, []⟩ ⟨1, 0, false, true⟩ 1 .bookmark false none []).Completes
    ⟨[], [], [], 0, []⟩
      ⟨1, 0, false, true⟩ 1 .bookmark false :=
  fun h => absurd h.status (by decide)

end BookmarkFS.Firefox
