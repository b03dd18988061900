import BookmarkFS.Firefox.Database
import BookmarkFS.Library.Paging

/-! # Listing a directory

`bookmark_list()` of the backend for Firefox. The statement yields the rows of a
directory from a position on; the callback that gets them hides what has no
valid name, or a name that has been seen before.
-/
namespace BookmarkFS.Firefox
open Library
open Chromium (Errno validateFilename Timespec)

/-- `usecs_to_timespec()`, on a 64-bit `time_t` -/
def usecsToTimespec (microsecs : ℤ) : Timespec :=
  ⟨max 0 (microsecs.tdiv 1000000), microsecs.tmod 1000000 * 1000⟩

def cstr (text : Bytes) : Bytes := text.takeWhile (· ≠ 0)

/-- A row that a statement of `bookmark_do_list()` yields. -/
structure ListRow where
  id : ℤ
  position : ℤ
  name : Option Bytes
  valueLen : ℤ
  /-- `lastModified` and `last_visit_date`, if attributes are asked for -/
  times : Option (ℤ × ℤ)
  deriving DecidableEq

def Db.place (db : Db) (fk : Option ℤ) : Option MozPlace :=
  fk.bind fun fk => db.places.find? fun p => p.id = fk

/-- The columns of a row of `moz_bookmarks`, where its name is `name`. -/
def Db.listRow (db : Db) (withStat : Bool) (name : Option Bytes) (b : MozBookmark) : ListRow where
  id := b.id
  position := b.position
  name := name
  valueLen := if withStat then ((db.place b.fk).map fun p => (p.url.length : ℤ)).getD (-1)
    else 1 - b.type
  times := if withStat then
      some (b.lastModified, ((db.place b.fk).bind fun p => p.lastVisitDate).getD 0)
    else none

/-- `BOOKMARK_COL_BY_FK_`: the title of the first row with the same place. -/
def Db.titleByFk (db : Db) (fk : Option ℤ) : Option Bytes :=
  ((byId (db.bookmarks.filter fun t => fk ≠ none ∧ t.fk = fk)).head?).bind fun t => t.title

/-- `BOOKMARK_LIST_KEYWORD_`, which looks for the place where attributes are asked for. Of the
keywords of one place, SQLite picks one; here the first. -/
def Db.keywordRows (db : Db) (off : ℤ) (withStat : Bool) : List ListRow :=
  let keywords := (db.keywords.filter fun k =>
    off ≤ k.id && (!withStat || (db.place (some k.placeId)).isSome)).insertionSort fun k l => k.id ≤
      l.id
  let picked := keywords.filter fun k => keywords.all fun l => l.placeId ≠ k.placeId || k.id ≤ l.id
  picked.filterMap fun k =>
    (byId (db.bookmarks.filter fun b => b.fk = some k.placeId)).head?.map fun b =>
    { db.listRow withStat (some k.keyword) b with
        position := k.id
        valueLen := if withStat then (db.listRow withStat none b).valueLen else 0 }

/-- The rows that the statement of `bookmark_do_list()` yields. -/
def listRows (db : Db) (ctx : Ctx) (id off : ℤ) (type : BookmarkType) (withStat : Bool) :
    List ListRow :=
  let rows := (db.children id).filter fun b => off ≤ b.position
  match type with
  | .bookmark => rows.map fun b => db.listRow withStat b.title b
  | .tag =>
    if id = ctx.tagsRootId then rows.map fun b => db.listRow withStat b.title b
    else rows.map fun b => db.listRow withStat (db.titleByFk b.fk) b
  | .keyword => db.keywordRows off withStat

/-- `struct bookmarkfs_bookmark_entry` -/
structure Dirent where
  name : Bytes
  off : ℤ
  id : ℤ
  valueLen : ℤ
  /-- The modification and access times, if they are asked for. -/
  times : Option (Timespec × Timespec)
  deriving DecidableEq

/-- What the callback of `bookmark_list()` returns for an entry, given the entries that it has
accepted before. -/
abbrev ListCallback := List Dirent → Dirent → ℤ

/-- The map of names, as what it holds for each. -/
abbrev DentryMap := Bytes → Option ℤ

/-- `struct bm_lcookie` -/
structure ListCookie where
  dentryMap : Option DentryMap
  /-- Of `bookmark_check()` only. -/
  idx : ℤ

/-- `db_query()`: rows are passed to a callback until it returns non-zero. -/
def dbQuery {σ ρ : Type} (rowFunc : σ → ρ → Bool × σ) : List ρ → σ → σ
  | [], s => s
  | row :: rows, s =>
    if (rowFunc s row).1 then (rowFunc s row).2 else dbQuery rowFunc rows (rowFunc s row).2

/-- What a listing keeps in `struct bm_list_ctx`; the status is indeterminate at first. -/
structure ListState where
  dentryMap : Option DentryMap
  status : Option (Except Errno ℤ)
  accepted : List Dirent

/-- What is shown of a row. -/
def ListRow.dirent (row : ListRow) : Dirent where
  name := cstr (row.name.getD [])
  off := row.position + 1
  id := row.id
  valueLen := row.valueLen
  times := row.times.map fun (mtime, atime) => (usecsToTimespec mtime, usecsToTimespec atime)

/-- `bookmark_list_cb()` -/
def bookmarkListCb (ctx : Ctx) (checkName : Bool) (callback : ListCallback) (q : ListState)
    (row : ListRow) : Bool × ListState :=
  if isValidId row.id = false then (true, { q with status := some (.error .io) })
  else if row.id = ctx.tagsRootId then (false, q)
  else if row.position < 0 then (true, { q with status := some (.error .io) })
  else
    let name := row.name.getD []
    if validateFilename name ≠ none then (false, q)
    else
      let map := q.dentryMap.getD fun _ => none
      let q := if checkName then { q with dentryMap := some map } else q
      let dentry := if checkName then map name else none
      if dentry ≠ none ∧ dentry ≠ some row.id then (false, q)
      else
        let status := callback q.accepted row.dirent
        if status ≠ 0 then (true, { q with status := some (.ok status) })
        else
          (false,
            { dentryMap := if checkName ∧ dentry = none then
                  some (Function.update map name (some row.id))
                else q.dentryMap
              status := some (.ok 0)
              accepted := q.accepted ++ [row.dirent] })

/-- `bookmark_do_list()`, as far as the callback is `bookmark_list_cb()` -/
def checkName (ctx : Ctx) (type : BookmarkType) : Bool :=
  type = .bookmark && !ctx.assumeTitleDistinct

/-- `bookmark_list()` with the cookie at `cookie_ptr`: the status, which may be indeterminate, the
entries that the callback has accepted, and the cookie afterwards. -/
def bookmarkList (db : Db) (ctx : Ctx) (id off : ℤ) (type : BookmarkType) (withStat : Bool)
    (callback : Option ListCallback) (cookie : Option ListCookie) :
    (Option (Except Errno ℤ) × List Dirent) × ListCookie :=
  let dentryMap := cookie.bind (·.dentryMap)
  let idx := (cookie.map (·.idx)).getD 0
  match callback with
  | none => ((some (.ok 0), []), ⟨dentryMap, idx⟩)
  | some callback =>
    -- rewinddir()
    let dentryMap := if off = 0 then none else dentryMap
    let q := dbQuery (bookmarkListCb ctx (checkName ctx type) callback)
      (listRows db ctx id off type withStat) ⟨dentryMap, none, []⟩
    ((q.status, q.accepted), ⟨q.dentryMap, idx⟩)

/-! ## The rows of a directory -/

/-- A directory whose rows are known by their titles. -/
def Titled (ctx : Ctx) (parentId : ℤ) (type : BookmarkType) : Prop :=
  type = .bookmark ∨ type = .tag ∧ parentId = ctx.tagsRootId

def intact (rows : List ListRow) : List ListRow := rows.takeWhile fun row => isValidId row.id

/-- A row of a directory that queries reach: no row up to it is broken. -/
structure Db.Reached (db : Db) (parentId : ℤ) (b : MozBookmark) : Prop where
  child : b ∈ db.children parentId
  nonneg : 0 ≤ b.position
  intact : ∀ c ∈ db.children parentId, 0 ≤ c.position → c.position ≤ b.position →
    isValidId c.id = true

section Rows

variable {db : Db} {ctx : Ctx} {parentId : ℤ} {type : BookmarkType} {row : ListRow}

theorem listRows_titled (htype : Titled ctx parentId type) (off : ℤ) (withStat : Bool) :
    listRows db ctx parentId off type withStat = ((db.children parentId).filter fun b =>
      off ≤ b.position).map fun b => db.listRow withStat b.title b := by
  obtain rfl | ⟨rfl, hroot⟩ := htype
  · rfl
  · exact if_pos hroot

theorem listRows_filter (htype : Titled ctx parentId type) {off off' : ℤ} (hoff : off ≤ off')
    (withStat : Bool) : (listRows db ctx parentId off type withStat).filter
    (fun row => off' ≤ row.position) =
      listRows db ctx parentId off' type withStat := by
  rw [listRows_titled htype, listRows_titled htype, List.filter_map, List.filter_filter]
  congr 1
  refine List.filter_congr fun b _ => ?_
  simp only [Function.comp_apply, Db.listRow, ← Bool.decide_and]
  exact decide_eq_decide.mpr ⟨fun h => h.1, fun h => ⟨h, hoff.trans h⟩⟩

theorem mem_listRows (htype : Titled ctx parentId type) {off : ℤ} {withStat : Bool} :
    row ∈ listRows db ctx parentId off type withStat ↔
      ∃ b ∈ db.children parentId, off ≤ b.position ∧ db.listRow withStat b.title b = row := by
  rw [listRows_titled htype, List.mem_map]
  constructor
  · rintro ⟨b, hb, rfl⟩
    obtain ⟨hb, hoff⟩ := List.mem_filter.mp hb
    exact ⟨b, hb, of_decide_eq_true hoff, rfl⟩
  · rintro ⟨b, hb, hoff, rfl⟩
    exact ⟨b, List.mem_filter.mpr ⟨hb, decide_eq_true hoff⟩, rfl⟩

theorem listRows_sorted (htype : Titled ctx parentId type) (hkeys : db.KeysUnique)
    (hdistinct : db.PositionsDistinct parentId) (off : ℤ) (withStat : Bool) :
    (listRows db ctx parentId off type withStat).Pairwise fun r s => r.position < s.position := by
  rw [listRows_titled htype]
  exact List.pairwise_map.mpr ((children_sorted hkeys hdistinct).filter _)

theorem listRows_le (htype : Titled ctx parentId type) {off : ℤ} {withStat : Bool} :
    ∀ row ∈ listRows db ctx parentId off type withStat, off ≤ row.position := by
  intro row hrow
  obtain ⟨b, -, hoff, rfl⟩ := (mem_listRows htype).mp hrow
  exact hoff

/-- No row of the directory that a query from 0 on passes before the position `off` is broken. -/
def Db.Clear (db : Db) (parentId off : ℤ) : Prop :=
  ∀ c ∈ db.children parentId, 0 ≤ c.position → c.position < off → isValidId c.id = true

theorem clear_zero : db.Clear parentId 0 := fun _ _ hpos hlt => absurd hpos hlt.not_ge

theorem Db.Reached.clear {b : MozBookmark} (h : db.Reached parentId b) :
    db.Clear parentId (b.position + 1) :=
  fun c hc hpos hlt => h.intact c hc hpos (Int.lt_add_one_iff.mp hlt)

theorem reached_of_intact (htype : Titled ctx parentId type) (hkeys : db.KeysUnique)
    (hdistinct : db.PositionsDistinct parentId) {off : ℤ} (hoff : 0 ≤ off)
    (hclear : db.Clear parentId off)
    {withStat : Bool} (hrow : row ∈ intact (listRows db ctx parentId off type withStat)) :
    ∃ b, db.Reached parentId b ∧ off ≤ b.position ∧ db.listRow withStat b.title b = row := by
  obtain ⟨hmem, hall⟩ :=
    (mem_takeWhile_iff (listRows_sorted htype hkeys hdistinct off withStat)).mp hrow
  obtain ⟨b, hb, hle, rfl⟩ := (mem_listRows htype).mp hmem
  refine ⟨b, ⟨hb, hoff.trans hle, fun c hc hpos hcb => ?_⟩, hle, rfl⟩
  by_cases hbefore : c.position < off
  · exact hclear c hc hpos hbefore
  · exact hall _ ((mem_listRows htype).mpr ⟨c, hc, not_lt.mp hbefore, rfl⟩) hcb

theorem intact_of_reached (htype : Titled ctx parentId type) (hkeys : db.KeysUnique)
    (hdistinct : db.PositionsDistinct parentId) {off : ℤ} (hoff : 0 ≤ off) {b : MozBookmark}
    (hb : db.Reached parentId b) (hle : off ≤ b.position) (withStat : Bool) :
    db.listRow withStat b.title b ∈ intact (listRows db ctx parentId off type withStat) := by
  refine (mem_takeWhile_iff (listRows_sorted htype hkeys hdistinct off withStat)).mpr
    ⟨(mem_listRows htype).mpr ⟨b, hb.child, hle, rfl⟩, fun row hrow hpos => ?_⟩
  obtain ⟨c, hc, hoffc, rfl⟩ := (mem_listRows htype).mp hrow
  exact hb.intact c hc (hoff.trans hoffc) hpos

end Rows

/-! ## What a query shows -/

/-- Where a reader goes on that has got `accepted` since the position `off`. -/
def resume (off : ℤ) (accepted : List Dirent) : ℤ := (accepted.getLast?.map (·.off)).getD off

/-- A row that a listing looks up by `name`. -/
def ListRow.named (ctx : Ctx) (name : Bytes) (row : ListRow) : Bool :=
  row.id ≠ ctx.tagsRootId && validateFilename name = none && row.name.getD [] = name

/-- What is shown of a row, where each name belongs to the row that `owner` says, or names are not
checked. -/
def ListRow.shown (ctx : Ctx) (owner : Option DentryMap) (row : ListRow) : Option Dirent :=
  if row.named ctx (row.name.getD []) &&
      owner.all fun own => own (row.name.getD []) = some row.id then
    some row.dirent
  else none

/-- The names in the map belong to their owners, and each other name to the first row
that has it. -/
structure Heads (ctx : Ctx) (own map : DentryMap) (rows : List ListRow) : Prop where
  le : ∀ {name id}, map name = some id → own name = some id
  head : ∀ {name row}, (intact rows).find? (·.named ctx name) = some row → map name = none →
    own name = some row.id

variable {ctx : Ctx} {own map : DentryMap} {row : ListRow} {rows : List ListRow}

theorem resume_append (off : ℤ) (accepted : List Dirent) (x : Dirent) :
    resume off (accepted ++ [x]) = x.off := by
  rw [resume, List.getLast?_append, List.getLast?_singleton]
  rfl

theorem named_iff {name : Bytes} : row.named ctx name = true ↔
    row.id ≠ ctx.tagsRootId ∧ validateFilename name = none ∧ row.name.getD [] = name := by
  simp only [ListRow.named, Bool.and_eq_true, decide_eq_true_eq, and_assoc]

theorem intact_cons (hvalid : isValidId row.id = true) :
    intact (row :: rows) = row :: intact rows := by
  rw [intact, List.takeWhile_cons, if_pos hvalid, intact]

theorem intact_cons_of_broken (hbad : isValidId row.id = false) : intact (row :: rows) = [] := by
  rw [intact, List.takeWhile_cons, if_neg (by simp [hbad])]

namespace Heads

theorem cons (H : Heads ctx own map rows) (hvalid : isValidId row.id = true)
    (h : row.named ctx (row.name.getD []) = true → map (row.name.getD []) ≠ none) :
    Heads ctx own map (row :: rows) where
  le := H.le
  head {name r} hfind hnone := by
    rw [intact_cons hvalid, List.find?_cons] at hfind
    by_cases hnamed : row.named ctx name = true
    · obtain ⟨-, -, rfl⟩ := named_iff.mp hnamed
      exact absurd hnone (h hnamed)
    · rw [Bool.not_eq_true] at hnamed
      rw [hnamed] at hfind
      exact H.head hfind hnone

theorem tail (H : Heads ctx own map (row :: rows)) (hvalid : isValidId row.id = true)
    (h : row.named ctx (row.name.getD []) = true → map (row.name.getD []) ≠ none) :
    Heads ctx own map rows where
  le := H.le
  head {name r} hfind hnone := by
    refine H.head ?_ hnone
    rw [intact_cons hvalid, List.find?_cons]
    by_cases hnamed : row.named ctx name = true
    · obtain ⟨-, -, rfl⟩ := named_iff.mp hnamed
      exact absurd hnone (h hnamed)
    · rw [Bool.not_eq_true] at hnamed
      rwa [hnamed]

theorem owns_iff (H : Heads ctx own map (row :: rows)) (hvalid : isValidId row.id = true)
    (hnamed : row.named ctx (row.name.getD []) = true) :
    own (row.name.getD []) = some row.id ↔
      ¬(map (row.name.getD []) ≠ none ∧ map (row.name.getD []) ≠ some row.id) := by
  cases hmap : map (row.name.getD []) with
  | none =>
    have := H.head (by rw [intact_cons hvalid, List.find?_cons, hnamed]) hmap
    simp [this]
  | some id =>
    rw [H.le hmap]
    simp

theorem enter (H : Heads ctx own map (row :: rows)) (hvalid : isValidId row.id = true)
    {name : Bytes} (hown : own name = some row.id) (hname : row.name.getD [] = name) :
    Heads ctx own (Function.update map name (some row.id)) rows := by
  have hupdate : ∀ t, Function.update map name (some row.id) t = none → map t = none := by
    intro t ht
    by_cases h : t = name
    · rw [h, Function.update_self] at ht; cases ht
    · rwa [Function.update_of_ne h] at ht
  have hheads : Heads ctx own (Function.update map name (some row.id)) (row :: rows) := by
    refine ⟨fun {t id} ht => ?_, fun hfind hnone => H.head hfind (hupdate _ hnone)⟩
    by_cases h : t = name
    · rw [h, Function.update_self] at ht
      rw [h, hown, ht]
    · rw [Function.update_of_ne h] at ht
      exact H.le ht
  exact hheads.tail hvalid fun _ => by rw [hname, Function.update_self]; exact Option.some_ne_none _

end Heads

/-- What a map that may not have been created yet holds. -/
def known (map : Option DentryMap) : DentryMap := map.getD fun _ => none

section Query

variable (callback : ListCallback) {owner : Option DentryMap} {q : ListState} {off : ℤ}

/-- What `bookmark_list_cb()` makes of a row: it hides it, or the reader refuses it, or it is
accepted. -/
theorem bookmarkListCb_spec (hheads : ∀ own ∈ owner, Heads ctx own (known q.dentryMap)
      (row :: rows))
    (hvalid : isValidId row.id = true) (hpos : 0 ≤ row.position) :
    ∃ map', (owner = none → map' = q.dentryMap) ∧
      (∀ name, known q.dentryMap name ≠ none → known map' name ≠ none) ∧
      ((row.shown ctx owner = none ∧
          bookmarkListCb ctx owner.isSome callback q row = (false, { q with dentryMap := map' }) ∧
          known map' = known q.dentryMap ∧ (owner ≠ none → row.named ctx (row.name.getD []) = true →
            known q.dentryMap (row.name.getD []) ≠ none)) ∨
        (row.shown ctx owner = some row.dirent ∧ callback q.accepted row.dirent ≠ 0 ∧
          bookmarkListCb ctx owner.isSome callback q row =
            (true, { q with dentryMap := map', status := some (.ok (callback q.accepted row.dirent)) }) ∧
          known map' = known q.dentryMap) ∨
        (row.shown ctx owner = some row.dirent ∧ callback q.accepted row.dirent = 0 ∧
          bookmarkListCb ctx owner.isSome callback q row =
            (false, ⟨map', some (.ok 0), q.accepted ++ [row.dirent]⟩) ∧
          ∀ own ∈ owner, Heads ctx own (known map') rows ∧
          known map' (row.name.getD []) ≠ none)) := by
  by_cases hnamed : row.named ctx (row.name.getD []) = true
  swap
  · have hskip : bookmarkListCb ctx owner.isSome callback q row = (false, q) := by
      rw [bookmarkListCb, if_neg (by rw [hvalid]; decide)]
      by_cases htags : row.id = ctx.tagsRootId
      · rw [if_pos htags]
      · rw [if_neg htags, if_neg hpos.not_gt]
        exact if_pos fun hname => hnamed (named_iff.mpr ⟨htags, hname, rfl⟩)
    refine ⟨q.dentryMap, fun _ => rfl, fun _ => id,
      .inl ⟨?_, hskip, rfl, fun _ h => absurd h hnamed⟩⟩
    rw [ListRow.shown, if_neg fun h => hnamed (Bool.and_eq_true_iff.mp h).1]
  obtain ⟨htags, hname, -⟩ := named_iff.mp hnamed
  rw [bookmarkListCb, if_neg (by rw [hvalid]; decide), if_neg htags, if_neg hpos.not_gt]
  simp only [if_neg (not_not.mpr hname), ListRow.shown, hnamed, Bool.true_and]
  cases owner with
  | none =>
    simp only [Option.all_none, if_true, Option.isSome_none, Bool.false_eq_true, if_false, ne_eq,
      not_true, false_and]
    refine ⟨q.dentryMap, fun _ => rfl, fun _ => id, .inr ?_⟩
    by_cases hreply : callback q.accepted row.dirent = 0
    · exact .inr ⟨trivial, hreply, by rw [if_neg (not_not.mpr hreply)], nofun⟩
    · exact .inl ⟨trivial, hreply, by rw [if_pos hreply], rfl⟩
  | some own =>
    have H := hheads own rfl
    have howns := H.owns_iff hvalid hnamed
    simp only [Option.all_some, decide_eq_true_eq, Option.isSome_some, if_true]
    by_cases hhidden : known q.dentryMap (row.name.getD []) ≠ none ∧
        known q.dentryMap (row.name.getD []) ≠ some row.id
    · refine ⟨some (known q.dentryMap), nofun, fun _ => id,
        .inl ⟨if_neg fun h => howns.mp h hhidden, if_pos hhidden, rfl, fun _ _ => hhidden.1⟩⟩
    · have hown := howns.mpr hhidden
      rw [if_pos hown]
      by_cases hreply : callback q.accepted row.dirent = 0
      swap
      · refine ⟨some (known q.dentryMap), nofun, fun _ => id, .inr (.inl ⟨rfl, hreply, ?_, rfl⟩)⟩
        exact (if_neg hhidden).trans (if_pos hreply)
      by_cases hfree : known q.dentryMap (row.name.getD []) = none
      · refine ⟨some (Function.update (known q.dentryMap) (row.name.getD []) (some row.id)), nofun,
          fun name h => ?_,
          .inr (.inr ⟨rfl, hreply, (if_neg hhidden).trans ((if_neg (not_not.mpr hreply)).trans ?_),
          ?_⟩)⟩
        · by_cases hsame : name = row.name.getD []
          · rw [hsame, known, Option.getD_some, Function.update_self]; exact Option.some_ne_none _
          · rwa [known, Option.getD_some, Function.update_of_ne hsame]
        · rw [known] at hfree
          simp only [hfree, and_self, if_true, known]
        · rintro own' ⟨⟩
          refine ⟨H.enter hvalid hown rfl, ?_⟩
          rw [known, Option.getD_some, Function.update_self]
          exact Option.some_ne_none _
      · refine ⟨some (known q.dentryMap), nofun, fun _ => id,
          .inr (.inr ⟨rfl, hreply, (if_neg hhidden).trans ((if_neg (not_not.mpr hreply)).trans ?_),
          ?_⟩)⟩
        · rw [known] at hfree
          simp only [hfree, and_false, if_false, known]
        · rintro own' ⟨⟩
          exact ⟨H.tail hvalid fun _ => hfree, hfree⟩

/-- What there is to be seen of rows, up to the first that is broken. -/
def sight (ctx : Ctx) (owner : Option DentryMap) (rows : List ListRow) : List Dirent :=
  (intact rows).filterMap (·.shown ctx owner)

theorem mem_sight {own : DentryMap} {x : Dirent} : x ∈ sight ctx (some own) rows ↔
    ∃ row ∈ intact rows, (row.named ctx (row.name.getD []) = true ∧
      own (row.name.getD []) = some row.id) ∧ row.dirent = x := by
  rw [sight, List.mem_filterMap]
  refine exists_congr fun row => and_congr_right fun _ => ?_
  simp only [ListRow.shown, Option.all_some, Option.ite_none_right_eq_some, Bool.and_eq_true,
    decide_eq_true_eq, Option.some.injEq]

/-- The status that a query leaves whose reader has got `fed`, and had got `got` before. -/
def endStatus (rows : List ListRow) (got : List Dirent) (status : Option (Except Errno ℤ))
    (fed : ℤ × List Dirent) : Option (Except Errno ℤ) :=
  if fed.1 ≠ 0 then some (.ok fed.1)
  else if rows.all fun row => isValidId row.id then
    if fed.2 = got then status else some (.ok 0)
  else some (.error .io)

/-- What a query does: the reader gets what there is to be seen, until it refuses an entry, and the
map is as it must be to go on from there. -/
structure Listed (ctx : Ctx) (callback : ListCallback) (owner : Option DentryMap) (off : ℤ)
    (rows : List ListRow) (q q' : ListState) : Prop where
  accepted : q'.accepted = (feed callback (sight ctx owner rows) q.accepted).2
  status : q'.status =
    endStatus rows q.accepted q.status (feed callback (sight ctx owner rows) q.accepted)
  unchecked : owner = none → q'.dentryMap = q.dentryMap
  heads : ∀ own ∈ owner, Heads ctx own (known q'.dentryMap)
    (rows.filter fun row => resume off q'.accepted ≤ row.position)
  forth : resume off q.accepted ≤ resume off q'.accepted
  mono : ∀ name, known q.dentryMap name ≠ none → known q'.dentryMap name ≠ none
  rest : q'.accepted ++ sight ctx owner (rows.filter fun row => resume off q'.accepted ≤
    row.position) =
    q.accepted ++ sight ctx owner rows
  full : (feed callback (sight ctx owner rows) q.accepted).1 = 0 → owner ≠ none →
    ∀ row ∈ intact rows,
    row.named ctx (row.name.getD []) = true → known q'.dentryMap (row.name.getD []) ≠ none

def firstNamed (ctx : Ctx) (rows : List ListRow) : DentryMap := fun name =>
  ((intact rows).find? (·.named ctx name)).map (·.id)

theorem heads_firstNamed (ctx : Ctx) (rows : List ListRow) :
    Heads ctx (firstNamed ctx rows) (known none) rows where
  le h := by cases h
  head hfind _ := by rw [firstNamed, hfind, Option.map_some]

theorem filter_resume (h : ∀ row ∈ rows, off ≤ row.position) :
    (rows.filter fun row => off ≤ row.position) = rows :=
  List.filter_eq_self.mpr fun row hrow => decide_eq_true (h row hrow)

section Row

variable {map' : Option DentryMap} {q' : ListState}

theorem sight_cons (hvalid : isValidId row.id = true) (rows : List ListRow) :
    sight ctx owner (row :: rows) = (row.shown ctx owner).toList ++ sight ctx owner rows := by
  rw [sight, intact_cons hvalid, List.filterMap_cons, sight]
  cases row.shown ctx owner <;> rfl

theorem all_valid_cons (hvalid : isValidId row.id = true) (rows : List ListRow) :
    (row :: rows).all (fun r => isValidId r.id) = rows.all fun r => isValidId r.id := by
  rw [List.all_cons, hvalid, Bool.true_and]

theorem listed_broken (hbad : isValidId row.id = false)
    (hpos : ∀ r ∈ row :: rows, resume off q.accepted ≤ r.position)
    (hheads : ∀ own ∈ owner, Heads ctx own (known q.dentryMap) (row :: rows)) :
    Listed ctx callback owner off (row :: rows) q { q with status := some (.error .io) } := by
  have hsight : sight ctx owner (row :: rows) = [] := by
    rw [sight, intact_cons_of_broken hbad]
    rfl
  refine ⟨by rw [hsight]; rfl, ?_, fun _ => rfl, fun own hown => ?_, le_rfl, fun _ => id,
    by rw [filter_resume hpos], fun _ _ r hr => ?_⟩
  · rw [hsight, endStatus, if_neg (by simp [feed]), if_neg (by simp [hbad])]
  · rw [filter_resume hpos]
    exact hheads own hown
  · rw [intact_cons_of_broken hbad] at hr
    cases hr

/-- A row that is hidden changes nothing but that there may be a map. -/
theorem Listed.hidden (L : Listed ctx callback owner off rows { q with dentryMap := map' } q')
    (hvalid : isValidId row.id = true) (hshown : row.shown ctx owner = none)
    (hunchecked : owner = none → map' = q.dentryMap) (hsame : known map' = known q.dentryMap)
    (hentered : owner ≠ none → row.named ctx (row.name.getD []) = true →
      known q.dentryMap (row.name.getD []) ≠ none) :
      Listed ctx callback owner off (row :: rows) q q' := by
  have hsight : ∀ rows, sight ctx owner (row :: rows) = sight ctx owner rows := fun rows => by
    rw [sight_cons hvalid, hshown, Option.toList_none, List.nil_append]
  have hmono : ∀ name, known q.dentryMap name ≠ none → known q'.dentryMap name ≠ none :=
    fun name h =>
    L.mono name (hsame ▸ h)
  refine ⟨?_, ?_, fun h => (L.unchecked h).trans (hunchecked h), fun own hown => ?_,
    L.forth, hmono, ?_,
    fun hfed howner r hr hnamed => ?_⟩
  · rw [L.accepted, hsight]
  · rw [L.status, hsight, endStatus, endStatus, all_valid_cons hvalid]
  · rw [List.filter_cons]
    split
    · exact (L.heads own hown).cons hvalid fun hnamed =>
        hmono _ (hentered (by rintro rfl; cases hown) hnamed)
    · exact L.heads own hown
  · have hrest := L.rest
    rw [List.filter_cons, hsight]
    split
    · rw [hsight]
      exact hrest
    · exact hrest
  · rw [intact_cons hvalid] at hr
    rcases List.mem_cons.mp hr with rfl | hr
    · exact hmono _ (hentered howner hnamed)
    · rw [hsight] at hfed
      exact L.full hfed howner r hr hnamed

/-- A row that the reader refuses is where the next query starts. -/
theorem listed_refused (hvalid : isValidId row.id = true)
    (hshown : row.shown ctx owner = some row.dirent) (hreply : callback q.accepted row.dirent ≠ 0)
    (hpos : ∀ r ∈ row :: rows, resume off q.accepted ≤ r.position)
    (hheads : ∀ own ∈ owner, Heads ctx own (known q.dentryMap) (row :: rows))
    (hunchecked : owner = none → map' = q.dentryMap) (hsame : known map' = known q.dentryMap) :
    Listed ctx callback owner off (row :: rows) q
      { q with dentryMap := map', status := some (.ok (callback q.accepted row.dirent)) } := by
  have hfeed : feed callback (sight ctx owner (row :: rows)) q.accepted =
      (callback q.accepted row.dirent, q.accepted) := by
    rw [sight_cons hvalid, hshown]
    exact if_pos hreply
  refine ⟨by rw [hfeed], ?_, hunchecked, fun own hown => ?_, le_rfl, fun name h => hsame ▸ h,
    by rw [filter_resume hpos], fun hfed => ?_⟩
  · rw [hfeed, endStatus, if_pos hreply]
  · rw [filter_resume hpos]
    exact hsame ▸ hheads own hown
  · rw [hfeed] at hfed
    exact absurd hfed hreply

/-- After a row that is accepted, the others are. -/
theorem Listed.shown
    (L : Listed ctx callback owner off rows ⟨map', some (.ok 0), q.accepted ++ [row.dirent]⟩ q')
    (hvalid : isValidId row.id = true) (hshown : row.shown ctx owner = some row.dirent)
    (hreply : callback q.accepted row.dirent = 0) (hrow : resume off q.accepted ≤ row.position)
    (hunchecked : owner = none → map' = q.dentryMap)
    (hmono : ∀ name, known q.dentryMap name ≠ none → known map' name ≠ none)
    (hentered : owner ≠ none → known map' (row.name.getD []) ≠ none) :
    Listed ctx callback owner off (row :: rows) q q' := by
  have hforth := L.forth
  rw [show resume off (q.accepted ++ [row.dirent]) = row.position +
    1 from resume_append _ _ _] at hforth
  have hpassed : ¬resume off q'.accepted ≤ row.position := by omega
  have hfilter : (row :: rows).filter (fun row => resume off q'.accepted ≤ row.position) =
      rows.filter fun row => resume off q'.accepted ≤ row.position := by
    rw [List.filter_cons, if_neg (by simpa using hpassed)]
  have hfeed : feed callback (sight ctx owner (row :: rows)) q.accepted =
      feed callback (sight ctx owner rows) (q.accepted ++ [row.dirent]) := by
    rw [sight_cons hvalid, hshown]
    exact if_neg (not_not.mpr hreply)
  refine ⟨by rw [L.accepted, hfeed], ?_, fun h => (L.unchecked h).trans (hunchecked h),
    fun own hown => ?_, le_trans (by omega) hforth, fun name h => L.mono name (hmono name h), ?_,
    fun hfed howner r hr hnamed => ?_⟩
  · obtain ⟨more, hmore⟩ :=
      feed_extends callback (sight ctx owner rows) (q.accepted ++ [row.dirent])
    rw [L.status, hfeed, endStatus, endStatus, all_valid_cons hvalid, ite_self, hmore,
      if_neg (show q.accepted ++ [row.dirent] ++ more ≠ q.accepted by simp)]
  · rw [hfilter]
    exact L.heads own hown
  · rw [hfilter, sight_cons hvalid, hshown, Option.toList_some, ← List.append_assoc]
    exact L.rest
  · rw [intact_cons hvalid] at hr
    rcases List.mem_cons.mp hr with rfl | hr
    · exact L.mono _ (hentered howner)
    · rw [hfeed] at hfed
      exact L.full hfed howner r hr hnamed

end Row

theorem dbQuery_listed (hsorted : rows.Pairwise fun r s => r.position < s.position)
    (hpos : ∀ row ∈ rows, 0 ≤ row.position ∧ resume off q.accepted ≤ row.position)
    (hheads : ∀ own ∈ owner, Heads ctx own (known q.dentryMap) rows) :
    Listed ctx callback owner off rows q
      (dbQuery (bookmarkListCb ctx owner.isSome callback) rows q) := by
  induction rows generalizing q with
  | nil =>
    refine ⟨rfl, ?_, fun _ => rfl, hheads, le_rfl, fun _ => id, rfl, nofun⟩
    exact (if_pos rfl).symm
  | cons row rows ih =>
    obtain ⟨hrow0, hrow⟩ := hpos row List.mem_cons_self
    obtain ⟨hafter, hsorted⟩ := List.pairwise_cons.mp hsorted
    rw [dbQuery]
    by_cases hvalid : isValidId row.id = true
    swap
    · have hbad : isValidId row.id = false := by simpa using hvalid
      have hstop : bookmarkListCb ctx owner.isSome callback q row =
          (true, { q with status := some (.error .io) }) := if_pos hbad
      rw [hstop, if_pos rfl]
      exact listed_broken callback hbad (fun r hr => (hpos r hr).2) hheads
    obtain ⟨map', hunchecked, hmono, ⟨hshown, hrun, hsame, hentered⟩ | ⟨hshown, hreply, hrun, hsame⟩ |
      ⟨hshown, hreply, hrun, hheads'⟩⟩ :=
      bookmarkListCb_spec callback hheads hvalid hrow0
    · have hmap : ∀ own ∈ owner, Heads ctx own (known map') rows := fun own hown => by
        rw [hsame]
        exact (hheads own hown).tail hvalid (hentered (by rintro rfl; cases hown))
      rw [hrun, if_neg Bool.false_ne_true]
      exact Listed.hidden callback (ih hsorted (fun r hr => hpos r (List.mem_cons_of_mem row hr))
        hmap) hvalid hshown
        hunchecked hsame hentered
    · rw [hrun, if_pos rfl]
      exact listed_refused callback hvalid hshown hreply (fun r hr => (hpos r hr).2)
        hheads hunchecked hsame
    · have hnext : resume off (q.accepted ++ [row.dirent]) = row.position + 1 := resume_append _ _ _
      rw [hrun, if_neg Bool.false_ne_true]
      refine Listed.shown callback (ih hsorted (fun r hr => ⟨?_, hnext ▸ hafter r hr⟩)
        fun own hown => ?_) hvalid hshown
        hreply hrow hunchecked hmono fun howner => ?_
      · exact (hpos r (List.mem_cons_of_mem row hr)).1
      · exact (hheads' own hown).1
      · obtain ⟨own, hown⟩ := Option.ne_none_iff_exists'.mp howner
        exact (hheads' own hown).2

end Query

end BookmarkFS.Firefox
