import BookmarkFS.Firefox.Sharing

/-! # Repairing the names in a directory

`bookmark_check()` of the backend for Firefox with data, and all calls on an open
directory together. Which names are taken is only known from the map in the cookie.
-/
namespace BookmarkFS.Firefox
open Library
open Chromium (Errno FsckReport FsckResult validateFilename validateFilenameFsck
  validateFilenameFsck_none nameMax)

/-- `mozbm_get_title()`: the column, which may be NULL -/
def mozbmGetTitle (db : Db) (id parentId : ℤ) : Option (Option Bytes) :=
  (db.bookmarks.find? fun b => bound id = some b.id ∧ bound parentId = some b.parent).map (·.title)

/-- `mozbm_check_cb()`: whether the bookmark is to be repaired -/
def mozbmCheckCb (id : ℤ) (dentryMap : Option DentryMap) (title : Option Bytes) :
    Except Errno Bool :=
  let name := title.getD []
  if validateFilename name ≠ none then .ok true
  else
    match dentryMap with
    | none => .ok false
    | some map => if map name = none ∨ map name = some id then .error .noent else .ok true

/-- `fsck_apply()`: the status, the report made, if one is, and the database and the
map afterwards. -/
def fsckApply (db : Db) (parentId id : ℤ) (name : CString) (callback : FsckReport → ℤ)
    (dentryMap : Option DentryMap) : (Except Errno ℤ × List FsckReport) × Db × Option DentryMap :=
  match mozbmGetTitle db id parentId with
  | none => ((.error .stale, []), db, dentryMap)
  | some title =>
    match mozbmCheckCb id dentryMap title with
    | .error err => ((.error err, []), db, dentryMap)
    | .ok false => ((.ok 0, []), db, dentryMap)
    | .ok true =>
      let name := name.val.take (nameMax + 1)
      -- Only a negative status of the callback is returned.
      let reported (report : FsckReport) :=
        ((.ok (min (callback report) 0), [report]), db, dentryMap)
      match validateFilenameFsck name with
      | some (result, extra) => reported ⟨result, id.toNat, extra, name⟩
      | none =>
        match dentryMap.bind fun map => map name with
        | some owner => reported ⟨.nameDuplicate, id.toNat, owner.toNat, name⟩
        | none =>
          ((.ok 0, []), updateBookmarks db (·.id = id) fun b => { b with title := some name },
            some (Function.update (dentryMap.getD fun _ => none) name (some id)))

/-- `bookmark_check()` with data -/
def bookmarkCheckApply (db : Db) (ctx : Ctx) (parentId : ℤ) (type : BookmarkType) (id : ℤ)
    (name : CString) (callback : FsckReport → ℤ) (cookie : Option ListCookie) :
    (Except Errno ℤ × List FsckReport) × Db × Option ListCookie :=
  if type = .keyword ∨ type = .tag ∧ parentId ≠ ctx.tagsRootId then ((.error .perm, []), db, cookie)
  else
    let (reply, db, dentryMap) := fsckApply db parentId id name callback (cookie.bind (·.dentryMap))
    (reply, db, some ⟨dentryMap, (cookie.map (·.idx)).getD 0⟩)

/-- An open directory, and the database -/
structure Session where
  db : Db
  dir : DirState

inductive RepairCall where
  | plain (call : DirCall)
  | apply (id : ℤ) (name : CString) (callback : FsckReport → ℤ)

/-- The reports that a call makes, and what it leaves -/
def RepairCall.run (ctx : Ctx) (parentId : ℤ) (type : BookmarkType) (s : Session) :
    RepairCall → List FsckReport × Session
  | .plain call =>
    let (reply, dir) := call.run s.db ctx parentId type s.dir
    (match reply with
      | .listed _ => []
      | .reported reports => reports, { s with dir := dir })
  | .apply id name callback =>
    let ((_, reports), db, cookie) :=
      bookmarkCheckApply s.db ctx parentId type id name callback s.dir.cookie
    (reports, ⟨db, ⟨cookie, s.dir.off⟩⟩)

/-- All runs of calls on a directory that has been opened, where nobody else writes -/
def session (db : Db) (ctx : Ctx) (parentId : ℤ) (type : BookmarkType) :
    System Session RepairCall Errno where
  init s := s = ⟨db, .opened⟩
  legal _ _ := True
  step s call := .ok (call.run ctx parentId type s).2

/-! ## What is on record -/

/-- Each name in the map is the title of the child that it is recorded for. -/
def Recorded (db : Db) (parentId : ℤ) (map : DentryMap) : Prop :=
  ∀ name id, map name = some id → validateFilename name = none ∧
    ∃ b ∈ db.children parentId, b.id = id ∧ b.title.getD [] = name

/-- The call proposes the name for the bookmark. -/
def RepairCall.Proposes (id : ℤ) (name : Bytes) : RepairCall → Prop
  | .plain _ => False
  | .apply id' name' _ => id = id' ∧ name = name'.val.take (nameMax + 1)

/-- A report on the title of a child, or on a name that has been proposed for it: it is not valid,
or it is the title of another child. -/
def Db.Founded (db : Db) (parentId : ℤ) (call : RepairCall) (report : FsckReport) : Prop :=
  ∃ b ∈ db.children parentId, ∃ name, (name = b.title.getD [] ∨ call.Proposes b.id name) ∧
    report.id = b.id.toNat ∧ report.name = cstr name ∧
      (validateFilenameFsck name = some (report.result, report.extra) ∨
        validateFilename name = none ∧ ∃ c ∈ db.children parentId, c.id ≠ b.id ∧
        c.title.getD [] = name ∧
          report.result = .nameDuplicate ∧ report.extra = c.id.toNat)

variable {db db' : Db} {ctx : Ctx} {parentId : ℤ} {type : BookmarkType} {map : DentryMap}
  {row : ListRow} {call : RepairCall}

theorem Recorded.getD {dentryMap : Option DentryMap}
    (h : ∀ map ∈ dentryMap, Recorded db parentId map) :
    Recorded db parentId (dentryMap.getD fun _ => none) := by
  cases dentryMap with
  | none =>
    intro name id hname
    cases hname
  | some map => exact h map rfl

theorem Recorded.update (h : Recorded db parentId map) {b : MozBookmark}
    (hb : b ∈ db.children parentId) (hvalid : validateFilename (b.title.getD []) = none) :
    Recorded db parentId (Function.update map (b.title.getD []) (some b.id)) := by
  intro name id hname
  by_cases hsame : name = b.title.getD []
  · rw [hsame, Function.update_self] at hname
    exact ⟨hsame ▸ hvalid, b, hb, Option.some.inj hname, hsame.symm⟩
  · rw [Function.update_of_ne hsame] at hname
    exact h name id hname

theorem dbQuery_holds {σ ρ : Type} {rowFunc : σ → ρ → Bool × σ} {P : σ → Prop} {rows : List ρ}
    (hstep : ∀ row ∈ rows, ∀ s, P s → P (rowFunc s row).2) {s : σ} (hs : P s) :
    P (dbQuery rowFunc rows s) := by
  induction rows generalizing s with
  | nil => exact hs
  | cons row rows ih =>
    have hrow := hstep row List.mem_cons_self s hs
    rw [dbQuery]
    split
    · exact hrow
    · exact ih (fun row hrow => hstep row (List.mem_cons_of_mem _ hrow)) hrow

/-- A scan records titles, and makes reports that are founded. -/
theorem bookmarkCheckCb_founded (callback : FsckReport → ℤ) {b : MozBookmark}
    (hb : b ∈ db.children parentId)
    (hid : row.id = b.id) (hname : row.name = b.title) (q : CheckState)
    (hq : (∀ map ∈ q.dentryMap, Recorded db parentId map) ∧ ∀ report ∈ q.reports,
      db.Founded parentId call report) :
    (∀ map ∈ (bookmarkCheckCb callback q row).2.dentryMap, Recorded db parentId map) ∧
      ∀ report ∈ (bookmarkCheckCb callback q row).2.reports, db.Founded parentId call report := by
  obtain ⟨hmap, hreports⟩ := hq
  have hfound : ∀ {report}, db.Founded parentId call report →
      ∀ report' ∈ q.reports ++ [report], db.Founded parentId call report' := by
    intro report hreport report' hmem
    obtain hmem | hmem := List.mem_append.mp hmem
    · exact hreports report' hmem
    · rwa [List.mem_singleton.mp hmem]
  simp only [bookmarkCheckCb, hname]
  split_ifs
  · exact ⟨hmap, hreports⟩
  · exact ⟨hmap, hreports⟩
  · exact ⟨hmap, hreports⟩
  cases hvalid : validateFilenameFsck (b.title.getD []) with
  | some reason =>
    exact ⟨hmap, hfound ⟨b, hb, _, .inl rfl, congrArg Int.toNat hid, rfl, .inl hvalid⟩⟩
  | none =>
    cases hq : q.dentryMap with
    | none => exact ⟨fun map h => hmap map (hq ▸ h), hreports⟩
    | some map =>
      have hrecorded := hmap map hq
      dsimp only
      cases howner : map (b.title.getD []) with
      | none =>
        refine ⟨fun map' h => ?_, hreports⟩
        obtain rfl := Option.some.inj h
        rw [hid]
        exact hrecorded.update hb (validateFilenameFsck_none.mp hvalid)
      | some owner =>
        dsimp only
        split
        · exact ⟨fun map h => hmap map (hq ▸ h), hreports⟩
        next hother =>
          obtain ⟨-, c, hc, rfl, htitle⟩ := hrecorded _ _ howner
          exact ⟨fun map h => hmap map (hq ▸ h),
            hfound ⟨b, hb, _, .inl rfl, congrArg Int.toNat hid, rfl,
            .inr ⟨validateFilenameFsck_none.mp hvalid, c, hc, fun h => hother (h.trans hid.symm),
            htitle, rfl, rfl⟩⟩⟩

/-- A listing records titles. -/
theorem bookmarkListCb_recorded (check : Bool) (callback : ListCallback) {b : MozBookmark}
    (hb : b ∈ db.children parentId) (hid : row.id = b.id) (hname : row.name = b.title)
    (q : ListState) (hq : ∀ map ∈ q.dentryMap, Recorded db parentId map) :
    ∀ map ∈ (bookmarkListCb ctx check callback q row).2.dentryMap, Recorded db parentId map := by
  have hstart : ∀ map ∈ some (q.dentryMap.getD fun _ => none), Recorded db parentId map := by
    intro map h
    exact Option.some.inj h ▸ Recorded.getD hq
  simp only [bookmarkListCb, hname, hid]
  by_cases hvalid : validateFilename (b.title.getD []) = none
  swap
  · rw [if_pos hvalid]
    split_ifs <;> exact hq
  rw [if_neg (not_not.mpr hvalid)]
  cases check with
  | false =>
    simp only [Bool.false_eq_true, false_and, if_false]
    split_ifs <;> exact hq
  | true =>
    simp only [true_and, if_true]
    split_ifs
    · exact hq
    · exact hq
    · exact hq
    · exact hstart
    · exact hstart
    · intro map h
      obtain rfl := Option.some.inj h
      exact (Recorded.getD hq).update hb hvalid
    · exact hstart

/-! ## What a repair changes -/

/-- A title that calls for a repair: it is not valid, or another child has it. -/
def Db.Bad (db : Db) (parentId : ℤ) (b : MozBookmark) : Prop :=
  validateFilename (b.title.getD []) ≠ none ∨
    ∃ c ∈ db.children parentId, c.id ≠ b.id ∧ c.title.getD [] = b.title.getD []

/-- The database with another title for a bookmark -/
def retitled (db : Db) (id : ℤ) (name : Bytes) : Db :=
  updateBookmarks db (·.id = id) fun b => { b with title := some name }

theorem mozbmGetTitle_some {id : ℤ} {title : Option Bytes}
    (h : mozbmGetTitle db id parentId = some title) :
    ∃ b ∈ db.children parentId, b.id = id ∧ b.title = title := by
  obtain ⟨b, hfind, htitle⟩ := Option.map_eq_some_iff.mp h
  have hmatch : bound id = some b.id ∧ bound parentId = some b.parent := by
    simpa using List.find?_some hfind
  obtain ⟨-, hid⟩ := bound_eq_some.mp hmatch.1
  obtain ⟨-, hparent⟩ := bound_eq_some.mp hmatch.2
  exact ⟨b, mem_children.mpr ⟨List.mem_of_find?_eq_some hfind, hparent.symm⟩, hid.symm, htitle⟩

/-- What is to be repaired is not on record, and its title is bad. -/
theorem mozbmCheckCb_true {dentryMap : Option DentryMap} (hkeys : db.KeysUnique)
    (hmap : ∀ map ∈ dentryMap, Recorded db parentId map) {b : MozBookmark}
    (hb : b ∈ db.children parentId) (h : mozbmCheckCb b.id dentryMap b.title = .ok true) :
    db.Bad parentId b ∧ ∀ map ∈ dentryMap, ∀ name, map name ≠ some b.id := by
  rw [mozbmCheckCb.eq_def] at h
  have howned : ∀ map ∈ dentryMap, ∀ name, map name = some b.id →
      validateFilename (b.title.getD []) = none ∧ map (b.title.getD []) = some b.id := by
    intro map hmem name hname
    obtain ⟨hvalid, c, hc, hid, rfl⟩ := hmap map hmem name b.id hname
    obtain rfl := hkeys.eq_of_id (mem_children.mp hc).1 (mem_children.mp hb).1 hid
    exact ⟨hvalid, hname⟩
  by_cases hvalid : validateFilename (b.title.getD []) = none
  swap
  · exact ⟨.inl hvalid, fun map hmem name hname => hvalid (howned map hmem name hname).1⟩
  dsimp only at h
  rw [if_neg (not_not.mpr hvalid)] at h
  cases dentryMap with
  | none => cases h
  | some map =>
    dsimp only at h
    split at h
    · cases h
    next hother =>
    rw [not_or] at hother
    obtain ⟨owner, howner⟩ := Option.ne_none_iff_exists'.mp hother.1
    obtain ⟨-, c, hc, rfl, htitle⟩ := hmap map rfl _ owner howner
    refine ⟨.inr ⟨c, hc, fun hid => hother.2 (hid ▸ howner), htitle⟩,
      fun map' hmem name hname => ?_⟩
    obtain rfl := Option.some.inj hmem
    exact hother.2 (howned map rfl name hname).2

theorem cstr_take (name : CString) (n : ℕ) : cstr (name.val.take n) = name.val.take n := by
  refine List.takeWhile_eq_self_iff.mpr fun c hc => decide_eq_true ?_
  rintro rfl
  exact name.property (List.mem_of_mem_take hc)

/-- A repair either makes nothing but a founded report, or gives a bad title's place to
a valid one. -/
theorem fsckApply_cases {dentryMap : Option DentryMap} (hkeys : db.KeysUnique)
    (hmap : ∀ map ∈ dentryMap, Recorded db parentId map) (id : ℤ) (name : CString)
    (callback : FsckReport → ℤ) :
    (∃ status reports, fsckApply db parentId id name callback dentryMap =
      ((status, reports), db, dentryMap) ∧
      ∀ report ∈ reports, db.Founded parentId (.apply id name callback) report) ∨
    ∃ b ∈ db.children parentId, ∃ title, db.Bad parentId b ∧ validateFilename title = none ∧
      (∀ map ∈ dentryMap, ∀ name, map name ≠ some b.id) ∧ known dentryMap title = none ∧
      fsckApply db parentId id name callback dentryMap = ((.ok 0, []), retitled db b.id title,
        some (Function.update (dentryMap.getD fun _ => none) title (some b.id))) := by
  rw [fsckApply]
  cases htitle : mozbmGetTitle db id parentId with
  | none => exact .inl ⟨_, [], rfl, fun _ hmem => absurd hmem List.not_mem_nil⟩
  | some title =>
    obtain ⟨b, hb, rfl, rfl⟩ := mozbmGetTitle_some htitle
    dsimp only
    cases hcheck : mozbmCheckCb b.id dentryMap b.title with
    | error err => exact .inl ⟨_, [], rfl, fun _ hmem => absurd hmem List.not_mem_nil⟩
    | ok due =>
    cases due with
    | false => exact .inl ⟨_, [], rfl, fun _ hmem => absurd hmem List.not_mem_nil⟩
    | true =>
      obtain ⟨hbad, hnone⟩ := mozbmCheckCb_true hkeys hmap hb hcheck
      dsimp only
      cases hvalid : validateFilenameFsck (name.val.take (nameMax + 1)) with
      | some reason =>
        refine .inl ⟨_, _, rfl, fun report hmem => ?_⟩
        obtain rfl := List.mem_singleton.mp hmem
        exact ⟨b, hb, _, .inr ⟨rfl, rfl⟩, rfl, (cstr_take name _).symm, .inl hvalid⟩
      | none =>
        dsimp only
        cases howner : dentryMap.bind fun map => map (name.val.take (nameMax + 1)) with
        | some owner =>
          refine .inl ⟨_, _, rfl, fun report hmem => ?_⟩
          obtain rfl := List.mem_singleton.mp hmem
          obtain ⟨map, hsome, hname⟩ := Option.bind_eq_some_iff.mp howner
          obtain ⟨-, c, hc, rfl, hsame⟩ := hmap map hsome _ owner hname
          exact ⟨b, hb, _, .inr ⟨rfl, rfl⟩, rfl, (cstr_take name _).symm,
            .inr ⟨validateFilenameFsck_none.mp hvalid,
            c, hc, fun hid => hnone map hsome _ (hid ▸ hname), hsame, rfl, rfl⟩⟩
        | none =>
          refine .inr ⟨b, hb, _, hbad, validateFilenameFsck_none.mp hvalid, hnone, ?_, rfl⟩
          cases dentryMap with
          | none => rfl
          | some map => exact howner

theorem retitled_keys (h : db.KeysUnique) (id : ℤ) (name : Bytes) :
    (retitled db id name).KeysUnique := by
  have hids : (retitled db id name).bookmarks.map (·.id) = db.bookmarks.map (·.id) := by
    rw [retitled, updateBookmarks, List.map_map]
    refine List.map_congr_left fun b _ => ?_
    rw [Function.comp_apply]
    split <;> rfl
  rw [Db.KeysUnique, hids]
  exact h

theorem mem_retitled {b c : MozBookmark} (hc : c ∈ db.children parentId) (hne : c.id ≠ b.id)
    (name : Bytes) :
    c ∈ (retitled db b.id name).children parentId := by
  obtain ⟨hc, hparent⟩ := mem_children.mp hc
  refine mem_children.mpr ⟨List.mem_map.mpr ⟨c, hc, ?_⟩, hparent⟩
  rw [if_neg (by simpa using hne)]

theorem mem_retitled_self {b : MozBookmark} (hb : b ∈ db.children parentId) (name : Bytes) :
    { b with title := some name } ∈ (retitled db b.id name).children parentId := by
  obtain ⟨hb, hparent⟩ := mem_children.mp hb
  refine mem_children.mpr ⟨List.mem_map.mpr ⟨b, hb, ?_⟩, hparent⟩
  rw [if_pos (by simp)]

theorem Recorded.retitled (h : Recorded db parentId map) {b : MozBookmark}
    (hb : b ∈ db.children parentId) (hnone : ∀ name, map name ≠ some b.id) {title : Bytes}
    (hvalid : validateFilename title = none) :
    Recorded (retitled db b.id title) parentId (Function.update map title (some b.id)) := by
  have hkept : Recorded (Firefox.retitled db b.id title) parentId map := by
    intro name id hname
    obtain ⟨hvalid, c, hc, rfl, htitle⟩ := h name id hname
    exact ⟨hvalid, c, mem_retitled hc (fun hid => hnone name (hid ▸ hname)) title, rfl, htitle⟩
  exact hkept.update (mem_retitled_self hb title) hvalid

/-! ## Runs -/

/-- What a call may leave: all as it has been, or another title for a child that has
had a bad one. -/
inductive Db.Repairs (db : Db) (parentId : ℤ) : Db → Prop
  | none : Db.Repairs db parentId db
  | retitled {b : MozBookmark} {title : Bytes} : b ∈ db.children parentId → db.Bad parentId b →
    validateFilename title = none → Db.Repairs db parentId (retitled db b.id title)

theorem dbQuery_titled {σ : Type} {rowFunc : σ → ListRow → Bool × σ} {P : σ → Prop}
    (htype : Titled ctx parentId type) (off : ℤ) (withStat : Bool)
    (hstep : ∀ row : ListRow, ∀ b ∈ db.children parentId, row.id = b.id → row.name = b.title →
      ∀ q, P q → P (rowFunc q row).2) {q : σ} (hq : P q) :
    P (dbQuery rowFunc (listRows db ctx parentId off type withStat) q) := by
  refine dbQuery_holds (fun row hrow q => ?_) hq
  obtain ⟨b, hb, -, rfl⟩ := (mem_listRows htype).mp hrow
  exact hstep _ b hb rfl rfl q

/-- Each call makes founded reports, repairs at most a bad title, and records what is there. -/
theorem RepairCall.run_cases (htype : Titled ctx parentId type) {s : Session}
    (hkeys : s.db.KeysUnique)
    (hmap : ∀ map ∈ s.dir.map, Recorded s.db parentId map) (call : RepairCall) :
    (∀ report ∈ (call.run ctx parentId type s).1, s.db.Founded parentId call report) ∧
      s.db.Repairs parentId (call.run ctx parentId type s).2.db ∧
      ∀ map ∈ (call.run ctx parentId type s).2.dir.map,
      Recorded (call.run ctx parentId type s).2.db parentId map := by
  have hsilent : ∀ report ∈ ([] : List FsckReport), s.db.Founded parentId call report :=
    fun _ hmem => absurd hmem List.not_mem_nil
  cases call with
  | plain call =>
    cases call with
    | list restart withStat callback =>
      refine ⟨hsilent, .none, ?_⟩
      refine dbQuery_titled (P := fun q => ∀ map ∈ q.dentryMap,
        Recorded s.db parentId map) htype _ _
        (fun row b hb hid hname q => bookmarkListCb_recorded _ callback hb hid hname q) ?_
      dsimp only
      split_ifs
      · exact fun _ hmem => absurd hmem (Option.not_mem_none _)
      · exact hmap
      · exact fun _ hmem => absurd hmem (Option.not_mem_none _)
      · exact hmap
    | next callback =>
      have hscan := dbQuery_titled (P := fun q : CheckState => (∀ map ∈ q.dentryMap,
        Recorded s.db parentId map) ∧
          ∀ report ∈ q.reports, s.db.Founded parentId (.plain (.next callback)) report)
        (q := ⟨s.dir.map, s.dir.idx, .ok 0, []⟩) htype s.dir.idx false
        (fun row b hb hid hname q => bookmarkCheckCb_founded callback hb hid hname q)
          ⟨hmap, hsilent⟩
      rw [RepairCall.run, DirCall.run, bookmarkCheck, if_neg (not_denied htype)]
      exact ⟨hscan.2, .none, hscan.1⟩
    | rewind =>
      rw [RepairCall.run, DirCall.run, bookmarkCheck, if_neg (not_denied htype)]
      exact ⟨hsilent, .none, fun _ hmem => absurd hmem (Option.not_mem_none _)⟩
  | apply id name callback =>
    rw [RepairCall.run, bookmarkCheckApply, if_neg (not_denied htype)]
    obtain ⟨status, reports, hrun, hfounded⟩ | ⟨b, hb, title, hbad, hvalid, hnone, -, hrun⟩ :=
      fsckApply_cases hkeys hmap id name callback
    · rw [DirState.map] at hrun
      rw [hrun]
      exact ⟨hfounded, .none, hmap⟩
    · rw [DirState.map] at hrun
      rw [hrun]
      refine ⟨hsilent, .retitled hb hbad hvalid, fun map hmem => ?_⟩
      obtain rfl := Option.some.inj hmem
      refine Recorded.retitled (Recorded.getD hmap) hb (fun nm hname => ?_) hvalid
      cases hown : s.dir.cookie.bind (·.dentryMap) with
      | none =>
        rw [DirState.map, hown] at hname
        cases hname
      | some map =>
        rw [DirState.map, hown] at hname
        exact hnone map hown nm hname

/-- The databases differ in titles of children only, and where they do, the new title is valid. -/
def Db.Retitled (db : Db) (parentId : ℤ) (db' : Db) : Prop :=
  ∃ title : MozBookmark → Option Bytes,
    db' = { db with bookmarks := db.bookmarks.map fun b => { b with title := title b } } ∧
      ∀ b ∈ db.bookmarks, title b = b.title ∨
        b.parent = parentId ∧ ∃ name, title b = some name ∧ validateFilename name = none

theorem Db.Retitled.refl (db : Db) (parentId : ℤ) : db.Retitled parentId db :=
  ⟨(·.title), by simp, fun _ _ => .inl rfl⟩

theorem Db.Retitled.step {db₀ : Db} (hkeys : db.KeysUnique) (h : db₀.Retitled parentId db)
    (hstep : db.Repairs parentId db') : db₀.Retitled parentId db' := by
  cases hstep with
  | none => exact h
  | @retitled b name hb hbad hvalid =>
  obtain ⟨title, rfl, htitle⟩ := h
  obtain ⟨hmem, hparent⟩ := mem_children.mp hb
  refine ⟨fun c => if c.id = b.id then some name else title c, ?_, fun c hc => ?_⟩
  · rw [Firefox.retitled, updateBookmarks, List.map_map]
    refine congrArg (fun rows => { db₀ with bookmarks := rows }) (List.map_congr_left fun c _ => ?_)
    rw [Function.comp_apply]
    by_cases hid : c.id = b.id
    · simp [hid]
    · simp [hid]
  · by_cases hid : c.id = b.id
    swap
    · dsimp only
      rw [if_neg hid]
      exact htitle c hc
    · have hsame := hkeys.eq_of_id (b := { c with title := title c })
        (List.mem_map_of_mem hc) hmem hid
      refine .inr ⟨?_, name, if_pos hid, hvalid⟩
      rw [← hparent, ← hsame]

/-- What holds throughout a run -/
structure Session.Sound (db₀ : Db) (parentId : ℤ) (s : Session) : Prop where
  keys : s.db.KeysUnique
  recorded : ∀ map ∈ s.dir.map, Recorded s.db parentId map
  retitled : db₀.Retitled parentId s.db

theorem session_sound (htype : Titled ctx parentId type) (hkeys : db.KeysUnique) :
    (session db ctx parentId type).Invariant (Session.Sound db parentId) where
  init s := by
    rintro rfl
    exact ⟨hkeys, fun _ hmem => absurd hmem (Option.not_mem_none _), .refl _ _⟩
  step s call s' h _ hstep := by
    obtain rfl := Except.ok.inj hstep
    obtain ⟨-, hrepairs, hrecorded⟩ := RepairCall.run_cases htype h.keys h.recorded call
    refine ⟨?_, hrecorded, h.retitled.step h.keys hrepairs⟩
    generalize (call.run ctx parentId type s).2.db = db' at hrepairs ⊢
    cases hrepairs with
    | none => exact h.keys
    | retitled hb hbad hvalid => exact retitled_keys h.keys _ _

/-- In every run of listings, scans, rewinds and repairs on an open directory, each report is
right: the name is not valid, or it is the title of another child, which the report names. -/
theorem reports_founded (htype : Titled ctx parentId type) (hkeys : db.KeysUnique) {s : Session}
    (hreach : (session db ctx parentId type).Reachable s) (call : RepairCall) :
    ∀ report ∈ (call.run ctx parentId type s).1, s.db.Founded parentId call report := by
  have hsound := hreach.holds (session_sound htype hkeys)
  exact (call.run_cases htype hsound.keys hsound.recorded).1

theorem zero_not_mem_letter : (0 : UInt8) ∉ [97] := by decide

/-- The name of the other child is proposed, after a listing. -/
def proposal : RepairCall := .apply 3 ⟨[97], zero_not_mem_letter⟩ fun _ => 0

theorem slashed_keys : slashed.KeysUnique := by unfold Db.KeysUnique; decide

def listed : Session :=
  ((RepairCall.plain (.list true false fun _ _ => 0)).run ⟨1, 0, false,
    true⟩ 1 .bookmark ⟨slashed, .opened⟩).2

theorem listed_reachable : (session slashed ⟨1, 0, false, true⟩ 1 .bookmark).Reachable listed :=
  (System.Reachable.init rfl).step trivial rfl

/-- The proposal is reported as a duplicate, and is one. -/
theorem reports_founded_listed :
    (proposal.run ⟨1, 0, false, true⟩ 1 .bookmark listed).1 = [⟨.nameDuplicate, 3, 2, [97]⟩] ∧
      listed.db.Founded 1 proposal ⟨.nameDuplicate, 3, 2, [97]⟩ := by
  have hrun : (proposal.run ⟨1, 0, false, true⟩ 1 .bookmark listed).1 =
    [⟨.nameDuplicate, 3, 2, [97]⟩] := by
    decide +kernel
  have hright := reports_founded (.inl rfl) slashed_keys listed_reachable proposal
  exact ⟨hrun, hright _ (by rw [hrun]; exact List.mem_singleton_self _)⟩

/-- In every such run, nothing but titles of children changes, to valid ones, and no call takes a
valid title from a child that has it alone. -/
theorem good_titles_kept (htype : Titled ctx parentId type) (hkeys : db.KeysUnique) {s : Session}
    (hreach : (session db ctx parentId type).Reachable s) :
    db.Retitled parentId s.db ∧ ∀ call : RepairCall, ∀ b ∈ s.db.bookmarks,
      (b.parent = parentId → validateFilename (b.title.getD []) = none ∧
        ∀ c ∈ s.db.children parentId, c.title.getD [] = b.title.getD [] → c.id = b.id) →
      b ∈ (call.run ctx parentId type s).2.db.bookmarks := by
  have hsound := hreach.holds (session_sound htype hkeys)
  refine ⟨hsound.retitled, fun call b hb hgood => ?_⟩
  obtain ⟨-, hrepairs, -⟩ := call.run_cases htype hsound.keys hsound.recorded
  generalize (call.run ctx parentId type s).2.db = db' at hrepairs
  cases hrepairs with
  | none => exact hb
  | @retitled c title hc hbad hvalid =>
  obtain ⟨hmem, hparent⟩ := mem_children.mp hc
  have hne : b.id ≠ c.id := by
    intro hid
    obtain rfl := hsound.keys.eq_of_id hb hmem hid
    obtain ⟨hvalid, hown⟩ := hgood hparent
    obtain hinvalid | ⟨d, hd, hother, hsame⟩ := hbad
    · exact hinvalid hvalid
    · exact hother (hown d hd hsame)
  exact List.mem_map.mpr ⟨b, hb, if_neg (by simpa using hne)⟩

/-- A name with a slash gets another, and its neighbour keeps its own. -/
theorem good_titles_kept_listed : ∃ s : Session,
    (session slashed ⟨1, 0, false, true⟩ 1 .bookmark).Reachable s ∧
    slashed.Retitled 1 s.db ∧ s.db.bookmarks.map (·.title) = [some [97], some [99]] ∧
      ⟨2, 1, some 1, 1, 0, some [97], 0, 0⟩ ∈ s.db.bookmarks := by
  let call : RepairCall := .apply 3 ⟨[99], by decide⟩ fun _ => 0
  have hreach := listed_reachable.step (l := call) trivial rfl
  obtain ⟨-, hkept⟩ := good_titles_kept (.inl rfl) slashed_keys listed_reachable
  refine ⟨_, hreach, (good_titles_kept (.inl rfl) slashed_keys hreach).1, by decide +kernel, ?_⟩
  exact hkept call _ (by decide +kernel) fun _ => ⟨by decide, by decide +kernel⟩

/-! ## Repairs after a listing -/

def Filled (db : Db) (parentId : ℤ) (dentryMap : Option DentryMap) : Prop :=
  ∀ b ∈ db.children parentId, validateFilename (b.title.getD []) = none →
    known dentryMap (b.title.getD []) ≠ none

/-- A listing from the start on that shows all entries -/
def readThrough : RepairCall := .plain (.list true false fun _ _ => 0)

/-- All runs of scans and repairs after a listing -/
def afterListing (db : Db) (ctx : Ctx) (parentId : ℤ) : System Session RepairCall Errno where
  init s := s = (readThrough.run ctx parentId .bookmark ⟨db, .opened⟩).2
  legal _ call := match call with
    | .plain (.next _) | .apply .. => True
    | _ => False
  step s call := .ok (call.run ctx parentId .bookmark s).2

/-- A row that a listing does not stop at, nor skips but for its name -/
def ListRow.Sound (ctx : Ctx) (row : ListRow) : Prop :=
  isValidId row.id = true ∧ row.id ≠ ctx.tagsRootId ∧ 0 ≤ row.position

theorem bookmarkListCb_fills (hrow : row.Sound ctx) (q : ListState) :
    (bookmarkListCb ctx true (fun _ _ => 0) q row).1 = false ∧
      (∀ name, known q.dentryMap name ≠ none →
        known (bookmarkListCb ctx true (fun _ _ => 0) q row).2.dentryMap name ≠ none) ∧
      (validateFilename (row.name.getD []) = none →
        known (bookmarkListCb ctx true (fun _ _ => 0) q row).2.dentryMap (row.name.getD []) ≠ none) := by
  obtain ⟨hid, htags, hpos⟩ := hrow
  rw [bookmarkListCb, if_neg (by simp [hid]), if_neg htags, if_neg (not_lt.mpr hpos)]
  dsimp only
  by_cases hvalid : validateFilename (row.name.getD []) = none
  swap
  · rw [if_pos hvalid]
    exact ⟨rfl, fun _ h => h, fun h => absurd h hvalid⟩
  rw [if_neg (not_not.mpr hvalid)]
  simp only [if_true, true_and, ne_eq, not_true, if_false]
  cases hdentry : q.dentryMap.getD (fun _ => none) (row.name.getD []) with
  | some owner =>
    simp only [reduceCtorEq, not_false_eq_true, true_and, if_false]
    split
    · exact ⟨rfl, fun _ h => h, fun _ => by rw [known, Option.getD_some, hdentry]; simp⟩
    · exact ⟨rfl, fun _ h => h, fun _ => by rw [known, Option.getD_some, hdentry]; simp⟩
  | none =>
    simp only [not_true, false_and, if_false, if_true]
    refine ⟨trivial, fun name h => ?_, fun _ => by rw [known, Option.getD_some, Function.update_self]; simp⟩
    rw [known, Option.getD_some]
    by_cases hsame : name = row.name.getD []
    · rw [hsame, Function.update_self]
      simp
    · rw [Function.update_of_ne hsame]
      exact h

/-- A listing puts the names of all rows on record. -/
theorem dbQuery_fills {rows : List ListRow} (hrows : ∀ row ∈ rows, row.Sound ctx) (q : ListState) :
    (∀ name, known q.dentryMap name ≠ none →
      known (dbQuery (bookmarkListCb ctx true fun _ _ => 0) rows q).dentryMap name ≠ none) ∧
      ∀ row ∈ rows, validateFilename (row.name.getD []) = none →
        known (dbQuery (bookmarkListCb ctx true fun _ _ => 0) rows q).dentryMap (row.name.getD []) ≠
        none := by
  induction rows generalizing q with
  | nil => exact ⟨fun _ h => h, fun _ hmem => absurd hmem List.not_mem_nil⟩
  | cons row rows ih =>
    obtain ⟨hgoes, hkeeps, hfills⟩ := bookmarkListCb_fills (hrows row List.mem_cons_self) q
    obtain ⟨hkept, hrest⟩ := ih (fun row hmem => hrows row (List.mem_cons_of_mem _ hmem))
      (bookmarkListCb ctx true (fun _ _ => 0) q row).2
    rw [dbQuery, if_neg (by rw [hgoes]; simp)]
    refine ⟨fun name h => hkept name (hkeeps name h), fun row' hmem hvalid => ?_⟩
    obtain rfl | hmem := List.mem_cons.mp hmem
    · exact hkept _ (hfills hvalid)
    · exact hrest row' hmem hvalid

theorem readThrough_filled (hcheck : ctx.assumeTitleDistinct = false)
    (hrows : ∀ b ∈ db.children parentId, isValidId b.id = true ∧ b.id ≠ ctx.tagsRootId ∧
      0 ≤ b.position) :
    Filled db parentId (readThrough.run ctx parentId .bookmark ⟨db, .opened⟩).2.dir.map := by
  have hchecked : checkName ctx .bookmark = true := by simp [checkName, hcheck]
  have hsound : ∀ row ∈ listRows db ctx parentId 0 .bookmark false, row.Sound ctx := by
    intro row hrow
    obtain ⟨b, hb, -, rfl⟩ := (mem_listRows (.inl rfl)).mp hrow
    exact hrows b hb
  intro b hb hvalid
  have hrow : db.listRow false b.title b ∈ listRows db ctx parentId 0 .bookmark false :=
    (mem_listRows (.inl rfl)).mpr ⟨b, hb, (hrows b hb).2.2, rfl⟩
  have hfills := (dbQuery_fills hsound ⟨none, none, []⟩).2 _ hrow hvalid
  rw [← hchecked] at hfills
  exact hfills

/-- A scan gives up no name. -/
theorem bookmarkCheckCb_known (callback : FsckReport → ℤ) (q : CheckState) {name : Bytes}
    (h : known q.dentryMap name ≠ none) :
    known (bookmarkCheckCb callback q row).2.dentryMap name ≠ none := by
  simp only [bookmarkCheckCb]
  split_ifs
  · exact h
  · exact h
  · exact h
  cases validateFilenameFsck (row.name.getD []) with
  | some reason => exact h
  | none =>
    cases hmap : q.dentryMap with
    | none =>
      rw [hmap] at h
      exact absurd rfl h
    | some map =>
      rw [hmap] at h
      dsimp only
      cases howner : map (row.name.getD []) with
      | none =>
        have hne : name ≠ row.name.getD [] := by
          rintro rfl
          exact h howner
        rw [known, Option.getD_some, Function.update_of_ne hne]
        exact h
      | some owner =>
        dsimp only
        split <;> exact h

theorem of_mem_retitled {b c : MozBookmark} {title : Bytes}
    (hc : c ∈ (retitled db b.id title).children parentId) :
    c ∈ db.children parentId ∧ c.id ≠ b.id ∨ c.id = b.id ∧ c.title.getD [] = title := by
  obtain ⟨hc, hparent⟩ := mem_children.mp hc
  obtain ⟨d, hd, rfl⟩ := List.mem_map.mp hc
  by_cases hid : d.id = b.id
  · rw [if_pos (by simpa using hid)]
    exact .inr ⟨hid, rfl⟩
  · rw [if_neg (by simpa using hid)] at hparent ⊢
    exact .inl ⟨mem_children.mpr ⟨hd, hparent⟩, hid⟩

/-- Children that share a valid title have been there before. -/
def Db.Undoubled (db : Db) (parentId : ℤ) (db' : Db) : Prop :=
  ∀ b ∈ db'.children parentId, ∀ c ∈ db'.children parentId, b.id ≠ c.id →
    validateFilename (b.title.getD []) = none → b.title.getD [] = c.title.getD [] →
      b ∈ db.children parentId ∧ c ∈ db.children parentId

theorem Filled.retitled {dentryMap : Option DentryMap} (h : Filled db parentId dentryMap)
    {b : MozBookmark} {title : Bytes} : Filled (retitled db b.id title) parentId
      (some (Function.update (known dentryMap) title (some b.id))) := by
  intro c hc hvalid
  rw [known, Option.getD_some]
  by_cases hsame : c.title.getD [] = title
  · rw [hsame, Function.update_self]
    simp
  rw [Function.update_of_ne hsame]
  obtain ⟨hold, -⟩ | ⟨-, htitle⟩ := of_mem_retitled hc
  · exact h c hold hvalid
  · exact absurd htitle hsame

theorem Db.Undoubled.retitled {db₀ : Db} {dentryMap : Option DentryMap}
    (h : db₀.Undoubled parentId db)
    (hfilled : Filled db parentId dentryMap) {b : MozBookmark} {title : Bytes}
    (hnew : known dentryMap title = none) : db₀.Undoubled parentId (retitled db b.id title) := by
  intro c hc d hd hne hvalid hsame
  obtain ⟨hc', -⟩ | ⟨hcid, hctitle⟩ := of_mem_retitled hc <;> obtain ⟨hd', -⟩ | ⟨hdid, hdtitle⟩ :=
    of_mem_retitled hd
  · exact h c hc' d hd' hne hvalid hsame
  · exact absurd (hsame ▸ hdtitle ▸ hnew) (hfilled c hc' hvalid)
  · refine absurd ?_ (hfilled d hd' (hsame ▸ hvalid))
    rw [← hsame, hctitle]
    exact hnew
  · exact absurd (hcid.trans hdid.symm) hne

/-- What holds throughout a run after a listing -/
structure Session.Distinct (db₀ : Db) (parentId : ℤ) (s : Session) : Prop where
  keys : s.db.KeysUnique
  recorded : ∀ map ∈ s.dir.map, Recorded s.db parentId map
  filled : Filled s.db parentId s.dir.map
  undoubled : db₀.Undoubled parentId s.db

theorem afterListing_distinct (hkeys : db.KeysUnique) (hcheck : ctx.assumeTitleDistinct = false)
    (hrows : ∀ b ∈ db.children parentId, isValidId b.id = true ∧ b.id ≠ ctx.tagsRootId ∧
      0 ≤ b.position) :
    (afterListing db ctx parentId).Invariant (Session.Distinct db parentId) where
  init s := by
    rintro rfl
    have htype : Titled ctx parentId .bookmark := .inl rfl
    have hlisted := RepairCall.run_cases htype (s := ⟨db, .opened⟩) hkeys
      (fun _ hmem => absurd hmem (Option.not_mem_none _)) readThrough
    exact ⟨hkeys, hlisted.2.2, readThrough_filled hcheck hrows, fun b hb c hc _ _ _ => ⟨hb, hc⟩⟩
  step s call s' h hlegal hstep := by
    obtain rfl := Except.ok.inj hstep
    have htype : Titled ctx parentId .bookmark := .inl rfl
    obtain ⟨-, -, hrecorded⟩ := RepairCall.run_cases htype h.keys h.recorded call
    cases call with
    | plain call =>
      cases call with
      | list restart withStat callback => cases hlegal
      | rewind => cases hlegal
      | next callback =>
        refine ⟨h.keys, hrecorded, fun b hb hvalid => ?_, h.undoubled⟩
        rw [RepairCall.run, DirCall.run, bookmarkCheck, if_neg (not_denied htype)]
        exact dbQuery_holds (P := fun q : CheckState => known q.dentryMap (b.title.getD []) ≠ none)
          (fun row _ q hq => bookmarkCheckCb_known callback q hq) (h.filled b hb hvalid)
    | apply id name callback =>
      rw [RepairCall.run, bookmarkCheckApply, if_neg (not_denied htype)] at hrecorded ⊢
      obtain ⟨status, reports, hrun, -⟩ | ⟨b, hb, title, -, hvalid, -, hnew, hrun⟩ :=
        fsckApply_cases h.keys h.recorded id name callback
      · rw [DirState.map] at hrun
        rw [hrun] at hrecorded ⊢
        exact ⟨h.keys, hrecorded, h.filled, h.undoubled⟩
      · rw [DirState.map] at hrun
        rw [hrun] at hrecorded ⊢
        exact ⟨retitled_keys h.keys _ _, hrecorded, h.filled.retitled,
          h.undoubled.retitled h.filled hnew⟩

/-- Where all rows of a directory have been listed with the cookie, no run of scans and repairs
gives a child the title of another: those that share a valid title are as they have been. -/
theorem no_duplicate_made (hkeys : db.KeysUnique) (hcheck : ctx.assumeTitleDistinct = false)
    (hrows : ∀ b ∈ db.children parentId, isValidId b.id = true ∧ b.id ≠ ctx.tagsRootId ∧
      0 ≤ b.position)
    {s : Session} (hreach : (afterListing db ctx parentId).Reachable s) :
    db.Undoubled parentId s.db :=
  (hreach.holds (afterListing_distinct hkeys hcheck hrows)).undoubled

/-- The listing stands in the way of the proposal, but not of another. -/
theorem no_duplicate_made_listed : ∃ s : Session,
    (afterListing slashed ⟨1, 0, false, true⟩ 1).Reachable s ∧
    slashed.Undoubled 1 s.db ∧ s.db.bookmarks.map (·.title) = [some [97], some [99]] := by
  have hlisted : (afterListing slashed ⟨1, 0, false, true⟩ 1).Reachable listed := .init rfl
  have hproposed := hlisted.step (l := proposal) (by exact trivial) rfl
  have hreach := hproposed.step (l := RepairCall.apply 3 ⟨[99], by decide⟩ fun _ => 0)
    (by exact trivial) rfl
  exact ⟨_, hreach, no_duplicate_made slashed_keys rfl (by decide +kernel) hreach, by
    decide +kernel⟩

/-- Without it, the proposal is accepted. -/
example : (proposal.run ⟨1, 0, false, true⟩ 1 .bookmark ⟨slashed, .opened⟩).2.db.bookmarks.map
  (·.title) =
    [some [97], some [97]] := by
  decide +kernel

end BookmarkFS.Firefox
