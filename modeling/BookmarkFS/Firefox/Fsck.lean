import BookmarkFS.Firefox.Listing

/-! # Checking a directory

`bookmark_check()` of the backend for Firefox without data. The scan goes on
from a position in the cookie, and consults the map of names there, which it
never creates.
-/
namespace BookmarkFS.Firefox
open Library
open Chromium (Errno FsckReport FsckResult validateFilename validateFilenameFsck)

/-- What a scan keeps in `struct bm_list_ctx`. -/
structure CheckState where
  dentryMap : Option DentryMap
  next : ℤ
  status : Except Errno ℤ
  reports : List FsckReport

/-- A row of type 3, where no attributes are asked for. -/
def ListRow.isSeparator (row : ListRow) : Bool := row.valueLen = -2

/-- `bookmark_check_cb()` -/
def bookmarkCheckCb (callback : FsckReport → ℤ) (q : CheckState) (row : ListRow) :
    Bool × CheckState :=
  let found (q : CheckState) (report : FsckReport) : Bool × CheckState :=
    (callback report ≠ 0,
      { q with status := .ok (callback report), reports := q.reports ++ [report] })
  if isValidId row.id = false then (true, { q with status := .error .io })
  else if row.position < 0 then (true, { q with status := .error .io })
  else
    let q := { q with next := row.position + 1 }
    if row.isSeparator then (false, q)
    else
      let name := row.name.getD []
      match validateFilenameFsck name with
      -- Only valid names shall be inserted into dentry map.
      | some (result, extra) => found q ⟨result, row.id.toNat, extra, cstr name⟩
      | none =>
        match q.dentryMap with
        | none => (false, q)
        | some map =>
          match map name with
          | none => (false, { q with dentryMap := some (Function.update map name (some row.id)) })
          | some id =>
            if id = row.id then (false, q)
            else found q ⟨.nameDuplicate, row.id.toNat, id.toNat, cstr name⟩

/-- `bookmark_check()` without data, with the cookie at `cookie_ptr`: the status, the reports made,
and the cookie afterwards. No callback stands for `fsck_rewind`. -/
def bookmarkCheck (db : Db) (ctx : Ctx) (parentId : ℤ) (type : BookmarkType)
    (callback : Option (FsckReport → ℤ)) (cookie : Option ListCookie) :
    (Except Errno ℤ × List FsckReport) × Option ListCookie :=
  if type = .keyword ∨ type = .tag ∧ parentId ≠ ctx.tagsRootId then ((.error .perm, []), cookie)
  else
    match callback with
    | none => ((.ok 0, []), some ⟨none, 0⟩)
    | some callback =>
      let idx := (cookie.map (·.idx)).getD 0
      let q := dbQuery (bookmarkCheckCb callback) (listRows db ctx parentId idx type false)
        ⟨cookie.bind (·.dentryMap), idx, .ok 0, []⟩
      ((q.status, q.reports), some ⟨q.dentryMap, q.next⟩)

/-! ## What a scan reports -/

/-- The report on a row whose name is not valid. -/
def ListRow.badName (row : ListRow) : Option FsckReport :=
  if row.isSeparator then none
  else (validateFilenameFsck (row.name.getD [])).map fun (result, extra) =>
    ⟨result, row.id.toNat, extra, cstr (row.name.getD [])⟩

def ListRow.entered (row : ListRow) : Bool :=
  !row.isSeparator && validateFilename (row.name.getD []) = none

/-- A scan that reports the invalid names only: the status, where to go on, and the reports. -/
def scan (callback : FsckReport → ℤ) : List ListRow → ℤ → Except Errno ℤ × ℤ × List FsckReport
  | [], next => (.ok 0, next, [])
  | row :: rows, next =>
    if isValidId row.id = false then (.error .io, next, [])
    else
      match row.badName with
      | none => scan callback rows (row.position + 1)
      | some report =>
        if callback report ≠ 0 then (.ok (callback report), row.position + 1, [report])
        else
          let (status, next, reports) := scan callback rows (row.position + 1)
          (status, next, report :: reports)

/-- The names in a map belong to their owners, and those of the rows to the rows. -/
def Quiet (own : DentryMap) (map : Option DentryMap) (rows : List ListRow) : Prop :=
  ∀ m ∈ map, (∀ name id, m name = some id → own name = some id) ∧
    ∀ row ∈ intact rows, row.entered = true → own (row.name.getD []) = some row.id

variable (callback : FsckReport → ℤ) {own : DentryMap} {q : CheckState} {row : ListRow}
  {rows : List ListRow}

/-- Where no name belongs to another row, a scan reports the invalid names. -/
theorem bookmarkCheckCb_quiet (hquiet : Quiet own q.dentryMap (row :: rows))
    (hvalid : isValidId row.id = true) (hpos : 0 ≤ row.position) :
    ∃ map', Quiet own map' rows ∧ (q.dentryMap = none → map' = none) ∧
      bookmarkCheckCb callback q row = match row.badName with
        | none => (false, { q with dentryMap := map', next := row.position + 1 })
        | some report => (callback report ≠ 0, ⟨map', row.position + 1, .ok (callback report),
            q.reports ++ [report]⟩) := by
  have hintact : intact (row :: rows) = row :: intact rows := intact_cons hvalid
  have hkeep : Quiet own q.dentryMap rows := fun m hm =>
    ⟨(hquiet m hm).1, fun r hr => (hquiet m hm).2 r (hintact ▸ List.mem_cons_of_mem row hr)⟩
  rw [bookmarkCheckCb]
  simp only [hvalid, Bool.true_eq_false, if_false, if_neg hpos.not_gt]
  by_cases hsep : row.isSeparator = true
  · refine ⟨q.dentryMap, hkeep, id, ?_⟩
    rw [ListRow.badName, if_pos hsep, if_pos hsep]
  rw [ListRow.badName, if_neg hsep, if_neg hsep]
  cases hname : validateFilenameFsck (row.name.getD []) with
  | some reason => exact ⟨q.dentryMap, hkeep, id, rfl⟩
  | none =>
    have hentered : row.entered = true := by
      simpa [ListRow.entered, hsep, validateFilenameFsck] using hname
    simp only [Option.map_none]
    cases hmap : q.dentryMap with
    | none => exact ⟨none, nofun, fun _ => rfl, rfl⟩
    | some map =>
      obtain ⟨hle, howns⟩ := hquiet map hmap
      have hown := howns row (hintact ▸ List.mem_cons_self) hentered
      rw [hmap] at hkeep
      dsimp only
      cases hfound : map (row.name.getD []) with
      | some id =>
        obtain rfl : id = row.id := Option.some.inj ((hle _ _ hfound).symm.trans hown)
        exact ⟨some map, hkeep, nofun, if_pos rfl⟩
      | none =>
        refine ⟨_, ?_, nofun, rfl⟩
        rintro m ⟨⟩
        refine ⟨fun name id h => ?_, (hkeep map rfl).2⟩
        by_cases hsame : name = row.name.getD []
        · rw [hsame, Function.update_self] at h
          rw [hsame, hown, h]
        · rw [Function.update_of_ne hsame] at h
          exact hle name id h

/-- Where no name belongs to another row, what a scan does depends on where it goes on only. -/
theorem dbQuery_quiet (hquiet : Quiet own q.dentryMap rows) (hpos : ∀ row ∈ rows, 0 ≤ row.position)
    (hstatus : q.status = .ok 0) :
    ∃ map', (∀ m ∈ map', ∀ name id, m name = some id → own name = some id) ∧
      (q.dentryMap = none → map' = none) ∧
      dbQuery (bookmarkCheckCb callback) rows q = ⟨map', (scan callback rows q.next).2.1,
        (scan callback rows q.next).1, q.reports ++ (scan callback rows q.next).2.2⟩ := by
  induction rows generalizing q with
  | nil =>
    refine ⟨q.dentryMap, fun m hm => (hquiet m hm).1, id, ?_⟩
    rw [dbQuery, scan, List.append_nil, ← hstatus]
  | cons row rows ih =>
    rw [dbQuery, scan]
    by_cases hvalid : isValidId row.id = true
    swap
    · have hbad : isValidId row.id = false := by simpa using hvalid
      refine ⟨q.dentryMap, fun m hm => (hquiet m hm).1, id, ?_⟩
      have hstop : bookmarkCheckCb callback q row = (true, { q with status := .error .io }) :=
        if_pos hbad
      rw [hstop, if_pos rfl, if_pos hbad, List.append_nil]
    have hgood : ¬isValidId row.id = false := by rw [hvalid]; decide
    rw [if_neg hgood]
    obtain ⟨map', hquiet', hnone, hrun⟩ := bookmarkCheckCb_quiet callback hquiet hvalid
      (hpos row List.mem_cons_self)
    rw [hrun]
    have hpos := fun r hr => hpos r (List.mem_cons_of_mem row hr)
    cases hbad : row.badName with
    | none =>
      obtain ⟨map'', hle, hnone', hrest⟩ :=
        ih (q := { q with dentryMap := map', next := row.position + 1 }) hquiet' hpos hstatus
      exact ⟨map'', hle, fun h => hnone' (hnone h), hrest⟩
    | some report =>
      by_cases hreply : callback report = 0
      · obtain ⟨map'', hle, hnone', hrest⟩ :=
          ih (q := ⟨map', row.position + 1, .ok (callback report), q.reports ++ [report]⟩)
            hquiet' hpos
            (by rw [hreply])
        refine ⟨map'', hle, fun h => hnone' (hnone h), ?_⟩
        simp only [hreply, ne_eq, not_true, decide_false, Bool.false_eq_true, if_false] at hrest ⊢
        rw [hrest, List.append_assoc, List.singleton_append]
      · refine ⟨map', fun m hm => (hquiet' m hm).1, hnone, ?_⟩
        simp only [ne_eq, hreply, not_false_eq_true, decide_true, if_true]

/-- The reports on invalid names, up to the first row that is broken. -/
def badNames (rows : List ListRow) : List FsckReport :=
  (intact rows).filterMap (·.badName)

theorem badNames_cons (hvalid : isValidId row.id = true) :
    badNames (row :: rows) = row.badName.toList ++ badNames rows := by
  rw [badNames, intact_cons hvalid, List.filterMap_cons, badNames]
  cases row.badName <;> rfl

/-- A scan reports an initial part of the invalid names, and goes on behind it. -/
theorem scan_spec (next : ℤ) (hsorted : rows.Pairwise fun r s => r.position < s.position)
    (hnext : ∀ row ∈ rows, next ≤ row.position) :
    next ≤ (scan callback rows next).2.1 ∧
    (scan callback rows next).2.2 ++ badNames (rows.filter fun row =>
      (scan callback rows next).2.1 ≤ row.position) = badNames rows ∧
      ((scan callback rows next).2.2 = [] → badNames rows = []) := by
  induction rows generalizing next with
  | nil => exact ⟨le_rfl, rfl, fun _ => rfl⟩
  | cons row rows ih =>
    obtain ⟨hafter, hsorted⟩ := List.pairwise_cons.mp hsorted
    have hrow := hnext row List.mem_cons_self
    rw [scan]
    by_cases hvalid : isValidId row.id = true
    swap
    · have hbad : isValidId row.id = false := by simpa using hvalid
      have hnone : badNames (row :: rows) = [] := by
        rw [badNames, intact_cons_of_broken hbad]
        rfl
      rw [if_pos hbad, List.filter_eq_self.mpr fun r hr => decide_eq_true (hnext r hr)]
      exact ⟨le_rfl, rfl, fun _ => hnone⟩
    rw [if_neg (by rw [hvalid]; decide), badNames_cons hvalid]
    obtain ⟨hle, happend, hdone⟩ := ih (row.position + 1) hsorted hafter
    have hdrop : ∀ n, row.position + 1 ≤ n → ((row :: rows).filter fun r => n ≤ r.position) =
        rows.filter fun r => n ≤ r.position := fun n hn =>
      List.filter_cons_of_neg (by simpa using hn)
    cases row.badName with
    | none =>
      dsimp only
      rw [hdrop _ hle]
      exact ⟨hrow.trans (le_trans (by omega) hle), happend, hdone⟩
    | some report =>
      by_cases hreply : callback report = 0
      · simp only [hreply, ne_eq, not_true, if_false]
        rw [hdrop _ hle, List.cons_append, happend]
        exact ⟨hrow.trans (le_trans (by omega) hle), rfl, nofun⟩
      · simp only [ne_eq, hreply, not_false_eq_true, if_true]
        rw [hdrop _ le_rfl, List.filter_eq_self.mpr fun r hr => decide_eq_true
          (Int.add_one_le_of_lt (hafter r hr))]
        exact ⟨by omega, rfl, nofun⟩

/-- Where a scan goes on: where it began, or behind a row. -/
theorem scan_next (callback : FsckReport → ℤ) (rows : List ListRow) (next : ℤ) :
    (scan callback rows next).2.1 = next ∨
      ∃ row ∈ intact rows, (scan callback rows next).2.1 = row.position + 1 := by
  induction rows generalizing next with
  | nil => exact .inl rfl
  | cons row rows ih =>
    rw [scan]
    by_cases hvalid : isValidId row.id = true
    swap
    · rw [if_pos (by simpa using hvalid)]
      exact .inl rfl
    rw [if_neg (by rw [hvalid]; decide), intact_cons hvalid]
    refine .inr ?_
    have hrest : ∃ r ∈ row :: intact rows,
        (scan callback rows (row.position + 1)).2.1 = r.position + 1 := by
      rcases ih (row.position + 1) with h | ⟨r, hr, h⟩
      · exact ⟨row, List.mem_cons_self, h⟩
      · exact ⟨r, List.mem_cons_of_mem row hr, h⟩
    cases row.badName with
    | none => exact hrest
    | some report =>
      dsimp only
      split
      · exact ⟨row, List.mem_cons_self, rfl⟩
      · exact hrest

/-! ## Scans of a whole directory -/

/-- The reports made by the first `n` calls on a fresh cookie, and the cookie afterwards. -/
def scanCalls (db : Db) (ctx : Ctx) (parentId : ℤ) (type : BookmarkType)
    (callbacks : ℕ → FsckReport → ℤ) : ℕ → List FsckReport × Option ListCookie
  | 0 => ([], none)
  | n + 1 =>
    let (reports, cookie) := scanCalls db ctx parentId type callbacks n
    let ((_, more), cookie) := bookmarkCheck db ctx parentId type (some (callbacks n)) cookie
    (reports ++ more, cookie)

/-- The reports made by one call after `n` others. -/
def scanCall (db : Db) (ctx : Ctx) (parentId : ℤ) (type : BookmarkType)
    (callbacks : ℕ → FsckReport → ℤ) (n : ℕ) : List FsckReport :=
  (bookmarkCheck db ctx parentId type (some (callbacks n))
    (scanCalls db ctx parentId type callbacks n).2).1.2

/-- A scan until a call reports nothing reports `reports`. -/
def ScanReports (db : Db) (ctx : Ctx) (parentId : ℤ) (type : BookmarkType)
    (callbacks : ℕ → FsckReport → ℤ) (reports : List FsckReport) : Prop :=
  ∃ n, scanCall db ctx parentId type callbacks n = [] ∧
    (∀ k < n, scanCall db ctx parentId type callbacks k ≠ []) ∧
    (scanCalls db ctx parentId type callbacks n).1 = reports

section Scan

variable {db : Db} {ctx : Ctx} {parentId : ℤ} {type : BookmarkType} (callbacks : ℕ → FsckReport → ℤ)

theorem not_denied (htype : Titled ctx parentId type) :
    ¬(type = .keyword ∨ type = .tag ∧ parentId ≠ ctx.tagsRootId) := by
  obtain rfl | ⟨rfl, hroot⟩ := htype
  · rintro (h | ⟨h, -⟩) <;> cases h
  · rintro (h | ⟨-, h⟩)
    · cases h
    · exact h hroot

theorem bookmarkCheck_fresh (htype : Titled ctx parentId type) {idx : ℤ} (hidx : 0 ≤ idx)
    {cookie : Option ListCookie} (hmap : cookie.bind (·.dentryMap) = none)
    (hcookie : (cookie.map (·.idx)).getD 0 = idx) (callback : FsckReport → ℤ) :
    bookmarkCheck db ctx parentId type (some callback) cookie =
      let (status, next, reports) := scan callback (listRows db ctx parentId idx type false) idx
      ((status, reports), some ⟨none, next⟩) := by
  rw [bookmarkCheck, if_neg (not_denied htype)]
  dsimp only
  rw [hmap, hcookie]
  obtain ⟨map', -, hnone, hrun⟩ := dbQuery_quiet callback (q := ⟨none, idx, .ok 0, []⟩)
    (show Quiet (fun _ => none) none (listRows db ctx parentId idx type false) from nofun)
    (fun row hrow => hidx.trans (listRows_le htype row hrow)) rfl
  rw [hrun, hnone rfl, List.nil_append]

variable (htype : Titled ctx parentId type) (hkeys : db.KeysUnique)
  (hdistinct : db.PositionsDistinct parentId)

include htype hkeys hdistinct

/-- What has been reported and what there is to report from the cookie on is the whole. -/
theorem scanCalls_spec (n : ℕ) :
    let cookie := (scanCalls db ctx parentId type callbacks n).2
    cookie.bind (·.dentryMap) = none ∧ 0 ≤ (cookie.map (·.idx)).getD 0 ∧
      (scanCalls db ctx parentId type callbacks n).1 ++
        badNames (listRows db ctx parentId ((cookie.map (·.idx)).getD 0) type false) =
      badNames (listRows db ctx parentId 0 type false) := by
  induction n with
  | zero => exact ⟨rfl, le_rfl, rfl⟩
  | succ n ih =>
    obtain ⟨hmap, hidx, hrest⟩ := ih
    obtain ⟨hle, happend, -⟩ := scan_spec (callbacks n) _
      (listRows_sorted htype hkeys hdistinct _ false) (fun row hrow => listRows_le htype row hrow)
    rw [listRows_filter htype hle] at happend
    rw [scanCalls]
    dsimp only
    rw [bookmarkCheck_fresh htype hidx hmap rfl]
    exact ⟨rfl, hidx.trans hle, by rw [List.append_assoc]; exact happend ▸ hrest⟩

theorem scanCall_nil {n : ℕ} (h : scanCall db ctx parentId type callbacks n = []) :
    (scanCalls db ctx parentId type callbacks n).1 =
    badNames (listRows db ctx parentId 0 type false) := by
  obtain ⟨hmap, hidx, hrest⟩ := scanCalls_spec callbacks htype hkeys hdistinct n
  obtain ⟨-, -, hdone⟩ := scan_spec (callbacks n) _
    (listRows_sorted htype hkeys hdistinct _ false) (fun row hrow => listRows_le htype row hrow)
  rw [scanCall, bookmarkCheck_fresh htype hidx hmap rfl] at h
  rw [← hrest, hdone h, List.append_nil]

/-- On a fresh cookie, whatever the callbacks return, what is reported are the invalid names up to
the first broken row. -/
theorem scanReports_iff (reports : List FsckReport) :
    ScanReports db ctx parentId type callbacks reports ↔
      badNames (listRows db ctx parentId 0 type false) = reports := by
  constructor
  · rintro ⟨n, hnil, -, rfl⟩
    exact (scanCall_nil callbacks htype hkeys hdistinct hnil).symm
  · rintro rfl
    have hend : ∃ n, scanCall db ctx parentId type callbacks n = [] := by
      by_contra hall
      rw [not_exists] at hall
      have hgrow : ∀ n, n ≤ (scanCalls db ctx parentId type callbacks n).1.length := by
        intro n
        induction n with
        | zero => exact Nat.zero_le _
        | succ n ih =>
          have := List.length_pos_iff.mpr (hall n)
          rw [scanCalls]
          dsimp only
          rw [List.length_append]
          exact Nat.add_le_add ih this
      have hbound := congrArg List.length (scanCalls_spec callbacks htype hkeys hdistinct
        ((badNames (listRows db ctx parentId 0 type false)).length + 1)).2.2
      have := hgrow ((badNames (listRows db ctx parentId 0 type false)).length + 1)
      rw [List.length_append] at hbound
      omega
    refine ⟨Nat.find hend, Nat.find_spec hend, fun k hk => Nat.find_min hend hk, ?_⟩
    exact scanCall_nil callbacks htype hkeys hdistinct (Nat.find_spec hend)

end Scan

/-! ## What is to be reported -/

/-- The report that is due on a row, given the rows before it. -/
def reportAfter (before : List MozBookmark) (b : MozBookmark) : Option FsckReport :=
  let title := b.title.getD []
  if b.type = 3 then none
  else
    match validateFilenameFsck title with
    | some (result, extra) => some ⟨result, b.id.toNat, extra, cstr title⟩
    | none => (before.find? fun c => c.title.getD [] = title).map fun first =>
        ⟨.nameDuplicate, b.id.toNat, first.id.toNat, cstr title⟩

/-- The reports that are due on the rows of a directory, in their order. -/
def dueReports : List MozBookmark → List MozBookmark → List FsckReport
  | _, [] => []
  | before, b :: rest => (reportAfter before b).toList ++ dueReports (before ++ [b]) rest

/-- No title is a duplicate, and whatever has an invalid one can be reached. -/
structure Db.Checkable (db : Db) (parentId : ℤ) : Prop where
  titles : ∀ b ∈ db.children parentId, ∀ c ∈ db.children parentId, c.position < b.position →
    b.type ≠ 3 → validateFilename (b.title.getD []) = none → c.title.getD [] ≠ b.title.getD []
  reached : ∀ b ∈ db.children parentId, b.type ≠ 3 → validateFilename (b.title.getD []) ≠ none →
    db.Reached parentId b

section Due

variable {db : Db} {ctx : Ctx} {parentId : ℤ} {b : MozBookmark} {before rest : List MozBookmark}
  {report : FsckReport}

theorem mem_dueReports : report ∈ dueReports before rest ↔
    ∃ l₁ b l₂, rest = l₁ ++ b :: l₂ ∧ reportAfter (before ++ l₁) b = some report := by
  induction rest generalizing before with
  | nil => simp [dueReports]
  | cons c rest ih =>
    rw [dueReports, List.mem_append, Option.mem_toList, ih]
    constructor
    · rintro (h | ⟨l₁, b, l₂, rfl, h⟩)
      · exact ⟨[], c, rest, rfl, by rwa [List.append_nil]⟩
      · exact ⟨c :: l₁, b, l₂, rfl, by rwa [List.append_assoc] at h⟩
    · rintro ⟨l₁, b, l₂, heq, h⟩
      cases l₁ with
      | nil =>
        obtain ⟨rfl, rfl⟩ := List.cons.inj heq
        rw [List.append_nil] at h
        exact .inl h
      | cons d l₁ =>
        obtain ⟨rfl, rfl⟩ := List.cons.inj heq
        exact .inr ⟨l₁, b, l₂, rfl, by rwa [List.append_assoc]⟩

/-- The report on the name of a row, if it is invalid. -/
def Db.badName (db : Db) (b : MozBookmark) : Option FsckReport :=
  (db.listRow false b.title b).badName

theorem isSeparator_iff : (db.listRow false b.title b).isSeparator = true ↔ b.type = 3 := by
  simp only [ListRow.isSeparator, Db.listRow, Bool.false_eq_true, if_false, decide_eq_true_eq]
  omega

theorem badName_some (h : db.badName b = some report) :
    report.id = b.id.toNat ∧ report.result ≠ .nameDuplicate ∧ b.type ≠ 3 ∧
      validateFilename (b.title.getD []) ≠ none := by
  rw [Db.badName, ListRow.badName] at h
  split at h
  · cases h
  next hsep =>
    obtain ⟨⟨result, extra⟩, hname, rfl⟩ := Option.map_eq_some_iff.mp h
    obtain ⟨reason, hreason, hresult⟩ := Option.map_eq_some_iff.mp hname
    refine ⟨rfl, ?_, fun h => hsep (isSeparator_iff.mpr h), ?_⟩
    · cases reason <;> cases hresult <;> nofun
    · rw [show validateFilename (b.title.getD []) = some reason from hreason]
      exact Option.some_ne_none _

theorem reportAfter_invalid (hinvalid : validateFilename (b.title.getD []) ≠ none) :
    reportAfter before b = db.badName b := by
  obtain ⟨reason, hreason⟩ := Option.ne_none_iff_exists'.mp hinvalid
  rw [reportAfter, Db.badName, ListRow.badName]
  by_cases hsep : b.type = 3
  · rw [if_pos hsep, if_pos (isSeparator_iff.mpr hsep)]
  · rw [if_neg hsep, if_neg (mt isSeparator_iff.mp hsep)]
    simp only [Db.listRow, validateFilenameFsck, hreason]
    rfl

theorem reportAfter_eq (h : b.type ≠ 3 → validateFilename (b.title.getD []) = none →
    ∀ c ∈ before, c.title.getD [] ≠ b.title.getD []) : reportAfter before b = db.badName b := by
  by_cases hinvalid : validateFilename (b.title.getD []) = none
  swap
  · exact reportAfter_invalid hinvalid
  rw [reportAfter, Db.badName, ListRow.badName]
  by_cases hsep : b.type = 3
  · rw [if_pos hsep, if_pos (isSeparator_iff.mpr hsep)]
  · rw [if_neg hsep, if_neg (mt isSeparator_iff.mp hsep)]
    simp only [Db.listRow, validateFilenameFsck, hinvalid, Option.map_none]
    rw [List.find?_eq_none.mpr fun c hc => by simpa using h hsep hinvalid c hc]
    rfl

theorem dueReports_eq (h : ∀ l₁ b l₂, rest = l₁ ++ b :: l₂ → b.type ≠ 3 →
    validateFilename (b.title.getD []) = none →
    ∀ c ∈ before ++ l₁, c.title.getD [] ≠ b.title.getD []) :
    dueReports before rest = rest.filterMap db.badName := by
  induction rest generalizing before with
  | nil => rfl
  | cons b rest ih =>
    have hb := h [] b rest rfl
    rw [List.append_nil] at hb
    rw [dueReports, reportAfter_eq hb, List.filterMap_cons, ih]
    · cases db.badName b <;> rfl
    · rintro l₁ c l₂ rfl
      rw [List.append_assoc]
      exact h (b :: l₁) c l₂ rfl

variable (hkeys : db.KeysUnique) (hdistinct : db.PositionsDistinct parentId)

include hkeys hdistinct

theorem mem_before {l₁ l₂ : List MozBookmark} (hcut : db.children parentId = l₁ ++ b :: l₂)
    {c : MozBookmark} : c ∈ l₁ ↔ c ∈ db.children parentId ∧ c.position < b.position := by
  have hsorted := children_sorted hkeys hdistinct
  rw [hcut] at hsorted ⊢
  obtain ⟨-, hright, hleft⟩ := List.pairwise_append.mp hsorted
  constructor
  · exact fun hc => ⟨List.mem_append_left _ hc, hleft c hc b List.mem_cons_self⟩
  · rintro ⟨hc, hlt⟩
    rcases List.mem_append.mp hc with hc | hc
    · exact hc
    · rcases List.mem_cons.mp hc with rfl | hc
      · exact absurd hlt (lt_irrefl _)
      · exact absurd hlt (lt_asymm (List.rel_of_pairwise_cons hright hc))

theorem mem_scanned {rows : List MozBookmark} (hrows : rows = (db.children parentId).filter fun b =>
    (0 : ℤ) ≤ b.position) : b ∈ rows.takeWhile (fun b => isValidId b.id) ↔
    db.Reached parentId b := by
  have hmem : ∀ c, c ∈ rows ↔ c ∈ db.children parentId ∧ 0 ≤ c.position := fun c => by
    rw [hrows, List.mem_filter, decide_eq_true_iff]
  have hsorted : rows.Pairwise fun b c => b.position < c.position :=
    hrows ▸ (children_sorted hkeys hdistinct).filter _
  rw [mem_takeWhile_iff hsorted, hmem]
  constructor
  · rintro ⟨⟨hb, hpos⟩, hall⟩
    exact ⟨hb, hpos, fun c hc hcpos hle => hall c ((hmem c).mpr ⟨hc, hcpos⟩) hle⟩
  · rintro ⟨hb, hpos, hall⟩
    exact ⟨⟨hb, hpos⟩, fun c hc hle => hall c ((hmem c).mp hc).1 ((hmem c).mp hc).2 hle⟩

/-- A scan reports what is to be reported just if the directory is checkable. -/
theorem badNames_due_iff {type : BookmarkType} (htype : Titled ctx parentId type) :
    badNames (listRows db ctx parentId 0 type false) = dueReports [] (db.children parentId) ↔
      db.Checkable parentId := by
  set rows := (db.children parentId).filter fun b => (0 : ℤ) ≤ b.position with hrows
  have hscan : badNames (listRows db ctx parentId 0 type false) =
      (rows.takeWhile fun b => isValidId b.id).filterMap db.badName := by
    rw [badNames, intact, listRows_titled htype, List.takeWhile_map, List.filterMap_map]
    rfl
  rw [hscan]
  constructor
  · intro hsame
    have hdue : ∀ l₁ b l₂ report, db.children parentId = l₁ ++ b :: l₂ →
        reportAfter l₁ b = some report → ∃ c ∈ rows.takeWhile fun b => isValidId b.id,
          db.badName c = some report := fun l₁ b l₂ report hcut hreport =>
      List.mem_filterMap.mp (hsame ▸ mem_dueReports.mpr ⟨l₁, b, l₂, hcut, hreport⟩)
    constructor
    · intro b hb c hc hlt hsep hvalid htitle
      obtain ⟨l₁, l₂, hcut⟩ := List.append_of_mem hb
      have hfound : (l₁.find? fun c => c.title.getD [] = b.title.getD []).isSome = true :=
        List.find?_isSome.mpr ⟨c, (mem_before hkeys hdistinct hcut).mpr ⟨hc, hlt⟩, by
          simpa using htitle⟩
      obtain ⟨first, hfirst⟩ := Option.isSome_iff_exists.mp hfound
      obtain ⟨d, -, hd⟩ :=
        hdue l₁ b l₂ ⟨.nameDuplicate, b.id.toNat, first.id.toNat, cstr (b.title.getD [])⟩
        hcut (by simp only [reportAfter, if_neg hsep, validateFilenameFsck, hvalid,
          Option.map_none, hfirst,
          Option.map_some])
      exact (badName_some hd).2.1 rfl
    · intro b hb hsep hinvalid
      obtain ⟨l₁, l₂, hcut⟩ := List.append_of_mem hb
      have hbad : ∃ report, db.badName b = some report := by
        obtain ⟨reason, hreason⟩ := Option.ne_none_iff_exists'.mp hinvalid
        rw [Db.badName, ListRow.badName, if_neg (mt isSeparator_iff.mp hsep)]
        simp only [Db.listRow, validateFilenameFsck, hreason, Option.map_some]
        exact ⟨_, rfl⟩
      obtain ⟨report, hreport⟩ := hbad
      obtain ⟨c, hc, hsame⟩ :=
        hdue l₁ b l₂ report hcut ((reportAfter_invalid hinvalid).trans hreport)
      have hscanned := (mem_scanned hkeys hdistinct hrows).mp hc
      have hid : c.id = b.id := by
        have hcid := hscanned.intact c hscanned.child hscanned.nonneg le_rfl
        simp only [isValidId, Bool.and_eq_true, decide_eq_true_eq] at hcid
        have := (badName_some hsame).1.symm.trans (badName_some hreport).1
        omega
      obtain rfl := hkeys.eq_of_id (mem_children.mp hscanned.child).1 (mem_children.mp hb).1 hid
      exact hscanned
  · intro hcheck
    have hdue : dueReports [] (db.children parentId) = (db.children parentId).filterMap
      db.badName := by
      refine dueReports_eq fun l₁ b l₂ hcut hsep hvalid c hc => ?_
      have hb : b ∈ db.children parentId := hcut ▸ List.mem_append_right _ List.mem_cons_self
      obtain ⟨hc, hlt⟩ := (mem_before hkeys hdistinct hcut).mp hc
      exact hcheck.titles b hb c hc hlt hsep hvalid
    rw [hdue]
    -- What is not scanned has no invalid name.
    have hskip : ∀ (l : List MozBookmark) (p : MozBookmark → Bool),
        (∀ b ∈ l, db.badName b ≠ none → p b = true) → (l.filter p).filterMap db.badName =
          l.filterMap db.badName := by
      intro l p h
      rw [List.filterMap_filter]
      refine List.filterMap_congr fun b hb => ?_
      by_cases hpb : p b = true
      · rw [if_pos hpb]
      · rw [if_neg hpb]
        exact (not_not.mp fun hne => hpb (h b hb (Ne.symm hne)))
    have hreach : ∀ b ∈ db.children parentId, db.badName b ≠ none →
        b ∈ rows.takeWhile fun b => isValidId b.id := by
      intro b hb hne
      obtain ⟨report, hreport⟩ := Option.ne_none_iff_exists'.mp hne
      obtain ⟨-, -, hsep, hinvalid⟩ := badName_some hreport
      exact (mem_scanned hkeys hdistinct hrows).mpr (hcheck.reached b hb hsep hinvalid)
    have hrest : (rows.dropWhile fun b => isValidId b.id).filterMap db.badName = [] := by
      refine List.filterMap_eq_nil_iff.mpr fun b hb => not_not.mp fun hne => ?_
      have hbrow : b ∈ rows := (List.dropWhile_suffix _).subset hb
      have hnodup : rows.Nodup := hrows ▸ ((children_sorted hkeys hdistinct).imp
        fun h => (fun heq => absurd (heq ▸ h) (lt_irrefl _))).filter _
      rw [← List.takeWhile_append_dropWhile (p := fun b : MozBookmark => isValidId b.id)
        (l := rows)] at hnodup
      have hbchild := (List.mem_filter.mp (hrows ▸ hbrow)).1
      exact (List.disjoint_of_nodup_append hnodup) (hreach b hbchild hne) hb
    calc (rows.takeWhile fun b => isValidId b.id).filterMap db.badName
        = rows.filterMap db.badName := by
          conv_rhs => rw [← List.takeWhile_append_dropWhile (p := fun b : MozBookmark =>
            isValidId b.id)
            (l := rows)]
          rw [List.filterMap_append, hrest, List.append_nil]
      _ = (db.children parentId).filterMap db.badName := hskip _ _ fun b hb hne => by
          simpa using ((mem_scanned hkeys hdistinct hrows).mp (hreach b hb hne)).nonneg

end Due

/-- Scans on a fresh cookie report what is to be reported, whatever the callbacks return, just if no
title is a duplicate and whatever has an invalid one can be reached. -/
theorem scanReports_due_iff {db : Db} {ctx : Ctx} {parentId : ℤ} {type : BookmarkType}
    (htype : Titled ctx parentId type) (hkeys : db.KeysUnique)
    (hdistinct : db.PositionsDistinct parentId) :
    (∀ callbacks, ScanReports db ctx parentId type callbacks
      (dueReports [] (db.children parentId))) ↔
      db.Checkable parentId := by
  rw [← badNames_due_iff hkeys hdistinct htype]
  constructor
  · exact fun h => (scanReports_iff (fun _ _ => 0) htype hkeys hdistinct _).mp (h fun _ _ => 0)
  · exact fun h callbacks => (scanReports_iff callbacks htype hkeys hdistinct _).mpr h

/-- A folder whose second bookmark has a slash in its title. -/
def slashed : Db where
  bookmarks := [⟨2, 1, some 1, 1, 0, some [97], 0, 0⟩, ⟨3, 1, some 1, 1, 1, some [98, 47], 0, 0⟩]
  places := [⟨1, [], none, none, 2, 0, 1⟩]
  keywords := []
  keywordSeq := 0
  origins := []

/-- The title with a slash is reported. -/
theorem scanReports_due_slashed : ScanReports slashed ⟨1, 0, false, true⟩ 1 .bookmark (fun _ _ => 1)
    [⟨.nameBadChar, 3, 1, [98, 47]⟩] :=
  (scanReports_due_iff (.inl rfl) (by unfold Db.KeysUnique; decide)
    (by unfold Db.PositionsDistinct; decide)).mpr
    ⟨by decide, fun b hb _ _ => ⟨hb, by revert b; decide, by revert b; decide⟩⟩ _

/-- A folder with two bookmarks of one title. -/
def twice : Db where
  bookmarks := [⟨2, 1, some 1, 1, 0, some [97], 0, 0⟩, ⟨3, 1, some 1, 1, 1, some [97], 0, 0⟩]
  places := [⟨1, [], none, none, 2, 0, 1⟩]
  keywords := []
  keywordSeq := 0
  origins := []

/-- Of two bookmarks with one title, none is reported. -/
theorem duplicate_unreported :
    scanCall twice ⟨1, 0, false, true⟩ 1 .bookmark (fun _ _ => 1) 0 = [] ∧
      ¬ScanReports twice ⟨1, 0, false, true⟩ 1 .bookmark (fun _ _ => 1)
        (dueReports [] (twice.children 1)) := by
  have hnil : scanCall twice ⟨1, 0, false, true⟩ 1 .bookmark (fun _ _ => 1) 0 = [] := by decide
  refine ⟨hnil, ?_⟩
  rintro ⟨n, -, hfirst, hsame⟩
  cases n with
  | zero => exact absurd hsame (by decide)
  | succ n => exact hfirst 0 n.succ_pos hnil

end BookmarkFS.Firefox
