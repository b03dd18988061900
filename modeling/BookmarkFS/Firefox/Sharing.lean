import BookmarkFS.Firefox.Fsck
import BookmarkFS.Chromium.Calls
import BookmarkFS.Chromium.Sharing

/-! # A cookie that is shared

In the backend for Firefox, a listing and a scan on the same cookie share the
map of names: each fills, consults and frees it. They do not disturb each other
just if names are not checked, or no name is shared by two rows that matter.
-/
namespace BookmarkFS.Firefox
open Library Hopscotch
open Chromium (Errno FsckReport FsckResult validateFilename validateFilenameFsck)

/-- A call on an open directory. -/
inductive DirCall where
  /-- A page of a listing, which starts over or goes on behind the last entry accepted. -/
  | list (restart withStat : Bool) (callback : ListCallback)
  | next (callback : FsckReport → ℤ)
  | rewind

def DirCall.isList : DirCall → Bool
  | .list .. => true
  | _ => false

def DirCall.isCheck (call : DirCall) : Bool := !call.isList

structure DirState where
  cookie : Option ListCookie
  /-- Where the reader of the listing goes on. -/
  off : ℤ

/-- The entries that a call shows. -/
inductive DirReply where
  | listed (entries : List Dirent)
  | reported (reports : List FsckReport)

def DirState.opened : DirState := ⟨none, 0⟩

def DirCall.run (db : Db) (ctx : Ctx) (id : ℤ) (type : BookmarkType) (s : DirState) :
    DirCall → DirReply × DirState
  | .list restart withStat callback =>
    let off := if restart then 0 else s.off
    let ((_, accepted), cookie) := bookmarkList db ctx id off type withStat (some callback) s.cookie
    (.listed accepted, ⟨some cookie, resume off accepted⟩)
  | .next callback =>
    let ((_, reports), cookie) := bookmarkCheck db ctx id type (some callback) s.cookie
    (.reported reports, ⟨cookie, s.off⟩)
  | .rewind =>
    let ((_, reports), cookie) := bookmarkCheck db ctx id type none s.cookie
    (.reported reports, ⟨cookie, s.off⟩)

def DirState.map (s : DirState) : Option DentryMap := s.cookie.bind (·.dentryMap)

def DirState.idx (s : DirState) : ℤ := (s.cookie.map (·.idx)).getD 0

def MozBookmark.skipped (ctx : Ctx) (b : MozBookmark) : Bool := b.id = ctx.tagsRootId && b.type = 3

/-- No two rows that are reached, and not skipped by both calls, share a valid title. -/
def Db.Apart (db : Db) (ctx : Ctx) (parentId : ℤ) : Prop :=
  ∀ b c, db.Reached parentId b → db.Reached parentId c → b.skipped ctx = false →
    c.skipped ctx = false → validateFilename (b.title.getD []) = none →
    b.title.getD [] = c.title.getD [] → b.id = c.id

/-- The calls on one cookie, from the first on, do not disturb each other. -/
def Db.Undisturbed (db : Db) (ctx : Ctx) (id : ℤ) (type : BookmarkType) : Prop :=
  Library.Undisturbed (fun s call => DirCall.run db ctx id type s call) DirCall.isList .opened ∧
    Library.Undisturbed (fun s call => DirCall.run db ctx id type s call) DirCall.isCheck .opened

/-! ## Names that are not checked -/

section Unchecked

variable {db : Db} {ctx : Ctx} {id : ℤ} {type : BookmarkType} {s t : DirState}

theorem dbQuery_unchecked (callback : ListCallback) (rows : List ListRow) (q : ListState) :
    (dbQuery (bookmarkListCb ctx false callback) rows q).dentryMap = q.dentryMap := by
  have hstep : ∀ (q : ListState) row, (bookmarkListCb ctx false callback q row).2.dentryMap =
      q.dentryMap := by
    intro q row
    simp only [bookmarkListCb, Bool.false_eq_true, false_and, if_false, not_true, ne_eq]
    split_ifs <;> rfl
  induction rows generalizing q with
  | nil => rfl
  | cons row rows ih =>
    rw [dbQuery]
    split
    · exact hstep q row
    · rw [ih, hstep]

/-- A scan without a map does not create one. -/
theorem dbQuery_mapless (callback : FsckReport → ℤ) (rows : List ListRow) (q : CheckState)
    (hq : q.dentryMap = none) : (dbQuery (bookmarkCheckCb callback) rows q).dentryMap = none := by
  have hstep : ∀ (q : CheckState) row, q.dentryMap = none →
      (bookmarkCheckCb callback q row).2.dentryMap = none := by
    intro q row hq
    simp only [bookmarkCheckCb]
    split_ifs
    · exact hq
    · exact hq
    · exact hq
    · cases validateFilenameFsck (row.name.getD []) with
      | some reason => exact hq
      | none => simp only [hq]
  induction rows generalizing q with
  | nil => exact hq
  | cons row rows ih =>
    rw [dbQuery]
    split
    · exact hstep q row hq
    · exact ih _ (hstep q row hq)

variable (hcheck : checkName ctx type = false)

include hcheck

/-- Without a map, the two calls have nothing in common. -/
theorem run_mapless {call : DirCall} (hs : s.map = none) (ht : t.map = none) :
    (call.run db ctx id type s).2.map = none ∧
      (call.isList = true → s.off = t.off →
        (call.run db ctx id type s).1 = (call.run db ctx id type t).1 ∧
        (call.run db ctx id type s).2.off = (call.run db ctx id type t).2.off) ∧
      (call.isList = true → (call.run db ctx id type s).2.idx = s.idx) ∧
      (call.isList = false → s.idx = t.idx →
        (call.run db ctx id type s).1 = (call.run db ctx id type t).1 ∧
        (call.run db ctx id type s).2.idx = (call.run db ctx id type t).2.idx) ∧
      (call.isList = false → (call.run db ctx id type s).2.off = s.off) := by
  rw [DirState.map] at hs ht
  cases call with
  | list restart withStat callback =>
    simp only [DirCall.run, bookmarkList, hcheck, hs, ht, ite_self, DirState.map, DirState.idx]
    refine ⟨dbQuery_unchecked callback _ _, fun _ hoff => ?_, fun _ => rfl, fun h => (by cases h),
      fun h => by cases h⟩
    rw [hoff]
    exact ⟨rfl, rfl⟩
  | next callback =>
    simp only [DirCall.run, bookmarkCheck, DirState.map, DirState.idx]
    by_cases hdenied : type = .keyword ∨ type = .tag ∧ id ≠ ctx.tagsRootId
    · simp only [if_pos hdenied, hs]
      exact ⟨trivial, fun h => (by cases h), fun h => (by cases h), fun _ hidx => ⟨trivial, hidx⟩,
        fun _ => trivial⟩
    · simp only [if_neg hdenied, hs, ht]
      refine ⟨dbQuery_mapless callback _ _ rfl, fun h => (by cases h), fun h => (by cases h),
        fun _ hidx => ?_, fun _ => trivial⟩
      rw [hidx]
      exact ⟨rfl, rfl⟩
  | rewind =>
    simp only [DirCall.run, bookmarkCheck, DirState.map, DirState.idx]
    by_cases hdenied : type = .keyword ∨ type = .tag ∧ id ≠ ctx.tagsRootId
    · simp only [if_pos hdenied, hs]
      exact ⟨trivial, fun h => (by cases h), fun h => (by cases h), fun _ hidx => ⟨trivial, hidx⟩,
        fun _ => trivial⟩
    · simp only [if_neg hdenied]
      exact ⟨rfl, fun h => (by cases h), fun h => (by cases h), fun _ _ => ⟨trivial, trivial⟩,
        fun _ => trivial⟩

theorem undisturbed_unchecked : db.Undisturbed ctx id type := by
  have hlists : Apart (fun s call => DirCall.run db ctx id type s call) (·.map = none)
      DirCall.isList DirState.off :=
    ⟨fun call hs => (run_mapless hcheck hs hs).1,
      fun hmine hs ht hview => (run_mapless hcheck hs ht).2.1 hmine hview,
      fun hmine hs => (run_mapless hcheck hs hs).2.2.2.2 hmine⟩
  have hchecks : Apart (fun s call => DirCall.run db ctx id type s call) (·.map = none)
      DirCall.isCheck DirState.idx :=
    ⟨fun call hs => (run_mapless hcheck hs hs).1,
      fun hmine hs ht hview => (run_mapless hcheck hs ht).2.2.2.1
      (by simpa [DirCall.isCheck] using hmine)
        hview,
      fun hmine hs => (run_mapless hcheck hs hs).2.2.1 (by simpa [DirCall.isCheck] using hmine)⟩
  exact ⟨hlists.undisturbed rfl, hchecks.undisturbed rfl⟩

end Unchecked

/-! ## Names that are checked -/

section Listed

variable {db : Db} {ctx : Ctx} {id : ℤ} {type : BookmarkType} {own : DentryMap}

/-- A page of a listing, as a query. -/
theorem list_listed (htype : Titled ctx id type) (hkeys : db.KeysUnique)
    (hdistinct : db.PositionsDistinct id) (hcheck : checkName ctx type = true) (s : DirState)
    (restart withStat : Bool) (callback : ListCallback) {off : ℤ} {map : Option DentryMap}
    (hoff : (if restart then 0 else s.off) = off) (hpos : 0 ≤ off)
    (hmap : (if off = 0 then none else s.map) = map)
    (hheads : Heads ctx own (known map) (listRows db ctx id off type withStat)) :
    ∃ q, Listed ctx callback (some own) off (listRows db ctx id off type withStat)
    ⟨map, none, []⟩ q ∧
      (DirCall.list restart withStat callback).run db ctx id type s =
        (.listed q.accepted, ⟨some ⟨q.dentryMap, s.idx⟩, resume off q.accepted⟩) := by
  have L : Listed ctx callback (some own) off (listRows db ctx id off type withStat) ⟨map,
    none, []⟩ _ :=
    dbQuery_listed callback (listRows_sorted htype hkeys hdistinct off withStat)
    (fun row hrow => ⟨hpos.trans (listRows_le htype row hrow), listRows_le htype row hrow⟩)
    (by rintro _ ⟨⟩; exact hheads)
  rw [show (some own).isSome = checkName ctx type from hcheck.symm] at L
  subst hoff hmap
  exact ⟨_, L, rfl⟩

end Listed

section Checked

variable {db : Db} {ctx : Ctx} {id : ℤ} {type : BookmarkType} {s t : DirState} {own : DentryMap}

def Owners (db : Db) (ctx : Ctx) (id : ℤ) (own : DentryMap) : Prop :=
  ∀ b, db.Reached id b → b.skipped ctx = false → validateFilename (b.title.getD []) = none →
    own (b.title.getD []) = some b.id

theorem Db.Apart.exists_owners (h : db.Apart ctx id) : ∃ own, Owners db ctx id own := by
  classical
  let owner (name : Bytes) (b : MozBookmark) : Prop := db.Reached id b ∧ b.skipped ctx = false ∧
    validateFilename (b.title.getD []) = none ∧ b.title.getD [] = name
  refine ⟨fun name => if hname : ∃ b, owner name b then some hname.choose.id else none, ?_⟩
  intro b hb hskipped hvalid
  have hname : ∃ c, owner (b.title.getD []) c := ⟨b, hb, hskipped, hvalid, rfl⟩
  obtain ⟨hc, hcskipped, hcvalid, htitle⟩ := hname.choose_spec
  simp only [dif_pos hname]
  rw [h _ b hc hb hcskipped hskipped hcvalid htitle]

/-- Both positions are clear, and the names in the map belong to their owners. -/
structure DirState.Sound (db : Db) (id : ℤ) (own : DentryMap) (s : DirState) : Prop where
  off : 0 ≤ s.off ∧ db.Clear id s.off
  idx : 0 ≤ s.idx ∧ db.Clear id s.idx
  map : ∀ m ∈ s.map, ∀ name i, m name = some i → own name = some i

theorem rewind_eq (htype : Titled ctx id type) (s : DirState) :
    DirCall.rewind.run db ctx id type s = (.reported [], ⟨some ⟨none, 0⟩, s.off⟩) := by
  rw [DirCall.run, bookmarkCheck, if_neg (not_denied htype)]

theorem rewind_run (htype : Titled ctx id type) (hs : s.Sound db id own) :
    let reply := DirCall.rewind.run db ctx id type s
    reply.1 = .reported [] ∧ reply.2.idx = 0 ∧ reply.2.off = s.off ∧ reply.2.Sound db id own := by
  dsimp only
  rw [rewind_eq htype]
  exact ⟨rfl, rfl, rfl, ⟨hs.off, ⟨le_rfl, clear_zero⟩, nofun⟩⟩

variable (htype : Titled ctx id type) (hkeys : db.KeysUnique) (hdistinct : db.PositionsDistinct id)
  (hcheck : checkName ctx type = true) (howners : Owners db ctx id own)

include htype hkeys hdistinct howners

theorem heads_of_sound {off : ℤ} (hoff : 0 ≤ off) (hclear : db.Clear id off)
    {map : Option DentryMap}
    (hmap : ∀ m ∈ map, ∀ name i, m name = some i → own name = some i) (withStat : Bool) :
    Heads ctx own (known map) (listRows db ctx id off type withStat) where
  le {name i} h := by
    cases map with
    | none => cases h
    | some m => exact hmap m rfl name i h
  head {name row} hfind _ := by
    obtain ⟨b, hb, -, rfl⟩ :=
      reached_of_intact htype hkeys hdistinct hoff hclear (List.mem_of_find?_eq_some hfind)
    have hnamed := List.find?_some hfind
    obtain ⟨htags, hvalid, rfl⟩ := named_iff.mp hnamed
    have hskipped : b.skipped ctx = false := by
      rw [MozBookmark.skipped, decide_eq_false (show b.id ≠ ctx.tagsRootId from htags),
        Bool.false_and]
    exact howners b hb hskipped hvalid

theorem quiet_of_sound {idx : ℤ} (hidx : 0 ≤ idx) (hclear : db.Clear id idx)
    {map : Option DentryMap} (hmap : ∀ m ∈ map, ∀ name i, m name = some i → own name = some i) :
    Quiet own map (listRows db ctx id idx type false) := by
  refine fun m hm => ⟨hmap m hm, fun row hrow hentered => ?_⟩
  obtain ⟨b, hb, -, rfl⟩ := reached_of_intact htype hkeys hdistinct hidx hclear hrow
  simp only [ListRow.entered, Bool.and_eq_true, Bool.not_eq_true', decide_eq_true_eq] at hentered
  have hsep : b.type ≠ 3 := fun h => by
    rw [isSeparator_iff.mpr h] at hentered
    cases hentered.1
  exact howners b hb (by rw [MozBookmark.skipped, decide_eq_false hsep, Bool.and_false]) hentered.2

/-- A scan reports the invalid names from its position on. -/
theorem next_run (hs : s.Sound db id own) (callback : FsckReport → ℤ) :
    let result := scan callback (listRows db ctx id s.idx type false) s.idx
    let reply := (DirCall.next callback).run db ctx id type s
    reply.1 = .reported result.2.2 ∧ reply.2.idx = result.2.1 ∧ reply.2.off = s.off ∧
      reply.2.Sound db id own := by
  obtain ⟨hidx, hclear⟩ := hs.idx
  obtain ⟨map', hle, -, hrun⟩ := dbQuery_quiet callback (q := ⟨s.map, s.idx, .ok 0, []⟩)
    (quiet_of_sound htype hkeys hdistinct howners hidx hclear hs.map)
    (fun row hrow => hidx.trans (listRows_le htype row hrow)) rfl
  have hreply : (DirCall.next callback).run db ctx id type s =
      (.reported (scan callback (listRows db ctx id s.idx type false) s.idx).2.2,
        ⟨some ⟨map', (scan callback (listRows db ctx id s.idx type false) s.idx).2.1⟩, s.off⟩) := by
    rw [DirCall.run, bookmarkCheck, if_neg (not_denied htype)]
    dsimp only
    rw [show dbQuery (bookmarkCheckCb callback)
      (listRows db ctx id ((s.cookie.map (·.idx)).getD 0) type false)
      ⟨s.cookie.bind (·.dentryMap), (s.cookie.map (·.idx)).getD 0, .ok 0, []⟩ = _ from hrun]
    rfl
  dsimp only
  rw [hreply]
  refine ⟨rfl, rfl, rfl, ⟨hs.off, ?_, hle⟩⟩
  show 0 ≤ (scan _ _ _).2.1 ∧ db.Clear id (scan _ _ _).2.1
  rcases scan_next callback (listRows db ctx id s.idx type false) s.idx with h | ⟨row, hrow, h⟩
  · rw [h]
    exact hs.idx
  · obtain ⟨b, hb, -, rfl⟩ := reached_of_intact htype hkeys hdistinct hidx hclear hrow
    rw [h]
    exact ⟨hb.nonneg.trans (Int.lt_add_one_iff.mpr le_rfl).le, hb.clear⟩

include hcheck

/-- A page shows what there is to be seen from its position on. -/
theorem list_run (hs : s.Sound db id own) (restart withStat : Bool) (callback : ListCallback) :
    let off := if restart then 0 else s.off
    let entries := (feed callback (sight ctx (some own) (listRows db ctx id off type withStat))
      []).2
    let reply := (DirCall.list restart withStat callback).run db ctx id type s
    reply.1 = .listed entries ∧ reply.2.off = resume off entries ∧ reply.2.idx = s.idx ∧
      reply.2.Sound db id own := by
  set off := if restart then 0 else s.off with hoff
  have hclear : 0 ≤ off ∧ db.Clear id off := by
    cases restart
    · exact hs.off
    · exact ⟨le_rfl, clear_zero⟩
  set map := if off = 0 then none else s.map with hmap
  have hle : ∀ m ∈ map, ∀ name i, m name = some i → own name = some i := by
    intro m hm
    rw [hmap] at hm
    split at hm
    · cases hm
    · exact hs.map m hm
  obtain ⟨q, L, hrun⟩ := list_listed htype hkeys hdistinct hcheck s restart withStat callback rfl
    hclear.1 hmap.symm (heads_of_sound htype hkeys hdistinct howners hclear.1 hclear.2 hle withStat)
  dsimp only
  rw [hrun, L.accepted]
  refine ⟨rfl, rfl, rfl, ⟨⟨hclear.1.trans ?_, ?_⟩, hs.idx, fun m hm name i h => ?_⟩⟩
  · show off ≤ resume off _
    rw [← L.accepted]
    exact L.forth
  · show db.Clear id (resume off _)
    rw [resume]
    cases hlast : (feed callback (sight ctx (some own) (listRows db ctx id off type withStat))
      []).2.getLast? with
    | none => exact hclear.2
    | some x =>
      rcases mem_of_mem_feed (List.mem_of_getLast? hlast) with hx | hx
      · cases hx
      obtain ⟨row, hrow, -, rfl⟩ := mem_sight.mp hx
      obtain ⟨b, hb, -, rfl⟩ := reached_of_intact htype hkeys hdistinct hclear.1 hclear.2 hrow
      exact hb.clear
  · have hm : q.dentryMap = some m := hm
    have H := L.heads own rfl
    rw [hm] at H
    exact H.le h

theorem undisturbed_of_owners : db.Undisturbed ctx id type := by
  have hinv : ∀ {s : DirState} (call : DirCall), s.Sound db id own →
      (call.run db ctx id type s).2.Sound db id own := by
    intro s call hs
    cases call with
    | list restart withStat callback =>
      exact (list_run htype hkeys hdistinct hcheck howners hs restart withStat callback).2.2.2
    | next callback => exact (next_run htype hkeys hdistinct howners hs callback).2.2.2
    | rewind => exact (rewind_run htype hs).2.2.2
  have hlists : Apart (fun s call => DirCall.run db ctx id type s call) (·.Sound db id own)
      DirCall.isList DirState.off := by
    refine ⟨hinv, fun {s t call} hmine hs ht hview => ?_, fun {s call} hmine hs => ?_⟩
    · cases call with
      | list restart withStat callback =>
        obtain ⟨hsreply, hsoff, -⟩ :=
          list_run htype hkeys hdistinct hcheck howners hs restart withStat callback
        obtain ⟨htreply, htoff, -⟩ :=
          list_run htype hkeys hdistinct hcheck howners ht restart withStat callback
        rw [hview] at hsreply hsoff
        exact ⟨hsreply.trans htreply.symm, hsoff.trans htoff.symm⟩
      | next => cases hmine
      | rewind => cases hmine
    · cases call with
      | list => cases hmine
      | next callback => exact (next_run htype hkeys hdistinct howners hs callback).2.2.1
      | rewind => exact (rewind_run htype hs).2.2.1
  have hchecks : Apart (fun s call => DirCall.run db ctx id type s call) (·.Sound db id own)
      DirCall.isCheck DirState.idx := by
    refine ⟨hinv, fun {s t call} hmine hs ht hview => ?_, fun {s call} hmine hs => ?_⟩
    · cases call with
      | list => cases hmine
      | next callback =>
        obtain ⟨hsreply, hsidx, -⟩ := next_run htype hkeys hdistinct howners hs callback
        obtain ⟨htreply, htidx, -⟩ := next_run htype hkeys hdistinct howners ht callback
        rw [hview] at hsreply hsidx
        exact ⟨hsreply.trans htreply.symm, hsidx.trans htidx.symm⟩
      | rewind =>
        obtain ⟨hsreply, hsidx, -⟩ := rewind_run htype hs
        obtain ⟨htreply, htidx, -⟩ := rewind_run htype ht
        exact ⟨hsreply.trans htreply.symm, hsidx.trans htidx.symm⟩
    · cases call with
      | list restart withStat callback =>
        exact (list_run htype hkeys hdistinct hcheck howners hs restart withStat callback).2.2.1
      | next => cases hmine
      | rewind => cases hmine
  have hopened : DirState.opened.Sound db id own :=
    ⟨⟨le_rfl, clear_zero⟩,
      ⟨le_rfl, clear_zero⟩, nofun⟩
  exact ⟨hlists.undisturbed hopened, hchecks.undisturbed hopened⟩

end Checked

/-! ## Names that are shared -/

section Shared

variable {db : Db} {ctx : Ctx} {id : ℤ} {type : BookmarkType} {b c : MozBookmark}

theorem named_of_title (htags : b.id ≠ ctx.tagsRootId)
    (hvalid : validateFilename (b.title.getD []) = none)
    (withStat : Bool) : (db.listRow withStat b.title b).named ctx (b.title.getD []) = true :=
  named_iff.mpr ⟨htags, hvalid, rfl⟩

/-- Reports that have been made stay made. -/
theorem dbQuery_reports {callback : FsckReport → ℤ} (rows : List ListRow) {q : CheckState}
    {report : FsckReport} (hreport : report ∈ q.reports) :
    report ∈ (dbQuery (bookmarkCheckCb callback) rows q).reports := by
  have hstep : ∀ (q : CheckState) row, report ∈ q.reports →
      report ∈ (bookmarkCheckCb callback q row).2.reports := by
    intro q row hreport
    simp only [bookmarkCheckCb]
    split_ifs
    · exact hreport
    · exact hreport
    · exact hreport
    · cases validateFilenameFsck (row.name.getD []) with
      | some reason => exact List.mem_append_left _ hreport
      | none =>
        cases q.dentryMap with
        | none => exact hreport
        | some m =>
          dsimp only
          cases m (row.name.getD []) with
          | none => exact hreport
          | some i =>
            dsimp only
            split
            · exact hreport
            · exact List.mem_append_left _ hreport
  induction rows generalizing q with
  | nil => exact hreport
  | cons row rows ih =>
    rw [dbQuery]
    split
    · exact hstep q row hreport
    · exact ih (hstep q row hreport)

/-- A scan with a name in its map that belongs to another row reports that as a duplicate. -/
theorem dbQuery_duplicate {rows : List ListRow} {row : ListRow} (hrow : row ∈ intact rows)
    (hpos : ∀ r ∈ rows, 0 ≤ r.position) (hentered : row.entered = true) {q : CheckState}
    {m : DentryMap}
    (hmap : q.dentryMap = some m) {i : ℤ} (hi : m (row.name.getD []) = some i) (hne : i ≠ row.id) :
    ∃ report ∈ (dbQuery (bookmarkCheckCb fun _ => 0) rows q).reports,
    report.result = .nameDuplicate := by
  induction rows generalizing q m with
  | nil => cases hrow
  | cons r rows ih =>
    by_cases hvalid : isValidId r.id = true
    swap
    · rw [intact_cons_of_broken (by simpa using hvalid)] at hrow
      cases hrow
    rw [intact_cons hvalid] at hrow
    have hgood : ¬isValidId r.id = false := by rw [hvalid]; decide
    have hrpos := (hpos r List.mem_cons_self).not_gt
    rw [dbQuery]
    rcases List.mem_cons.mp hrow with rfl | hrow
    · -- The row itself: its name is found, with another identifier.
      simp only [ListRow.entered, Bool.and_eq_true, Bool.not_eq_true',
        decide_eq_true_eq] at hentered
      have hrun : bookmarkCheckCb (fun _ => 0) q row = (false, { q with
          next := row.position + 1, status := .ok 0, reports := q.reports ++
            [⟨.nameDuplicate, row.id.toNat, i.toNat, cstr (row.name.getD [])⟩] }) := by
        simp only [bookmarkCheckCb, if_neg hgood, if_neg hrpos, hentered.1,
          validateFilenameFsck, hentered.2,
          Option.map_none, hmap, hi, if_neg hne]
        rfl
      rw [hrun, if_neg Bool.false_ne_true]
      exact ⟨_, dbQuery_reports _ (List.mem_append_right _ List.mem_cons_self), rfl⟩
    · -- A row before it: the name stays in the map.
      have hstep : ∃ m', (bookmarkCheckCb (fun _ => 0) q r).1 = false ∧
          (bookmarkCheckCb (fun _ => 0) q r).2.dentryMap = some m' ∧
          m' (row.name.getD []) = some i := by
        simp only [bookmarkCheckCb, if_neg hgood, if_neg hrpos]
        split_ifs
        · exact ⟨m, rfl, hmap, hi⟩
        · cases validateFilenameFsck (r.name.getD []) with
          | some reason => exact ⟨m, rfl, hmap, hi⟩
          | none =>
            simp only [hmap]
            cases hfound : m (r.name.getD []) with
            | none =>
              refine ⟨_, rfl, rfl, ?_⟩
              rw [Function.update_of_ne, hi]
              rintro h
              rw [h, hfound] at hi
              cases hi
            | some j =>
              dsimp only
              split
              · exact ⟨m, rfl, rfl, hi⟩
              · exact ⟨m, rfl, rfl, hi⟩
      obtain ⟨m', hgo, hmap', hi'⟩ := hstep
      rw [hgo, if_neg Bool.false_ne_true]
      exact ih hrow (fun r hr => hpos r (List.mem_cons_of_mem _ hr)) hmap' hi'

theorem next_opened (htype : Titled ctx id type) (hkeys : db.KeysUnique)
    (hdistinct : db.PositionsDistinct id) :
    ∃ reports, ((DirCall.next fun _ => 0).run db ctx id type .opened).1 = .reported reports ∧
      ∀ report ∈ reports, report.result ≠ .nameDuplicate := by
  have hrun : bookmarkCheck db ctx id type (some fun _ => 0) none = _ :=
    bookmarkCheck_fresh htype le_rfl rfl rfl fun _ => 0
  refine ⟨(scan (fun _ => 0) (listRows db ctx id 0 type false) 0).2.2, ?_, fun report hreport => ?_⟩
  · simp only [DirCall.run, DirState.opened, hrun]
  · have hspec := (scan_spec (fun _ => 0) 0 (listRows_sorted htype hkeys hdistinct 0 false)
      fun row hrow => listRows_le htype row hrow).2.1
    have hmem : report ∈ badNames (listRows db ctx id 0 type false) :=
      hspec ▸ List.mem_append_left _ hreport
    obtain ⟨row, hrow, hbad⟩ := List.mem_filterMap.mp hmem
    obtain ⟨b, -, -, rfl⟩ := reached_of_intact htype hkeys hdistinct le_rfl clear_zero hrow
    exact (badName_some hbad).2.1

variable (htype : Titled ctx id type) (hkeys : db.KeysUnique) (hdistinct : db.PositionsDistinct id)
  (hcheck : checkName ctx type = true)

include htype hkeys hdistinct

/-- The first row with the title of a row that is reached. -/
theorem exists_first {off : ℤ} (hoff : 0 ≤ off) (hclear : db.Clear id off) (hb : db.Reached id b)
    (hle : off ≤ b.position) (htags : b.id ≠ ctx.tagsRootId)
    (hvalid : validateFilename (b.title.getD []) = none) (withStat : Bool) :
    ∃ d, db.Reached id d ∧ off ≤ d.position ∧ d.id ≠ ctx.tagsRootId ∧
      d.title.getD [] = b.title.getD [] ∧
      firstNamed ctx (listRows db ctx id off type withStat) (b.title.getD []) = some d.id ∧
      ∀ e, db.Reached id e → off ≤ e.position → e.id ≠ ctx.tagsRootId →
        e.title.getD [] = b.title.getD [] → d.position ≤ e.position := by
  have hmem := intact_of_reached htype hkeys hdistinct hoff hb hle withStat
  obtain ⟨row, hfind⟩ := Option.isSome_iff_exists.mp
    (List.find?_isSome.mpr ⟨_, hmem, named_of_title htags hvalid withStat⟩)
  obtain ⟨d, hd, hled, rfl⟩ :=
    reached_of_intact htype hkeys hdistinct hoff hclear (List.mem_of_find?_eq_some hfind)
  obtain ⟨hdtags, -, hdtitle⟩ := named_iff.mp (List.find?_some hfind)
  refine ⟨d, hd, hled, hdtags, hdtitle, by rw [firstNamed, hfind, Option.map_some]; rfl,
    fun e he hlee hetags hetitle => ?_⟩
  have hemem := intact_of_reached htype hkeys hdistinct hoff he hlee withStat
  exact le_of_find? ((listRows_sorted htype hkeys hdistinct off withStat).sublist
    (List.takeWhile_sublist _)) hfind hemem (hetitle ▸ named_of_title hetags
      (hetitle ▸ hvalid) withStat)

include hcheck

theorem first_page (callback : ListCallback) :
    ∃ q, Listed ctx callback (some (firstNamed ctx (listRows db ctx id 0 type false))) 0
        (listRows db ctx id 0 type false) ⟨none, none, []⟩ q ∧
      (DirCall.list true false callback).run db ctx id type .opened =
        (.listed q.accepted, ⟨some ⟨q.dentryMap, 0⟩, resume 0 q.accepted⟩) :=
  list_listed htype hkeys hdistinct hcheck .opened true false callback rfl le_rfl rfl
    (heads_firstNamed ctx (listRows db ctx id 0 type false))

theorem later_page {own : DentryMap} {map : Option DentryMap} {off : ℤ} (hoff : 0 < off)
    (hheads : Heads ctx own (known map) (listRows db ctx id off type false)) (idx : ℤ) :
    ∃ q, Listed ctx (fun _ _ => 0) (some own) off (listRows db ctx id off type false)
    ⟨map, none, []⟩ q ∧
      (DirCall.list false false fun _ _ => 0).run db ctx id type ⟨some ⟨map, idx⟩, off⟩ =
        (.listed q.accepted, ⟨some ⟨q.dentryMap, idx⟩, resume off q.accepted⟩) :=
  list_listed htype hkeys hdistinct hcheck ⟨some ⟨map, idx⟩, off⟩ false false
    (fun _ _ => 0) rfl hoff.le
    (if_neg hoff.ne') hheads

/-- A map that has been freed in the middle of a listing shows a name again. -/
theorem lists_disturbed (hb : db.Reached id b) (hc : db.Reached id c)
    (hbtags : b.id ≠ ctx.tagsRootId)
    (hctags : c.id ≠ ctx.tagsRootId) (hvalid : validateFilename (b.title.getD []) = none)
    (htitle : b.title.getD [] = c.title.getD []) (hne : b.id ≠ c.id) :
    ¬Library.Undisturbed (fun s call => DirCall.run db ctx id type s call)
    DirCall.isList .opened := by
  intro hundisturbed
  obtain ⟨d, hd, -, hdtags, hdtitle, hfirst, hleast⟩ :=
    exists_first htype hkeys hdistinct le_rfl clear_zero
    hb hb.nonneg hbtags hvalid false
  -- The one of the two rows that is not the first comes after it.
  obtain ⟨e, he, hetags, hetitle, hafter⟩ : ∃ e, db.Reached id e ∧ e.id ≠ ctx.tagsRootId ∧
      e.title.getD [] = b.title.getD [] ∧ d.position + 1 ≤ e.position := by
    by_cases hsame : d.id = b.id
    · refine ⟨c, hc, hctags, htitle.symm,
        lt_of_le_of_ne (hleast c hc hc.nonneg hctags htitle.symm) ?_⟩
      intro hpos
      exact hne (hsame.symm.trans ((id_iff_position hkeys hdistinct hd.child hc.child).mpr hpos))
    · refine ⟨b, hb, hbtags, rfl, lt_of_le_of_ne (hleast b hb hb.nonneg hbtags rfl)
        fun hpos => hsame ?_⟩
      exact (id_iff_position hkeys hdistinct hd.child hb.child).mpr hpos
  have hoff : 0 ≤ d.position + 1 := hd.nonneg.trans (Int.lt_add_one_iff.mpr le_rfl).le
  obtain ⟨f, hf, hlef, hftags, hftitle, hfirst', -⟩ :=
    exists_first htype hkeys hdistinct hoff hd.clear he hafter hetags
    (hetitle ▸ hvalid) false
  rw [hetitle] at hftitle hfirst'
  -- The first page ends with the first row.
  set entry := (db.listRow false d.title d).dirent with hentry
  set upTo : ListCallback := fun got _ => if entry ∈ got then 1 else 0 with hupTo
  obtain ⟨q, L, hpage⟩ := first_page htype hkeys hdistinct hcheck upTo
  have hsight : entry ∈ sight ctx (some (firstNamed ctx (listRows db ctx id 0 type false)))
      (listRows db ctx id 0 type false) :=
    mem_sight.mpr ⟨_, intact_of_reached htype hkeys hdistinct le_rfl hd hd.nonneg false,
      ⟨named_of_title hdtags (hdtitle ▸ hvalid) false, hdtitle ▸ hfirst⟩, rfl⟩
  have hresume : resume 0 q.accepted = d.position + 1 := by
    rw [resume, L.accepted, hupTo, feed_until hsight List.not_mem_nil]
    rfl
  rw [hresume] at hpage
  have hheads := L.heads _ rfl
  rw [hresume, listRows_filter htype hoff] at hheads
  have hpos : 0 < d.position + 1 := Int.lt_add_one_iff.mpr hd.nonneg
  obtain ⟨q₁, L₁, hpage₁⟩ := later_page htype hkeys hdistinct hcheck hpos hheads 0
  obtain ⟨q₂, L₂, hpage₂⟩ := later_page htype hkeys hdistinct hcheck hpos
    (heads_firstNamed ctx (listRows db ctx id (d.position + 1) type false)) 0
  have hsame := hundisturbed [.list true false upTo, .rewind, .list false false fun _ _ => 0]
  simp only [answers, hpage, rewind_eq htype, hpage₁, hpage₂, List.filter_cons,
    DirCall.isList, if_true,
    Bool.false_eq_true, if_false, List.filter_nil, List.cons.injEq, Prod.mk.injEq,
    and_true, true_and,
    DirReply.listed.injEq] at hsame
  rw [L₁.accepted, L₂.accepted, feed_all, feed_all, List.nil_append, List.nil_append] at hsame
  dsimp only at hsame
  have hshown : (db.listRow false f.title f).dirent ∈
      sight ctx (some (firstNamed ctx (listRows db ctx id (d.position + 1) type false)))
        (listRows db ctx id (d.position + 1) type false) :=
    mem_sight.mpr ⟨_, intact_of_reached htype hkeys hdistinct hoff hf hlef false,
      ⟨named_of_title hftags (hftitle ▸ hvalid) false, hftitle ▸ hfirst'⟩, rfl⟩
  rw [hsame] at hshown
  obtain ⟨row, hrow, ⟨-, hown⟩, hentry'⟩ := mem_sight.mp hshown
  obtain ⟨g, hg, -, rfl⟩ := reached_of_intact htype hkeys hdistinct hoff hd.clear hrow
  obtain rfl : g = f := hkeys.eq_of_id (mem_children.mp hg.child).1 (mem_children.mp hf.child).1
    (congrArg Dirent.id hentry')
  have hid : d.id = g.id := by
    have hown : firstNamed ctx (listRows db ctx id 0 type false) (g.title.getD []) = some g.id :=
      hown
    rw [hftitle, hfirst] at hown
    exact Option.some.inj hown
  have hpos := (id_iff_position hkeys hdistinct hd.child hg.child).mp hid
  omega

/-- A listing that has entered the title of the root of the tags makes a scan report that. -/
theorem checks_disturbed (hb : db.Reached id b) (hc : db.Reached id c)
    (hbtags : b.id = ctx.tagsRootId) (hbsep : b.type ≠ 3) (hctags : c.id ≠ ctx.tagsRootId)
    (hvalid : validateFilename (b.title.getD []) = none)
    (htitle : b.title.getD [] = c.title.getD []) :
    ¬Library.Undisturbed (fun s call => DirCall.run db ctx id type s call)
    DirCall.isCheck .opened := by
  intro hundisturbed
  obtain ⟨q, L, hpage⟩ := first_page htype hkeys hdistinct hcheck fun _ _ => 0
  obtain ⟨reports, hnext, hreports⟩ := next_opened htype hkeys hdistinct
  have hknown := L.full (by rw [feed_all]) (Option.some_ne_none _) _
    (intact_of_reached htype hkeys hdistinct le_rfl hc hc.nonneg false)
    (named_of_title hctags (htitle ▸ hvalid) false)
  obtain ⟨i, hi⟩ := Option.ne_none_iff_exists'.mp hknown
  have hi : known q.dentryMap (b.title.getD []) = some i := htitle ▸ hi
  -- The title belongs to a row that is not the root of the tags.
  have hne : i ≠ b.id := by
    have hown := (L.heads _ rfl).le hi
    obtain ⟨row, hfind, rfl⟩ := Option.map_eq_some_iff.mp hown
    rw [hbtags]
    exact (named_iff.mp (List.find?_some hfind)).1
  obtain ⟨m, hm⟩ : ∃ m, q.dentryMap = some m := by
    cases hmap : q.dentryMap with
    | none => rw [hmap] at hi; cases hi
    | some m => exact ⟨m, rfl⟩
  rw [hm] at hi
  have hentered : (db.listRow false b.title b).entered = true := by
    rw [ListRow.entered, Bool.and_eq_true, Bool.not_eq_true']
    exact ⟨Bool.eq_false_iff.mpr (mt isSeparator_iff.mp hbsep), decide_eq_true hvalid⟩
  obtain ⟨report, hreport, hdup⟩ := dbQuery_duplicate
    (intact_of_reached htype hkeys hdistinct le_rfl hb hb.nonneg false)
    (fun row hrow => listRows_le htype row hrow) hentered (q := ⟨some m, 0, .ok 0, []⟩) rfl hi hne
  have hnext' : ((DirCall.next fun _ => 0).run db ctx id type
      ⟨some ⟨q.dentryMap, 0⟩, resume 0 q.accepted⟩).1 =
        .reported (dbQuery (bookmarkCheckCb fun _ => 0) (listRows db ctx id 0 type false)
          ⟨some m, 0, .ok 0, []⟩).reports := by
    rw [DirCall.run, bookmarkCheck, if_neg (not_denied htype), hm]
    rfl
  have hsame := hundisturbed [.list true false fun _ _ => 0, .next fun _ => 0]
  simp only [answers, hpage, hnext, hnext', List.filter_cons, DirCall.isCheck, DirCall.isList,
    Bool.not_true,
    Bool.not_false, if_true, Bool.false_eq_true, if_false, List.filter_nil, List.cons.injEq,
    Prod.mk.injEq,
    and_true, true_and, DirReply.reported.injEq] at hsame
  exact hreports report (hsame ▸ hreport) hdup

end Shared

/-- In the backend for Firefox, listings and scans on one cookie do not disturb each other just if
names are not checked, or no valid title is shared by two rows that are reached, except by the root
of the tags if that is a separator. -/
theorem undisturbed_iff {db : Db} {ctx : Ctx} {id : ℤ} {type : BookmarkType} (hkeys : db.KeysUnique)
    (hdistinct : db.PositionsDistinct id) :
    db.Undisturbed ctx id type ↔ checkName ctx type = false ∨ db.Apart ctx id := by
  constructor
  · intro hundisturbed
    by_cases hcheck : checkName ctx type = false
    · exact .inl hcheck
    have hcheck : checkName ctx type = true := by simpa using hcheck
    have htype : Titled ctx id type := .inl (by simpa using (Bool.and_eq_true_iff.mp hcheck).1)
    refine .inr fun b c hb hc hbskipped hcskipped hvalid htitle => not_not.mp fun hne => ?_
    have hsep : ∀ {b : MozBookmark}, b.skipped ctx = false → b.id = ctx.tagsRootId →
      b.type ≠ 3 := by
      intro b hskipped htags hsep
      rw [MozBookmark.skipped, decide_eq_true htags, decide_eq_true hsep] at hskipped
      cases hskipped
    by_cases hbtags : b.id = ctx.tagsRootId
    · exact checks_disturbed htype hkeys hdistinct hcheck hb hc hbtags (hsep hbskipped hbtags)
        (fun h => hne (hbtags.trans h.symm)) hvalid htitle hundisturbed.2
    by_cases hctags : c.id = ctx.tagsRootId
    · exact checks_disturbed htype hkeys hdistinct hcheck hc hb hctags
        (hsep hcskipped hctags) hbtags
        (htitle ▸ hvalid) htitle.symm hundisturbed.2
    exact lists_disturbed htype hkeys hdistinct hcheck hb hc hbtags hctags hvalid htitle hne
      hundisturbed.1
  · rintro (hcheck | hapart)
    · exact undisturbed_unchecked hcheck
    by_cases hcheck : checkName ctx type = false
    · exact undisturbed_unchecked hcheck
    have hcheck : checkName ctx type = true := by simpa using hcheck
    obtain ⟨own, howners⟩ := hapart.exists_owners
    exact undisturbed_of_owners (.inl (by simpa using (Bool.and_eq_true_iff.mp hcheck).1))
      hkeys hdistinct
      hcheck howners

/-! ## Both backends -/

/-- On one cookie, listings and scans do not disturb each other in the backend for Chromium, and in
the one for Firefox just under that condition. -/
theorem cookie_undisturbed_iff {w : WordSize} :
    (∀ (tb : Chromium.Tables w) (ctx : Chromium.Ctx w) (env : Chromium.Env) (id : ℕ),
      Chromium.storeLoad tb ctx env = .ok (none, ctx) →
      Library.Undisturbed (fun s call => Chromium.DirCall.run tb env id s call)
          Chromium.DirCall.isList (.opened ctx) ∧
        Library.Undisturbed (fun s call => Chromium.DirCall.run tb env id s call)
          Chromium.DirCall.isCheck (.opened ctx)) ∧
    ∀ (db : Db) (ctx : Ctx) (id : ℤ) (type : BookmarkType), db.KeysUnique →
    db.PositionsDistinct id →
      (db.Undisturbed ctx id type ↔ checkName ctx type = false ∨ db.Apart ctx id) :=
  ⟨fun _ _ _ id hload => Chromium.listings_and_scans_undisturbed hload id,
    fun _ _ _ _ hkeys hdistinct => undisturbed_iff hkeys hdistinct⟩

/-- Two folders in the one backend, and one without duplicates in the other. -/
theorem cookie_undisturbed_written :
    (∃ ctx : Chromium.Ctx .w64, ctx.loaded = true ∧
      Library.Undisturbed
      (fun s call => Chromium.DirCall.run Chromium.colliding Chromium.twoFolders 1 s call)
        Chromium.DirCall.isList (.opened ctx)) ∧
    slashed.Undisturbed ⟨1, 0, false, true⟩ 1 .bookmark := by
  obtain ⟨hchromium, hfirefox⟩ := cookie_undisturbed_iff (w := .w64)
  constructor
  · have h : Yields (fun _ => False)
      ((Chromium.Call.lookup Chromium.rootId none).run Chromium.colliding
        (.created ⟨false, false, false⟩) Chromium.twoFolders) fun ctx =>
          ctx.watching = true ∧ ctx.loaded = true := by
      decide +kernel
    obtain ⟨ctx, -, hwatching, hloaded⟩ := h.exists_ok
    exact ⟨ctx, hloaded,
      (hchromium Chromium.colliding ctx _ 1 (Chromium.storeLoad_loaded hwatching hloaded rfl)).1⟩
  · refine (hfirefox slashed ⟨1, 0, false, true⟩ 1 .bookmark (by unfold Db.KeysUnique; decide)
      (by unfold Db.PositionsDistinct; decide)).mpr (.inr ?_)
    have hids : ∀ b ∈ slashed.children 1, ∀ c ∈ slashed.children 1,
        b.title.getD [] = c.title.getD [] → b.id = c.id := by
      decide
    exact fun b c hb hc _ _ _ htitle => hids b hb.child c hc.child htitle

/-- A scan after a listing reports a duplicate that it does not report without the listing. -/
theorem duplicate_reported_after_listing : ¬twice.Undisturbed ⟨1, 0, false, true⟩ 1 .bookmark := by
  rintro ⟨-, hundisturbed⟩
  have hsame := congrArg (List.map fun answer : DirCall × DirReply => match answer.2 with
      | .listed _ => []
      | .reported reports => reports)
    (hundisturbed [.list true false fun _ _ => 0, .next fun _ => 0])
  exact absurd hsame (by decide)

end BookmarkFS.Firefox
