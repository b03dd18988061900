import BookmarkFS.Chromium.TreeCheck
import BookmarkFS.Frontend.Directories
import BookmarkFS.Fsck.OnlineTraversal

/-! # Checks of a mounted store

The checker of a mounted filesystem gets at the store through the kernel and the
frontend only. It comes to the same folders as the checker of the store itself, and
reports the same.
-/
namespace BookmarkFS.Fsck.Online
open Library Frontend
open Hopscotch (WordSize)
open Chromium hiding Errno

/-- An open directory, with a file handle that no other descriptor has -/
structure DirFile where
  ino : Ino
  /-- Where the kernel goes on listing. -/
  pos : ℕ
  /-- A pointer that the backend has given out. -/
  cookie : Cookie
  /-- The memory that it points to -/
  lcookie : Option ListCookie
  fh : FileHandle

/-- A mounted store, and what the kernel and the FUSE library make of it -/
structure Mounting (w : WordSize) where
  tb : Tables w
  ctx : Ctx w
  env : Env
  mount : Mount
  /-- What `has_access()` says of read permission. -/
  access : Bool
  /-- What `fuse_add_direntry_plus()` or `fuse_add_direntry()` returns for a name. -/
  size : Bool → Bytes → ℕ
  /-- The size of a reply that is asked for -/
  bufMax : ℕ
  /-- Whether attributes are asked for, too. -/
  plus : DirFile → Bool
  /-- `d_reclen` -/
  reclen : Bytes → ℕ
  reclen_pos : ∀ name, 0 < reclen name
  /-- How many records of a reply a call of `getdents()` finds. -/
  taken : List DirRecord → ℕ
  alloc : Ino → Cookie

/-- Names fit in replies and buffers, and `getdents()` finds some records if there are any. -/
structure Mounting.Works {w : WordSize} (M : Mounting w) : Prop where
  access : M.access = true
  size : ∀ plus (name : Bytes), name.length ≤ nameMax → M.size plus name ≤ M.bufMax
  reclen : ∀ name : Bytes, name.length ≤ nameMax → M.reclen name ≤ direntBufsize
  taken : ∀ records, records ≠ [] → (∀ d ∈ records, d.reclen ≤ direntBufsize) →
    0 < M.taken records ∧ (cellsOf (records.take (M.taken records))).length ≤ direntBufsize

/-- What the caller is told by `errno` -/
def errnoOf : Frontend.Errno → Chromium.Errno
  | .backend err => err
  | _ => .io

namespace Mounting

variable {w : WordSize} (M : Mounting w)

def record (x : FuseDirent) : DirRecord := ⟨x.name, x.isDir, M.reclen x.name, M.reclen_pos _⟩

/-- `fs_op_ioctl()` for the next report, or to take the scan back -/
def fsOpIoctl (fd : DirFile) (next : Bool) : Except Chromium.Errno (Option FsckReport) × DirFile :=
  match bookmarkDir fd.ino with
  | none => (.error .io, fd)
  | some id =>
    match bmCheck M.tb M.ctx M.env id next fd.lcookie with
    | .error _ => (.error .io, fd)
    | .ok ((check, lcookie), _) =>
      match bmIoctl M.mount fd.fh fd.cookie M.access check (if next then .fsckNext
        else .fsckRewind) with
      | (.ok report, fh) => (.ok report, { fd with fh := fh, lcookie := lcookie })
      | (.error (.backend err), fh) => (.error err, { fd with fh := fh, lcookie := lcookie })
      -- The backend has not been asked.
      | (.error err, fh) => (.error (errnoOf err), { fd with fh := fh })

/-- `fs_op_opendir()` -/
def fsOpOpendir (ino : Ino) : Except Chromium.Errno DirFile :=
  match bookmarkDir ino with
  | none => .error .io
  | some id =>
    match bookmarkList M.tb M.ctx M.env id 0 false none none with
    | .error _ => .error .io
    | .ok ((.error err, _), _) => .error err
    | .ok ((.ok _, lcookie), _) => .ok ⟨ino, 0, M.alloc ino, lcookie, bmOpendir none⟩

/-- `do_readdir()`, and what a call of `getdents()` makes of the reply -/
def getdents (fd : DirFile) : Except Chromium.Errno (List DirRecord) × DirFile :=
  match bookmarkDir fd.ino with
  | none => (.error .io, fd)
  | some id =>
    match bmReaddir M.tb M.ctx M.env (M.size (M.plus fd)) id M.bufMax fd.pos (M.plus fd)
      fd.lcookie with
    | .error _ => (.error .io, fd)
    | .ok ((.error err, lcookie), _) => (.error err, { fd with lcookie := lcookie })
    | .ok ((.ok entries, lcookie), _) =>
      let got := entries.take (M.taken (entries.map M.record))
      (.ok (got.map M.record), { fd with lcookie := lcookie, pos := (got.getLast?.map (·.off)).getD fd.pos })

/-- `fs_op_lookup()` and `fs_op_opendir()` for a name in a directory -/
def openat (fd : DirFile) (name : Bytes) : Except Chromium.Errno (ℕ × DirFile) :=
  match bookmarkDir fd.ino with
  | none => .error .io
  | some id =>
    if h : (0 : UInt8) ∉ name then
      match bmLookup M.tb M.ctx M.env id ⟨name, h⟩ with
      | .error _ => .error .io
      | .ok (.error err, _) => .error err
      | .ok (.ok (ino, isDir), _) => if isDir then (ino, ·) <$> M.fsOpOpendir ino
          else .error .notdir
    else .error .noent

/-- The system calls on a mounted store, which nobody modifies -/
def kernel : Kernel DirFile where
  fsckNext fd := M.fsOpIoctl fd true
  fsckRewind fd :=
    match M.fsOpIoctl fd false with
    | (.ok _, fd) => (.ok (), fd)
    | (.error err, fd) => (.error err, fd)
  lseek fd := (.ok (), { fd with pos := 0 })
  getdents fd _ := M.getdents fd
  openat fd name := M.openat fd name

end Mounting

/-- What the kernel needs of the entries that can be seen. -/
structure Passable {w : WordSize} (ctx : Ctx w) (S : Finset EntryRef) : Prop where
  name : ∀ e ∈ named ctx.ents S, ∀ name, (ctx.ents e).name = some name →
    validateFilename name = none ∧ (0 : UInt8) ∉ name
  attributes : ∀ e ∈ named ctx.ents S, ∃ stat, ctx.attributes e = .ok stat

/-- What a descriptor of a directory is still to tell: of these hidden children, and of
these entries. -/
def Mounting.stage {w : WordSize} (M : Mounting w) (id : ℕ) (children : Value) : Stage DirFile :=
  fun reports records fd =>
    bookmarkDir fd.ino = some id ∧ (fd.fh.fsck = true → fd.fh.cookie = some fd.cookie) ∧
    (∃ c, fd.lcookie = some c ∧ c.children.nodes M.ctx.json = M.ctx.json.elems children ∧
      reports = ((M.ctx.json.elems children).drop c.idx).filterMap (reportAt M.tb M.ctx id)) ∧
    records = ((offered (M.ctx.shown M.tb false)
    ((M.ctx.json.elems children).drop fd.pos) fd.pos).map
      fuseDirent).map M.record

section Store

variable {w : WordSize} {M : Mounting w} {S : Finset EntryRef} (I : Inv M.tb M.ctx S)
  (hload : storeLoad M.tb M.ctx M.env = .ok (none, M.ctx)) (hflag :
    M.ctx.flags.filenameGuid = false) (hM : M.Works)

section Folder

variable {id : ℕ} {p : EntryRef} (hp : Chromium.Directory M.ctx S id p) {children : Value}
  (hchildren : (M.ctx.ents p).children = some children) {reports : List FsckReport} {records :
    List DirRecord}
  {fd : DirFile}

include I hload hp hchildren

/-! ## Scans -/

include hflag in
/-- The next report is the first one that is left. -/
theorem fsOpIoctl_next (hM : M.Works) (h : M.stage id children reports records fd) :
    ∃ fd', M.fsOpIoctl fd true = (.ok reports.head?, fd') ∧
    M.stage id children reports.tail records fd' := by
  obtain ⟨hdir, howner, ⟨c, hc, hkept, rfl⟩, hrecords⟩ := h
  have hcheck := checkDir_directory I hchildren hp hload hflag
  have hrun : ∀ n ∈ (M.ctx.json.elems children).drop c.idx,
      fsckChild M.tb M.ctx id n = .ok (reportAt M.tb M.ctx id n) := fun n hn => by
    obtain ⟨e, -, -, -, -, -, s, -, -, hrun, -⟩ :=
      child_spec I hchildren hp.1 hp.2.1 (List.mem_of_mem_drop hn)
    exact hrun
  obtain ⟨status, k, hnext, hrest⟩ := fsckNext_one hrun c.idx
  rw [List.drop_drop] at hrest
  have hfree : ¬(fd.fh.fsck = true ∧ fd.fh.cookie ≠ some fd.cookie) := fun h => h.2 (howner h.1)
  have hbmCheck : bmCheck M.tb M.ctx M.env id true fd.lcookie =
    .ok ((.ok (((M.ctx.json.elems children).drop
      c.idx).filterMap (reportAt M.tb M.ctx id)).head?, some ⟨c.children, c.idx + k⟩), M.ctx) := by
    change Chromium.fsckNext M.tb M.ctx id (fun _ => 1) _ c.idx = _ at hnext
    simp only [bmCheck, bookmarkCheck, hc, hcheck, ok_bind, if_true, Option.map_some,
      Option.getD_some, hnext]
    cases ((M.ctx.json.elems children).drop c.idx).filterMap (reportAt M.tb M.ctx id) <;> rfl
  simp only [Mounting.fsOpIoctl, hdir, hbmCheck, if_true]
  have htail : ((M.ctx.json.elems children).drop (c.idx + k)).filterMap (reportAt M.tb M.ctx id) =
      (((M.ctx.json.elems children).drop c.idx).filterMap (reportAt M.tb M.ctx id)).tail := by
    rw [hrest, List.drop_one]
  cases hreports : ((M.ctx.json.elems children).drop c.idx).filterMap (reportAt M.tb M.ctx id) with
  | nil =>
    rw [hreports] at htail
    simp only [bmIoctl, hM.access, if_neg hfree, List.head?_nil, Bool.true_eq_false, if_false]
    exact ⟨_, rfl, hdir, fun hfsck => (by cases hfsck), ⟨_, rfl, hkept, htail.symm⟩, hrecords⟩
  | cons r rs =>
    rw [hreports] at htail
    simp only [bmIoctl, hM.access, if_neg hfree, List.head?_cons, Bool.true_eq_false, if_false]
    exact ⟨_, rfl, hdir, fun _ => rfl, ⟨_, rfl, hkept, htail.symm⟩, hrecords⟩

include hflag in
theorem fsOpIoctl_rewind (h : M.stage id children reports records fd) :
    ∃ fd', M.fsOpIoctl fd false = (.ok none, fd') ∧
      M.stage id children ((M.ctx.json.elems children).filterMap (reportAt M.tb M.ctx id))
      records fd' := by
  obtain ⟨hdir, howner, ⟨c, hc, hkept, rfl⟩, hrecords⟩ := h
  have hcheck := checkDir_directory I hchildren hp hload hflag
  have hbmCheck : bmCheck M.tb M.ctx M.env id false fd.lcookie =
    .ok ((.ok none, some ⟨c.children, 0⟩), M.ctx) := by
    simp only [bmCheck, bookmarkCheck, hc, hcheck, ok_bind, Bool.false_eq_true, if_false]
    rfl
  simp only [Mounting.fsOpIoctl, hdir, hbmCheck, Bool.false_eq_true, if_false, bmIoctl]
  exact ⟨_, rfl, hdir, fun hfsck => (by cases hfsck), ⟨_, rfl, hkept, rfl⟩, hrecords⟩

/-! ## Listings -/

omit hload in
theorem shown_spec {withStat : Bool} {off : ℕ} {x : Dirent}
    (hx : x ∈ offered (M.ctx.shown M.tb withStat) ((M.ctx.json.elems children).drop off) off) :
    ∃ e, Named M.ctx S id x.name e ∧ x.id = (M.ctx.ents e).id ∧
    x.valueLen.isNone = (M.ctx.ents e).children.isSome := by
  obtain ⟨k, n, hat, hshown⟩ := mem_offered.mp hx
  have hn := List.mem_of_mem_drop (List.mem_of_getElem? hat)
  obtain ⟨e, he, hroot, rfl, hparent⟩ := (mem_elems_iff I hp.1 hchildren).mp hn
  rw [shown_child I he hroot] at hshown
  obtain ⟨hname, hid, hkind, -⟩ := dirent_spec hshown
  exact ⟨e, ⟨mem_named.mpr ⟨he, hroot, by rw [hname]; exact Option.some_ne_none _⟩,
    hparent.trans hp.2.1, hname⟩, hid,
    hkind⟩

omit hload in
/-- With and without attributes, the entries of a reply are the same. -/
theorem fuseDirents_eq (hP : Passable M.ctx S) (withStat : Bool) (off : ℕ) :
    (offered (M.ctx.shown M.tb withStat) ((M.ctx.json.elems children).drop off) off).map
    fuseDirent =
      (offered (M.ctx.shown M.tb false) ((M.ctx.json.elems children).drop off) off).map
      fuseDirent := by
  cases withStat with
  | false => rfl
  | true =>
    refine map_offered_congr fun n hn i => ?_
    obtain ⟨e, he, hroot, rfl, -⟩ := (mem_elems_iff I hp.1 hchildren).mp (List.mem_of_mem_drop hn)
    rw [shown_child I he hroot, shown_child I he hroot]
    cases hname : (M.ctx.ents e).name with
    | none => simp only [Ctx.dirent, hname, Option.bind_none]
    | some name =>
      obtain ⟨stat, hstat⟩ :=
        hP.attributes e (mem_named.mpr ⟨he, hroot, by rw [hname]; exact Option.some_ne_none _⟩)
      cases hparse : parseStats M.ctx.json (M.ctx.ents e) (M.ctx.ents e).id with
      | none => simp [Ctx.attributes, hparse] at hstat
      | some stat' =>
        have hlen := (parseStats_spec hparse).2
        simp only [Ctx.dirent, hname, hparse, Option.bind_some, Option.map_some, Bool.false_eq_true,
          if_false, if_true,
          fuseDirent, hlen]
        cases (M.ctx.ents e).children <;> rfl

/-- A call of `getdents()` finds the first records that are left. -/
theorem getdents_spec (hM : M.Works) (hP : Passable M.ctx S)
    (h : M.stage id children reports records fd) :
    ∃ here rest fd', records = here ++ rest ∧ (records ≠ [] → here ≠ []) ∧
    (cellsOf here).length ≤ direntBufsize ∧
      M.getdents fd = (.ok here, fd') ∧ M.stage id children reports rest fd' := by
  obtain ⟨hdir, howner, ⟨c, hc, hkept, rfl⟩, rfl⟩ := h
  obtain ⟨c', hidx, hkept', hrun⟩ := bookmarkList_from I hload hp hchildren (M.plus fd)
    (bmReaddirCb (M.size (M.plus fd)) M.bufMax) fd.pos hkept
  have hsame := fuseDirents_eq I hp hchildren hP (M.plus fd) fd.pos
  have hshown : ∀ x ∈ offered (M.ctx.shown M.tb (M.plus fd))
    ((M.ctx.json.elems children).drop fd.pos) fd.pos,
      ∃ e, Named M.ctx S id x.name e :=
      fun x hx => (shown_spec I hp hchildren hx).imp fun e he => he.1
  generalize offered (M.ctx.shown M.tb (M.plus fd)) ((M.ctx.json.elems children).drop fd.pos)
    fd.pos = shown at *
  have hvalid : ∀ x ∈ shown, x.name.length ≤ nameMax := fun x hx => by
    obtain ⟨e, he⟩ := hshown x hx
    have hvalid := (hP.name e he.1 x.name he.2.2).1
    rw [validateFilename] at hvalid
    split_ifs at hvalid with _ hlen
    exact not_lt.mp fun hlt => hlen (.inr hlt)
  obtain ⟨l₁, l₂, hsplit, hfeed⟩ := feed_split (bmReaddirCb (M.size (M.plus fd)) M.bufMax) shown []
  rw [List.nil_append] at hfeed
  have hsplitL : (offered (M.ctx.shown M.tb false) ((M.ctx.json.elems children).drop fd.pos)
    fd.pos).map fuseDirent =
      l₁.map fuseDirent ++ l₂.map fuseDirent := by rw [← hsame, hsplit, List.map_append]
  have hbmReaddir : bmReaddir M.tb M.ctx M.env (M.size (M.plus fd)) id M.bufMax fd.pos
    (M.plus fd) fd.lcookie =
      .ok ((.ok (l₁.map fuseDirent), some c'), M.ctx) := by
    simp only [bmReaddir, hc, hrun, ok_bind, ← hfeed]
    rfl
  generalize hplain : offered (M.ctx.shown M.tb false) ((M.ctx.json.elems children).drop fd.pos)
    fd.pos = plain at *
  -- The reply is an initial part of what is shown, and what is taken is an initial part of the reply.
  obtain ⟨n, hn⟩ : ∃ n, n = M.taken ((l₁.map fuseDirent).map M.record) := ⟨_, rfl⟩
  obtain ⟨m, hgot⟩ : ∃ m, (plain.take m).map fuseDirent = (l₁.map fuseDirent).take n := by
    refine ⟨((l₁.map fuseDirent).take n).length, ?_⟩
    rw [List.map_take, hsplitL, List.length_take, ← List.take_take, List.take_left' rfl]
  obtain ⟨k, hlast, hrest⟩ :=
    offered_drop (fun _ _ _ => shown_off) (hplain.trans (List.take_append_drop m plain).symm)
  have hpos : (((l₁.map fuseDirent).take n).getLast?.map (·.off)).getD fd.pos = fd.pos + k := by
    rw [← hgot, List.getLast?_map, Option.map_map]
    exact hlast
  have hrecords : (plain.map fuseDirent).map M.record =
      ((l₁.map fuseDirent).take n).map M.record ++ ((plain.drop m).map fuseDirent).map
      M.record := by
    rw [← List.map_append, ← hgot, ← List.map_append, List.take_append_drop]
  have hgetdents : M.getdents fd = (.ok (((l₁.map fuseDirent).take n).map M.record),
      { fd with lcookie := some c', pos := fd.pos + k }) := by
    simp only [Mounting.getdents, hdir, hbmReaddir, ← hn, hpos]
  have htaken : l₁ ≠ [] → 0 < n ∧ (cellsOf (((l₁.map fuseDirent).map M.record).take n)).length ≤ direntBufsize := by
    intro hne
    rw [hn]
    refine hM.taken _ (by simpa using hne) fun d hd => ?_
    simp only [List.mem_map, exists_exists_and_eq_and] at hd
    obtain ⟨x, hx, rfl⟩ := hd
    exact hM.reclen _ (hvalid x (hsplit ▸ List.mem_append_left _ hx))
  refine ⟨_, _, _, hrecords, fun hne => ?_, ?_, hgetdents, hdir, howner,
    ⟨c', rfl, hkept', by rw [hidx]⟩, ?_⟩
  · have hl₁ : l₁ ≠ [] := by
      cases shown with
      | nil => exact absurd (by rw [← hsame]; rfl) hne
      | cons x shown => exact hfeed ▸ feed_ne_nil shown (hM.size _ _ (hvalid x List.mem_cons_self))
    have hpos := (htaken hl₁).1
    simpa using ⟨hpos.ne', hl₁⟩
  · by_cases hl₁ : l₁ = []
    · simp [hl₁]
    · rw [List.map_take]
      exact (htaken hl₁).2
  · rw [← hrest, List.drop_drop]

/-! ## Descriptors -/

theorem fsOpOpendir_spec {ino : Ino} (hino : bookmarkDir ino = some id) :
    ∃ fd, M.fsOpOpendir ino = .ok fd ∧
    M.stage id children ((M.ctx.json.elems children).filterMap (reportAt M.tb M.ctx id))
      (((M.ctx.listing M.tb false children).map fuseDirent).map M.record) fd := by
  obtain ⟨r, hrun, hlook⟩ := I.lookupId_spec id
  obtain rfl := (hlook p).mpr ⟨hp.1, hp.2.1⟩
  have hdir : listDir M.tb M.ctx id 0 none = .ok (.ok (.live children, true)) := by
    simp only [listDir, hrun, ok_bind, hchildren, if_neg hp.2.2.1]
  refine ⟨⟨ino, 0, M.alloc ino, some ⟨.live children, 0⟩, bmOpendir none⟩, ?_,
    hino, fun hfsck => (by cases hfsck),
    ⟨_, rfl, rfl, rfl⟩, rfl⟩
  simp only [Mounting.fsOpOpendir, hino, bookmarkList, hload, ok_bind, hdir]
  rfl

include hflag in
/-- The calls on a descriptor tell what the store has of the directory. -/
theorem mounted_descriptor (hM : M.Works) (hP : Passable M.ctx S) :
    Descriptor M.kernel ((M.ctx.json.elems children).filterMap (reportAt M.tb M.ctx id))
      (((M.ctx.listing M.tb false children).map fuseDirent).map M.record)
      (M.stage id children) where
  report h := fsOpIoctl_next I hload hflag hp hchildren hM h
  good h := by
    obtain ⟨fd', hrun, hstage⟩ := fsOpIoctl_next I hload hflag hp hchildren hM h
    exact ⟨fd', [], hrun, hstage⟩
  rewind h := by
    obtain ⟨fd', hrun, hstage⟩ := fsOpIoctl_rewind I hload hflag hp hchildren h
    exact ⟨fd', by simp only [Mounting.kernel, hrun], hstage⟩
  seek := by
    rintro rs l fd ⟨hdir, howner, hcookie, -⟩
    exact ⟨{ fd with pos := 0 }, rfl, hdir, howner, hcookie, rfl⟩
  atEnd h := by
    obtain ⟨here, rest, fd', hsplit, -, -, hrun, hstage⟩ :=
      getdents_spec I hload hp hchildren hM hP h
    obtain ⟨rfl, rfl⟩ := List.append_eq_nil_iff.mp hsplit.symm
    exact ⟨fd', hrun, hstage⟩
  more h hne := by
    obtain ⟨here, rest, fd', hsplit, hhere, hfit, hrun, hstage⟩ :=
      getdents_spec I hload hp hchildren hM hP h
    obtain ⟨d, ds, rfl⟩ := List.exists_cons_of_ne_nil (hhere hne)
    exact ⟨d, ds, rest, fd', hsplit, hfit, hrun, hstage⟩

include hflag in
/-- A folder that has been listed can be opened. -/
theorem openat_spec (hP : Passable M.ctx S) {x : Dirent}
    (hx : x ∈ M.ctx.listing M.tb false children)
    (hkind : x.valueLen.isNone = true) : ∃ q fd', Chromium.Directory M.ctx S x.id q ∧
    x.id < 2 ^ 61 ∧
      M.fsOpOpendir (subsysNodeid x.id .bookmark) = .ok fd' ∧ ∀ {reports records fd},
        M.stage id children reports records fd →
        M.openat fd x.name = .ok (subsysNodeid x.id .bookmark, fd') := by
  have hx : x ∈ offered (M.ctx.shown M.tb false) ((M.ctx.json.elems children).drop 0) 0 := hx
  obtain ⟨e, hnamed, hid, hchild⟩ := shown_spec I hp hchildren hx
  obtain ⟨he, hroot, hname⟩ := mem_named.mp hnamed.1
  have hdir : Chromium.Directory M.ctx S x.id e :=
    ⟨he, hid.symm, hname, fun hnone => by rw [hchild, hnone] at hkind; cases hkind⟩
  have hlt : x.id < 2 ^ 61 := by
    have hmax : x.id ≤ maxBookmarkId := hid ▸ (I.max_id.2 e he).trans I.max_id.1
    exact hmax.trans_lt (by decide)
  obtain ⟨inner, hinner⟩ := Option.ne_none_iff_exists'.mp hdir.2.2.2
  obtain ⟨fd', hopendir, -⟩ := fsOpOpendir_spec I hload hdir hinner (bookmarkDir_nodeid hlt)
  obtain ⟨stat, hstat⟩ := hP.attributes e hnamed.1
  have hnul := (hP.name e hnamed.1 x.name hnamed.2.2).2
  have hanswers : Answers M.ctx S id (⟨x.name, hnul⟩ : CString) (.ok e) := ⟨⟨p, hp⟩, hnamed⟩
  have hlookup := bookmarkLookup_eq I hflag hload hanswers
  rw [ok_bind, hstat] at hlookup
  have hspec := attributes_spec hstat
  refine ⟨e, fd', hdir, hlt, hopendir, fun {reports records fd} h => ?_⟩
  have hbmLookup : bmLookup M.tb M.ctx M.env id ⟨x.name, hnul⟩ =
      .ok (.ok (subsysNodeid x.id .bookmark, true), M.ctx) := by
    simp only [bmLookup, hlookup, ok_bind]
    rw [hid, ← hspec.1, ← hkind, hchild, ← hspec.2]
    rfl
  simp only [Mounting.openat, h.1, dif_pos hnul, hbmLookup, if_true, hopendir]
  rfl

end Folder

/-! ## The tree -/

/-- A folder, with what is reported on its children -/
def Mounting.folder (M : Mounting w) (id : ℕ) : Folder := ⟨id, M.ctx.reports M.tb id⟩

include I in
theorem elems_length_le {id : ℕ} {p : EntryRef} (hp : Chromium.Directory M.ctx S id p)
    {children : Value} (hchildren : (M.ctx.ents p).children = some children) :
    (M.ctx.json.elems children).length ≤ S.card := by
  have hsub : (M.ctx.json.elems children).toFinset ⊆ S.image fun e => (M.ctx.ents e).node := by
    intro n hn
    obtain ⟨e, he, -, hnode, -⟩ := (mem_elems_iff I hp.1 hchildren).mp (List.mem_toFinset.mp hn)
    exact Finset.mem_image.mpr ⟨e, he, hnode⟩
  rw [← List.toFinset_card_of_nodup (elems_nodup I hchildren hp.1)]
  exact (Finset.card_le_card hsub).trans Finset.card_image_le

include I hload hflag in
/-- Among the records of a folder are those of its subfolders, which can be opened. -/
theorem mounted_subdirs (hP : Passable M.ctx S) {id : ℕ} {p : EntryRef}
    (hp : Chromium.Directory M.ctx S id p) {children : Value}
    (hchildren : (M.ctx.ents p).children = some children) {most : ℕ} (shown : List Dirent)
    {ts : List (Rose ℕ)} (hserves : ∀ t ∈ ts, ∀ q ino fd, Chromium.Directory M.ctx S t.label q →
      bookmarkDir ino = some t.label → M.fsOpOpendir ino = .ok fd →
      Serves M.kernel most (t.map M.folder) fd)
    (hmem : ∀ x ∈ shown, x ∈ M.ctx.listing M.tb false children)
    (hsub : ts.map (·.label) = (shown.filter (·.valueLen.isNone)).map (·.id)) :
    Subdirs M.kernel most (M.stage id children) ((shown.map fuseDirent).map M.record)
    (ts.map (Rose.map M.folder)) := by
  induction shown generalizing ts with
  | nil =>
    obtain rfl := List.map_eq_nil_iff.mp hsub
    exact .nil
  | cons x shown ih =>
    obtain ⟨hx, hmem⟩ := List.forall_mem_cons.mp hmem
    rw [List.map_cons, List.map_cons]
    cases hkind : x.valueLen.isNone with
    | false =>
      simp only [List.filter_cons, hkind, Bool.false_eq_true, if_false] at hsub
      exact .file hkind (ih hserves hmem hsub)
    | true =>
      simp only [List.filter_cons, hkind, if_true, List.map_cons] at hsub
      cases ts with
      | nil => cases hsub
      | cons t ts =>
        obtain ⟨hlabel, hsub⟩ := List.cons.inj hsub
        change t.label = x.id at hlabel
        obtain ⟨ht, hserves⟩ := List.forall_mem_cons.mp hserves
        obtain ⟨q, fd', hq, hlt, hopen, hopenat⟩ :=
          openat_spec I hload hflag hp hchildren hP hx hkind
        have hid : subsysNodeid x.id .bookmark % 2 ^ 61 = x.id := by
          rw [← inodeSubsysId_eq]
          exact (inode_nodeid hlt .bookmark).2
        have hroot : (t.map M.folder).label.id = x.id :=
          (congrArg Folder.id (Rose.label_map M.folder t)).trans hlabel
        have hino := (bookmarkDir_nodeid hlt).trans (congrArg some hlabel.symm)
        exact .dir hkind hopenat (hid.trans hroot.symm)
          (fun _ => ht q _ fd' (hlabel ▸ hq) hino hopen)
          (ih hserves hmem hsub)

include I hload hflag hM in
/-- Behind a descriptor of a folder is the tree of the folders below it. -/
theorem mounted_serves (hP : Passable M.ctx S) {t : Rose ℕ} (h : t.Unfolds (M.ctx.subfolders M.tb))
    {p : EntryRef} (hp : Chromium.Directory M.ctx S t.label p) {ino : Ino}
    (hino : bookmarkDir ino = some t.label) (i : ℕ) {fd : DirFile}
    (hopen : M.fsOpOpendir ino = .ok fd) : Serves M.kernel (2 * S.card)
      (.node ⟨i, M.ctx.reports M.tb t.label⟩ (t.children.map (Rose.map M.folder))) fd := by
  induction h generalizing p ino i fd with
  | @node id ts hlabels hts ih =>
    change Chromium.Directory M.ctx S id p at hp
    change bookmarkDir ino = some id at hino
    obtain ⟨children, hchildren⟩ := Option.ne_none_iff_exists'.mp hp.2.2.2
    obtain ⟨fd', hopen', hstage⟩ := fsOpOpendir_spec I hload hp hchildren hino
    obtain rfl := Except.ok.inj (hopen.symm.trans hopen')
    have hdesc := mounted_descriptor I hload hflag hp hchildren hM hP
    rw [← reports_eq I hp hchildren] at hdesc hstage
    have hlength : (((M.ctx.listing M.tb false children).map fuseDirent).map M.record).length ≤
      S.card := by
      rw [List.length_map, List.length_map]
      exact (offered_length_le _ 0).trans (elems_length_le I hp hchildren)
    refine .node hdesc hstage (Nat.mul_le_mul_left 2 hlength) ?_
    refine mounted_subdirs I hload hflag hP hp hchildren _ (fun t ht q ino fd hq hino hopen => ?_)
      (fun x hx => hx)
      (hlabels.trans (subfolders_eq I hp hchildren))
    have hserves := ih t ht hq hino t.label hopen
    cases t with
    | node id' ts' =>
      rw [Rose.map, Rose.maps_eq]
      exact hserves

end Store

/-- What the checker of a mounted filesystem takes for the identifier of a directory: it does not
know that of the one it starts at. -/
def shownId (top id : ℕ) : ℕ := if id = top then noId else id

/-- The tree behind a descriptor tells the same as the tree of the store. -/
theorem shownId_tree {w : WordSize} {M : Mounting w} {t : Rose ℕ} (honce : t.preorder.Nodup) :
    let root : Rose Folder :=
    .node ⟨noId, M.ctx.reports M.tb t.label⟩ (t.children.map (Rose.map M.folder))
    root.preorder.map (·.id) = t.preorder.map (shownId t.label) ∧
      reported root.preorder = (t.preorder.flatMap fun d => (M.ctx.reports M.tb d).map (⟨d, ·⟩)).map
        fun x : HandlerEntry => { x with parentId := shownId t.label x.parentId } := by
  cases t with
  | node id ts =>
    rw [Rose.preorder, List.nodup_cons] at honce
    have hother : ∀ d ∈ Rose.preorders ts, shownId id d = d := fun d hd =>
      if_neg fun h : d = id => honce.1 (h ▸ hd)
    have hself : shownId id id = noId := if_pos rfl
    simp only [Rose.label, Rose.children, Rose.preorder, ← Rose.maps_eq, Rose.preorders_maps]
    constructor
    · rw [List.map_cons, List.map_cons, hself, List.map_map]
      exact congrArg _ (List.map_congr_left fun d hd => (hother d hd).symm)
    · rw [reported_cons, List.flatMap_cons, List.map_append, reported, List.flatMap_map,
        List.map_flatMap, List.map_map]
      simp only [Function.comp_def, hself, List.map_map]
      refine congrArg _ (List.flatMap_congr fun d hd => ?_)
      simp only [Mounting.folder, hother d hd]

/-- A check of a mounted store comes to the same folders as a check of the store itself, and
reports the same. -/
theorem mounted_check {w : WordSize} {M : Mounting w} {S : Finset EntryRef}
    (digest : Bytes → Hopscotch.Word w) (htb : M.tb = Tables.real digest)
    (hreach : (backend M.tb).Reachable M.ctx) (henv : M.env.WellFormed)
    (hflag : M.ctx.flags.filenameGuid = false)
    (hload : storeLoad M.tb M.ctx M.env = .ok (none, M.ctx))
    (hS : ∀ e, e ∈ S ↔ M.ctx.idMap.Contains e) (hM : M.Works) (hP : Passable M.ctx S) {ino : Ino}
    {id : ℕ} (hino : bookmarkDir ino = some id) {p : EntryRef}
    (hp : Chromium.Directory M.ctx S id p) (fill : ℕ → Fsck.FsckDir ListCookie)
    (fill' : ℕ → FsckDir DirFile) :
    ∃ (fd : DirFile) (entries : List HandlerEntry) (dirs : List ℕ), M.fsOpOpendir ino = .ok fd ∧
      TreeChecked M.ctx S p dirs entries ∧ ∀ dents fuel calls, 2 * S.card < dents →
      dirs.length < fuel →
        entries.length < calls →
        Fsck.nextOnly (M.ctx.served M.tb M.env) fill fuel calls (Fsck.fsckCreate fill id) =
        .ok (.ok entries, dirs) ∧
        nextOnly M.kernel fill' dents fuel calls (fsckCreate fill' fd) =
          .ok (.ok (entries.map fun x => { x with parentId := shownId id x.parentId }),
            dirs.map (shownId id)) := by
  have hf : M.tb.Faithful := htb ▸ Tables.real_faithful digest
  obtain ⟨-, -, hloaded⟩ :=
    (storeLoad_spec hf henv (hreach.holds (backend_consistent hf))).of_ok hload
  obtain ⟨-, -, S', I⟩ := hloaded rfl
  obtain rfl : S' = S := Finset.ext fun e => (I.entries e).trans (hS e).symm
  obtain ⟨t, rfl, ht⟩ := Rose.exists_unfolds (subfolders_down I) id
  obtain ⟨children, hchildren⟩ := Option.ne_none_iff_exists'.mp hp.2.2.2
  obtain ⟨fd, hopen, -⟩ := fsOpOpendir_spec I hload hp hchildren hino
  have hchecked := treeChecked I ht hp
  have hserves := mounted_serves I hload hflag hM hP ht hp hino noId hopen
  refine ⟨fd, _, _, hopen, hchecked, fun dents fuel calls hdents hfuel hcalls => ⟨?_, ?_⟩⟩
  · refine nextOnly_served I hload hflag fill ht hp hfuel ?_
    simpa only [List.length_flatMap, List.length_map] using hcalls
  · obtain ⟨hdirs, hentries⟩ := shownId_tree (M := M) hchecked.once
    rw [← hdirs, ← hentries]
    refine nextOnly_spec fill' (fsckCreate_underway fill' hserves rfl) hdents rfl ?_ ?_
    · have hlength := congrArg List.length hdirs
      rw [List.length_map, List.length_map, Rose.preorder_eq, List.length_cons] at hlength
      omega
    · rw [hentries, List.length_map]
      exact hcalls

/-- A mounted store whose records are listed one at a time. -/
def oneRecord (ctx : Ctx .w64) (env : Env) : Mounting .w64 where
  tb := colliding
  ctx := ctx
  env := env
  mount := ⟨false, true, false, true, 32768, accepted_default⟩
  access := true
  size plus name := (if plus then 152 else 24) + name.length
  bufMax := 4096
  plus _ := true
  reclen name := 20 + name.length
  reclen_pos _ := Nat.add_pos_left (by decide) _
  taken _ := 1
  alloc ino := ino

theorem oneRecord_works (ctx : Ctx .w64) (env : Env) : (oneRecord ctx env).Works where
  access := rfl
  size plus name h := by
    change (if plus then 152 else 24) + name.length ≤ 4096
    change name.length ≤ 255 at h
    split <;> omega
  reclen name h := by
    change 20 + name.length ≤ 4096
    change name.length ≤ 255 at h
    omega
  taken records hne hfit := by
    cases records with
    | nil => exact absurd rfl hne
    | cons d ds =>
      refine ⟨Nat.one_pos, ?_⟩
      change (cellsOf [d]).length ≤ _
      rw [cellsOf_cons, cellsOf_nil, List.append_nil, cells_length]
      exact hfit d List.mem_cons_self

/-- Any answer for memory that has just been allocated -/
def unusedFile : DirFile := ⟨0, 0, 0, none, .new⟩

/-- A mounted store with two folders of one name in a folder -/
theorem mounted_check_twoFoldersOfAName :
    ∃ (ctx : Ctx .w64) (fd : DirFile) (entries : List HandlerEntry)
    (dirs : List ℕ), (oneRecord ctx twoFoldersOfAName).fsOpOpendir intfsIdBookmarks = .ok fd ∧
    TreeChecked ctx ctx.idMap.visited.toFinset rootEntry dirs entries ∧ ∀ dents fuel calls,
      2 * ctx.idMap.visited.toFinset.card < dents → dirs.length < fuel → entries.length < calls →
      Fsck.nextOnly (ctx.served colliding twoFoldersOfAName) (fun _ => ⟨0, none, 0⟩) fuel calls
        (Fsck.fsckCreate (fun _ => ⟨0, none, 0⟩) rootId) = .ok (.ok entries, dirs) ∧
      nextOnly (oneRecord ctx twoFoldersOfAName).kernel (fun _ => ⟨0, unusedFile, false, 0, 0⟩)
      dents fuel calls
        (fsckCreate (fun _ => ⟨0, unusedFile, false, 0, 0⟩) fd) =
          .ok (.ok (entries.map fun x => { x with parentId := shownId rootId x.parentId }),
            dirs.map (shownId rootId)) := by
  have h : Yields (fun _ => False)
      ((Call.lookup rootId none).run colliding (.created ⟨false, false, false⟩) twoFoldersOfAName)
        fun ctx =>
        (ctx.watching = true ∧ ctx.loaded = true ∧ ctx.flags.filenameGuid = false) ∧
        (rootEntry ∈ ctx.idMap.visited ∧ (ctx.ents rootEntry).id = rootId ∧
        (ctx.ents rootEntry).name = some [] ∧
          (ctx.ents rootEntry).children = some (.array 3)) ∧
        ∀ e ∈ ctx.idMap.visited, e ≠ rootEntry → ∀ name ∈ (ctx.ents e).name,
          (validateFilename name = none ∧ (0 : UInt8) ∉ name) ∧ (ctx.attributes e).isOk = true := by
    decide +kernel
  obtain ⟨ctx, hlookup, ⟨hwatching, hloaded, hflag⟩, ⟨hmem, hid, hname, hchildren⟩, hpass⟩ :=
    h.exists_ok
  have hwf : twoFoldersOfAName.WellFormed := Env.written_wellFormed (by decide +kernel)
  have hp : Chromium.Directory ctx ctx.idMap.visited.toFinset rootId rootEntry :=
    ⟨List.mem_toFinset.mpr hmem, hid, by rw [hname]; exact Option.some_ne_none _,
      by rw [hchildren]; exact Option.some_ne_none _⟩
  have hP : Passable ctx ctx.idMap.visited.toFinset := by
    refine ⟨fun e he name hname => ?_, fun e he => ?_⟩
    · obtain ⟨he, hroot, -⟩ := mem_named.mp he
      exact (hpass e (List.mem_toFinset.mp he) hroot name hname).1
    · obtain ⟨he, hroot, hne⟩ := mem_named.mp he
      obtain ⟨name, hname⟩ := Option.ne_none_iff_exists'.mp hne
      have hok := (hpass e (List.mem_toFinset.mp he) hroot name hname).2
      cases hstat : ctx.attributes e with
      | error err => rw [hstat] at hok; cases hok
      | ok stat => exact ⟨stat, rfl⟩
  exact ⟨ctx, @mounted_check .w64 (oneRecord ctx twoFoldersOfAName) _ (fun _ => 0) rfl
    (reachable_created hwf hlookup)
    hwf hflag (storeLoad_loaded hwatching hloaded rfl)
    (fun e => List.mem_toFinset.trans (Hopscotch.Hashmap.mem_visited_iff _ e)) (oneRecord_works _ _)
      hP intfsIdBookmarks rootId
    rfl rootEntry hp _ _⟩

end BookmarkFS.Fsck.Online
