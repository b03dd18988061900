import BookmarkFS.Fsck.Online
import BookmarkFS.Fsck.Traversal
import BookmarkFS.Library.Transition

/-! # What a recursive walk visits in a mounted filesystem

The records of a level stand between where those of the levels below end, and where the
records of the level above start. How many of them a call of `getdents()` finds is up to
the kernel.
-/
namespace BookmarkFS.Fsck.Online
open Library
open Chromium (Errno FsckReport)

/-- A directory, with what is wrong with its children. -/
structure Folder where
  id : ℕ
  bad : List FsckReport

/-- What the handler is to be given for some directories. -/
def reported (folders : List Folder) : List HandlerEntry :=
  folders.flatMap fun f => f.bad.map (⟨f.id, ·⟩)

/-- A directory on the stack, with the subdirectories that are still to be entered. -/
structure Frame where
  tree : Rose Folder
  todo : List (Rose Folder)

def Frame.fresh (t : Rose Folder) : Frame := ⟨t, t.children⟩

/-- What is still to be visited, below the directories on the stack. -/
def leftOf (frames : List Frame) : List Folder := Rose.left (frames.map (·.todo))

def bottom (frames : List Frame) : Option (Rose Folder) := frames.getLast?.map (·.tree)

/-- The directory that is entered next, once those that are done have been left. -/
def enter : List Frame → Option (Rose Folder × List Frame)
  | [] => none
  | f :: fs =>
    match f.todo with
    | [] => enter fs
    | t :: ts => some (t, { f with todo := ts } :: fs)

section Frames

variable {f : Frame} {fs frames frames' : List Frame} {t : Rose Folder} {ts : List (Rose Folder)}

theorem enter_nil (h : f.todo = []) : enter (f :: fs) = enter fs := by
  simp only [enter, h]

theorem enter_cons (h : f.todo = t :: ts) :
    enter (f :: fs) = some (t, { f with todo := ts } :: fs) := by
  simp only [enter, h]

theorem advance_todo (frames : List Frame) :
    Rose.advance (frames.map (·.todo)) = (enter frames).map fun (t, frames') =>
    (t, frames'.map (·.todo)) := by
  induction frames with
  | nil => rfl
  | cons f fs ih =>
    cases htodo : f.todo with
    | nil => rw [List.map_cons, htodo, enter_nil htodo]; exact ih
    | cons t ts => rw [List.map_cons, htodo, enter_cons htodo]; rfl

theorem leftOf_enter_none (h : enter frames = none) : leftOf frames = [] :=
  Rose.left_of_advance_none (by rw [advance_todo, h]; rfl)

theorem leftOf_enter (h : enter frames = some (t, frames')) :
    leftOf frames = t.label :: leftOf (Frame.fresh t :: frames') :=
  Rose.left_of_advance (by rw [advance_todo, h]; rfl)

theorem bottom_cons (hfs : fs ≠ []) : bottom (f :: fs) = bottom fs := by
  rw [bottom, List.getLast?_cons_of_ne_nil hfs, bottom]

theorem enter_bottom (h : enter frames = some (t, frames')) : frames' ≠ [] ∧
    bottom frames' = bottom frames := by
  induction frames with
  | nil => cases h
  | cons f fs ih =>
    cases htodo : f.todo with
    | nil =>
      rw [enter_nil htodo] at h
      obtain ⟨hne, hbottom⟩ := ih h
      exact ⟨hne, hbottom.trans (bottom_cons fun hfs => by rw [hfs] at h; cases h).symm⟩
    | cons t' ts =>
      rw [enter_cons htodo] at h
      obtain ⟨-, rfl⟩ := Prod.mk.inj (Option.some.inj h)
      refine ⟨List.cons_ne_nil _ _, ?_⟩
      cases fs with
      | nil => rfl
      | cons f' fs => rw [bottom_cons (List.cons_ne_nil _ _), bottom_cons (List.cons_ne_nil _ _)]

theorem reported_cons (folder : Folder) (folders : List Folder) :
    reported (folder :: folders) = folder.bad.map (⟨folder.id, ·⟩) ++ reported folders :=
    List.flatMap_cons

end Frames

/-! ## Records in the buffer -/

/-- These records are what the buffer holds between two offsets. -/
def Segment (buf : List Cell) (off stop : ℕ) (records : List DirRecord) : Prop :=
  off + (cellsOf records).length = stop ∧ (buf.take stop).drop off = cellsOf records

section Cells

variable {buf buf' : List Cell} {off stop : ℕ} {record : DirRecord} {records : List DirRecord}

@[simp] theorem cells_length (d : DirRecord) : d.cells.length = d.reclen := by
  have := d.reclen_pos
  simp only [DirRecord.cells, List.length_cons, List.length_replicate]
  omega

@[simp] theorem cellsOf_nil : cellsOf [] = [] := rfl

@[simp] theorem cellsOf_cons (d : DirRecord) (records : List DirRecord) :
    cellsOf (d :: records) = d.cells ++ cellsOf records := List.flatMap_cons

theorem Segment.nil (off : ℕ) : Segment buf off off [] :=
  ⟨rfl, List.drop_eq_nil_of_le (List.length_take_le _ _)⟩

theorem Segment.le (h : Segment buf off stop records) : off ≤ stop := h.1 ▸ Nat.le_add_right _ _

theorem Segment.empty (h : Segment buf off off records) : records = [] := by
  cases records with
  | nil => rfl
  | cons d records =>
    have := h.1
    have := d.reclen_pos
    simp only [cellsOf_cons, List.length_append, cells_length] at *
    omega

theorem Segment.congr (h : Segment buf off stop records) (hbuf : buf'.take stop = buf.take stop) :
    Segment buf' off stop records := ⟨h.1, by rw [hbuf]; exact h.2⟩

theorem Segment.head (h : Segment buf off stop (record :: records)) :
    buf[off]? = some (some record) ∧ off + record.reclen ≤ stop ∧
    Segment buf (off + record.reclen) stop records := by
  obtain ⟨hlength, hcells⟩ := h
  have hpos := record.reclen_pos
  simp only [cellsOf_cons, List.length_append, cells_length] at hlength hcells
  refine ⟨?_, by omega, by omega, ?_⟩
  · have hfirst : ((buf.take stop).drop off)[0]? = some (some record) := by rw [hcells]; rfl
    rw [List.getElem?_drop, List.getElem?_take_of_lt (by omega)] at hfirst
    exact hfirst
  · rw [← List.drop_drop, hcells, ← cells_length record, List.drop_left]

theorem growDents_take (hstop : stop ≤ buf.length) (start : ℕ) :
    (growDents buf start).take stop = buf.take stop := by
  rw [growDents]
  split
  · exact List.take_append_of_le_length hstop
  · rfl

theorem growDents_length (buf : List Cell) (start : ℕ) :
    start + direntBufsize ≤ (growDents buf start).length := by
  rw [growDents]
  split
  · simp only [List.length_append, List.length_replicate]; omega
  · omega

theorem segment_stored (records : List DirRecord) {start : ℕ} (hstart : start ≤ buf.length) :
    let buf' := buf.take start ++ cellsOf records ++ buf.drop (start + (cellsOf records).length)
    buf'.take start = buf.take start ∧
      Segment buf' start (start + (cellsOf records).length) records := by
  have hlength : (buf.take start).length = start := List.length_take_of_le hstart
  refine ⟨?_, rfl, ?_⟩
  · rw [List.append_assoc, List.take_left' hlength]
  · rw [List.take_left' (by rw [List.length_append, hlength]), List.drop_left' hlength]

end Cells

/-! ## What a mounted filesystem holds -/

/-- What a descriptor is still to tell: of these bad children, and of these records. -/
abbrev Stage (φ : Type) := List FsckReport → List DirRecord → φ → Prop

section Contract

variable {φ : Type} (K : Kernel φ)

/-- The answers on the descriptor of a directory. A call of `getdents()` may find any number of
records, as long as there are some and they fit. -/
structure Descriptor (bad : List FsckReport) (records : List DirRecord)
    (stage : Stage φ) : Prop where
  report : ∀ {r rs l fd}, stage (r :: rs) l fd → ∃ fd', K.fsckNext fd = (.ok (some r), fd') ∧
    stage rs l fd'
  good : ∀ {l fd}, stage [] l fd → ∃ fd' rs, K.fsckNext fd = (.ok none, fd') ∧ stage rs l fd'
  rewind : ∀ {rs l fd}, stage rs l fd → ∃ fd', K.fsckRewind fd = (.ok (), fd') ∧ stage bad l fd'
  seek : ∀ {rs l fd}, stage rs l fd → ∃ fd', K.lseek fd = (.ok (), fd') ∧ stage rs records fd'
  atEnd : ∀ {rs fd}, stage rs [] fd → ∃ fd', K.getdents fd direntBufsize = (.ok [], fd') ∧
    stage rs [] fd'
  more : ∀ {rs l fd}, stage rs l fd → l ≠ [] → ∃ d ds rest fd', l = d :: ds ++ rest ∧
    (cellsOf (d :: ds)).length ≤ direntBufsize ∧
    K.getdents fd direntBufsize = (.ok (d :: ds), fd') ∧ stage rs rest fd'

variable (most : ℕ)

mutual

/-- Behind a descriptor is this tree of directories, with at most so many turns of the loop in
`next_subdir()` for the records of each. -/
inductive Serves : Rose Folder → φ → Prop
  | node {folder : Folder} {ts : List (Rose Folder)} {fd : φ} {records : List DirRecord}
  {stage : Stage φ} :
      Descriptor K folder.bad records stage → stage folder.bad records fd →
        2 * records.length ≤ most →
      Subdirs stage records ts → Serves (.node folder ts) fd

/-- These records, among which are the subdirectories of a directory -/
inductive Subdirs : Stage φ → List DirRecord → List (Rose Folder) → Prop
  | nil {stage : Stage φ} : Subdirs stage [] []
  | file {stage : Stage φ} {record : DirRecord} {records : List DirRecord} {ts :
      List (Rose Folder)} :
      record.isDir = false → Subdirs stage records ts → Subdirs stage (record :: records) ts
  | dir {stage : Stage φ} {record : DirRecord} {records : List DirRecord} {t : Rose Folder} {ts :
      List (Rose Folder)}
      {ino : ℕ} {inner : φ → φ} : record.isDir = true →
      (∀ {rs l fd}, stage rs l fd → K.openat fd record.name = .ok (ino, inner fd)) →
      ino % 2 ^ 61 = t.label.id →
      (∀ {rs l fd}, stage rs l fd → Serves t (inner fd)) → Subdirs stage records ts →
      Subdirs stage (record :: records) (t :: ts)

end

/-- The record of a directory, whose listing is in the buffer up to an offset. -/
inductive Opened (buf : List Cell) (stop : ℕ) (dir : FsckDir φ) (bad : List FsckReport)
    (f : Frame) : Prop
  | intro {stage : Stage φ} {records here rest : List DirRecord} :
  Descriptor K f.tree.label.bad records stage →
      Subdirs K most stage records f.tree.children → 2 * records.length ≤ most →
      stage bad rest dir.fd →
      here.length + 2 * rest.length ≤ most → dir.dentStart ≤ dir.dentOff →
      Segment buf dir.dentOff stop here →
      Subdirs K most stage (here ++ rest) f.todo → dir.id = f.tree.label.id →
      Opened buf stop dir bad f

/-- The records from the bottom of the stack on, for the levels of a walk. Only the children of the
topmost one may still have to be checked. -/
def Levels (stack : List (FsckDir φ)) (buf : List Cell) : ℕ → Bool → List FsckReport →
    List Frame → Prop
  | stop, _, _, [] => stop = 0
  | stop, done, bad, f :: fs => ∃ dir bad', stack[fs.length]? = some dir ∧ dir.done = done ∧
      Opened K most buf stop dir bad f ∧ Levels stack buf dir.dentStart true bad' fs

end Contract

/-- The memory is as large as it is said to be, and can grow. -/
structure Sized {φ : Type} (ctx : FsckCtx φ) : Prop where
  allocated : ctx.dirStack.length = ctx.dirStackSize
  two_le : 2 ≤ ctx.dirStackSize
  used_le : ctx.dentBufUsed ≤ ctx.dentBuf.length
  recursive : ctx.recursive = true

section Levels

variable {φ : Type} {K : Kernel φ} {most stop stop' : ℕ} {stack stack' : List (FsckDir φ)}
  {buf buf' : List Cell}
  {done : Bool} {bad : List FsckReport} {f : Frame} {fs frames : List Frame} {dir : FsckDir φ}

theorem take_mono (h : buf'.take stop = buf.take stop) (hle : stop' ≤ stop) :
    buf'.take stop' = buf.take stop' := by
  have := congrArg (List.take stop') h
  rwa [List.take_take, List.take_take, Nat.min_eq_left hle] at this

theorem Opened.congr (h : Opened K most buf stop dir bad f)
    (hbuf : buf'.take stop = buf.take stop) :
    Opened K most buf' stop dir bad f := by
  obtain ⟨hdesc, hall, hmost, hstage, hturns, hstart, hseg, hsub, hid⟩ := h
  exact ⟨hdesc, hall, hmost, hstage, hturns, hstart, hseg.congr hbuf, hsub, hid⟩

theorem Opened.start_le (h : Opened K most buf stop dir bad f) : dir.dentStart ≤ stop := by
  obtain ⟨-, -, -, -, -, hstart, hseg, -, -⟩ := h
  exact hstart.trans hseg.le

/-- What is put in the place of a record -/
theorem getElem?_replaced {idx : ℕ} (h : stack[idx]? = some dir) (dir' : FsckDir φ) :
    (stack.set idx dir')[idx]? = some dir' :=
  List.getElem?_set_self (List.getElem?_eq_some_iff.mp h).1

theorem Levels.congr (h : Levels K most stack buf stop done bad frames)
    (hstack : ∀ i < frames.length, stack'[i]? = stack[i]?) (hbuf : buf'.take stop = buf.take stop) :
    Levels K most stack' buf' stop done bad frames := by
  induction frames generalizing stop done bad with
  | nil => exact h
  | cons f fs ih =>
    obtain ⟨dir, bad', hat, hdone, hopened, hrest⟩ := h
    exact ⟨dir, bad', (hstack _ (by simp)).trans hat, hdone, hopened.congr hbuf,
      ih hrest (fun i hi => hstack i (hi.trans (by simp))) (take_mono hbuf hopened.start_le)⟩

theorem Levels.set (h : Levels K most stack buf stop done bad frames) {idx : ℕ}
    (hidx : frames.length ≤ idx) (dir : FsckDir φ) (hbuf : buf'.take stop = buf.take stop) :
    Levels K most (stack.set idx dir) buf' stop done bad frames :=
  h.congr (fun i hi => List.getElem?_set_ne (by omega)) hbuf

theorem Levels.lt (h : Levels K most stack buf stop done bad (f :: fs)) :
    fs.length < stack.length := by
  obtain ⟨dir, bad', hat, -⟩ := h
  exact (List.getElem?_eq_some_iff.mp hat).1

theorem Sized.set {ctx : FsckCtx φ} (h : Sized ctx) (idx : ℕ) (dir : FsckDir φ) :
    Sized { ctx with dirStack := ctx.dirStack.set idx dir } :=
  ⟨(List.length_set ..).trans h.allocated, h.two_le, h.used_le, h.recursive⟩

end Levels

section Steps

variable {φ : Type} {K : Kernel φ} {most : ℕ} {stage : Stage φ} {bad bad' : List FsckReport}
  {records here rest : List DirRecord} {ts : List (Rose Folder)} {t : Rose Folder} {ctx : FsckCtx φ}
    {dir : FsckDir φ}
  {off fuel : ℕ}

/-! ## The next subdirectory -/

/-- The buffer of a context, which has been filled from an offset on. -/
structure Filled (ctx : FsckCtx φ) (start : ℕ) (buf : List Cell) (used : ℕ) : Prop where
  below : buf.take start = ctx.dentBuf.take start
  start_le : start ≤ used
  used_le : used ≤ buf.length

def Opens (K : Kernel φ) (most : ℕ) (fd : φ) (record : DirRecord) (t : Rose Folder)
    (fd' : φ) : Prop :=
  ∃ ino, K.openat fd record.name = .ok (ino, fd') ∧ ino % 2 ^ 61 = t.label.id ∧ Serves K most t fd'

/-- What `next_subdir()` returns and leaves, where these subdirectories are still to be found. -/
inductive Found (K : Kernel φ) (most : ℕ) (stage : Stage φ) (bad : List FsckReport)
    (ctx : FsckCtx φ) (dir : FsckDir φ)
    (turns : ℕ) : List (Rose Folder) → Except Errno (Option DirRecord) × FsckCtx φ × FsckDir φ →
    Prop
  | none {buf : List Cell} {used : ℕ} {fd : φ} : Filled ctx dir.dentStart buf used →
  stage bad [] fd →
      Found K most stage bad ctx dir turns []
        (.ok none, { ctx with dentBuf := buf, dentBufUsed := used }, { dir with fd := fd })
  | some {buf : List Cell} {used off : ℕ} {fd fd' : φ} {record : DirRecord} {here rest :
      List DirRecord}
      {t : Rose Folder} {ts : List (Rose Folder)} : Filled ctx dir.dentStart buf used →
        stage bad rest fd →
      dir.dentStart ≤ off → Segment buf off used here → here.length + 2 * rest.length ≤ turns →
      Subdirs K most stage (here ++ rest) ts → Opens K most fd record t fd' →
      Found K most stage bad ctx dir turns (t :: ts)
        (.ok (some record), { ctx with dentBuf := buf, dentBufUsed := used },
          { dir with fd := fd, dentOff := off })

/-- A call of `getdents()`, once all records in the buffer have been looked at -/
theorem refill_spec (hdesc : Descriptor K bad' records stage) (hstage : stage bad rest dir.fd)
    (hstart : dir.dentStart ≤ ctx.dentBufUsed) (hused : ctx.dentBufUsed ≤ ctx.dentBuf.length) :
    (rest = [] ∧ ∃ buf fd, Filled ctx dir.dentStart buf ctx.dentBufUsed ∧ stage bad [] fd ∧
      refill K ctx dir = .ok (.ok false, { ctx with dentBuf := buf }, { dir with fd := fd })) ∨
    ∃ buf used fd here' rest', rest = here' ++ rest' ∧ here' ≠ [] ∧
    Filled ctx dir.dentStart buf used ∧
      Segment buf dir.dentStart used here' ∧ stage bad rest' fd ∧ refill K ctx dir =
        .ok (.ok true, { ctx with dentBuf := buf, dentBufUsed := used },
        { dir with fd := fd }) := by
  have hlength := growDents_length ctx.dentBuf dir.dentStart
  have hbelow : ∀ {k}, k ≤ ctx.dentBuf.length → (growDents ctx.dentBuf dir.dentStart).take k =
    ctx.dentBuf.take k :=
    fun hk => growDents_take hk _
  rcases eq_or_ne rest [] with rfl | hne
  · obtain ⟨fd', hget, hstage'⟩ := hdesc.atEnd hstage
    refine .inl ⟨rfl, growDents ctx.dentBuf dir.dentStart, fd', ⟨hbelow (hstart.trans hused),
      hstart, ?_⟩, hstage', ?_⟩
    · rw [growDents]
      split
      · rw [List.length_append]; omega
      · exact hused
    · simp only [refill, hget]
  · obtain ⟨d, ds, rest', fd', rfl, hfit, hget, hstage'⟩ := hdesc.more hstage hne
    obtain ⟨htake, hseg⟩ := segment_stored (d :: ds)
      ((hstart.trans hused).trans (show ctx.dentBuf.length ≤
        (growDents ctx.dentBuf dir.dentStart).length by
        rw [growDents]; split
        · rw [List.length_append]; omega
        · exact le_rfl))
    refine .inr ⟨_, _, fd', d :: ds, rest', rfl, List.cons_ne_nil _ _,
      ⟨htake.trans (hbelow (hstart.trans hused)), Nat.le_add_right _ _, ?_⟩, hseg, hstage', ?_⟩
    · simp only [List.length_append, List.length_take, List.length_drop]
      omega
    · simp only [refill, hget, if_pos (show dir.dentStart + (cellsOf (d :: ds)).length ≤
        (growDents ctx.dentBuf dir.dentStart).length by omega)]

theorem recordAt_spec {record : DirRecord}
    (h : Segment ctx.dentBuf off ctx.dentBufUsed (record :: here)) :
    recordAt ctx off = .ok record := by
  obtain ⟨hat, hle, -⟩ := h.head
  simp only [recordAt, hat, if_pos hle]

/-- The loop finds the next subdirectory that it has not found before, however the listing is cut
into calls of `getdents()`. -/
theorem nextSubdirFrom_spec (hdesc : Descriptor K bad' records stage)
    (hstage : stage bad rest dir.fd) (hstart : dir.dentStart ≤ off)
    (hseg : Segment ctx.dentBuf off ctx.dentBufUsed here)
    (hused : ctx.dentBufUsed ≤ ctx.dentBuf.length) (hsub : Subdirs K most stage (here ++ rest) ts)
    {turns : ℕ} (hturns : here.length + 2 * rest.length ≤ turns)
    (hfuel : here.length + 2 * rest.length < fuel) :
    ∃ result, nextSubdirFrom K fuel ctx dir off = .ok result ∧
    Found K most stage bad ctx dir turns ts result := by
  induction fuel generalizing ctx dir off here rest with
  | zero => cases hfuel
  | succ fuel ih =>
    cases here with
    | nil =>
      obtain rfl : off = ctx.dentBufUsed := hseg.1
      rw [List.nil_append] at hsub
      obtain ⟨rfl, buf, fd, hfilled, hstage', hrefill⟩ |
        ⟨buf, used, fd, here', rest', rfl, hne, hfilled, hseg', hstage', hrefill⟩ :=
          refill_spec hdesc hstage hstart hused
      · cases hsub
        exact ⟨_, by simp only [nextSubdirFrom, if_true, hrefill, ok_bind], .none hfilled hstage'⟩
      · have hpos : 0 < here'.length := List.length_pos_iff.mpr hne
        rw [List.length_nil, List.length_append] at hturns hfuel
        obtain ⟨result, hrun, hfound⟩ :=
          @ih here' rest' { ctx with dentBuf := buf, dentBufUsed := used }
          { dir with fd := fd } dir.dentStart hstage' le_rfl hseg' hfilled.used_le hsub
            (by omega) (by omega)
        refine ⟨result, by simp only [nextSubdirFrom, if_true, hrefill, ok_bind, hrun], ?_⟩
        cases hfound with
        | none h hend =>
          exact .none ⟨h.below.trans hfilled.below, h.start_le, h.used_le⟩ hend
        | some h hrest hoff hat hle hleft hopens =>
          exact .some ⟨h.below.trans hfilled.below, h.start_le, h.used_le⟩ hrest hoff hat
            hle hleft hopens
    | cons record here =>
      have hne : off ≠ ctx.dentBufUsed := fun h => by
        rw [h] at hseg
        cases hseg.empty
      obtain ⟨-, -, hseg'⟩ := hseg.head
      rw [List.length_cons] at hturns hfuel
      cases hsub with
      | file hfile hsub =>
        obtain ⟨result, hrun, hfound⟩ :=
          ih hstage (hstart.trans (Nat.le_add_right _ _)) hseg' hused hsub (by omega) (by omega)
        refine ⟨result, ?_, hfound⟩
        simp only [nextSubdirFrom, if_neg hne, recordAt_spec hseg, ok_bind, hfile,
          Bool.false_eq_true, if_false, hrun]
      | dir hdir hopenat hino hserves hsub =>
        refine ⟨_, ?_, .some ⟨rfl, hstart.trans hseg.le, hused⟩ hstage
          (hstart.trans (Nat.le_add_right _ _)) hseg'
          (by omega) hsub ⟨_, hopenat hstage, hino, hserves hstage⟩⟩
        simp only [nextSubdirFrom, if_neg hne, recordAt_spec hseg, ok_bind, hdir, if_true]

/-! ## Turns -/

variable {f : Frame} {fs frames frames' : List Frame} {stop dents : ℕ}

/-- `next_subdir()` on the level on top, where nothing is left -/
theorem nextSubdir_none (hsized : Sized ctx)
    (h : Levels K most ctx.dirStack ctx.dentBuf ctx.dentBufUsed true bad (f :: fs))
    (hdents : most < dents) (htodo : f.todo = []) :
    ∃ ctx' dir' bad', nextSubdir K dents ctx fs.length = .ok (.ok none, ctx', dir') ∧
      Sized { ctx' with dentBufUsed := dir'.dentStart } ∧ ctx'.allDone = ctx.allDone ∧
      Levels K most ctx'.dirStack ctx'.dentBuf dir'.dentStart true bad' fs := by
  obtain ⟨dir, bad', hat, -, ⟨hdesc, -, -, hstage, hturns, hstart, hseg, hsub, -⟩, hrest⟩ := h
  rw [htodo] at hsub
  obtain ⟨result, hrun, hfound⟩ :=
    nextSubdirFrom_spec hdesc hstage hstart hseg hsized.used_le hsub hturns (hturns.trans_lt hdents)
  cases hfound with
  | @none buf used fd hfilled =>
    exact ⟨{ ctx with dirStack := ctx.dirStack.set fs.length { dir with fd := fd }, dentBuf := buf, dentBufUsed := used },
      { dir with fd := fd }, bad', by simp only [nextSubdir, hat, hrun, ok_bind],
      ⟨(List.length_set ..).trans hsized.allocated, hsized.two_le,
      hfilled.start_le.trans hfilled.used_le,
        hsized.recursive⟩, rfl, hrest.set le_rfl _ hfilled.below⟩

/-- `next_subdir()` on the level on top, where a subdirectory is left -/
theorem nextSubdir_some (hsized : Sized ctx)
    (h : Levels K most ctx.dirStack ctx.dentBuf ctx.dentBufUsed true bad (f :: fs))
    (hdents : most < dents) (htodo : f.todo = t :: ts) :
    ∃ ctx' dir' record fd, nextSubdir K dents ctx fs.length = .ok (.ok (some record), ctx', dir') ∧
    Sized ctx' ∧
      ctx'.allDone = ctx.allDone ∧
      Levels K most ctx'.dirStack ctx'.dentBuf ctx'.dentBufUsed true bad
      ({ f with todo := ts } :: fs) ∧
      Opens K most dir'.fd record t fd := by
  obtain ⟨dir, bad', hat, hdone, ⟨hdesc, hall, hmost, hstage, hturns, hstart, hseg, hsub, hid⟩,
    hrest⟩ := h
  rw [htodo] at hsub
  obtain ⟨result, hrun, hfound⟩ :=
    nextSubdirFrom_spec hdesc hstage hstart hseg hsized.used_le hsub hturns (hturns.trans_lt hdents)
  cases hfound with
  | @some buf used off fd fd' record _ _ _ _ hfilled hstage' hoff hat' hleft hsub' hopens =>
    exact ⟨{ ctx with
        dirStack := ctx.dirStack.set fs.length { dir with fd := fd, dentOff := off }
        dentBuf := buf
        dentBufUsed := used },
      { dir with fd := fd, dentOff := off }, record, fd', by
      simp only [nextSubdir, hat, hrun, ok_bind],
      ⟨(List.length_set ..).trans hsized.allocated, hsized.two_le, hfilled.used_le,
      hsized.recursive⟩, rfl,
      ⟨_, bad', getElem?_replaced hat _, hdone,
        ⟨hdesc, hall, hmost, hstage', hleft, hoff, hat', hsub', hid⟩,
        hrest.set le_rfl _ hfilled.below⟩, hopens⟩

/-- What the loop over `next_subdir()` leaves: the levels that are not done. -/
inductive Down (K : Kernel φ) (most : ℕ) (allDone : Bool) (frames : List Frame) :
    Except Errno (Option DirRecord) × FsckCtx φ × FsckDir φ × ℕ → Prop
  | none {ctx : FsckCtx φ} {dir : FsckDir φ} : enter frames = none →
  Down K most allDone frames (.ok none, ctx, dir, 0)
  | some {ctx : FsckCtx φ} {dir : FsckDir φ} {record : DirRecord} {t : Rose Folder} {f : Frame}
      {fs : List Frame}
      {fd : φ} {bad : List FsckReport} : enter frames = some (t, f :: fs) → Sized ctx →
        ctx.allDone = allDone →
      Levels K most ctx.dirStack ctx.dentBuf ctx.dentBufUsed true bad (f :: fs) →
      Opens K most dir.fd record t fd →
      Down K most allDone frames (.ok (some record), ctx, dir, fs.length)

theorem subdirDown_spec (hsized : Sized ctx)
    (h : Levels K most ctx.dirStack ctx.dentBuf ctx.dentBufUsed true bad (f :: fs))
    (hdents : most < dents) :
    ∃ result, subdirDown K dents fs.length ctx = .ok result ∧
    Down K most ctx.allDone (f :: fs) result := by
  induction fs generalizing f ctx bad with
  | nil =>
    cases htodo : f.todo with
    | nil =>
      obtain ⟨ctx', dir', -, hrun, -⟩ := nextSubdir_none hsized h hdents htodo
      rw [List.length_nil] at hrun
      exact ⟨(.ok none, ctx', dir', 0), by simp only [List.length_nil, subdirDown, hrun, ok_bind],
        .none (enter_nil htodo)⟩
    | cons t ts =>
      obtain ⟨ctx', dir', record, fd, hrun, hsized', hall, hlevels, hopens⟩ :=
        nextSubdir_some hsized h hdents htodo
      rw [List.length_nil] at hrun
      exact ⟨_, by simp only [List.length_nil, subdirDown, hrun, ok_bind],
        .some (enter_cons htodo) hsized' hall hlevels hopens⟩
  | cons f₁ fs ih =>
    cases htodo : f.todo with
    | nil =>
      obtain ⟨ctx', dir', bad', hrun, hsized', hall, hlevels⟩ :=
        nextSubdir_none hsized h hdents htodo
      rw [List.length_cons] at hrun
      obtain ⟨result, hdown, hresult⟩ := ih hsized' hlevels
      refine ⟨result, by simp only [List.length_cons, subdirDown, hrun, ok_bind, hdown], ?_⟩
      rw [← hall]
      cases hresult with
      | none h => exact .none ((enter_nil htodo).trans h)
      | some h hs ha hl ho => exact .some ((enter_nil htodo).trans h) hs ha hl ho
    | cons t ts =>
      obtain ⟨ctx', dir', record, fd, hrun, hsized', hall, hlevels, hopens⟩ :=
        nextSubdir_some hsized h hdents htodo
      rw [List.length_cons] at hrun
      exact ⟨_, by simp only [List.length_cons, subdirDown, hrun, ok_bind],
        .some (enter_cons htodo) hsized' hall hlevels hopens⟩

theorem growStack_spec (fill : ℕ → FsckDir φ) (hsized : Sized ctx) :
    Sized (growStack fill ctx) ∧ ctx.dirStackSize < (growStack fill ctx).dirStack.length ∧
      ∀ i < ctx.dirStackSize, (growStack fill ctx).dirStack[i]? = ctx.dirStack[i]? := by
  have htwo := hsized.two_le
  have hlt : ctx.dirStackSize < ctx.dirStackSize + ctx.dirStackSize / 2 := by omega
  have hlength : (growStack fill ctx).dirStack.length = ctx.dirStackSize + ctx.dirStackSize / 2 :=
    reallocate_length _ _ _
  exact ⟨⟨hlength, htwo.trans hlt.le, hsized.used_le, hsized.recursive⟩, hlt.trans_eq hlength.symm,
    fun i hi => reallocate_getElem? fill (hsized.allocated ▸ hi) (hi.trans hlt)⟩

/-- A directory that has been opened is put on top of the levels, in memory that is enlarged where
it has to be. -/
theorem pushDir_spec (fill : ℕ → FsckDir φ) (hsized : Sized ctx)
    (h : Levels K most ctx.dirStack ctx.dentBuf ctx.dentBufUsed true bad frames)
    (hle : frames.length ≤ ctx.dirStackSize) {fd : φ} (hserves : Serves K most t fd) :
    ∃ ctx', pushDir fill ctx frames.length t.label.id fd = .ok (ctx', frames.length) ∧ Sized ctx' ∧
      ctx'.allDone = ctx.allDone ∧
      Levels K most ctx'.dirStack ctx'.dentBuf ctx'.dentBufUsed false t.label.bad
        (Frame.fresh t :: frames) := by
  have hopened : Opened K most ctx.dentBuf ctx.dentBufUsed ⟨t.label.id, fd, false, ctx.dentBufUsed,
    ctx.dentBufUsed⟩
      t.label.bad (Frame.fresh t) := by
    cases hserves with
    | @node folder ts fd records stage hdesc hstage hmost hsub =>
      have hturns : ([] : List DirRecord).length + 2 * records.length ≤ most := by simpa using hmost
      exact .intro hdesc hsub hmost hstage hturns le_rfl (Segment.nil _) hsub rfl
  by_cases hfull : ctx.dirStackSize ≤ frames.length
  · have hidx : ctx.dirStackSize = frames.length := le_antisymm hfull hle
    obtain ⟨hgrown, hlt, hsame⟩ := growStack_spec fill hsized
    rw [hidx] at hlt hsame
    refine ⟨_, ?_, hgrown.set frames.length _, rfl, _, bad, List.getElem?_set_self hlt, rfl,
      hopened,
      (h.congr hsame rfl).set le_rfl _ rfl⟩
    simp only [pushDir, hidx, le_refl, if_true, if_pos hlt]
    rfl
  · have hlt : frames.length < ctx.dirStack.length := by
      rw [hsized.allocated]
      exact not_le.mp hfull
    refine ⟨_, ?_, hsized.set frames.length _, rfl, _, bad, List.getElem?_set_self hlt, rfl,
      hopened,
      h.set le_rfl _ rfl⟩
    simp only [pushDir, if_neg hfull, if_pos hlt]

/-- A subdirectory is entered, or the walk is at its end. -/
theorem enterDir_spec (fill : ℕ → FsckDir φ) (hsized : Sized ctx)
    (h : Levels K most ctx.dirStack ctx.dentBuf ctx.dentBufUsed true bad (f :: fs))
    (hdents : most < dents) :
    ∃ ctx', (enterDir K fill dents ctx fs.length = .ok (some (.ok none), ctx', 0) ∧
      leftOf (f :: fs) = []) ∨
      ∃ t frames', enterDir K fill dents ctx fs.length = .ok (none, ctx', frames'.length) ∧
        enter (f :: fs) = some (t, frames') ∧ Sized ctx' ∧ ctx'.allDone = ctx.allDone ∧
        Levels K most ctx'.dirStack ctx'.dentBuf ctx'.dentBufUsed false t.label.bad
        (Frame.fresh t :: frames') := by
  have hrecursive : ¬ctx.recursive = false := by simp [hsized.recursive]
  obtain ⟨result, hdown, hresult⟩ := subdirDown_spec hsized h hdents
  cases hresult with
  | @none ctx' dir hnone =>
    refine ⟨ctx', .inl ⟨?_, leftOf_enter_none hnone⟩⟩
    simp only [enterDir, if_neg hrecursive, hdown, ok_bind]
  | @some ctx' dir record t f' fs' fd bad' hsome hsized' hall hlevels hopens =>
    obtain ⟨ino, hopenat, hino, hserves⟩ := hopens
    have hle : (f' :: fs').length ≤ ctx'.dirStackSize := hsized'.allocated ▸ hlevels.lt
    obtain ⟨ctx'', hpush, hsized'', hall', hlevels'⟩ :=
      pushDir_spec fill hsized' hlevels hle hserves
    refine ⟨ctx'', .inr ⟨t, f' :: fs', ?_, hsome, hsized'', hall'.trans hall, hlevels'⟩⟩
    rw [List.length_cons] at hpush
    simp only [enterDir, if_neg hrecursive, hdown, ok_bind, hopenat, hino, hpush, List.length_cons]

/-- The directory on top, with those below it, at a point of a walk. -/
structure Stands (K : Kernel φ) (most : ℕ) (root : Rose Folder) (ctx : FsckCtx φ) (idx : ℕ)
    (done : Bool) (bad : List FsckReport) (f : Frame) (fs : List Frame) : Prop where
  sized : Sized ctx
  levels : Levels K most ctx.dirStack ctx.dentBuf ctx.dentBufUsed done bad (f :: fs)
  idx_eq : idx = fs.length
  bottom_eq : bottom (f :: fs) = some root

def toVisit (done : Bool) (bad : List FsckReport) (f : Frame) (fs : List Frame) : List Folder :=
  if done then leftOf (f :: fs) else ⟨f.tree.label.id, bad⟩ :: leftOf (f :: fs)

/-- A point of a walk, what is to be visited from there on, and how many directories are still
to be entered -/
inductive Standing (K : Kernel φ) (most : ℕ) (root : Rose Folder) (ctx : FsckCtx φ) (idx : ℕ) :
    List Folder → ℕ → Prop
  | intro {done : Bool} {bad : List FsckReport} {f : Frame} {fs : List Frame} :
      Stands K most root ctx idx done bad f fs →
      Standing K most root ctx idx (toVisit done bad f fs) (leftOf (f :: fs)).length

/-- What a turn of the loop in `fsck_next()` does. -/
inductive Turned (K : Kernel φ) (most : ℕ) (root : Rose Folder) (allDone : Bool)
    (folders : List Folder) (n : ℕ) :
    (Option Reply × FsckCtx φ × ℕ) × List ℕ → Prop
  | reported {ctx : FsckCtx φ} {idx : ℕ} {folders' : List Folder} {e : HandlerEntry} :
      Standing K most root ctx idx folders' n → ctx.allDone = allDone →
        reported folders = e :: reported folders' →
      folders.map (·.id) = folders'.map (·.id) →
      Turned K most root allDone folders n ((some (.ok (some e)), ctx, idx), [])
  | finished {ctx : FsckCtx φ} {idx : ℕ} {checked : List ℕ} : reported folders = [] →
      folders.map (·.id) = checked →
      Turned K most root allDone folders n ((some (.ok none), ctx, idx), checked)
  | entered {ctx : FsckCtx φ} {idx : ℕ} {folders' : List Folder} {checked : List ℕ} {n' : ℕ} :
      Standing K most root ctx idx folders' n' → ctx.allDone = allDone → n = n' + 1 →
      reported folders = reported folders' → folders.map (·.id) = checked ++ folders'.map (·.id) →
      Turned K most root allDone folders n ((none, ctx, idx), checked)

/-- A turn, once the children of the directory on top have been checked -/
theorem enterDir_turned (fill : ℕ → FsckDir φ) {root : Rose Folder} {idx : ℕ}
    (h : Stands K most root ctx idx true bad f fs) (hdents : most < dents) {folders : List Folder}
    {checked : List ℕ} (hreported : reported folders = reported (leftOf (f :: fs)))
    (hids : folders.map (·.id) = checked ++ (leftOf (f :: fs)).map (·.id)) :
    ∃ result, enterDir K fill dents ctx idx = .ok result ∧
      Turned K most root ctx.allDone folders (leftOf (f :: fs)).length (result, checked) := by
  obtain ⟨hsized, hlevels, rfl, hbottom⟩ := h
  obtain ⟨ctx', ⟨hrun, hleft⟩ | ⟨t, frames', hrun, henter, hsized', hall, hlevels'⟩⟩ :=
    enterDir_spec fill hsized hlevels hdents
  · refine ⟨_, hrun, .finished (hreported.trans (by rw [hleft]; rfl)) ?_⟩
    rw [hids, hleft, List.map_nil, List.append_nil]
  · obtain ⟨hne, hbottom'⟩ := enter_bottom henter
    have hstands : Stands K most root ctx' frames'.length false t.label.bad
      (Frame.fresh t) frames' :=
      ⟨hsized', hlevels', rfl, (bottom_cons hne).trans (hbottom'.trans hbottom)⟩
    have hvisit : leftOf (f :: fs) = toVisit false t.label.bad (Frame.fresh t) frames' :=
      leftOf_enter henter
    refine ⟨_, hrun, .entered (.intro hstands) hall ?_ (hreported.trans (by rw [hvisit]))
      (hids.trans (by rw [hvisit]))⟩
    rw [leftOf_enter henter, List.length_cons]

/-- A turn returns with a bad child, ends the walk, or enters a directory. -/
theorem turn_spec (fill : ℕ → FsckDir φ) {root : Rose Folder} {idx n : ℕ} {folders : List Folder}
    (h : Standing K most root ctx idx folders n) (hdents : most < dents) :
    ∃ result, turn K fill dents ctx idx = .ok result ∧
    Turned K most root ctx.allDone folders n result := by
  obtain ⟨h⟩ := h
  rename_i done bad f fs
  obtain ⟨hsized, ⟨dir, bad', hat, hdone, ⟨hdesc, hall, hmost, hstage, hturns, hstart, hseg, hsub,
    hid⟩, hrest⟩, rfl,
    hbottom⟩ := id h
  cases done with
  | true =>
    obtain ⟨⟨reply, ctx', idx'⟩, hrun, hturned⟩ := enterDir_turned fill h hdents
      (show reported (toVisit true bad f fs) = _ from rfl) (show _ = [] ++ _ from rfl)
    exact ⟨_, by simp only [turn, hat, hdone, if_true, hrun]; rfl, hturned⟩
  | false =>
    cases bad with
    | nil =>
      obtain ⟨fd', bad'', hnext, hstage'⟩ := hdesc.good hstage
      have hstands : Stands K most root
          { ctx with dirStack := ctx.dirStack.set fs.length { dir with fd := fd', done := true } }
          fs.length true bad'' f fs :=
        ⟨hsized.set _ _, ⟨_, bad', getElem?_replaced hat _, rfl,
          ⟨hdesc, hall, hmost, hstage', hturns, hstart, hseg, hsub, hid⟩, hrest.set le_rfl _ rfl⟩,
          rfl, hbottom⟩
      obtain ⟨⟨reply, ctx', idx'⟩, hrun, hturned⟩ := enterDir_turned fill hstands hdents
        (show reported (toVisit false [] f fs) = _ from rfl)
          (show _ = [dir.id] ++ _ by rw [hid]; rfl)
      exact ⟨_, by simp only [turn, hat, hdone, Bool.false_eq_true, if_false, hnext, hrun]; rfl,
        hturned⟩
    | cons r rs =>
      obtain ⟨fd', hnext, hstage'⟩ := hdesc.report hstage
      have hstands : Stands K most root { ctx with dirStack := ctx.dirStack.set fs.length { dir with fd := fd' } }
          fs.length false rs f fs :=
        ⟨hsized.set _ _, ⟨_, bad', getElem?_replaced hat _, hdone,
          ⟨hdesc, hall, hmost, hstage', hturns, hstart, hseg, hsub, hid⟩, hrest.set le_rfl _ rfl⟩,
          rfl, hbottom⟩
      refine ⟨_, ?_, .reported (e := ⟨dir.id, r⟩) (.intro hstands) rfl ?_ rfl⟩
      · simp only [turn, hat, hdone, Bool.false_eq_true, if_false, hnext]
      · rw [hid]
        rfl

/-- What is left once `fsck_next()` has returned. -/
inductive Returns (K : Kernel φ) (most : ℕ) (root : Rose Folder) (folders : List Folder) (n : ℕ) :
    Reply × FsckCtx φ → List ℕ → Prop
  | entry {ctx : FsckCtx φ} {e : HandlerEntry} {folders' : List Folder}
  {checked : List ℕ} {n' : ℕ} :
      Standing K most root ctx ctx.dirStackTop folders' n' → ctx.allDone = false → n' ≤ n →
      reported folders = e :: reported folders' →
      folders.map (·.id) = checked ++ folders'.map (·.id) →
      Returns K most root folders n (.ok (some e), ctx) checked
  | done {ctx : FsckCtx φ} {checked : List ℕ} : reported folders = [] →
      folders.map (·.id) = checked →
      Returns K most root folders n (.ok none, ctx) checked

variable {root : Rose Folder} {idx n : ℕ} {folders : List Folder}

/-- The loop in `fsck_next()` -/
theorem turns_spec (fill : ℕ → FsckDir φ) (h : Standing K most root ctx idx folders n)
    (hdents : most < dents) (hrunning : ctx.allDone = false) (hfuel : n < fuel) :
    ∃ result checked, turns K fill dents fuel ctx idx = .ok (result, checked) ∧
      Returns K most root folders n result checked := by
  induction fuel generalizing ctx idx folders n with
  | zero => cases hfuel
  | succ fuel ih =>
    obtain ⟨result, hturn, hturned⟩ := turn_spec fill h hdents
    cases hturned with
    | @reported ctx' idx' folders' e hstanding hall hreported hids =>
      refine ⟨(.ok (some e), { ctx' with dirStackTop := idx' }),
        [], by simp only [turns, hturn, ok_bind],
        .entry ?_ (hall.trans hrunning) le_rfl hreported (by rw [hids, List.nil_append])⟩
      obtain ⟨hsized, hlevels, hidx, hbottom⟩ := hstanding
      exact .intro ⟨⟨hsized.allocated, hsized.two_le, hsized.used_le, hsized.recursive⟩, hlevels,
        hidx, hbottom⟩
    | finished hreported hids => exact ⟨_, _, by simp only [turns, hturn, ok_bind]; rfl,
        .done hreported hids⟩
    | @entered ctx' idx' folders' checked n' hstanding hall hn hreported hids =>
      obtain ⟨result, more, hturns, hreturns⟩ := ih hstanding (hall.trans hrunning) (by omega)
      refine ⟨result, checked ++ more, by simp only [turns, hturn, hturns, ok_bind], ?_⟩
      cases hreturns with
      | entry hs ha hle he hi =>
        exact .entry hs ha (by omega) (hreported.trans he) (by rw [hids, hi, List.append_assoc])
      | done he hi => exact .done (hreported.trans he) (by rw [hids, hi])

/-- `fsck_next()`, wherever the walk has been left -/
theorem fsckNext_spec (fill : ℕ → FsckDir φ)
    (h : Standing K most root ctx ctx.dirStackTop folders n)
    (hdents : most < dents) (hrunning : ctx.allDone = false) (hfuel : n < fuel) :
    ∃ result checked, fsckNext K fill dents fuel ctx = .ok (result, checked) ∧
      Returns K most root folders n result checked := by
  rw [fsckNext, if_neg (by simp [hrunning])]
  exact turns_spec fill h hdents hrunning hfuel

theorem nextOnly_spec (fill : ℕ → FsckDir φ)
    (h : Standing K most root ctx ctx.dirStackTop folders n)
    (hdents : most < dents) (hrunning : ctx.allDone = false) (hfuel : n < fuel) {calls : ℕ}
    (hcalls : (reported folders).length < calls) :
    nextOnly K fill dents fuel calls ctx = .ok (.ok (reported folders), folders.map (·.id)) := by
  induction calls generalizing ctx folders n with
  | zero => cases hcalls
  | succ calls ih =>
    obtain ⟨⟨reply, ctx'⟩, checked, hnext, hreturns⟩ := fsckNext_spec fill h hdents hrunning hfuel
    cases hreturns with
    | done he hids => simp only [nextOnly, hnext, ok_bind, he, hids]
    | entry hstanding hall hle he hids =>
      rw [he, List.length_cons] at hcalls
      have hrest := ih hstanding hall (by omega) (by omega)
      simp only [nextOnly, hnext, ok_bind, hrest, he, hids]
      rfl

/-- The root alone is on the stack, and is still to be checked. -/
theorem standing_root (hsized : Sized ctx) (htop : ctx.dirStackTop = 0)
    (hused : ctx.dentBufUsed = 0) (hat : ctx.dirStack[0]? = some dir) (hid : dir.id = root.label.id)
    (hdone : dir.done = false) (hstart : dir.dentStart = 0) (hoff : dir.dentOff = 0)
    (hdesc : Descriptor K root.label.bad records stage)
    (hsub : Subdirs K most stage records root.children) (hmost : 2 * records.length ≤ most)
    (hstage : stage root.label.bad records dir.fd) :
    Standing K most root ctx ctx.dirStackTop root.preorder
    (Rose.preorders root.children).length := by
  have hopened : Opened K most ctx.dentBuf ctx.dentBufUsed dir root.label.bad
    (Frame.fresh root) := by
    have hturns : ([] : List DirRecord).length + 2 * records.length ≤ most := by simpa using hmost
    refine .intro hdesc hsub hmost hstage hturns (by rw [hstart]; exact Nat.zero_le _) ?_ hsub hid
    rw [hoff, hused]
    exact Segment.nil 0
  have hstands : Stands K most root ctx ctx.dirStackTop false root.label.bad (Frame.fresh root)
    [] :=
    ⟨hsized, ⟨dir, [], hat, hdone, hopened, hstart⟩, htop, rfl⟩
  have hleft : leftOf [Frame.fresh root] = Rose.preorders root.children := by
    show Rose.left [root.children] = _
    rw [Rose.left_cons, Rose.left_nil, List.append_nil]
  have hstanding := Standing.intro hstands
  have hvisit : toVisit false root.label.bad (Frame.fresh root) [] = root.preorder := by
    rw [Rose.preorder_eq, ← hleft]
    rfl
  rwa [hvisit, hleft] at hstanding

/-! ## What a handler asks for -/

/-- A point of a walk over a tree, from which no more directories can be left than it has -/
def Underway (K : Kernel φ) (most : ℕ) (root : Rose Folder) (ctx : FsckCtx φ) : Prop :=
  ∃ folders n, Standing K most root ctx ctx.dirStackTop folders n ∧
    n ≤ (Rose.preorders root.children).length

theorem Levels.bottom {stack : List (FsckDir φ)} {buf : List Cell} {done : Bool}
    (h : Levels K most stack buf stop done bad frames) (hbottom : bottom frames = some root) :
    ∃ dir stop bad f, stack[0]? = some dir ∧ dir.dentStart = 0 ∧ f.tree = root ∧
    Opened K most buf stop dir bad f := by
  induction frames generalizing stop done bad with
  | nil => cases hbottom
  | cons f fs ih =>
    obtain ⟨dir, bad', hat, -, hopened, hrest⟩ := h
    cases fs with
    | nil => exact ⟨dir, stop, bad, f, hat, hrest, Option.some.inj hbottom, hopened⟩
    | cons f' fs => exact ih hrest ((bottom_cons (List.cons_ne_nil _ _)).symm.trans hbottom)

theorem fsckCreate_underway (fill : ℕ → FsckDir φ) {fd : φ} (h : Serves K most root fd)
    (hid : root.label.id = noId) :
    Standing K most root (fsckCreate fill fd) (fsckCreate fill fd).dirStackTop root.preorder
      (Rose.preorders root.children).length := by
  have hsized : Sized (fsckCreate fill fd) :=
    ⟨by simp [fsckCreate], show 2 ≤ 16 by decide, le_rfl, rfl⟩
  obtain ⟨hdesc, hstage, hmost, hsub⟩ := h
  exact standing_root hsized rfl rfl rfl hid.symm rfl rfl rfl hdesc hsub hmost hstage

/-- RESET goes back to the start. -/
theorem resetTop_spec (h : Underway K most root ctx) (hid : root.label.id = noId) :
    ∃ ctx', fsckControl K ctx .reset = .ok (none, ctx') ∧ ctx'.allDone = false ∧
      Standing K most root ctx' ctx'.dirStackTop root.preorder
      (Rose.preorders root.children).length := by
  obtain ⟨-, -, ⟨hsized, hlevels, htop, hbottom⟩, -⟩ := h
  obtain ⟨dir, stop, bad, f, hat, hstart, rfl, ⟨hdesc, hall, hmost, hstage, -, -, -, -, hdir⟩⟩ :=
    hlevels.bottom hbottom
  obtain ⟨top, -, htopAt, -⟩ := hlevels
  rw [← htop] at htopAt
  obtain ⟨fd, hrewind, hstage⟩ := hdesc.rewind hstage
  obtain ⟨fd', hseek, hstage⟩ := hdesc.seek hstage
  refine ⟨{ ctx with
      dirStack := ctx.dirStack.set 0 { dir with fd := fd', done := false, dentOff := 0 }
      dirStackTop := 0
      dentBufUsed := 0
      allDone := false }, ?_, rfl, ?_⟩
  · simp only [fsckControl, htopAt, resetTop, hat, hrewind, hseek]
  · exact standing_root ⟨(List.length_set ..).trans hsized.allocated, hsized.two_le, Nat.zero_le _,
      hsized.recursive⟩
      rfl rfl (getElem?_replaced hat _) hdir rfl hstart rfl hdesc hall hmost hstage

/-- REWIND, and the last step of SKIP: the children of the directory on top are to be
checked anew. -/
theorem rewindTop_spec {done : Bool} (hsized : Sized ctx) (hbottom : bottom (f :: fs) = some root)
    (htop : ctx.dirStackTop = fs.length) (hat : ctx.dirStack[fs.length]? = some dir)
    (dir' : FsckDir φ)
    (hdone : dir'.done = done) (hopened : Opened K most ctx.dentBuf ctx.dentBufUsed dir' bad f)
    (hrest : Levels K most ctx.dirStack ctx.dentBuf dir'.dentStart true bad' fs)
    (hle : (leftOf (f :: fs)).length ≤ (Rose.preorders root.children).length) :
    ∃ ctx', rewindTop K ctx dir' = .ok (none, ctx') ∧ Underway K most root ctx' := by
  obtain ⟨hdesc, hall, hmost, hstage, hturns, hstart, hseg, hsub, hid⟩ := hopened
  obtain ⟨fd, hrewind, hstage'⟩ := hdesc.rewind hstage
  have hstands : Stands K most root { ctx with dirStack := ctx.dirStack.set fs.length { dir' with fd := fd } }
      ctx.dirStackTop done f.tree.label.bad f fs :=
    ⟨hsized.set _ _, ⟨{ dir' with fd := fd }, bad', getElem?_replaced hat _, hdone,
      ⟨hdesc, hall, hmost, hstage', hturns, hstart, hseg, hsub, hid⟩, hrest.set le_rfl _ rfl⟩,
      htop, hbottom⟩
  exact ⟨_, by simp only [rewindTop, hrewind, htop], _, _, .intro hstands, hle⟩

theorem leftOf_tail_le (f : Frame) (fs : List Frame) :
    (leftOf fs).length ≤ (leftOf (f :: fs)).length := by
  rw [leftOf, leftOf, List.map_cons, Rose.left_cons, List.length_append]
  exact Nat.le_add_left _ _

/-- What a handler asks for leaves a walk at some point of it. -/
theorem fsckControl_spec (h : Underway K most root ctx) (hid : root.label.id = noId)
    (control : Control) :
    ∃ ctx', fsckControl K ctx control = .ok (none, ctx') ∧ Underway K most root ctx' := by
  have hreset := resetTop_spec h hid
  obtain ⟨-, -, ⟨hstands⟩, hle⟩ := h
  rename_i done bad f fs
  obtain ⟨hsized, ⟨dir, bad', hat, hdone, hopened, hrest⟩, htop, hbottom⟩ := id hstands
  have hatTop : ctx.dirStack[ctx.dirStackTop]? = some dir := by rw [htop]; exact hat
  cases control with
  | skip =>
    obtain ⟨hdesc, hall, hmost, hstage, hturns, hstart, hseg, hsub, hdir⟩ := hopened
    obtain ⟨ctx', hrun, hunderway⟩ :=
      rewindTop_spec hsized hbottom htop hat { dir with done := true } rfl
      ⟨hdesc, hall, hmost, hstage, hturns, hstart, hseg, hsub, hdir⟩ hrest hle
    exact ⟨ctx', by simp only [fsckControl, hatTop, hrun], hunderway⟩
  | rewind =>
    obtain ⟨ctx', hrun, hunderway⟩ :=
      rewindTop_spec hsized hbottom htop hat dir hdone hopened hrest hle
    exact ⟨ctx', by simp only [fsckControl, hatTop, hrun], hunderway⟩
  | skipChildren =>
    cases fs with
    | nil =>
      refine ⟨{ ctx with allDone := true }, ?_, _, _,
        .intro ⟨⟨hsized.allocated, hsized.two_le, hsized.used_le,
        hsized.recursive⟩, hstands.levels, htop, hbottom⟩, hle⟩
      simp only [fsckControl, hatTop, if_pos (show ctx.dirStackTop = 0 from htop)]
    | cons f' fs =>
      have hne : ctx.dirStackTop ≠ 0 := by rw [htop]; exact Nat.succ_ne_zero _
      refine ⟨{ ctx with dentBufUsed := dir.dentStart, dirStackTop := ctx.dirStackTop - 1 },
        ?_, _, _, .intro
        ⟨⟨hsized.allocated, hsized.two_le, hopened.start_le.trans hsized.used_le, hsized.recursive⟩,
          hrest, ?_,
          (bottom_cons (List.cons_ne_nil _ _)).symm.trans hbottom⟩, (leftOf_tail_le _ _).trans hle⟩
      · simp only [fsckControl, hatTop, if_neg hne]
      · show ctx.dirStackTop - 1 = fs.length
        rw [htop, List.length_cons, Nat.add_sub_cancel]
  | reset =>
    obtain ⟨ctx', hrun, -, hstanding⟩ := hreset
    exact ⟨ctx', hrun, _, _, hstanding, le_rfl⟩

/-- Why the program stops. -/
inductive Stop where
  | fault (fault : Fault)
  | failed (err : Errno)
  | finished

/-- The loop of `do_fsck()`: calls for the next bad child, and what the handler asks
for in between -/
def session (K : Kernel φ) (fill : ℕ → FsckDir φ) (dents fuel : ℕ) (fd : φ) :
    System (FsckCtx φ) (Option Control) Stop where
  init ctx := ctx = fsckCreate fill fd
  legal _ _ := True
  step ctx
    | none =>
      match fsckNext K fill dents fuel ctx with
      | .error fault => .error (.fault fault)
      | .ok ((.error err, _), _) => .error (.failed err)
      | .ok ((.ok none, _), _) => .error .finished
      | .ok ((.ok (some _), ctx), _) => .ok ctx
    | some control =>
      match fsckControl K ctx control with
      | .error fault => .error (.fault fault)
      | .ok (some err, _) => .error (.failed err)
      | .ok (none, ctx) => .ok ctx

/-- A step goes on with the walk, or ends it. -/
theorem session_step (fill : ℕ → FsckDir φ) {fd : φ} (h : Underway K most root ctx)
    (hid : root.label.id = noId)
    (hdents : most < dents) (hfuel : root.preorder.length ≤ fuel) (request : Option Control) :
    (session K fill dents fuel fd).step ctx request = .error .finished ∨
      ∃ ctx', (session K fill dents fuel fd).step ctx request = .ok ctx' ∧
      Underway K most root ctx' := by
  cases request with
  | some control =>
    obtain ⟨ctx', hrun, hunderway⟩ := fsckControl_spec h hid control
    exact .inr ⟨ctx', by simp only [session, hrun], hunderway⟩
  | none =>
    obtain ⟨folders, n, hstanding, hle⟩ := h
    rw [Rose.preorder_eq, List.length_cons] at hfuel
    cases hrunning : ctx.allDone with
    | true => exact .inl (by simp only [session, fsckNext, hrunning, if_true])
    | false =>
      obtain ⟨⟨reply, ctx'⟩, checked, hnext, hreturns⟩ :=
        fsckNext_spec fill hstanding hdents hrunning
        (show n < fuel by omega)
      cases hreturns with
      | done => exact .inl (by simp only [session, hnext])
      | entry hstanding' _ hle' =>
        exact .inr ⟨ctx', by simp only [session, hnext], _, _, hstanding', hle'.trans hle⟩

theorem session_underway (fill : ℕ → FsckDir φ) {fd : φ} (h : Serves K most root fd)
    (hid : root.label.id = noId) (hdents : most < dents) (hfuel : root.preorder.length ≤ fuel) :
    (session K fill dents fuel fd).Invariant (Underway K most root) where
  init ctx hinit := by
    rw [show ctx = fsckCreate fill fd from hinit]
    exact ⟨_, _, fsckCreate_underway fill h hid, le_rfl⟩
  step ctx request ctx' hunderway _ hstep := by
    obtain hend | ⟨ctx'', hrun, hunderway'⟩ := session_step fill hunderway hid hdents hfuel request
    · rw [hend] at hstep
      cases hstep
    · rw [hrun] at hstep
      obtain rfl := Except.ok.inj hstep
      exact hunderway'

/-- However the kernel cuts the listings into calls of `getdents()`, a recursive check of a mounted
filesystem visits the directory and all directories below it in preorder, and returns what is wrong
with the children of each before it goes on to its subdirectories. -/
theorem online_preorder (K : Kernel φ) (fill : ℕ → FsckDir φ) {fd : φ} {calls : ℕ}
    (h : Serves K most root fd) (hid : root.label.id = noId) (hdents : most < dents)
    (hfuel : root.preorder.length ≤ fuel) (hcalls : (reported root.preorder).length < calls) :
    nextOnly K fill dents fuel calls (fsckCreate fill fd) =
      .ok (.ok (reported root.preorder), root.preorder.map (·.id)) := by
  rw [Rose.preorder_eq, List.length_cons] at hfuel
  exact nextOnly_spec fill (fsckCreate_underway fill h hid) hdents rfl hfuel hcalls

/-- Whatever the handler asks for, no call fails; and RESET goes back to the start, wherever the
walk has got to. -/
theorem online_reset (K : Kernel φ) (fill : ℕ → FsckDir φ) {fd : φ} {calls : ℕ}
    (h : Serves K most root fd) (hid : root.label.id = noId) (hdents : most < dents)
    (hfuel : root.preorder.length ≤ fuel) (hcalls : (reported root.preorder).length < calls)
    {ctx : FsckCtx φ} (hctx : (session K fill dents fuel fd).Reachable ctx) :
    (∀ request, (session K fill dents fuel fd).step ctx request = .error .finished ∨
      ∃ ctx', (session K fill dents fuel fd).step ctx request = .ok ctx') ∧
    ∃ ctx', fsckControl K ctx .reset = .ok (none, ctx') ∧ nextOnly K fill dents fuel calls ctx' =
      .ok (.ok (reported root.preorder), root.preorder.map (·.id)) := by
  have hunderway := hctx.holds (session_underway fill h hid hdents hfuel)
  refine ⟨fun request => ?_, ?_⟩
  · obtain hend | ⟨ctx', hrun, -⟩ := session_step fill hunderway hid hdents hfuel request
    · exact .inl hend
    · exact .inr ⟨ctx', hrun⟩
  · obtain ⟨ctx', hrun, hrunning, hstanding⟩ := resetTop_spec hunderway hid
    rw [Rose.preorder_eq, List.length_cons] at hfuel
    exact ⟨ctx', hrun, nextOnly_spec fill hstanding hdents hrunning hfuel hcalls⟩

end Steps

section Example

/-- A descriptor of the directory with this identifier: whether the bad child has been reported,
and the records that are still to be listed. -/
structure OpenDir where
  id : ℕ
  told : Bool
  left : List DirRecord

def shownRecords (id : ℕ) : List DirRecord :=
  if id = 1 then [⟨[97], false, 24, by decide⟩, ⟨[98], true, 32, by decide⟩]
    else [⟨[99], false, 24, by decide⟩]

/-- A filesystem with two directories, one in the other, whose records are listed one at a time. -/
def oneAtATime : Kernel OpenDir where
  fsckNext fd := if fd.told then (.ok none, fd)
    else (.ok (some (badFile fd.id)), { fd with told := true })
  fsckRewind fd := (.ok (), { fd with told := false })
  lseek fd := (.ok (), { fd with left := shownRecords fd.id })
  getdents fd _ := (.ok (fd.left.take 1), { fd with left := fd.left.drop 1 })
  openat fd _ := .ok (fd.id + 1, ⟨fd.id + 1, false, shownRecords (fd.id + 1)⟩)

def openedAt (id : ℕ) : OpenDir := ⟨id, false, shownRecords id⟩

/-- What a descriptor of `oneAtATime` is still to tell. -/
def stageOf (id : ℕ) : Stage OpenDir := fun reports records fd =>
  fd.id = id ∧ reports = (if fd.told then [] else [badFile id]) ∧ records = fd.left ∧
    ∀ d ∈ records, d.reclen ≤ 32

theorem oneAtATime_descriptor (id : ℕ) : Descriptor oneAtATime [badFile id] (shownRecords id)
    (stageOf id) where
  report := by
    rintro r rs l ⟨i, told, left⟩ ⟨rfl, hreports, rfl, hfit⟩
    cases told with
    | true => cases hreports
    | false =>
      obtain ⟨rfl, rfl⟩ := List.cons.inj hreports
      exact ⟨_, rfl, rfl, rfl, rfl, hfit⟩
  good := by
    rintro l ⟨i, told, left⟩ ⟨rfl, hreports, rfl, hfit⟩
    cases told with
    | true => exact ⟨_, [], rfl, rfl, rfl, rfl, hfit⟩
    | false => cases hreports
  rewind := by
    rintro rs l ⟨i, told, left⟩ ⟨rfl, -, rfl, hfit⟩
    exact ⟨_, rfl, rfl, rfl, rfl, hfit⟩
  seek := by
    rintro rs l ⟨i, told, left⟩ ⟨rfl, hreports, rfl, -⟩
    refine ⟨_, rfl, rfl, hreports, rfl, ?_⟩
    rw [shownRecords]
    split <;> simp
  atEnd := by
    rintro rs ⟨i, told, left⟩ ⟨rfl, hreports, rfl, hfit⟩
    exact ⟨_, rfl, rfl, hreports, rfl, hfit⟩
  more := by
    rintro rs l ⟨i, told, left⟩ ⟨rfl, hreports, rfl, hfit⟩ hne
    cases l with
    | nil => exact absurd rfl hne
    | cons d rest =>
      obtain ⟨hd, hrest⟩ := List.forall_mem_cons.mp hfit
      refine ⟨d, [], rest, _, rfl, ?_, rfl, rfl, hreports, rfl, hrest⟩
      rw [cellsOf_cons, cellsOf_nil, List.append_nil, cells_length]
      exact hd.trans (by decide)

/-- The directory that the walk starts at does not tell its identifier. -/
def shownTree : Rose Folder := .node ⟨noId, [badFile 1]⟩ [.node ⟨2, [badFile 2]⟩ []]

theorem shownTree_served : Serves oneAtATime 4 shownTree (openedAt 1) := by
  have hopened : ∀ id, (∀ d ∈ shownRecords id, d.reclen ≤ 32) →
    stageOf id [badFile id] (shownRecords id) (openedAt id) :=
    fun id hfit => ⟨rfl, rfl, rfl, hfit⟩
  have hinner : Serves oneAtATime 4 (.node ⟨2, [badFile 2]⟩ []) (openedAt 2) :=
    .node (oneAtATime_descriptor 2) (hopened 2 (by simp [shownRecords])) (by decide)
      (.file rfl .nil)
  have hopenat : ∀ {rs l fd}, stageOf 1 rs l fd →
    oneAtATime.openat fd [98] = .ok (2, openedAt 2) := by
    rintro rs l ⟨i, told, left⟩ ⟨rfl, -⟩
    rfl
  exact .node (oneAtATime_descriptor 1) (hopened 1 (by simp [shownRecords])) (by decide)
    (.file rfl (.dir rfl hopenat rfl (fun _ => hinner) .nil))

/-- Any answer for memory that has just been allocated -/
def unwritten : ℕ → FsckDir OpenDir := fun _ => ⟨0, openedAt 0, false, 0, 0⟩

theorem online_preorder_nested :
    nextOnly oneAtATime unwritten 5 2 3 (fsckCreate unwritten (openedAt 1)) =
    .ok (.ok [⟨noId, badFile 1⟩, ⟨2, badFile 2⟩], [noId, 2]) :=
  online_preorder oneAtATime unwritten shownTree_served rfl (by decide) (by decide) (by decide)

theorem skipped_reachable : ∃ ctx, (session oneAtATime unwritten 5 2 (openedAt 1)).Reachable ctx ∧
    (ctx.dirStack[0]?.map (·.done)) = some true :=
  ⟨_, .step (.step (.init rfl) trivial (l := none) rfl) trivial (l := some .skip) rfl, rfl⟩

theorem online_reset_skipped : ∃ ctx, (ctx.dirStack[0]?.map (·.done)) = some true ∧
    ∃ ctx', fsckControl oneAtATime ctx .reset = .ok (none, ctx') ∧
    nextOnly oneAtATime unwritten 5 2 3 ctx' =
      .ok (.ok [⟨noId, badFile 1⟩, ⟨2, badFile 2⟩], [noId, 2]) := by
  obtain ⟨ctx, hctx, hdone⟩ := skipped_reachable
  obtain ⟨ctx', hrun, hnext⟩ :=
    (online_reset oneAtATime unwritten shownTree_served rfl (by decide) (by decide)
      (show (reported shownTree.preorder).length < 3 by decide) hctx).2
  exact ⟨ctx, hdone, ctx', hrun, hnext⟩

end Example

end BookmarkFS.Fsck.Online
