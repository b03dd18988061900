import BookmarkFS.Fsck.Offline
import BookmarkFS.Library.Memory

/-! # Online fsck

Directories of a mounted filesystem are walked through their descriptors. Each
level of the stack has records in one buffer, which `getdents()` fills from where
the records of the levels below end.
-/
namespace BookmarkFS.Fsck.Online
open Library
open Chromium (Errno FsckReport)

/-- `struct dirent` -/
structure DirRecord where
  name : Bytes
  /-- `d_type == DT_DIR` -/
  isDir : Bool
  reclen : ℕ
  reclen_pos : 0 < reclen

/-- A byte of the buffer: the first one of a record, or any other. -/
abbrev Cell := Option DirRecord

def DirRecord.cells (d : DirRecord) : List Cell := some d :: List.replicate (d.reclen - 1) none

/-- What `getdents()` stores. -/
def cellsOf (records : List DirRecord) : List Cell := records.flatMap DirRecord.cells

/-- The system calls on a directory, whose open file description has the state `φ`. The mounted
filesystem answers each `ioctl()`; `openat()` also tells of the inode that `fstat()` finds. -/
structure Kernel (φ : Type) where
  fsckNext : φ → Except Errno (Option FsckReport) × φ
  fsckRewind : φ → Except Errno Unit × φ
  lseek : φ → Except Errno Unit × φ
  getdents : φ → ℕ → Except Errno (List DirRecord) × φ
  openat : φ → Bytes → Except Errno (ℕ × φ)

/-- `struct fsck_dir` -/
structure FsckDir (φ : Type) where
  id : ℕ
  fd : φ
  /-- `FSCK_DIR_DONE` -/
  done : Bool
  dentStart : ℕ
  dentOff : ℕ

/-- `struct fsck_ctx` -/
structure FsckCtx (φ : Type) where
  /-- The memory that is allocated. -/
  dirStack : List (FsckDir φ)
  dirStackSize : ℕ
  dirStackTop : ℕ
  /-- The memory that is allocated, with `dent_buf_size` bytes. -/
  dentBuf : List Cell
  dentBufUsed : ℕ
  /-- `BOOKMARKFS_FSCK_OP_RECURSIVE` -/
  recursive : Bool
  /-- `FSCK_ALL_DONE` -/
  allDone : Bool

/-- `DIRENT_BUFSIZE` -/
def direntBufsize : ℕ := 4096

section Handlers

variable {φ : Type} (K : Kernel φ) (fill : ℕ → FsckDir φ)

/-- `xrealloc()` of `dent_buf`, if there is no room for a call of `getdents()` -/
def growDents (buf : List Cell) (start : ℕ) : List Cell :=
  if buf.length < start + direntBufsize then
    buf ++ List.replicate (start + direntBufsize - buf.length) none else buf

/-- The call of `getdents()` in `next_subdir()`: whether there are more records -/
def refill (ctx : FsckCtx φ) (dir : FsckDir φ) :
    Except Fault (Except Errno Bool × FsckCtx φ × FsckDir φ) :=
  let buf := growDents ctx.dentBuf dir.dentStart
  match K.getdents dir.fd direntBufsize with
  | (.error err, fd) => .ok (.error err, { ctx with dentBuf := buf }, { dir with fd := fd })
  | (.ok [], fd) => .ok (.ok false, { ctx with dentBuf := buf }, { dir with fd := fd })
  | (.ok records, fd) =>
    if dir.dentStart + (cellsOf records).length ≤ buf.length then
      .ok (.ok true,
        { ctx with
          dentBuf := buf.take dir.dentStart ++ cellsOf records ++
            buf.drop (dir.dentStart + (cellsOf records).length)
          dentBufUsed := dir.dentStart + (cellsOf records).length },
        { dir with fd := fd })
    else .error .outOfBounds

/-- The record at an offset of the buffer -/
def recordAt (ctx : FsckCtx φ) (off : ℕ) : Except Fault DirRecord :=
  match ctx.dentBuf[off]? with
  | some (some record) => if off + record.reclen ≤ ctx.dentBufUsed then .ok record
      else .error .outOfBounds
  | _ => .error .outOfBounds

/-- The loop in `next_subdir()`, whose `len` is `dent_buf_used`: the record of the next
subdirectory. What is left of a call of `getdents()` is never nothing. -/
def nextSubdirFrom : ℕ → FsckCtx φ → FsckDir φ → ℕ →
    Except Fault (Except Errno (Option DirRecord) × FsckCtx φ × FsckDir φ)
  | 0, _, _, _ => .error .outOfFuel
  | fuel + 1, ctx, dir, off =>
    if off = ctx.dentBufUsed then do
      let (result, ctx, dir) ← refill K ctx dir
      match result with
      | .error err => .ok (.error err, ctx, dir)
      | .ok false => .ok (.ok none, ctx, dir)
      | .ok true => nextSubdirFrom fuel ctx dir dir.dentStart
    else do
      let record ← recordAt ctx off
      if record.isDir then .ok (.ok (some record), ctx, { dir with dentOff := off + record.reclen })
      else nextSubdirFrom fuel ctx dir (off + record.reclen)

/-- `next_subdir()` on a level of the stack -/
def nextSubdir (fuel : ℕ) (ctx : FsckCtx φ) (idx : ℕ) :
    Except Fault (Except Errno (Option DirRecord) × FsckCtx φ × FsckDir φ) := do
  let some dir := ctx.dirStack[idx]? | .error .outOfBounds
  let (result, ctx, dir) ← nextSubdirFrom K fuel ctx dir dir.dentOff
  .ok (result, { ctx with dirStack := ctx.dirStack.set idx dir }, dir)

/-- The loop over `next_subdir()` in `fsck_next()`, from a level downwards: the record and the
level that it is found at, with the directory there. -/
def subdirDown (fuel : ℕ) : ℕ → FsckCtx φ →
    Except Fault (Except Errno (Option DirRecord) × FsckCtx φ × FsckDir φ × ℕ)
  | 0, ctx => do
    let (result, ctx, dir) ← nextSubdir K fuel ctx 0
    .ok (result, ctx, dir, 0)
  | idx + 1, ctx => do
    let (result, ctx, dir) ← nextSubdir K fuel ctx (idx + 1)
    match result with
    | .ok none => subdirDown fuel idx { ctx with dentBufUsed := dir.dentStart }
    | _ => .ok (result, ctx, dir, idx + 1)

/-- `xrealloc()` of `dir_stack` -/
def growStack (ctx : FsckCtx φ) : FsckCtx φ :=
  let size := ctx.dirStackSize + ctx.dirStackSize / 2
  { ctx with
    dirStack := (ctx.dirStack ++ (List.range size).map fill).take size
    dirStackSize := size }

/-- A directory that has been opened, on level `idx`, for which `dir_stack` may have
to be enlarged -/
def pushDir (ctx : FsckCtx φ) (idx id : ℕ) (fd : φ) : Except Fault (FsckCtx φ × ℕ) :=
  let (ctx, idx) :=
    if ctx.dirStackSize ≤ idx then (growStack fill ctx, ctx.dirStackSize) else (ctx, idx)
  if idx < ctx.dirStack.length then
    .ok ({ ctx with dirStack := ctx.dirStack.set idx ⟨id, fd, false, ctx.dentBufUsed,
      ctx.dentBufUsed⟩ }, idx)
  else .error .outOfBounds

/-- The part of a turn of the loop in `fsck_next()` that enters a subdirectory. -/
def enterDir (fuel : ℕ) (ctx : FsckCtx φ) (idx : ℕ) :
    Except Fault (Option Reply × FsckCtx φ × ℕ) := do
  if ctx.recursive = false then return (some (.ok none), ctx, idx)
  let (result, ctx, dir, idx) ← subdirDown K fuel idx ctx
  match result with
  | .error err => .ok (some (.error err), ctx, idx)
  | .ok none => .ok (some (.ok none), ctx, idx)
  | .ok (some record) =>
    -- `open_subdir()`
    match K.openat dir.fd record.name with
    | .error err => .ok (some (.error err), ctx, idx)
    | .ok (ino, fd) => do
      let (ctx, idx) ← pushDir fill ctx (idx + 1) (ino % 2 ^ 61) fd
      .ok (none, ctx, idx)

/-- A turn of the loop in `fsck_next()`, at the directory on level `idx`: the result, unless the
loop goes on, and the directory whose children have all been checked now, if there is one. -/
def turn (fuel : ℕ) (ctx : FsckCtx φ) (idx : ℕ) :
    Except Fault ((Option Reply × FsckCtx φ × ℕ) × List ℕ) := do
  let some dir := ctx.dirStack[idx]? | .error .outOfBounds
  if dir.done = true then (·, []) <$> enterDir K fill fuel ctx idx
  else
    let (result, fd) := K.fsckNext dir.fd
    match result with
    | .ok none =>
      (·, [dir.id]) <$> enterDir K fill fuel
        { ctx with dirStack := ctx.dirStack.set idx { dir with fd := fd, done := true } } idx
    | .ok (some report) =>
      .ok ((some (.ok (some ⟨dir.id, report⟩)),
        { ctx with dirStack := ctx.dirStack.set idx { dir with fd := fd } }, idx), [])
    | .error err =>
      .ok ((some (.error err), { ctx with dirStack := ctx.dirStack.set idx { dir with fd := fd } },
        idx), [])

/-- The loop in `fsck_next()` -/
def turns (dents : ℕ) : ℕ → FsckCtx φ → ℕ → Except Fault ((Reply × FsckCtx φ) × List ℕ)
  | 0, _, _ => .error .outOfFuel
  | fuel + 1, ctx, idx => do
    let ((reply, ctx, idx), checked) ← turn K fill dents ctx idx
    match reply with
    | some reply => .ok ((reply, { ctx with dirStackTop := idx }), checked)
    | none => do
      let (result, more) ← turns dents fuel ctx idx
      .ok (result, checked ++ more)

/-- `fsck_next()`, and the directories whose children have all been checked in it -/
def fsckNext (dents fuel : ℕ) (ctx : FsckCtx φ) : Except Fault ((Reply × FsckCtx φ) × List ℕ) :=
  if ctx.allDone then .ok ((.ok none, ctx), [])
  else turns K fill dents fuel ctx ctx.dirStackTop

/-- `do_fsck()` of the program, if the handler answers NEXT each time: what the handler is given,
and the directories that have been checked. -/
def nextOnly (dents fuel : ℕ) : ℕ → FsckCtx φ →
    Except Fault (Except Errno (List HandlerEntry) × List ℕ)
  | 0, _ => .error .outOfFuel
  | n + 1, ctx => do
    let ((reply, ctx), checked) ← fsckNext K fill dents fuel ctx
    match reply with
    | .error err => .ok (.error err, checked)
    | .ok none => .ok (.ok [], checked)
    | .ok (some entry) => do
      let (entries, more) ← nextOnly dents fuel n ctx
      .ok ((entry :: ·) <$> entries, checked ++ more)

/-- The state that `fsck_create()` leaves for recursive checks of an open directory, whose
identifier it does not know. -/
def fsckCreate (fd : φ) : FsckCtx φ where
  dirStack := ⟨noId, fd, false, 0, 0⟩ :: (List.range 15).map fill
  dirStackSize := 16
  dirStackTop := 0
  dentBuf := []
  dentBufUsed := 0
  recursive := true
  allDone := false

/-- `reset_top()` -/
def resetTop (ctx : FsckCtx φ) : Except Fault (Option Errno × FsckCtx φ) := do
  let some dir := ctx.dirStack[0]? | .error .outOfBounds
  match K.fsckRewind dir.fd with
  | (.error err, fd) =>
      .ok (some err, { ctx with dirStack := ctx.dirStack.set 0 { dir with fd := fd } })
  | (.ok (), fd) =>
    match K.lseek fd with
    | (.error err, fd) =>
        .ok (some err, { ctx with dirStack := ctx.dirStack.set 0 { dir with fd := fd } })
    | (.ok (), fd) => .ok (none,
        { ctx with
          dirStack := ctx.dirStack.set 0 { dir with fd := fd, done := false, dentOff := 0 }
          dirStackTop := 0
          dentBufUsed := 0
          allDone := false })

/-- What a handler may ask for, apart from NEXT and APPLY. -/
inductive Control where
  | skip
  | rewind
  | skipChildren
  | reset

/-- The `ioctl()` of `fsck_control()` on the directory on top -/
def rewindTop (ctx : FsckCtx φ) (dir : FsckDir φ) : Except Fault (Option Errno × FsckCtx φ) :=
  match K.fsckRewind dir.fd with
  | (.error err, fd) =>
    .ok (some err, { ctx with dirStack := ctx.dirStack.set ctx.dirStackTop { dir with fd := fd } })
  | (.ok (), fd) =>
      .ok (none, { ctx with dirStack := ctx.dirStack.set ctx.dirStackTop { dir with fd := fd } })

/-- `fsck_control()` -/
def fsckControl (ctx : FsckCtx φ) (control : Control) :
    Except Fault (Option Errno × FsckCtx φ) := do
  let some dir := ctx.dirStack[ctx.dirStackTop]? | .error .outOfBounds
  match control with
  | .skip => rewindTop K ctx { dir with done := true }
  | .rewind => rewindTop K ctx dir
  | .skipChildren =>
    if ctx.dirStackTop = 0 then .ok (none, { ctx with allDone := true })
    else .ok (none, { ctx with dentBufUsed := dir.dentStart, dirStackTop := ctx.dirStackTop - 1 })
  | .reset => resetTop K { ctx with dirStackTop := 0 }

end Handlers

end BookmarkFS.Fsck.Online
