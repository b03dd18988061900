import BookmarkFS.Chromium.Queries
import BookmarkFS.Library.Preorder

/-! # Offline fsck

Directories are walked with a stack of records, each of which tells by its offset
whether its children are still to be checked, or which of them are still to be
listed. A call returns with each bad child, and the next one goes on from there.
-/
namespace BookmarkFS.Fsck
open Library
open Chromium (Errno FsckReport)

/-- What a walk must not run into. -/
inductive Fault where
  /-- An index outside of the memory allocated for `dir_stack`. -/
  | outOfBounds
  /-- The loop takes more turns than it is given. -/
  | outOfFuel
  deriving DecidableEq

/-- `struct bookmarkfs_bookmark_entry`, as far as `do_list_cb()` reads it. -/
structure Entry where
  off : ℕ
  id : ℕ
  valueLen : ℤ

/-- The two functions of a backend that a walk calls. Each tells what it has given to the callback,
which is no longer called once it has returned nonzero, and what it leaves in the cookie. -/
structure Backend (κ : Type) where
  bookmarkCheck : (id : ℕ) → (FsckReport → ℤ) → Option κ → Except Errno (List FsckReport) × Option κ
  bookmarkList : (id off : ℕ) → (Entry → ℤ) → Option κ → Except Errno (List Entry) × Option κ

/-- `struct fsck_dir` -/
structure FsckDir (κ : Type) where
  id : ℕ
  cookie : Option κ
  /-- Negative until the children have been checked. -/
  off : ℤ

/-- `struct bookmarkfs_fsck_handler_entry` -/
structure HandlerEntry where
  parentId : ℕ
  data : FsckReport
  deriving DecidableEq

/-- `struct fsck_ctx` -/
structure FsckCtx (κ : Type) where
  /-- The memory that is allocated. -/
  dirStack : List (FsckDir κ)
  dirStackSize : ℕ
  dirStackTop : ℕ
  /-- `BOOKMARKFS_FSCK_OP_RECURSIVE` -/
  recursive : Bool
  /-- `FSCK_ALL_DONE` -/
  allDone : Bool

/-- The result of a request: an error, END, or a bad child. -/
abbrev Reply := Except Errno (Option HandlerEntry)

section Handlers

variable {κ : Type} (B : Backend κ) (fill : ℕ → FsckDir κ)

/-- `do_fsck_cb()` -/
def doFsckCb : FsckReport → ℤ := fun _ => 1

/-- `do_fsck()` with no data to apply -/
def doFsck (dir : FsckDir κ) : Reply × FsckDir κ :=
  match B.bookmarkCheck dir.id doFsckCb dir.cookie with
  | (.error err, cookie) => (.error err, { dir with cookie := cookie })
  -- The callback overwrites what it has been given before.
  | (.ok reports, cookie) => (.ok (reports.getLast?.map (⟨dir.id, ·⟩)), { dir with cookie := cookie })

/-- `do_list_cb()` -/
def doListCb (entry : Entry) : ℤ := if 0 ≤ entry.valueLen then 0 else 1

/-- `UINT64_MAX` -/
def noId : ℕ := 2 ^ 64 - 1

/-- `do_list()`: the subdirectory -/
def doList (dir : FsckDir κ) : Except Errno ℕ × FsckDir κ :=
  match B.bookmarkList dir.id dir.off.toNat doListCb dir.cookie with
  | (.error err, cookie) => (.error err, { dir with cookie := cookie })
  | (.ok entries, cookie) =>
    match (entries.filter fun entry => decide (entry.valueLen < 0)).getLast? with
    | none => (.ok noId, { dir with cookie := cookie })
    | some entry => (.ok entry.id, { dir with cookie := cookie, off := entry.off })

/-- `do_list()` on a level of the stack -/
def listLevel (stack : List (FsckDir κ)) (idx : ℕ) : Except Fault (Except Errno ℕ × List (FsckDir κ)) := do
  let some dir := stack[idx]? | .error .outOfBounds
  let (subdirId, dir) := doList B dir
  .ok (subdirId, stack.set idx dir)

/-- The loop over `do_list()` in `fsck_next()`, from a level downwards: the subdirectory and the
level that it is found at. -/
def listDown (stack : List (FsckDir κ)) : ℕ → Except Fault (Except Errno ℕ × List (FsckDir κ) × ℕ)
  | 0 => do
    let (subdirId, stack) ← listLevel B stack 0
    .ok (subdirId, stack, 0)
  | idx + 1 => do
    let (subdirId, stack) ← listLevel B stack (idx + 1)
    match subdirId with
    | .error err => .ok (.error err, stack, idx + 1)
    | .ok id => if id = noId then listDown stack idx else .ok (.ok id, stack, idx + 1)

/-- `xrealloc()` of `dir_stack` -/
def growStack (ctx : FsckCtx κ) : FsckCtx κ :=
  let size := ctx.dirStackSize + ctx.dirStackSize / 2
  { ctx with
    dirStack := (ctx.dirStack ++ (List.range size).map fill).take size
    dirStackSize := size }

/-- A record for a subdirectory at level `idx`, for which `dir_stack` may have to be enlarged. -/
def pushDir (ctx : FsckCtx κ) (idx id : ℕ) : Except Fault (FsckCtx κ × ℕ) :=
  let (ctx, idx) :=
    if ctx.dirStackSize ≤ idx then (growStack fill ctx, ctx.dirStackSize) else (ctx, idx)
  if idx < ctx.dirStack.length then .ok ({ ctx with dirStack := ctx.dirStack.set idx ⟨id, none, -1⟩ }, idx)
  else .error .outOfBounds

/-- The part of a turn of the loop in `fsck_next()` that looks for a subdirectory. -/
def enterDir (ctx : FsckCtx κ) (idx : ℕ) : Except Fault (Option Reply × FsckCtx κ × ℕ) := do
  if ctx.recursive = false then return (some (.ok none), ctx, idx)
  let (subdirId, stack, idx) ← listDown B ctx.dirStack idx
  let ctx := { ctx with dirStack := stack }
  match subdirId with
  | .error err => .ok (some (.error err), ctx, idx)
  | .ok id =>
    if id = noId then return (some (.ok none), ctx, idx)
    let (ctx, idx) ← pushDir fill ctx (idx + 1) id
    .ok (none, ctx, idx)

/-- A turn of the loop in `fsck_next()`, at the directory on level `idx`: the result, unless the
loop goes on, and the directory whose children have all been checked now, if there is one. -/
def turn (ctx : FsckCtx κ) (idx : ℕ) : Except Fault ((Option Reply × FsckCtx κ × ℕ) × List ℕ) := do
  let some dir := ctx.dirStack[idx]? | .error .outOfBounds
  if dir.off < 0 then
    let (result, dir) := doFsck B dir
    match result with
    | .ok none =>
      (·, [dir.id]) <$> enterDir B fill { ctx with dirStack := ctx.dirStack.set idx { dir with off := 0 } } idx
    | _ => .ok ((some result, { ctx with dirStack := ctx.dirStack.set idx dir }, idx), [])
  else (·, []) <$> enterDir B fill ctx idx

/-- The loop in `fsck_next()` -/
def turns : ℕ → FsckCtx κ → ℕ → Except Fault ((Reply × FsckCtx κ) × List ℕ)
  | 0, _, _ => .error .outOfFuel
  | fuel + 1, ctx, idx => do
    let ((reply, ctx, idx), checked) ← turn B fill ctx idx
    match reply with
    | some reply => .ok ((reply, { ctx with dirStackTop := idx }), checked)
    | none => do
      let (result, more) ← turns fuel ctx idx
      .ok (result, checked ++ more)

/-- `fsck_next()`, and the directories whose children have all been checked in it -/
def fsckNext (fuel : ℕ) (ctx : FsckCtx κ) : Except Fault ((Reply × FsckCtx κ) × List ℕ) :=
  if ctx.allDone then .ok ((.ok none, ctx), [])
  else turns B fill fuel ctx ctx.dirStackTop

/-- `do_fsck()` of the program, if the handler answers NEXT each time: what the handler is given,
and the directories that have been checked. -/
def nextOnly (fuel : ℕ) : ℕ → FsckCtx κ → Except Fault (Except Errno (List HandlerEntry) × List ℕ)
  | 0, _ => .error .outOfFuel
  | n + 1, ctx => do
    let ((reply, ctx), checked) ← fsckNext B fill fuel ctx
    match reply with
    | .error err => .ok (.error err, checked)
    | .ok none => .ok (.ok [], checked)
    | .ok (some entry) => do
      let (entries, more) ← nextOnly fuel n ctx
      .ok ((entry :: ·) <$> entries, checked ++ more)

/-- The state that `fsck_create()` leaves for recursive checks of a directory. -/
def fsckCreate (id : ℕ) : FsckCtx κ where
  dirStack := ⟨id, none, -1⟩ :: (List.range 15).map fill
  dirStackSize := 16
  dirStackTop := 0
  recursive := true
  allDone := false

end Handlers

end BookmarkFS.Fsck
