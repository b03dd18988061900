import BookmarkFS.Chromium.Scanning

/-! # Repairs without a user

The simple handler proposes a name for each bad child, and another one as long as
the backend takes exception to what is proposed. The buffer of the name is as
large as a filename with its NUL, which is not there if the name is longer.
-/
namespace BookmarkFS.Fsck
open Library Hopscotch Chromium

/-- The size of `name` in `struct bookmarkfs_fsck_data` -/
def nameSize : ℕ := nameMax + 1

/-- `struct bookmarkfs_fsck_data` -/
structure FsckData where
  id : ℕ
  extra : ℕ
  name : Bytes

/-- `strncpy()` into the buffer -/
def copyName (name : Bytes) : Bytes := (name ++ List.replicate nameSize 0).take nameSize

/-- The string in the buffer, up to its end if there is no NUL. -/
def bufferStr (buf : Bytes) : CString :=
  ⟨(buf.take nameSize).takeWhile (· ≠ 0), fun h => by simpa using List.mem_takeWhile_imp h⟩

/-- `snprintf()` into the buffer from an offset on -/
def printName (buf : Bytes) (off : ℕ) (str : Bytes) : Bytes :=
  if nameSize ≤ off then buf
  else
    let str := str.take (nameSize - off - 1) ++ [0]
    buf.take off ++ str ++ buf.drop (off + str.length)

/-- `struct handler_ctx`, as far as a handler that is not interactive uses it -/
structure HandlerCtx where
  parentId : ℕ
  counter : ℕ
  translit : UInt8

/-- `fix_name_dup()`. What does not fit at the end of the name is put at the end of the buffer. -/
def fixNameDup (h : HandlerCtx) (data : FsckData) : HandlerCtx × FsckData :=
  let suffix : Bytes := 95 :: decimal h.counter
  let len := (bufferStr data.name).val.length
  let buf := printName data.name len suffix
  let buf := if len + suffix.length < nameSize then buf
    else printName buf (nameSize - suffix.length - 1) suffix
  ({ h with counter := (h.counter + 1) % 2 ^ 32 }, { data with name := buf })

/-- `"fsck-%" PRIu64` -/
def fallbackName (id : ℕ) : Bytes := [102, 115, 99, 107, 45] ++ decimal id

/-- `fix_entry()` -/
def fixEntry (h : HandlerCtx) (why : FsckResult) (data : FsckData) : HandlerCtx × FsckData :=
  match why with
  | .nameBadChar =>
    let extra := if nameSize ≤ data.extra then nameSize - 1 else data.extra
    (h, { data with extra := extra, name := data.name.set extra h.translit })
  | .nameDuplicate => fixNameDup h data
  | .nameBadLen =>
    if 0 < data.extra then (h, { data with name := data.name.set (nameSize - 1) 0 })
    else (h, { data with name := printName data.name 0 (fallbackName data.id) })
  | .nameDotDot | .nameInvalid =>
      (h, { data with name := printName data.name 0 (fallbackName data.id) })

/-- `handle_entry()` of a handler that is neither interactive nor read-only, which asks for the fix
to be applied. -/
def handleEntry (h : HandlerCtx) (parentId : ℕ) (why : FsckResult) (data : FsckData) :
    HandlerCtx × FsckData :=
  let h := if parentId ≠ h.parentId then { h with parentId := parentId, counter := 0 } else h
  fixEntry h why data

/-- The options and the state of a handler that has just been created; `UINT64_MAX` is
no directory. -/
def handlerCreate (translit : UInt8) : HandlerCtx := ⟨2 ^ 64 - 1, 0, translit⟩

section Repairing

variable {w : WordSize} (tb : Tables w) (env : Env) (parentId : ℕ)

/-- What a loop of the program ends in: an error, or the handler has no more to do. -/
abbrev Ended (w : WordSize) := Option Errno × Ctx w × HandlerCtx

/-- `do_fsck()` from `run_handler` on: fixes are applied until one is accepted. The name
that is reported is the one in the buffer. There is no result if this takes more rounds than
there is fuel. -/
def applyFixes : ℕ → Ctx w → HandlerCtx → FsckResult → FsckData →
    Except Hopscotch.Fault (Option (Ended w))
  | 0, _, _, _, _ => .ok none
  | fuel + 1, ctx, h, why, data => do
    let (h, data) := handleEntry h parentId why data
    let (reply, ctx) ← bookmarkCheckApply tb ctx env parentId data.id (bufferStr data.name)
    match reply with
    | .error err => .ok (some (some err, ctx, h))
    | .ok none => .ok (some (none, ctx, h))
    | .ok (some report) => applyFixes fuel ctx h report.result { data with id := report.id, extra := report.extra }

/-- `do_fsck()` of the program with the offline operations on one directory, from a cookie with
an index on. -/
def fixDir : ℕ → Ctx w → HandlerCtx → ℕ → Except Hopscotch.Fault (Option (Ended w))
  | 0, _, _, _ => .ok none
  | fuel + 1, ctx, h, idx => do
    let (reply, ctx) ← bookmarkCheckNext tb ctx env parentId (fun _ => 1) idx
    match reply with
    | .error err => .ok (some (some err, ctx, h))
    | .ok (_, idx, reports) =>
      match reports.getLast? with
      | none => .ok (some (none, ctx, h))
      | some report =>
        let ended ← applyFixes tb env parentId fuel ctx h report.result ⟨report.id, report.extra,
          copyName report.name⟩
        match ended with
        | some (none, ctx, h) => fixDir fuel ctx h idx
        | _ => .ok ended

end Repairing

end BookmarkFS.Fsck
