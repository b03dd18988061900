import BookmarkFS.Chromium.Queries

/-! # File handles of the frontend

A file handle stands for an inode, not for one of the descriptors that are open
on it. What the backend answers is part of each request, so that nothing here
depends on which backend it is.
-/
namespace BookmarkFS.Frontend
open Library
open Chromium (Timespec FsckReport)

/-- Negated `errno` values; those of the backend are passed on. -/
inductive Errno where
  | busy
  | acces
  | rofs
  | fbig
  | backend (err : Chromium.Errno)
  deriving DecidableEq

/-- What a request handler must not run into. -/
inductive Fault where
  | nullPointer
  /-- An index outside of the memory allocated. -/
  | outOfBounds
  /-- A length that does not fit in 32 bits. -/
  | wraps
  deriving DecidableEq

/-- `struct fs_flags`, as far as file handles depend on it, and `file_max`, which the mount accepts
in a range only. -/
structure Mount where
  readonly : Bool
  exclusive : Bool
  ctime : Bool
  eol : Bool
  fileMax : ℕ
  accepted : 1024 ≤ fileMax ∧ fileMax ≤ 2 * 1024 * 1024

/-- The default of `file_max` is in that range. -/
theorem accepted_default : 1024 ≤ 32768 ∧ 32768 ≤ 2 * 1024 * 1024 := by decide

abbrev Ino := ℕ

abbrev Cookie := ℕ

/-- `struct fs_file_handle` -/
structure FileHandle where
  refcount : ℕ
  /-- `FH_FLAG_DIRTY` -/
  dirty : Bool
  /-- `FH_FLAG_FSCK` -/
  fsck : Bool
  /-- `FH_FLAG_ISDIR` -/
  isDir : Bool
  /-- `FH_FLAG_MTIME` -/
  mtimeSet : Bool
  /-- The memory at `buf`, unless it is NULL. -/
  buf : Option Bytes
  bufLen : ℕ
  dataLen : ℕ
  cookie : Option Cookie
  mtime : Timespec

/-- What `bm_fh_new()` puts into a new file handle. -/
def FileHandle.new : FileHandle where
  refcount := 1
  dirty := false
  fsck := false
  isDir := false
  mtimeSet := false
  buf := none
  bufLen := 0
  dataLen := 0
  cookie := none
  mtime := ⟨0, 0⟩

/-- `bm_fh_new()` on what `bm_fh_get()` finds. -/
def bmFhNew : Option FileHandle → FileHandle
  | some fh => { fh with refcount := fh.refcount + 1 }
  | none => .new

end BookmarkFS.Frontend
