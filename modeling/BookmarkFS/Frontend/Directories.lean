import BookmarkFS.Chromium.Sharing
import BookmarkFS.Frontend.OnlineFsck
import BookmarkFS.Library.Paging

/-! # Requests on directories

What the frontend makes of requests on a directory: the part of the filesystem is in the
topmost bits of an inode number, and the identifier that the backend knows is in the
others. A listing is cut where the reply buffer is full.
-/
namespace BookmarkFS.Frontend
open Library
open Hopscotch (WordSize)
open Chromium (Ctx Dirent Env FsckReport ListCallback ListCookie Tables bookmarkCheck bookmarkList
  bookmarkLookup)

/-! ## Inodes -/

/-- `SUBSYS_ID_BITS` -/
def subsysIdBits : ℕ := 61

/-- The subsystems that there are without tags and keywords -/
inductive SubsysType where
  | internal
  | bookmark
  deriving DecidableEq

def SubsysType.code : SubsysType → ℕ
  | internal => 0
  | bookmark => 1

/-- `SUBSYS_NODEID()` -/
def subsysNodeid (id : ℕ) (type : SubsysType) : Ino := type.code <<< subsysIdBits ||| id

/-- `INODE_SUBSYS_TYPE()` -/
def inodeSubsysType (ino : Ino) : Option SubsysType :=
  match ino >>> subsysIdBits with
  | 0 => some .internal
  | 1 => some .bookmark
  | _ => none

/-- `INODE_SUBSYS_ID()` -/
def inodeSubsysId (ino : Ino) : ℕ := ino &&& (2 ^ subsysIdBits - 1)

/-- `INTFS_ID_BOOKMARKS` -/
def intfsIdBookmarks : Ino := 2

/-- The directory of the backend that a request is about: `intfs_*()` pass the requests on a
mountpoint on. -/
def bookmarkDir (ino : Ino) : Option ℕ :=
  match inodeSubsysType ino with
  | some .internal => if ino = intfsIdBookmarks then some Chromium.rootId else none
  | some .bookmark => some (inodeSubsysId ino)
  | none => none

theorem inodeSubsysId_eq (ino : Ino) : inodeSubsysId ino = ino % 2 ^ 61 :=
    Nat.and_two_pow_sub_one_eq_mod ino 61

theorem inode_nodeid {id : ℕ} (hid : id < 2 ^ 61) (type : SubsysType) :
    inodeSubsysType (subsysNodeid id type) = some type ∧
    inodeSubsysId (subsysNodeid id type) = id := by
  have hsum : subsysNodeid id type = type.code <<< 61 + id :=
    (Nat.shiftLeft_add_eq_or_of_lt hid _).symm
  rw [Nat.shiftLeft_eq] at hsum
  rw [inodeSubsysId_eq, inodeSubsysType, hsum, subsysIdBits, Nat.shiftRight_eq_div_pow,
    Nat.add_comm, Nat.add_mul_div_right _ _ (Nat.two_pow_pos 61), Nat.div_eq_of_lt hid,
    Nat.add_mul_mod_self_right,
    Nat.mod_eq_of_lt hid, Nat.zero_add]
  exact ⟨by cases type <;> rfl, rfl⟩

theorem bookmarkDir_nodeid {id : ℕ} (hid : id < 2 ^ 61) :
    bookmarkDir (subsysNodeid id .bookmark) = some id := by
  obtain ⟨htype, hsubsys⟩ := inode_nodeid hid .bookmark
  simp only [bookmarkDir, htype, hsubsys]

/-! ## Listings -/

/-- What `fuse_add_direntry()` is given. -/
structure FuseDirent where
  name : Bytes
  ino : Ino
  /-- `S_ISDIR(st_mode)` -/
  isDir : Bool
  off : ℕ

/-- The entry that `bm_readdir_cb()` makes with `bm_fillstat()`. -/
def fuseDirent (x : Dirent) : FuseDirent :=
  ⟨x.name, subsysNodeid x.id .bookmark, x.valueLen.isNone, x.off⟩

/-- `reply_len`, where `size` is what `fuse_add_direntry()` returns for a name -/
def replyLen (size : Bytes → ℕ) (got : List Dirent) : ℕ := (got.map fun x => size x.name).sum

/-- `bm_readdir_cb()` -/
def bmReaddirCb (size : Bytes → ℕ) (bufMax : ℕ) : ListCallback := fun got entry =>
  if bufMax - replyLen size got < size entry.name then 1 else 0

section Handlers

variable {w : WordSize} (tb : Tables w) (ctx : Ctx w) (env : Env)

/-- `bm_readdir()` -/
def bmReaddir (size : Bytes → ℕ) (id bufMax off : ℕ) (withStat : Bool)
    (cookie : Option ListCookie) :
    Except Hopscotch.Fault
    ((Except Chromium.Errno (List FuseDirent) × Option ListCookie) × Ctx w) := do
  let ((reply, cookie), ctx) ← bookmarkList tb ctx env id off withStat
    (some (bmReaddirCb size bufMax)) cookie
  .ok (((fun r => r.2.map fuseDirent) <$> reply, cookie), ctx)

/-- `bm_check()` without data: the next report, or none if the scan is taken back -/
def bmCheck (id : ℕ) (next : Bool) (cookie : Option ListCookie) :
    Except Hopscotch.Fault ((CheckReply × Option ListCookie) × Ctx w) := do
  -- The callback overwrites what it has been given before.
  let ((reply, cookie), ctx) ← bookmarkCheck tb ctx env id (if next then some fun _ => 1
    else none) cookie
  .ok (((fun r => r.2.getLast?) <$> reply, cookie), ctx)

/-- `bm_lookup()`: the inode, and whether it is a directory -/
def bmLookup (parentId : ℕ) (name : CString) :
    Except Hopscotch.Fault (Except Chromium.Errno (Ino × Bool) × Ctx w) := do
  let (reply, ctx) ← bookmarkLookup tb ctx env parentId (some name)
  .ok ((fun stat => (subsysNodeid stat.id .bookmark, stat.valueLen.isNone)) <$> reply, ctx)

end Handlers

/-! ## The reply buffer -/

section Buffer

variable {size : Bytes → ℕ} {bufMax : ℕ}

theorem feed_ne_nil {x : Dirent} (l : List Dirent) (hfit : size x.name ≤ bufMax) :
    (feed (bmReaddirCb size bufMax) (x :: l) []).2 ≠ [] := by
  have hgoes : bmReaddirCb size bufMax [] x = 0 := if_neg (by simpa [replyLen] using hfit)
  rw [feed, if_neg (not_not.mpr hgoes)]
  obtain ⟨more, hmore⟩ := feed_extends (bmReaddirCb size bufMax) l ([] ++ [x])
  rw [hmore]
  simp

end Buffer

end BookmarkFS.Frontend
