import BookmarkFS.Chromium.Queries

/-! # The tables of Firefox

The rows that the backend reads and writes, as lists in the order of their
rowids, and the statements on them. Statements do not fail but for the reasons
that are documented for them, and a transaction that is rolled back leaves no
trace. GUIDs and the bookkeeping of the synchronization service are left out:
with titles as filenames, nothing is found by them, and a new GUID is drawn at
random.
-/
namespace BookmarkFS.Firefox
open Library
open Chromium (Errno)

/-- A row of `moz_bookmarks`. -/
structure MozBookmark where
  id : ℤ
  /-- 1 for a bookmark, 2 for a folder, 3 for a separator -/
  type : ℤ
  fk : Option ℤ
  parent : ℤ
  position : ℤ
  title : Option Bytes
  dateAdded : ℤ
  lastModified : ℤ
  deriving DecidableEq

/-- A row of `moz_places`. -/
structure MozPlace where
  id : ℤ
  url : Bytes
  lastVisitDate : Option ℤ
  description : Option Bytes
  foreignCount : ℤ
  urlHash : ℤ
  originId : ℤ
  deriving DecidableEq

/-- A row of `moz_keywords`. -/
structure MozKeyword where
  id : ℤ
  keyword : Bytes
  placeId : ℤ
  deriving DecidableEq

/-- A row of `moz_origins`. -/
structure MozOrigin where
  id : ℤ
  originPrefix : Bytes
  host : Bytes
  deriving DecidableEq

structure Db where
  bookmarks : List MozBookmark
  places : List MozPlace
  keywords : List MozKeyword
  /-- The largest rowid that `moz_keywords` has ever had. -/
  keywordSeq : ℤ
  origins : List MozOrigin
  deriving DecidableEq

/-- What the backend context holds beside the database. -/
structure Ctx where
  rootId : ℤ
  tagsRootId : ℤ
  /-- `BACKEND_ASSUME_TITLE_DISTINCT` -/
  assumeTitleDistinct : Bool
  /-- `BOOKMARKFS_BACKEND_CTIME` -/
  ctime : Bool

/-- `BOOKMARKFS_BOOKMARK_TYPE_MASK` -/
inductive BookmarkType where
  | bookmark
  | tag
  | keyword
  deriving DecidableEq

/-- `is_valid_id()` -/
def isValidId (id : ℤ) : Bool := 0 < id && id ≤ Chromium.maxBookmarkId

/-- `INT64_MAX` -/
def int64Max : ℤ := 2 ^ 63 - 1

/-- `safeincr()`, which is an error where it would overflow; 0 if there is no integer. -/
def safeincr : Option ℤ → Except Errno ℤ
  | none => .ok 0
  | some n => if n = int64Max then .error .io else .ok (n + 1)

/-- `DB_QUERY_BIND_INT64`: a negative number is not bound, which leaves NULL. -/
def bound (n : ℤ) : Option ℤ := if n < 0 then none else some n

/-- `ORDER BY position` -/
def byPosition (rows : List MozBookmark) : List MozBookmark :=
  rows.insertionSort fun b c => b.position ≤ c.position

/-- `ORDER BY id` -/
def byId (rows : List MozBookmark) : List MozBookmark :=
  rows.insertionSort fun b c => b.id ≤ c.id

/-- `MOZBM_MAXPOS` -/
def maxPos (rows : List MozBookmark) (parent : ℤ) : Option ℤ :=
  ((rows.filter fun b => b.parent = parent).map (·.position)).max?

/-- The rowid of a new row in a table with the rowids `ids`. -/
def newRowid (ids : List ℤ) : ℤ := (ids.max?.map (· + 1)).getD 1

def updateBookmarks (db : Db) (p : MozBookmark → Bool) (f : MozBookmark → MozBookmark) : Db :=
  { db with bookmarks := db.bookmarks.map fun b => if p b then f b else b }

/-- What surrounds an operation: `txn_begin()`, and `txn_end()` or `txn_rollback()`. -/
def transaction {α : Type} (op : Db → Except Errno (α × Db)) (db : Db) : Except Errno α × Db :=
  match op db with
  | .ok (a, db') => (.ok a, db')
  | .error err => (.error err, db)

/-! ## Folders -/

def Db.children (db : Db) (parent : ℤ) : List MozBookmark :=
  byPosition (db.bookmarks.filter fun b => b.parent = parent)

/-- `id` is a primary key. -/
def Db.KeysUnique (db : Db) : Prop := (db.bookmarks.map (·.id)).Nodup

def Db.PositionsDistinct (db : Db) (parent : ℤ) : Prop :=
  ∀ b ∈ db.bookmarks, ∀ c ∈ db.bookmarks, b.parent = parent → c.parent = parent →
    b.position = c.position → b.id = c.id

variable {db db' : Db} {parent : ℤ} {rows l : List MozBookmark} {b c : MozBookmark}

theorem bound_eq_some {n m : ℤ} : bound n = some m ↔ 0 ≤ n ∧ n = m := by
  rw [bound]
  split
  · exact ⟨nofun, fun h => absurd h.1 (not_le.mpr ‹_›)⟩
  · exact ⟨fun h => ⟨not_lt.mp ‹_›, Option.some.inj h⟩, fun h => congrArg some h.2⟩

theorem byPosition_perm (rows : List MozBookmark) : (byPosition rows).Perm rows :=
  List.perm_insertionSort _ rows

theorem mem_byPosition : b ∈ byPosition rows ↔ b ∈ rows := (byPosition_perm rows).mem_iff

theorem byPosition_le (rows : List MozBookmark) :
    (byPosition rows).Pairwise fun b c => b.position ≤ c.position :=
  have : Std.Total fun b c : MozBookmark => b.position ≤ c.position := ⟨fun _ _ => le_total _ _⟩
  have : IsTrans MozBookmark fun b c => b.position ≤ c.position := ⟨fun _ _ _ => le_trans⟩
  List.pairwise_insertionSort _ rows

theorem eq_of_position (h : l.Pairwise fun b c => b.position < c.position) (hb : b ∈ l) (hc : c ∈ l)
    (hpos : b.position = c.position) : b = c := by
  have hnodup : (l.map (·.position)).Nodup := List.pairwise_map.mpr (h.imp ne_of_lt)
  exact List.inj_on_of_nodup_map hnodup hb hc hpos

theorem byPosition_eq (hperm : l.Perm rows)
    (hsorted : l.Pairwise fun b c => b.position < c.position) :
    byPosition rows = l := by
  have hmem : ∀ b ∈ byPosition rows, b ∈ l := fun b hb => hperm.mem_iff.mpr (mem_byPosition.mp hb)
  exact List.Perm.eq_of_pairwise
    (fun b c hb hc hbc hcb => eq_of_position hsorted (hmem b hb) hc (le_antisymm hbc hcb))
    (byPosition_le rows) (hsorted.imp le_of_lt) ((byPosition_perm rows).trans hperm.symm)

theorem mem_children : b ∈ db.children parent ↔ b ∈ db.bookmarks ∧ b.parent = parent := by
  rw [Db.children, mem_byPosition, List.mem_filter, decide_eq_true_iff]

theorem Db.KeysUnique.eq_of_id (h : db.KeysUnique) (hb : b ∈ db.bookmarks) (hc : c ∈ db.bookmarks)
    (hid : b.id = c.id) : b = c :=
  List.inj_on_of_nodup_map h hb hc hid

theorem id_iff_position (hkeys : db.KeysUnique) (hdistinct : db.PositionsDistinct parent)
    (hb : b ∈ db.children parent) (hc : c ∈ db.children parent) : b.id = c.id ↔
    b.position = c.position := by
  obtain ⟨hbrow, hbparent⟩ := mem_children.mp hb
  obtain ⟨hcrow, hcparent⟩ := mem_children.mp hc
  constructor
  · intro hid
    rw [hkeys.eq_of_id hbrow hcrow hid]
  · exact hdistinct b hbrow c hcrow hbparent hcparent

theorem children_sorted (hkeys : db.KeysUnique) (hdistinct : db.PositionsDistinct parent) :
    (db.children parent).Pairwise fun b c => b.position < c.position := by
  have hnodup : (db.children parent).Nodup :=
    (byPosition_perm _).nodup_iff.mpr ((List.Nodup.of_map _ hkeys).filter _)
  refine (hnodup.and (byPosition_le _)).imp_of_mem fun hb hc hbc => ?_
  obtain ⟨hbrow, hbparent⟩ := mem_children.mp hb
  obtain ⟨hcrow, hcparent⟩ := mem_children.mp hc
  refine lt_of_le_of_ne hbc.2 fun hpos => hbc.1 ?_
  exact hkeys.eq_of_id hbrow hcrow (hdistinct _ hbrow _ hcrow hbparent hcparent hpos)

theorem positionsDistinct_of_sorted
    (h : (db.children parent).Pairwise fun b c => b.position < c.position) :
    db.PositionsDistinct parent := by
  intro b hb c hc hbp hcp hpos
  rw [eq_of_position h (mem_children.mpr ⟨hb, hbp⟩) (mem_children.mpr ⟨hc, hcp⟩) hpos]

end BookmarkFS.Firefox
