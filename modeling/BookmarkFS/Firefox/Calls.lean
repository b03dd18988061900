import BookmarkFS.Firefox.Permutation
import BookmarkFS.Library.Transition

/-! # Calls, and the order of a folder

The calls that change the database as steps of a system. Identifiers stay keys,
and positions stay distinct and non-negative in each folder, whatever is called.
-/
namespace BookmarkFS.Firefox
open Library
open Chromium (Errno PermdOp Timespec)

inductive Call where
  | create (parentId : ℤ) (name : CString) (type : BookmarkType) (isDir : Bool) (id : ℤ)
  | delete (parentId : ℤ) (name : CString) (type : BookmarkType) (isDir : Bool)
  | rename (oldParentId : ℤ) (oldName : CString) (newParentId : ℤ) (newName : CString)
      (type : BookmarkType) (noreplace : Bool)
  | permute (parentId : ℤ) (op : PermdOp) (name1 name2 : CString) (type : BookmarkType)
  | set (id : ℤ) (arg : SetArg)

/-- The status of a call, and the database afterwards. -/
def Call.run (env : Env) (ctx : Ctx) (db : Db) : Call → Except Errno Unit × Db
  | .create parentId name type isDir id =>
    let (reply, db) := bookmarkCreate env ctx parentId name type isDir id db
    (reply.map fun _ => (), db)
  | .delete parentId name type isDir => bookmarkDelete env ctx parentId name type isDir db
  | .rename oldParentId oldName newParentId newName type noreplace =>
    bookmarkRename env ctx oldParentId oldName newParentId newName type noreplace db
  | .permute parentId op name1 name2 type =>
      bookmarkPermute ctx parentId op name1 name2 type env.usecs db
  | .set id arg => bookmarkSet env ctx id arg db

def MozBookmark.slot (b : MozBookmark) : ℤ × ℤ × ℤ := (b.id, b.parent, b.position)

/-- Identifiers are keys, and the positions in each folder are distinct and not negative. -/
structure Db.Ordered (db : Db) : Prop where
  keys : db.KeysUnique
  distinct : ∀ parent, db.PositionsDistinct parent
  nonneg : ∀ b ∈ db.bookmarks, 0 ≤ b.position

variable {db db' : Db}

namespace Db.Ordered

/-- What keeps the slots of the rows, or drops some. -/
theorem of_slots (h : db.Ordered)
    (hslots : (db'.bookmarks.map (·.slot)).Sublist (db.bookmarks.map (·.slot))) : db'.Ordered := by
  have hmem : ∀ b ∈ db'.bookmarks, ∃ c ∈ db.bookmarks, c.slot = b.slot := fun b hb =>
    List.mem_map.mp (hslots.subset (List.mem_map_of_mem hb))
  constructor
  · have hids := hslots.map Prod.fst
    rw [List.map_map, List.map_map] at hids
    exact h.keys.sublist hids
  · intro parent b hb c hc hbp hcp hpos
    obtain ⟨b', hb', hbslot⟩ := hmem b hb
    obtain ⟨c', hc', hcslot⟩ := hmem c hc
    simp only [MozBookmark.slot, Prod.mk.injEq] at hbslot hcslot
    rw [← hbslot.1, ← hcslot.1]
    exact h.distinct parent b' hb' c' hc' (hbslot.2.1.trans hbp) (hcslot.2.1.trans hcp)
      (hbslot.2.2.trans (hpos.trans hcslot.2.2.symm))
  · intro b hb
    obtain ⟨b', hb', hbslot⟩ := hmem b hb
    simp only [MozBookmark.slot, Prod.mk.injEq] at hbslot
    exact hbslot.2.2 ▸ h.nonneg b' hb'

theorem shrink (h : db.Ordered) (hrows : db'.bookmarks.Sublist db.bookmarks) : db'.Ordered :=
  h.of_slots (hrows.map _)

theorem update (h : db.Ordered) {p : MozBookmark → Bool} {f : MozBookmark → MozBookmark}
    (hf : ∀ b, (f b).slot = b.slot) : (updateBookmarks db p f).Ordered := by
  refine h.of_slots ?_
  rw [updateBookmarks, List.map_map]
  refine (List.map_congr_left fun b _ => ?_).symm ▸ List.Sublist.refl _
  simp only [Function.comp_apply]
  split
  · exact hf b
  · rfl

theorem mtime (h : db.Ordered) (id now : ℤ) : (mozbmMtimeUpdate db id now).Ordered :=
  h.update fun _ => rfl

end Db.Ordered

/-! ## New rows and new positions -/

theorem lt_newRowid {ids : List ℤ} {id : ℤ} (h : id ∈ ids) : id < newRowid ids := by
  cases hmax : ids.max? with
  | none =>
    rw [List.max?_eq_none_iff] at hmax
    rw [hmax] at h
    cases h
  | some m =>
    have := List.max?_eq_some_iff.mp hmax |>.2 id h
    simp only [newRowid, hmax, Option.map_some, Option.getD_some]
    omega

/-- The rows of a folder come before a position after the last one. -/
theorem position_lt_safeincr {rows : List MozBookmark} {parent pos : ℤ}
    (h : safeincr (maxPos rows parent) = .ok pos)
    {b : MozBookmark} (hb : b ∈ rows) (hparent : b.parent = parent) : b.position < pos := by
  have hmem : b.position ∈ (rows.filter fun b => b.parent = parent).map (·.position) :=
    List.mem_map_of_mem (List.mem_filter.mpr ⟨hb, decide_eq_true hparent⟩)
  rw [maxPos] at h
  cases hmax : ((rows.filter fun b => b.parent = parent).map (·.position)).max? with
  | none =>
    rw [List.max?_eq_none_iff] at hmax
    rw [hmax] at hmem
    cases hmem
  | some m =>
    rw [hmax, safeincr] at h
    have hle := (List.max?_eq_some_iff.mp hmax).2 _ hmem
    split at h
    · cases h
    · obtain rfl := Except.ok.inj h
      omega

/-- The position after the last one. -/
theorem safeincr_maxPos {rows : List MozBookmark} {parent pos : ℤ}
    (hnonneg : ∀ b ∈ rows, 0 ≤ b.position) (h : safeincr (maxPos rows parent) = .ok pos) :
    0 ≤ pos ∧ ∀ b ∈ rows, b.parent = parent → b.position < pos := by
  refine ⟨?_, fun b hb hparent => position_lt_safeincr h hb hparent⟩
  rw [maxPos] at h
  cases hmax : ((rows.filter fun b => b.parent = parent).map (·.position)).max? with
  | none =>
    rw [hmax] at h
    obtain rfl : (0 : ℤ) = pos := Except.ok.inj h
    exact le_rfl
  | some m =>
    rw [hmax, safeincr] at h
    obtain ⟨c, hc, rfl⟩ := List.mem_map.mp (List.max?_eq_some_iff.mp hmax).1
    have hpos := hnonneg c (List.mem_filter.mp hc).1
    split at h
    · cases h
    · obtain rfl := Except.ok.inj h
      omega

theorem mozbmInsert_ordered (h : db.Ordered) {parent dateAdded placeId id : ℤ}
    {title : Option Bytes}
    (hrun : mozbmInsert db parent title dateAdded placeId = .ok (id, db')) : db'.Ordered := by
  rw [mozbmInsert] at hrun
  obtain ⟨pos, hpos, hrun⟩ := bind_eq_ok.mp hrun
  obtain ⟨hnonneg, hlast⟩ := safeincr_maxPos h.nonneg hpos
  dsimp only at hrun
  split at hrun
  · cases hrun
  cases hrun
  have hfresh : ∀ b ∈ db.bookmarks, b.id < newRowid (db.bookmarks.map (·.id)) := fun b hb =>
    lt_newRowid (List.mem_map_of_mem hb)
  constructor
  · rw [Db.KeysUnique, List.map_append, List.nodup_append]
    refine ⟨h.keys, List.nodup_singleton _, fun i hi j hj => ?_⟩
    obtain ⟨b, hb, rfl⟩ := List.mem_map.mp hi
    rw [List.map_singleton, List.mem_singleton] at hj
    exact hj ▸ (hfresh b hb).ne
  · intro q b hb c hc hbq hcq hsame
    rcases List.mem_append.mp hb with hb | hb <;> rcases List.mem_append.mp hc with hc | hc
    · exact h.distinct q b hb c hc hbq hcq hsame
    · obtain rfl := List.mem_singleton.mp hc
      exact absurd hsame (hlast b hb (hbq.trans hcq.symm)).ne
    · obtain rfl := List.mem_singleton.mp hb
      exact absurd hsame (hlast c hc (hcq.trans hbq.symm)).ne'
    · rw [List.mem_singleton.mp hb, List.mem_singleton.mp hc]
  · intro b hb
    rcases List.mem_append.mp hb with hb | hb
    · exact h.nonneg b hb
    · rw [List.mem_singleton.mp hb]
      exact hnonneg

/-- A new row has an identifier of its own. -/
theorem mozbmInsert_row {parent dateAdded placeId id : ℤ} {title : Option Bytes}
    (h : mozbmInsert db parent title dateAdded placeId = .ok (id, db')) :
    ∃ b : MozBookmark, db'.bookmarks = db.bookmarks ++ [b] ∧
      (b.id ∉ db.bookmarks.map (·.id) ∧ b.id = newRowid (db.bookmarks.map (·.id)) ∧
        isValidId b.id = true ∧
        b.parent = parent) ∧
      b.fk = bound placeId ∧ b.title = title ∧ db'.keywords = db.keywords ∧
      db'.places = db.places := by
  rw [mozbmInsert] at h
  obtain ⟨pos, -, h⟩ := bind_eq_ok.mp h
  dsimp only at h
  split at h
  · cases h
  next hvalid =>
  cases h
  exact ⟨_, rfl, ⟨fun hmem => absurd (lt_newRowid hmem) (lt_irrefl _), rfl,
    Bool.not_eq_false _ ▸ hvalid, rfl⟩,
    rfl, rfl, rfl, rfl⟩

/-- A row moves to a position that is free. -/
theorem mozbmMove_ordered (h : db.Ordered) {id newParent : ℤ} {newPos : Option ℤ}
    {newName : Option Bytes}
    (hfree : ∀ pos ∈ newPos, 0 ≤ pos ∧ ∀ b ∈ db.bookmarks, b.parent = newParent → b.position ≠ pos)
    (hrun : mozbmMove db id newParent newPos newName = .ok db') : db'.Ordered := by
  rw [mozbmMove] at hrun
  split at hrun
  swap
  · cases hrun
    exact h
  obtain ⟨pos, hpos, hrun⟩ := bind_eq_ok.mp hrun
  have hpos : 0 ≤ pos ∧ ∀ b ∈ db.bookmarks, b.parent = newParent → b.position ≠ pos := by
    cases newPos with
    | none =>
      obtain ⟨hnonneg, hlast⟩ := safeincr_maxPos h.nonneg hpos
      exact ⟨hnonneg, fun b hb hparent => (hlast b hb hparent).ne⟩
    | some pos' =>
      obtain rfl := Except.ok.inj hpos
      exact hfree _ rfl
  cases hrun
  set move : MozBookmark → MozBookmark := fun b => if decide (b.id = id) = true then
    { b with parent := newParent, title := newName <|> b.title, position := pos } else b with hmove
  have hid : ∀ b, (move b).id = b.id := fun b => by simp only [hmove]; split <;> rfl
  have hcases : ∀ b, (b.id = id ∧ (move b).parent = newParent ∧ (move b).position = pos) ∨
      (b.id ≠ id ∧ (move b).parent = b.parent ∧ (move b).position = b.position) := fun b => by
    simp only [hmove, decide_eq_true_eq]
    split
    next hb => exact .inl ⟨hb, rfl, rfl⟩
    next hb => exact .inr ⟨hb, rfl, rfl⟩
  constructor
  · rw [Db.KeysUnique, updateBookmarks, List.map_map]
    rw [show ((fun b : MozBookmark => b.id) ∘ move) = fun b => b.id from funext hid]
    exact h.keys
  · intro q b' hb' c' hc' hbq hcq hsame
    obtain ⟨b, hb, rfl⟩ := List.mem_map.mp hb'
    obtain ⟨c, hc, rfl⟩ := List.mem_map.mp hc'
    rw [show (move b).id = b.id from hid b, show (move c).id = c.id from hid c]
    rcases hcases b with ⟨hbid, hbp, hbpos⟩ | ⟨hbid, hbp, hbpos⟩ <;>
      rcases hcases c with ⟨hcid, hcp, hcpos⟩ | ⟨hcid, hcp, hcpos⟩
    · exact hbid.trans hcid.symm
    · refine absurd ?_ (hpos.2 c hc (hcp.symm.trans (hcq.trans (hbq.symm.trans hbp))))
      exact hcpos.symm.trans (hsame.symm.trans hbpos)
    · refine absurd ?_ (hpos.2 b hb (hbp.symm.trans (hbq.trans (hcq.symm.trans hcp))))
      exact hbpos.symm.trans (hsame.trans hcpos)
    · exact h.distinct q b hb c hc (hbp.symm.trans hbq) (hcp.symm.trans hcq)
        (hbpos.symm.trans (hsame.trans hcpos))
  · intro b' hb'
    obtain ⟨b, hb, rfl⟩ := List.mem_map.mp hb'
    show 0 ≤ (move b).position
    rcases hcases b with ⟨-, -, hbpos⟩ | ⟨-, -, hbpos⟩
    · exact hbpos.symm ▸ hpos.1
    · exact hbpos.symm ▸ h.nonneg b hb

/-! ## What the calls keep -/

theorem transaction_keeps {α : Type} {op : Db → Except Errno (α × Db)} {P : Db → Prop} (h : P db)
    (hop : ∀ {a db'}, op db = .ok (a, db') → P db') : P (transaction op db).2 := by
  rw [transaction]
  split
  next hrun => exact hop hrun
  · exact h

variable {env : Env} {ctx : Ctx}

theorem bookmarkDoCreate_cases {parentId : ℤ} {name : Bytes} {isDir : Bool} {stat : Stat}
    (hrun : bookmarkDoCreate env ctx parentId name isDir db = .ok (stat, db')) :
    ∃ r db₁ id db₂, createPlace db isDir = .ok (r, db₁) ∧
      mozbmInsert db₁ parentId (some name) env.usecs r.1 = .ok (id, db₂) ∧
      db' = mozbmMtimeUpdate db₂ parentId env.usecs := by
  rw [bookmarkDoCreate] at hrun
  split at hrun
  · cases hrun
  split at hrun
  · cases hrun
  · obtain ⟨⟨r, db₁⟩, hplace, hrun⟩ := bind_eq_ok.mp hrun
    obtain ⟨⟨id, db₂⟩, hinsert, hrun⟩ := bind_eq_ok.mp hrun
    cases hrun
    exact ⟨r, db₁, id, db₂, hplace, hinsert, rfl⟩
  · cases hrun

theorem createPlace_rows {isDir : Bool} {r : ℤ × Option Timespec}
    (h : createPlace db isDir = .ok (r, db')) :
    db'.bookmarks = db.bookmarks ∧ db'.keywords = db.keywords := by
  rw [createPlace] at h
  split at h
  · cases h
    exact ⟨rfl, rfl⟩
  · obtain ⟨⟨r, db₁⟩, haddref, h⟩ := bind_eq_ok.mp h
    cases h
    exact mozplaceAddref_rows haddref

/-- Tagging a bookmark inserts a row without a title for its place. -/
theorem tagEntryAdd_cases {parentId id : ℤ} {name : Bytes} {stat : Stat}
    (hrun : tagEntryAdd env ctx parentId name id db = .ok (stat, db')) :
    ∃ mb entry db₁ db₂, mozbmLookupId db id = .ok mb ∧ mb.placeId ≠ 0 ∧
      mozbmInsert db parentId none env.usecs mb.placeId = .ok (entry, db₁) ∧
      mozplaceAddrefId db₁ mb.placeId = .ok db₂ ∧
      db' = mozbmMtimeUpdate db₂ parentId env.usecs := by
  rw [tagEntryAdd] at hrun
  obtain ⟨mb, hlookup, hrun⟩ := bind_eq_ok.mp hrun
  split at hrun
  · cases hrun
  next hplace =>
  split at hrun
  · cases hrun
  · obtain ⟨⟨entry, db₁⟩, hinsert, hrun⟩ := bind_eq_ok.mp hrun
    obtain ⟨stat', -, hrun⟩ := bind_eq_ok.mp hrun
    obtain ⟨db₂, haddref, hrun⟩ := bind_eq_ok.mp hrun
    cases hrun
    exact ⟨mb, entry, db₁, db₂, hlookup, hplace, hinsert, haddref, rfl⟩
  · cases hrun

theorem keywordCreate_cases {keyword : Bytes} {id : ℤ} {stat : Stat}
    (hrun : keywordCreate ctx keyword id db = .ok (stat, db')) :
    ∃ mb db₁, mozbmLookupId db id = .ok mb ∧ mb.placeId ≠ 0 ∧
      mozkwInsert db keyword mb.placeId = .ok db₁ ∧ mozplaceAddrefId db₁ mb.placeId = .ok db' := by
  rw [keywordCreate] at hrun
  obtain ⟨mb, hlookup, hrun⟩ := bind_eq_ok.mp hrun
  split at hrun
  · cases hrun
  next hplace =>
  obtain ⟨db₁, hinsert, hrun⟩ := bind_eq_ok.mp hrun
  obtain ⟨stat', -, hrun⟩ := bind_eq_ok.mp hrun
  obtain ⟨db₂, haddref, hrun⟩ := bind_eq_ok.mp hrun
  cases hrun
  exact ⟨mb, db₁, hlookup, hplace, hinsert, haddref⟩

theorem mozkwInsert_bookmarks {keyword : Bytes} {placeId : ℤ}
    (h : mozkwInsert db keyword placeId = .ok db') :
    db'.bookmarks = db.bookmarks := by
  rw [mozkwInsert] at h
  split at h <;> cases h
  rfl

theorem bookmarkDoDelete_cases {parentId : ℤ} {name : Bytes} {isDir : Bool} {u : Unit}
    (hrun : bookmarkDoDelete env ctx parentId name isDir db = .ok (u, db')) :
    ∃ mb db₁, mozbmLookup db parentId name = .ok mb ∧ ((mb.placeId = 0) = (isDir = true)) ∧
      mozbmDelete db mb isDir true = .ok db₁ ∧ db' = mozbmMtimeUpdate db₁ parentId env.usecs := by
  rw [bookmarkDoDelete] at hrun
  split at hrun
  · cases hrun
  obtain ⟨mb, hlookup, hrun⟩ := bind_eq_ok.mp hrun
  split at hrun
  · cases hrun
  next hdir =>
  obtain ⟨db₁, hdelete, hrun⟩ := bind_eq_ok.mp hrun
  cases hrun
  exact ⟨mb, db₁, hlookup, not_not.mp hdir, hdelete, rfl⟩

theorem tagEntryDelete_cases {parentId : ℤ} {name : Bytes} {u : Unit}
    (hrun : tagEntryDelete env ctx parentId name db = .ok (u, db')) :
    ∃ stat mb entry db₁, bookmarkDoLookup db ctx parentId (some name) .tag = .ok stat ∧
      mozbmLookupId db stat.id = .ok mb ∧ mb.placeId ≠ 0 ∧
      tagEntryLookup db parentId mb.placeId = .ok entry ∧
      mozbmDelete db entry false false = .ok db₁ ∧
      db' = mozbmMtimeUpdate db₁ parentId env.usecs := by
  rw [tagEntryDelete] at hrun
  obtain ⟨stat, hstat, hrun⟩ := bind_eq_ok.mp hrun
  obtain ⟨mb, hlookup, hrun⟩ := bind_eq_ok.mp hrun
  split at hrun
  · cases hrun
  next hplace =>
  obtain ⟨entry, hentry, hrun⟩ := bind_eq_ok.mp hrun
  obtain ⟨db₁, hdelete, hrun⟩ := bind_eq_ok.mp hrun
  cases hrun
  exact ⟨stat, mb, entry, db₁, hstat, hlookup, hplace, hentry, hdelete, rfl⟩

/-- Where the new name is taken, the row that has it is of the same kind, and deleted. -/
theorem replaceTarget_cases {oldMb : MozBookmark} {newParentId : ℤ} {newName : Bytes}
    {noreplace : Bool} {newPos : Option ℤ}
    (h : replaceTarget db oldMb newParentId newName noreplace = .ok (newPos, db')) :
    (newPos = none ∧ db' = db) ∨ ∃ newMb, mozbmLookup db newParentId newName = .ok newMb ∧
      ((oldMb.placeId = 0) = (newMb.placeId = 0)) ∧
      mozbmDelete db newMb (oldMb.placeId = 0) true = .ok db' ∧ newPos = bound newMb.position := by
  rw [replaceTarget] at h
  split at h
  · cases h
    exact .inl ⟨rfl, rfl⟩
  · cases h
  next newMb hlookup =>
    split at h
    · cases h
    split at h
    · cases h
    next hkind =>
    obtain ⟨db₁, hdelete, h⟩ := bind_eq_ok.mp h
    cases h
    exact .inr ⟨newMb, hlookup, not_not.mp hkind, hdelete, rfl⟩

/-- A rename that succeeds does nothing, or it replaces a row, moves another, and stamps some. -/
theorem bookmarkRename_cases {P : Db → Prop} (oldParentId newParentId : ℤ)
    (oldName newName : CString) (type : BookmarkType) (noreplace : Bool) (h : P db)
    (hmtime : ∀ {db : Db} id now, P db → P (mozbmMtimeUpdate db id now))
    (hmove : ∀ {oldMb newPos db₁ db₂}, mozbmLookup db oldParentId oldName.val = .ok oldMb →
      replaceTarget db oldMb newParentId newName.val noreplace = .ok (newPos, db₁) →
      mozbmMove db₁ oldMb.id newParentId newPos
      (if oldName = newName then none else some newName.val) =
        .ok db₂ → P db₂) :
    P (bookmarkRename env ctx oldParentId oldName newParentId newName type noreplace db).2 := by
  rw [bookmarkRename]
  split
  · exact h
  split
  · exact h
  refine transaction_keeps h fun {u db'} hrun => ?_
  obtain ⟨oldMb, hlookup, hrun⟩ := bind_eq_ok.mp hrun
  obtain ⟨⟨newPos, db₁⟩, hreplace, hrun⟩ := bind_eq_ok.mp hrun
  obtain ⟨db₂, hmoved, hrun⟩ := bind_eq_ok.mp hrun
  have h₂ := hmove hlookup hreplace hmoved
  cases hrun
  have hparents : P (if oldParentId = newParentId then mozbmMtimeUpdate db₂ oldParentId env.usecs
      else mozbmMtimeUpdate (mozbmMtimeUpdate db₂ oldParentId env.usecs)
        newParentId env.usecs) := by
    split
    · exact hmtime _ _ h₂
    · exact hmtime _ _ (hmtime _ _ h₂)
  split
  · exact hmtime _ _ hparents
  · exact hparents

/-- A permutation that succeeds does nothing, or it exchanges two rows, or shifts some
and moves one. -/
theorem bookmarkPermute_cases {P : Db → Prop} (parent : ℤ) (op : PermdOp) (name1 name2 : CString)
    (type : BookmarkType) (now : ℤ) (h : P db)
    (hmtime : ∀ {db : Db} id now, P db → P (mozbmMtimeUpdate db id now))
    (hswap : ∀ {a b}, a ∈ db.children parent → b ∈ db.children parent → a.id ≠ b.id →
      P (mozbmPosUpdate (mozbmPosUpdate db b.id a.position) a.id b.position))
    (hshift : ∀ {a b op newPos db'}, a ∈ db.children parent → b ∈ db.children parent →
      mozbmPosShift db parent a.position b.position op = .ok (some (newPos, db')) →
        P (mozbmPosUpdate db' a.id newPos)) :
    P (bookmarkPermute ctx parent op name1 name2 type now db).2 := by
  rw [bookmarkPermute]
  split
  · exact h
  dsimp only
  split
  · exact h
  split
  · exact h
  refine transaction_keeps h fun {u db'} hrun => ?_
  obtain ⟨a, hlookupa, hrun⟩ := bind_eq_ok.mp hrun
  obtain ⟨b, hlookupb, hrun⟩ := bind_eq_ok.mp hrun
  have ha := mozbmLookup_child hlookupa
  have hb := mozbmLookup_child hlookupb
  split at hrun
  · cases hrun
    exact h
  next hab =>
  cases op with
  | swap =>
    simp only [ok_bind] at hrun
    cases hrun
    exact hmtime _ _ (hswap ha hb hab)
  | moveBefore =>
    obtain ⟨shifted, hrun', hrun⟩ := bind_eq_ok.mp hrun
    cases shifted <;> cases hrun
    · exact h
    · exact hmtime _ _ (hshift ha hb hrun')
  | moveAfter =>
    obtain ⟨shifted, hrun', hrun⟩ := bind_eq_ok.mp hrun
    cases shifted <;> cases hrun
    · exact h
    · exact hmtime _ _ (hshift ha hb hrun')

theorem mozbmPosShift_update {parent posStart posEnd newPos : ℤ} {op : PermdOp}
    (h : mozbmPosShift db parent posStart posEnd op = .ok (some (newPos, db'))) :
    ∃ p d, db' = updateBookmarks db p fun b => { b with position := b.position + d } := by
  simp only [mozbmPosShift] at h
  split at h
  · cases h
  split at h <;> cases op <;> simp only [] at h <;> (try split at h) <;> cases h <;> exact ⟨_, _,
    rfl⟩

/-- Attributes are those of a row, or of its place; the row may get another place. -/
theorem bookmarkSet_cases {P : Db → Prop} (id : ℤ) (arg : SetArg) (h : P db)
    (hset : ∀ {updates placeId db₁}, arg.updates env ctx = .ok updates →
      mozbmUpdate db id none updates.dateAdded updates.lastModified = .ok (placeId, db₁) →
      (updates.place = none → P db₁) ∧
      ∀ {url visit desc newPlaceId db₂}, updates.place = some (url, visit, desc) → placeId ≠ 0 →
        mozplaceUpdate db₁ placeId url visit desc = .ok (newPlaceId, db₂) →
        (newPlaceId = placeId → P db₂) ∧
        ∀ {r db₃}, newPlaceId ≠ placeId →
          mozbmUpdate db₂ id (bound newPlaceId) updates.dateAdded updates.lastModified =
          .ok (r, db₃) → P db₃) :
    P (bookmarkSet env ctx id arg db).2 := by
  rw [bookmarkSet]
  split
  · exact h
  next updates hupdates =>
  refine transaction_keeps h fun {u db'} hrun => ?_
  obtain ⟨⟨placeId, db₁⟩, hupdate, hrun⟩ := bind_eq_ok.mp hrun
  obtain ⟨hnone, hsome⟩ := hset hupdates hupdate
  dsimp only at hrun
  split at hrun
  next hplace =>
    cases hrun
    exact hnone hplace
  next url visit desc hplace =>
  split at hrun
  · cases hrun
  next hplaceId =>
  obtain ⟨⟨newPlaceId, db₂⟩, hreplace, hrun⟩ := bind_eq_ok.mp hrun
  obtain ⟨hsame, hother⟩ := hsome hplace hplaceId hreplace
  dsimp only at hrun
  split at hrun
  next heq =>
    cases hrun
    exact hsame heq
  next hne =>
  obtain ⟨⟨r, db₃⟩, hupdate', hrun⟩ := bind_eq_ok.mp hrun
  cases hrun
  exact hother hne hupdate'

/-- What a call does, if it creates or deletes an entry. -/
theorem Call.run_keeps {P : Db → Prop} (h : P db) (call : Call)
    (hcreate : ∀ {parentId name type isDir id stat db'},
      call = .create parentId name type isDir id →
      (type = .bookmark ∨ type = .tag ∧ isDir = true) →
      bookmarkDoCreate env ctx parentId name.val isDir db = .ok (stat, db') → P db')
    (htag : ∀ {parentId name id stat db'}, call = .create parentId name .tag false id →
      tagEntryAdd env ctx parentId name.val id db = .ok (stat, db') → P db')
    (hkeyword : ∀ {parentId name isDir id stat db'},
      call = .create parentId name .keyword isDir id →
      keywordCreate ctx name.val id db = .ok (stat, db') → P db')
    (hdelete : ∀ {parentId name isDir u db'},
      bookmarkDoDelete env ctx parentId name isDir db = .ok (u, db') → P db')
    (huntag : ∀ {parentId name u db'}, call = .delete parentId name .tag false →
      tagEntryDelete env ctx parentId name.val db = .ok (u, db') → P db')
    (hunkey : ∀ {parentId name isDir db'}, call = .delete parentId name .keyword isDir →
      mozkwDelete env db name.val = .ok db' → P db')
    (hrename : ∀ {oldParentId oldName newParentId newName type noreplace},
      call = .rename oldParentId oldName newParentId newName type noreplace →
      P (bookmarkRename env ctx oldParentId oldName newParentId newName type noreplace db).2)
    (hpermute : ∀ {parentId op name1 name2 type now},
      P (bookmarkPermute ctx parentId op name1 name2 type now db).2)
    (hset : ∀ {id arg}, call = .set id arg → P (bookmarkSet env ctx id arg db).2) :
    P (call.run env ctx db).2 := by
  cases call with
  | create parentId name type isDir id =>
    show P (bookmarkCreate env ctx parentId name type isDir id db).2
    refine transaction_keeps h fun hrun => ?_
    cases type with
    | bookmark => exact hcreate rfl (.inl rfl) hrun
    | tag =>
      cases isDir with
      | true => exact hcreate rfl (.inr ⟨rfl, rfl⟩) hrun
      | false => exact htag rfl hrun
    | keyword => exact hkeyword rfl hrun
  | delete parentId name type isDir =>
    refine transaction_keeps h fun hrun => ?_
    cases type with
    | bookmark => exact hdelete hrun
    | tag =>
      cases isDir with
      | true => exact hdelete hrun
      | false => exact huntag rfl hrun
    | keyword =>
      obtain ⟨db₁, hkw, hrun⟩ := bind_eq_ok.mp hrun
      cases hrun
      exact hunkey rfl hkw
  | rename oldParentId oldName newParentId newName type noreplace => exact hrename rfl
  | permute parentId op name1 name2 type => exact hpermute
  | set id arg => exact hset rfl

/-! ## The rows stay ordered -/

/-- The positions of a folder change to others that are as distinct. -/
theorem Db.Moves.ordered (h : db.Ordered) {parent : ℤ} {q : MozBookmark → ℤ}
    (hmoves : db.Moves db' parent q)
    (hnonneg : ∀ b ∈ db.bookmarks, b.parent = parent → 0 ≤ b.position → 0 ≤ q b)
    (hinj : ∀ b ∈ db.bookmarks, ∀ c ∈ db.bookmarks, b.parent = parent → c.parent = parent →
      q b = q c → b.position = c.position) : db'.Ordered := by
  obtain ⟨g, hrows, hkeep, hpos⟩ := hmoves
  constructor
  · rw [Db.KeysUnique, hrows, List.map_map]
    rw [show ((fun b : MozBookmark => b.id) ∘ g) = fun b => b.id from funext fun b => (hkeep b).1]
    exact h.keys
  · intro r b' hb' c' hc' hbr hcr hsame
    rw [hrows] at hb' hc'
    obtain ⟨b, hb, rfl⟩ := List.mem_map.mp hb'
    obtain ⟨c, hc, rfl⟩ := List.mem_map.mp hc'
    rw [(hkeep b).1, (hkeep c).1]
    rw [(hkeep b).2] at hbr
    rw [(hkeep c).2] at hcr
    rw [hpos b hb, hpos c hc, hbr, hcr] at hsame
    refine h.distinct r b hb c hc hbr hcr ?_
    split at hsame
    next hr => exact hinj b hb c hc (hbr.trans hr) (hcr.trans hr) hsame
    · exact hsame
  · intro b' hb'
    rw [hrows] at hb'
    obtain ⟨b, hb, rfl⟩ := List.mem_map.mp hb'
    rw [hpos b hb]
    split
    next hparent => exact hnonneg b hb hparent (h.nonneg b hb)
    · exact h.nonneg b hb

/-- A row is moved to the position that the shift has left free. -/
theorem mozbmPosShift_ordered (h : db.Ordered) {parent newPos : ℤ} {a b : MozBookmark}
    {op : PermdOp} (ha : a ∈ db.children parent) (hb : b ∈ db.children parent)
    (hrun : mozbmPosShift db parent a.position b.position op = .ok (some (newPos, db'))) :
    (mozbmPosUpdate db' a.id newPos).Ordered := by
  have ha0 := h.nonneg a (mem_children.mp ha).1
  have hb0 := h.nonneg b (mem_children.mp hb).1
  -- The rows from `low` to `high` go to positions that were taken by rows that move, too.
  have hshift : ∀ {newPos low high d : ℤ}, 0 ≤ newPos →
      (∀ x, x ≠ a.position → low ≤ x → x ≤ high → 0 ≤ x → 0 ≤ x + d ∧ x + d ≠ newPos) →
      (∀ x y, x ≠ a.position → low ≤ x → x ≤ high → y ≠ a.position →
      ¬(low ≤ y ∧ y ≤ high) → x + d ≠ y) →
      (∀ y, 0 ≤ y → y ≠ a.position → ¬(low ≤ y ∧ y ≤ high) → y ≠ newPos) →
      (mozbmPosUpdate (updateBookmarks db
        (fun b => b.parent = parent && low ≤ b.position && b.position ≤ high)
        fun b => { b with position := b.position + d }) a.id newPos).Ordered := by
    intro newPos low high d hnew hin hsep hout
    refine Db.Moves.ordered h (shift_moves h.keys (h.distinct parent) ha) (fun c hc _ h0 => ?_)
      fun c hc e he hcp hep hsame => ?_
    · grind [shifted]
    · have hc0 := h.nonneg c hc
      have he0 := h.nonneg e he
      grind [shifted]
  simp only [mozbmPosShift] at hrun
  split at hrun
  · cases hrun
  split at hrun <;> cases op <;> simp only [] at hrun
  · cases hrun
  · split at hrun <;> cases hrun
    exact hshift (by omega) (by omega) (by omega) (by omega)
  · cases hrun
    exact hshift (by omega) (by omega) (by omega) (by omega)
  · cases hrun
  · cases hrun
    exact hshift (by omega) (by omega) (by omega) (by omega)
  · split at hrun <;> cases hrun
    exact hshift (by omega) (by omega) (by omega) (by omega)

theorem bookmarkPermute_ordered (h : db.Ordered) (parent : ℤ) (op : PermdOp) (name1 name2 : CString)
    (type : BookmarkType) (now : ℤ) :
    (bookmarkPermute ctx parent op name1 name2 type now db).2.Ordered := by
  refine bookmarkPermute_cases parent op name1 name2 type now h (fun _ _ h => h.mtime _ _)
    (fun ha hb hab => ?_) fun ha hb hshift => mozbmPosShift_ordered h ha hb hshift
  refine Db.Moves.ordered h (swap_moves h.keys (h.distinct parent) ha hb hab) (fun c hc _ h0 => ?_)
    fun c hc e he hcp hep hsame => ?_
  · have ha0 := h.nonneg _ (mem_children.mp ha).1
    have hb0 := h.nonneg _ (mem_children.mp hb).1
    grind [exchanged]
  · grind [exchanged]

theorem mozplaceUpdate_rows {id : ℤ} {url desc : Option Bytes} {visit : Option ℤ} {r : ℤ}
    (h : mozplaceUpdate db id url visit desc = .ok (r, db')) :
    db'.bookmarks = db.bookmarks ∧ db'.keywords = db.keywords := by
  rw [mozplaceUpdate] at h
  obtain ⟨⟨r', db₁⟩, hreplace, h⟩ := bind_eq_ok.mp h
  cases h
  rw [mozplaceReplace.eq_def] at hreplace
  split at hreplace
  · cases hreplace
    exact ⟨rfl, rfl⟩
  · obtain ⟨⟨r', db₂⟩, haddref, hreplace⟩ := bind_eq_ok.mp hreplace
    obtain ⟨db₃, hdelref, hreplace⟩ := bind_eq_ok.mp hreplace
    cases hreplace
    obtain ⟨hb, hk⟩ := mozplaceAddref_rows haddref
    obtain ⟨hb', hk'⟩ := mozplaceDelrefPlain_rows hdelref
    exact ⟨hb'.trans hb, hk'.trans hk⟩

theorem mozbmUpdate_ordered (h : db.Ordered) {id : ℤ} {placeId dateAdded lastModified : Option ℤ}
    {r : ℤ}
    (hrun : mozbmUpdate db id placeId dateAdded lastModified = .ok (r, db')) : db'.Ordered := by
  rw [mozbmUpdate] at hrun
  split at hrun
  · cases hrun
  · cases hrun
    exact h.update fun _ => rfl

/-- Whatever is called, the rows stay ordered. -/
theorem Call.run_ordered (h : db.Ordered) (env : Env) (ctx : Ctx) (call : Call) :
    (call.run env ctx db).2.Ordered := by
  refine Call.run_keeps h call (fun _ _ hrun => ?_) (fun _ hrun => ?_) (fun _ hrun => ?_)
    (fun hrun => ?_) (fun _ hrun => ?_) (fun _ hrun => ?_)
    (fun {oldParentId oldName newParentId newName type noreplace} _ => ?_)
    (bookmarkPermute_ordered h _ _ _ _ _ _) (fun {id arg} _ => ?_)
  · obtain ⟨r, db₁, id, db₂, hplace, hinsert, rfl⟩ := bookmarkDoCreate_cases hrun
    exact .mtime (mozbmInsert_ordered (h.shrink ((createPlace_rows hplace).1 ▸ List.Sublist.refl _))
      hinsert) _ _
  · obtain ⟨mb, entry, db₁, db₂, -, -, hinsert, haddref, rfl⟩ := tagEntryAdd_cases hrun
    exact .mtime ((mozbmInsert_ordered h hinsert).shrink
      ((mozplaceAddrefId_rows haddref).1 ▸ List.Sublist.refl _)) _ _
  · obtain ⟨mb, db₁, -, -, hinsert, haddref⟩ := keywordCreate_cases hrun
    refine h.shrink ((mozplaceAddrefId_rows haddref).1 ▸ ?_)
    rw [mozkwInsert_bookmarks hinsert]
  · obtain ⟨mb, db₁, -, -, hdelete, rfl⟩ := bookmarkDoDelete_cases hrun
    exact .mtime (h.shrink (mozbmDelete_rows hdelete).1.bookmarks) _ _
  · obtain ⟨stat, mb, entry, db₁, -, -, -, -, hdelete, rfl⟩ := tagEntryDelete_cases hrun
    exact .mtime (h.shrink (mozbmDelete_rows hdelete).1.bookmarks) _ _
  · exact h.shrink ((mozplaceDelrefPlain_rows hrun).1 ▸ List.Sublist.refl _)
  · refine bookmarkRename_cases _ _ _ _ _ _ h (fun _ _ h => h.mtime _ _)
      fun hlookup hreplace hmove => ?_
    obtain ⟨rfl, rfl⟩ | ⟨newMb, hnew, -, hdelete, rfl⟩ := replaceTarget_cases hreplace
    · exact mozbmMove_ordered h (by rintro _ ⟨⟩) hmove
    obtain ⟨hshrinks, hgone⟩ := mozbmDelete_rows hdelete
    refine mozbmMove_ordered (h.shrink hshrinks.bookmarks) (fun pos hpos => ?_) hmove
    obtain ⟨hnonneg, rfl⟩ := bound_eq_some.mp hpos
    refine ⟨hnonneg, fun b hb hparent hsame => hgone b hb ?_⟩
    obtain ⟨hmb, hmbparent⟩ := mem_children.mp (mozbmLookup_child hnew)
    exact h.distinct newParentId b (hshrinks.bookmarks.subset hb) newMb hmb hparent hmbparent hsame
  · refine bookmarkSet_cases id arg h fun _ hupdate => ?_
    have h₁ := mozbmUpdate_ordered h hupdate
    refine ⟨fun _ => h₁, fun {_ _ _ _ db₂} _ _ hplace => ?_⟩
    have h₂ : db₂.Ordered := h₁.shrink ((mozplaceUpdate_rows hplace).1 ▸ List.Sublist.refl _)
    exact ⟨fun _ => h₂, fun _ hupdate' => mozbmUpdate_ordered h₂ hupdate'⟩

/-! ## Identifiers stay keys -/

theorem keysUnique_map {g : MozBookmark → MozBookmark} (h : db.KeysUnique)
    (hrows : db'.bookmarks = db.bookmarks.map g) (hg : ∀ b, (g b).id = b.id) : db'.KeysUnique := by
  rw [Db.KeysUnique, hrows, List.map_map]
  rw [show ((fun b : MozBookmark => b.id) ∘ g) = fun b => b.id from funext hg]
  exact h

theorem keysUnique_insert (h : db.KeysUnique) {b : MozBookmark}
    (hrows : db'.bookmarks = db.bookmarks ++ [b])
    (hfresh : b.id ∉ db.bookmarks.map (·.id)) : db'.KeysUnique := by
  rw [Db.KeysUnique, hrows, List.map_append, List.nodup_append]
  refine ⟨h, List.nodup_singleton _, fun i hi j hj => ?_⟩
  rw [List.map_singleton, List.mem_singleton] at hj
  exact fun hij => hfresh (hj ▸ hij ▸ hi)

end BookmarkFS.Firefox
