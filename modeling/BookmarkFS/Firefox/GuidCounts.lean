import BookmarkFS.Firefox.Counts
import BookmarkFS.Firefox.GuidFilenames

/-! # Counts where filenames are GUIDs

The calls that change the tables, with `BACKEND_FILENAME_GUID`. A row that is moved gets its
new name in the column `guid`, which is unique, and the title is an attribute. The statements
that count references are the same, and in every run the counts stay right on the same
condition.
-/
namespace BookmarkFS.Firefox
open Library
open Chromium (Errno PermdOp)

/-! ## Deletion -/

section Calls

variable (env : Env) (ctx : Ctx)

/-- `bookmark_do_delete()` -/
def GuidDb.bookmarkDoDelete (parentId : ℤ) (name : Bytes) (isDir : Bool) (s : GuidDb) :
    Except Errno (Unit × GuidDb) :=
  if parentId = ctx.rootId then .error .perm
  else do
    let mb ← s.mozbmLookup parentId name false
    if (mb.placeId = 0) ≠ isDir then .error (if isDir then .notdir else .isdir)
    else
      let db ← mozbmDelete s.db mb isDir true
      .ok ((), { s with db := mozbmMtimeUpdate db parentId env.usecs })

/-- `tag_entry_delete()` -/
def GuidDb.tagEntryDelete (parentId : ℤ) (name : Bytes) (s : GuidDb) :
    Except Errno (Unit × GuidDb) := do
  let stat ← s.bookmarkDoLookup ctx true parentId (some name) .tag false
  let mb ← s.mozbmLookupId true stat.id
  -- Bad bookmark file.  Tag entry should not be a directory.
  if mb.placeId = 0 then .error .io
  else
    let entry ← tagEntryLookup s.db parentId mb.placeId
    let db ← mozbmDelete s.db entry false false
    .ok ((), { s with db := mozbmMtimeUpdate db parentId env.usecs })

/-- `bookmark_delete()` -/
def GuidDb.bookmarkDelete (parentId : ℤ) (name : CString) (type : BookmarkType) (isDir : Bool)
    (s : GuidDb) : Except Errno Unit × GuidDb :=
  GuidDb.transaction (match type with
    | .bookmark => GuidDb.bookmarkDoDelete env ctx parentId name.val isDir
    | .tag =>
      if isDir then GuidDb.bookmarkDoDelete env ctx parentId name.val isDir
      else GuidDb.tagEntryDelete env ctx parentId name.val
    | .keyword => fun s => do
      let db ← mozkwDelete env s.db name.val
      .ok ((), { s with db := db })) s

/-! ## Renames -/

/-- `mozbm_move()`, which fails where another row has the GUID. -/
def GuidDb.mozbmMove (s : GuidDb) (id newParent : ℤ) (newPosition : Option ℤ)
    (newName : Option Bytes) : Except Errno GuidDb :=
  if ∃ b ∈ s.db.bookmarks, bound id = some b.id then do
    let position ← positionOr s.db newParent newPosition
    if ∃ b ∈ s.db.bookmarks, b.id ≠ id ∧ newName ≠ none ∧ s.guid b.id = newName then .error .exist
    else .ok { s with
      db := updateBookmarks s.db (·.id = id) fun b =>
        { b with parent := newParent, position := position }
      guid := Function.update s.guid id (newName <|> s.guid id) }
  else .ok s

/-- The entry that has the new name, if any, is deleted: its position, if it is replaced. -/
def GuidDb.replaceTarget (s : GuidDb) (oldMb : MozBookmark) (newParentId : ℤ) (newName : Bytes)
    (noreplace : Bool) : Except Errno (Option ℤ × GuidDb) :=
  match s.mozbmLookup newParentId newName true with
  -- move
  | .error .noent => .ok (none, s)
  | .error err => .error err
  -- replace
  | .ok newMb =>
    if noreplace then .error .exist
    else if (oldMb.placeId = 0) ≠ (newMb.placeId = 0) then
      .error (if oldMb.placeId = 0 then .notdir else .isdir)
    else do
      let db ← mozbmDelete s.db newMb (oldMb.placeId = 0) true
      .ok (bound newMb.position, { s with db := db })

/-- `bookmark_rename()` of bookmarks and tags -/
def GuidDb.bookmarkRename (oldParentId : ℤ) (oldName : CString) (newParentId : ℤ)
    (newName : CString) (type : BookmarkType) (noreplace : Bool) (s : GuidDb) :
    Except Errno Unit × GuidDb :=
  if type = .bookmark ∧ (oldParentId = ctx.rootId ∨ newParentId = ctx.rootId) then (.error .perm, s)
  else if oldName = newName ∧ oldParentId = newParentId then (.ok (), s)
  else GuidDb.transaction (fun s => do
    let oldMb ← s.mozbmLookup oldParentId oldName.val false
    let (newPos, s) ← s.replaceTarget oldMb newParentId newName.val noreplace
    let s ← (match s.mozbmMove oldMb.id newParentId newPos
        (if oldName = newName then none else some newName.val) with
      -- duplicate GUID
      | .error .exist => .error .perm
      | moved => moved : Except Errno GuidDb)
    let db := mozbmMtimeUpdate s.db oldParentId env.usecs
    let db := if oldParentId = newParentId then db else mozbmMtimeUpdate db newParentId env.usecs
    let db := if ctx.ctime then mozbmMtimeUpdate db oldMb.id env.usecs else db
    .ok ((), { s with db := db })) s

/-! ## Attributes -/

/-- The reply of a call that leaves the GUIDs, and the tables with what it leaves -/
def GuidDb.settle (s : GuidDb) (r : Except Errno Unit × Db) : Except Errno Unit × GuidDb :=
  (r.1, { s with db := r.2 })

/-- `bookmark_set()`; the GUID is no attribute. -/
def GuidDb.bookmarkSet (id : ℤ) (arg : SetArg) (s : GuidDb) : Except Errno Unit × GuidDb :=
  match arg with
  | .guid _ => (.error .noattr, s)
  | arg => s.settle (Firefox.bookmarkSet env ctx id arg s.db)

/-- `bookmark_set()` of the title -/
def GuidDb.titleSet (id : ℤ) (val : Bytes) (s : GuidDb) : Except Errno Unit × GuidDb :=
  if 0 ∈ val then (.error .inval, s)
  else
    s.settle (Firefox.transaction (fun db => do
      let (_, db) ← mozbmUpdate db id none none (if ctx.ctime then some env.usecs else none)
      .ok ((), updateBookmarks db (·.id = id) fun b => { b with title := some val })) s.db)

inductive GuidCall where
  | call (call : Call)
  | title (id : ℤ) (val : Bytes)

/-- The status of a call, and the tables afterwards; nothing as long as a creation goes on
trying. -/
def GuidCall.run (random : ℕ → Bytes) (fuel : ℕ) (s : GuidDb) :
    GuidCall → Option (Except Errno Unit × GuidDb)
  | .call (.create parentId name type isDir id) =>
    (s.bookmarkCreate env ctx true random fuel parentId name type isDir id).map
      fun (reply, s) => (reply.map fun _ => (), s)
  | .call (.delete parentId name type isDir) =>
    some (s.bookmarkDelete env ctx parentId name type isDir)
  | .call (.rename oldParentId oldName newParentId newName type noreplace) =>
    some (s.bookmarkRename env ctx oldParentId oldName newParentId newName type noreplace)
  | .call (.permute parentId op name1 name2 type) =>
    some (s.bookmarkPermute ctx parentId op name1 name2 type env.usecs)
  | .call (.set id arg) => some (s.bookmarkSet env ctx id arg)
  | .title id val => some (s.titleSet env ctx id val)

/-- As for titles as filenames -/
def GuidCall.Counting (s : GuidDb) : GuidCall → Prop
  | .call (.create parentId name .bookmark false _) => parentId ≠ ctx.rootId →
    s.bookmarkDoLookup ctx true parentId (some name.val) .bookmark true = .error .noent →
      s.db.UrlClean aboutBlank
  | .call (.delete _ name .keyword _) => ∃ k ∈ s.db.keywords, k.keyword = name.val
  | .call (.set id (.url val)) => parseMozurl val ≠ none →
    (∃ b ∈ s.db.bookmarks, b.id = id ∧ b.fk ≠ none) → s.db.UrlClean val
  | _ => True

end Calls

/-- The calls, successful or not, with the GUIDs that are drawn and the number of tries. -/
def guidCalls (ctx : Ctx) : System GuidDb ((Env × (ℕ → Bytes) × ℕ) × GuidCall) Unit where
  init s := s.db.Keyed ∧ s.db.Counted
  legal s request := request.2.Counting ctx s
  step s request :=
    match request.2.run request.1.1 ctx request.1.2.1 request.1.2.2 s with
    | none => .error ()
    | some r => .ok r.2

/-! ## What they do -/

section Cases

variable {s s' : GuidDb} {env : Env} {ctx : Ctx} {random : ℕ → Bytes} {fuel : ℕ} {byGuid : Bool}

theorem GuidDb.mozbmLookup_row {parent : ℤ} {name : Bytes} {validate : Bool} {mb : MozBookmark}
    (h : s.mozbmLookup parent name validate = .ok mb) : mb ∈ s.db.bookmarks := by
  rw [GuidDb.mozbmLookup] at h
  split at h
  · cases h
  split at h
  · cases h
  next hfound =>
    cases h
    exact List.mem_of_mem_filter (mem_byPosition.mp (List.mem_of_head? hfound))

theorem GuidDb.mozbmLookupId_refers {id : ℤ} {mb : MozBookmark}
    (h : s.mozbmLookupId true id = .ok mb) : s.db.references mb.placeId ≠ 0 := by
  have hview : Firefox.mozbmLookupId (s.db.byGuid s.guid) id = .ok (mb.byGuid s.guid) :=
    mozbmLookupId_byGuid.trans (by rw [h]; rfl)
  obtain ⟨hrow, -, hfk, -⟩ := mozbmLookupId_row hview
  obtain ⟨b, hb, hrow⟩ := List.mem_map.mp hrow
  exact references_ne_zero.mpr (.inl ⟨b, hb, (congrArg (·.fk) hrow).trans hfk⟩)

theorem GuidDb.transaction_keeps {α : Type} {op : GuidDb → Except Errno (α × GuidDb)}
    {P : GuidDb → Prop} (h : P s) (hop : ∀ {a s'}, op s = .ok (a, s') → P s') :
    P (GuidDb.transaction op s).2 := by
  rw [GuidDb.transaction]
  split
  next hrun => exact hop hrun
  · exact h

theorem GuidDb.bookmarkDoCreate_cases {parentId : ℤ} {name : Bytes} {isDir : Bool} {stat : Stat}
    (h : s.bookmarkDoCreate env ctx byGuid random fuel parentId name isDir =
      some (.ok (stat, s'))) :
    ∃ r db₁ id db₂, Firefox.createPlace s.db isDir = .ok (r, db₁) ∧
      Firefox.mozbmInsert db₁ parentId (some name) env.usecs r.1 = .ok (id, db₂) ∧
      s'.db = mozbmMtimeUpdate db₂ parentId env.usecs ∧ parentId ≠ ctx.rootId ∧
      s.bookmarkDoLookup ctx byGuid parentId (some name) .bookmark true = .error .noent := by
  rw [GuidDb.bookmarkDoCreate] at h
  split at h
  · cases h
  next hroot =>
  split at h
  · cases h
  next hlookup =>
    split at h
    · cases h
    · cases h
    next place s₁ n hplace =>
      obtain ⟨inserted, hinsert, h⟩ := Option.map_eq_some_iff.mp h
      cases inserted with
      | error err => cases h
      | ok r =>
        cases h
        exact ⟨place, s₁.db, r.1, r.2.db, createPlace_titles hplace, mozbmInsert_titles hinsert,
          rfl, hroot, hlookup⟩
  · cases h

theorem GuidDb.tagEntryAdd_cases {parentId id : ℤ} {name : Bytes} {stat : Stat}
    (h : s.tagEntryAdd env ctx byGuid random fuel parentId name id = some (.ok (stat, s'))) :
    ∃ mb entry db₁ db₂, s.mozbmLookupId byGuid id = .ok mb ∧
      Firefox.mozbmInsert s.db parentId none env.usecs mb.placeId = .ok (entry, db₁) ∧
      mozplaceAddrefId db₁ mb.placeId = .ok db₂ ∧
      s'.db = mozbmMtimeUpdate db₂ parentId env.usecs := by
  rw [GuidDb.tagEntryAdd] at h
  split at h
  · cases h
  next mb hlookup =>
  split at h
  · cases h
  split at h
  · cases h
  · obtain ⟨inserted, hinsert, h⟩ := Option.map_eq_some_iff.mp h
    cases inserted with
    | error err => cases h
    | ok r =>
      obtain ⟨_, hr, h⟩ := bind_eq_ok.mp h
      cases hr
      obtain ⟨stat', -, h⟩ := bind_eq_ok.mp h
      obtain ⟨db₂, haddref, h⟩ := bind_eq_ok.mp h
      cases h
      exact ⟨mb, r.1, r.2.db, db₂, hlookup, mozbmInsert_titles hinsert, haddref, rfl⟩
  · cases h

theorem GuidDb.keywordCreate_cases {keyword : Bytes} {id : ℤ} {stat : Stat}
    (h : s.keywordCreate ctx byGuid keyword id = .ok (stat, s')) :
    ∃ mb db₁, s.mozbmLookupId byGuid id = .ok mb ∧ mozkwInsert s.db keyword mb.placeId = .ok db₁ ∧
      mozplaceAddrefId db₁ mb.placeId = .ok s'.db := by
  rw [GuidDb.keywordCreate] at h
  obtain ⟨mb, hlookup, h⟩ := bind_eq_ok.mp h
  split at h
  · cases h
  obtain ⟨db₁, hinsert, h⟩ := bind_eq_ok.mp h
  obtain ⟨stat', -, h⟩ := bind_eq_ok.mp h
  obtain ⟨db₂, haddref, h⟩ := bind_eq_ok.mp h
  cases h
  exact ⟨mb, db₁, hlookup, hinsert, haddref⟩

theorem GuidDb.mozbmMove_alike {id newParent : ℤ} {newPos : Option ℤ} {newName : Option Bytes}
    (h : s.mozbmMove id newParent newPos newName = .ok s') : s.db.Alike s'.db := by
  rw [GuidDb.mozbmMove] at h
  split at h
  · obtain ⟨pos, -, h⟩ := bind_eq_ok.mp h
    split at h
    · cases h
    · cases h
      exact alike_update fun _ => ⟨rfl, rfl⟩
  · cases h
    exact ⟨rfl, rfl, rfl, fun _ => rfl, fun _ => rfl⟩

theorem byGuid_alike {db : Db} (guid : ℤ → Option Bytes) : db.Alike (db.byGuid guid) := by
  refine ⟨?_, rfl, rfl, fun _ => references_map rfl (fun _ => rfl) rfl, fun _ => rfl⟩
  rw [Db.byGuid, List.map_map]
  rfl

theorem Db.Alike.symm {db db' : Db} (h : db.Alike db') : db'.Alike db :=
  ⟨h.rows.symm, h.places.symm, h.keywords.symm, fun place => (h.references place).symm,
    fun place => (h.count place).symm⟩

end Cases

/-! ## Counts -/

section Counts

variable {s : GuidDb} {env : Env} {ctx : Ctx} (h : s.db.Counted) (hkeyed : s.db.Keyed)

include h hkeyed

theorem GuidDb.bookmarkCreate_keeps {random : ℕ → Bytes} {fuel : ℕ} {parentId id : ℤ}
    {name : CString} {type : BookmarkType} {isDir : Bool} {r : Except Errno Stat × GuidDb}
    (hcounting : (GuidCall.call (.create parentId name type isDir id)).Counting ctx s)
    (hrun : s.bookmarkCreate env ctx true random fuel parentId name type isDir id = some r) :
    s.db.Keeps r.2.db := by
  have hstamp : ∀ {db' : Db} (id now : ℤ), s.db.Keeps db' →
      s.db.Keeps (mozbmMtimeUpdate db' id now) :=
    fun _ _ hkeeps => hkeeps.alike (alike_update fun _ => ⟨rfl, rfl⟩)
  have hcreate : ∀ {stat s'}, (isDir = false → type = .bookmark) →
      s.bookmarkDoCreate env ctx true random fuel parentId name.val isDir = some (.ok (stat, s')) →
        s.db.Keeps s'.db := fun htype hdone => by
    obtain ⟨place, db₁, id, db₂, hplace, hinsert, hdb, hroot, hfree⟩ :=
      GuidDb.bookmarkDoCreate_cases hdone
    rw [hdb]
    refine hstamp _ _ (createRow_keeps h hkeyed (fun hfile => ?_) hplace hinsert)
    subst hfile
    obtain rfl := htype rfl
    exact hcounting hroot hfree
  unfold GuidDb.bookmarkCreate at hrun
  obtain ⟨done, hdone, rfl⟩ := Option.map_eq_some_iff.mp hrun
  cases done with
  | error err => exact .refl hkeyed h
  | ok r =>
  obtain ⟨stat, s'⟩ := r
  cases type with
  | bookmark => exact hcreate (fun _ => rfl) hdone
  | tag =>
    cases isDir with
    | true => exact hcreate (fun hdir => by cases hdir) hdone
    | false =>
      obtain ⟨mb, entry, db₁, db₂, hlookup, hinsert, haddref, hdb⟩ := GuidDb.tagEntryAdd_cases hdone
      show s.db.Keeps s'.db
      rw [hdb]
      exact hstamp _ _
        (tagRow_keeps h hkeyed (GuidDb.mozbmLookupId_refers hlookup) hinsert haddref)
  | keyword =>
    obtain ⟨mb, db₁, hlookup, hinsert, haddref⟩ :=
      GuidDb.keywordCreate_cases (Option.some.inj hdone)
    exact keywordRow_keeps h hkeyed (GuidDb.mozbmLookupId_refers hlookup) hinsert haddref

theorem GuidDb.bookmarkDelete_keeps {parentId : ℤ} {name : CString} {type : BookmarkType}
    {isDir : Bool} (hcounting : (GuidCall.call (.delete parentId name type isDir)).Counting ctx s) :
    s.db.Keeps (s.bookmarkDelete env ctx parentId name type isDir).2.db := by
  have hrow : ∀ {s'}, GuidDb.bookmarkDoDelete env ctx parentId name.val isDir s = .ok ((), s') →
      s.db.Keeps s'.db := fun hrun => by
    rw [GuidDb.bookmarkDoDelete] at hrun
    split at hrun
    · cases hrun
    obtain ⟨mb, hlookup, hrun⟩ := bind_eq_ok.mp hrun
    split at hrun
    · cases hrun
    next hkind =>
    obtain ⟨db₁, hdelete, hrun⟩ := bind_eq_ok.mp hrun
    cases hrun
    exact (mozbmDelete_keeps h hkeyed (GuidDb.mozbmLookup_row hlookup) (not_not.mp hkind)
      hdelete).alike (alike_update fun _ => ⟨rfl, rfl⟩)
  refine GuidDb.transaction_keeps (P := fun s' => s.db.Keeps s'.db) (.refl hkeyed h)
    fun {_ s'} hrun => ?_
  cases type with
  | bookmark => exact hrow hrun
  | tag =>
    cases isDir with
    | true => exact hrow hrun
    | false =>
      obtain ⟨stat, -, hrun⟩ := bind_eq_ok.mp hrun
      obtain ⟨mb, -, hrun⟩ := bind_eq_ok.mp hrun
      split at hrun
      · cases hrun
      next hplace =>
      obtain ⟨entry, hentry, hrun⟩ := bind_eq_ok.mp hrun
      obtain ⟨db₁, hdelete, hrun⟩ := bind_eq_ok.mp hrun
      cases hrun
      obtain ⟨hmem, -, hfk⟩ := tagEntryLookup_row hentry
      refine (mozbmDelete_keeps h hkeyed hmem ?_ hdelete).alike (alike_update fun _ => ⟨rfl, rfl⟩)
      rw [MozBookmark.placeId, hfk, Option.getD_some]
      exact propext ⟨fun hzero => absurd hzero hplace, fun hfalse => by cases hfalse⟩
  | keyword =>
    obtain ⟨db₁, hdelete, hrun⟩ := bind_eq_ok.mp hrun
    cases hrun
    exact mozkwDelete_keeps h hkeyed hcounting hdelete

theorem GuidDb.replaceTarget_keeps {oldMb : MozBookmark} {newParentId : ℤ} {newName : Bytes}
    {noreplace : Bool} {newPos : Option ℤ} {s₁ : GuidDb}
    (hrun : s.replaceTarget oldMb newParentId newName noreplace = .ok (newPos, s₁)) :
    s.db.Keeps s₁.db := by
  rw [GuidDb.replaceTarget] at hrun
  split at hrun
  · cases hrun
    exact .refl hkeyed h
  · cases hrun
  next newMb hlookup =>
    split at hrun
    · cases hrun
    split at hrun
    · cases hrun
    next hkind =>
    obtain ⟨db₁, hdelete, hrun⟩ := bind_eq_ok.mp hrun
    cases hrun
    refine mozbmDelete_keeps h hkeyed (GuidDb.mozbmLookup_row hlookup) ?_ hdelete
    rw [← not_not.mp hkind, decide_eq_true_eq]

theorem GuidDb.bookmarkRename_keeps (oldParentId newParentId : ℤ) (oldName newName : CString)
    (type : BookmarkType) (noreplace : Bool) :
    s.db.Keeps
      (s.bookmarkRename env ctx oldParentId oldName newParentId newName type noreplace).2.db := by
  have hstamp : ∀ {db' : Db} (id now : ℤ), s.db.Keeps db' →
      s.db.Keeps (mozbmMtimeUpdate db' id now) :=
    fun _ _ hkeeps => hkeeps.alike (alike_update fun _ => ⟨rfl, rfl⟩)
  rw [GuidDb.bookmarkRename]
  split
  · exact .refl hkeyed h
  split
  · exact .refl hkeyed h
  refine GuidDb.transaction_keeps (P := fun s' => s.db.Keeps s'.db) (.refl hkeyed h)
    fun {_ s'} hrun => ?_
  obtain ⟨oldMb, -, hrun⟩ := bind_eq_ok.mp hrun
  obtain ⟨⟨newPos, s₁⟩, hreplace, hrun⟩ := bind_eq_ok.mp hrun
  obtain ⟨s₂, hmove, hrun⟩ := bind_eq_ok.mp hrun
  have h₁ := GuidDb.replaceTarget_keeps h hkeyed hreplace
  have h₂ : s.db.Keeps s₂.db := by
    split at hmove
    · cases hmove
    · exact h₁.alike (GuidDb.mozbmMove_alike hmove)
  cases hrun
  have hparents : s.db.Keeps (if oldParentId = newParentId then
      mozbmMtimeUpdate s₂.db oldParentId env.usecs
      else mozbmMtimeUpdate (mozbmMtimeUpdate s₂.db oldParentId env.usecs) newParentId
        env.usecs) := by
    split
    · exact hstamp _ _ h₂
    · exact hstamp _ _ (hstamp _ _ h₂)
  dsimp only
  split
  · exact hstamp _ _ hparents
  · exact hparents

theorem GuidDb.bookmarkPermute_keeps (parentId : ℤ) (op : PermdOp) (name1 name2 : CString)
    (type : BookmarkType) :
    s.db.Keeps (s.bookmarkPermute ctx parentId op name1 name2 type env.usecs).2.db := by
  have halike : s.db.Alike (s.db.byGuid s.guid) := byGuid_alike s.guid
  have hview := (Call.permute parentId op name1 name2 type).run_counts (h.alike halike)
    (hkeyed.alike halike) env ctx trivial
  rw [Call.run, bookmarkPermute_byGuid] at hview
  exact (Db.Keeps.alike_left halike hview).alike (byGuid_alike s.guid).symm

theorem GuidDb.bookmarkSet_keeps (id : ℤ) (arg : SetArg)
    (hcounting : (GuidCall.call (.set id arg)).Counting ctx s) :
    s.db.Keeps (s.bookmarkSet env ctx id arg).2.db := by
  have hset : s.db.Keeps (Firefox.bookmarkSet env ctx id arg s.db).2 :=
    Firefox.bookmarkSet_keeps h hkeyed id arg fun val hval => by
      subst hval
      exact hcounting
  cases arg with
  | guid valid => exact .refl hkeyed h
  | _ => exact hset

theorem GuidDb.titleSet_keeps (id : ℤ) (val : Bytes) :
    s.db.Keeps (s.titleSet env ctx id val).2.db := by
  rw [GuidDb.titleSet]
  split
  · exact .refl hkeyed h
  refine Firefox.transaction_keeps (P := fun db => s.db.Keeps db) (.refl hkeyed h)
    fun {_ db'} hrun => ?_
  obtain ⟨⟨place, db₁⟩, hupdate, hrun⟩ := bind_eq_ok.mp hrun
  cases hrun
  exact ((Db.Keeps.refl hkeyed h).alike (mozbmUpdate_alike hupdate)).alike
    (alike_update fun _ => ⟨rfl, rfl⟩)

/-- What one call does to the counts. -/
theorem GuidCall.run_counts {random : ℕ → Bytes} {fuel : ℕ} (call : GuidCall)
    (hcounting : call.Counting ctx s) {r : Except Errno Unit × GuidDb}
    (hrun : call.run env ctx random fuel s = some r) : s.db.Keeps r.2.db := by
  cases call with
  | title id val =>
    obtain rfl := Option.some.inj hrun
    exact GuidDb.titleSet_keeps h hkeyed id val
  | call call =>
    cases call with
    | create parentId name type isDir id =>
      obtain ⟨r, hcreate, rfl⟩ := Option.map_eq_some_iff.mp hrun
      exact GuidDb.bookmarkCreate_keeps h hkeyed hcounting hcreate
    | delete parentId name type isDir =>
      obtain rfl := Option.some.inj hrun
      exact GuidDb.bookmarkDelete_keeps h hkeyed hcounting
    | rename oldParentId oldName newParentId newName type noreplace =>
      obtain rfl := Option.some.inj hrun
      exact GuidDb.bookmarkRename_keeps h hkeyed _ _ _ _ _ _
    | permute parentId op name1 name2 type =>
      obtain rfl := Option.some.inj hrun
      exact GuidDb.bookmarkPermute_keeps h hkeyed _ _ _ _ _
    | set id arg =>
      obtain rfl := Option.some.inj hrun
      exact GuidDb.bookmarkSet_keeps h hkeyed id arg hcounting

end Counts

/-! ## Failures -/

section Failures

variable {s s' : GuidDb} {env : Env} {ctx : Ctx} {random : ℕ → Bytes} {fuel : ℕ} {err : Errno}

theorem GuidDb.transaction_error {α : Type} {op : GuidDb → Except Errno (α × GuidDb)}
    (h : (GuidDb.transaction op s).1 = .error err) : (GuidDb.transaction op s).2 = s := by
  rw [GuidDb.transaction] at h ⊢
  split at h
  · cases h
  · rfl

theorem GuidDb.settle_error {r : Except Errno Unit × Db} (hr : r.1 = .error err → r.2 = s.db)
    (h : s.settle r = (.error err, s')) : s' = s := by
  obtain ⟨hstatus, rfl⟩ := Prod.mk.inj h
  rw [hr hstatus]

/-- A call that fails changes nothing. -/
theorem GuidCall.run_error (call : GuidCall)
    (h : call.run env ctx random fuel s = some (.error err, s')) : s' = s := by
  cases call with
  | title id val =>
    have hrun := Option.some.inj h
    rw [GuidDb.titleSet] at hrun
    split at hrun
    · exact (Prod.mk.inj hrun).2.symm
    · exact GuidDb.settle_error Firefox.transaction_error hrun
  | call call =>
    cases call with
    | create parentId name type isDir id =>
      obtain ⟨r, hcreate, hr⟩ := Option.map_eq_some_iff.mp h
      unfold GuidDb.bookmarkCreate at hcreate
      obtain ⟨done, -, rfl⟩ := Option.map_eq_some_iff.mp hcreate
      cases done with
      | ok r => cases (Prod.mk.inj hr).1
      | error err' => exact (Prod.mk.inj hr).2.symm
    | delete parentId name type isDir =>
      have hrun := Option.some.inj h
      have hsame := GuidDb.transaction_error (congrArg Prod.fst hrun)
      exact (congrArg Prod.snd hrun).symm.trans hsame
    | rename oldParentId oldName newParentId newName type noreplace =>
      have hrun := Option.some.inj h
      rw [GuidDb.bookmarkRename] at hrun
      split at hrun
      · exact (Prod.mk.inj hrun).2.symm
      split at hrun
      · exact (Prod.mk.inj hrun).2.symm
      · have hsame := GuidDb.transaction_error (congrArg Prod.fst hrun)
        exact (congrArg Prod.snd hrun).symm.trans hsame
    | permute parentId op name1 name2 type =>
      have hrun := Option.some.inj h
      simp only [GuidDb.bookmarkPermute] at hrun
      split at hrun
      · exact (Prod.mk.inj hrun).2.symm
      split at hrun
      · exact (Prod.mk.inj hrun).2.symm
      split at hrun
      · exact (Prod.mk.inj hrun).2.symm
      · have hsame := GuidDb.transaction_error (congrArg Prod.fst hrun)
        exact (congrArg Prod.snd hrun).symm.trans hsame
    | set id arg =>
      have hrun := Option.some.inj h
      cases arg with
      | guid valid => exact (Prod.mk.inj hrun).2.symm
      | _ => exact GuidDb.settle_error (Call.set id _).run_error hrun

theorem GuidCall.run_missing {parentId : ℤ} {name : CString} {type : BookmarkType} {isDir : Bool}
    (htype : type = .bookmark ∨ type = .tag ∧ isDir = true) (hroot : parentId ≠ ctx.rootId)
    (hmissing : s.lookupName true parentId name.val = none) :
    (GuidCall.call (.delete parentId name type isDir)).run env ctx random fuel s =
      some (.error .noent, s) := by
  have hrow : GuidDb.transaction (GuidDb.bookmarkDoDelete env ctx parentId name.val isDir) s =
      (.error .noent, s) := by
    rw [GuidDb.transaction, GuidDb.bookmarkDoDelete, if_neg hroot, GuidDb.mozbmLookup, hmissing]
    rfl
  obtain rfl | ⟨rfl, rfl⟩ := htype
  · exact congrArg some hrow
  · exact congrArg some hrow

end Failures

/-! ## Runs -/

theorem guidCalls_counted (ctx : Ctx) :
    (guidCalls ctx).Invariant fun s => s.db.Keyed ∧ s.db.Counted where
  init _ h := h
  step s request s' h hcounting hstep := by
    simp only [guidCalls] at hstep
    split at hstep
    · cases hstep
    next r hrun =>
      cases hstep
      have hkeeps := request.2.run_counts h.2 h.1 hcounting hrun
      exact ⟨hkeeps.keyed, hkeeps.counted⟩

/-- In every run with GUIDs as filenames, counts are right, a place is deleted when its last
reference is given up, and a call that fails changes nothing. -/
theorem guidCalls_keep {ctx : Ctx} {s : GuidDb} (hreach : (guidCalls ctx).Reachable s) :
    s.db.Counted ∧ ∀ (env : Env) (random : ℕ → Bytes) (fuel : ℕ) (call : GuidCall) reply s',
      call.Counting ctx s → call.run env ctx random fuel s = some (reply, s') →
        s.db.Keeps s'.db ∧ ∀ err, reply = .error err → s' = s := by
  obtain ⟨hkeyed, hcounted⟩ := hreach.holds (guidCalls_counted ctx)
  refine ⟨hcounted, fun env random fuel call reply s' hcounting hrun =>
    ⟨call.run_counts hcounted hkeyed hcounting hrun, fun err hreply => ?_⟩⟩
  subst hreply
  exact call.run_error hrun

end BookmarkFS.Firefox
