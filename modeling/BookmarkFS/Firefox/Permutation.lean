import BookmarkFS.Firefox.Operations
import BookmarkFS.Chromium.Ordering

/-! # Permuting a directory

`bookmark_permute()` of the backend for Firefox: two rows exchange their
positions, or one takes a position next to the other, and what lies between is
shifted by one.
-/
namespace BookmarkFS.Firefox
open Library Hopscotch
open Chromium (Errno nameMax validateFilename PermdOp reordered)

/-- `mozbm_pos_update()` -/
def mozbmPosUpdate (db : Db) (id newPos : ℤ) : Db :=
  updateBookmarks db (·.id = id) fun b => { b with position := newPos }

/-- `mozbm_pos_shift()`: the new position, and the database after the shift; `none` if there is
nothing to do. -/
def mozbmPosShift (db : Db) (parent posStart posEnd : ℤ) (op : PermdOp) :
    Except Errno (Option (ℤ × Db)) :=
  let shift (diff low high : ℤ) : Db :=
    updateBookmarks db (fun b => b.parent = parent && low ≤ b.position && b.position ≤ high)
      fun b => { b with position := b.position + (diff - 1) }
  if posStart = posEnd then .error .io
  else if posStart < posEnd then
    match op with
    | .moveBefore =>
      if posEnd - 1 = posStart then .ok none
      else .ok (some (posEnd - 1, shift 0 (posStart + 1) (posEnd - 1)))
    | .moveAfter => .ok (some (posEnd, shift 0 (posStart + 1) posEnd))
    | .swap => .error .inval
  else
    match op with
    | .moveAfter =>
      if posEnd + 1 = posStart then .ok none
      else .ok (some (posEnd + 1, shift 2 (posEnd + 1) (posStart - 1)))
    | .moveBefore => .ok (some (posEnd, shift 2 posEnd (posStart - 1)))
    | .swap => .error .inval

/-- `bookmark_permute()`. A rollback with the status 0 is a success that changes nothing. -/
def bookmarkPermute (ctx : Ctx) (parent : ℤ) (op : PermdOp) (name1 name2 : CString)
    (type : BookmarkType) (now : ℤ) (db : Db) : Except Errno Unit × Db :=
  if type = .keyword ∨ type = .tag ∧ parent ≠ ctx.tagsRootId then (.error .perm, db) else
  let name1 := name1.val.take (nameMax + 1)
  let name2 := name2.val.take (nameMax + 1)
  if validateFilename name1 ≠ none then (.error .inval, db)
  else if validateFilename name2 ≠ none then (.error .inval, db)
  else transaction (fun db => do
    let mb1 ← mozbmLookup db parent name1
    let mb2 ← mozbmLookup db parent name2
    if mb1.id = mb2.id then return ((), db)
    let shifted ← match op with
      | .swap => .ok (some (mb2.position, mozbmPosUpdate db mb2.id mb1.position))
      | _ => mozbmPosShift db parent mb1.position mb2.position op
    let some (newPos, shiftedDb) := shifted | return ((), db)
    .ok ((), mozbmMtimeUpdate (mozbmPosUpdate shiftedDb mb1.id newPos) parent now)) db

def Db.order (db : Db) (parent : ℤ) : List ℤ := (db.children parent).map (·.id)

/-- A row that is listed under the name `name`, and found under it. -/
structure Db.Visible (db : Db) (ctx : Ctx) (parent : ℤ) (name : Bytes)
    (b : MozBookmark) : Prop where
  row : b ∈ db.bookmarks
  id : isValidId b.id = true
  inParent : b.parent = parent
  title : b.title = some name
  valid : validateFilename name = none
  nonneg : 0 ≤ b.position
  first : ∀ c ∈ db.bookmarks, c.parent = parent → c.title = some name → b.position ≤ c.position
  not_tags : b.id ≠ ctx.tagsRootId

section Lookup

variable {ctx : Ctx} {db : Db} {parent : ℤ} {name : Bytes} {b : MozBookmark}

theorem mozbmLookup_child (h : mozbmLookup db parent name = .ok b) : b ∈ db.children parent := by
  rw [mozbmLookup] at h
  cases hfound : db.lookupTitle parent name with
  | none => rw [hfound] at h; cases h
  | some c =>
    rw [hfound] at h
    cases h
    exact (of_lookupTitle hfound).2.1

theorem mozbmLookup_parent (h : mozbmLookup db parent name = .ok b) : 0 ≤ parent := by
  rw [mozbmLookup] at h
  cases hfound : db.lookupTitle parent name with
  | none => rw [hfound] at h; cases h
  | some c => exact (of_lookupTitle hfound).1

theorem mozbmLookup_visible (hparent : 0 ≤ parent) (hkeys : db.KeysUnique)
    (hdistinct : db.PositionsDistinct parent) (h : db.Visible ctx parent name b) :
    mozbmLookup db parent name = .ok b := by
  rw [mozbmLookup, lookupTitle_first hparent hkeys hdistinct (mem_children.mpr ⟨h.row, h.inParent⟩)
    h.title
    fun c hc => h.first c (mem_children.mp hc).1 (mem_children.mp hc).2]

end Lookup

section Order

variable {db db' : Db} {parent : ℤ} {a b : MozBookmark} {g : MozBookmark → MozBookmark}
  {l' : List MozBookmark}

theorem children_of_sorted (hrows : db'.bookmarks = db.bookmarks.map g)
    (hparent : ∀ b, (g b).parent = b.parent) (hperm : l'.Perm (db.children parent))
    (hsorted : l'.Pairwise fun b c => (g b).position < (g c).position) :
    db'.children parent = l'.map g := by
  refine byPosition_eq ?_ (List.pairwise_map.mpr hsorted)
  rw [hrows, List.filter_map]
  refine (hperm.trans (byPosition_perm _)).map g |>.trans ?_
  have : ((fun b : MozBookmark => decide (b.parent = parent)) ∘ g) = fun b =>
    decide (b.parent = parent) := by
    funext b
    rw [Function.comp_apply, hparent]
  rw [this]

/-- The rows of a folder get the positions `q`, in place. -/
def Db.Moves (db db' : Db) (parent : ℤ) (q : MozBookmark → ℤ) : Prop :=
  ∃ g : MozBookmark → MozBookmark, db'.bookmarks = db.bookmarks.map g ∧
    (∀ b, (g b).id = b.id ∧ (g b).parent = b.parent) ∧
    ∀ b ∈ db.bookmarks, (g b).position = if b.parent = parent then q b else b.position

theorem Db.Moves.order {q : MozBookmark → ℤ} (h : db.Moves db' parent q)
    (hperm : l'.Perm (db.children parent)) (hsorted : l'.Pairwise fun b c => q b < q c) :
    db'.order parent = l'.map (·.id) ∧ db'.PositionsDistinct parent := by
  obtain ⟨g, hrows, hkeep, hpos⟩ := h
  have hchild : ∀ b ∈ l', (g b).position = q b := fun b hb => by
    obtain ⟨hrow, hparent⟩ := mem_children.mp (hperm.mem_iff.mp hb)
    rw [hpos b hrow, if_pos hparent]
  have hsorted' : l'.Pairwise fun b c => (g b).position < (g c).position := by
    refine hsorted.imp_of_mem fun hb hc hbc => ?_
    rwa [hchild _ hb, hchild _ hc]
  have hchildren := children_of_sorted hrows (fun b => (hkeep b).2) hperm hsorted'
  refine ⟨?_, positionsDistinct_of_sorted ?_⟩
  · rw [Db.order, hchildren, List.map_map]
    exact List.map_congr_left fun b _ => (hkeep b).1
  · rw [hchildren]
    exact List.pairwise_map.mpr hsorted'

theorem Db.Moves.mtime {q : MozBookmark → ℤ} (h : db.Moves db' parent q) (id now : ℤ) :
    db.Moves (mozbmMtimeUpdate db' id now) parent q := by
  obtain ⟨g, hrows, hkeep, hpos⟩ := h
  let stamp (b : MozBookmark) : MozBookmark :=
    if b.id = id then { b with lastModified := now } else b
  have hstamp : ∀ b, (stamp b).id = b.id ∧ (stamp b).parent = b.parent ∧
      (stamp b).position = b.position := fun b => by
    simp only [stamp]; split <;> exact ⟨rfl, rfl, rfl⟩
  refine ⟨stamp ∘ g, ?_, fun b => ⟨(hstamp _).1.trans (hkeep b).1,
    (hstamp _).2.1.trans (hkeep b).2⟩,
    fun b hb => (hstamp _).2.2.trans (hpos b hb)⟩
  simp only [mozbmMtimeUpdate, updateBookmarks, hrows, List.map_map, decide_eq_true_eq]
  rfl

variable (hkeys : db.KeysUnique)

include hkeys

theorem order_nodup : (db.order parent).Nodup := by
  refine ((byPosition_perm _).map _).nodup_iff.mpr ?_
  exact hkeys.sublist (List.filter_sublist.map _)

/-- Moving a row to a position from which the rows in between have been shifted away. -/
theorem shift_moves (hdistinct : db.PositionsDistinct parent) (ha : a ∈ db.children parent)
    {newPos low high d : ℤ} :
    db.Moves (mozbmPosUpdate (updateBookmarks db
      (fun b => b.parent = parent && low ≤ b.position && b.position ≤ high)
      fun b => { b with position := b.position + d }) a.id newPos) parent
      (shifted (·.position) a newPos low high d) := by
  let shift (b : MozBookmark) : MozBookmark :=
    if b.parent = parent && low ≤ b.position && b.position ≤ high then
      { b with position := b.position + d } else b
  let move (b : MozBookmark) : MozBookmark :=
    if b.id = a.id then { b with position := newPos } else b
  have hshift : ∀ b, (shift b).id = b.id ∧ (shift b).parent = b.parent := fun b => by
    simp only [shift]; split <;> exact ⟨rfl, rfl⟩
  have hmove : ∀ b, (move b).id = b.id ∧ (move b).parent = b.parent := fun b => by
    simp only [move]; split <;> exact ⟨rfl, rfl⟩
  refine ⟨move ∘ shift, ?_, fun b => ⟨(hmove _).1.trans (hshift b).1,
    (hmove _).2.trans (hshift b).2⟩,
    fun b hb => ?_⟩
  · simp only [mozbmPosUpdate, updateBookmarks, List.map_map]
    simp only [decide_eq_true_eq]
    rfl
  simp only [Function.comp_apply, move, (hshift b).1]
  by_cases hparent : b.parent = parent
  · have hiff := id_iff_position hkeys hdistinct (mem_children.mpr ⟨hb, hparent⟩) ha
    simp only [if_pos hparent, shifted, ← hiff]
    by_cases hid : b.id = a.id
    · rw [if_pos hid, if_pos hid]
    · rw [if_neg hid, if_neg hid]
      simp only [shift, hparent, Bool.and_eq_true, decide_eq_true_eq, true_and]
      by_cases hin : low ≤ b.position ∧ b.position ≤ high
      · rw [if_pos hin, if_pos hin]
      · rw [if_neg hin, if_neg hin]
  · have hid : b.id ≠ a.id := fun hid =>
      hparent (hkeys.eq_of_id hb (mem_children.mp ha).1 hid ▸ (mem_children.mp ha).2)
    rw [if_neg hid, if_neg hparent]
    simp only [shift, hparent, decide_false, Bool.false_and, Bool.false_eq_true, if_false]

theorem shift_order (hdistinct : db.PositionsDistinct parent) (ha : a ∈ db.children parent)
    {newPos low high d now : ℤ} (hperm : l'.Perm (db.children parent))
    (hsorted : l'.Pairwise fun b c => shifted (·.position) a newPos low high d b <
      shifted (·.position) a newPos low high d c)
    (hdb : db' = mozbmMtimeUpdate (mozbmPosUpdate (updateBookmarks db
      (fun b => b.parent = parent && low ≤ b.position && b.position ≤ high)
      fun b => { b with position := b.position + d }) a.id newPos) parent now) :
    db'.order parent = l'.map (·.id) ∧ db'.PositionsDistinct parent :=
  hdb ▸ ((shift_moves hkeys hdistinct ha).mtime parent now).order hperm hsorted

/-- The position of a row where two rows exchange their positions. -/
def exchanged (a b c : MozBookmark) : ℤ :=
  if c.position = a.position then b.position
  else if c.position = b.position then a.position else c.position

/-- Two rows that exchange their positions. -/
theorem swap_moves (hdistinct : db.PositionsDistinct parent) (ha : a ∈ db.children parent)
    (hb : b ∈ db.children parent) (hab : a.id ≠ b.id) :
    db.Moves (mozbmPosUpdate (mozbmPosUpdate db b.id a.position) a.id b.position) parent
      (exchanged a b) := by
  let move (b : MozBookmark) (n : ℤ) (c : MozBookmark) : MozBookmark :=
    if c.id = b.id then { c with position := n } else c
  have hmove : ∀ b n c, (move b n c).id = c.id ∧ (move b n c).parent = c.parent := fun b n c => by
    simp only [move]; split <;> exact ⟨rfl, rfl⟩
  refine ⟨move a b.position ∘ move b a.position,
    ?_, fun c => ⟨(hmove _ _ _).1.trans (hmove _ _ c).1,
    (hmove _ _ _).2.trans (hmove _ _ c).2⟩, fun c hc => ?_⟩
  · simp only [mozbmPosUpdate, updateBookmarks, List.map_map]
    simp only [decide_eq_true_eq]
    rfl
  by_cases hparent : c.parent = parent
  · have hiffa := id_iff_position hkeys hdistinct (mem_children.mpr ⟨hc, hparent⟩) ha
    have hiffb := id_iff_position hkeys hdistinct (mem_children.mpr ⟨hc, hparent⟩) hb
    simp only [Function.comp_apply, if_pos hparent, exchanged, ← hiffa, ← hiffb]
    simp only [move]
    grind
  · have houtside : ∀ d ∈ db.children parent, c.id ≠ d.id := fun d hd hid =>
      hparent (hkeys.eq_of_id hc (mem_children.mp hd).1 hid ▸ (mem_children.mp hd).2)
    simp only [Function.comp_apply, if_neg hparent, move, if_neg (houtside b hb),
      if_neg (houtside a ha)]

theorem swap_order (hdistinct : db.PositionsDistinct parent) (ha : a ∈ db.children parent)
    (hb : b ∈ db.children parent) (hab : a.id ≠ b.id) {now : ℤ}
    (hperm : l'.Perm (db.children parent))
    (hsorted : l'.Pairwise fun c d => exchanged a b c < exchanged a b d)
    (hdb : db' = mozbmMtimeUpdate
      (mozbmPosUpdate (mozbmPosUpdate db b.id a.position) a.id b.position)
      parent now) :
    db'.order parent = l'.map (·.id) ∧ db'.PositionsDistinct parent :=
  hdb ▸ ((swap_moves hkeys hdistinct ha hb hab).mtime parent now).order hperm hsorted

theorem order_cut {l₁ l₂ l₃ : List MozBookmark}
    (h : db.children parent = l₁ ++ a :: (l₂ ++ b :: l₃)) :
    db.order parent = l₁.map (·.id) ++ a.id :: (l₂.map (·.id) ++ b.id :: l₃.map (·.id)) ∧
      (l₁.map (·.id) ++ a.id :: (l₂.map (·.id) ++ b.id :: l₃.map (·.id))).Nodup := by
  have horder : db.order parent = l₁.map (·.id) ++
    a.id :: (l₂.map (·.id) ++ b.id :: l₃.map (·.id)) := by
    rw [Db.order, h]
    simp only [List.map_append, List.map_cons]
  exact ⟨horder, horder ▸ order_nodup hkeys⟩

theorem nil_of_adjacent (hdistinct : db.PositionsDistinct parent) {l₁ l₂ l₃ : List MozBookmark}
    (h : db.children parent = l₁ ++ a :: (l₂ ++ b :: l₃)) (hnext : b.position ≤ a.position + 1) :
    l₂ = [] := by
  have hsorted := children_sorted hkeys hdistinct
  rw [h] at hsorted
  obtain ⟨-, -, hmid, -⟩ := keys_cut MozBookmark.position hsorted
  refine List.eq_nil_iff_forall_not_mem.mpr fun c hc => ?_
  have := hmid c hc
  omega

end Order

theorem take_of_valid {name : CString} (h : validateFilename name.val = none) :
    name.val.take (nameMax + 1) = name.val := by
  refine List.take_of_length_le ?_
  simp only [validateFilename] at h
  split_ifs at h
  omega

/-- A permutation that succeeds makes the reference order of the old one. -/
theorem bookmarkPermute_reorders {ctx : Ctx} {db db' : Db} {parent now : ℤ} {type : BookmarkType}
    {op : PermdOp} {name1 name2 : CString} {a b : MozBookmark} (hkeys : db.KeysUnique)
    (hdistinct : db.PositionsDistinct parent) (ha : db.Visible ctx parent name1.val a)
    (hb : db.Visible ctx parent name2.val b) (hab : a.id ≠ b.id)
    (hrun : bookmarkPermute ctx parent op name1 name2 type now db = (.ok (), db')) :
    db'.order parent = reordered op a.id b.id (db.order parent) ∧ db'.PositionsDistinct parent := by
  have hamem := mem_children.mpr ⟨ha.row, ha.inParent⟩
  have hbmem := mem_children.mpr ⟨hb.row, hb.inParent⟩
  have hsorted := children_sorted hkeys hdistinct
  rw [bookmarkPermute] at hrun
  by_cases htype : type = .keyword ∨ type = .tag ∧ parent ≠ ctx.tagsRootId
  · rw [if_pos htype] at hrun; cases hrun
  simp only [if_neg htype, take_of_valid ha.valid, take_of_valid hb.valid, ha.valid, hb.valid,
    ne_eq, not_true, if_false] at hrun
  have hparent : 0 ≤ parent := by
    cases hlookup : mozbmLookup db parent name1.val with
    | ok mb => exact mozbmLookup_parent hlookup
    | error err => simp only [transaction, hlookup, error_bind] at hrun; cases hrun
  simp only [transaction, mozbmLookup_visible hparent hkeys hdistinct ha,
    mozbmLookup_visible hparent hkeys hdistinct hb, ok_bind, if_neg hab] at hrun
  obtain ⟨l₁, l₂, l₃, hcut | hcut⟩ := exists_cut hamem hbmem (fun h => hab (congrArg (·.id) h))
  · obtain ⟨horder, hnodup⟩ := order_cut hkeys hcut
    rw [hcut] at hsorted
    obtain ⟨-, hlt, -⟩ := keys_cut MozBookmark.position hsorted
    rw [horder]
    have hne := hlt.ne
    cases op with
    | swap =>
      have hdb := (Prod.mk.inj hrun).2.symm
      rw [reordered, exchange_cut hnodup]
      have := swap_order hkeys hdistinct hamem hbmem hab (hcut ▸ exchange_cut_perm)
        (sorted_exchange hsorted fun _ => rfl) hdb
      simpa only [List.map_append, List.map_cons] using this
    | moveBefore =>
      simp only [mozbmPosShift, if_neg hne, if_pos hlt] at hrun
      rw [reordered, putBefore, putAt_cut hnodup]
      by_cases hnext : b.position - 1 = a.position
      · simp only [if_pos hnext] at hrun
        obtain rfl := (Prod.mk.inj hrun).2
        obtain rfl := nil_of_adjacent hkeys hdistinct hcut (by omega)
        exact ⟨horder, hdistinct⟩
      · simp only [if_neg hnext] at hrun
        have hdb := (Prod.mk.inj hrun).2.symm
        have := shift_order hkeys hdistinct hamem (hcut ▸ behind_cut_perm (List.Perm.refl _))
          (sorted_forward_before hsorted fun _ => rfl) hdb
        simpa only [List.map_append, List.map_cons, List.cons_append, List.nil_append] using this
    | moveAfter =>
      simp only [mozbmPosShift, if_neg hne, if_pos hlt] at hrun
      have hdb := (Prod.mk.inj hrun).2.symm
      rw [reordered, putAfter, putAt_cut hnodup]
      have := shift_order hkeys hdistinct hamem (hcut ▸ behind_cut_perm (List.Perm.swap _ _ _))
        (sorted_forward_after hsorted fun _ => rfl) hdb
      simpa only [List.map_append, List.map_cons, List.cons_append, List.nil_append] using this
  · obtain ⟨horder, hnodup⟩ := order_cut hkeys hcut
    rw [hcut] at hsorted
    obtain ⟨-, hlt, -⟩ := keys_cut MozBookmark.position hsorted
    rw [horder]
    have hne := hlt.ne'
    cases op with
    | swap =>
      have hdb := (Prod.mk.inj hrun).2.symm
      rw [reordered, exchange_cut' hnodup]
      have := swap_order hkeys hdistinct hamem hbmem hab (hcut ▸ exchange_cut_perm)
        (sorted_exchange hsorted fun c => by grind [exchanged]) hdb
      simpa only [List.map_append, List.map_cons] using this
    | moveAfter =>
      simp only [mozbmPosShift, if_neg hne, if_neg hlt.asymm] at hrun
      rw [reordered, putAfter, putAt_cut' hnodup]
      by_cases hnext : b.position + 1 = a.position
      · simp only [if_pos hnext] at hrun
        obtain rfl := (Prod.mk.inj hrun).2
        obtain rfl := nil_of_adjacent hkeys hdistinct hcut (by omega)
        exact ⟨horder, hdistinct⟩
      · simp only [if_neg hnext] at hrun
        have hdb := (Prod.mk.inj hrun).2.symm
        have := shift_order hkeys hdistinct hamem (hcut ▸ front_cut_perm (List.Perm.refl _))
          (sorted_backward_after hsorted fun _ => rfl) hdb
        simpa only [List.map_append, List.map_cons, List.cons_append, List.nil_append] using this
    | moveBefore =>
      simp only [mozbmPosShift, if_neg hne, if_neg hlt.asymm] at hrun
      have hdb := (Prod.mk.inj hrun).2.symm
      rw [reordered, putBefore, putAt_cut' hnodup]
      have := shift_order hkeys hdistinct hamem (hcut ▸ front_cut_perm (List.Perm.swap _ _ _))
        (sorted_backward_before hsorted fun _ => rfl) hdb
      simpa only [List.map_append, List.map_cons, List.cons_append, List.nil_append] using this

/-! ## Both backends -/

section Both

open Chromium (lookupId lookupName storeLoad EntryRef)

/-- A permutation that succeeds makes the reference order: in the backend for Chromium for every
store, and in every state that its calls reach, and in the one for Firefox, where positions stay
distinct. -/
theorem permutations_make_reference_order {w : WordSize} (digest : Bytes → Word w) :
    (∀ (tb : Chromium.Tables w) (ctx ctx₁ ctx' : Chromium.Ctx w) (env : Chromium.Env) (parentId : ℕ)
        (p e1 e2 : EntryRef) (a : Chromium.ArrayRef) (op : PermdOp) (name1 name2 : CString)
        (lctx1 lctx2 : Chromium.LookupCtx w),
      storeLoad tb ctx env = .ok (none, ctx₁) → lookupId tb ctx₁ parentId = .ok (some p) →
      (ctx₁.ents p).children = some (.array a) → (ctx₁.json.array a).Nodup →
      lookupName tb ctx₁ parentId name1 = .ok (true, lctx1, some e1) →
      lookupName tb ctx₁ parentId name2 = .ok (true, lctx2, some e2) →
      (ctx₁.ents e1).node ≠ (ctx₁.ents e2).node →
      Chromium.bookmarkPermute tb ctx env parentId op name1 name2 = .ok (.ok (), ctx') →
      ctx'.json.array a = reordered op (ctx₁.ents e1).node (ctx₁.ents e2).node (ctx₁.json.array a) ∧
        ∀ b, b ≠ a → ctx'.json.array b = ctx₁.json.array b) ∧
    (∀ (ctx ctx' : Chromium.Ctx w) (env : Chromium.Env) (p e1 e2 : EntryRef)
        (a : Chromium.ArrayRef) (op : PermdOp) (name1 name2 : CString),
      (Chromium.backend (.real digest)).Reachable ctx → env.WellFormed →
      storeLoad (.real digest) ctx env = .ok (none, ctx) →
      ctx.idMap.Contains p → (ctx.ents p).children = some (.array a) →
      ctx.Visible (ctx.ents p).id name1 e1 → ctx.Visible (ctx.ents p).id name2 e2 → e1 ≠ e2 →
      Chromium.bookmarkPermute (.real digest) ctx env (ctx.ents p).id op name1 name2 =
        .ok (.ok (), ctx') →
      ctx'.json.array a = reordered op (ctx.ents e1).node (ctx.ents e2).node (ctx.json.array a) ∧
        ∀ b, b ≠ a → ctx'.json.array b = ctx.json.array b) ∧
    (∀ (ctx : Ctx) (db db' : Db) (parent now : ℤ) (type : BookmarkType) (op : PermdOp)
        (name1 name2 : CString) (a b : MozBookmark),
      db.KeysUnique → db.PositionsDistinct parent →
      db.Visible ctx parent name1.val a → db.Visible ctx parent name2.val b → a.id ≠ b.id →
      bookmarkPermute ctx parent op name1 name2 type now db = (.ok (), db') →
      db'.order parent = reordered op a.id b.id (db.order parent) ∧ db'.PositionsDistinct parent) :=
  ⟨fun _ _ _ _ _ _ _ _ _ _ _ _ _ _ _ hload hp ha hnodup he1 he2 hne hrun =>
      Chromium.bookmarkPermute_found hload hp ha hnodup he1 he2 hne hrun,
    fun _ _ _ _ _ _ _ _ _ _ hreach henv hload hp ha he1 he2 hne hrun =>
      Chromium.bookmarkPermute_reorders hreach henv hload hp ha he1 he2 hne hrun,
    fun _ _ _ _ _ _ _ _ _ _ _ hkeys hdistinct ha hb hab hrun =>
      bookmarkPermute_reorders hkeys hdistinct ha hb hab hrun⟩

/-- A folder with a separator and a gap between two bookmarks. -/
def gapped : Db where
  bookmarks := [⟨2, 1, some 1, 1, 5, some [97], 0, 0⟩, ⟨3, 3, none, 1, 7, none, 0, 0⟩,
    ⟨4, 1, some 1, 1, 9, some [98], 0, 0⟩]
  places := [⟨1, [], none, none, 2, 0, 1⟩]
  keywords := []
  keywordSeq := 0
  origins := []

/-- In each backend, a bookmark is moved behind another. -/
theorem permutations_make_reference_order_moved :
    (∃ ctx ctx' : Chromium.Ctx .w64, (Chromium.backend Chromium.colliding).Reachable ctx ∧
      Chromium.bookmarkPermute Chromium.colliding ctx Chromium.twoFolders 1 .moveAfter
      Chromium.nameA
        Chromium.nameB = .ok (.ok (), ctx') ∧ ctx'.json.array 0 = [3, 2]) ∧
    ∃ db', bookmarkPermute ⟨1, 0, false, true⟩ 1 .moveAfter Chromium.nameA
    Chromium.nameB .bookmark 6
      gapped = (.ok (), db') ∧ db'.order 1 = [3, 4, 2] := by
  obtain ⟨-, hchromium, hfirefox⟩ :=
    permutations_make_reference_order (w := .w64) fun _ => 0
  constructor
  · have h : Yields (fun _ => False) ((Chromium.Call.lookup Chromium.rootId none).run
        Chromium.colliding (.created ⟨false, false, false⟩) Chromium.twoFolders) fun ctx =>
          ctx.watching = true ∧ ctx.loaded = true ∧ (1 ∈ ctx.idMap.visited ∧ (ctx.ents 1).id = 1 ∧
            (ctx.ents 1).children = some (.array 0)) ∧
          (2 ∈ ctx.idMap.visited ∧ (ctx.ents 2).parentId = 1 ∧ (ctx.ents 2).name = some [97] ∧
            (ctx.ents 2).node = 2) ∧
          (3 ∈ ctx.idMap.visited ∧ (ctx.ents 3).parentId = 1 ∧ (ctx.ents 3).name = some [98] ∧
            (ctx.ents 3).node = 3) ∧ ctx.json.array 0 = [2, 3] ∧
          Yields (fun _ => False) (Chromium.bookmarkPermute Chromium.colliding ctx
            Chromium.twoFolders 1 .moveAfter Chromium.nameA Chromium.nameB) fun r =>
              r.1 = .ok () := by
      decide +kernel
    obtain ⟨ctx, hload, hwatching, hloaded, ⟨h1, hid, ha⟩, ⟨h2, hp2, hname2, hn2⟩,
      ⟨h3, hp3, hname3, hn3⟩, harray, hpermute⟩ := h.exists_ok
    obtain ⟨⟨_, ctx'⟩, hrun, rfl⟩ := hpermute.exists_ok
    have hwf : Chromium.twoFolders.WellFormed := Chromium.Env.written_wellFormed (by decide +kernel)
    have hreach := Chromium.reachable_created hwf hload
    have hmem : ∀ e, e ∈ ctx.idMap.visited → ctx.idMap.Contains e :=
      fun e => (Hashmap.mem_visited_iff _ e).mp
    have := (hchromium ctx ctx' Chromium.twoFolders 1 2 3 0 .moveAfter Chromium.nameA Chromium.nameB
      hreach hwf (Chromium.storeLoad_loaded hwatching hloaded rfl) (hmem 1 h1) ha
      ⟨hmem 2 h2, by decide, hp2.trans hid.symm, hname2⟩
      ⟨hmem 3 h3, by decide, hp3.trans hid.symm, hname3⟩ (by decide) (hid.symm ▸ hrun)).1
    rw [hn2, hn3, harray] at this
    exact ⟨ctx, ctx', hreach, hrun, this.trans (by decide)⟩
  · have hrun : (bookmarkPermute ⟨1, 0, false, true⟩ 1 .moveAfter Chromium.nameA Chromium.nameB
        .bookmark 6 gapped).1 = .ok () := by decide
    obtain ⟨db', hdb⟩ : ∃ db', bookmarkPermute ⟨1, 0, false, true⟩ 1 .moveAfter Chromium.nameA
        Chromium.nameB .bookmark 6 gapped = (.ok (), db') := ⟨_, Prod.ext hrun rfl⟩
    refine ⟨db', hdb, ?_⟩
    rw [(hfirefox _ gapped db' 1 6 .bookmark .moveAfter _ _ ⟨2, 1, some 1, 1, 5, some [97], 0, 0⟩
      ⟨4, 1, some 1, 1, 9, some [98], 0, 0⟩ (by unfold Db.KeysUnique; decide)
      (by unfold Db.PositionsDistinct; decide)
      ⟨by decide, by decide, rfl, rfl, by decide, by decide, by decide, by decide⟩
      ⟨by decide, by decide, rfl, rfl, by decide, by decide, by decide, by decide⟩
        (by decide) hdb).1]
    decide

end Both

end BookmarkFS.Firefox
