import BookmarkFS.Firefox.Counts
import BookmarkFS.Firefox.Pages

/-! # Tags and keywords, listed and looked up

The directories of tags and of keywords are listed by statements of their own,
and looked up by others. What is listed of a tag is the row that tags a bookmark,
and what is found is the bookmark; of the keywords of a place, one is listed.
-/
namespace BookmarkFS.Firefox
open Library
open Chromium (Errno PermdOp validateFilename)

def Db.listing (db : Db) (ctx : Ctx) (id : ℤ) (type : BookmarkType) (withStat : Bool) :
    List Dirent :=
  (bookmarkList db ctx id 0 type withStat (some fun _ _ => 0) none).1.2

/-- What is listed is what is found, and each entry is listed once. -/
structure Db.Agrees (db : Db) (ctx : Ctx) (id : ℤ) (type : BookmarkType)
    (withStat : Bool) : Prop where
  once : ((db.listing ctx id type withStat).map fun x => (x.name, x.id)).Nodup
  same : ∀ (name : Bytes) (i : ℤ), (∃ x ∈ db.listing ctx id type withStat, x.name = name ∧
    x.id = i) ↔
    ∃ cname : CString, cname.val = name ∧
      ∃ stat, bookmarkLookup db ctx id (some cname) type = .ok stat ∧ stat.id = i

def Db.TagDir (db : Db) (ctx : Ctx) (tag : ℤ) : Prop :=
  tag ≠ ctx.tagsRootId ∧ ∃ t ∈ db.bookmarks, t.parent = ctx.tagsRootId ∧ t.id = tag

/-- No bookmark is tagged, and no place has two keywords, all of which are names of files. -/
structure Db.Plain (db : Db) (ctx : Ctx) : Prop where
  untagged : ∀ b ∈ db.bookmarks, db.TagDir ctx b.parent → b.fk = none
  ids : ∀ b ∈ db.bookmarks, isValidId b.id = true
  places : (db.keywords.map (·.placeId)).Nodup
  keys : (db.keywords.map (·.id)).Nodup
  nonneg : ∀ k ∈ db.keywords, 0 ≤ k.id
  names : ∀ k ∈ db.keywords, validateFilename k.keyword = none ∧ (0 : UInt8) ∉ k.keyword

variable {db db' : Db} {env : Env} {ctx : Ctx}

/-! ## Tags -/

/-- A directory whose rows have no place shows nothing, and nothing is found in it. -/
theorem agrees_of_untagged {tag : ℤ} (htag : tag ≠ ctx.tagsRootId)
    (hnone : ∀ b ∈ db.bookmarks, b.parent = tag → b.fk = none) (withStat : Bool) :
    db.Agrees ctx tag .tag withStat := by
  have hquery : ∀ (rows : List ListRow) (q : ListState), (∀ row ∈ rows, row.name = none) →
      (dbQuery (bookmarkListCb ctx false fun _ _ => 0) rows q).accepted = q.accepted := by
    intro rows
    induction rows with
    | nil => exact fun _ _ => rfl
    | cons row rows ih =>
      intro q hrows
      have hrow := hrows row List.mem_cons_self
      rw [dbQuery]
      have hcb : (bookmarkListCb ctx false (fun _ _ => 0) q row).2.accepted = q.accepted := by
        rw [bookmarkListCb, hrow]
        split
        · rfl
        split
        · rfl
        split
        · rfl
        · rfl
      split
      · exact hcb
      · exact (ih _ fun r hr => hrows r (List.mem_cons_of_mem row hr)).trans hcb
  have hempty : db.listing ctx tag .tag withStat = [] := by
    refine hquery _ _ fun row hrow => ?_
    simp only [listRows, if_neg htag] at hrow
    obtain ⟨b, hb, rfl⟩ := List.mem_map.mp hrow
    obtain ⟨hrow, hparent⟩ := mem_children.mp (List.mem_filter.mp hb).1
    simp [Db.listRow, Db.titleByFk, hnone b hrow hparent, byId]
  have hlookup : ∀ name, db.lookupTagged tag name = none := by
    intro name
    have hfilter : (db.bookmarks.filter fun b => b.fk ≠ none ∧
        b.fk ∈ (db.bookmarks.filter fun b => bound tag = some b.parent).map (·.fk) ∧
        b.title = some name) = [] := by
      refine List.filter_eq_nil_iff.mpr fun b _ hb => ?_
      obtain ⟨hsome, hmem, -⟩ := of_decide_eq_true hb
      obtain ⟨c, hc, hfk⟩ := List.mem_map.mp hmem
      obtain ⟨hc, hparent⟩ := List.mem_filter.mp hc
      exact hsome (hfk ▸ hnone c hc (bound_eq_some.mp (of_decide_eq_true hparent)).2.symm)
    simp only [Db.lookupTagged, hfilter, byId, List.insertionSort_nil, List.head?_nil,
      Option.filter_none]
  refine ⟨by rw [hempty]; exact List.nodup_nil, fun name i => ?_⟩
  rw [hempty]
  constructor
  · rintro ⟨e, he, -⟩
    cases he
  rintro ⟨cname, -, stat, hstat, -⟩
  simp only [bookmarkLookup, bookmarkDoLookup, Option.map_some, if_neg htag, hlookup] at hstat
  cases hstat

theorem mem_listing {id : ℤ} {type : BookmarkType} {withStat : Bool} {x : Dirent}
    (hx : x ∈ db.listing ctx id type withStat) : ∃ row ∈ listRows db ctx id 0 type withStat,
    row.dirent = x := by
  have hquery : ∀ (rows : List ListRow) (check : Bool) (q : ListState),
      x ∈ (dbQuery (bookmarkListCb ctx check fun _ _ => 0) rows q).accepted →
        x ∈ q.accepted ∨ ∃ row ∈ rows, row.dirent = x := by
    intro rows check
    induction rows with
    | nil => exact fun q hx => .inl hx
    | cons row rows ih =>
      intro q hx
      have hcb : ∀ y ∈ (bookmarkListCb ctx check (fun _ _ => 0) q row).2.accepted,
          y ∈ q.accepted ∨ row.dirent = y := by
        intro y hy
        -- what a row that is refused leaves is as long as before
        have hrefused : ∀ q' : ListState, q'.accepted = q.accepted → y ∈ q'.accepted →
            y ∈ q.accepted ∨ row.dirent = y := fun q' hsame hy => .inl (hsame ▸ hy)
        rw [bookmarkListCb] at hy
        by_cases hid : isValidId row.id = false
        · rw [if_pos hid] at hy
          exact hrefused _ rfl hy
        rw [if_neg hid] at hy
        by_cases htags : row.id = ctx.tagsRootId
        · rw [if_pos htags] at hy
          exact hrefused _ rfl hy
        rw [if_neg htags] at hy
        by_cases hposition : row.position < 0
        · rw [if_pos hposition] at hy
          exact hrefused _ rfl hy
        rw [if_neg hposition] at hy
        by_cases hname : validateFilename (row.name.getD []) ≠ none
        · rw [if_pos hname] at hy
          exact hrefused _ rfl hy
        rw [if_neg hname] at hy
        have happended : ∀ q' : ListState, q'.accepted = q.accepted ++ [row.dirent] →
          y ∈ q'.accepted →
            y ∈ q.accepted ∨ row.dirent = y := fun q' hsame hy =>
          (List.mem_append.mp (hsame ▸ hy)).imp_right fun h => (List.mem_singleton.mp h).symm
        cases check with
        | false => exact happended _ rfl hy
        | true =>
          simp only [if_true] at hy
          split at hy
          · exact .inl hy
          · exact happended _ rfl hy
      rw [dbQuery] at hx
      split at hx
      · exact (hcb x hx).imp_right fun h => ⟨row, List.mem_cons_self, h⟩
      · rcases ih _ hx with hx | ⟨row', hrow', hx⟩
        · exact (hcb x hx).imp_right fun h => ⟨row, List.mem_cons_self, h⟩
        · exact .inr ⟨row', List.mem_cons_of_mem row hrow', hx⟩
  exact (hquery _ _ _ hx).resolve_left List.not_mem_nil

/-- What tags a bookmark has no title, and is never what is found: nothing can be listed. -/
theorem listing_nil_of_agrees {tag : ℤ} {withStat : Bool} (htag : tag ≠ ctx.tagsRootId)
    (hkeys : db.KeysUnique)
    (hentries : ∀ b ∈ db.children tag, b.title = none) (h : db.Agrees ctx tag .tag withStat) :
    db.listing ctx tag .tag withStat = [] := by
  refine List.eq_nil_iff_forall_not_mem.mpr fun x hx => ?_
  obtain ⟨row, hrow, rfl⟩ := mem_listing hx
  simp only [listRows, if_neg htag] at hrow
  obtain ⟨b, hb, rfl⟩ := List.mem_map.mp hrow
  have hb := (List.mem_filter.mp hb).1
  obtain ⟨cname, -, stat, hstat, hid⟩ := (h.same _ _).mp ⟨_, hx, rfl, rfl⟩
  simp only [bookmarkLookup, bookmarkDoLookup, Option.map_some, if_neg htag] at hstat
  split at hstat
  · cases hstat
  next c hfound =>
  obtain ⟨hc, -⟩ := Option.filter_eq_some_iff.mp hfound
  obtain ⟨hc, hcond⟩ :=
    List.mem_filter.mp ((List.perm_insertionSort _ _).mem_iff.mp (List.mem_of_head? hc))
  have hsame : c.id = b.id := by
    rw [bookmarkLookupCb] at hstat
    split at hstat
    · cases hstat
    split at hstat
    · cases hstat
    · exact (congrArg Stat.id (Except.ok.inj hstat)).trans hid
  have htitle := (of_decide_eq_true hcond).2.2
  rw [hkeys.eq_of_id hc (mem_children.mp hb).1 hsame, hentries b hb] at htitle
  cases htitle

/-! ## Keywords -/

def Db.firstRow (db : Db) (place : ℤ) : Option MozBookmark :=
  (byId (db.bookmarks.filter fun b => b.fk = some place)).head?

/-- What is listed of a keyword. -/
def Db.keywordRow (db : Db) (withStat : Bool) (k : MozKeyword) (b : MozBookmark) : ListRow :=
  { db.listRow withStat (some k.keyword) b with
      position := k.id
      valueLen := if withStat then (db.listRow withStat none b).valueLen else 0 }

theorem firstRow_mem {place : ℤ} {b : MozBookmark} (h : db.firstRow place = some b) :
    b ∈ db.bookmarks ∧ b.fk = some place := by
  have hmem := List.mem_filter.mp ((List.perm_insertionSort _ _).mem_iff.mp (List.mem_of_head? h))
  exact ⟨hmem.1, of_decide_eq_true hmem.2⟩

section Keywords

variable (h : db.Counted) (hkeyed : db.Keyed) (hplain : db.Plain ctx)

include h in
theorem place_isSome {b : MozBookmark} {place : ℤ} (hb : b ∈ db.bookmarks)
    (hfk : b.fk = some place) :
    (db.place (some place)).isSome = true := by
  have hcount := h place (references_ne_zero.mpr (.inl ⟨b, hb, hfk⟩))
  rw [Db.count] at hcount
  obtain ⟨mp, hfind, -⟩ := Option.map_eq_some_iff.mp hcount
  rw [Db.place, Option.bind_some, hfind]
  rfl

include h in
theorem lookupKeyword_eq (name : Bytes) : db.lookupKeyword name =
    (db.keywords.find? fun k => k.keyword = name).bind fun k => db.firstRow k.placeId := by
  rw [Db.lookupKeyword]
  congr 1
  funext k
  rw [Db.firstRow]
  congr 2
  refine List.filter_congr fun b hb => decide_eq_decide.mpr ⟨fun hcond => hcond.1,
    fun hfk => ⟨hfk, ?_⟩⟩
  exact hfk ▸ place_isSome h hb hfk

include hplain in
theorem keywordRows_sorted (withStat : Bool) :
    (db.keywordRows 0 withStat).Pairwise fun r s => r.position < s.position := by
  have : Std.Total fun k l : MozKeyword => k.id ≤ l.id := ⟨fun _ _ => le_total _ _⟩
  have : IsTrans MozKeyword fun k l => k.id ≤ l.id := ⟨fun _ _ _ => le_trans⟩
  have hsorted : ∀ p : MozKeyword → Bool,
      ((db.keywords.filter p).insertionSort fun k l => k.id ≤ l.id).Pairwise fun k l =>
      k.id < l.id := by
    intro p
    have hperm := List.perm_insertionSort (fun k l : MozKeyword => k.id ≤ l.id)
      (db.keywords.filter p)
    have hnodup : (((db.keywords.filter p).insertionSort fun k l => k.id ≤ l.id).map
      (·.id)).Nodup :=
      (hperm.map _).nodup_iff.mpr (hplain.keys.sublist (List.filter_sublist.map _))
    refine ((List.pairwise_insertionSort _ _).and (List.pairwise_map.mp hnodup)).imp ?_
    exact fun ⟨hle, hne⟩ => lt_of_le_of_ne hle hne
  rw [Db.keywordRows]
  refine List.Pairwise.filterMap _ (fun k l hkl r hr r' hr' => ?_) ((hsorted _).filter _)
  obtain ⟨b, -, rfl⟩ := Option.map_eq_some_iff.mp hr
  obtain ⟨c, -, rfl⟩ := Option.map_eq_some_iff.mp hr'
  exact hkl

include h hplain in
theorem mem_keywordRows {withStat : Bool} {row : ListRow} : row ∈ db.keywordRows 0 withStat ↔
    ∃ k ∈ db.keywords, ∃ b, db.firstRow k.placeId = some b ∧ db.keywordRow withStat k b = row := by
  simp only [Db.keywordRows, List.mem_filterMap, List.mem_filter, Option.map_eq_some_iff]
  constructor
  · rintro ⟨k, ⟨hk, -⟩, b, hb, rfl⟩
    exact ⟨k, (List.mem_filter.mp ((List.perm_insertionSort _ _).mem_iff.mp hk)).1, b, hb, rfl⟩
  · rintro ⟨k, hk, b, hb, rfl⟩
    obtain ⟨hrow, hfk⟩ := firstRow_mem hb
    refine ⟨k, ⟨(List.perm_insertionSort _ _).mem_iff.mpr (List.mem_filter.mpr ⟨hk, ?_⟩), ?_⟩, b,
      hb, rfl⟩
    · rw [Bool.and_eq_true, Bool.or_eq_true]
      exact ⟨decide_eq_true (hplain.nonneg k hk), .inr (place_isSome h hrow hfk)⟩
    · refine List.all_eq_true.mpr fun l hl => ?_
      have hl := (List.mem_filter.mp ((List.perm_insertionSort _ _).mem_iff.mp hl)).1
      rw [Bool.or_eq_true, decide_eq_true_eq, decide_eq_true_eq]
      refine or_iff_not_imp_left.mpr fun hsame => ?_
      rw [List.inj_on_of_nodup_map hplain.places hl hk (not_not.mp hsame)]

include h hplain in
theorem keywordListing_eq {id : ℤ} {withStat : Bool} : db.listing ctx id .keyword withStat =
    (db.keywordRows 0 withStat).filterMap (·.shown ctx none) := by
  have hrow : ∀ row ∈ db.keywordRows 0 withStat, 0 ≤ row.position ∧ isValidId row.id = true := by
    intro row hrow
    obtain ⟨k, hk, b, hb, rfl⟩ := (mem_keywordRows h hplain).mp hrow
    exact ⟨hplain.nonneg k hk, hplain.ids b (firstRow_mem hb).1⟩
  have L : Listed ctx (fun _ _ => 0) none 0 (db.keywordRows 0 withStat) ⟨none, none, []⟩ _ :=
    dbQuery_listed _ (keywordRows_sorted hplain withStat)
      (fun row hr => ⟨(hrow row hr).1, (hrow row hr).1⟩)
      (by rintro _ ⟨⟩)
  have haccepted := L.accepted
  rw [feed_all, List.nil_append, sight, intact, List.takeWhile_eq_self_iff.mpr fun row hr =>
    (hrow row hr).2]
    at haccepted
  exact haccepted

include h hplain in
/-- Of each keyword, the first row of its place is listed. -/
theorem mem_keywordListing {id : ℤ} {withStat : Bool} {x : Dirent} :
    x ∈ db.listing ctx id .keyword withStat ↔ ∃ k ∈ db.keywords, ∃ b,
    db.firstRow k.placeId = some b ∧
      b.id ≠ ctx.tagsRootId ∧ (db.keywordRow withStat k b).dirent = x := by
  have hshown : ∀ {k : MozKeyword} {b : MozBookmark}, k ∈ db.keywords →
      ((db.keywordRow withStat k b).shown ctx none = some x ↔
        b.id ≠ ctx.tagsRootId ∧ (db.keywordRow withStat k b).dirent = x) := by
    intro k b hk
    rw [ListRow.shown, Option.all_none, Bool.and_true, Option.ite_none_right_eq_some, named_iff,
      Option.some.injEq]
    refine and_congr_left fun _ => ?_
    exact ⟨fun hnamed => hnamed.1, fun htags => ⟨htags, (hplain.names k hk).1, rfl⟩⟩
  rw [keywordListing_eq h hplain, List.mem_filterMap]
  constructor
  · rintro ⟨row, hrow, hx⟩
    obtain ⟨k, hk, b, hb, rfl⟩ := (mem_keywordRows h hplain).mp hrow
    exact ⟨k, hk, b, hb, (hshown hk).mp hx⟩
  · rintro ⟨k, hk, b, hb, hx⟩
    exact ⟨_, (mem_keywordRows h hplain).mpr ⟨k, hk, b, hb, rfl⟩, (hshown hk).mpr hx⟩

include hplain in
theorem keywordRow_name {withStat : Bool} {k : MozKeyword} {b : MozBookmark}
    (hk : k ∈ db.keywords) :
    (db.keywordRow withStat k b).dirent.name = k.keyword :=
  cstr_of_nul_notMem (hplain.names k hk).2

include h hkeyed hplain

/-- What is listed of the keywords is what is found, if no place has two. -/
theorem agrees_keywords (id : ℤ) (withStat : Bool) : db.Agrees ctx id .keyword withStat := by
  have hfind : ∀ {k : MozKeyword}, k ∈ db.keywords →
      db.keywords.find? (fun l => l.keyword = k.keyword) = some k := by
    intro k hk
    obtain ⟨l, hfind⟩ := Option.isSome_iff_exists.mp
      (List.find?_isSome.mpr ⟨k, hk, decide_eq_true rfl⟩ :
        (db.keywords.find? fun l => l.keyword = k.keyword).isSome = true)
    have hkeyword : l.keyword = k.keyword := by simpa using List.find?_some hfind
    rw [hfind, List.inj_on_of_nodup_map hkeyed.keywords (List.mem_of_find?_eq_some hfind)
      hk hkeyword]
  constructor
  · have hpairs : (db.listing ctx id .keyword withStat).Pairwise fun x y => x.name ≠ y.name := by
      rw [keywordListing_eq h hplain, List.pairwise_filterMap]
      refine (keywordRows_sorted hplain withStat).imp_of_mem fun hr hs hlt x hx y hy hname => ?_
      obtain ⟨k, hk, b, hb, rfl⟩ := (mem_keywordRows h hplain).mp hr
      obtain ⟨l, hl, c, hc, rfl⟩ := (mem_keywordRows h hplain).mp hs
      rw [ListRow.shown, Option.ite_none_right_eq_some] at hx hy
      rw [← Option.some.inj hx.2, ← Option.some.inj hy.2, keywordRow_name hplain hk,
        keywordRow_name hplain hl] at hname
      have hlt : k.id < l.id := hlt
      rw [List.inj_on_of_nodup_map hkeyed.keywords hk hl hname] at hlt
      exact absurd hlt (lt_irrefl _)
    exact List.pairwise_map.mpr (hpairs.imp fun hne heq => hne (Prod.mk.inj heq).1)
  · intro name i
    constructor
    · rintro ⟨x, hx, rfl, rfl⟩
      obtain ⟨k, hk, b, hb, htags, rfl⟩ := (mem_keywordListing h hplain).mp hx
      refine ⟨⟨k.keyword, (hplain.names k hk).2⟩, (keywordRow_name hplain hk).symm, ?_⟩
      simp only [bookmarkLookup, bookmarkDoLookup, Option.map_some, lookupKeyword_eq h, hfind hk,
        Option.bind_some, hb]
      rw [bookmarkLookupCb, if_neg (by rw [hplain.ids b (firstRow_mem hb).1]; decide),
        if_neg fun h => htags (Option.some.inj h).symm]
      exact ⟨_, rfl, rfl⟩
    · rintro ⟨cname, rfl, stat, hstat, rfl⟩
      simp only [bookmarkLookup, bookmarkDoLookup, Option.map_some, lookupKeyword_eq h] at hstat
      split at hstat
      · cases hstat
      next b hfound =>
      obtain ⟨k, hk, hb⟩ := Option.bind_eq_some_iff.mp hfound
      have hkeyword : k.keyword = cname.val := by simpa using List.find?_some hk
      have hmem := List.mem_of_find?_eq_some hk
      rw [bookmarkLookupCb] at hstat
      split at hstat
      · cases hstat
      split at hstat
      · cases hstat
      next htags =>
        cases hstat
        refine ⟨_, (mem_keywordListing h hplain).mpr ⟨k, hmem, b,
          hb, fun heq => htags (congrArg some heq.symm), rfl⟩,
          (keywordRow_name hplain hmem).trans hkeyword, rfl⟩

end Keywords

/-! ## Runs -/

/-- No row with a place is put into a directory of the tags, and no place gets a second keyword. -/
def Call.Associating (ctx : Ctx) (db : Db) : Call → Prop
  | .create _ name .keyword _ id => validateFilename name.val = none ∧
    ∀ mb, mozbmLookupId db id = .ok mb → ∀ k ∈ db.keywords, k.placeId ≠ mb.placeId
  | .create parentId _ _ isDir _ => (isDir = false → ¬db.TagDir ctx parentId) ∧
    (parentId = ctx.tagsRootId → ∀ b ∈ db.bookmarks, b.parent = newRowid (db.bookmarks.map (·.id)) →
    b.fk = none)
  | .rename oldParentId oldName newParentId _ _ _ => ∀ mb,
      mozbmLookup db oldParentId oldName.val = .ok mb →
    (newParentId = ctx.tagsRootId → ∀ b ∈ db.bookmarks, b.parent = mb.id → b.fk = none) ∧
      (db.TagDir ctx newParentId → mb.fk = none)
  | _ => True

/-- The calls, successful or not. -/
def associations (ctx : Ctx) : System Db (Env × Call) Errno where
  init db := (db.Keyed ∧ db.Counted) ∧ db.Plain ctx
  legal db call := call.2.Counting ctx db ∧ call.2.Associating ctx db
  step db call := .ok (call.2.run call.1 ctx db).2

/-- Rows stay where they are, and get no place if they have none. -/
theorem Db.Plain.of_rows (h : db.Plain ctx)
    (hrows : ∀ b' ∈ db'.bookmarks, ∃ b ∈ db.bookmarks, b'.id = b.id ∧ b'.parent = b.parent ∧
      (b.fk = none → b'.fk = none)) (hkeywords : db'.keywords.Sublist db.keywords) :
      db'.Plain ctx where
  untagged b' hb' := by
    rintro ⟨htag, t', ht', hparent, hid⟩
    obtain ⟨b, hb, -, hbparent, hfk⟩ := hrows b' hb'
    obtain ⟨t, ht, htid, htparent, -⟩ := hrows t' ht'
    rw [hbparent] at htag hid
    exact hfk (h.untagged b hb ⟨htag, t, ht, htparent.symm.trans hparent, htid.symm.trans hid⟩)
  ids b' hb' := by
    obtain ⟨b, hb, hid, -⟩ := hrows b' hb'
    exact hid ▸ h.ids b hb
  places := h.places.sublist (hkeywords.map _)
  keys := h.keys.sublist (hkeywords.map _)
  nonneg k hk := h.nonneg k (hkeywords.subset hk)
  names k hk := h.names k (hkeywords.subset hk)

theorem Db.Plain.same (h : db.Plain ctx) (hrows : db'.bookmarks = db.bookmarks)
    (hkeywords : db'.keywords = db.keywords) : db'.Plain ctx :=
  h.of_rows (fun b hb => ⟨b, hrows ▸ hb, rfl, rfl, fun h => h⟩) (hkeywords ▸ List.Sublist.refl _)

theorem Db.Plain.shrinks (h : db.Plain ctx) (hshrinks : db.Shrinks db') : db'.Plain ctx :=
  h.of_rows (fun b hb => ⟨b, hshrinks.bookmarks.subset hb, rfl, rfl, fun h => h⟩) hshrinks.keywords

theorem Db.Plain.update (h : db.Plain ctx) {p : MozBookmark → Bool} {f : MozBookmark → MozBookmark}
    (hf : ∀ b, (f b).id = b.id ∧ (f b).parent = b.parent ∧ (f b).fk = b.fk) :
    (updateBookmarks db p f).Plain ctx := by
  refine h.of_rows (fun b' hb' => ?_) (List.Sublist.refl _)
  obtain ⟨b, hb, rfl⟩ := List.mem_map.mp hb'
  refine ⟨b, hb, ?_⟩
  split
  · exact ⟨(hf b).1, (hf b).2.1, fun hnone => (hf b).2.2.trans hnone⟩
  · exact ⟨rfl, rfl, fun h => h⟩

theorem mozbmPosUpdate_plain (h : db.Plain ctx) (id newPos : ℤ) :
    (mozbmPosUpdate db id newPos).Plain ctx :=
  h.update fun _ => ⟨rfl, rfl, rfl⟩

theorem Db.Plain.mtime (h : db.Plain ctx) (id now : ℤ) : (mozbmMtimeUpdate db id now).Plain ctx :=
  h.update fun _ => ⟨rfl, rfl, rfl⟩

/-- A row is added that is in no directory of the tags, or has no place. -/
theorem mozbmInsert_plain (h : db.Plain ctx) {parent dateAdded placeId id : ℤ}
    {title : Option Bytes} (hplain : db.TagDir ctx parent → bound placeId = none)
    (hroot : parent = ctx.tagsRootId →
      ∀ b ∈ db.bookmarks, b.parent = newRowid (db.bookmarks.map (·.id)) → b.fk = none)
    (hrun : mozbmInsert db parent title dateAdded placeId = .ok (id, db')) : db'.Plain ctx := by
  obtain ⟨b, hrows, ⟨-, hid, hvalid, hparent⟩, hfk, -, hkeywords, -⟩ := mozbmInsert_row hrun
  refine ⟨fun c hc => ?_, fun c hc => ?_, hkeywords ▸ h.places, hkeywords ▸ h.keys,
    hkeywords ▸ h.nonneg,
    hkeywords ▸ h.names⟩
  · rintro ⟨htag, t, ht, htparent, htid⟩
    rw [hrows, List.mem_append, List.mem_singleton] at hc ht
    rcases ht with ht | rfl
    · rcases hc with hc | rfl
      · exact h.untagged c hc ⟨htag, t, ht, htparent, htid⟩
      · exact hfk.trans (hplain (hparent ▸ ⟨htag, t, ht, htparent, htid⟩))
    · rcases hc with hc | rfl
      · exact hroot (hparent.symm.trans htparent) c hc (htid.symm.trans hid)
      · exact absurd htparent htag
  · rw [hrows, List.mem_append, List.mem_singleton] at hc
    rcases hc with hc | rfl
    · exact h.ids c hc
    · exact hvalid

theorem keywordCreate_plain (h : db.Plain ctx) {name : CString} {id : ℤ} {stat : Stat}
    (hname : validateFilename name.val = none)
    (hfree : ∀ mb, mozbmLookupId db id = .ok mb → ∀ k ∈ db.keywords, k.placeId ≠ mb.placeId)
    (hrun : keywordCreate ctx name.val id db = .ok (stat, db')) : db'.Plain ctx := by
  obtain ⟨mb, db₁, hlookup, -, hinsert, haddref⟩ := keywordCreate_cases hrun
  obtain ⟨hrows, hkeywords⟩ := mozplaceAddrefId_rows haddref
  refine Db.Plain.same ?_ hrows hkeywords
  rw [mozkwInsert] at hinsert
  split at hinsert <;> cases hinsert
  have hlast : 0 ≤ (db.keywords.map (·.id)).max?.getD 0 ∧
      ∀ k ∈ db.keywords, k.id ≤ (db.keywords.map (·.id)).max?.getD 0 := by
    cases hmax : (db.keywords.map (·.id)).max? with
    | none =>
      rw [List.max?_eq_none_iff, List.map_eq_nil_iff] at hmax
      exact ⟨le_rfl, hmax ▸ fun k hk => by cases hk⟩
    | some m =>
      obtain ⟨hmem, hle⟩ := List.max?_eq_some_iff.mp hmax
      obtain ⟨k, hk, rfl⟩ := List.mem_map.mp hmem
      exact ⟨h.nonneg k hk, fun l hl => hle l.id (List.mem_map_of_mem hl)⟩
  set new := max db.keywordSeq ((db.keywords.map (·.id)).max?.getD 0) + 1 with hnew
  have hnew : ∀ i ≤ (db.keywords.map (·.id)).max?.getD 0, i < new := fun i hi =>
    Int.lt_add_one_of_le (hi.trans (le_max_right _ _))
  refine ⟨h.untagged, h.ids, ?_, ?_, ?_, ?_⟩
  · refine List.map_append.symm ▸ List.nodup_append.mpr ⟨h.places, List.nodup_singleton _, ?_⟩
    intro i hi j hj
    obtain ⟨k, hk, rfl⟩ := List.mem_map.mp hi
    exact List.mem_singleton.mp hj ▸ hfree mb hlookup k hk
  · refine List.map_append.symm ▸ List.nodup_append.mpr ⟨h.keys, List.nodup_singleton _, ?_⟩
    intro i hi j hj
    obtain ⟨k, hk, rfl⟩ := List.mem_map.mp hi
    exact List.mem_singleton.mp hj ▸ (hnew k.id (hlast.2 k hk)).ne
  · intro k hk
    rcases List.mem_append.mp hk with hk | hk
    · exact h.nonneg k hk
    · rw [List.mem_singleton.mp hk]
      exact (hnew 0 hlast.1).le
  · intro k hk
    rcases List.mem_append.mp hk with hk | hk
    · exact h.names k hk
    · rw [List.mem_singleton.mp hk]
      exact ⟨hname, name.property⟩

theorem mozbmMove_cases {id newParent : ℤ} {newPos : Option ℤ} {newName : Option Bytes}
    (h : mozbmMove db id newParent newPos newName = .ok db') : db' = db ∨
      ∃ move : MozBookmark → MozBookmark, db'.bookmarks = db.bookmarks.map move ∧
      db'.keywords = db.keywords ∧
        ∀ b, (move b).id = b.id ∧ (move b).fk = b.fk ∧
          (b.id = id ∧ (move b).parent = newParent ∨ (move b).parent = b.parent) := by
  rw [mozbmMove] at h
  split at h
  swap
  · exact .inl (Except.ok.inj h).symm
  obtain ⟨pos, -, h⟩ := bind_eq_ok.mp h
  cases h
  refine .inr ⟨_, rfl, rfl, fun b => ?_⟩
  by_cases hb : b.id = id
  · simp only [hb, decide_true, if_true, true_and, true_or]
  · simp only [hb, decide_false, Bool.false_eq_true, if_false, or_true, and_self]

/-- A row is moved to a folder that is no directory of the tags, or it has no place; and if it
becomes one, its rows have none. -/
theorem mozbmMove_plain (h : db.Plain ctx) {id newParent : ℤ} {newPos : Option ℤ}
    {newName : Option Bytes}
    (hroot : newParent = ctx.tagsRootId → ∀ b ∈ db.bookmarks, b.parent = id → b.fk = none)
    (htagged : db.TagDir ctx newParent → ∀ b ∈ db.bookmarks, b.id = id → b.fk = none)
    (hrun : mozbmMove db id newParent newPos newName = .ok db') : db'.Plain ctx := by
  rcases mozbmMove_cases hrun with rfl | ⟨move, hrows, hkeywords, hmove⟩
  · exact h
  refine ⟨fun b' hb' => ?_, fun b' hb' => ?_, hkeywords ▸ h.places, hkeywords ▸ h.keys,
    hkeywords ▸ h.nonneg,
    hkeywords ▸ h.names⟩ <;> rw [hrows] at hb' <;> obtain ⟨b, hb, rfl⟩ := List.mem_map.mp hb' <;>
    obtain ⟨hid, hfk, hparent⟩ := hmove b
  · rintro ⟨htag, t', ht', htparent, htid⟩
    rw [hrows] at ht'
    obtain ⟨t, ht, rfl⟩ := List.mem_map.mp ht'
    obtain ⟨htid', -, htparent'⟩ := hmove t
    rw [htid'] at htid
    rw [hfk]
    rcases htparent' with ⟨hmoved, hnew⟩ | hsame
    · -- The row has become a directory of the tags.
      have hnewroot : newParent = ctx.tagsRootId := hnew.symm.trans htparent
      rcases hparent with ⟨-, hbparent⟩ | hbparent
      · exact absurd (hbparent.trans hnewroot) htag
      · exact hroot hnewroot b hb (hbparent.symm.trans (htid.symm.trans hmoved))
    · have hdir : db.TagDir ctx (move b).parent := ⟨htag, t, ht, hsame.symm.trans htparent, htid⟩
      rcases hparent with ⟨hbid, hbparent⟩ | hbparent
      · exact htagged (hbparent ▸ hdir) b hb hbid
      · exact h.untagged b hb (hbparent ▸ hdir)
  · exact hid.symm ▸ h.ids b hb

theorem mozbmUpdate_plain (h : db.Plain ctx) {id r : ℤ} {placeId dateAdded lastModified : Option ℤ}
    (hplace : placeId ≠ none → ∀ b ∈ db.bookmarks, b.id = id → b.fk ≠ none)
    (hrun : mozbmUpdate db id placeId dateAdded lastModified = .ok (r, db')) : db'.Plain ctx := by
  obtain ⟨mb, -, -, -, ⟨g, hrows, hg⟩, hkeywords, -⟩ := mozbmUpdate_cases hrun
  refine h.of_rows (fun b' hb' => ?_) (hkeywords ▸ List.Sublist.refl _)
  rw [hrows] at hb'
  obtain ⟨b, hb, rfl⟩ := List.mem_map.mp hb'
  obtain ⟨hid, ⟨-, hparent⟩, hfk⟩ := hg b
  refine ⟨b, hb, hid, hparent, fun hnone => ?_⟩
  rw [hfk]
  split
  next hbid =>
    cases placeId with
    | none => exact hnone
    | some place => exact absurd hnone (hplace (Option.some_ne_none place) b hb hbid)
  · exact hnone

theorem bookmarkSet_plain (h : db.Plain ctx) (hkeys : db.KeysUnique) (id : ℤ) (arg : SetArg) :
    (bookmarkSet env ctx id arg db).2.Plain ctx := by
  refine bookmarkSet_cases (P := fun db => db.Plain ctx)
    id arg h fun {updates placeId db₁} _ hupdate => ?_
  have h₁ := mozbmUpdate_plain h (fun hne => absurd rfl hne) hupdate
  refine ⟨fun _ => h₁, fun {url visit desc newPlaceId db₂} _ hplace hrun => ?_⟩
  obtain ⟨hrows₂, hkeywords₂⟩ := mozplaceUpdate_rows hrun
  have h₂ := h₁.same hrows₂ hkeywords₂
  refine ⟨fun _ => h₂, fun {r db₃} _ hupdate' => mozbmUpdate_plain h₂
    (fun _ b' hb' hid => ?_) hupdate'⟩
  obtain ⟨mb, hmb, hmbid, hfk, ⟨g, hrows, hg⟩, -⟩ := mozbmUpdate_cases hupdate
  rw [hrows₂, hrows] at hb'
  obtain ⟨b, hb, rfl⟩ := List.mem_map.mp hb'
  obtain rfl := hkeys.eq_of_id hb hmb ((hg b).1.symm.trans (hid.trans hmbid.symm))
  rw [(hg b).2.2, if_pos hmbid]
  intro hnone
  rw [show (none <|> b.fk) = b.fk from rfl] at hnone hfk
  rw [hnone] at hfk
  exact hplace hfk

theorem bookmarkDoCreate_plain (h : db.Plain ctx) {parentId : ℤ} {name : Bytes} {isDir : Bool}
    {stat : Stat} (hfile : isDir = false → ¬db.TagDir ctx parentId)
    (hroot : parentId = ctx.tagsRootId →
      ∀ b ∈ db.bookmarks, b.parent = newRowid (db.bookmarks.map (·.id)) → b.fk = none)
    (hrun : bookmarkDoCreate env ctx parentId name isDir db = .ok (stat, db')) : db'.Plain ctx := by
  obtain ⟨r, db₁, id, db₂, hplace, hinsert, rfl⟩ := bookmarkDoCreate_cases hrun
  obtain ⟨hrows, hkeywords⟩ := createPlace_rows hplace
  refine (mozbmInsert_plain (h.same hrows hkeywords) ?_ ?_ hinsert).mtime _ _
  · rintro ⟨htag, hparent⟩
    rw [hrows] at hparent
    cases isDir with
    | true =>
      cases hplace
      rfl
    | false => exact absurd ⟨htag, hparent⟩ (hfile rfl)
  · rw [hrows]
    exact hroot

theorem Call.run_plain (h : db.Plain ctx) (hkeys : db.KeysUnique) (env : Env) (call : Call)
    (hcall : call.Associating ctx db) : (call.run env ctx db).2.Plain ctx := by
  refine Call.run_keeps (P := fun db => db.Plain ctx) h call
    (fun {parentId name type isDir id stat db'} heq htype hrun => ?_)
    (fun heq hrun => ?_) (fun heq hrun => ?_) (fun hrun => ?_) (fun _ hrun => ?_) (fun _ hrun => ?_)
    (fun {oldParentId oldName newParentId newName type noreplace} heq => ?_)
    (fun {parentId op name1 name2 type now} => ?_) fun {id arg} _ =>
      bookmarkSet_plain h hkeys id arg
  · subst heq
    obtain rfl | ⟨rfl, -⟩ := htype <;> exact bookmarkDoCreate_plain h hcall.1 hcall.2 hrun
  · subst heq
    obtain ⟨mb, entry, db₁, db₂, -, -, hinsert, haddref, rfl⟩ := tagEntryAdd_cases hrun
    obtain ⟨hrows, hkeywords⟩ := mozplaceAddrefId_rows haddref
    exact ((mozbmInsert_plain h (fun htag => absurd htag (hcall.1 rfl)) hcall.2 hinsert).same hrows
      hkeywords).mtime _ _
  · subst heq
    exact keywordCreate_plain h hcall.1 hcall.2 hrun
  · obtain ⟨mb, db₁, -, -, hdelete, rfl⟩ := bookmarkDoDelete_cases hrun
    exact (h.shrinks (mozbmDelete_rows hdelete).1).mtime _ _
  · obtain ⟨stat, mb, entry, db₁, -, -, -, -, hdelete, rfl⟩ := tagEntryDelete_cases hrun
    exact (h.shrinks (mozbmDelete_rows hdelete).1).mtime _ _
  · obtain ⟨hrows, hkeywords⟩ := mozplaceDelrefPlain_rows hrun
    exact h.of_rows (fun b hb => ⟨b, hrows ▸ hb, rfl, rfl, fun h => h⟩)
      (hkeywords ▸ List.filter_sublist)
  · subst heq
    refine bookmarkRename_cases (P := fun db => db.Plain ctx) _ _ _ _ _ _ h
      (fun _ _ h => h.mtime _ _)
      fun {oldMb newPos db₁ db₂} hlookup hreplace hmove => ?_
    obtain ⟨hroot, htagged⟩ := hcall oldMb hlookup
    have hmb := (mem_children.mp (mozbmLookup_child hlookup)).1
    have hshrinks : db.Shrinks db₁ := by
      obtain ⟨-, rfl⟩ | ⟨newMb, -, -, hdelete, -⟩ := replaceTarget_cases hreplace
      · exact .refl _
      · exact (mozbmDelete_rows hdelete).1
    refine mozbmMove_plain (h.shrinks hshrinks)
      (fun hnew b hb => hroot hnew b (hshrinks.bookmarks.subset hb))
      (fun ⟨htag, t, ht, hparent⟩ b hb hid => ?_) hmove
    rw [hkeys.eq_of_id (hshrinks.bookmarks.subset hb) hmb hid]
    exact htagged ⟨htag, t, hshrinks.bookmarks.subset ht, hparent⟩
  · refine bookmarkPermute_cases (P := fun db => db.Plain ctx) _ _ _ _ _ _ h
      (fun _ _ h => h.mtime _ _)
      (fun _ _ _ => mozbmPosUpdate_plain (mozbmPosUpdate_plain h _ _) _ _) fun _ _ hshift => ?_
    obtain ⟨p, d, rfl⟩ := mozbmPosShift_update hshift
    refine mozbmPosUpdate_plain (h.update ?_) _ _
    exact fun _ => ⟨rfl, rfl, rfl⟩

theorem associations_plain (ctx : Ctx) :
    (associations ctx).Invariant fun db => (db.Keyed ∧ db.Counted) ∧ db.Plain ctx where
  init _ h := h
  step db call db' h hcall hstep := by
    cases hstep
    have hkeeps := call.2.run_counts h.1.2 h.1.1 call.1 ctx hcall.1
    exact ⟨⟨hkeeps.keyed, hkeeps.counted⟩, call.2.run_plain h.2 h.1.1.rows call.1 hcall.2⟩

/-- In every run, what is listed of a tag and of the keywords is what is found, as long as no
bookmark is tagged and no place has two keywords. -/
theorem views_agree (ctx : Ctx) (db : Db) (hreach : (associations ctx).Reachable db)
    (withStat : Bool) :
    (∀ tag, db.TagDir ctx tag → db.Agrees ctx tag .tag withStat) ∧
      ∀ id, db.Agrees ctx id .keyword withStat := by
  obtain ⟨⟨hkeyed, hcounted⟩, hplain⟩ := hreach.holds (associations_plain ctx)
  refine ⟨fun tag htag => agrees_of_untagged htag.1 (fun b hb hparent => ?_) withStat,
    fun id => agrees_keywords hcounted hkeyed hplain id withStat⟩
  exact hplain.untagged b hb (hparent ▸ htag)

/-- A bookmark, and a tag that it does not have. -/
def bookmarked : Db where
  bookmarks := [⟨2, 2, none, 1, 0, some [102], 0, 0⟩, ⟨3, 2, none, 1, 1, some [116], 0, 0⟩,
    ⟨4, 1, some 1, 2, 0, some [97], 0, 0⟩, ⟨5, 2, none, 3, 0, some [116], 0, 0⟩]
  places := [⟨1, [120, 58], none, none, 1, mozplaceUrlHash [120, 58], 1⟩]
  keywords := []
  keywordSeq := 0
  origins := [⟨1, [120, 58], []⟩]

theorem bookmarked_keyed : bookmarked.Keyed :=
  ⟨by unfold Db.KeysUnique; decide, by decide, List.nodup_nil, by decide +kernel⟩

theorem bookmarked_plain : bookmarked.Plain ⟨1, 3, false, true⟩ := by
  refine ⟨?_, by decide +kernel, List.nodup_nil, List.nodup_nil, nofun, nofun⟩
  unfold Db.TagDir
  decide +kernel

/-- A keyword is listed for its bookmark. -/
theorem views_agree_keyword : ∃ db, (associations ⟨1, 3, false, true⟩).Reachable db ∧
    (db.listing ⟨1, 3, false, true⟩ 0 .keyword false).map (fun x => (x.name, x.id)) = [([107], 4)] ∧
    db.Agrees ⟨1, 3, false, true⟩ 5 .tag false ∧
    db.Agrees ⟨1, 3, false, true⟩ 0 .keyword false := by
  have hinit : (associations ⟨1, 3, false, true⟩).Reachable bookmarked :=
    .init ⟨⟨bookmarked_keyed, by decide +kernel⟩, bookmarked_plain⟩
  have hlegal : (associations ⟨1, 3, false, true⟩).legal bookmarked
      (⟨⟨0, 0⟩, 0⟩, Call.create 0 ⟨[107], by decide⟩ .keyword false 4) :=
    ⟨trivial, by decide +kernel, fun _ _ _ hk => absurd hk List.not_mem_nil⟩
  have hreach := hinit.step hlegal rfl
  obtain ⟨htags, hkeywords⟩ := views_agree _ _ hreach false
  exact ⟨_, hreach, by decide +kernel, htags 5 (by unfold Db.TagDir; decide +kernel), hkeywords 0⟩

/-- What is listed of a tag is the row that tags the bookmark, and what is found is the bookmark. -/
theorem tag_entry_listed :
    bookmarked.Keyed ∧ bookmarked.Counted ∧ bookmarked.Plain ⟨1, 3, false, true⟩ ∧
    ((Call.create 5 ⟨[97], by decide⟩ .tag false 4).run ⟨⟨0, 0⟩, 0⟩ ⟨1, 3, false, true⟩
      bookmarked).1 = .ok () ∧
    ¬((Call.create 5 ⟨[97], by decide⟩ .tag false 4).run ⟨⟨0, 0⟩, 0⟩ ⟨1, 3, false, true⟩
      bookmarked).2.Agrees
      ⟨1, 3, false, true⟩ 5 .tag false := by
  refine ⟨bookmarked_keyed, by decide +kernel, bookmarked_plain, by decide +kernel, fun h => ?_⟩
  have hlisted := listing_nil_of_agrees (by decide) (by unfold Db.KeysUnique; decide +kernel)
    (by decide +kernel) h
  have hlength : (((Call.create 5 ⟨[97], by decide⟩ .tag false 4).run ⟨⟨0, 0⟩, 0⟩ ⟨1,
    3, false, true⟩
    bookmarked).2.listing ⟨1, 3, false, true⟩ 5 .tag false).length = 1 := by decide +kernel
  rw [hlisted] at hlength
  cases hlength

end BookmarkFS.Firefox
