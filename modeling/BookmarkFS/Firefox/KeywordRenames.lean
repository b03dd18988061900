import BookmarkFS.Firefox.Counts

/-! # Renaming a keyword

A keyword is renamed by a call that no case of the first `switch` in `bookmark_rename()`
is for. Where the program goes on nevertheless, it gives up the reference of the place
that is to keep it, and changes the row with the new name instead of that with the old.
-/
namespace BookmarkFS.Firefox
open Library
open Chromium (Errno)

/-- What `unreachable()` is: it stops the program, or lets the compiler assume that it does not get
there; where the compiler has no such thing, it is nothing. -/
inductive Unreachable where
  | stops
  | nothing
  deriving DecidableEq

/-- `mozkw_lookup()` -/
def mozkwLookup (db : Db) (keyword : Bytes) : Except Errno MozKeyword :=
  match db.keywords.find? fun k => k.keyword = keyword with
  | none => .error .noent
  | some k => .ok k

/-- ``UPDATE OR REPLACE `moz_keywords` SET `id` = ? WHERE `keyword` = ?``, and the number of rows
that it changes. A row that already has the identifier is deleted, and NULL is not one. -/
def updateKeywordId (db : Db) (id : ℤ) (keyword : Bytes) : Except Errno (ℕ × Db) :=
  match db.keywords.find? fun k => k.keyword = keyword with
  | none => .ok (0, db)
  | some k =>
    match bound id with
    | none => .error .io
    | some id =>
      let rest := db.keywords.filter fun l => l.keyword ≠ keyword ∧ l.id ≠ id
      .ok (1, { db with keywords := ({ k with id := id } :: rest).insertionSort fun k l =>
        k.id ≤ l.id })

/-- The part of `mozkw_rename()` that comes before the statement: the identifier for it. -/
def releaseKeyword (db : Db) (oldName : Bytes) (noreplace : Bool) : Except Errno (ℤ × Db) :=
  match mozkwLookup db oldName with
  -- `old_mk.id` is 0 since its initializer.
  | .error .noent => .ok (0, db)
  | .error err => .error err
  | .ok oldMk =>
    if noreplace then .error .exist
    else do
      let db ← mozplaceDelrefPlain db oldMk.placeId 1
      .ok (oldMk.id, db)

/-- `mozkw_rename()` -/
def mozkwRename (db : Db) (oldName newName : Bytes) (noreplace : Bool) :
    Except Errno (Unit × Db) := do
  let (id, db) ← releaseKeyword db oldName noreplace
  let (changes, db) ← updateKeywordId db id newName
  if changes = 0 then .error .noent else .ok ((), db)

/-- `bookmark_rename()` of all types, if it does not stop. -/
def bookmarkRenameType (unreachable : Unreachable) (env : Env) (ctx : Ctx) (oldParentId : ℤ)
    (oldName : CString)
    (newParentId : ℤ) (newName : CString) (type : BookmarkType) (noreplace : Bool) (db : Db) :
    Option (Except Errno Unit × Db) :=
  if type = .keyword then
    match unreachable with
    | .stops => none
    | .nothing =>
      if oldName = newName ∧ oldParentId = newParentId then some (.ok (), db)
      else some (transaction (fun db =>
        if oldName = newName then .ok ((), db)
          else mozkwRename db oldName.val newName.val noreplace) db)
  else some (bookmarkRename env ctx oldParentId oldName newParentId newName type noreplace db)

def Db.Maps (db : Db) (keyword : Bytes) (place : ℤ) : Prop :=
  ∃ k ∈ db.keywords, k.keyword = keyword ∧ k.placeId = place

/-- The keyword of `place` has a new name, and has replaced another if there was one
with that name. -/
structure Db.Renames (db db' : Db) (oldName newName : Bytes) (place : ℤ) : Prop where
  maps : ∀ name p, db'.Maps name p ↔
    (name = newName ∧ p = place) ∨ (name ≠ oldName ∧ name ≠ newName ∧ db.Maps name p)
  others : ∀ k : MozKeyword, k.keyword ≠ oldName → k.keyword ≠ newName →
    (k ∈ db'.keywords ↔ k ∈ db.keywords)
  released : ∀ p, db.Maps newName p →
    db'.count p = if db.references p = 1 then none else some (db.references p - 1 : ℤ)
  counted : db'.Counted

/-- What is asked of renaming a keyword. -/
structure KeywordRename (db : Db) (oldName newName : Bytes) (noreplace : Bool)
    (result : Option (Except Errno Unit × Db)) : Prop where
  missing : (∀ place, ¬db.Maps oldName place) → result = some (.error .noent, db)
  exist : (∃ place, db.Maps oldName place) → (∃ place, db.Maps newName place) → noreplace = true →
    result = some (.error .exist, db)
  done : ∀ place, db.Maps oldName place → ((∃ place, db.Maps newName place) → noreplace = false) →
    ∃ db', result = some (.ok (), db') ∧ db.Renames db' oldName newName place

variable {db db' : Db} {oldName newName : Bytes} {k l : MozKeyword}

section Rows

theorem maps_of_mem (hk : k ∈ db.keywords) : db.Maps k.keyword k.placeId := ⟨k, hk, rfl, rfl⟩

theorem Db.Keyed.keyword_eq (h : db.Keyed) (hk : k ∈ db.keywords) (hl : l ∈ db.keywords)
    (hkeyword : k.keyword = l.keyword) : k = l :=
  List.inj_on_of_nodup_map h.keywords hk hl hkeyword

theorem Db.Keyed.maps_iff (h : db.Keyed) (hk : k ∈ db.keywords) {place : ℤ} :
    db.Maps k.keyword place ↔ place = k.placeId := by
  constructor
  · rintro ⟨l, hl, hkeyword, rfl⟩
    rw [h.keyword_eq hl hk hkeyword]
  · rintro rfl
    exact maps_of_mem hk

theorem find_keyword (h : db.Keyed) (hk : k ∈ db.keywords) :
    (db.keywords.find? fun l => l.keyword = k.keyword) = some k := by
  obtain ⟨l, hfind⟩ :=
    Option.isSome_iff_exists.mp (List.find?_isSome.mpr ⟨k, hk, decide_eq_true rfl⟩ :
    (db.keywords.find? fun l => l.keyword = k.keyword).isSome = true)
  rw [hfind, h.keyword_eq (List.mem_of_find?_eq_some hfind) hk
    (by simpa using List.find?_some hfind)]

theorem find_keyword_none {name : Bytes} (h : ∀ place, ¬db.Maps name place) :
    (db.keywords.find? fun l => l.keyword = name) = none := by
  rw [List.find?_eq_none]
  intro k hk hkeyword
  exact h k.placeId (of_decide_eq_true hkeyword ▸ maps_of_mem hk)

end Rows

section Drop

/-- The reference of a place that has others is given up. -/
theorem mozplaceDelrefPlain_ok (hkeyed : db.Keyed) (h : db.Counted) {place : ℤ}
    (hrefs : 2 ≤ db.references place) :
    ∃ db', mozplaceDelrefPlain db place 1 = .ok db' ∧ db'.bookmarks = db.bookmarks ∧
    db'.keywords = db.keywords ∧
      ∀ p, db'.count p = if p = place then some (db.references place - 1 : ℤ) else db.count p := by
  have hne : db.references place ≠ 0 := by omega
  have hcount := h place hne
  obtain ⟨mp, hmp, rfl⟩ := List.mem_map.mp (h.mem hne)
  have hfind : (db.places.find? fun x => bound mp.id = some x.id) = some mp := by
    rw [← hkeyed.find_place hmp]
    congr 1
    funext x
    rw [decide_eq_decide, bound_eq_some]
    exact ⟨fun h => h.2.symm, fun h => ⟨(hkeyed.positive mp hmp).le, h.symm⟩⟩
  have hfc : mp.foreignCount = db.references mp.id :=
    Option.some.inj ((count_find hfind).symm.trans hcount)
  refine ⟨updatePlaces db (·.id = mp.id) fun x => { x with foreignCount := x.foreignCount - 1 }, ?_,
    rfl, rfl,
    fun p => ?_⟩
  · rw [mozplaceDelrefPlain, mozplaceDelrefWith, hfind]
    dsimp only
    rw [if_neg (by omega)]
  · refine (count_adjust (· - 1)).trans ?_
    split
    next hp =>
      subst hp
      rw [hcount, Option.map_some]
    next => rfl

end Drop

section Rename

variable {noreplace : Bool}

/-- The row that is changed is the one with the new name, so that its place stays. -/
theorem mozkwRename_kept (hkeyed : db.Keyed)
    (hrun : mozkwRename db oldName newName noreplace = .ok ((), db')) :
    (∃ place, db.Maps newName place ∧ db'.Maps newName place) ∧
      ∀ k ∈ db.keywords, k.keyword = oldName → 0 ≤ k.id := by
  rw [mozkwRename] at hrun
  obtain ⟨⟨id, db₁⟩, hlookup, hrun⟩ := bind_eq_ok.mp hrun
  obtain ⟨⟨changes, db₂⟩, hupdate, hrun⟩ := bind_eq_ok.mp hrun
  dsimp only at hupdate hrun
  have hrelease : db₁.keywords = db.keywords ∧ ∀ k ∈ db.keywords, k.keyword = oldName →
    id = k.id := by
    rw [releaseKeyword, mozkwLookup] at hlookup
    cases hfind : db.keywords.find? fun k => k.keyword = oldName with
    | none =>
      rw [hfind] at hlookup
      cases hlookup
      refine ⟨rfl, fun k hk hkeyword => ?_⟩
      exact absurd (decide_eq_true hkeyword) (List.find?_eq_none.mp hfind k hk)
    | some oldMk =>
      obtain rfl : oldMk.keyword = oldName := by simpa using List.find?_some hfind
      rw [hfind] at hlookup
      dsimp only at hlookup
      split at hlookup
      · cases hlookup
      · obtain ⟨db₃, hdelref, hlookup⟩ := bind_eq_ok.mp hlookup
        cases hlookup
        refine ⟨(mozplaceDelrefPlain_rows hdelref).2, fun k hk hkeyword => ?_⟩
        rw [hkeyed.keyword_eq hk (List.mem_of_find?_eq_some hfind) hkeyword]
  obtain ⟨hkeywords, hid⟩ := hrelease
  split at hrun
  · cases hrun
  · rename_i hchanges
    cases hrun
    rw [updateKeywordId] at hupdate
    split at hupdate
    · cases hupdate
      exact absurd rfl hchanges
    · rename_i l hfind
      obtain rfl : l.keyword = newName := by simpa using List.find?_some hfind
      have hl : l ∈ db.keywords := hkeywords ▸ List.mem_of_find?_eq_some hfind
      split at hupdate
      · cases hupdate
      · rename_i id' hbound
        cases hupdate
        refine ⟨⟨l.placeId, maps_of_mem hl, { l with id := id' }, ?_, rfl, rfl⟩,
          fun k hk hkeyword => ?_⟩
        · exact (List.mem_insertionSort _).mpr List.mem_cons_self
        · rw [← hid k hk hkeyword]
          exact (bound_eq_some.mp hbound).1

section SamePlace

/-! Where both keywords have one place, the wrong row is as good as the right one. -/

variable (hkeyed : db.Keyed) (hids : (db.keywords.map (·.id)).Nodup) (hk : k ∈ db.keywords)
  (hl : l ∈ db.keywords) (hne : k.keyword ≠ l.keyword) (hplace : l.placeId = k.placeId)

include hkeyed hids hk hl hne hplace

theorem countP_two (p : ℤ) : db.keywords.countP (fun x => x.placeId = p) =
    (db.keywords.filter fun x => x.keyword ≠ l.keyword ∧ x.id ≠ k.id).countP
    (fun x => x.placeId = p) +
      (if k.placeId = p then 1 else 0) + if k.placeId = p then 1 else 0 := by
  have hmem : k ∈ db.keywords.filter fun x => x.keyword ≠ l.keyword :=
    List.mem_filter.mpr ⟨hk, decide_eq_true hne⟩
  have hrest : (db.keywords.filter fun x => x.keyword ≠ l.keyword).filter (fun x => x.id ≠ k.id) =
      db.keywords.filter fun x => x.keyword ≠ l.keyword ∧ x.id ≠ k.id := by
    rw [List.filter_filter]
    refine List.filter_congr fun x _ => ?_
    rw [Bool.and_comm, Bool.decide_and]
  rw [countP_key hkeyed.keywords hl, countP_key (hids.sublist (List.filter_sublist.map _)) hmem,
    hrest, hplace]
  simp only [decide_eq_true_eq]

/-- The place, which has two references, loses one, and the row with the new name gets the
other's identifier. -/
theorem mozkwRename_rows (h : db.Counted) (hid : 0 ≤ k.id) :
    2 ≤ db.references k.placeId ∧
    ∃ db', mozkwRename db k.keyword l.keyword false = .ok ((), db') ∧ db'.bookmarks = db.bookmarks ∧
      (∀ p, db'.count p = if p = k.placeId then some (db.references k.placeId - 1 : ℤ)
        else db.count p) ∧
      db'.keywords.Perm ({ l with id := k.id } ::
        db.keywords.filter fun x => x.keyword ≠ l.keyword ∧ x.id ≠ k.id) := by
  have hrefs : 2 ≤ db.references k.placeId := by
    have := countP_two hkeyed hids hk hl hne hplace k.placeId
    rw [if_pos rfl] at this
    rw [references_eq]
    omega
  obtain ⟨db₁, hdelref, hrows, hkeywords, hcount⟩ := mozplaceDelrefPlain_ok hkeyed h hrefs
  have hrelease : releaseKeyword db k.keyword false = .ok (k.id, db₁) := by
    rw [releaseKeyword, mozkwLookup, find_keyword hkeyed hk]
    simp only [Bool.false_eq_true, if_false, hdelref]
    rfl
  have hfind : db₁.keywords.find? (fun x => x.keyword = l.keyword) = some l := by
    rw [hkeywords]
    exact find_keyword hkeyed hl
  obtain ⟨db', hupdate, hrows', hplaces', hperm⟩ : ∃ db', updateKeywordId db₁ k.id l.keyword =
    .ok (1, db') ∧
      db'.bookmarks = db.bookmarks ∧ db'.places = db₁.places ∧
      db'.keywords.Perm ({ l with id := k.id } ::
        db.keywords.filter fun x => x.keyword ≠ l.keyword ∧ x.id ≠ k.id) := by
    rw [updateKeywordId, hfind, bound, if_neg (not_lt.mpr hid)]
    refine ⟨_, rfl, hrows, rfl, ?_⟩
    rw [hkeywords]
    exact List.perm_insertionSort _ _
  refine ⟨hrefs, db', ?_, hrows', fun p => (count_congr hplaces').trans (hcount p), hperm⟩
  simp only [mozkwRename, hrelease, hupdate, bind, Except.bind, one_ne_zero, if_false]

theorem mozkwRename_same (h : db.Counted) (hid : 0 ≤ k.id) :
    ∃ db', mozkwRename db k.keyword l.keyword false = .ok ((), db') ∧
      db.Renames db' k.keyword l.keyword k.placeId := by
  obtain ⟨htwo, db', hrun, hrows, hcount, hperm⟩ :=
    mozkwRename_rows hkeyed hids hk hl hne hplace h hid
  have hmem : ∀ x, x ∈ db'.keywords ↔ x = { l with id := k.id } ∨
      x ∈ db.keywords ∧ x.keyword ≠ l.keyword ∧ x.keyword ≠ k.keyword := by
    intro x
    rw [hperm.mem_iff, List.mem_cons, List.mem_filter, decide_eq_true_iff]
    refine or_congr Iff.rfl (and_congr_right fun hx => and_congr_right fun _ => not_congr ?_)
    refine ⟨fun hxk => ?_, fun hxk => ?_⟩
    · rw [List.inj_on_of_nodup_map hids hx hk hxk]
    · rw [hkeyed.keyword_eq hx hk hxk]
  have hrefs : ∀ p, db'.references p + (if k.placeId = p then 1 else 0) = db.references p := by
    intro p
    rw [references_eq, references_eq, hrows, hperm.countP_eq, List.countP_cons,
      countP_two hkeyed hids hk hl hne hplace p]
    simp only [decide_eq_true_eq, hplace]
    omega
  refine ⟨db', hrun, fun name p => ?_, fun x hold hnew => ?_, fun p hmaps => ?_, fun p hp => ?_⟩
  · constructor
    · rintro ⟨x, hx, rfl, rfl⟩
      rcases (hmem x).mp hx with rfl | ⟨hx, hnew, hold⟩
      · exact .inl ⟨rfl, hplace⟩
      · exact .inr ⟨hold, hnew, maps_of_mem hx⟩
    · rintro (⟨rfl, rfl⟩ | ⟨hold, hnew, x, hx, rfl, rfl⟩)
      · exact ⟨_, (hmem _).mpr (.inl rfl), rfl, hplace⟩
      · exact ⟨x, (hmem _).mpr (.inr ⟨hx, hnew, hold⟩), rfl, rfl⟩
  · rw [hmem]
    constructor
    · rintro (rfl | ⟨hx, -⟩)
      · exact absurd rfl hnew
      · exact hx
    · exact fun hx => .inr ⟨hx, hnew, hold⟩
  · obtain rfl := (hkeyed.maps_iff hl).mp hmaps
    rw [hcount, hplace, if_pos rfl, if_neg (by omega)]
  · have hrefs := hrefs p
    rw [hcount]
    split
    next heq =>
      subst heq
      rw [if_pos rfl] at hrefs
      rw [← hrefs]
      push_cast
      congr 1
      omega
    next hne =>
      rw [if_neg (Ne.symm hne), Nat.add_zero] at hrefs
      rw [hrefs] at hp ⊢
      exact h p hp

end SamePlace

end Rename

/-- Both names are no keywords, or both are and a keyword is not to be replaced, or is to be by one
of the same place. -/
def Db.RenameSafe (db : Db) (oldName newName : Bytes) (noreplace : Bool) : Prop :=
  ((∀ place, ¬db.Maps oldName place) ∧ ∀ place, ¬db.Maps newName place) ∨
  ∃ k ∈ db.keywords, ∃ l ∈ db.keywords, k.keyword = oldName ∧ l.keyword = newName ∧
    (noreplace = true ∨ 0 ≤ k.id ∧ l.placeId = k.placeId)

section Right

variable {noreplace : Bool}

theorem releaseKeyword_missing (hold : ∀ place, ¬db.Maps oldName place) :
    releaseKeyword db oldName noreplace = .ok (0, db) := by
  rw [releaseKeyword, mozkwLookup, find_keyword_none hold]

theorem mozkwRename_missing (hold : ∀ place, ¬db.Maps oldName place)
    (hnew : ∀ place, ¬db.Maps newName place) :
    mozkwRename db oldName newName noreplace = .error .noent := by
  simp only [mozkwRename, releaseKeyword_missing hold, updateKeywordId, find_keyword_none hnew,
    bind, Except.bind,
    if_true]

theorem mozkwRename_unmissed (hkeyed : db.Keyed) (hold : ∀ place, ¬db.Maps oldName place)
    (hl : l ∈ db.keywords) :
    ∃ db', mozkwRename db oldName l.keyword noreplace = .ok ((), db') := by
  simp only [mozkwRename, releaseKeyword_missing hold, updateKeywordId, find_keyword hkeyed hl,
    bind, Except.bind,
    bound, if_neg (lt_irrefl (0 : ℤ)), one_ne_zero, if_false]
  exact ⟨_, rfl⟩

theorem mozkwRename_noreplace (hkeyed : db.Keyed) (hk : k ∈ db.keywords) :
    mozkwRename db k.keyword newName true = .error .exist := by
  simp only [mozkwRename, releaseKeyword, mozkwLookup, find_keyword hkeyed hk, if_true,
    bind, Except.bind]

theorem mozkwRename_right (hkeyed : db.Keyed) (hids : (db.keywords.map (·.id)).Nodup)
    (h : db.Counted) (hne : oldName ≠ newName) : KeywordRename db oldName newName noreplace
      (some (transaction (fun db => mozkwRename db oldName newName noreplace) db)) ↔
        db.RenameSafe oldName newName noreplace := by
  constructor
  · intro right
    by_cases hold : ∃ place, db.Maps oldName place
    · obtain ⟨_, k, hk, rfl, rfl⟩ := hold
      have hdone : ((∃ place, db.Maps newName place) → noreplace = false) → ∃ db',
          mozkwRename db k.keyword newName noreplace = .ok ((), db') ∧
            db.Renames db' k.keyword newName k.placeId := by
        intro hreplace
        obtain ⟨db', hresult, hrenames⟩ := right.done _ (maps_of_mem hk) hreplace
        refine ⟨db', ?_, hrenames⟩
        rw [Option.some_inj, transaction] at hresult
        split at hresult
        · rename_i hrun
          cases hresult
          exact hrun
        · cases hresult
      by_cases hnew : ∃ place, db.Maps newName place
      · obtain ⟨_, l, hl, rfl, rfl⟩ := hnew
        refine .inr ⟨k, hk, l, hl, rfl, rfl, ?_⟩
        cases noreplace with
        | true => exact .inl rfl
        | false =>
          obtain ⟨db', hrun, hrenames⟩ := hdone fun _ => rfl
          obtain ⟨⟨place, hbefore, hafter⟩, hid⟩ := mozkwRename_kept hkeyed hrun
          refine .inr ⟨hid k hk rfl, ?_⟩
          rw [← (hkeyed.maps_iff hl).mp hbefore]
          rcases (hrenames.maps _ _).mp hafter with ⟨-, hplace⟩ | ⟨-, hother, -⟩
          · exact hplace
          · exact absurd rfl hother
      · obtain ⟨db', hrun, -⟩ := hdone fun hsome => absurd hsome hnew
        obtain ⟨⟨place, hmaps, -⟩, -⟩ := mozkwRename_kept hkeyed hrun
        exact absurd ⟨place, hmaps⟩ hnew
    · have hold := not_exists.mp hold
      by_cases hnew : ∃ place, db.Maps newName place
      · obtain ⟨_, l, hl, rfl, rfl⟩ := hnew
        obtain ⟨db', hrun⟩ : ∃ db', mozkwRename db oldName l.keyword noreplace = .ok ((), db') :=
          mozkwRename_unmissed hkeyed hold hl
        have hresult := right.missing hold
        rw [Option.some_inj, transaction, hrun] at hresult
        cases hresult
      · exact .inl ⟨hold, not_exists.mp hnew⟩
  · rintro (⟨hold, hnew⟩ | ⟨k, hk, l, hl, rfl, rfl, hsafe⟩)
    · refine ⟨fun _ => ?_, fun hsome => ?_, fun place hmaps => absurd hmaps (hold place)⟩
      · rw [transaction, mozkwRename_missing hold hnew]
      · exact absurd hsome (not_exists.mpr hold)
    · cases noreplace with
      | true =>
        refine ⟨fun hold => absurd (maps_of_mem hk) (hold _), fun _ _ _ => ?_,
          fun _ _ hreplace => ?_⟩
        · rw [transaction, mozkwRename_noreplace hkeyed hk]
        · exact absurd (hreplace ⟨_, maps_of_mem hl⟩) (fun h => by cases h)
      | false =>
        obtain ⟨hid, hplace⟩ := hsafe.resolve_left (fun h => by cases h)
        obtain ⟨db', hrun, hrenames⟩ := mozkwRename_same hkeyed hids hk hl hne hplace h hid
        refine ⟨fun hold => absurd (maps_of_mem hk) (hold _), fun _ _ h => (by cases h),
          fun place hmaps _ => ?_⟩
        obtain rfl := (hkeyed.maps_iff hk).mp hmaps
        exact ⟨db', by rw [transaction, hrun], hrenames⟩

end Right

/-- A keyword is renamed right if and only if the program does not stop, and either nothing is to
be done, or what is done to the wrong keyword is no different. -/
theorem keyword_rename (unreachable : Unreachable) (env : Env) (ctx : Ctx) (parentId : ℤ)
    (oldName newName : CString) (hne : oldName ≠ newName) (noreplace : Bool) (db : Db)
    (hkeyed : db.Keyed) (hids : (db.keywords.map (·.id)).Nodup) (h : db.Counted) :
    KeywordRename db oldName.val newName.val noreplace
        (bookmarkRenameType unreachable env ctx parentId oldName parentId newName .keyword
          noreplace db) ↔
      unreachable = .nothing ∧ db.RenameSafe oldName.val newName.val noreplace := by
  have hval : oldName.val ≠ newName.val := fun heq => hne (Subtype.ext heq)
  rw [bookmarkRenameType.eq_def, if_pos rfl]
  cases unreachable with
  | stops =>
    refine ⟨fun right => ?_, fun ⟨hnothing, _⟩ => nomatch hnothing⟩
    -- Whatever the tables hold, the claim asks for a result.
    by_cases hold : ∃ place, db.Maps oldName.val place
    · obtain ⟨place, hmaps⟩ := hold
      by_cases hreplace : (∃ place, db.Maps newName.val place) → noreplace = false
      · obtain ⟨db', hresult, -⟩ := right.done place hmaps hreplace
        cases hresult
      · obtain ⟨hnew, hnoreplace⟩ := Classical.not_imp.mp hreplace
        cases right.exist ⟨place, hmaps⟩ hnew (by simpa using hnoreplace)
    · cases right.missing (not_exists.mp hold)
  | nothing =>
    dsimp only
    rw [if_neg fun heq => hne heq.1]
    simp only [if_neg hne, true_and]
    exact mozkwRename_right hkeyed hids h hval

/-- A place with two keywords -/
def doubled : Db := { tagged with
  places := [⟨1, [120, 58], none, none, 4, mozplaceUrlHash [120, 58], 1⟩]
  keywords := [⟨1, [107], 1⟩, ⟨2, [109], 1⟩]
  keywordSeq := 2 }

theorem keyword_rename_doubled : KeywordRename doubled [107] [109] false
    (bookmarkRenameType .nothing ⟨⟨0, 0⟩, 0⟩ ⟨1, 3, false, true⟩ 0 ⟨[107], by decide⟩ 0
      ⟨[109], by decide⟩ .keyword
      false doubled) := by
  have hkeyed : doubled.Keyed :=
    ⟨by unfold Db.KeysUnique; decide, by decide, by decide, by decide +kernel⟩
  refine (keyword_rename .nothing ⟨⟨0, 0⟩, 0⟩ ⟨1, 3, false, true⟩ 0 ⟨[107], by decide⟩
    ⟨[109], by decide⟩ (by decide)
    false doubled hkeyed (by decide) (by decide +kernel)).mpr ⟨rfl, .inr ?_⟩
  exact ⟨⟨1, [107], 1⟩, by decide, ⟨2, [109], 1⟩, by decide, rfl, rfl, .inr ⟨by decide, rfl⟩⟩

/-- The only keyword cannot be renamed: the program stops, or does not find a keyword with
the new name. -/
theorem keyword_not_renamed : tagged.Keyed ∧ tagged.Counted ∧
    ¬∃ unreachable, KeywordRename tagged [107] [109] false
    (bookmarkRenameType unreachable ⟨⟨0, 0⟩, 0⟩ ⟨1, 3, false, true⟩ 0 ⟨[107], by decide⟩ 0
      ⟨[109], by decide⟩ .keyword
      false tagged) := by
  refine ⟨tagged_keyed, by decide +kernel, ?_⟩
  rintro ⟨unreachable, right⟩
  obtain ⟨db', hresult, -⟩ := right.done 1 ⟨⟨1, [107], 1⟩, by decide, rfl, rfl⟩ fun _ => rfl
  have hresult : (bookmarkRenameType unreachable ⟨⟨0, 0⟩, 0⟩ ⟨1, 3, false,
    true⟩ 0 ⟨[107], by decide⟩ 0
      ⟨[109], by decide⟩ .keyword false tagged).map Prod.fst = some (.ok ()) :=
        congrArg (Option.map Prod.fst) hresult
  revert hresult
  cases unreachable <;> decide +kernel

end BookmarkFS.Firefox
