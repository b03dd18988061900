import BookmarkFS.Firefox.Orphans

/-! # Reference counts

Each place that rows refer to counts them. The statements adjust the counts one
by one; what is to be shown is that over a call they add up.
-/
namespace BookmarkFS.Firefox
open Library
open Chromium (Errno PermdOp Timespec)

/-- The count of a place, if there is such a place. -/
def Db.count (db : Db) (place : ℤ) : Option ℤ :=
  (db.places.find? fun mp => mp.id = place).map (·.foreignCount)

/-- Each place that is referred to exists, and its count is the number of references. -/
def Db.Counted (db : Db) : Prop :=
  ∀ place, db.references place ≠ 0 → db.count place = some (db.references place : ℤ)

/-- The keys of the tables are keys; and no place has the identifier that stands for none. -/
structure Db.Keyed (db : Db) : Prop where
  rows : db.KeysUnique
  places : (db.places.map (·.id)).Nodup
  keywords : (db.keywords.map (·.keyword)).Nodup
  positive : ∀ mp ∈ db.places, 0 < mp.id

/-- What a call keeps: counts are right, and a place is deleted when its last reference
is given up. -/
structure Db.Keeps (db db' : Db) : Prop where
  keyed : db'.Keyed
  counted : db'.Counted
  gone : ∀ place, db.count place ≠ none →
    (db'.count place = none ↔ db.references place ≠ 0 ∧ db'.references place = 0)
  new : ∀ place, db.count place = none → db'.count place ≠ none → db'.references place ≠ 0

variable {db db' db₁ : Db} {place : ℤ}

/-! ## References -/

theorem references_eq (db : Db) (place : ℤ) : db.references place =
    db.bookmarks.countP (fun b => b.fk = some place) + db.keywords.countP fun k =>
    k.placeId = place := by
  rw [Db.references, List.countP_eq_length_filter, List.countP_eq_length_filter]

theorem references_congr (hrows : db'.bookmarks = db.bookmarks)
    (hkeywords : db'.keywords = db.keywords) :
    db'.references place = db.references place := by
  rw [Db.references, Db.references, hrows, hkeywords]

theorem references_map {g : MozBookmark → MozBookmark} (hrows : db'.bookmarks = db.bookmarks.map g)
    (hg : ∀ b, (g b).fk = b.fk) (hkeywords : db'.keywords = db.keywords) :
    db'.references place = db.references place := by
  rw [references_eq, references_eq, hrows, hkeywords, List.countP_map]
  simp only [Function.comp_def, hg]

theorem references_insert {b : MozBookmark} (hrows : db'.bookmarks = db.bookmarks ++ [b])
    (hkeywords : db'.keywords = db.keywords) :
    db'.references place = db.references place + if b.fk = some place then 1 else 0 := by
  rw [references_eq, references_eq, hrows, hkeywords, List.countP_append, List.countP_singleton]
  simp only [decide_eq_true_eq]
  omega

theorem one_if_some (p place : ℤ) :
    (if some p = some place then 1 else 0) = if place = p then 1 else 0 :=
  if_congr ⟨fun h => (Option.some.inj h).symm, fun h => congrArg some h.symm⟩ rfl rfl

theorem references_ne_zero : db.references place ≠ 0 ↔
    (∃ b ∈ db.bookmarks, b.fk = some place) ∨ ∃ k ∈ db.keywords, k.placeId = place := by
  rw [references_eq, ne_eq, Nat.add_eq_zero_iff,
    not_and_or, ← ne_eq, ← Nat.pos_iff_ne_zero, ← ne_eq,
    ← Nat.pos_iff_ne_zero, List.countP_pos_iff, List.countP_pos_iff]
  simp only [decide_eq_true_eq]

theorem countP_key {α β : Type} [DecidableEq β] {l : List α} {key : α → β} (h : (l.map key).Nodup)
    {a : α} (ha : a ∈ l) (p : α → Bool) :
    l.countP p = (l.filter fun b => key b ≠ key a).countP p + if p a then 1 else 0 := by
  induction l with
  | nil => cases ha
  | cons b l ih =>
    rw [List.map_cons, List.nodup_cons] at h
    rcases List.mem_cons.mp ha with rfl | ha'
    · have hrest : (l.filter fun b => key b ≠ key a) = l :=
        List.filter_eq_self.mpr fun b hb => decide_eq_true fun hkey =>
          h.1 (hkey ▸ List.mem_map_of_mem hb)
      rw [List.filter_cons, if_neg (by simp), hrest, List.countP_cons]
    · have hne : key b ≠ key a := fun hkey => h.1 (hkey ▸ List.mem_map_of_mem ha')
      rw [List.filter_cons, if_pos (decide_eq_true hne), List.countP_cons,
        List.countP_cons, ih h.2 ha']
      omega

def Db.without (db : Db) (id : ℤ) : Db :=
  { db with bookmarks := db.bookmarks.filter fun b => bound id ≠ some b.id }

theorem references_without (h : db.KeysUnique) {mb : MozBookmark} (hmb : mb ∈ db.bookmarks)
    (hid : 0 ≤ mb.id) :
    db.references place = (db.without mb.id).references place + if mb.fk = some place then
    1 else 0 := by
  have hfilter : (db.bookmarks.filter fun b => bound mb.id ≠ some b.id) =
      db.bookmarks.filter fun b => b.id ≠ mb.id := by
    refine List.filter_congr fun b _ => decide_eq_decide.mpr (not_congr ?_)
    rw [bound_eq_some]
    exact ⟨fun h => h.2.symm, fun h => ⟨hid, h.symm⟩⟩
  rw [references_eq, references_eq, Db.without, hfilter, countP_key h hmb]
  simp only [decide_eq_true_eq]
  omega

/-- A row goes from one place to another. -/
theorem references_rehome (hkeys : db.KeysUnique) {mb : MozBookmark} (hmb : mb ∈ db.bookmarks)
    {p new : ℤ} (hp : mb.fk = some p) {g : MozBookmark → MozBookmark}
    (hrows : db'.bookmarks = db.bookmarks.map g)
    (hg : ∀ b ∈ db.bookmarks, (g b).fk = if b.id = mb.id then some new else b.fk)
    (hkeywords : db'.keywords = db.keywords) (place : ℤ) :
    (db'.references place + if place = p then 1 else 0) =
      db.references place + if place = new then 1 else 0 := by
  have hother : ((db.bookmarks.filter fun b => b.id ≠ mb.id).countP fun b =>
    (g b).fk = some place) =
      (db.bookmarks.filter fun b => b.id ≠ mb.id).countP fun b => b.fk = some place := by
    refine List.countP_congr fun b hb => ?_
    obtain ⟨hb, hne⟩ := List.mem_filter.mp hb
    rw [hg b hb, if_neg (of_decide_eq_true hne)]
  rw [references_eq, references_eq, hrows, hkeywords, List.countP_map]
  have hafter := countP_key hkeys hmb fun b => (g b).fk = some place
  have hbefore := countP_key hkeys hmb fun b => b.fk = some place
  simp only [hg mb hmb, hp, if_true, decide_eq_true_eq, one_if_some] at hafter hbefore
  simp only [Function.comp_def]
  omega

theorem references_purgeRows {id : ℤ} :
    (purgeRows db id).references place = if place = id then 0 else db.references place := by
  rw [references_eq, references_eq, purgeRows, List.countP_filter, List.countP_filter]
  split
  next h =>
    subst h
    simp
  next h =>
    congr 1 <;> refine List.countP_congr fun x _ => ?_ <;> simp only [Bool.and_eq_true,
      decide_eq_true_eq]
    · exact ⟨fun h => h.1, fun hx => ⟨hx, fun h' => h (Option.some.inj (hx.symm.trans h'))⟩⟩
    · exact ⟨fun h => h.1, fun hx => ⟨hx, fun h' => h (hx.symm.trans h')⟩⟩

/-! ## Counts -/

theorem count_ne_none : db.count place ≠ none ↔ place ∈ db.places.map (·.id) := by
  rw [Db.count, ne_eq, Option.map_eq_none_iff, List.find?_eq_none, List.mem_map]
  simp only [decide_eq_true_eq, not_forall, not_not, exists_prop]

theorem count_congr (hplaces : db'.places = db.places) : db'.count place = db.count place := by
  rw [Db.count, Db.count, hplaces]

theorem count_map {f : MozPlace → MozPlace} (hplaces : db'.places = db.places.map f)
    (hf : ∀ mp, (f mp).id = mp.id) :
    db'.count place = (db.places.find? fun mp => mp.id = place).map fun mp =>
    (f mp).foreignCount := by
  rw [Db.count, hplaces, List.find?_map, Option.map_map]
  simp only [Function.comp_def, hf]

theorem count_adjust {id : ℤ} (f : ℤ → ℤ) : (updatePlaces db (·.id = id) fun mp =>
      { mp with foreignCount := f mp.foreignCount }).count place =
    if place = id then (db.count place).map f else db.count place := by
  rw [count_map rfl (fun mp => by split <;> rfl), Db.count, Option.map_map]
  cases hfind : db.places.find? fun mp => mp.id = place with
  | none => simp only [Option.map_none, ite_self]
  | some mp =>
    obtain rfl : mp.id = place := by simpa using List.find?_some hfind
    simp only [Option.map_some, decide_eq_true_eq, Function.comp_apply]
    split <;> rfl

theorem count_filter {id : ℤ} {origins : List MozOrigin} :
    ({ db with places := db.places.filter fun mp => ¬mp.id = id, origins := origins } : Db).count
    place =
      if place = id then none else db.count place := by
  rw [Db.count, List.find?_filter]
  split
  next h =>
    subst h
    rw [Option.map_eq_none_iff, List.find?_eq_none]
    simp
  next h =>
    rw [Db.count]
    congr 2
    funext mp
    by_cases hmp : mp.id = place
    · simp [hmp, h]
    · simp [hmp]

theorem count_find {mp : MozPlace} {id : ℤ}
    (h : (db.places.find? fun mp => bound id = some mp.id) = some mp) :
    db.count id = some mp.foreignCount := by
  have hid : bound id = some mp.id := by simpa using List.find?_some h
  have hcond : (fun mp : MozPlace => decide (mp.id = id)) = fun mp : MozPlace =>
    decide (bound id = some mp.id) := by
    funext mp
    refine decide_eq_decide.mpr ?_
    rw [bound_eq_some]
    exact ⟨fun h => ⟨(bound_eq_some.mp hid).1, h.symm⟩, fun h => h.2.symm⟩
  rw [Db.count, hcond, h, Option.map_some]

/-- Giving up references: the place is deleted if none is left, and else it may be purged. -/
theorem mozplaceDelrefWith_cases {purge : Db → ℤ → Except Errno Db} {id n : ℤ}
    (h : mozplaceDelrefWith purge db id n = .ok db') : ∃ c db₁, db.count id = some c ∧
      (∀ place, db₁.count place = if place = id then (if c - n = 0 then none else some (c - n))
        else db.count place) ∧
      (db₁.bookmarks = db.bookmarks ∧ db₁.keywords = db.keywords ∧
        (db₁.places.map (·.id)).Sublist (db.places.map (·.id))) ∧
      if c - n = 0 then db' = db₁ else purge db₁ id = .ok db' := by
  rw [mozplaceDelrefWith] at h
  split at h
  · cases h
  next mp hfind =>
  have hcount := count_find hfind
  have hadjust : ∀ place, (updatePlaces db (·.id = id) fun mp =>
        { mp with foreignCount := mp.foreignCount - n }).count place =
      if place = id then (db.count place).map (· - n) else db.count place :=
      fun _ => count_adjust (· - n)
  have hids : (updatePlaces db (·.id = id) fun mp =>
      { mp with foreignCount := mp.foreignCount - n }).places.map (·.id) = db.places.map (·.id) :=
    updatePlaces_ids fun _ => rfl
  dsimp only at h
  split at h
  next hzero =>
    rw [mozplaceDelete] at h
    split at h
    swap
    · cases h
    refine ⟨mp.foreignCount, db', hcount, fun place => ?_, ?_, by rw [if_pos hzero]⟩ <;>
      rw [← Except.ok.inj h]
    · refine count_filter.trans ?_
      rw [if_pos hzero]
      split
      · rfl
      next hne => exact (hadjust place).trans (if_neg hne)
    · refine ⟨rfl, rfl, ?_⟩
      rw [← hids]
      exact List.filter_sublist.map _
  next hzero =>
    refine ⟨mp.foreignCount, updatePlaces db (·.id = id) fun mp =>
      { mp with foreignCount := mp.foreignCount - n }, hcount, fun place => ?_,
      ⟨rfl, rfl, hids ▸ List.Sublist.refl _⟩, by rw [if_neg hzero]; exact h⟩
    refine (hadjust place).trans ?_
    rw [if_neg hzero]
    split
    next hplace => rw [hplace, hcount, Option.map_some]
    · rfl

theorem mozplaceAddrefId_count {id : ℤ} (h : mozplaceAddrefId db id = .ok db') :
    (∀ place, db'.count place = if place = id then (db.count place).map (· + 1)
      else db.count place) ∧
      db'.places.map (·.id) = db.places.map (·.id) := by
  rw [mozplaceAddrefId] at h
  split at h <;> cases h
  exact ⟨fun _ => count_adjust (· + 1), updatePlaces_ids fun _ => rfl⟩

/-! ## What a call keeps -/

/-- A place is left as it was, or it is settled: it is gone just if nothing refers to
it any more. -/
def Db.Settles (db db' : Db) (place : ℤ) : Prop :=
  (db'.references place = db.references place ∧
    (db.references place ≠ 0 → db'.count place = db.count place) ∧
    (db'.count place = none ↔ db.count place = none)) ∨
  (db'.count place = (if db'.references place = 0 then none else some (db'.references place : ℤ)) ∧
    (db'.references place = 0 → db.references place ≠ 0))

theorem Db.Keeps.of_settles (h : db.Counted) (hkeyed : db'.Keyed)
    (hplaces : ∀ place, db.Settles db' place) :
    db.Keeps db' := by
  refine ⟨hkeyed, fun place hrefs => ?_, fun place hcount => ?_, fun place hnone hcount => ?_⟩
  · rcases hplaces place with ⟨hsame, hcount, -⟩ | ⟨hcount, -⟩
    · rw [hsame] at hrefs ⊢
      rw [hcount hrefs, h place hrefs]
    · rw [hcount, if_neg hrefs]
  · rcases hplaces place with ⟨hsame, -, hexists⟩ | ⟨hcount', hrefs⟩
    · rw [hexists, hsame]
      exact ⟨fun hnone => absurd hnone hcount, fun ⟨hne, hzero⟩ => absurd hzero hne⟩
    · rw [hcount', ite_eq_left_iff]
      constructor
      · intro hsome
        have hzero : db'.references place = 0 :=
          not_not.mp fun hne => absurd (hsome hne) (Option.some_ne_none _)
        exact ⟨hrefs hzero, hzero⟩
      · exact fun ⟨_, hzero⟩ hne => absurd hzero hne
  · rcases hplaces place with ⟨-, -, hexists⟩ | ⟨hcount', -⟩
    · exact absurd (hexists.mpr hnone) hcount
    · intro hzero
      rw [hcount', if_pos hzero] at hcount
      exact hcount rfl

theorem Db.Keyed.sublist (h : db.Keyed)
    (hrows : (db'.bookmarks.map (·.id)).Sublist (db.bookmarks.map (·.id)))
    (hplaces : (db'.places.map (·.id)).Sublist (db.places.map (·.id)))
    (hkeywords : (db'.keywords.map (·.keyword)).Sublist (db.keywords.map (·.keyword))) :
    db'.Keyed where
  rows := List.Nodup.sublist hrows h.rows
  places := h.places.sublist hplaces
  keywords := h.keywords.sublist hkeywords
  positive mp hmp := by
    obtain ⟨mp', hmp', hid⟩ := List.mem_map.mp (hplaces.subset (List.mem_map_of_mem hmp))
    exact hid ▸ h.positive mp' hmp'

/-- Neither keys nor references nor counts change. -/
structure Db.Alike (db db' : Db) : Prop where
  rows : (db'.bookmarks.map (·.id)) = db.bookmarks.map (·.id)
  places : (db'.places.map (·.id)) = db.places.map (·.id)
  keywords : db'.keywords = db.keywords
  references : ∀ place, db'.references place = db.references place
  count : ∀ place, db'.count place = db.count place

theorem Db.Keyed.alike (h : db.Keyed) (halike : db.Alike db') : db'.Keyed :=
  h.sublist (halike.rows ▸ List.Sublist.refl _) (halike.places ▸ List.Sublist.refl _)
    (halike.keywords ▸ List.Sublist.refl _)

theorem Db.Keeps.alike (h : db.Keeps db₁) (halike : db₁.Alike db') : db.Keeps db' where
  keyed := h.keyed.alike halike
  counted place := by
    rw [halike.references, halike.count]
    exact h.counted place
  gone place := by
    rw [halike.references, halike.count]
    exact h.gone place
  new place := by
    rw [halike.references, halike.count]
    exact h.new place

theorem Db.Keeps.refl (hkeyed : db.Keyed) (h : db.Counted) : db.Keeps db :=
  .of_settles h hkeyed fun _ => .inl ⟨rfl, fun _ => rfl, Iff.rfl⟩

theorem alike_update {p : MozBookmark → Bool} {f : MozBookmark → MozBookmark}
    (hf : ∀ b, (f b).id = b.id ∧ (f b).fk = b.fk) : db.Alike (updateBookmarks db p f) := by
  have hg : ∀ b, (if p b then f b else b).id = b.id ∧ (if p b then f b else b).fk = b.fk :=
    fun b => by
    split
    · exact hf b
    · exact ⟨rfl, rfl⟩
  refine ⟨?_, rfl, rfl, fun place => references_map rfl (fun b => (hg b).2) rfl, fun _ => rfl⟩
  rw [updateBookmarks, List.map_map]
  exact List.map_congr_left fun b _ => (hg b).1

theorem alike_updatePlaces {p : MozPlace → Bool} {f : MozPlace → MozPlace}
    (hf : ∀ mp, (f mp).id = mp.id ∧ (f mp).foreignCount = mp.foreignCount) :
    db.Alike (updatePlaces db p f) := by
  refine ⟨rfl, updatePlaces_ids fun mp => (hf mp).1, rfl, fun place => rfl, fun place => ?_⟩
  rw [count_map rfl (fun mp => by split <;> [exact (hf mp).1; rfl]), Db.count]
  congr 1
  funext mp
  split
  · exact (hf mp).2
  · rfl

/-- A reference has been given up: once the count is adjusted, it is right again, or
the place gone. -/
theorem release_cases (h : db.Counted) (hkeyed : db₁.Keyed) {p : ℤ}
    (hrefs : ∀ place, db.references place = db₁.references place + if place = p then 1 else 0)
    (hcount : ∀ place, db₁.count place = db.count place) {purge : Db → ℤ → Except Errno Db}
    (hrun : mozplaceDelrefWith purge db₁ p 1 = .ok db') :
    ∃ db₂, db₂.Keyed ∧ (∀ place, db₂.references place = db₁.references place) ∧
      (∀ place, db₂.count place = if place = p then
        (if db₁.references p = 0 then none else some (db₁.references p : ℤ)) else db.count place) ∧
      (db' = db₂ ∨ purge db₂ p = .ok db') := by
  obtain ⟨c, db₂, hc, hcount₂, ⟨hrows, hkeywords, hplaces⟩, hdone⟩ := mozplaceDelrefWith_cases hrun
  have hp := hrefs p
  rw [if_pos rfl] at hp
  rw [hcount, h p (by omega), Option.some.injEq] at hc
  refine ⟨db₂, hkeyed.sublist (hrows ▸ List.Sublist.refl _) hplaces
    (hkeywords ▸ List.Sublist.refl _),
    fun place => references_congr hrows hkeywords, fun place => ?_, ?_⟩
  · rw [hcount₂, hcount]
    by_cases hzero : db₁.references p = 0
    · rw [if_pos hzero, if_pos (show c - 1 = 0 by omega)]
    · rw [if_neg hzero, if_neg (show c - 1 ≠ 0 by omega),
        show c - 1 = (db₁.references p : ℤ) by omega]
  · split at hdone
    · exact .inl hdone
    · exact .inr hdone

theorem release_settles {p : ℤ}
    (hrefs : ∀ place, db.references place = db₁.references place + if place = p then 1 else 0)
    (hrefs' : ∀ place, db'.references place = db₁.references place)
    (hcount' : ∀ place, db'.count place = if place = p then
      (if db₁.references p = 0 then none else some (db₁.references p : ℤ)) else db.count place)
      (place : ℤ) :
    db.Settles db' place := by
  have hrefs := hrefs place
  by_cases hplace : place = p
  · subst hplace
    rw [if_pos rfl] at hrefs
    refine .inr ⟨?_, fun _ => by omega⟩
    rw [hcount', if_pos rfl, hrefs']
  · rw [if_neg hplace, Nat.add_zero] at hrefs
    refine .inl ⟨(hrefs' place).trans hrefs.symm, fun _ => ?_, ?_⟩ <;> rw [hcount', if_neg hplace]

theorem release_plain (h : db.Counted) (hkeyed : db₁.Keyed) {p : ℤ}
    (hrefs : ∀ place, db.references place = db₁.references place + if place = p then 1 else 0)
    (hcount : ∀ place, db₁.count place = db.count place)
    (hrun : mozplaceDelrefPlain db₁ p 1 = .ok db') :
    db.Keeps db' := by
  obtain ⟨db₂, hkeyed₂, hrefs₂, hcount₂, hdone⟩ := release_cases h hkeyed hrefs hcount hrun
  obtain rfl : db' = db₂ := hdone.elim id fun hdone => (Except.ok.inj hdone).symm
  exact .of_settles h hkeyed₂ (release_settles hrefs hrefs₂ hcount₂)

/-- A purge gives up all references at once. -/
theorem release_purge (h : db.Counted) (hkeyed : db₁.Keyed) {p : ℤ}
    (hrefs : ∀ place, db.references place = db₁.references place + if place = p then 1 else 0)
    (hcount : ∀ place, db₁.count place = db.count place) (hrun : mozplaceDelref db₁ p = .ok db') :
    db.Keeps db' := by
  obtain ⟨db₂, hkeyed₂, hrefs₂, hcount₂, hdone⟩ := release_cases h hkeyed hrefs hcount hrun
  have hkeeps : db.Keeps db₂ := .of_settles h hkeyed₂ (release_settles hrefs hrefs₂ hcount₂)
  rcases hdone with rfl | hpurge
  · exact hkeeps
  rw [mozplacePurge] at hpurge
  split at hpurge
  swap
  · cases hpurge
    exact hkeeps
  split at hpurge
  · cases hpurge
    exact hkeeps
  next hne =>
  obtain ⟨c, db₃, hc, hcount₃, ⟨hrows, hkeywords, hplaces⟩, hdone⟩ :=
    mozplaceDelrefWith_cases hpurge
  have hc' : c = db₂.references p := by
    have hp : db₂.count p = some c := hc
    rw [hkeeps.counted p hne, Option.some.injEq] at hp
    exact hp.symm
  obtain rfl : db' = db₃ := by
    rw [if_pos (by omega)] at hdone
    exact hdone
  have hrefs' : ∀ place, db'.references place = if place = p then 0 else db₂.references place :=
    fun place =>
    (references_congr hrows hkeywords).trans references_purgeRows
  refine .of_settles h (hkeyed₂.sublist (hrows ▸ List.filter_sublist.map _) hplaces
    (hkeywords ▸ List.filter_sublist.map _)) fun place => ?_
  by_cases hplace : place = p
  · subst hplace
    have hp := hrefs place
    rw [if_pos rfl] at hp
    refine .inr ⟨?_, fun _ => by omega⟩
    rw [hcount₃, if_pos rfl, if_pos (by omega), hrefs', if_pos rfl, if_pos rfl]
  · have hrefs := hrefs place
    rw [if_neg hplace, Nat.add_zero] at hrefs
    have hcount' : db'.count place = db.count place := by
      rw [hcount₃, if_neg hplace]
      exact (hcount₂ place).trans (if_neg hplace)
    refine .inl ⟨?_, fun _ => hcount', by rw [hcount']⟩
    rw [hrefs', if_neg hplace, hrefs₂, hrefs]

theorem acquire_keeps (h : db.Counted) (hkeyed : db'.Keyed) {p : ℤ}
    (hrefs : ∀ place, db'.references place = db.references place + if place = p then 1 else 0)
    (hcount : ∀ place, place ≠ p → db.references place ≠ 0 → db'.count place = db.count place)
    (hexists : ∀ place, place ≠ p → (db'.count place = none ↔ db.count place = none))
    (hp : db'.count p = some (db.references p + 1 : ℤ)) : db.Keeps db' := by
  refine .of_settles h hkeyed fun place => ?_
  have hrefs := hrefs place
  by_cases hplace : place = p
  · subst hplace
    rw [if_pos rfl] at hrefs
    refine .inr ⟨?_, fun hzero => by omega⟩
    rw [hp, hrefs, if_neg (Nat.succ_ne_zero _), Nat.cast_add, Nat.cast_one]
  · rw [if_neg hplace, Nat.add_zero] at hrefs
    exact .inl ⟨hrefs, hcount place hplace, hexists place hplace⟩

theorem Db.Keeps.alike_left (halike : db.Alike db₁) (h : db₁.Keeps db') : db.Keeps db' where
  keyed := h.keyed
  counted := h.counted
  gone place := by
    rw [← halike.references, ← halike.count]
    exact h.gone place
  new place := by
    rw [← halike.count]
    exact h.new place

theorem Db.Counted.alike (h : db.Counted) (halike : db.Alike db') : db'.Counted := fun place => by
  rw [halike.references, halike.count]
  exact h place

/-- The place of the URL is the only one that has it and is referred to, and it counts
nothing else. -/
def Db.UrlClean (db : Db) (url : Bytes) : Prop :=
  ∀ mp ∈ db.places, mp.urlHash = mozplaceUrlHash url → mp.url = url →
    (mp.id ≠ db.urlPlace url → db.references mp.id = 0) ∧
      (mp.id = db.urlPlace url → db.references mp.id = 0 → mp.foreignCount = 0)

theorem Db.Keyed.find_place (h : db.Keyed) {mp : MozPlace} (hmp : mp ∈ db.places) :
    (db.places.find? fun mp' => mp'.id = mp.id) = some mp := by
  have hsome : (db.places.find? fun mp' => mp'.id = mp.id).isSome = true :=
    List.find?_isSome.mpr ⟨mp, hmp, decide_eq_true rfl⟩
  obtain ⟨mp', hfind⟩ := Option.isSome_iff_exists.mp hsome
  have hid : mp'.id = mp.id := by simpa using List.find?_some hfind
  rw [hfind, List.inj_on_of_nodup_map h.places (List.mem_of_find?_eq_some hfind) hmp hid]

theorem Db.Counted.mem (h : db.Counted) (hrefs : db.references place ≠ 0) :
    place ∈ db.places.map (·.id) :=
  count_ne_none.mp (h place hrefs ▸ Option.some_ne_none _)

theorem Db.Counted.pos (h : db.Counted) (hkeyed : db.Keyed) (hrefs : db.references place ≠ 0) :
    0 < place := by
  obtain ⟨mp, hmp, rfl⟩ := List.mem_map.mp (h.mem hrefs)
  exact hkeyed.positive mp hmp

theorem Db.Counted.foreignCount_eq (h : db.Counted) (hkeyed : db.Keyed) {url : Bytes}
    (hclean : db.UrlClean url)
    {mp : MozPlace} (hmp : mp ∈ db.places) (hhere : mp.urlHash = mozplaceUrlHash url ∧ mp.url = url)
    (hurl : mp.id = db.urlPlace url) : mp.foreignCount = db.references mp.id := by
  by_cases hzero : db.references mp.id = 0
  · rw [(hclean mp hmp hhere.1 hhere.2).2 hurl hzero, hzero]
    rfl
  · have hcount := h mp.id hzero
    rw [Db.count, hkeyed.find_place hmp] at hcount
    exact Option.some.inj hcount

section NewPlace

variable {mp : MozPlace} (hplaces : db'.places = db.places ++ [mp])
  (hfresh : mp.id ∉ db.places.map (·.id))

include hplaces hfresh

theorem count_append_place (place : ℤ) :
    db'.count place = if place = mp.id then some mp.foreignCount else db.count place := by
  rw [Db.count, hplaces, List.find?_append, List.find?_singleton]
  by_cases hsame : place = mp.id
  · have hnone : db.places.find? (fun mp' => mp'.id = place) = none := by
      rw [List.find?_eq_none]
      intro mp' hmp' hid
      exact hfresh (hsame ▸ of_decide_eq_true hid ▸ List.mem_map_of_mem hmp')
    rw [hnone, Option.none_or, if_pos (decide_eq_true hsame.symm), if_pos hsame, Option.map_some]
  · rw [if_neg (by simpa using Ne.symm hsame), if_neg hsame, Option.or_none, Db.count]

theorem Db.Keyed.append_place (h : db.Keyed) (hrows : db'.bookmarks = db.bookmarks)
    (hkeywords : db'.keywords = db.keywords) (hpos : 0 < mp.id) : db'.Keyed := by
  refine ⟨?_, ?_, ?_, fun mp' hmp' => ?_⟩
  · rw [Db.KeysUnique, hrows]
    exact h.rows
  · rw [hplaces, List.map_append, List.nodup_append]
    refine ⟨h.places, List.nodup_singleton _, fun i hi j hj => ?_⟩
    rw [List.map_singleton, List.mem_singleton] at hj
    exact fun hij => hfresh (hj ▸ hij ▸ hi)
  · rw [hkeywords]
    exact h.keywords
  · rw [hplaces] at hmp'
    rcases List.mem_append.mp hmp' with hmp' | hmp'
    · exact h.positive mp' hmp'
    · rw [List.mem_singleton.mp hmp']
      exact hpos

end NewPlace

/-- A place gets a reference by its URL. -/
theorem mozplaceAddref_count (h : db.Counted) (hkeyed : db.Keyed) {url : Bytes}
    (hclean : db.UrlClean url) {r : ℤ × Option ℤ} (hrun : mozplaceAddref db url = .ok (r, db')) :
    db'.Keyed ∧ 0 < r.1 ∧ (∀ place, db'.references place = db.references place) ∧
      (∀ place, place ≠ r.1 → db.references place ≠ 0 → db'.count place = db.count place) ∧
      (∀ place, place ≠ r.1 → (db'.count place = none ↔ db.count place = none)) ∧
      db'.count r.1 = some (db.references r.1 + 1 : ℤ) := by
  obtain ⟨hrows, hkeywords⟩ := mozplaceAddref_rows hrun
  obtain ⟨-, hurl, -, -⟩ := mozplaceAddref_places hrun
  have hrefs : ∀ place, db'.references place = db.references place :=
    fun _ => references_congr hrows hkeywords
  have hpositive : ∀ id ∈ db.places.map (·.id), 0 < id := fun id hid => by
    obtain ⟨mp, hmp, rfl⟩ := List.mem_map.mp hid
    exact hkeyed.positive mp hmp
  rw [mozplaceAddref] at hrun
  split at hrun
  · cases hrun
  dsimp only at hrun
  split at hrun
  next mp hfind =>
    have hmp := List.mem_of_find?_eq_some hfind
    have hhere : mp.urlHash = mozplaceUrlHash url ∧ mp.url = url := by
      simpa only [Bool.and_eq_true, decide_eq_true_eq] using List.find?_some hfind
    obtain ⟨rfl, hdb⟩ := Prod.mk.inj (Except.ok.inj hrun)
    have hplaces : db'.places = db.places.map fun mp =>
        if mp.urlHash = mozplaceUrlHash url && mp.url = url then
          { mp with foreignCount := mp.foreignCount + 1 } else mp := by
      rw [← hdb]
      rfl
    have hids : db'.places.map (·.id) = db.places.map (·.id) := by
      rw [← hdb]
      exact updatePlaces_ids fun _ => rfl
    refine ⟨hkeyed.sublist (hrows ▸ List.Sublist.refl _) (hids ▸ List.Sublist.refl _)
      (hkeywords ▸ List.Sublist.refl _), hkeyed.positive mp hmp, hrefs, fun place hne hsome => ?_,
      fun place _ => ?_, ?_⟩
    · rw [count_map hplaces (fun mp => by split <;> rfl), Db.count]
      cases hplace : db.places.find? fun mp => mp.id = place with
      | none => rfl
      | some mp' =>
        obtain rfl : mp'.id = place := by simpa using List.find?_some hplace
        rw [Option.map_some, Option.map_some, if_neg]
        intro hcond
        simp only [Bool.and_eq_true, decide_eq_true_eq] at hcond
        exact hsome ((hclean mp' (List.mem_of_find?_eq_some hplace) hcond.1 hcond.2).1 (hurl ▸ hne))
    · rw [← not_iff_not, ← ne_eq, ← ne_eq, count_ne_none, count_ne_none, hids]
    · rw [count_map hplaces (fun mp => by split <;> rfl), hkeyed.find_place hmp, Option.map_some,
        if_pos (by simp only [hhere, decide_true, Bool.and_self]), ← h.foreignCount_eq hkeyed hclean
        hmp hhere hurl]
  next hfind =>
    obtain ⟨rfl, hdb⟩ := Prod.mk.inj (Except.ok.inj hrun)
    have hplaces : ∃ mp : MozPlace, mp.id = newRowid (db.places.map (·.id)) ∧ mp.foreignCount = 1 ∧
        db'.places = db.places ++ [mp] := by
      rw [← hdb]
      simp only [mozorigin_places]
      exact ⟨_, rfl, rfl, rfl⟩
    simp only [mozorigin_places] at hurl ⊢
    obtain ⟨mp, hmpid, hone, hplaces⟩ := hplaces
    have hfresh : mp.id ∉ db.places.map (·.id) := fun hmem =>
      absurd (lt_newRowid hmem) (hmpid ▸ lt_irrefl _)
    have hpos : 0 < mp.id := hmpid ▸ newRowid_pos hpositive
    have hcount := count_append_place hplaces hfresh
    rw [← hmpid]
    refine ⟨hkeyed.append_place hplaces hfresh hrows hkeywords hpos, hpos, hrefs,
      fun place hne _ => by rw [hcount, if_neg hne], fun place hne => by
      rw [hcount, if_neg hne], ?_⟩
    have hzero : db.references mp.id = 0 := not_not.mp fun hne => hfresh (h.mem hne)
    rw [hcount, if_pos rfl, hone, hzero]
    rfl

/-! ## Calls -/

theorem mozbmUpdate_alike {id r : ℤ} {dateAdded lastModified : Option ℤ}
    (h : mozbmUpdate db id none dateAdded lastModified = .ok (r, db')) : db.Alike db' := by
  obtain ⟨mb, -, -, -, ⟨g, hrows, hg⟩, hkeywords, hplaces⟩ := mozbmUpdate_cases h
  have hgfk : ∀ b, (g b).fk = b.fk := fun b => (hg b).2.2.trans (by split <;> rfl)
  refine ⟨?_, congrArg _ hplaces, hkeywords, fun _ => references_map hrows hgfk hkeywords,
    fun _ => count_congr hplaces⟩
  rw [hrows, List.map_map]
  exact List.map_congr_left fun b _ => (hg b).1

section Operations

variable {env : Env} {ctx : Ctx} (h : db.Counted) (hkeyed : db.Keyed)

include h hkeyed

/-- A row with a place, that is deleted, gives up the reference. -/
theorem mozbmDelete_keeps {mb : MozBookmark} (hmb : mb ∈ db.bookmarks) {isDir purge : Bool}
    (hkind : (mb.placeId = 0) = (isDir = true)) (hrun : mozbmDelete db mb isDir purge = .ok db') :
    db.Keeps db' := by
  have hkeyed₁ : (db.without mb.id).Keyed :=
    hkeyed.sublist (List.filter_sublist.map _) (List.Sublist.refl _) (List.Sublist.refl _)
  have hfk : ∀ place, mb.fk = some place → place ≠ 0 := fun place hfk =>
    (h.pos hkeyed (references_ne_zero.mpr (.inl ⟨mb, hmb, hfk⟩))).ne'
  rw [mozbmDelete] at hrun
  cases isDir with
  | true =>
    rw [if_pos rfl] at hrun
    split at hrun
    · cases hrun
    next hempty =>
      cases hrun
      have hnone : mb.fk = none := by
        cases hplace : mb.fk with
        | none => rfl
        | some place =>
          have hzero := hkind.mpr rfl
          rw [MozBookmark.placeId, hplace] at hzero
          exact absurd hzero (hfk place hplace)
      refine .of_settles h hkeyed₁ fun place => .inl ⟨?_, fun _ => rfl, Iff.rfl⟩
      rw [references_without hkeyed.rows hmb (not_lt.mp fun hneg => hempty (.inr hneg)), hnone]
      rfl
  | false =>
    rw [if_neg Bool.false_ne_true] at hrun
    split at hrun
    · cases hrun
    next hid =>
      obtain ⟨place, hplace⟩ : ∃ place, mb.fk = some place := by
        cases hplace : mb.fk with
        | none =>
          have hne : mb.placeId ≠ 0 := fun hzero => absurd (hkind.mp hzero) Bool.false_ne_true
          rw [MozBookmark.placeId, hplace] at hne
          exact absurd rfl hne
        | some place => exact ⟨place, rfl⟩
      have hrefs : ∀ q, db.references q = (db.without mb.id).references q + if q = mb.placeId then
        1 else 0 := by
        intro q
        rw [references_without hkeyed.rows hmb (not_lt.mp hid), MozBookmark.placeId, hplace,
          Option.getD_some, one_if_some]
      split at hrun
      · exact release_purge h hkeyed₁ hrefs (fun _ => rfl) hrun
      · exact release_plain h hkeyed₁ hrefs (fun _ => rfl) hrun

/-- A row that is inserted for a place in use takes a reference. -/
theorem tagRow_keeps {parentId dateAdded p entry : ℤ} {title : Option Bytes} {db₁ : Db}
    (hne : db.references p ≠ 0)
    (hinsert : mozbmInsert db parentId title dateAdded p = .ok (entry, db₁))
    (haddref : mozplaceAddrefId db₁ p = .ok db') : db.Keeps db' := by
  obtain ⟨b, hrows, ⟨hfresh, -⟩, hfk, -, hkeywords, hplaces⟩ := mozbmInsert_row hinsert
  rw [bound_eq_some.mpr ⟨(h.pos hkeyed hne).le, rfl⟩] at hfk
  obtain ⟨hcount, hids⟩ := mozplaceAddrefId_count haddref
  obtain ⟨hrows₂, hkeywords₂⟩ := mozplaceAddrefId_rows haddref
  rw [hplaces] at hids
  simp only [count_congr hplaces] at hcount
  refine acquire_keeps h ⟨keysUnique_insert hkeyed.rows (hrows₂.trans hrows) hfresh,
    hids ▸ hkeyed.places,
    hkeywords₂ ▸ hkeywords ▸ hkeyed.keywords, fun mp hmp => ?_⟩ (fun place => ?_)
    (fun place hplace _ => (hcount place).trans (if_neg hplace))
    (fun place hplace => by rw [hcount, if_neg hplace]) ?_
  · obtain ⟨mp', hmp', hid⟩ := List.mem_map.mp (hids ▸ List.mem_map_of_mem hmp)
    exact hid ▸ hkeyed.positive mp' hmp'
  · refine (references_insert (hrows₂.trans hrows) (hkeywords₂.trans hkeywords)).trans ?_
    rw [hfk, one_if_some]
  · rw [hcount, if_pos rfl, h _ hne, Option.map_some]

theorem tagEntryAdd_keeps {parentId id : ℤ} {name : Bytes} {stat : Stat}
    (hrun : tagEntryAdd env ctx parentId name id db = .ok (stat, db')) : db.Keeps db' := by
  obtain ⟨mb, entry, db₁, db₂, hlookup, -, hinsert, haddref, rfl⟩ := tagEntryAdd_cases hrun
  obtain ⟨hmb, -, hmbfk, -⟩ := mozbmLookupId_row hlookup
  have hne := references_ne_zero.mpr (.inl ⟨mb, hmb, hmbfk⟩)
  exact (tagRow_keeps h hkeyed hne hinsert haddref).alike (alike_update fun _ => ⟨rfl, rfl⟩)

/-- A keyword that is inserted for a place in use takes a reference. -/
theorem keywordRow_keeps {keyword : Bytes} {p : ℤ} {db₁ : Db} (hne : db.references p ≠ 0)
    (hinsert : mozkwInsert db keyword p = .ok db₁)
    (haddref : mozplaceAddrefId db₁ p = .ok db') : db.Keeps db' := by
  rw [mozkwInsert] at hinsert
  split at hinsert
  · cases hinsert
  next hnew =>
  obtain ⟨k, hkeyword, hplace, hrows, hkeywords, hplaces⟩ : ∃ k : MozKeyword, k.keyword = keyword ∧
      k.placeId = p ∧ db₁.bookmarks = db.bookmarks ∧ db₁.keywords = db.keywords ++ [k] ∧
        db₁.places = db.places := by
    cases hinsert
    exact ⟨_, rfl, rfl, rfl, rfl, rfl⟩
  obtain ⟨hcount, hids⟩ := mozplaceAddrefId_count haddref
  obtain ⟨hrows₂, hkeywords₂⟩ := mozplaceAddrefId_rows haddref
  rw [hplaces] at hids
  simp only [count_congr hplaces] at hcount
  rw [hrows] at hrows₂
  rw [hkeywords] at hkeywords₂
  refine acquire_keeps h ⟨?_, hids ▸ hkeyed.places, ?_, fun mp hmp => ?_⟩ (fun place => ?_)
    (fun place hplace _ => (hcount place).trans (if_neg hplace))
    (fun place hplace => by rw [hcount, if_neg hplace]) ?_
  · rw [Db.KeysUnique, hrows₂]
    exact hkeyed.rows
  · rw [hkeywords₂, List.map_append, List.nodup_append]
    refine ⟨hkeyed.keywords, List.nodup_singleton _, fun i hi j hj => ?_⟩
    rw [List.map_singleton, List.mem_singleton] at hj
    obtain ⟨k', hk', rfl⟩ := List.mem_map.mp hi
    exact fun hij => hnew ⟨k', hk', hij.trans (hj.trans hkeyword)⟩
  · obtain ⟨mp', hmp', hid⟩ := List.mem_map.mp (hids ▸ List.mem_map_of_mem hmp)
    exact hid ▸ hkeyed.positive mp' hmp'
  · rw [references_eq, references_eq, hrows₂, hkeywords₂, List.countP_append,
      List.countP_singleton, hplace]
    simp only [decide_eq_true_eq]
    rw [if_congr (eq_comm : p = place ↔ _) rfl rfl, Nat.add_assoc]
  · rw [hcount, if_pos rfl, h _ hne, Option.map_some]

theorem keywordCreate_keeps {keyword : Bytes} {id : ℤ} {stat : Stat}
    (hrun : keywordCreate ctx keyword id db = .ok (stat, db')) : db.Keeps db' := by
  obtain ⟨mb, db₁, hlookup, -, hinsert, haddref⟩ := keywordCreate_cases hrun
  obtain ⟨hmb, -, hmbfk, -⟩ := mozbmLookupId_row hlookup
  exact keywordRow_keeps h hkeyed (references_ne_zero.mpr (.inl ⟨mb, hmb, hmbfk⟩)) hinsert haddref

/-- A row that is inserted with its place, which is found or made -/
theorem createRow_keeps {parentId dateAdded id : ℤ} {title : Option Bytes} {isDir : Bool}
    {r : ℤ × Option Timespec} {db₁ : Db} (hclean : isDir = false → db.UrlClean aboutBlank)
    (hcreate : createPlace db isDir = .ok (r, db₁))
    (hinsert : mozbmInsert db₁ parentId title dateAdded r.1 = .ok (id, db')) : db.Keeps db' := by
  obtain ⟨b, hrows, ⟨hfresh, -⟩, hfk, -, hkeywords, hplaces⟩ := mozbmInsert_row hinsert
  rw [createPlace] at hcreate
  cases isDir with
  | true =>
    cases hcreate
    refine .of_settles h ⟨keysUnique_insert hkeyed.rows hrows hfresh, hplaces ▸ hkeyed.places,
      hkeywords ▸ hkeyed.keywords, hplaces ▸ hkeyed.positive⟩ fun place => .inl ⟨?_,
      fun _ => ?_, ?_⟩
    · rw [references_insert hrows hkeywords, hfk]
      rfl
    · exact count_congr hplaces
    · rw [count_congr hplaces]
  | false =>
    obtain ⟨⟨r', db₃⟩, haddref, hcreate⟩ := bind_eq_ok.mp hcreate
    cases hcreate
    obtain ⟨hkeyed₁, hpos, hrefs, hcount, hexists, hr⟩ :=
      mozplaceAddref_count h hkeyed (hclean rfl) haddref
    rw [bound_eq_some.mpr ⟨hpos.le, rfl⟩] at hfk
    refine acquire_keeps h ⟨keysUnique_insert hkeyed₁.rows hrows hfresh, hplaces ▸ hkeyed₁.places,
      hkeywords ▸ hkeyed₁.keywords, hplaces ▸ hkeyed₁.positive⟩ (fun place => ?_)
      (fun place hne hsome => (count_congr hplaces).trans (hcount place hne hsome))
      (fun place hne => by rw [count_congr hplaces, hexists place hne])
        ((count_congr hplaces).trans hr)
    rw [references_insert hrows hkeywords, hrefs, hfk, one_if_some]

theorem bookmarkDoCreate_keeps {parentId : ℤ} {name : Bytes} {isDir : Bool} {stat : Stat}
    (hclean : isDir = false → db.UrlClean aboutBlank)
    (hrun : bookmarkDoCreate env ctx parentId name isDir db = .ok (stat, db')) : db.Keeps db' := by
  obtain ⟨r, db₁, id, db₂, hcreate, hinsert, rfl⟩ := bookmarkDoCreate_cases hrun
  exact (createRow_keeps h hkeyed hclean hcreate hinsert).alike (alike_update fun _ => ⟨rfl, rfl⟩)

theorem mozkwDelete_keeps {keyword : Bytes} (hexists : ∃ k ∈ db.keywords, k.keyword = keyword)
    (hrun : mozkwDelete env db keyword = .ok db') : db.Keeps db' := by
  have hsome : (db.keywords.find? fun k => k.keyword = keyword).isSome = true := by
    obtain ⟨k, hk, hkeyword⟩ := hexists
    exact List.find?_isSome.mpr ⟨k, hk, decide_eq_true hkeyword⟩
  obtain ⟨k, hfind⟩ := Option.isSome_iff_exists.mp hsome
  have hkeyword : k.keyword = keyword := by simpa using List.find?_some hfind
  subst hkeyword
  rw [mozkwDelete, hfind, Option.map_some, Option.getD_some] at hrun
  refine release_plain h ?_ (fun place => ?_) (fun place => ?_) hrun
  · exact hkeyed.sublist (List.Sublist.refl _) (List.Sublist.refl _) (List.filter_sublist.map _)
  · rw [references_eq, references_eq, countP_key hkeyed.keywords (List.mem_of_find?_eq_some hfind)]
    simp only [decide_eq_true_eq]
    rw [if_congr (eq_comm : k.placeId = place ↔ _) rfl rfl, Nat.add_assoc]
  · rfl

/-- What it leaves where a row that refers to the place `old` is to refer to the place `new`: the
row does not yet, the counts already do. -/
structure Replaced (db db' : Db) (old new : ℤ) : Prop where
  bookmarks : db'.bookmarks = db.bookmarks
  keywords : db'.keywords = db.keywords
  keyed : db'.Keyed
  positive : 0 < new
  same : new = old → db'.count old = db.count old
  released : new ≠ old →
    db'.count old = if (db.references old - 1 : ℤ) = 0 then none
    else some (db.references old - 1 : ℤ)
  acquired : new ≠ old → db'.count new = some (db.references new + 1 : ℤ)
  kept : ∀ place, place ≠ old → place ≠ new → db.references place ≠ 0 →
    db'.count place = db.count place
  exists_iff : ∀ place, place ≠ old → place ≠ new → (db'.count place = none ↔ db.count place = none)

omit hkeyed h in
theorem Replaced.references {old new : ℤ} (R : Replaced db db' old new) (place : ℤ) :
    db'.references place = db.references place :=
  references_congr R.bookmarks R.keywords

theorem mozplaceReplace_url {url : Bytes} (hclean : db.UrlClean url) {old new : ℤ}
    (hne : db.references old ≠ 0) (hrun : mozplaceReplace db old (some url) = .ok (new, db')) :
    Replaced db db' old new := by
  obtain ⟨⟨r, dbₐ⟩, haddref, hrun⟩ := bind_eq_ok.mp hrun
  obtain ⟨db₄, hdelref, hrun⟩ := bind_eq_ok.mp hrun
  cases hrun
  obtain ⟨hkeyedₐ, hpos, hrefs, hcount, hexists, hr⟩ := mozplaceAddref_count h hkeyed hclean haddref
  obtain ⟨hrows, hkeywords⟩ := mozplaceAddref_rows haddref
  obtain ⟨c, db₅, hc, hcount', ⟨hrows', hkeywords', hplaces'⟩, hdone⟩ :=
    mozplaceDelrefWith_cases hdelref
  obtain rfl : db' = db₅ := by
    split at hdone
    · exact hdone
    · exact (Except.ok.inj hdone).symm
  have hother : r.1 ≠ old → c = db.references old := fun hdiff => by
    rw [hcount old (Ne.symm hdiff) hne, h old hne] at hc
    exact (Option.some.inj hc).symm
  refine ⟨hrows'.trans hrows, hkeywords'.trans hkeywords, ?_, hpos, fun hsame => ?_,
    fun hdiff => ?_, fun hdiff => ?_,
    fun place hold hnew hsome => ?_, fun place hold hnew => ?_⟩
  · exact hkeyedₐ.sublist (hrows' ▸ List.Sublist.refl _) hplaces' (hkeywords' ▸ List.Sublist.refl _)
  · have hsame : r.1 = old := hsame
    have hc' : c = db.references old + 1 := by
      rw [hsame] at hr
      exact Option.some.inj (hc.symm.trans hr)
    rw [hcount', if_pos rfl, if_neg (by omega), h old hne, hc', add_sub_cancel_right]
  · rw [hcount', if_pos rfl, hother hdiff]
  · rw [hcount', if_neg hdiff, hr]
  · rw [hcount', if_neg hold, hcount place hnew hsome]
  · rw [hcount', if_neg hold, hexists place hnew]

omit hkeyed in
theorem Replaced.keeps_same {old new : ℤ} (R : Replaced db db' old new) (hsame : new = old) :
    db.Keeps db' := by
  refine .of_settles h R.keyed fun place => .inl ⟨R.references place, fun hsome => ?_, ?_⟩
  · by_cases hplace : place = old
    · rw [hplace, R.same hsame]
    · exact R.kept place hplace (hsame ▸ hplace) hsome
  · by_cases hplace : place = old
    · rw [hplace, R.same hsame]
    · exact R.exists_iff place hplace (hsame ▸ hplace)

omit hkeyed in
/-- The row then refers to the new place. -/
theorem Replaced.keeps_moved {old new : ℤ} (R : Replaced db db' old new) (hdiff : new ≠ old)
    (hne : db.references old ≠ 0) (hkeyed₁ : db₁.Keyed)
    (hrefs : ∀ place, (db₁.references place + if place = old then 1 else 0) =
      db.references place + if place = new then 1 else 0)
    (hcount : ∀ place, db₁.count place = db'.count place) : db.Keeps db₁ := by
  refine .of_settles h hkeyed₁ fun place => ?_
  have hrefs := hrefs place
  rw [Db.Settles, hcount]
  by_cases hold : place = old
  · subst hold
    rw [if_pos rfl, if_neg (Ne.symm hdiff)] at hrefs
    refine .inr ⟨?_, fun _ => hne⟩
    rw [R.released hdiff]
    by_cases hzero : db₁.references place = 0
    · rw [if_pos hzero, if_pos (by omega)]
    · rw [if_neg hzero, if_neg (by omega), show (db.references place - 1 : ℤ) =
        db₁.references place by omega]
  rw [if_neg hold, Nat.add_zero] at hrefs
  by_cases hnew : place = new
  · subst hnew
    rw [if_pos rfl] at hrefs
    refine .inr ⟨?_, fun hzero => by omega⟩
    rw [R.acquired hdiff, if_neg (by omega), hrefs, Nat.cast_add, Nat.cast_one]
  · rw [if_neg hnew, Nat.add_zero] at hrefs
    exact .inl ⟨hrefs, R.kept place hold hnew, R.exists_iff place hold hnew⟩

/-- The reference of a row goes to the place of a URL. -/
theorem bookmarkSet_keeps (id : ℤ) (arg : SetArg)
    (hclean : ∀ val, arg = .url val → parseMozurl val ≠ none →
      (∃ b ∈ db.bookmarks, b.id = id ∧ b.fk ≠ none) →
      db.UrlClean val) : db.Keeps (bookmarkSet env ctx id arg db).2 := by
  refine bookmarkSet_cases id arg (.refl hkeyed h) fun {updates placeId db₁} hupdates hupdate => ?_
  obtain ⟨mb, hmb, hid, hplaceId, ⟨g, hrows, hg⟩, hkeywords, hplaces⟩ := mozbmUpdate_cases hupdate
  have hgfk : ∀ b, (g b).fk = b.fk := fun b => (hg b).2.2.trans (by split <;> rfl)
  have halike : db.Alike db₁ := mozbmUpdate_alike hupdate
  have h₁ := h.alike halike
  have hkeyed₁ := hkeyed.alike halike
  refine ⟨fun _ => (Db.Keeps.refl hkeyed h).alike halike,
    fun {url visit desc newPlaceId db₂} hplace hplaceId0 hrun => ?_⟩
  rw [mozplaceUpdate] at hrun
  obtain ⟨⟨newPlaceId', db₃⟩, hreplace, hrun⟩ := bind_eq_ok.mp hrun
  have hstamp : db₃.Alike db₂ ∧ db₂.bookmarks = db₃.bookmarks ∧ newPlaceId' = newPlaceId := by
    cases hrun
    exact ⟨alike_updatePlaces fun _ => ⟨rfl, rfl⟩, rfl, rfl⟩
  obtain ⟨hstamp, hrows₂, rfl⟩ := hstamp
  cases url with
  | none =>
    cases hreplace
    exact ⟨fun _ => ((Db.Keeps.refl hkeyed h).alike halike).alike hstamp, fun hne => absurd rfl hne⟩
  | some val =>
    obtain rfl := updates_url hupdates hplace
    have hmbfk : mb.fk = some placeId := by
      cases hfk : mb.fk with
      | none =>
        rw [hfk] at hplaceId
        exact absurd hplaceId hplaceId0
      | some fk =>
        rw [hfk] at hplaceId
        exact congrArg some hplaceId.symm
    have hclean₁ : db₁.UrlClean val := by
      obtain ⟨⟨r, dbₐ⟩, haddref, -⟩ := bind_eq_ok.mp hreplace
      have hclean := hclean val rfl (mozplaceAddref_places haddref).1
        ⟨mb, hmb, hid, hmbfk ▸ Option.some_ne_none _⟩
      intro mp hmp
      rw [Db.urlPlace, hplaces, halike.references]
      exact hclean mp (hplaces ▸ hmp)
    have hne : db₁.references placeId ≠ 0 := by
      rw [halike.references]
      exact references_ne_zero.mpr (.inl ⟨mb, hmb, hmbfk⟩)
    have R := mozplaceReplace_url h₁ hkeyed₁ hclean₁ hne hreplace
    refine ⟨fun hsame => .alike_left halike ((R.keeps_same h₁ hsame).alike hstamp),
      fun {r' db₆} hdiff hupdate' => ?_⟩
    obtain ⟨mb', hmb', hid', -, ⟨g', hrows', hg'⟩, hkeywords', hplaces'⟩ :=
      mozbmUpdate_cases hupdate'
    have hmbfk' : mb'.fk = some placeId := by
      rw [hrows₂, R.bookmarks, hrows] at hmb'
      obtain ⟨b, hb, rfl⟩ := List.mem_map.mp hmb'
      obtain rfl := hkeyed.rows.eq_of_id hb hmb ((hg b).1.symm.trans (hid'.trans hid.symm))
      exact (hgfk b).trans hmbfk
    have hkeyed₂ := R.keyed.alike hstamp
    have hfk : ∀ b ∈ db₂.bookmarks, (g' b).fk = if b.id = mb'.id then some newPlaceId'
      else b.fk := fun b _ => by
      rw [(hg' b).2.2, hid', bound_eq_some.mpr ⟨R.positive.le, rfl⟩]
      rfl
    have hkeyed₆ : db₆.Keyed := by
      refine hkeyed₂.sublist ?_ (hplaces' ▸ List.Sublist.refl _) (hkeywords' ▸ List.Sublist.refl _)
      rw [hrows', List.map_map]
      exact (List.map_congr_left fun b _ => (hg' b).1) ▸ List.Sublist.refl _
    refine .alike_left halike (R.keeps_moved h₁ hdiff hne hkeyed₆ (fun place => ?_) fun place =>
      (count_congr hplaces').trans (hstamp.count place))
    rw [references_rehome hkeyed₂.rows hmb' hmbfk' hrows' hfk hkeywords',
      hstamp.references, R.references]

end Operations

/-! ## Runs -/

/-- Where a bookmark is created, or gets a URL, the place of that URL is the only one that has it
and is referred to, and it counts nothing else; a keyword that is deleted exists. -/
def Call.Counting (ctx : Ctx) (db : Db) : Call → Prop
  | .create parentId name .bookmark false _ => parentId ≠ ctx.rootId →
    bookmarkDoLookup db ctx parentId (some name.val) .bookmark = .error .noent →
    db.UrlClean aboutBlank
  | .delete _ name .keyword _ => ∃ k ∈ db.keywords, k.keyword = name.val
  | .set id (.url val) =>
    parseMozurl val ≠ none → (∃ b ∈ db.bookmarks, b.id = id ∧ b.fk ≠ none) → db.UrlClean val
  | _ => True

/-- A name that is to be deleted does not exist. -/
def Call.Missing (ctx : Ctx) (db : Db) : Call → Prop
  | .delete _ name .keyword _ => ∀ k ∈ db.keywords, k.keyword ≠ name.val
  | .delete parentId name .tag false => bookmarkDoLookup db ctx parentId (some name.val)
      .tag = .error .noent
  | .delete parentId name _ _ => parentId ≠ ctx.rootId ∧ db.lookupTitle parentId name.val = none
  | _ => False

/-- The calls, successful or not. -/
def allCalls (ctx : Ctx) : System Db (Env × Call) Errno where
  init db := db.Keyed ∧ db.Counted
  legal db call := call.2.Counting ctx db
  step db call := .ok (call.2.run call.1 ctx db).2

section Runs

variable {env : Env} {ctx : Ctx}

theorem mozbmMove_alike {id newParent : ℤ} {newPos : Option ℤ} {newName : Option Bytes}
    (h : mozbmMove db id newParent newPos newName = .ok db') : db.Alike db' := by
  rw [mozbmMove] at h
  split at h
  · obtain ⟨pos, -, h⟩ := bind_eq_ok.mp h
    cases h
    exact alike_update fun _ => ⟨rfl, rfl⟩
  · cases h
    exact ⟨rfl, rfl, rfl, fun _ => rfl, fun _ => rfl⟩

theorem mozbmPosUpdate_alike (id newPos : ℤ) : db.Alike (mozbmPosUpdate db id newPos) :=
  alike_update fun _ => ⟨rfl, rfl⟩

theorem mozbmPosShift_alike {parent posStart posEnd newPos : ℤ} {op : PermdOp}
    (h : mozbmPosShift db parent posStart posEnd op = .ok (some (newPos, db'))) : db.Alike db' := by
  obtain ⟨p, d, rfl⟩ := mozbmPosShift_update h
  exact alike_update fun _ => ⟨rfl, rfl⟩

theorem bookmarkDoCreate_free {parentId : ℤ} {name : Bytes} {isDir : Bool} {stat : Stat}
    (hrun : bookmarkDoCreate env ctx parentId name isDir db = .ok (stat, db')) :
    parentId ≠ ctx.rootId ∧ bookmarkDoLookup db ctx parentId (some name) .bookmark =
    .error .noent := by
  rw [bookmarkDoCreate] at hrun
  split at hrun
  · cases hrun
  next hroot =>
  split at hrun
  · cases hrun
  next hlookup => exact ⟨hroot, hlookup⟩
  · cases hrun

theorem Call.run_counts (h : db.Counted) (hkeyed : db.Keyed) (env : Env) (ctx : Ctx) (call : Call)
    (hcounting : call.Counting ctx db) : db.Keeps (call.run env ctx db).2 := by
  have hrefl := Db.Keeps.refl hkeyed h
  have hstamp : ∀ {db' : Db} (id now : ℤ), db.Keeps db' → db.Keeps (mozbmMtimeUpdate db' id now) :=
    fun _ _ hkeeps => hkeeps.alike (alike_update fun _ => ⟨rfl, rfl⟩)
  refine Call.run_keeps hrefl call (fun hcall htype hrun => ?_)
    (fun _ => tagEntryAdd_keeps h hkeyed)
    (fun _ => keywordCreate_keeps h hkeyed) (fun hrun => ?_) (fun _ hrun => ?_)
      (fun hcall hrun => ?_)
    (fun {oldParentId oldName newParentId newName type noreplace} _ => ?_)
    (fun {parentId op name1 name2 type now} => ?_) fun {id arg} hcall => ?_
  · refine bookmarkDoCreate_keeps h hkeyed (fun hfile => ?_) hrun
    obtain ⟨hroot, hfree⟩ := bookmarkDoCreate_free hrun
    subst hcall hfile
    obtain rfl | ⟨-, hdir⟩ := htype
    swap
    · cases hdir
    exact hcounting hroot hfree
  · obtain ⟨mb, db₁, hlookup, hkind, hdelete, rfl⟩ := bookmarkDoDelete_cases hrun
    exact hstamp _ _ (mozbmDelete_keeps h hkeyed (mem_children.mp (mozbmLookup_child hlookup)).1
      hkind hdelete)
  · obtain ⟨stat, mb, entry, db₁, -, hlookup, hplace, hentry, hdelete, rfl⟩ :=
      tagEntryDelete_cases hrun
    obtain ⟨hmem, -, hfk⟩ := tagEntryLookup_row hentry
    refine hstamp _ _ (mozbmDelete_keeps h hkeyed hmem ?_ hdelete)
    rw [MozBookmark.placeId, hfk, Option.getD_some]
    exact propext ⟨fun hzero => absurd hzero hplace, fun h => by cases h⟩
  · subst hcall
    exact mozkwDelete_keeps h hkeyed hcounting hrun
  · refine bookmarkRename_cases _ _ _ _ _ _ hrefl hstamp fun hlookup hreplace hmove => ?_
    obtain ⟨rfl, rfl⟩ | ⟨newMb, hnew, hkind, hdelete, rfl⟩ := replaceTarget_cases hreplace
    · exact hrefl.alike (mozbmMove_alike hmove)
    refine (mozbmDelete_keeps h hkeyed (mem_children.mp (mozbmLookup_child hnew)).1 ?_
      hdelete).alike
      (mozbmMove_alike hmove)
    rw [← hkind, decide_eq_true_eq]
  · refine bookmarkPermute_cases _ _ _ _ _ _ hrefl hstamp (fun _ _ _ => ?_) fun _ _ hshift => ?_
    · exact (hrefl.alike (mozbmPosUpdate_alike _ _)).alike (mozbmPosUpdate_alike _ _)
    · exact (hrefl.alike (mozbmPosShift_alike hshift)).alike (mozbmPosUpdate_alike _ _)
  · subst hcall
    refine bookmarkSet_keeps h hkeyed id arg fun val hval => ?_
    subst hval
    exact hcounting

theorem transaction_error {α : Type} {op : Db → Except Errno (α × Db)} {err : Errno}
    (h : (transaction op db).1 = .error err) : (transaction op db).2 = db := by
  rw [transaction] at h ⊢
  split at h
  · cases h
  · rfl

/-- A call that fails changes nothing. -/
theorem Call.run_error (call : Call) {err : Errno} (h : (call.run env ctx db).1 = .error err) :
    (call.run env ctx db).2 = db := by
  cases call with
  | create parentId name type isDir id =>
    show (bookmarkCreate env ctx parentId name type isDir id db).2 = db
    simp only [Call.run] at h
    cases hreply : (bookmarkCreate env ctx parentId name type isDir id db).1 with
    | ok stat =>
      rw [hreply] at h
      cases h
    | error err' =>
      rw [hreply] at h
      exact transaction_error hreply
  | delete parentId name type isDir => exact transaction_error h
  | rename oldParentId oldName newParentId newName type noreplace =>
    simp only [Call.run, bookmarkRename] at h ⊢
    split at h
    next hroot => rw [if_pos hroot]
    next hroot =>
    rw [if_neg hroot]
    split at h
    · cases h
    next hsame =>
    rw [if_neg hsame]
    exact transaction_error h
  | permute parentId op name1 name2 type =>
    simp only [Call.run, bookmarkPermute] at h ⊢
    split at h
    next htype => rw [if_pos htype]
    next htype =>
    rw [if_neg htype]
    split at h
    next hname => rw [if_pos hname]
    next hname =>
    rw [if_neg hname]
    split at h
    next hname' => rw [if_pos hname']
    next hname' =>
    rw [if_neg hname']
    exact transaction_error h
  | set id arg =>
    simp only [Call.run, bookmarkSet] at h ⊢
    split at h
    · rfl
    · exact transaction_error h

theorem Call.run_missing (call : Call) (hcounting : call.Counting ctx db)
    (hmissing : call.Missing ctx db) :
    call.run env ctx db = (.error .noent, db) := by
  have htitle : ∀ {parentId : ℤ} {name : Bytes} {isDir : Bool}, parentId ≠ ctx.rootId →
      db.lookupTitle parentId name = none →
      transaction (bookmarkDoDelete env ctx parentId name isDir) db = (.error .noent, db) := by
    intro parentId name isDir hroot hnone
    rw [transaction, bookmarkDoDelete, if_neg hroot, mozbmLookup, hnone]
    rfl
  cases call with
  | delete parentId name type isDir =>
    cases type with
    | bookmark => exact htitle hmissing.1 hmissing.2
    | tag =>
      cases isDir with
      | true => exact htitle hmissing.1 hmissing.2
      | false =>
        show transaction (tagEntryDelete env ctx parentId name.val) db = _
        rw [transaction, tagEntryDelete, show bookmarkDoLookup db ctx parentId (some name.val)
          .tag = _ from hmissing]
        rfl
    | keyword =>
      obtain ⟨k, hk, hkeyword⟩ := hcounting
      exact absurd hkeyword (hmissing k hk)
  | _ => exact hmissing.elim

end Runs

theorem allCalls_counted (ctx : Ctx) : (allCalls ctx).Invariant fun db => db.Keyed ∧
    db.Counted where
  init _ h := h
  step db call db' h hcounting hstep := by
    cases hstep
    have hkeeps := call.2.run_counts h.2 h.1 call.1 ctx hcounting
    exact ⟨hkeeps.keyed, hkeeps.counted⟩

/-- In every run, counts are right, a place is deleted when its last reference is given up, a call
that fails changes nothing, and it fails for a name that does not exist. -/
theorem counts_right (ctx : Ctx) (db : Db) (hreach : (allCalls ctx).Reachable db) :
    db.Counted ∧ ∀ (env : Env) (call : Call), call.Counting ctx db →
      db.Keeps (call.run env ctx db).2 ∧
        (∀ err, (call.run env ctx db).1 = .error err → (call.run env ctx db).2 = db) ∧
        (call.Missing ctx db → call.run env ctx db = (.error .noent, db)) := by
  obtain ⟨hkeyed, hcounted⟩ := hreach.holds (allCalls_counted ctx)
  exact ⟨hcounted, fun env call hcounting => ⟨call.run_counts hcounted hkeyed env ctx hcounting,
    fun _ h => call.run_error h, call.run_missing hcounting⟩⟩

theorem counted_iff : db.Counted ↔
    (∀ b ∈ db.bookmarks, ∀ place ∈ b.fk, db.count place = some (db.references place : ℤ)) ∧
      ∀ k ∈ db.keywords, db.count k.placeId = some (db.references k.placeId : ℤ) := by
  constructor
  · exact fun h => ⟨fun b hb place hfk => h place (references_ne_zero.mpr (.inl ⟨b, hb, hfk⟩)),
      fun k hk => h k.placeId (references_ne_zero.mpr (.inr ⟨k, hk, rfl⟩))⟩
  · rintro ⟨hrows, hkeywords⟩ place hne
    rcases references_ne_zero.mp hne with ⟨b, hb, hfk⟩ | ⟨k, hk, rfl⟩
    · exact hrows b hb place hfk
    · exact hkeywords k hk

instance (db : Db) : Decidable db.Counted := decidable_of_iff _ counted_iff.symm

theorem tagged_keyed : tagged.Keyed :=
    ⟨by unfold Db.KeysUnique; decide, by decide, by decide, by decide +kernel⟩

/-- The last bookmark of a place goes, and takes its tag, its keyword and the place with it. -/
theorem counts_right_deleted :
    tagged.Counted ∧ tagged.Keeps ((Call.delete 2 ⟨[97], by decide⟩ .bookmark false).run ⟨⟨0, 0⟩, 0⟩
      ⟨1, 3, false, true⟩ tagged).2 ∧
    ((Call.delete 2 ⟨[97], by decide⟩ .bookmark false).run ⟨⟨0, 0⟩, 0⟩ ⟨1, 3, false, true⟩
      tagged).2.count 1 =
      none := by
  obtain ⟨hcounted, hcall⟩ := counts_right ⟨1, 3, false, true⟩ tagged
    (.init ⟨tagged_keyed, by decide +kernel⟩)
  exact ⟨hcounted, (hcall ⟨⟨0, 0⟩, 0⟩ (.delete 2 ⟨[97], by decide⟩ .bookmark false) trivial).1, by
    decide +kernel⟩

/-- A keyword that does not exist is deleted without an error, and a reference is given up that
nothing held. -/
theorem miscount_of_missing :
    tagged.Keyed ∧ tagged.Counted ∧
    ((Call.delete 0 ⟨[122], by decide⟩ .keyword false).run ⟨⟨0, 0⟩, 1⟩ ⟨1, 3, false, true⟩
      tagged).1 = .ok () ∧
    ¬((Call.delete 0 ⟨[122], by decide⟩ .keyword false).run ⟨⟨0, 0⟩, 1⟩ ⟨1, 3, false, true⟩
      tagged).2.Counted :=
  ⟨tagged_keyed, by decide +kernel, by decide +kernel, by decide +kernel⟩

end BookmarkFS.Firefox
