import BookmarkFS.Chromium.Fsck
import BookmarkFS.Library.Paging

/-! # What listings show

A listing walks over an array of children, and shows those whose entries have a
name. It agrees with lookups if the time stamps of the entries can be read: a
listing with attributes passes silently over an entry whose attributes cannot be
had, where a lookup fails, and a listing without attributes does not notice.
-/
namespace BookmarkFS.Chromium
open Library Hopscotch

variable {w : WordSize} {tb : Tables w} {ctx : Ctx w} {env : Env} {S : Finset EntryRef}

/-- What `parse_entry()` makes of an entry. -/
def Ctx.dirent (ctx : Ctx w) (withStat : Bool) (off : ℕ) (e : EntryRef) : Option Dirent :=
  let entry := ctx.ents e
  entry.name.bind fun name =>
    if withStat then
      (parseStats ctx.json entry entry.id).map fun stat =>
        ⟨name, off, entry.id, stat.valueLen, some (stat.atime, stat.mtime)⟩
    else some ⟨name, off, entry.id, if entry.children = none then some 0 else none, none⟩

/-- What `parse_entry()` makes of a node. -/
def Ctx.shown (tb : Tables w) (ctx : Ctx w) (withStat : Bool) (node : NodeRef) (off : ℕ) :
    Option Dirent :=
  match parseEntry tb ctx node off withStat with
  | .ok shown => shown
  | .error _ => none

theorem listChildren_eq {withStat : Bool} (callback : ListCallback) {nodes : List NodeRef} (idx : ℕ)
    (accepted : List Dirent) (hnodes : ∀ n ∈ nodes, ∀ off,
      parseEntry tb ctx n off withStat = .ok (ctx.shown tb withStat n off)) :
    listChildren tb ctx withStat callback nodes idx accepted =
      .ok (feed callback (offered (ctx.shown tb withStat) nodes idx) accepted) := by
  induction nodes generalizing idx accepted with
  | nil => rfl
  | cons n nodes ih =>
    have ih := fun idx accepted => ih idx accepted fun m hm => hnodes m (List.mem_cons_of_mem n hm)
    rw [listChildren, hnodes n List.mem_cons_self, ok_bind, offered]
    cases ctx.shown tb withStat n (idx + 1) with
    | none => exact ih (idx + 1) accepted
    | some entry =>
      show (if callback accepted entry ≠ 0 then _ else _) = Except.ok (if _ then _ else _)
      by_cases h : callback accepted entry ≠ 0
      · rw [if_pos h, if_pos h]
      · rw [if_neg h, if_neg h]
        exact ih (idx + 1) (accepted ++ [entry])

theorem shown_off {withStat : Bool} {n : NodeRef} {off : ℕ} {x : Dirent}
    (h : ctx.shown tb withStat n off = some x) : x.off = off := by
  have hrun : parseEntry tb ctx n off withStat = .ok (some x) := by
    rw [Ctx.shown] at h
    split at h
    next hrun => rw [hrun, h]
    · cases h
  have hok : ∀ {y : Dirent}, y.off = off → Except.ok (some y) = (.ok (some x) :
    Except Fault (Option Dirent)) →
      x.off = off := fun hy heq => Option.some.inj (Except.ok.inj heq) ▸ hy
  simp only [parseEntry] at hrun
  split at hrun
  · obtain ⟨r, -, hrun⟩ := bind_eq_ok.mp hrun
    split at hrun
    next e =>
      split at hrun
      next name hname =>
        -- with or without the GUID for a name
        generalize (if ctx.flags.filenameGuid then
          jsonStringValue (ctx.json.get (ctx.ents e).node .guid)
          else some name) = shownName at hrun
        cases shownName with
        | none => cases hrun
        | some name =>
          cases withStat with
          | false => exact hok rfl hrun
          | true =>
            obtain ⟨stat, -, rfl⟩ := Option.map_eq_some_iff.mp (Except.ok.inj hrun)
            rfl
      · cases hrun
    · cases hrun
  · cases hrun

/-- What a directory with the children `children` shows. -/
def Ctx.listing (tb : Tables w) (ctx : Ctx w) (withStat : Bool) (children : Value) : List Dirent :=
  offered (ctx.shown tb withStat) (ctx.json.elems children) 0

theorem parseStats_spec {json : Json} {entry : NodeEntry} {id : ℕ} {stat : Stat}
    (h : parseStats json entry id = some stat) :
    stat.id = id ∧ stat.valueLen.isNone = entry.children.isSome := by
  simp only [parseStats, Option.bind_eq_bind, Option.bind_eq_some_iff, Option.some.injEq] at h
  obtain ⟨_, -, _, -, _, -, _, -, rfl⟩ := h
  refine ⟨rfl, ?_⟩
  cases entry.children <;> rfl

theorem dirent_spec {withStat : Bool} {off : ℕ} {e : EntryRef} {x : Dirent}
    (h : ctx.dirent withStat off e = some x) :
    (ctx.ents e).name = some x.name ∧ x.id = (ctx.ents e).id ∧
      x.valueLen.isNone = (ctx.ents e).children.isSome ∧
      (withStat = true → ∃ stat, ctx.attributes e = .ok stat) := by
  obtain ⟨name, hname, h⟩ := Option.bind_eq_some_iff.mp h
  cases withStat with
  | false =>
    obtain rfl := Option.some.inj h
    refine ⟨hname, rfl, ?_, nofun⟩
    cases (ctx.ents e).children <;> rfl
  | true =>
    obtain ⟨stat, hstat, rfl⟩ := Option.map_eq_some_iff.mp h
    refine ⟨hname, rfl, (parseStats_spec hstat).2, fun _ => ⟨stat, ?_⟩⟩
    rw [Ctx.attributes, hstat]

section Readers

variable (I : Inv tb ctx S)

include I

theorem parseEntry_child {e : EntryRef} (he : e ∈ S) (hroot : e ≠ rootEntry) (withStat : Bool)
    (off : ℕ) : parseEntry tb ctx (ctx.ents e).node off withStat =
      .ok (ctx.dirent withStat off e) := by
  have hid := (I.forest.describes e he hroot).id
  obtain ⟨r, hrun, hlook⟩ := I.lookupId_spec (ctx.ents e).id
  obtain rfl := (hlook e).mpr ⟨he, rfl⟩
  simp only [parseEntry, hid, hrun, ok_bind, Ctx.dirent]
  cases hname : (ctx.ents e).name with
  | none => rfl
  | some name =>
    have hflag := I.title_mode he hroot (by simp [hname])
    simp only [hflag]
    cases withStat <;> rfl

theorem shown_child {e : EntryRef} (he : e ∈ S) (hroot : e ≠ rootEntry) (withStat : Bool)
    (off : ℕ) : ctx.shown tb withStat (ctx.ents e).node off = ctx.dirent withStat off e := by
  rw [Ctx.shown, parseEntry_child I he hroot]

theorem mem_elems_iff {p : EntryRef} (hp : p ∈ S) {children : Value}
    (hchildren : (ctx.ents p).children = some children) {n : NodeRef} :
    n ∈ ctx.json.elems children ↔ ∃ e ∈ S, e ≠ rootEntry ∧ (ctx.ents e).node = n ∧
      (ctx.ents e).parentId = (ctx.ents p).id := by
  constructor
  · intro hn
    cases children with
    | array a => exact I.forest.child_entry hp hchildren hn
    | string _ => cases hn
    | other _ => cases hn
  · rintro ⟨e, he, hroot, rfl, hparent⟩
    obtain ⟨q, hq, a, ha, hqid, hmem⟩ := I.forest.folder he hroot
    obtain rfl := I.forest.id_inj q hq p hp (hqid.trans hparent)
    obtain rfl : Value.array a = children := Option.some.inj (ha.symm.trans hchildren)
    exact hmem

theorem parseEntry_elems {p : EntryRef} (hp : p ∈ S) {children : Value}
    (hchildren : (ctx.ents p).children = some children) (withStat : Bool) :
    ∀ n ∈ ctx.json.elems children, ∀ off,
      parseEntry tb ctx n off withStat = .ok (ctx.shown tb withStat n off) := by
  intro n hn off
  obtain ⟨e, he, hroot, rfl, -⟩ := (mem_elems_iff I hp hchildren).mp hn
  rw [shown_child I he hroot, parseEntry_child I he hroot]

/-- `bookmark_list()` of a whole directory -/
theorem bookmarkList_eq (hload : storeLoad tb ctx env = .ok (none, ctx)) {id : ℕ} {p : EntryRef}
    (hp : Directory ctx S id p) {children : Value}
    (hchildren : (ctx.ents p).children = some children) (withStat : Bool) (callback : ListCallback)
    (cookie : Option ListCookie) :
    ∃ cookie', bookmarkList tb ctx env id 0 withStat (some callback) cookie =
      .ok ((.ok (feed callback (ctx.listing tb withStat children) []), cookie'), ctx) := by
  obtain ⟨hpS, hid, hname, -⟩ := hp
  obtain ⟨r, hrun, hlook⟩ := I.lookupId_spec id
  obtain rfl := (hlook p).mpr ⟨hpS, hid⟩
  have hdir : listDir tb ctx id 0 cookie = .ok (.ok (.live children, true)) := by
    cases cookie <;> simp only [listDir, hrun, ok_bind, hchildren, if_neg hname]
  have hnodes := parseEntry_elems I hpS hchildren withStat
  simp only [bookmarkList, hload, ok_bind, hdir, Children.nodes, List.drop_zero,
    listChildren_eq callback 0 [] hnodes]
  exact ⟨_, rfl⟩

/-- A listing shows the named children that it can show. -/
theorem mem_listing {id : ℕ} {p : EntryRef} (hp : Directory ctx S id p) {children : Value}
    (hchildren : (ctx.ents p).children = some children) {withStat : Bool} {x : Dirent} :
    x ∈ ctx.listing tb withStat children ↔ ∃ e k, Named ctx S id x.name e ∧
      (ctx.json.elems children)[k]? = some (ctx.ents e).node ∧
      ctx.dirent withStat (k + 1) e = some x := by
  rw [Ctx.listing, mem_offered]
  constructor
  · rintro ⟨k, n, hat, hshown⟩
    obtain ⟨e, he, hroot, rfl, hparent⟩ :=
      (mem_elems_iff I hp.1 hchildren).mp (List.mem_of_getElem? hat)
    rw [shown_child I he hroot, Nat.zero_add] at hshown
    have hname := (dirent_spec hshown).1
    exact ⟨e, k, ⟨mem_named.mpr ⟨he, hroot, by simp [hname]⟩, hparent.trans hp.2.1, hname⟩, hat,
      hshown⟩
  · rintro ⟨e, k, hnamed, hat, hshown⟩
    obtain ⟨he, hroot, -⟩ := mem_named.mp hnamed.1
    refine ⟨k, _, hat, ?_⟩
    rwa [shown_child I he hroot, Nat.zero_add]

theorem listed_of_named {id : ℕ} {p : EntryRef} (hp : Directory ctx S id p) {children : Value}
    (hchildren : (ctx.ents p).children = some children) {name : Bytes} {e : EntryRef}
    (he : Named ctx S id name e) : ∃ k : ℕ, (ctx.json.elems children)[k]? =
    some (ctx.ents e).node := by
  obtain ⟨heS, hroot, -⟩ := mem_named.mp he.1
  exact List.mem_iff_getElem?.mp ((mem_elems_iff I hp.1 hchildren).mpr
    ⟨e, heS, hroot, rfl, he.2.1.trans hp.2.1.symm⟩)

end Readers

/-- What the readers of a directory are to agree on: the name of an entry, its identifier, and
whether it is a directory. -/
def Dirent.brief (x : Dirent) : Bytes × ℕ × Bool := (x.name, x.id, x.valueLen.isNone)

/-- `bookmark_list()` of a whole directory shows `entries`. -/
def Lists (tb : Tables w) (ctx : Ctx w) (env : Env) (id : ℕ) (withStat : Bool)
    (entries : List Dirent) : Prop :=
  ∃ cookie, bookmarkList tb ctx env id 0 withStat (some fun _ _ => 0) none =
    .ok ((.ok (0, entries), cookie), ctx)

/-- Listings with and without attributes and lookups tell the same of a directory. -/
structure ReadersAgree (tb : Tables w) (ctx : Ctx w) (env : Env) (id : ℕ)
    (plain full : List Dirent) :
    Prop where
  without : Lists tb ctx env id false plain
  withStat : Lists tb ctx env id true full
  same : plain.map Dirent.brief = full.map Dirent.brief
  lookup : ∀ (name : CString) (i : ℕ) (isDir : Bool), (name.val, i, isDir) ∈
    plain.map Dirent.brief ↔
    ∃ stat, bookmarkLookup tb ctx env id (some name) = .ok (.ok stat, ctx) ∧ stat.id = i ∧
      stat.valueLen.isNone = isDir

theorem attributes_spec {e : EntryRef} {stat : Stat} (h : ctx.attributes e = .ok stat) :
    stat.id = (ctx.ents e).id ∧ stat.valueLen.isNone = (ctx.ents e).children.isSome := by
  rw [Ctx.attributes] at h
  split at h
  · cases h
  · next hparse => exact Except.ok.inj h ▸ parseStats_spec hparse

section Agreement

variable (I : Inv tb ctx S)

include I

/-- Entries that are shown without attributes are shown with them, if they have any. -/
theorem brief_shown {p : EntryRef} (hp : p ∈ S) {children : Value}
    (hchildren : (ctx.ents p).children = some children)
    (hstat : ∀ name e, Named ctx S (ctx.ents p).id name e → ∃ stat, ctx.attributes e = .ok stat) :
    (ctx.listing tb false children).map Dirent.brief = (ctx.listing tb true children).map
    Dirent.brief := by
  refine map_offered_congr fun n hn off => ?_
  obtain ⟨e, he, hroot, rfl, hparent⟩ := (mem_elems_iff I hp hchildren).mp hn
  rw [shown_child I he hroot, shown_child I he hroot]
  cases hname : (ctx.ents e).name with
  | none => simp only [Ctx.dirent, hname, Option.bind_none]
  | some name =>
    obtain ⟨stat, hstat⟩ :=
      hstat name e ⟨mem_named.mpr ⟨he, hroot, by simp [hname]⟩, hparent, hname⟩
    cases hparse : parseStats ctx.json (ctx.ents e) (ctx.ents e).id with
    | none => simp [Ctx.attributes, hparse] at hstat
    | some stat' =>
      have hlen := (parseStats_spec hparse).2
      simp only [Ctx.dirent, hname, hparse, Option.bind_some, Option.map_some, Bool.false_eq_true,
        if_false, if_true, Dirent.brief, hlen]
      cases (ctx.ents e).children <;> rfl

theorem listed_plain {id : ℕ} {p : EntryRef} (hp : Directory ctx S id p) {children : Value}
    (hchildren : (ctx.ents p).children = some children) {name : Bytes} {e : EntryRef}
    (he : Named ctx S id name e) : ∃ x ∈ ctx.listing tb false children,
      x.brief = (name, (ctx.ents e).id, (ctx.ents e).children.isSome) := by
  obtain ⟨k, hat⟩ := listed_of_named I hp hchildren he
  refine ⟨⟨name, k + 1, (ctx.ents e).id, if (ctx.ents e).children = none then some 0
    else none, none⟩,
    (mem_listing I hp hchildren).mpr ⟨e, k, he, hat, ?_⟩, ?_⟩
  · simp only [Ctx.dirent, he.2.2, Option.bind_some, Bool.false_eq_true, if_false]
  · simp only [Dirent.brief]
    cases (ctx.ents e).children <;> rfl

/-- The three readers agree on a directory just if the attributes of all its visible children can be
had. -/
theorem Inv.readersAgree_iff (hflag : ctx.flags.filenameGuid = false)
    (hload : storeLoad tb ctx env = .ok (none, ctx)) {id : ℕ} {p : EntryRef}
    (hp : Directory ctx S id p) :
    (∃ plain full, ReadersAgree tb ctx env id plain full) ↔
      ∀ name e, Named ctx S id name e → ∃ stat, ctx.attributes e = .ok stat := by
  obtain ⟨children, hchildren⟩ := Option.ne_none_iff_exists'.mp hp.2.2.2
  have hlist := fun withStat => by
    have := bookmarkList_eq I hload hp hchildren withStat (fun _ _ => 0) none
    rwa [feed_all] at this
  constructor
  · rintro ⟨plain, full, agree⟩ name e he
    obtain ⟨cookie, hplain⟩ := agree.without
    obtain ⟨cookie', hfull⟩ := agree.withStat
    obtain ⟨cookie₁, hplain'⟩ := hlist false
    obtain ⟨cookie₁', hfull'⟩ := hlist true
    obtain rfl : ctx.listing tb false children = plain := by
      simpa using congrArg (Prod.fst <$> Prod.fst <$> ·) (hplain'.symm.trans hplain)
    obtain rfl : ctx.listing tb true children = full := by
      simpa using congrArg (Prod.fst <$> Prod.fst <$> ·) (hfull'.symm.trans hfull)
    obtain ⟨x, hx, hbrief⟩ := listed_plain I hp hchildren he
    have hmem := agree.same ▸ List.mem_map_of_mem (f := Dirent.brief) hx
    obtain ⟨y, hy, hyx⟩ := List.mem_map.mp hmem
    obtain ⟨e', k, hnamed, -, hdirent⟩ := (mem_listing I hp hchildren).mp hy
    obtain ⟨-, hyid, -, hstat⟩ := dirent_spec hdirent
    have hid : (ctx.ents e').id = (ctx.ents e).id := by
      rw [hbrief] at hyx
      exact hyid.symm.trans (congrArg (fun b => b.2.1) hyx)
    obtain rfl := I.forest.id_inj e' (mem_named.mp hnamed.1).1 e (mem_named.mp he.1).1 hid
    exact hstat rfl
  · intro hstat
    refine ⟨_, _, hlist false, hlist true, brief_shown I hp.1 hchildren (hp.2.1 ▸ hstat), ?_⟩
    intro name i isDir
    rw [List.mem_map]
    constructor
    · rintro ⟨x, hx, hbrief⟩
      obtain ⟨e, k, hnamed, -, hdirent⟩ := (mem_listing I hp hchildren).mp hx
      obtain ⟨-, hxid, hdir, -⟩ := dirent_spec hdirent
      rw [Dirent.brief, Prod.mk.injEq, Prod.mk.injEq] at hbrief
      obtain ⟨hname, rfl, rfl⟩ := hbrief
      rw [hname] at hnamed
      obtain ⟨stat, hstat⟩ := hstat _ e hnamed
      have hanswers : Answers ctx S id name (.ok e) := ⟨⟨p, hp⟩, hnamed⟩
      have hlookup := bookmarkLookup_eq I hflag hload hanswers
      have hspec := attributes_spec hstat
      exact ⟨stat, hlookup.trans (by rw [ok_bind, hstat]), hspec.1.trans hxid.symm,
        hspec.2.trans hdir.symm⟩
    · rintro ⟨stat, hlookup, rfl, rfl⟩
      obtain ⟨r, -, hanswers⟩ := lookupEntry_spec I hflag id name
      rw [bookmarkLookup_eq I hflag hload hanswers] at hlookup
      have hlookup := (Prod.mk.inj (Except.ok.inj hlookup)).1
      cases r with
      | error err => cases hlookup
      | ok e =>
        obtain ⟨x, hx, hbrief⟩ := listed_plain I hp hchildren hanswers.2
        have hspec := attributes_spec (show ctx.attributes e = .ok stat from hlookup)
        exact ⟨x, hx, by rw [hbrief, hspec.1, hspec.2]⟩

end Agreement

/-- In every state that legal calls reach, the three readers agree on a directory just if the
attributes of all its visible children can be had. -/
theorem readers_agree_iff (digest : Bytes → Word w)
    (hreach : (backend (Tables.real digest)).Reachable ctx) (henv : env.WellFormed)
    (hflag : ctx.flags.filenameGuid = false)
    (hload : storeLoad (Tables.real digest) ctx env = .ok (none, ctx)) {p : EntryRef}
    (hp : ctx.idMap.Contains p) (hpname : (ctx.ents p).name ≠ none)
    (hpdir : (ctx.ents p).children ≠ none) :
    (∃ plain full, ReadersAgree (Tables.real digest) ctx env (ctx.ents p).id plain full) ↔
      ∀ name e, ctx.Visible (ctx.ents p).id name e → ∃ stat, ctx.attributes e = .ok stat := by
  have hf := Tables.real_faithful digest
  obtain ⟨-, -, hloaded⟩ :=
    (storeLoad_spec hf henv (hreach.holds (backend_consistent hf))).of_ok hload
  obtain ⟨-, -, S, I⟩ := hloaded rfl
  rw [I.readersAgree_iff hflag hload ⟨(I.entries p).mpr hp, rfl, hpname, hpdir⟩]
  exact forall₂_congr fun name e => by rw [I.visible_iff]

/-- The readers agree on a folder with a bookmark that is visible and one that is not. -/
theorem readers_agree_written : ∃ ctx, (backend colliding).Reachable ctx ∧
    ∃ plain full, ReadersAgree colliding ctx twoOfAName 1 plain full := by
  have h : Yields (fun _ => False)
      ((Call.lookup rootId none).run colliding (.created ⟨false, false, false⟩)
        twoOfAName) fun ctx =>
        ctx.watching = true ∧ ctx.loaded = true ∧ ctx.flags.filenameGuid = false ∧
        (1 ∈ ctx.idMap.visited ∧ (ctx.ents 1).id = 1 ∧ (ctx.ents 1).name ≠ none ∧
          (ctx.ents 1).children ≠ none) ∧
        ∀ e ∈ ctx.idMap.visited, (ctx.attributes e).isOk = true := by
    decide +kernel
  obtain ⟨ctx, hload, hwatching, hloaded, hflag, ⟨h1, hid, hname, hdir⟩, hstat⟩ := h.exists_ok
  have hwf : twoOfAName.WellFormed := Env.written_wellFormed (by decide +kernel)
  have hreach := reachable_created hwf hload
  have hagree := (readers_agree_iff (fun _ => 0) hreach hwf hflag
    (storeLoad_loaded hwatching hloaded rfl) ((Hashmap.mem_visited_iff _ 1).mp h1) hname hdir).mpr
    fun name e he => by
      have hok := hstat e ((Hashmap.mem_visited_iff _ e).mpr he.1)
      cases hattr : ctx.attributes e with
      | error err => rw [hattr] at hok; cases hok
      | ok stat => exact ⟨stat, rfl⟩
  rw [hid] at hagree
  exact ⟨ctx, hreach, hagree⟩

/-- A folder with a bookmark that does not tell when it was last used. -/
def neverUsed : Env :=
  .written (.written [writtenFolder 1 [65] 0,
    (writtenUrl 2 [97] []).filter fun member => member.1 ≠ .dateLastUsed] [[1]]) [0]

/-- A store that is accepted, with a bookmark that only one of the readers shows. -/
theorem never_used_unlisted : ∃ ctx : Ctx .w64,
    storeLoad colliding (.created ⟨false, false, false⟩) neverUsed = .ok (none, ctx) ∧
    ctx.idMap.Contains 1 ∧ (ctx.ents 1).name = some [65] ∧ (ctx.ents 1).children ≠ none ∧
    ¬∃ plain full, ReadersAgree colliding ctx neverUsed 1 plain full := by
  have h : Yields (fun _ => False) (storeLoad colliding (.created ⟨false, false, false⟩) neverUsed)
      fun r => r.1 = none ∧ 1 ∈ r.2.idMap.visited ∧ (r.2.ents 1).name = some [65] ∧
        (r.2.ents 1).children ≠ none ∧
        Yields (fun _ => False)
          (bookmarkList colliding r.2 neverUsed 1 0 false (some fun _ _ => 0) none)
          (fun r => r.1.1 = .ok (0, [⟨[97], 1, 2, some 0, none⟩])) ∧
        Yields (fun _ => False)
          (bookmarkList colliding r.2 neverUsed 1 0 true (some fun _ _ => 0) none)
          fun r => r.1.1 = .ok (0, []) := by
    decide +kernel
  obtain ⟨⟨_, ctx⟩, hload, rfl, hmem, hname, hdir, hplain, hfull⟩ := h.exists_ok
  refine ⟨ctx, hload, (Hashmap.mem_visited_iff _ 1).mp hmem, hname, hdir, ?_⟩
  rintro ⟨plain, full, agree⟩
  obtain ⟨cookie, hplain'⟩ := agree.without
  obtain ⟨cookie', hfull'⟩ := agree.withStat
  have hplain := (Prod.mk.inj (Except.ok.inj (hplain.of_ok hplain'))).2
  have hfull := (Prod.mk.inj (Except.ok.inj (hfull.of_ok hfull'))).2
  have hsame := agree.same
  rw [hplain, hfull] at hsame
  cases hsame

end BookmarkFS.Chromium
