import BookmarkFS.Chromium.Scanning
import BookmarkFS.Chromium.Sharing
import BookmarkFS.Fsck.Traversal
import BookmarkFS.Library.Unfolding

/-! # Checks of a whole store

A walk goes down through what the listings show, and a scan tells of what they do
not show. Thus a check of a store comes to all folders that can be seen, and
reports just those of their children that cannot.
-/
namespace BookmarkFS.Chromium
open Library Hopscotch

variable {w : WordSize} {tb : Tables w} {ctx : Ctx w} {env : Env} {S : Finset EntryRef}

/-- What `do_list_cb()` reads of an entry -/
def Dirent.entry (x : Dirent) : Fsck.Entry := ⟨x.off, x.id, x.valueLen.elim (-1) fun len => len⟩

/-- A callback of `bookmark_list()` that keeps what it is given: the walk goes on until the last
entry kept is one for which it returns nonzero. -/
def keeping (callback : Fsck.Entry → ℤ) : ListCallback := fun got _ =>
  if ∃ x ∈ got, callback x.entry ≠ 0 then 1 else 0

/-- The functions that a walk calls, of a store that nobody modifies. A fault would end the
program; there is none in a store that is consistent. -/
def Ctx.served (tb : Tables w) (ctx : Ctx w) (env : Env) : Fsck.Backend ListCookie where
  bookmarkCheck id callback cookie :=
    match bookmarkCheck tb ctx env id (some callback) cookie with
    | .ok ((reply, cookie), _) => (Prod.snd <$> reply, cookie)
    | .error _ => (.error .io, cookie)
  bookmarkList id off callback cookie :=
    match bookmarkList tb ctx env id off false (some (keeping callback)) cookie with
    | .ok ((reply, cookie), _) => ((fun r => r.2.map Dirent.entry) <$> reply, cookie)
    | .error _ => (.error .io, cookie)

/-- The folders that the listing of a directory shows -/
def Ctx.subfolders (tb : Tables w) (ctx : Ctx w) (id : ℕ) : List ℕ :=
  match lookupId tb ctx id with
  | .ok (some p) =>
    match (ctx.ents p).name, (ctx.ents p).children with
    | some _, some children => ((ctx.listing tb false children).filter (·.valueLen.isNone)).map
        (·.id)
    | _, _ => []
  | _ => []

/-- What is reported on the children of a directory -/
def Ctx.reports (tb : Tables w) (ctx : Ctx w) (id : ℕ) : List FsckReport :=
  match lookupId tb ctx id with
  | .ok (some p) =>
    match (ctx.ents p).children with
    | some children => (ctx.json.elems children).filterMap (reportAt tb ctx id)
    | none => []
  | _ => []

/-- The folders that can be seen below one of them -/
inductive FolderBelow (ctx : Ctx w) (S : Finset EntryRef) (p : EntryRef) : EntryRef → Prop
  | self : FolderBelow ctx S p p
  | child {q e : EntryRef} : FolderBelow ctx S p q → Directory ctx S (ctx.ents e).id e →
      e ≠ rootEntry →
      (ctx.ents e).parentId = (ctx.ents q).id → FolderBelow ctx S p e

/-- What is checked below a folder, and what is reported there. -/
structure TreeChecked (ctx : Ctx w) (S : Finset EntryRef) (p : EntryRef) (dirs : List ℕ)
    (entries : List Fsck.HandlerEntry) : Prop where
  once : dirs.Nodup
  mem_dirs : ∀ d, d ∈ dirs ↔ ∃ q, Directory ctx S d q ∧ FolderBelow ctx S p q
  reported_once : (entries.map (·.data.id)).Nodup
  reported : ∀ d i, (∃ x ∈ entries, x.parentId = d ∧ x.data.id = i) ↔ d ∈ dirs ∧
    ∃ e ∈ S, e ≠ rootEntry ∧
    (ctx.ents e).id = i ∧ (ctx.ents e).parentId = d ∧ (ctx.ents e).name = none

/-! ## Callbacks -/

/-- A callback that keeps what it is given is given what it would be given otherwise. -/
theorem feed_keeping (callback : Fsck.Entry → ℤ) (l got : List Dirent)
    (hgot : ∀ x ∈ got, callback x.entry = 0) :
    (feed (keeping callback) l got).2.map Dirent.entry =
      got.map Dirent.entry ++ Fsck.given callback (l.map Dirent.entry) := by
  induction l generalizing got with
  | nil => rw [feed, List.map_nil, Fsck.given, List.append_nil]
  | cons x l ih =>
    have hgoes : keeping callback got x = 0 := by
      refine if_neg ?_
      rintro ⟨y, hy, hne⟩
      exact hne (hgot y hy)
    rw [feed, if_neg (not_not.mpr hgoes), List.map_cons, Fsck.given]
    by_cases hx : callback x.entry = 0
    · have hall : ∀ y ∈ got ++ [x], callback y.entry = 0 := by
        intro y hy
        obtain hy | hy := List.mem_append.mp hy
        · exact hgot y hy
        · exact List.mem_singleton.mp hy ▸ hx
      rw [if_pos hx, ih _ hall, List.map_append, List.append_assoc]
      rfl
    · -- Nothing comes after an entry that the callback does not like.
      have hstops : ∀ y, keeping callback (got ++ [x]) y ≠ 0 := fun y => by
        rw [keeping, if_pos ⟨x, by simp, hx⟩]
        exact one_ne_zero
      have hlast : (feed (keeping callback) l (got ++ [x])).2 = got ++ [x] := by
        cases l with
        | nil => rfl
        | cons y l => rw [feed, if_pos (hstops y)]
      rw [if_neg hx, hlast, List.map_append]
      rfl

/-- A scan whose callback stops at once makes one report at a time. -/
theorem fsckNext_one {parentId : ℕ} {f : NodeRef → Option FsckReport} {ns : List NodeRef}
    (h : ∀ n ∈ ns, fsckChild tb ctx parentId n = .ok (f n)) (idx : ℕ) :
    ∃ status k, fsckNext tb ctx parentId Fsck.doFsckCb ns idx =
    .ok (status, idx + k, (ns.filterMap f).take 1) ∧
      (ns.drop k).filterMap f = (ns.filterMap f).drop 1 := by
  induction ns generalizing idx with
  | nil => exact ⟨0, 1, rfl, rfl⟩
  | cons n ns ih =>
    rw [fsckNext, h n List.mem_cons_self, ok_bind]
    cases hn : f n with
    | none =>
      obtain ⟨status, k, hrun, hrest⟩ := ih (fun m hm => h m (List.mem_cons_of_mem _ hm)) (idx + 1)
      refine ⟨status, k + 1, ?_, ?_⟩
      · dsimp only
        rw [hrun, List.filterMap_cons_none hn, Nat.add_assoc, Nat.add_comm 1 k]
      · rw [List.drop_succ_cons, List.filterMap_cons_none hn, hrest]
    | some report =>
      refine ⟨1, 1, ?_, ?_⟩
      · rw [List.filterMap_cons_some hn]
        rfl
      · rw [List.drop_succ_cons, List.drop_zero, List.filterMap_cons_some hn, List.drop_succ_cons,
          List.drop_zero]

section Store

variable (I : Inv tb ctx S)

include I

/-! ## The folders -/

section Folder

variable {id : ℕ} {p : EntryRef} (hp : Directory ctx S id p) {children : Value}
  (hchildren : (ctx.ents p).children = some children)

include hp hchildren

theorem subfolders_eq : ctx.subfolders tb id =
    ((ctx.listing tb false children).filter (·.valueLen.isNone)).map (·.id) := by
  obtain ⟨r, hrun, hlook⟩ := I.lookupId_spec id
  obtain rfl := (hlook p).mpr ⟨hp.1, hp.2.1⟩
  obtain ⟨name, hname⟩ := Option.ne_none_iff_exists'.mp hp.2.2.1
  simp only [Ctx.subfolders, hrun, hname, hchildren]

theorem reports_eq : ctx.reports tb id = (ctx.json.elems children).filterMap
    (reportAt tb ctx id) := by
  obtain ⟨r, hrun, hlook⟩ := I.lookupId_spec id
  obtain rfl := (hlook p).mpr ⟨hp.1, hp.2.1⟩
  simp only [Ctx.reports, hrun, hchildren]

theorem mem_subfolders_iff {b : ℕ} : b ∈ ctx.subfolders tb id ↔
    ∃ q, Directory ctx S b q ∧ q ≠ rootEntry ∧ (ctx.ents q).parentId = id := by
  rw [subfolders_eq I hp hchildren, List.mem_map]
  constructor
  · rintro ⟨x, hx, rfl⟩
    obtain ⟨hx, hdir⟩ := List.mem_filter.mp hx
    obtain ⟨q, k, hq, -, hshown⟩ := (mem_listing I hp hchildren).mp hx
    obtain ⟨hqS, hqroot, hqname⟩ := mem_named.mp hq.1
    obtain ⟨-, hid, hkind, -⟩ := dirent_spec hshown
    refine ⟨q, ⟨hqS, hid.symm, hqname, fun hnone => ?_⟩, hqroot, hq.2.1⟩
    rw [hkind, hnone] at hdir
    cases hdir
  · rintro ⟨q, ⟨hqS, rfl, hqname, hqdir⟩, hqroot, hparent⟩
    obtain ⟨name, hname⟩ := Option.ne_none_iff_exists'.mp hqname
    have hnamed : Named ctx S id name q := ⟨mem_named.mpr ⟨hqS, hqroot, hqname⟩, hparent, hname⟩
    obtain ⟨k, hat⟩ := listed_of_named I hp hchildren hnamed
    have hshown : ctx.dirent false (k + 1) q = some ⟨name, k + 1, (ctx.ents q).id, none, none⟩ := by
      simp only [Ctx.dirent, hname, Option.bind_some, Bool.false_eq_true, if_false, if_neg hqdir]
    exact ⟨_, List.mem_filter.mpr ⟨(mem_listing I hp hchildren).mpr ⟨q, k, hnamed, hat, hshown⟩,
      rfl⟩, rfl⟩

theorem subfolders_nodup : (ctx.subfolders tb id).Nodup := by
  rw [subfolders_eq I hp hchildren]
  refine (List.filter_sublist.map _).nodup ?_
  have hsorted : (ctx.listing tb false children).Pairwise fun x y => x.off < y.off :=
    offered_sorted (fun _ _ _ => shown_off) _ 0
  refine List.pairwise_map.mpr (hsorted.imp_of_mem fun {x y} hx hy hlt hsame => ?_)
  -- The entries of one identifier are the same, and are shown at the same place.
  obtain ⟨e, k, he, hat, hshown⟩ := (mem_listing I hp hchildren).mp hx
  obtain ⟨e', k', he', hat', hshown'⟩ := (mem_listing I hp hchildren).mp hy
  have hid : (ctx.ents e).id = (ctx.ents e').id :=
    (dirent_spec hshown).2.1.symm.trans (hsame.trans (dirent_spec hshown').2.1)
  obtain rfl := I.forest.id_inj e (mem_named.mp he.1).1 e' (mem_named.mp he'.1).1 hid
  obtain rfl := (List.getElem?_inj (List.getElem?_eq_some_iff.mp hat).1
    (elems_nodup I hchildren hp.1)).mp
    (hat.trans hat'.symm)
  obtain rfl := Option.some.inj (hshown.symm.trans hshown')
  exact hlt.false

end Folder

theorem directory_of_subfolders {a b : ℕ} (hb : b ∈ ctx.subfolders tb a) :
    ∃ p children, Directory ctx S a p ∧ (ctx.ents p).children = some children := by
  obtain ⟨r, hrun, hlook⟩ := I.lookupId_spec a
  rw [Ctx.subfolders, hrun] at hb
  cases r with
  | none => cases hb
  | some p =>
    obtain ⟨hp, hid⟩ := (hlook p).mp rfl
    cases hname : (ctx.ents p).name with
    | none =>
      simp only [hname] at hb
      cases hb
    | some name =>
      cases hchildren : (ctx.ents p).children with
      | none =>
        simp only [hname, hchildren] at hb
        cases hb
      | some children =>
        exact ⟨p, children, ⟨hp, hid, by rw [hname]; exact Option.some_ne_none _,
          by rw [hchildren]; exact Option.some_ne_none _⟩, hchildren⟩

theorem mem_subfolders {a b : ℕ} (hb : b ∈ ctx.subfolders tb a) : ∃ p q, Directory ctx S a p ∧
    Directory ctx S b q ∧ q ≠ rootEntry ∧ (ctx.ents q).parentId = a := by
  obtain ⟨p, children, hp, hchildren⟩ := directory_of_subfolders I hb
  exact ⟨p, (mem_subfolders_iff I hp hchildren).mp hb |>.imp fun q hq => ⟨hp, hq⟩⟩

/-! ## The forest of the folders -/

theorem subfolders_parent {a a' b : ℕ} (hb : b ∈ ctx.subfolders tb a)
    (hb' : b ∈ ctx.subfolders tb a') : a = a' := by
  obtain ⟨-, q, -, hq, -, hparent⟩ := mem_subfolders I hb
  obtain ⟨-, q', -, hq', -, hparent'⟩ := mem_subfolders I hb'
  obtain rfl := I.forest.id_inj q hq.1 q' hq'.1 (hq.2.1.trans hq'.2.1.symm)
  exact hparent.symm.trans hparent'

theorem subfolders_up : WellFounded fun a b => b ∈ ctx.subfolders tb a := by
  have hacc : ∀ e, Rooted ctx.ents S e → Acc (fun a b => b ∈ ctx.subfolders tb a)
    (ctx.ents e).id := by
    intro e hrooted
    induction hrooted with
    | root =>
      refine ⟨_, fun a ha => ?_⟩
      obtain ⟨-, q, -, hq, hroot, -⟩ := mem_subfolders I ha
      exact absurd (I.forest.id_inj q hq.1 _ I.forest.root_mem hq.2.1) hroot
    | @child e p he hp hid _ ih =>
      refine ⟨_, fun a ha => ?_⟩
      obtain ⟨-, q, -, hq, -, hparent⟩ := mem_subfolders I ha
      obtain rfl := I.forest.id_inj q hq.1 e he hq.2.1
      exact hparent ▸ hid ▸ ih
  refine ⟨fun b => ⟨b, fun a ha => ?_⟩⟩
  obtain ⟨p, -, hp, -⟩ := mem_subfolders I ha
  exact hp.2.1 ▸ hacc p (I.forest.rooted p hp.1)

theorem subfolders_down : WellFounded fun b a => b ∈ ctx.subfolders tb a := by
  refine Rose.wellFounded_down (subfolders_up I) (s := S.image fun e => (ctx.ents e).id)
    (Finset.finite_toSet _)
    fun {a b} hb => ?_
  obtain ⟨p, q, hp, hq, -⟩ := mem_subfolders I hb
  exact ⟨Finset.mem_coe.mpr (Finset.mem_image.mpr ⟨p, hp.1, hp.2.1⟩),
    Finset.mem_coe.mpr (Finset.mem_image.mpr ⟨q, hq.1, hq.2.1⟩)⟩

theorem nodup_subfolders (a : ℕ) : (ctx.subfolders tb a).Nodup := by
  by_cases h : ctx.subfolders tb a = []
  · rw [h]
    exact List.nodup_nil
  · obtain ⟨b, hb⟩ := List.exists_mem_of_ne_nil _ h
    obtain ⟨p, children, hp, hchildren⟩ := directory_of_subfolders I hb
    exact subfolders_nodup I hp hchildren

/-- What can be reached through the listings are the folders that can be seen. -/
theorem reaches_iff {id : ℕ} {p : EntryRef} (hp : Directory ctx S id p) {d : ℕ} :
    Relation.ReflTransGen (fun a b => b ∈ ctx.subfolders tb a) id d ↔
      ∃ q, Directory ctx S d q ∧ FolderBelow ctx S p q := by
  constructor
  · intro h
    induction h with
    | refl => exact ⟨p, hp, .self⟩
    | @tail b d _ hd ih =>
      obtain ⟨q, hq, hbelow⟩ := ih
      obtain ⟨-, e, -, he, hroot, hparent⟩ := mem_subfolders I hd
      exact ⟨e, he, .child hbelow (he.2.1 ▸ he) hroot (hparent.trans hq.2.1.symm)⟩
  · rintro ⟨q, hq, hbelow⟩
    induction hbelow generalizing d with
    | self => exact hp.2.1.symm.trans hq.2.1 ▸ .refl
    | @child q e hbelow he hroot hparent ih =>
      have hqdir : Directory ctx S (ctx.ents q).id q := by
        cases hbelow with
        | self => exact hp.2.1 ▸ hp
        | child _ hq => exact hq
      obtain ⟨children, hchildren⟩ := Option.ne_none_iff_exists'.mp hqdir.2.2.2
      exact (ih hqdir).tail ((mem_subfolders_iff I hqdir hchildren).mpr ⟨e, hq, hroot, hparent⟩)

theorem folderBelow_root {d : ℕ} {q : EntryRef} (hq : Directory ctx S d q) :
    FolderBelow ctx S rootEntry q := by
  have hrooted := I.forest.rooted q hq.1
  induction hrooted generalizing d with
  | root => exact .self
  | @child e p he hp hid _ ih =>
    by_cases hroot : e = rootEntry
    · exact hroot ▸ .self
    · have hname := I.shown e (mem_named.mpr ⟨he, hroot, hq.2.2.1⟩) p hp hid
      obtain ⟨p', hp', a, ha, hid', -⟩ := I.forest.folder he hroot
      obtain rfl := I.forest.id_inj p hp p' hp' (hid.trans hid'.symm)
      have hdir : Directory ctx S (ctx.ents p).id p :=
        ⟨hp, rfl, hname, by rw [ha]; exact Option.some_ne_none _⟩
      exact .child (ih hdir) ⟨he, rfl, hq.2.2.1, hq.2.2.2⟩ hroot hid.symm

/-! ## What the store serves -/

section Folder

variable (hload : storeLoad tb ctx env = .ok (none, ctx)) {id : ℕ} {p : EntryRef}
  (hp : Directory ctx S id p) {children : Value} (hchildren : (ctx.ents p).children = some children)

include hload hp hchildren

/-- Whatever the cookie that a scan goes on with, there is one report at a time, and the
children stay there. -/
theorem served_checks (hflag : ctx.flags.filenameGuid = false) (nodes : List NodeRef)
    (cookie : Option ListCookie)
    (htodo : (ctx.json.elems children).drop ((cookie.map (·.idx)).getD 0) = nodes)
    (hkept : ∀ c, cookie = some c → c.children.nodes ctx.json = ctx.json.elems children) :
    Fsck.Checks (ctx.served tb env) id (fun cookie => ∃ c, cookie = some c ∧
      c.children.nodes ctx.json = ctx.json.elems children)
      (nodes.filterMap (reportAt tb ctx id)) cookie := by
  have hcheck := checkDir_directory I hchildren hp hload hflag
  have hrun : ∀ n ∈ nodes, fsckChild tb ctx id n = .ok (reportAt tb ctx id n) := fun n hn => by
    obtain ⟨e, -, -, -, -, -, s, -, -, hrun, -⟩ :=
      child_spec I hchildren hp.1 hp.2.1 (List.mem_of_mem_drop (htodo ▸ hn))
    exact hrun
  generalize hreports : nodes.filterMap (reportAt tb ctx id) = reports
  induction reports generalizing nodes cookie with
  | nil =>
    obtain ⟨status, k, hnext, -⟩ := fsckNext_one hrun ((cookie.map (·.idx)).getD 0)
    rw [hreports] at hnext
    refine ⟨_, ?_, ⟨(cookie.map (·.children)).getD (.live children),
      (cookie.map (·.idx)).getD 0 + k⟩, rfl, ?_⟩
    · simp only [Ctx.served, bookmarkCheck, hcheck, ok_bind, htodo, hnext]
      rfl
    · cases cookie with
      | none => rfl
      | some c => exact hkept c rfl
  | cons r rs ih =>
    obtain ⟨status, k, hnext, hrest⟩ := fsckNext_one hrun ((cookie.map (·.idx)).getD 0)
    rw [hreports] at hnext hrest
    refine ⟨some ⟨(cookie.map (·.children)).getD (.live children), (cookie.map (·.idx)).getD 0 + k⟩,
      ?_, ?_⟩
    · simp only [Ctx.served, bookmarkCheck, hcheck, ok_bind, htodo, hnext]
      rfl
    · refine ih (nodes.drop k) _ ?_ ?_ (fun n hn => hrun n (List.mem_of_mem_drop hn)) hrest
      · rw [← htodo, List.drop_drop]
        rfl
      · rintro c hc
        obtain rfl := Option.some.inj hc
        cases cookie with
        | none => rfl
        | some c => exact hkept c rfl

/-- With a cookie that has the children, a listing goes on from any offset. -/
theorem bookmarkList_from (withStat : Bool) (callback : ListCallback) (off : ℕ) {c : ListCookie}
    (hkept : c.children.nodes ctx.json = ctx.json.elems children) :
    ∃ c' : ListCookie, c'.idx = c.idx ∧ c'.children.nodes ctx.json = ctx.json.elems children ∧
      bookmarkList tb ctx env id off withStat (some callback) (some c) = .ok ((.ok (feed callback
        (offered (ctx.shown tb withStat) ((ctx.json.elems children).drop off) off) []), some c'),
        ctx) := by
  have hnodes := parseEntry_elems I hp.1 hchildren withStat
  have hlist : listChildren tb ctx withStat callback ((ctx.json.elems children).drop off) off [] =
    _ :=
    listChildren_eq callback off [] fun n hn => hnodes n (List.mem_of_mem_drop hn)
  cases off with
  | zero =>
    obtain ⟨r, hrun, hlook⟩ := I.lookupId_spec id
    obtain rfl := (hlook p).mpr ⟨hp.1, hp.2.1⟩
    have hdir : listDir tb ctx id 0 (some c) = .ok (.ok (.live children, true)) := by
      simp only [listDir, hrun, ok_bind, hchildren, if_neg hp.2.2.1]
    refine ⟨⟨.copy (ctx.json.elems children), c.idx⟩, rfl, rfl, ?_⟩
    simp only [bookmarkList, hload, ok_bind, hdir, Children.nodes, hlist]
    rfl
  | succ off =>
    refine ⟨c, rfl, hkept, ?_⟩
    simp only [bookmarkList, hload, ok_bind, listDir, hkept, hlist]
    rfl

/-- What a directory shows can be listed from any entry on. -/
theorem served_pages :
    Fsck.Pages (ctx.served tb env) id ((ctx.listing tb false children).map Dirent.entry)
    fun cookie => ∃ c, cookie = some c ∧ c.children.nodes ctx.json = ctx.json.elems children := by
  rintro callback l₁ l₂ cookie hsplit ⟨c, rfl, hkept⟩
  obtain ⟨m₁, m₂, hm, rfl, rfl⟩ := List.map_eq_append_iff.mp hsplit
  obtain ⟨k, hlast, hrest⟩ := offered_drop (fun _ _ _ => shown_off) hm
  have hoff : Fsck.offsetAfter (m₁.map Dirent.entry) = k := by
    rw [Fsck.offsetAfter, List.getLast?_map, Option.map_map]
    exact hlast.trans (Nat.zero_add k)
  obtain ⟨c', -, hkept', hlist⟩ :=
    bookmarkList_from I hload hp hchildren false (keeping callback) k hkept
  have hgiven := feed_keeping callback m₂ [] (fun x hx => by cases hx)
  rw [List.map_nil, List.nil_append] at hgiven
  rw [Nat.zero_add] at hrest
  refine ⟨some c', ?_, c', rfl, hkept'⟩
  simp only [Ctx.served, hoff, hlist, hrest, ← hgiven]
  rfl

end Folder

/-- A folder, with what is reported on its children -/
def Ctx.folder (tb : Tables w) (ctx : Ctx w) (id : ℕ) : Fsck.Directory :=
  if h : id ≤ Fsck.maxId then ⟨id, ctx.reports tb id, h⟩ else ⟨0, [], Nat.zero_le _⟩

theorem folder_eq {id : ℕ} {p : EntryRef} (hp : Directory ctx S id p) :
    (ctx.folder tb id).id = id ∧ (ctx.folder tb id).bad = ctx.reports tb id := by
  have hle : id ≤ Fsck.maxId := by
    have hmax := hp.2.1 ▸ (I.max_id.2 p hp.1).trans I.max_id.1
    exact hmax.trans (by decide)
  rw [Ctx.folder, dif_pos hle]
  exact ⟨rfl, rfl⟩

/-- The store serves the tree of its folders. -/
theorem served_serves (hload : storeLoad tb ctx env = .ok (none, ctx))
    (hflag : ctx.flags.filenameGuid = false) {t : Rose ℕ} (h : t.Unfolds (ctx.subfolders tb))
    {p : EntryRef} (hp : Directory ctx S t.label p) :
    Fsck.Serves (ctx.served tb env) (t.map (ctx.folder tb)) := by
  induction h generalizing p with
  | @node id ts hlabels hts ih =>
    change Directory ctx S id p at hp
    obtain ⟨children, hchildren⟩ := Option.ne_none_iff_exists'.mp hp.2.2.2
    obtain ⟨hid, hbad⟩ : (ctx.folder tb id).id = id ∧ (ctx.folder tb id).bad = ctx.reports tb id :=
      folder_eq I hp
    have hpages := served_pages I hload hp hchildren
    have hchecks := served_checks I hload hp hchildren hflag (ctx.json.elems children)
      none rfl fun c hc => by cases hc
    rw [← reports_eq I hp hchildren] at hchecks
    rw [← hid] at hpages
    rw [← hbad] at hchecks
    have hdirs : ∀ t ∈ ts, ∃ q, Directory ctx S t.label q := fun t ht => by
      obtain ⟨-, q, -, hq, -⟩ := mem_subfolders I (show t.label ∈ ctx.subfolders tb id from
        hlabels ▸ List.mem_map_of_mem ht)
      exact ⟨q, hq⟩
    rw [Rose.map, Rose.maps_eq]
    refine .node (hid.symm ▸ hchecks) hpages ?_ ?_
    · have hsub : ts.map (·.label) = _ := hlabels.trans (subfolders_eq I hp hchildren)
      have hlabel : (ts.map (Rose.map (ctx.folder tb))).map (·.label.id) = ts.map (·.label) := by
        rw [List.map_map]
        refine List.map_congr_left fun t ht => ?_
        obtain ⟨q, hq⟩ := hdirs t ht
        exact (congrArg Fsck.Directory.id (Rose.label_map _ t)).trans (folder_eq I hq).1
      rw [Fsck.Subdirs, hlabel, hsub, List.filter_map, List.map_map]
      refine congrArg _ (List.filter_congr fun x _ => ?_)
      cases hlen : x.valueLen with
      | none => simp [Dirent.entry, hlen]
      | some len => simp [Dirent.entry, hlen]
    · intro t' ht'
      obtain ⟨t, ht, rfl⟩ := List.mem_map.mp ht'
      obtain ⟨q, hq⟩ := hdirs t ht
      exact ih t ht hq

/-! ## What is reported -/

theorem mem_reports_iff {id : ℕ} {p : EntryRef} (hp : Directory ctx S id p) {i : ℕ} :
    (∃ r ∈ ctx.reports tb id, r.id = i) ↔ ∃ e ∈ S, e ≠ rootEntry ∧ (ctx.ents e).id = i ∧
      (ctx.ents e).parentId = id ∧ (ctx.ents e).name = none := by
  obtain ⟨children, hchildren⟩ := Option.ne_none_iff_exists'.mp hp.2.2.2
  rw [reports_eq I hp hchildren]
  constructor
  · rintro ⟨r, hr, rfl⟩
    obtain ⟨n, hn, hreport⟩ := List.mem_filterMap.mp hr
    obtain ⟨e, he, hroot, -, hparent, -, s, -, -, -, extra, hreportOn, -⟩ :=
      child_spec I hchildren hp.1 hp.2.1 hn
    obtain ⟨hname, hid, -⟩ := reportOn_some (hreportOn ▸ hreport)
    exact ⟨e, he, hroot, hid.symm, hparent, hname⟩
  · rintro ⟨e, he, hroot, rfl, hparent, hname⟩
    exact (reported_iff I hchildren hp.1 hp.2.1 he ((mem_elems_iff I hp.1 hchildren).mpr
      ⟨e, he, hroot, rfl, hparent.trans hp.2.1.symm⟩)).mpr hname

/-- The folders of the tree, and the reports on them, are those that there are to be. -/
theorem treeChecked {t : Rose ℕ} (h : t.Unfolds (ctx.subfolders tb)) {p : EntryRef}
    (hp : Directory ctx S t.label p) :
    TreeChecked ctx S p t.preorder
    (t.preorder.flatMap fun d => (ctx.reports tb d).map (⟨d, ·⟩)) := by
  have hdirs : ∀ d, d ∈ t.preorder ↔ ∃ q, Directory ctx S d q ∧ FolderBelow ctx S p q := fun d =>
    h.mem_preorder_iff.trans (reaches_iff I hp)
  have honce : t.preorder.Nodup := h.nodup_preorder (subfolders_parent I) (subfolders_up I)
    (nodup_subfolders I)
  refine ⟨honce, hdirs, ?_, fun d i => ?_⟩
  · rw [List.map_flatMap, List.nodup_flatMap]
    simp only [List.map_map, Function.comp_def]
    refine ⟨fun d hd => ?_, honce.imp_of_mem fun {d d'} hd hd' hne i hi hi' => hne ?_⟩
    · obtain ⟨q, hq, -⟩ := (hdirs d).mp hd
      obtain ⟨children, hchildren⟩ := Option.ne_none_iff_exists'.mp hq.2.2.2
      rw [reports_eq I hq hchildren]
      exact reported_once I hchildren hq.1 hq.2.1
    · -- An entry is in one folder only.
      obtain ⟨q, hq, -⟩ := (hdirs d).mp hd
      obtain ⟨q', hq', -⟩ := (hdirs d').mp hd'
      obtain ⟨e, he, -, hid, hparent, -⟩ := (mem_reports_iff I hq).mp (List.mem_map.mp hi)
      obtain ⟨e', he', -, hid', hparent', -⟩ := (mem_reports_iff I hq').mp (List.mem_map.mp hi')
      obtain rfl := I.forest.id_inj e he e' he' (hid.trans hid'.symm)
      exact hparent.symm.trans hparent'
  · constructor
    · rintro ⟨x, hx, rfl, rfl⟩
      obtain ⟨d, hd, hx⟩ := List.mem_flatMap.mp hx
      obtain ⟨r, hr, rfl⟩ := List.mem_map.mp hx
      obtain ⟨q, hq, -⟩ := (hdirs d).mp hd
      exact ⟨hd, (mem_reports_iff I hq).mp ⟨r, hr, rfl⟩⟩
    · rintro ⟨hd, he⟩
      obtain ⟨q, hq, -⟩ := (hdirs d).mp hd
      obtain ⟨r, hr, hid⟩ := (mem_reports_iff I hq).mpr he
      exact ⟨⟨d, r⟩, List.mem_flatMap.mpr ⟨d, hd, List.mem_map_of_mem hr⟩, rfl, hid⟩

/-- A walk over the store reports what is wrong with the children of each folder. -/
theorem nextOnly_served (hload : storeLoad tb ctx env = .ok (none, ctx))
    (hflag : ctx.flags.filenameGuid = false) (fill : ℕ → Fsck.FsckDir ListCookie) {t : Rose ℕ}
    (h : t.Unfolds (ctx.subfolders tb)) {p : EntryRef} (hp : Directory ctx S t.label p) {fuel n : ℕ}
    (hfuel : t.preorder.length < fuel)
    (hn : (t.preorder.flatMap fun d => ctx.reports tb d).length < n) :
    Fsck.nextOnly (ctx.served tb env) fill fuel n (Fsck.fsckCreate fill t.label) =
      .ok (.ok (t.preorder.flatMap fun d => (ctx.reports tb d).map (⟨d, ·⟩)), t.preorder) := by
  have hfolder : ∀ d ∈ t.preorder, (ctx.folder tb d).id = d ∧
    (ctx.folder tb d).bad = ctx.reports tb d := by
    intro d hd
    obtain ⟨q, hq, -⟩ := ((treeChecked I h hp).mem_dirs d).mp hd
    exact folder_eq I hq
  have hentries : Fsck.entriesOf (t.map (ctx.folder tb)).preorder =
      t.preorder.flatMap fun d => (ctx.reports tb d).map (⟨d, ·⟩) := by
    rw [Rose.preorder_map, Fsck.entriesOf, List.flatMap_map]
    refine List.flatMap_congr fun d hd => ?_
    rw [(hfolder d hd).1, (hfolder d hd).2]
  have hids : (t.map (ctx.folder tb)).preorder.map (·.id) = t.preorder := by
    rw [Rose.preorder_map, List.map_map]
    exact (List.map_congr_left fun d hd => (hfolder d hd).1).trans (List.map_id _)
  have hlabel : (t.map (ctx.folder tb)).label.id = t.label := by
    rw [Rose.label_map]
    exact (folder_eq I hp).1
  have hlength : (Fsck.entriesOf (t.map (ctx.folder tb)).preorder).length < n := by
    rw [hentries]
    simpa only [List.length_flatMap, List.length_map] using hn
  rw [← hentries, ← hlabel]
  conv_rhs => rw [← hids]
  refine Fsck.nextOnly_spec fill ⟨by simp [Fsck.fsckCreate], show 2 ≤ 16 by decide, rfl, rfl⟩
    (.checking (Fsck.checking_created fill (served_serves I hload hflag h hp))) ?_ hlength
  rwa [Rose.preorder_map, List.length_map]

end Store

/-- A recursive check of a store visits each folder that can be seen below the one it is given, in
the order of the listings, and reports each child that cannot be seen once, and nothing else. -/
theorem offline_check (digest : Bytes → Word w)
    (hreach : (backend (Tables.real digest)).Reachable ctx)
    (henv : env.WellFormed) (hflag : ctx.flags.filenameGuid = false)
    (hload : storeLoad (Tables.real digest) ctx env = .ok (none, ctx))
    (hS : ∀ e, e ∈ S ↔ ctx.idMap.Contains e)
    {id : ℕ} {p : EntryRef} (hp : Directory ctx S id p) (fill : ℕ → Fsck.FsckDir ListCookie) :
    ∃ (t : Rose ℕ) (entries : List Fsck.HandlerEntry), t.label = id ∧
      t.Unfolds (ctx.subfolders (Tables.real digest)) ∧ TreeChecked ctx S p t.preorder entries ∧
      ∀ fuel n, t.preorder.length < fuel → entries.length < n →
        Fsck.nextOnly (ctx.served (Tables.real digest) env) fill fuel n (Fsck.fsckCreate fill id) =
          .ok (.ok entries, t.preorder) := by
  have hf := Tables.real_faithful digest
  obtain ⟨-, -, hloaded⟩ :=
    (storeLoad_spec hf henv (hreach.holds (backend_consistent hf))).of_ok hload
  obtain ⟨-, -, S', I⟩ := hloaded rfl
  obtain rfl : S' = S := Finset.ext fun e => (I.entries e).trans (hS e).symm
  obtain ⟨t, rfl, ht⟩ := Rose.exists_unfolds (subfolders_down I) id
  refine ⟨t, _, rfl, ht, treeChecked I ht hp, fun fuel n hfuel hn => nextOnly_served I hload hflag
    fill ht hp hfuel ?_⟩
  simpa only [List.length_flatMap, List.length_map] using hn

/-- A recursive check of a store that has just been loaded comes to all folders that can be seen,
and reports the children whose names are no filenames, or those of elder siblings. -/
theorem loaded_check (digest : Bytes → Word w) {flags : Flags} {file : Env}
    (hflag : flags.filenameGuid = false) (hfile : file.WellFormed) (hpoll : env.poll = .unchanged)
    (hload : storeLoad (Tables.real digest) (.created flags) file = .ok (none, ctx))
    (hS : ∀ e, e ∈ S ↔ ctx.idMap.Contains e) (fill : ℕ → Fsck.FsckDir ListCookie) :
    ∃ t : Rose ℕ, t.label = rootId ∧ t.Unfolds (ctx.subfolders (Tables.real digest)) ∧
    t.preorder.Nodup ∧
      (∀ d, d ∈ t.preorder ↔ ∃ q, Directory ctx S d q) ∧
      (∀ d q children, Directory ctx S d q → (ctx.ents q).children = some children →
        ScanRight ctx.json (ctx.json.elems children) (ctx.reports (Tables.real digest) d)) ∧
      ∀ fuel n, t.preorder.length < fuel →
        (t.preorder.flatMap fun d => ctx.reports (Tables.real digest) d).length < n →
        Fsck.nextOnly (ctx.served (Tables.real digest) env) fill fuel n
        (Fsck.fsckCreate fill rootId) =
          .ok (.ok (t.preorder.flatMap fun d => (ctx.reports (Tables.real digest) d).map (⟨d, ·⟩)),
            t.preorder) := by
  obtain ⟨hloaded, hwatching, rfl, S', I, hnames⟩ :=
    first_load_spec (Tables.real_faithful digest) hfile hload
  obtain rfl : S' = S := Finset.ext fun e => (I.entries e).trans (hS e).symm
  obtain ⟨a, ha⟩ := I.forest.root_array
  have hroot : Directory ctx S' rootId rootEntry := ⟨I.forest.root_mem, I.forest.root_id,
    by rw [I.forest.root_name]; exact Option.some_ne_none _, by
    rw [ha]; exact Option.some_ne_none _⟩
  obtain ⟨t, hlabel, ht⟩ := Rose.exists_unfolds (subfolders_down I) rootId
  have hchecked := treeChecked I ht (hlabel ▸ hroot)
  refine ⟨t, hlabel, ht, hchecked.once, fun d => ?_, fun d q children hq hchildren => ?_,
    fun fuel n hfuel hn => ?_⟩
  · rw [hchecked.mem_dirs]
    exact exists_congr fun q => and_iff_left_of_imp fun hq => folderBelow_root I hq
  · rw [reports_eq I hq hchildren, scanRight_iff I hchildren hq.1 hq.2.1]
    exact judged_of_load I (hnames hflag) hq.1 hq.2.2.1 hchildren
  · rw [← hlabel]
    exact nextOnly_served I (storeLoad_loaded hwatching hloaded hpoll) hflag fill ht
      (hlabel ▸ hroot) hfuel hn

/-- A folder of two folders, the second of which cannot be seen. -/
theorem offline_check_twoFoldersOfAName :
    ∃ (ctx : Ctx .w64) (t : Rose ℕ) (entries : List Fsck.HandlerEntry),
    t.label = rootId ∧ t.Unfolds (ctx.subfolders colliding) ∧
    TreeChecked ctx ctx.idMap.visited.toFinset rootEntry t.preorder entries ∧
    ∀ fuel n, t.preorder.length < fuel → entries.length < n →
      Fsck.nextOnly (ctx.served colliding twoFoldersOfAName) (fun _ => ⟨0, none, 0⟩) fuel n
        (Fsck.fsckCreate (fun _ => ⟨0, none, 0⟩) rootId) = .ok (.ok entries, t.preorder) := by
  have h : Yields (fun _ => False)
      ((Call.lookup rootId none).run colliding (.created ⟨false, false, false⟩) twoFoldersOfAName)
        fun ctx =>
        (ctx.watching = true ∧ ctx.loaded = true ∧ ctx.flags.filenameGuid = false) ∧
        rootEntry ∈ ctx.idMap.visited ∧ (ctx.ents rootEntry).id = rootId ∧
        (ctx.ents rootEntry).name = some [] ∧
        (ctx.ents rootEntry).children = some (.array 3) := by
    decide +kernel
  obtain ⟨ctx, hlookup, ⟨hwatching, hloaded, hflag⟩, hmem, hid, hname, hchildren⟩ := h.exists_ok
  have hwf : twoFoldersOfAName.WellFormed := Env.written_wellFormed (by decide +kernel)
  have hp : Directory ctx ctx.idMap.visited.toFinset rootId rootEntry :=
    ⟨List.mem_toFinset.mpr hmem, hid, by rw [hname]; exact Option.some_ne_none _,
      by rw [hchildren]; exact Option.some_ne_none _⟩
  exact ⟨ctx, offline_check (fun _ => 0) (reachable_created hwf hlookup) hwf hflag
    (storeLoad_loaded hwatching hloaded rfl)
      (fun e => List.mem_toFinset.trans (Hashmap.mem_visited_iff _ e)) hp _⟩

/-- Of two folders of one name, the second is reported. -/
theorem loaded_check_twoFoldersOfAName : ∃ (ctx : Ctx .w64) (t : Rose ℕ),
    storeLoad colliding (.created ⟨false, false, false⟩) twoFoldersOfAName = .ok (none, ctx) ∧
    1 ∈ t.preorder ∧
    ScanRight ctx.json (ctx.json.elems (.array 0)) (ctx.reports colliding 1) ∧
    ∀ fuel n, t.preorder.length < fuel →
    (t.preorder.flatMap fun d => ctx.reports colliding d).length < n →
      Fsck.nextOnly (ctx.served colliding twoFoldersOfAName) (fun _ => ⟨0, none, 0⟩) fuel n
        (Fsck.fsckCreate (fun _ => ⟨0, none, 0⟩) rootId) =
          .ok (.ok (t.preorder.flatMap fun d => (ctx.reports colliding d).map (⟨d, ·⟩)),
            t.preorder) := by
  have h : Yields (fun _ => False) (storeLoad colliding (.created ⟨false, false, false⟩)
    twoFoldersOfAName) fun r =>
      r.1 = none ∧ 1 ∈ r.2.idMap.visited ∧ (r.2.ents 1).id = 1 ∧ (r.2.ents 1).name = some [65] ∧
        (r.2.ents 1).children = some (.array 0) := by
    decide +kernel
  obtain ⟨⟨_, ctx⟩, hload, rfl, hmem, hid, hname, hchildren⟩ := h.exists_ok
  have hwf : twoFoldersOfAName.WellFormed := Env.written_wellFormed (by decide +kernel)
  have hp : Directory ctx ctx.idMap.visited.toFinset 1 1 :=
    ⟨List.mem_toFinset.mpr hmem, hid, by rw [hname]; exact Option.some_ne_none _,
      by rw [hchildren]; exact Option.some_ne_none _⟩
  obtain ⟨t, -, -, -, hdirs, hscan, hrun⟩ := loaded_check (fun _ => 0) rfl hwf
    (rfl : twoFoldersOfAName.poll = .unchanged) hload
    (fun e => List.mem_toFinset.trans (Hashmap.mem_visited_iff _ e)) fun _ => ⟨0, none, 0⟩
  exact ⟨ctx, t, hload, (hdirs 1).mpr ⟨1, hp⟩, hscan 1 1 _ hp hchildren, hrun⟩

end BookmarkFS.Chromium
