import BookmarkFS.Chromium.Filing
import BookmarkFS.Chromium.Listing

/-! # What a scan reports

Which entries are hidden is decided when the store is loaded, and all that is below
a hidden folder is hidden with it. Once the folder is repaired, a scan takes for
duplicates what has been hidden there for no other reason.
-/
namespace BookmarkFS.Chromium
open Library Hopscotch

variable {w : WordSize} {tb : Tables w} {ctx ctx₀ ctx' : Ctx w} {env : Env} {S : Finset EntryRef}

/-- The name that a node has in the tree, be it visible or not. -/
def Json.nameOf (json : Json) (n : NodeRef) : Option Bytes := jsonStringValue (json.get n .name)

/-- A name that is no filename, or that of an elder sibling. -/
def BadName (json : Json) (elders : List NodeRef) (n : NodeRef) : Prop :=
  ∃ name, json.nameOf n = some name ∧
    (validateFilename name ≠ none ∨ ∃ m ∈ elders, json.nameOf m = some name)

/-- What is to be reported on a directory with the given nodes. -/
structure ScanRight (json : Json) (nodes : List NodeRef) (reports : List FsckReport) : Prop where
  bad : ∀ elders n younger id, nodes = elders ++ n :: younger → parseId json n = some id →
    ((∃ r ∈ reports, r.id = id) ↔ BadName json elders n)
  once : (reports.map (·.id)).Nodup
  only : ∀ r ∈ reports, ∃ n ∈ nodes, parseId json n = some r.id
  duplicate : ∀ r ∈ reports, r.result = .nameDuplicate → ∃ n ∈ nodes, ∃ m ∈ nodes, n ≠ m ∧
    parseId json n = some r.id ∧ parseId json m = some r.extra ∧
    ∃ name, json.nameOf n = some name ∧ json.nameOf m = some name

section Scans

variable (tb ctx env) (parentId : ℕ) (callbacks : ℕ → FsckReport → ℤ)

/-- Calls of `bookmark_check()`, from the `k`-th on and from the index `idx` on, until one
reports nothing. -/
inductive Scans : ℕ → ℕ → List FsckReport → Prop
  | done {k idx next : ℕ} {status : ℤ} :
    bookmarkCheckNext tb ctx env parentId (callbacks k) idx = .ok (.ok (status, next, []), ctx) →
      Scans k idx []
  | more {k idx next : ℕ} {status : ℤ} {reports rest : List FsckReport} :
    bookmarkCheckNext tb ctx env parentId (callbacks k) idx =
      .ok (.ok (status, next, reports), ctx) →
    reports ≠ [] → Scans (k + 1) next rest → Scans k idx (reports ++ rest)

/-- Whatever the callbacks return, a scan with a fresh cookie comes to its end, and reports
what it should. -/
def Scanned (nodes : List NodeRef) : Prop :=
  ∀ callbacks, ∃ reports, Scans tb ctx env parentId callbacks 0 0 reports ∧
    ScanRight ctx.json nodes reports

end Scans

/-- The entry is that of a child of a directory. -/
def ChildOf (ctx : Ctx w) (parentId : ℕ) (e : EntryRef) : Prop :=
  ctx.idMap.Contains e ∧ e ≠ rootEntry ∧ (ctx.ents e).parentId = parentId

/-- The children of the folder `p` are left alone, their order, names and identifiers. -/
structure ChildrenKept (ctx ctx' : Ctx w) (p : EntryRef) : Prop where
  folder : (ctx'.ents p).id = (ctx.ents p).id ∧ (ctx'.ents p).children = (ctx.ents p).children
  nodes : ∀ c, (ctx.ents p).children = some c → ctx'.json.elems c = ctx.json.elems c
  child : ∀ e, ChildOf ctx' (ctx.ents p).id e ↔ ChildOf ctx (ctx.ents p).id e
  entry : ∀ e, ChildOf ctx (ctx.ents p).id e →
    (ctx'.ents e).id = (ctx.ents e).id ∧ (ctx'.ents e).name = (ctx.ents e).name ∧
      parseId ctx'.json (ctx.ents e).node = parseId ctx.json (ctx.ents e).node ∧
      ctx'.json.nameOf (ctx.ents e).node = ctx.json.nameOf (ctx.ents e).node ∧
      (ctx'.ents e).node = (ctx.ents e).node

/-- Any calls that leave the children of a folder alone, on a store that need not be loaded again.
None of them shrinks the association map in the middle of a rename. -/
def elsewhere (tb : Tables w) (loaded : Ctx w) (p : EntryRef) : System (Ctx w)
    (Env × Call) Fault where
  init ctx := ctx = loaded
  legal ctx request := storeLoad tb ctx request.1 = .ok (none, ctx) ∧ request.2.Steady tb ctx ∧
    ∀ ctx', request.2.run tb ctx request.1 = .ok ctx' → ChildrenKept ctx ctx' p
  step ctx request := request.2.run tb ctx request.1

def Judged (ctx : Ctx w) (S : Finset EntryRef) (nodes : List NodeRef) : Prop :=
  ∀ elders e younger, e ∈ S → e ≠ rootEntry → nodes = elders ++ (ctx.ents e).node :: younger →
    ((ctx.ents e).name = none ↔ BadName ctx.json elders (ctx.ents e).node)

/-! ## The reports -/

/-- What is reported on an entry, if anything is. -/
def Ctx.reportOn (ctx : Ctx w) (extra : ℕ) (e : EntryRef) (name : Bytes) : Option FsckReport :=
  if (ctx.ents e).name ≠ none then none
  else match validateFilenameFsck name with
    | some (result, extra) => some ⟨result, (ctx.ents e).id, extra, name⟩
    | none => some ⟨.nameDuplicate, (ctx.ents e).id, extra, name⟩

theorem reportOn_some {extra : ℕ} {e : EntryRef} {s : Bytes} {r : FsckReport}
    (h : ctx.reportOn extra e s = some r) :
    (ctx.ents e).name = none ∧ r.id = (ctx.ents e).id ∧
      (r.result = .nameDuplicate → validateFilename s = none ∧ r.extra = extra) := by
  rw [Ctx.reportOn] at h
  by_cases hname : (ctx.ents e).name ≠ none
  · rw [if_pos hname] at h
    cases h
  · rw [if_neg hname] at h
    refine ⟨not_not.mp hname, ?_⟩
    cases hvalid : validateFilenameFsck s with
    | some q =>
      rw [hvalid] at h
      obtain rfl := Option.some.inj h
      exact ⟨rfl, fun hdup => absurd hdup (validateFilenameFsck_ne_duplicate hvalid)⟩
    | none =>
      rw [hvalid] at h
      obtain rfl := Option.some.inj h
      exact ⟨rfl, fun _ => ⟨by simpa [validateFilenameFsck] using hvalid, rfl⟩⟩

theorem reportOn_hidden (extra : ℕ) {e : EntryRef} (s : Bytes) (h : (ctx.ents e).name = none) :
    ∃ r, ctx.reportOn extra e s = some r := by
  rw [Ctx.reportOn, if_neg (not_not.mpr h)]
  cases validateFilenameFsck s with
  | some q => exact ⟨_, rfl⟩
  | none => exact ⟨_, rfl⟩

section Rounds

variable {parentId : ℕ} {children : Value} {f : NodeRef → Option FsckReport}

theorem fsckNext_spec (callback : FsckReport → ℤ) {ns : List NodeRef}
    (h : ∀ n ∈ ns, fsckChild tb ctx parentId n = .ok (f n)) (idx : ℕ) :
    ∃ status k reports, fsckNext tb ctx parentId callback ns idx = .ok (status, idx + k, reports) ∧
      reports ++ (ns.drop k).filterMap f = ns.filterMap f ∧
      (reports = [] → ns.filterMap f = []) := by
  induction ns generalizing idx with
  | nil => exact ⟨0, 1, [], rfl, rfl, fun _ => rfl⟩
  | cons n ns ih =>
    obtain ⟨status, k, reports, hrun, happend, hdone⟩ :=
      ih (fun m hm => h m (List.mem_cons_of_mem _ hm)) (idx + 1)
    rw [fsckNext, h n List.mem_cons_self, ok_bind]
    cases hreport : f n with
    | none =>
      refine ⟨status, k + 1, reports, ?_, ?_, ?_⟩
      · dsimp only
        rw [hrun, Nat.add_assoc, Nat.add_comm 1 k]
      · rw [List.drop_succ_cons, List.filterMap_cons_none hreport]
        exact happend
      · rw [List.filterMap_cons_none hreport]
        exact hdone
    | some report =>
      dsimp only
      by_cases hstop : callback report ≠ 0
      · rw [if_pos hstop]
        refine ⟨callback report, 1, [report], rfl, ?_, nofun⟩
        rw [List.drop_succ_cons, List.drop_zero, List.filterMap_cons_some hreport,
          List.singleton_append]
      · rw [if_neg hstop]
        refine ⟨status, k + 1, report :: reports, ?_, ?_, nofun⟩
        · rw [hrun, ok_bind, Nat.add_assoc, Nat.add_comm 1 k]
        · rw [List.drop_succ_cons, List.filterMap_cons_some hreport, List.cons_append, happend]

variable (hdir : checkDir tb ctx env parentId = .ok (.ok children, ctx))
  (h : ∀ n ∈ ctx.json.elems children, fsckChild tb ctx parentId n = .ok (f n))

include hdir h

theorem bookmarkCheckNext_spec (callback : FsckReport → ℤ) (idx : ℕ) :
    let todo := (ctx.json.elems children).drop idx
    ∃ status k reports, bookmarkCheckNext tb ctx env parentId callback idx =
        .ok (.ok (status, idx + k, reports), ctx) ∧
      reports ++ (todo.drop k).filterMap f = todo.filterMap f ∧
      (reports = [] → todo.filterMap f = []) := by
  obtain ⟨status, k, reports, hrun, happend⟩ :=
    fsckNext_spec callback (fun n hn => h n (List.mem_of_mem_drop hn)) idx
  exact ⟨status, k, reports, by simp only [bookmarkCheckNext, hdir, hrun, ok_bind], happend⟩

/-- However the calls are cut, together they report what there is to report from the index on. -/
theorem scans_iff (callbacks : ℕ → FsckReport → ℤ) (k idx : ℕ) (reports : List FsckReport) :
    Scans tb ctx env parentId callbacks k idx reports ↔
      reports = ((ctx.json.elems children).drop idx).filterMap f := by
  constructor
  · intro hscan
    induction hscan with
    | @done k idx next status hrun =>
      obtain ⟨status', j, reports', hrun', -, hdone⟩ :=
        bookmarkCheckNext_spec hdir h (callbacks k) idx
      rw [hrun] at hrun'
      simp only [Except.ok.injEq, Prod.mk.injEq] at hrun'
      exact (hdone hrun'.1.2.2.symm).symm
    | @more k idx next status reports rest hrun hne hrest ih =>
      obtain ⟨status', j, reports', hrun', happend, -⟩ :=
        bookmarkCheckNext_spec hdir h (callbacks k) idx
      rw [hrun] at hrun'
      simp only [Except.ok.injEq, Prod.mk.injEq] at hrun'
      obtain ⟨⟨-, rfl, rfl⟩, -⟩ := hrun'
      rw [ih, ← happend, List.drop_drop]
  · rintro rfl
    generalize hlen : (((ctx.json.elems children).drop idx).filterMap f).length = len
    induction len using Nat.strong_induction_on generalizing k idx with
    | _ len ih =>
      obtain ⟨status, j, reports, hrun, happend, hdone⟩ :=
        bookmarkCheckNext_spec hdir h (callbacks k) idx
      by_cases hreports : reports = []
      · subst hreports
        rw [hdone rfl]
        exact .done hrun
      · rw [← happend, List.drop_drop]
        refine .more hrun hreports (ih _ ?_ _ _ rfl)
        rw [← hlen, ← happend, List.length_append, List.drop_drop]
        have := List.length_pos_iff.mpr hreports
        omega

end Rounds

/-- One round of the loop of `fsck_next()` -/
theorem fsckChild_eq {parentId : ℕ} {n : NodeRef} {e : EntryRef} {s : Bytes}
    {found : Option (EntryRef × Word w)} (hid : parseId ctx.json n = some (ctx.ents e).id)
    (hlook : lookupId tb ctx (ctx.ents e).id = .ok (some e)) (hs : ctx.json.nameOf n = some s)
    (hassoc : lookupAssoc tb ctx parentId s = .ok found) :
    fsckChild tb ctx parentId n =
      .ok (ctx.reportOn ((found.map fun q => (ctx.ents q.1).id).getD rootId) e s) := by
  simp only [fsckChild, hid, hlook, ok_bind, ← Json.nameOf.eq_def, hs, Ctx.reportOn]
  by_cases hname : (ctx.ents e).name ≠ none
  · rw [if_pos hname, if_pos hname]
    rfl
  · rw [if_neg hname, if_neg hname]
    cases validateFilenameFsck s with
    | some q => rfl
    | none =>
      simp only [hassoc, ok_bind]
      cases found <;> rfl

def reportAt (tb : Tables w) (ctx : Ctx w) (id : ℕ) (n : NodeRef) : Option FsckReport :=
  (fsckChild tb ctx id n).toOption.join

section Reports

variable (I : Inv tb ctx S)

include I

theorem nameOf_spec {e : EntryRef} (he : e ∈ S) (hroot : e ≠ rootEntry) :
    ∃ s, ctx.json.get (ctx.ents e).node .name = some (.string s) ∧
    ctx.json.nameOf (ctx.ents e).node = some s ∧
      ∀ name, (ctx.ents e).name = some name → name = s := by
  obtain ⟨s, hs, hsame⟩ := (I.forest.describes e he hroot).name
  exact ⟨s, hs, by rw [Json.nameOf, hs]; rfl, hsame⟩

theorem fsckChild_spec (parentId : ℕ) {e : EntryRef} (he : e ∈ S) (hroot : e ≠ rootEntry)
    {s : Bytes} (hs : ctx.json.get (ctx.ents e).node .name = some (.string s)) :
    ∃ extra, fsckChild tb ctx parentId (ctx.ents e).node = .ok (ctx.reportOn extra e s) ∧
      ((∃ f, Named ctx S parentId s f ∧ extra = (ctx.ents f).id) ∨
        extra = rootId ∧ ∀ f, ¬Named ctx S parentId s f) := by
  obtain ⟨r, hrun, hlook⟩ := I.lookupId_spec (ctx.ents e).id
  obtain rfl : r = some e := (hlook e).mpr ⟨he, rfl⟩
  obtain ⟨found, hassoc, hfound, hnone⟩ := lookupAssoc_spec I.indexed.assoc parentId s
  refine ⟨_, fsckChild_eq (I.forest.describes e he hroot).id hrun (by rw [Json.nameOf, hs]; rfl)
    hassoc, ?_⟩
  cases found with
  | none =>
    refine .inr ⟨rfl, fun f hf => ?_⟩
    obtain ⟨hf, hparent, hname⟩ := hf
    exact hnone rfl f hf hparent hname
  | some q =>
    obtain ⟨hq, hparent, hname, -⟩ := hfound q.1 q.2 rfl
    exact .inl ⟨q.1, ⟨hq, hparent, hname⟩, rfl⟩

variable {id : ℕ} {p : EntryRef} {children : Value}
  (hchildren : (ctx.ents p).children = some children)

include hchildren

theorem checkDir_directory (hp : Directory ctx S id p)
    (hload : storeLoad tb ctx env = .ok (none, ctx)) (hflag : ctx.flags.filenameGuid = false) :
    checkDir tb ctx env id = .ok (.ok children, ctx) := by
  obtain ⟨r, hrun, hlook⟩ := I.lookupId_spec id
  obtain rfl : r = some p := (hlook p).mpr ⟨hp.1, hp.2.1⟩
  simp only [checkDir, hflag, Bool.false_eq_true, if_false, hload, hrun, ok_bind,
    if_neg hp.2.2.1, hchildren]

variable (hp : p ∈ S) (hpid : (ctx.ents p).id = id)

include hp

theorem elems_nodup : (ctx.json.elems children).Nodup := by
  cases children with
  | array a => exact I.forest.nodup hp hchildren
  | string s => exact List.nodup_nil
  | other content => exact List.nodup_nil

include hpid

theorem child_spec {n : NodeRef} (hn : n ∈ ctx.json.elems children) :
    ∃ e ∈ S, e ≠ rootEntry ∧ (ctx.ents e).node = n ∧ (ctx.ents e).parentId = id ∧
      parseId ctx.json n = some (ctx.ents e).id ∧ ∃ s, ctx.json.nameOf n = some s ∧
      (∀ name, (ctx.ents e).name = some name → name = s) ∧
      fsckChild tb ctx id n = .ok (reportAt tb ctx id n) ∧
      ∃ extra, reportAt tb ctx id n = ctx.reportOn extra e s ∧
        ((∃ f, Named ctx S id s f ∧ extra = (ctx.ents f).id) ∨ extra = rootId ∧
          ∀ f, ¬Named ctx S id s f) := by
  obtain ⟨e, he, hroot, rfl, hparent⟩ := (mem_elems_iff I hp hchildren).mp hn
  obtain ⟨s, hs, hname, hsame⟩ := nameOf_spec I he hroot
  obtain ⟨extra, hrun, hextra⟩ := fsckChild_spec I id he hroot hs
  have hreport : reportAt tb ctx id (ctx.ents e).node = ctx.reportOn extra e s := by
    rw [reportAt, hrun]; rfl
  exact ⟨e, he, hroot, rfl, hparent.trans hpid, (I.forest.describes e he hroot).id, s, hname, hsame,
    hreport ▸ hrun, extra, hreport, hextra⟩

theorem reported_iff {e : EntryRef} (he : e ∈ S)
    (hn : (ctx.ents e).node ∈ ctx.json.elems children) :
    (∃ r ∈ (ctx.json.elems children).filterMap (reportAt tb ctx id), r.id = (ctx.ents e).id) ↔
      (ctx.ents e).name = none := by
  constructor
  · rintro ⟨r, hr, hid⟩
    obtain ⟨n, hn, hr⟩ := List.mem_filterMap.mp hr
    obtain ⟨x, hx, -, -, -, -, s, -, -, -, extra, hreport, -⟩ := child_spec I hchildren hp hpid hn
    obtain ⟨hname, hxid, -⟩ := reportOn_some (hreport ▸ hr)
    rwa [I.forest.id_inj e he x hx (hid.symm.trans hxid)]
  · intro hname
    obtain ⟨x, hx, -, hnode, -, -, s, -, -, -, extra, hreport, -⟩ :=
      child_spec I hchildren hp hpid hn
    obtain rfl := I.forest.node_inj x hx e he hnode
    obtain ⟨r, hr⟩ := reportOn_hidden extra s hname
    exact ⟨r, List.mem_filterMap.mpr ⟨_, hn, hreport.trans hr⟩, (reportOn_some hr).2.1⟩

theorem reported_once :
    (((ctx.json.elems children).filterMap (reportAt tb ctx id)).map (·.id)).Nodup := by
  rw [List.Nodup, List.pairwise_map, List.pairwise_filterMap]
  refine (elems_nodup I hchildren hp).imp_of_mem fun {n m} hn hm hne r hr r' hr' hsame => hne ?_
  obtain ⟨e, he, -, rfl, -, -, s, -, -, -, extra, hreport, -⟩ := child_spec I hchildren hp hpid hn
  obtain ⟨e', he', -, rfl, -, -, s', -, -, -, extra', hreport', -⟩ :=
    child_spec I hchildren hp hpid hm
  have hid := (reportOn_some (hreport ▸ hr)).2.1
  have hid' := (reportOn_some (hreport' ▸ hr')).2.1
  rw [I.forest.id_inj e he e' he' (hid.symm.trans (hsame.trans hid'))]

/-- If just the bad names are hidden, a filename that is in use is that of a child
that is visible. -/
theorem Judged.exists_named (J : Judged ctx S (ctx.json.elems children)) {s : Bytes}
    (hvalid : validateFilename s = none) {elders rest : List NodeRef}
    (hcut : ctx.json.elems children = elders ++ rest) {m : NodeRef} (hm : m ∈ elders)
    (hname : ctx.json.nameOf m = some s) : ∃ f, Named ctx S id s f := by
  induction elders using List.reverseRecOn generalizing rest m with
  | nil => cases hm
  | append_singleton elders x ih =>
    have hcut' : ctx.json.elems children = elders ++ x :: rest := by
      rw [hcut, List.append_assoc]; rfl
    obtain hm | hm := List.mem_append.mp hm
    · exact ih hcut' hm hname
    obtain rfl := List.mem_singleton.mp hm
    obtain ⟨e, he, hroot, rfl, hparent, -, t, ht, hsame, -⟩ :=
      child_spec I hchildren hp hpid (hcut' ▸ List.mem_append_right _ List.mem_cons_self)
    obtain rfl := Option.some.inj (ht.symm.trans hname)
    by_cases hhidden : (ctx.ents e).name = none
    · obtain ⟨s', hs', hbad⟩ := (J elders e rest he hroot hcut').mp hhidden
      obtain rfl := Option.some.inj (ht.symm.trans hs')
      obtain ⟨m', hm', hname'⟩ := hbad.resolve_left (not_not.mpr hvalid)
      exact ih hcut' hm' hname'
    · obtain ⟨name, hshown⟩ := Option.ne_none_iff_exists'.mp hhidden
      obtain rfl := hsame name hshown
      exact ⟨e, mem_named.mpr ⟨he, hroot, hhidden⟩, hparent, hshown⟩

theorem scanRight_iff : ScanRight ctx.json (ctx.json.elems children)
    ((ctx.json.elems children).filterMap (reportAt tb ctx id)) ↔
    Judged ctx S (ctx.json.elems children) := by
  constructor
  · intro h elders e younger he hroot hcut
    rw [← h.bad elders _ younger _ hcut (I.forest.describes e he hroot).id]
    exact (reported_iff I hchildren hp hpid he
      (hcut ▸ List.mem_append_right _ List.mem_cons_self)).symm
  · intro J
    refine ⟨?_, ?_, ?_, ?_⟩
    · intro elders n younger i hcut hi
      have hn : n ∈ ctx.json.elems children := hcut ▸ List.mem_append_right _ List.mem_cons_self
      obtain ⟨e, he, hroot, rfl, -, hid, -⟩ := child_spec I hchildren hp hpid hn
      obtain rfl := Option.some.inj (hid.symm.trans hi)
      rw [reported_iff I hchildren hp hpid he hn]
      exact J elders e younger he hroot hcut
    · exact reported_once I hchildren hp hpid
    · intro r hr
      obtain ⟨n, hn, hr⟩ := List.mem_filterMap.mp hr
      obtain ⟨e, he, -, rfl, -, hid, s, -, -, -, extra, hreport, -⟩ :=
        child_spec I hchildren hp hpid hn
      exact ⟨_, hn, by rw [hid, (reportOn_some (hreport ▸ hr)).2.1]⟩
    · intro r hr hdup
      obtain ⟨n, hn, hr⟩ := List.mem_filterMap.mp hr
      obtain ⟨e, he, hroot, rfl, -, hid, s, hs, -, -, extra, hreport, hextra⟩ :=
        child_spec I hchildren hp hpid hn
      obtain ⟨hhidden, hrid, hextra'⟩ := reportOn_some (hreport ▸ hr)
      obtain ⟨hvalid, rfl⟩ := hextra' hdup
      obtain ⟨elders, younger, hcut⟩ := List.append_of_mem hn
      obtain ⟨s', hs', hbad⟩ := (J elders e younger he hroot hcut).mp hhidden
      obtain rfl := Option.some.inj (hs.symm.trans hs')
      obtain ⟨m, hm, hname⟩ := hbad.resolve_left (not_not.mpr hvalid)
      obtain ⟨g, hg⟩ := J.exists_named I hchildren hp hpid hvalid hcut hm hname
      obtain ⟨f, hf, hfid⟩ | ⟨-, hfree⟩ := hextra
      · obtain ⟨hfS, hfroot, hfname⟩ := mem_named.mp hf.1
        refine ⟨_, hn, (ctx.ents f).node, (mem_elems_iff I hp hchildren).mpr
          ⟨f, hfS, hfroot, rfl, hf.2.1.trans hpid.symm⟩, fun hsame => ?_, by rw [hid, hrid],
            ?_, s, hs, ?_⟩
        · rw [I.forest.node_inj e he f hfS hsame] at hhidden
          exact hfname hhidden
        · rw [hfid]
          exact (I.forest.describes f hfS hfroot).id
        · obtain ⟨t, -, ht, hsame⟩ := nameOf_spec I hfS hfroot
          rw [ht, hsame s hf.2.2]
      · exact absurd hg (hfree g)

end Reports

/-! ## Changes elsewhere -/

namespace ChildrenKept

variable {p : EntryRef} {ctx'' : Ctx w}

theorem refl (ctx : Ctx w) (p : EntryRef) : ChildrenKept ctx ctx p :=
  ⟨⟨rfl, rfl⟩, fun _ _ => rfl, fun _ => Iff.rfl, fun _ _ => ⟨rfl, rfl, rfl, rfl, rfl⟩⟩

theorem trans (h : ChildrenKept ctx ctx' p) (h' : ChildrenKept ctx' ctx'' p) :
    ChildrenKept ctx ctx'' p where
  folder := ⟨h'.folder.1.trans h.folder.1, h'.folder.2.trans h.folder.2⟩
  nodes c hc := (h'.nodes c (h.folder.2.trans hc)).trans (h.nodes c hc)
  child e := h.folder.1 ▸ (h'.child e).trans (h.folder.1.symm ▸ h.child e)
  entry e he := by
    obtain ⟨hid, hname, hparse, hnameOf, hnode⟩ := h.entry e he
    obtain ⟨hid', hname', hparse', hnameOf', hnode'⟩ :=
      h'.entry e (h.folder.1.symm ▸ (h.child e).mpr he)
    rw [hnode] at hparse' hnameOf' hnode'
    exact ⟨hid'.trans hid, hname'.trans hname, hparse'.trans hparse, hnameOf'.trans hnameOf, hnode'⟩

end ChildrenKept

/-- The children of a folder are what they were when the store was loaded, and lookups find those
that have names. -/
def SinceLoad (tb : Tables w) (ctx₀ : Ctx w) (p : EntryRef) (ctx : Ctx w) : Prop :=
  ChildrenKept ctx₀ ctx p ∧ ∃ S N filed, Filing tb ctx S N filed ∧
    ∀ e, ChildOf ctx (ctx₀.ents p).id e →
    (e ∈ N ↔ (ctx.ents e).name ≠ none) ∧ (e ∈ N → filed e = assocmapHash tb ctx.ents e)

theorem sinceLoad_invariant {digest : Bytes → Word w} {S : Finset EntryRef}
    (I : Inv (.real digest) ctx₀ S) (hflag : ctx₀.flags.filenameGuid = false) (p : EntryRef) :
    (elsewhere (.real digest) ctx₀ p).Invariant (SinceLoad (.real digest) ctx₀ p) where
  init := by
    rintro ctx rfl
    refine ⟨.refl ctx p, S, _, _, I.filing hflag, fun e he => ⟨?_, fun _ => rfl⟩⟩
    rw [mem_named, and_iff_right ((I.entries e).mpr he.1), and_iff_right he.2.1]
  step := by
    rintro ctx ⟨env, call⟩ ctx' ⟨hkept, S, N, filed, F, hfiled⟩ ⟨hload, hsteady, hcall⟩ hrun
    have hstep := hcall ctx' hrun
    obtain ⟨S', N', filed', F', hnext⟩ := Call.run_files F hload hsteady hrun
    refine ⟨hkept.trans hstep, S', N', filed', F', fun e he => ?_⟩
    have he₀ : ChildOf ctx (ctx₀.ents p).id e := by
      rw [← hkept.folder.1] at he ⊢
      exact (hstep.child e).mp he
    obtain ⟨-, hname, -⟩ := hstep.entry e (hkept.folder.1.symm ▸ he₀)
    have hparent : (ctx'.ents e).parentId = (ctx.ents e).parentId := he.2.2.trans he₀.2.2.symm
    obtain ⟨hmem, hrefiled⟩ :=
      hnext e ((F.id.contains_iff e).mp he₀.1) ((F'.id.contains_iff e).mp he.1) hparent hname
    obtain ⟨hnamed, hhash⟩ := hfiled e he₀
    rw [hmem, hname]
    refine ⟨hnamed, fun heN => (hrefiled heN).elim (fun h => ?_) id⟩
    rw [h, hhash heN, assocmapHash_congr hparent hname]

section Loaded

variable {p : EntryRef} {children : Value}

/-- A load hides just the bad names in a directory that it shows. -/
theorem judged_of_load (I : Inv tb ctx S) (hnames : NamesAsLoaded ctx.json ctx.ents S nonePending)
    (hp : p ∈ S)
    (hpname : (ctx.ents p).name ≠ none) (hchildren : (ctx.ents p).children = some children) :
    Judged ctx S (ctx.json.elems children) := by
  have hdir : Directory ctx S (ctx.ents p).id p := ⟨hp, rfl, hpname, by simp [hchildren]⟩
  intro elders e younger he hroot hcut
  cases children with
  | string s => exact absurd hcut (by simp [Json.elems])
  | other content => exact absurd hcut (by simp [Json.elems])
  | array a =>
  have hshown : ∀ elders e younger, e ∈ S → e ≠ rootEntry →
    ctx.json.array a = elders ++ (ctx.ents e).node :: younger →
      ∀ s, ctx.json.nameOf (ctx.ents e).node = some s →
      ((ctx.ents e).name ≠ none ↔ Shown ctx.ents S p s elders) := by
    intro elders e younger he hroot hcut s hs
    obtain ⟨t, ht, hname, -⟩ := nameOf_spec I he hroot
    obtain rfl := Option.some.inj (hname.symm.trans hs)
    exact hnames p hp a hchildren e he hroot elders younger (by rw [hcut, nonePending,
      List.append_nil]) t ht
  obtain ⟨s, -, hs, -⟩ := nameOf_spec I he hroot
  have hiff := hshown elders e younger he hroot hcut s hs
  have helder : ∀ m ∈ elders, m ∈ ctx.json.array a := fun m hm => by
    rw [show ctx.json.array a = _ from hcut]
    exact List.mem_append_left _ hm
  constructor
  · intro hhidden
    refine ⟨s, hs, or_iff_not_imp_left.mpr fun hvalid => ?_⟩
    by_contra hfree
    refine hiff.mpr ⟨hpname, not_not.mp hvalid, fun x hx hmem hname => hfree ⟨_, hmem, ?_⟩⟩ hhidden
    obtain ⟨y, hy, hyroot, hnode, -⟩ := I.forest.child_entry hp hchildren (helder _ hmem)
    obtain rfl := I.forest.node_inj y hy x hx hnode
    obtain ⟨t, -, ht, hsame⟩ := nameOf_spec I hx hyroot
    rw [ht, hsame s hname]
  · rintro ⟨s', hs', hbad⟩
    obtain rfl := Option.some.inj (hs.symm.trans hs')
    by_contra hvisible
    obtain ⟨-, hvalid, hfree⟩ := hiff.mp hvisible
    obtain ⟨m, hm, hname⟩ := hbad.resolve_left (not_not.mpr hvalid)
    obtain ⟨x, hx, hxroot, rfl, -⟩ := I.forest.child_entry hp hchildren (helder m hm)
    obtain ⟨t, -, ht, hsame⟩ := nameOf_spec I hx hxroot
    obtain rfl := Option.some.inj (ht.symm.trans hname)
    -- The elder sibling is visible, or hidden for the sake of another one with that name.
    obtain ⟨elders', younger', rfl⟩ := List.append_of_mem hm
    have hxiff := hshown elders' x (younger' ++ (ctx.ents e).node :: younger) hx hxroot
      (by rw [show ctx.json.array a = _ from hcut, List.append_assoc]; rfl) t ht
    by_cases hxname : (ctx.ents x).name ≠ none
    · obtain ⟨name, hxname⟩ := Option.ne_none_iff_exists'.mp hxname
      obtain rfl := hsame name hxname
      exact hfree x hx hm hxname
    · refine hxname (hxiff.mpr ⟨hpname, hvalid, fun y hy hmem => hfree y hy
        (List.mem_append_left _ hmem)⟩)

variable (I : Inv tb ctx₀ S) (K : SinceLoad tb ctx₀ p ctx) (hp : p ∈ S)
  (hchildren : (ctx₀.ents p).children = some children)

include I K hp hchildren

theorem SinceLoad.node {n : NodeRef} (hn : n ∈ ctx₀.json.elems children) :
    parseId ctx.json n = parseId ctx₀.json n ∧ ctx.json.nameOf n = ctx₀.json.nameOf n := by
  obtain ⟨e, he, hroot, rfl, hparent⟩ := (mem_elems_iff I hp hchildren).mp hn
  obtain ⟨-, -, hid, hname, -⟩ := K.1.entry e ⟨(I.entries e).mp he, hroot, hparent⟩
  exact ⟨hid, hname⟩

/-- What is reported on a child is what would have been reported after the load. -/
theorem SinceLoad.fsckChild_eq {n : NodeRef} (hn : n ∈ ctx₀.json.elems children) :
    fsckChild tb ctx (ctx₀.ents p).id n = .ok (reportAt tb ctx₀ (ctx₀.ents p).id n) := by
  obtain ⟨hparse, hname⟩ := K.node I hp hchildren hn
  obtain ⟨e, he, hroot, rfl, hparent, hid, s, hs, -, -, extra, hreport, hextra⟩ :=
    child_spec I hchildren hp rfl hn
  obtain ⟨hkept, S', N, filed, F, hfiled⟩ := K
  have hchild : ChildOf ctx₀ (ctx₀.ents p).id e := ⟨(I.entries e).mp he, hroot, hparent⟩
  obtain ⟨hsame, hnamed, -⟩ := hkept.entry e hchild
  have heS : e ∈ S' := (F.id.contains_iff e).mp ((hkept.child e).mpr hchild).1
  obtain ⟨r, hlook, hr⟩ := F.lookupId_spec (ctx.ents e).id
  obtain rfl : r = some e := (hr e).mpr ⟨heS, rfl⟩
  obtain ⟨found, hassoc, hfound, hnone⟩ := F.lookupAssoc_spec (ctx₀.ents p).id s
  rw [Chromium.fsckChild_eq (hparse.trans (hid.trans (by rw [hsame]))) hlook (hname.trans hs)
    hassoc, hreport]
  have hon : ∀ extra, ctx.reportOn extra e s = ctx₀.reportOn extra e s := fun extra => by
    rw [Ctx.reportOn, Ctx.reportOn, hsame, hnamed]
  rw [hon]
  congr 2
  -- A name that is found now was found after the load, and the other way round.
  cases found with
  | some q =>
    obtain ⟨hq, hqparent, hqname, -⟩ := hfound q.1 q.2 rfl
    have hqchild : ChildOf ctx (ctx₀.ents p).id q.1 :=
      ⟨(F.id.contains_iff q.1).mpr (F.mem q.1 hq), fun h => F.root.2.1 (h ▸ hq), hqparent⟩
    have hqchild₀ := (hkept.child q.1).mp hqchild
    obtain ⟨hqid, hqname₀, -⟩ := hkept.entry q.1 hqchild₀
    have hqNamed : Named ctx₀ S (ctx₀.ents p).id s q.1 := by
      refine ⟨mem_named.mpr ⟨(I.entries q.1).mpr hqchild₀.1, hqchild₀.2.1, ?_⟩, hqchild₀.2.2,
        hqname₀ ▸ hqname⟩
      rw [← hqname₀, hqname]
      exact Option.some_ne_none _
    obtain ⟨f, hf, rfl⟩ | ⟨-, hfree⟩ := hextra
    · obtain rfl := I.indexed.names f hf.1 q.1 hqNamed.1 (hf.2.1.trans hqNamed.2.1.symm)
        (hf.2.2.trans hqNamed.2.2.symm)
      exact hqid
    · exact absurd hqNamed (hfree q.1)
  | none =>
    obtain ⟨f, hf, -⟩ | ⟨rfl, -⟩ := hextra
    · obtain ⟨hfS, hfroot, hfname⟩ := mem_named.mp hf.1
      have hfchild₀ : ChildOf ctx₀ (ctx₀.ents p).id f := ⟨(I.entries f).mp hfS, hfroot, hf.2.1⟩
      have hfchild := (hkept.child f).mpr hfchild₀
      obtain ⟨-, hfname', -⟩ := hkept.entry f hfchild₀
      obtain ⟨hmem, hhash⟩ := hfiled f hfchild
      have hfN := hmem.mpr (hfname' ▸ hfname)
      exact absurd (hhash hfN) (hnone rfl f hfN hfchild.2.2 (hfname'.trans hf.2.2))
    · rfl

end Loaded

/-- Only the names and identifiers of the nodes matter to what is to be reported. -/
theorem ScanRight.congr {json json' : Json} {nodes : List NodeRef} {reports : List FsckReport}
    (h : ScanRight json nodes reports)
    (hsame : ∀ n ∈ nodes, parseId json' n = parseId json n ∧ json'.nameOf n = json.nameOf n) :
    ScanRight json' nodes reports where
  bad elders n younger id hcut hid := by
    have hn : n ∈ nodes := hcut ▸ List.mem_append_right _ List.mem_cons_self
    rw [h.bad elders n younger id hcut ((hsame n hn).1 ▸ hid), BadName, BadName, (hsame n hn).2]
    refine exists_congr fun name => and_congr_right fun _ =>
      or_congr_right (exists_congr fun m => ?_)
    exact and_congr_right fun hm => by rw [(hsame m (hcut ▸ List.mem_append_left _ hm)).2]
  once := h.once
  only r hr := by
    obtain ⟨n, hn, hid⟩ := h.only r hr
    exact ⟨n, hn, (hsame n hn).1.trans hid⟩
  duplicate r hr hdup := by
    obtain ⟨n, hn, m, hm, hne, hid, hextra, name, hname, hname'⟩ := h.duplicate r hr hdup
    exact ⟨n, hn, m, hm, hne, (hsame n hn).1.trans hid, (hsame m hm).1.trans hextra, name,
      (hsame n hn).2.trans hname, (hsame m hm).2.trans hname'⟩

/-- A load judges the children of a folder as it should just if it shows the folder, or none of
them has a valid name. -/
theorem judged_iff {p : EntryRef} {children : Value} (I : Inv tb ctx S)
    (hnames : NamesAsLoaded ctx.json ctx.ents S nonePending) (hp : p ∈ S)
    (hchildren : (ctx.ents p).children = some children) :
    Judged ctx S (ctx.json.elems children) ↔ (ctx.ents p).name ≠ none ∨
      ∀ n ∈ ctx.json.elems children, ∀ name, ctx.json.nameOf n = some name →
      validateFilename name ≠ none := by
  by_cases hvisible : (ctx.ents p).name ≠ none
  · exact iff_of_true (judged_of_load I hnames hp hvisible hchildren) (.inl hvisible)
  -- All that is below a hidden folder is hidden.
  have hhidden : ∀ e ∈ S, e ≠ rootEntry → (ctx.ents e).parentId = (ctx.ents p).id →
    (ctx.ents e).name = none := by
    intro e he hroot hparent
    by_contra hname
    exact hvisible (I.shown e (mem_named.mpr ⟨he, hroot, hname⟩) p hp hparent.symm)
  constructor
  · intro J
    refine .inr fun n hn name hname hvalid => ?_
    obtain ⟨f, hf, hparent, -⟩ :=
      J.exists_named I hchildren hp rfl hvalid (List.append_nil _).symm hn hname
    obtain ⟨hfS, hroot, hfname⟩ := mem_named.mp hf
    exact hfname (hhidden f hfS hroot hparent)
  · rintro (hname | hall)
    · exact absurd hname hvisible
    · intro elders e younger he hroot hcut
      have hn : (ctx.ents e).node ∈ ctx.json.elems children :=
        hcut ▸ List.mem_append_right _ List.mem_cons_self
      obtain ⟨s, -, hs, -⟩ := nameOf_spec I he hroot
      obtain ⟨x, hx, hxroot, hnode, hparent⟩ := (mem_elems_iff I hp hchildren).mp hn
      obtain rfl := I.forest.node_inj x hx e he hnode
      exact iff_of_true (hhidden x hx hxroot hparent) ⟨s, hs, .inl (hall _ hn s hs)⟩

/-- Scans of a directory that is visible report what they should just if the directory was
visible from the start, or has no child with a valid name, whatever has been done elsewhere
since the load. -/
theorem scanned_iff (digest : Bytes → Word w) {flags : Flags} {file : Env} {p : EntryRef}
    {children : Value} (hflag : flags.filenameGuid = false) (hfile : file.WellFormed)
    (hstart : storeLoad (Tables.real digest) (.created flags) file = .ok (none, ctx₀))
    (hp : ctx₀.idMap.Contains p) (hreach : (elsewhere (Tables.real digest) ctx₀ p).Reachable ctx)
    (hload : storeLoad (Tables.real digest) ctx env = .ok (none, ctx))
    (hpmem : ctx.idMap.Contains p) (hpname : (ctx.ents p).name ≠ none)
    (hchildren : (ctx.ents p).children = some children) :
    Scanned (Tables.real digest) ctx env (ctx.ents p).id (ctx.json.elems children) ↔
      (ctx₀.ents p).name ≠ none ∨ ∀ n ∈ ctx.json.elems children, ∀ name,
      ctx.json.nameOf n = some name →
        validateFilename name ≠ none := by
  obtain ⟨-, -, rfl, S, I, hnames⟩ := first_load_spec (Tables.real_faithful digest) hfile hstart
  have K := hreach.holds (sinceLoad_invariant I hflag p)
  have hpS : p ∈ S := (I.entries p).mpr hp
  have hchildren₀ : (ctx₀.ents p).children = some children := K.1.folder.2 ▸ hchildren
  have hnodes : ctx.json.elems children = ctx₀.json.elems children := K.1.nodes children hchildren₀
  have hsame := fun n hn => K.node I hpS hchildren₀ (n := n) hn
  obtain ⟨-, S', N, filed, F, -⟩ := id K
  obtain ⟨r, hlook, hr⟩ := F.lookupId_spec (ctx.ents p).id
  obtain rfl : r = some p := (hr p).mpr ⟨(F.id.contains_iff p).mp hpmem, rfl⟩
  have hcheck : checkDir (Tables.real digest) ctx env (ctx.ents p).id =
    .ok (.ok children, ctx) := by
    simp only [checkDir, F.title, Bool.false_eq_true, if_false, hload, hlook, ok_bind,
      if_neg hpname, hchildren]
  have hrun : ∀ n ∈ ctx.json.elems children, fsckChild (Tables.real digest) ctx (ctx.ents p).id n =
      .ok (reportAt (Tables.real digest) ctx₀ (ctx₀.ents p).id n) := fun n hn => by
    rw [K.1.folder.1]
    exact K.fsckChild_eq I hpS hchildren₀ (hnodes ▸ hn)
  have hright : Scanned (Tables.real digest) ctx env (ctx.ents p).id (ctx.json.elems children) ↔
      ScanRight ctx.json (ctx₀.json.elems children)
        ((ctx₀.json.elems children).filterMap (reportAt (Tables.real digest) ctx₀
          (ctx₀.ents p).id)) := by
    simp only [Scanned, scans_iff hcheck hrun, List.drop_zero, exists_eq_left, forall_const, hnodes]
  rw [hright, hnodes]
  refine Iff.trans ⟨fun h => h.congr fun n hn => ⟨(hsame n hn).1.symm, (hsame n hn).2.symm⟩,
    fun h => h.congr hsame⟩ ?_
  rw [scanRight_iff I hchildren₀ hpS rfl, judged_iff I (hnames hflag) hpS hchildren₀]
  refine or_congr_right (forall₂_congr fun n hn => ?_)
  rw [(hsame n hn).2]

/-- Two folders of one name, the second of which has a bookmark -/
def twoFoldersOfAName : Env :=
  .written (.written [writtenFolder 1 [65] 0, writtenFolder 2 [66] 1, writtenFolder 3 [66] 2,
    writtenUrl 4 [97] []]
    [[1, 2], [], [3]]) [0]

/-- The check that the children of a folder are left alone, on the entries of the map. -/
theorem ChildrenKept.of_visited {p : EntryRef} {children : Value}
    (hfolder : (ctx.ents p).children = some children ∧ (ctx'.ents p).id = (ctx.ents p).id ∧
      (ctx'.ents p).children = (ctx.ents p).children ∧
      ctx'.json.elems children = ctx.json.elems children)
    (hnew : ∀ e ∈ ctx'.idMap.visited, e ∉ ctx.idMap.visited →
      (ctx'.ents e).parentId ≠ (ctx.ents p).id)
    (hold : ∀ e ∈ ctx.idMap.visited, e ∈ ctx'.idMap.visited ∧ (ctx'.ents e).id = (ctx.ents e).id ∧
      (ctx'.ents e).parentId = (ctx.ents e).parentId ∧ (ctx'.ents e).name = (ctx.ents e).name ∧
      parseId ctx'.json (ctx.ents e).node = parseId ctx.json (ctx.ents e).node ∧
      ctx'.json.nameOf (ctx.ents e).node = ctx.json.nameOf (ctx.ents e).node ∧
      (ctx'.ents e).node = (ctx.ents e).node) : ChildrenKept ctx ctx' p where
  folder := ⟨hfolder.2.1, hfolder.2.2.1⟩
  nodes c hc := Option.some.inj (hc.symm.trans hfolder.1) ▸ hfolder.2.2.2
  child e := by
    simp only [ChildOf, ← Hashmap.mem_visited_iff]
    by_cases he : e ∈ ctx.idMap.visited
    · obtain ⟨he', -, hparent, -⟩ := hold e he
      rw [hparent, iff_true_intro he, iff_true_intro he']
    · refine iff_of_false (fun h => hnew e h.1 he h.2.2) fun h => he h.1
  entry e he := by
    obtain ⟨-, hid, -, hname, hparse, hnameOf, hnode⟩ :=
      hold e ((Hashmap.mem_visited_iff _ e).mpr he.1)
    exact ⟨hid, hname, hparse, hnameOf, hnode⟩

set_option synthInstance.maxSize 512 in
/-- Of two folders of one name, the second is reported, also when a file has been made
in the first. -/
theorem scanned_twoFoldersOfAName : ∃ ctx₀ ctx : Ctx .w64,
    storeLoad colliding (.created ⟨false, false, false⟩) twoFoldersOfAName = .ok (none, ctx₀) ∧
    (Call.create 2 nameA false).run colliding ctx₀ twoFoldersOfAName = .ok ctx ∧
    Scanned colliding ctx twoFoldersOfAName 1 (ctx.json.elems (.array 0)) := by
  have h : Yields (fun _ => False) (storeLoad colliding (.created ⟨false, false, false⟩)
    twoFoldersOfAName) fun r =>
      r.1 = none ∧ (r.2.watching = true ∧ r.2.loaded = true ∧ 1 ∈ r.2.idMap.visited ∧
        (r.2.ents 1).name ≠ none) ∧
      Yields (fun _ => False) ((Call.create 2 nameA false).run colliding r.2 twoFoldersOfAName)
      fun ctx =>
        (ctx.watching = true ∧ ctx.loaded = true ∧ 1 ∈ ctx.idMap.visited ∧
          (ctx.ents 1).name ≠ none ∧
          (ctx.ents 1).id = 1 ∧ (ctx.ents 1).children = some (.array 0)) ∧
        ((r.2.ents 1).children = some (.array 0) ∧ (ctx.ents 1).id = (r.2.ents 1).id ∧
          (ctx.ents 1).children = (r.2.ents 1).children ∧
          ctx.json.elems (.array 0) = r.2.json.elems (.array 0)) ∧
        (∀ e ∈ ctx.idMap.visited, e ∉ r.2.idMap.visited → (ctx.ents e).parentId ≠ (r.2.ents 1).id) ∧
        ∀ e ∈ r.2.idMap.visited, e ∈ ctx.idMap.visited ∧ (ctx.ents e).id = (r.2.ents e).id ∧
          (ctx.ents e).parentId = (r.2.ents e).parentId ∧ (ctx.ents e).name = (r.2.ents e).name ∧
          parseId ctx.json (r.2.ents e).node = parseId r.2.json (r.2.ents e).node ∧
          ctx.json.nameOf (r.2.ents e).node = r.2.json.nameOf (r.2.ents e).node ∧
          (ctx.ents e).node = (r.2.ents e).node := by
    decide +kernel
  obtain ⟨⟨_, ctx₀⟩, hstart, rfl, ⟨hwatching₀, hloaded₀, hp, hvisible⟩, h⟩ := h.exists_ok
  obtain ⟨ctx, hrun, ⟨hwatching, hloaded, hpmem, hpname, hid, hchildren⟩, hfolder, hnew, hold⟩ :=
    h.exists_ok
  have hwf : twoFoldersOfAName.WellFormed := Env.written_wellFormed (by decide +kernel)
  have hreach : (elsewhere colliding ctx₀ 1).Reachable ctx := by
    have hstep : (elsewhere colliding ctx₀ 1).step ctx₀ (twoFoldersOfAName, .create 2 nameA false) =
      .ok ctx := hrun
    refine .step (.init rfl) ?_ hstep
    refine ⟨storeLoad_loaded hwatching₀ hloaded₀ rfl, trivial, fun ctx' hrun' => ?_⟩
    obtain rfl : ctx = ctx' := Except.ok.inj (hrun.symm.trans hrun')
    exact .of_visited hfolder hnew hold
  have hscanned :=
    (scanned_iff (fun _ => 0) (p := 1) rfl hwf hstart ((Hashmap.mem_visited_iff _ _).mp hp) hreach
    (storeLoad_loaded hwatching hloaded (rfl : twoFoldersOfAName.poll = .unchanged))
    ((Hashmap.mem_visited_iff _ _).mp hpmem) hpname hchildren).mpr (.inl hvisible)
  rw [hid] at hscanned
  exact ⟨ctx₀, ctx, hstart, hrun, hscanned⟩

def nameC : CString := ⟨[99], by decide⟩

set_option synthInstance.maxSize 512 in
/-- In the folder that is repaired, the only bookmark is reported for a duplicate. -/
theorem repaired_folder_scanned : ∃ ctx₀ ctx : Ctx .w64,
    storeLoad colliding (.created ⟨false, false, false⟩) twoFoldersOfAName = .ok (none, ctx₀) ∧
    bookmarkCheckApply colliding ctx₀ twoFoldersOfAName 1 3 nameC = .ok (.ok none, ctx) ∧
    ¬Scanned colliding ctx twoFoldersOfAName 3 (ctx.json.elems (.array 2)) := by
  have h : Yields (fun _ => False) (storeLoad colliding (.created ⟨false, false, false⟩)
    twoFoldersOfAName) fun r =>
      r.1 = none ∧ Yields (fun _ => False)
        (bookmarkCheckApply colliding r.2 twoFoldersOfAName 1 3 nameC) fun r' =>
        r'.1 = .ok none ∧ r'.2.json.array 2 = [3] ∧ parseId r'.2.json 3 = some 4 ∧
          r'.2.json.nameOf 3 = some [97] ∧
          Prod.fst <$> bookmarkCheckNext colliding r'.2 twoFoldersOfAName 3 (fun _ => 1) 0 =
            .ok (.ok (1, 1, [⟨.nameDuplicate, 4, rootId, [97]⟩])) := by
    decide +kernel
  obtain ⟨⟨_, ctx₀⟩, hload, rfl, h⟩ := h.exists_ok
  obtain ⟨⟨_, ctx⟩, hrun, rfl, harray, hid, hname, hnext⟩ := h.exists_ok
  refine ⟨ctx₀, ctx, hload, hrun, fun hscanned => ?_⟩
  obtain ⟨reports, hscan, hright⟩ := hscanned fun _ _ => 1
  have hreported : ∃ r ∈ reports, r.id = 4 := by
    cases hscan with
    | done hrun =>
      rw [hrun] at hnext
      cases hnext
    | more hrun hne hrest =>
      rw [hrun] at hnext
      cases hnext
      exact ⟨_, List.mem_append_left _ List.mem_cons_self, rfl⟩
  obtain ⟨name, hname', hinvalid | ⟨m, hm, -⟩⟩ := (hright.bad [] 3 [] 4 harray hid).mp hreported
  · obtain rfl := Option.some.inj (hname.symm.trans hname')
    exact hinvalid rfl
  · cases hm

end BookmarkFS.Chromium
