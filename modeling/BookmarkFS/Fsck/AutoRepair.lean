import BookmarkFS.Fsck.Proposals

/-! # Repairs without a user, to their end

Each hidden child gets a name that the backend accepts. Whether it is found under
it depends on the hashcodes: those that `fsck_apply()` computes must be those of
the directory.
-/
namespace BookmarkFS.Fsck
open Library Hopscotch Chromium

/-! ## One bookmark -/

section Applying

variable {w : WordSize} {tb : Tables w} {env : Env} {ctx : Ctx w} {parentId id : ℕ} {e : EntryRef}

/-- `fsck_apply()` finds the name, under the hashcode that it has with the identifier
of the entry. -/
def FoundFor (tb : Tables w) (ctx : Ctx w) (parentId id : ℕ) (name : Bytes) : Prop :=
  ∃ q, hashmapSearch (assocmapComp ctx.ents parentId name) ctx.assocMap (hashAssoc tb id name) =
    .ok (some q)

/-- A new name for the entry, which comes to be filed in the association map. -/
def giveName (tb : Tables w) (ctx : Ctx w) (id : ℕ) (e : EntryRef) (name : Bytes) :
    Except Hopscotch.Fault (Hashmap w EntryRef) :=
  tb.insert (assocmapHash tb (Function.update ctx.ents e { ctx.ents e with name := some name }))
    ctx.assocMap
    (hashAssoc tb id name) e

theorem bufferStr_proposed (buf : Bytes) : proposed (bufferStr buf) = (bufferStr buf).val :=
  List.take_of_length_le (bufferStr_length buf)

/-- A directory that can be checked, and a child of it that has no name -/
structure Repairable (tb : Tables w) (env : Env) (ctx : Ctx w) (parentId id : ℕ)
    (e : EntryRef) : Prop where
  checked : ∃ children, checkDir tb ctx env parentId = .ok (.ok children, ctx)
  lookup : lookupId tb ctx id = .ok (some e)
  search : ∀ name, ∃ found,
    hashmapSearch (assocmapComp ctx.ents parentId name) ctx.assocMap (hashAssoc tb id name) =
    .ok found
  id : (ctx.ents e).id = id
  parent : (ctx.ents e).parentId = parentId
  name : (ctx.ents e).name = none

variable (R : Repairable tb env ctx parentId id e)

include R

theorem fsckApply_objects {str : CString} {why : FsckResult} {extra : ℕ}
    (hstr : proposed str = str.val)
    (hobjects : Objects (FoundFor tb ctx parentId id) id str.val why extra) :
    fsckApply tb ctx parentId id str = .ok (.ok (some ⟨why, id, extra, str.val⟩), ctx) := by
  rw [fsckApply_start str R.lookup R.parent R.name, hstr]
  cases hobjects with
  | invalid hinvalid => simp only [hinvalid]; rfl
  | duplicate hvalid htaken =>
    obtain ⟨q, hq⟩ := htaken
    simp only [validateFilenameFsck_none.mpr hvalid, hq, ok_bind, R.id]
    rfl
  | notUtf8 hvalid hfree hutf8 =>
    obtain ⟨found, hfound⟩ := R.search str.val
    obtain rfl : found = none := Option.eq_none_iff_forall_ne_some.mpr fun q hq =>
      hfree ⟨q, hq ▸ hfound⟩
    simp only [validateFilenameFsck_none.mpr hvalid, hfound, ok_bind, jsonStringn, hutf8]
    rfl

theorem fsckApply_accepts {str : CString} (hstr : proposed str = str.val)
    (hvalid : validateFilename str.val = none)
    (hfree : ¬FoundFor tb ctx parentId id str.val) (hutf8 : validUtf8 str.val = true) :
    fsckApply tb ctx parentId id str = giveName tb ctx id e str.val >>= fun assocMap =>
      .ok (.ok none, repaired ctx e str.val assocMap) := by
  obtain ⟨found, hfound⟩ := R.search str.val
  obtain rfl : found = none := Option.eq_none_iff_forall_ne_some.mpr fun q hq =>
    hfree ⟨q, hq ▸ hfound⟩
  rw [fsckApply_start str R.lookup R.parent R.name, hstr]
  simp only [validateFilenameFsck_none.mpr hvalid, hfound, ok_bind, jsonStringn, hutf8, if_true]
  rfl

/-- The loop ends with the name that is accepted, by induction on the proposals. -/
theorem applyFixes_eq {names : List Bytes} {name : Bytes} {h₀ h' : HandlerCtx} {data₀ : FsckData}
    (hproposes : Proposes (FoundFor tb ctx parentId id) parentId h₀ data₀ names h' name)
    (hid : data₀.id = id) {h : HandlerCtx} {why : FsckResult} {data : FsckData}
    (hhandle : handleEntry h parentId why data = (h₀, data₀)) {fuel : ℕ}
    (hfuel : names.length ≤ fuel) :
    applyFixes tb env parentId fuel ctx h why data = giveName tb ctx id e name >>= fun assocMap =>
      .ok (some (none, repaired ctx e name assocMap, h')) := by
  obtain ⟨children, hcheck⟩ := R.checked
  induction hproposes generalizing h why data fuel with
  | @accepted h₀ data₀ hvalid hfree hutf8 =>
    obtain ⟨fuel, rfl⟩ : ∃ n, fuel = n + 1 :=
      Nat.exists_eq_succ_of_ne_zero (by rintro rfl; cases hfuel)
    rw [applyFixes, hhandle]
    simp only [bookmarkCheckApply, hcheck, ok_bind, hid]
    rw [fsckApply_accepts R (bufferStr_proposed _) hvalid hfree hutf8]
    rw [FsckData.str]
    cases giveName tb ctx id e (bufferStr data₀.name) with
    | error err => rfl
    | ok assocMap => rfl
  | @again h₀ h' data₀ why' extra names name hobjects hrest ih =>
    obtain ⟨fuel, rfl⟩ : ∃ n, fuel = n + 1 :=
      Nat.exists_eq_succ_of_ne_zero (by rintro rfl; cases hfuel)
    rw [applyFixes, hhandle]
    rw [hid] at hobjects
    simp only [bookmarkCheckApply, hcheck, ok_bind, hid]
    rw [fsckApply_objects R (bufferStr_proposed _) hobjects]
    refine ih ?_ ?_ (Nat.le_of_succ_le_succ hfuel)
    · rw [handleEntry_id]
      exact hid
    · rw [← hid]

end Applying

/-! ## A directory -/

section Mending

variable {w : WordSize} {tb : Tables w} {env : Env} {ctx₀ ctx ctx' : Ctx w} {S : Finset EntryRef}
  {parentId : ℕ} {todo rest : List NodeRef} {e : EntryRef}

/-- The entries of a directory, as long as none is added or removed -/
def Child (ctx : Ctx w) (S : Finset EntryRef) (parentId : ℕ) (e : EntryRef) : Prop :=
  e ∈ S ∧ e ≠ rootEntry ∧ (ctx.ents e).parentId = parentId

/-- What holds of a store since it has been loaded as `ctx₀`, when all children of a directory but
the nodes `todo` have been dealt with. -/
structure Mending (tb : Tables w) (ctx₀ : Ctx w) (S : Finset EntryRef) (parentId : ℕ) (ctx : Ctx w)
    (todo : List NodeRef) : Prop where
  ready : ctx.watching = true ∧ ctx.loaded = true
  filing : ∃ N filed, Filing tb ctx S N filed
  nodes : ∀ c, ctx.json.elems c = ctx₀.json.elems c
  parse : ∀ n, parseId ctx.json n = parseId ctx₀.json n
  entry : ∀ e, (ctx.ents e).id = (ctx₀.ents e).id ∧ (ctx.ents e).parentId = (ctx₀.ents e).parentId ∧
    (ctx.ents e).children = (ctx₀.ents e).children ∧ (ctx.ents e).node = (ctx₀.ents e).node
  waiting : ∀ e, Child ctx₀ S parentId e → (ctx₀.ents e).node ∈ todo →
    (ctx.ents e).name = (ctx₀.ents e).name ∧
    ctx.json.nameOf (ctx₀.ents e).node = ctx₀.json.nameOf (ctx₀.ents e).node
  kept : ∀ e, (ctx₀.ents e).name ≠ none → (ctx.ents e).name = (ctx₀.ents e).name
  done : ∀ e, Child ctx₀ S parentId e → (ctx₀.ents e).node ∉ todo → (ctx.ents e).name ≠ none
  valid : ∀ e name, Child ctx₀ S parentId e → (ctx.ents e).name = some name →
    validateFilename name = none

def TakenIn (ctx : Ctx w) (parentId : ℕ) (name : Bytes) : Prop :=
  ∃ e, ChildOf ctx parentId e ∧ (ctx.ents e).name = some name

theorem childOf_iff (I : Inv tb ctx S) : ChildOf ctx parentId e ↔ Child ctx S parentId e := by
  rw [ChildOf, Child, I.entries]

namespace Mending

variable (M : Mending tb ctx₀ S parentId ctx todo)

include M

theorem childOf_iff : ChildOf ctx parentId e ↔ Child ctx₀ S parentId e := by
  obtain ⟨N, filed, F⟩ := M.filing
  rw [ChildOf, Child, F.id.contains_iff, (M.entry e).2.1]

/-- Children that are visible need nothing to be done. -/
theorem skip (hrest : ∀ n ∈ rest, n ∈ todo)
    (hvisible : ∀ e, Child ctx₀ S parentId e → (ctx₀.ents e).node ∈ todo →
    (ctx₀.ents e).node ∉ rest → (ctx₀.ents e).name ≠ none) :
    Mending tb ctx₀ S parentId ctx rest where
  ready := M.ready
  filing := M.filing
  nodes := M.nodes
  parse := M.parse
  entry := M.entry
  waiting e he hn := M.waiting e he (hrest _ hn)
  kept := M.kept
  done e he hn := by
    by_cases htodo : (ctx₀.ents e).node ∈ todo
    · rw [(M.waiting e he htodo).1]
      exact hvisible e he htodo hn
    · exact M.done e he htodo
  valid := M.valid

/-- A child is given a name. -/
theorem repair {name : Bytes} {assocMap : Hashmap w EntryRef}
    (hfiling : ∃ N filed, Filing tb (repaired ctx e name assocMap) S N filed)
    (hname : (ctx₀.ents e).name = none)
    (hvalid : validateFilename name = none) (hrest : ∀ n ∈ rest, n ∈ todo ∧ n ≠ (ctx₀.ents e).node)
    (hvisible : ∀ x, Child ctx₀ S parentId x → (ctx₀.ents x).node ∈ todo →
      (ctx₀.ents x).node ∉ rest →
      x ≠ e → (ctx₀.ents x).name ≠ none) :
    Mending tb ctx₀ S parentId (repaired ctx e name assocMap) rest where
  ready := M.ready
  filing := hfiling
  nodes c := (by cases c <;> rfl : (repaired ctx e name assocMap).json.elems c =
    ctx.json.elems c).trans (M.nodes c)
  parse n := by
    rw [← M.parse n, parseId, parseId, show (repaired ctx e name assocMap).json.get n .id =
      ctx.json.get n .id from
      Json.get_set_of_key (by decide)]
  entry x := by
    obtain ⟨hid, hparent, hchildren, hnode⟩ := repaired_keeps ctx e name assocMap x
    rw [hid, hparent, hchildren, hnode]
    exact M.entry x
  waiting x hx hn := by
    obtain ⟨htodo, hne⟩ := hrest _ hn
    obtain ⟨hxname, hxnode⟩ := M.waiting x hx htodo
    have hxe : x ≠ e := fun h => hne (h ▸ rfl)
    refine ⟨(repaired_name ctx e name assocMap hxe).trans hxname, Eq.trans ?_ hxnode⟩
    rw [Json.nameOf, Json.nameOf, show (repaired ctx e name assocMap).json.get
      (ctx₀.ents x).node .name =
      ctx.json.get (ctx₀.ents x).node .name from Json.get_set_of_node (by rwa [(M.entry e).2.2.2])]
  kept x hx := by
    have hxe : x ≠ e := fun h => hx (h ▸ hname)
    exact (repaired_name ctx e name assocMap hxe).trans (M.kept x hx)
  done x hx hn := by
    by_cases hxe : x = e
    · rw [hxe, repaired_self]
      exact Option.some_ne_none _
    rw [repaired_name ctx e name assocMap hxe]
    by_cases htodo : (ctx₀.ents x).node ∈ todo
    · rw [(M.waiting x hx htodo).1]
      exact hvisible x hx htodo hn hxe
    · exact M.done x hx htodo
  valid x s hx hs := by
    by_cases hxe : x = e
    · rw [hxe, repaired_self] at hs
      exact Option.some.inj hs ▸ hvalid
    · rw [repaired_name ctx e name assocMap hxe] at hs
      exact M.valid x s hx hs

theorem load (hpoll : env.poll = .unchanged) : storeLoad tb ctx env = .ok (none, ctx) :=
  storeLoad_loaded M.ready.1 M.ready.2 hpoll

section Checked

variable {p : EntryRef} {children : Value} (I : Inv tb ctx₀ S) (hpoll : env.poll = .unchanged)
  (hp : Chromium.Directory ctx₀ S parentId p) (hchildren : (ctx₀.ents p).children = some children)

include hpoll hp hchildren

theorem checked : checkDir tb ctx env parentId = .ok (.ok children, ctx) := by
  obtain ⟨N, filed, F⟩ := M.filing
  obtain ⟨hid, -, hsame, -⟩ := M.entry p
  obtain ⟨r, hlook, hr⟩ := F.lookupId_spec parentId
  obtain rfl : r = some p := (hr p).mpr ⟨hp.1, hid.trans hp.2.1⟩
  have hname : (ctx.ents p).name ≠ none := M.kept p hp.2.2.1 ▸ hp.2.2.1
  simp only [checkDir, F.title, Bool.false_eq_true, if_false, M.load hpoll, hlook, ok_bind,
    if_neg hname, hsame,
    hchildren]

omit hpoll
include I

/-- The report on a child is the one that would have been made after the load, but for what it says
about duplicates. -/
theorem fsckChild_eq {n : NodeRef} (hn : n ∈ ctx₀.json.elems children) (htodo : n ∈ todo) :
    ∃ e s extra extra', Child ctx₀ S parentId e ∧ (ctx₀.ents e).node = n ∧
      reportAt tb ctx₀ parentId n = ctx₀.reportOn extra e s ∧
      fsckChild tb ctx parentId n = .ok (ctx₀.reportOn extra' e s) := by
  obtain ⟨e, he, hroot, rfl, hparent, hid, s, hs, -, -, extra, hreport, -⟩ :=
    child_spec I hchildren hp.1 hp.2.1 hn
  obtain ⟨N, filed, F⟩ := M.filing
  obtain ⟨hname, hnameOf⟩ := M.waiting e ⟨he, hroot, hparent⟩ htodo
  obtain ⟨r, hlook, hr⟩ := F.lookupId_spec (ctx.ents e).id
  obtain rfl : r = some e := (hr e).mpr ⟨he, rfl⟩
  obtain ⟨found, hassoc, -⟩ := F.lookupAssoc_spec parentId s
  refine ⟨e, s, extra, (found.map fun q => (ctx.ents q.1).id).getD rootId, ⟨he, hroot, hparent⟩,
    rfl, hreport, ?_⟩
  rw [Chromium.fsckChild_eq ((M.parse _).trans (hid.trans (by rw [(M.entry e).1]))) hlook
    (hnameOf.trans hs) hassoc,
    Ctx.reportOn, Ctx.reportOn, hname, (M.entry e).1]

theorem silent {n : NodeRef} (hn : n ∈ ctx₀.json.elems children) (htodo : n ∈ todo)
    (hnone : reportAt tb ctx₀ parentId n = none) : fsckChild tb ctx parentId n = .ok none ∧
      ∀ e, Child ctx₀ S parentId e → (ctx₀.ents e).node = n → (ctx₀.ents e).name ≠ none := by
  obtain ⟨e, s, extra, extra', he, rfl, hreport, hrun⟩ := M.fsckChild_eq I hp hchildren hn htodo
  have hname : (ctx₀.ents e).name ≠ none := by
    intro hname
    obtain ⟨r, hr⟩ := reportOn_hidden extra s hname
    rw [hnone, hr] at hreport
    cases hreport
  refine ⟨by rw [hrun, Ctx.reportOn, if_pos hname], fun x hx hnode => ?_⟩
  rwa [I.forest.node_inj x hx.1 e he.1 hnode]

omit I
include hpoll

theorem repairable (he : Child ctx₀ S parentId e) (htodo : (ctx₀.ents e).node ∈ todo)
    (hname : (ctx₀.ents e).name = none) : Repairable tb env ctx parentId (ctx₀.ents e).id e := by
  obtain ⟨N, filed, F⟩ := M.filing
  obtain ⟨hid, hparent, -⟩ := M.entry e
  obtain ⟨r, hlook, hr⟩ := F.lookupId_spec (ctx₀.ents e).id
  obtain rfl : r = some e := (hr e).mpr ⟨he.1, hid⟩
  refine ⟨⟨children, M.checked hpoll hp hchildren⟩, hlook, fun name => ?_, hid,
    hparent.trans he.2.2,
    (M.waiting e he htodo).1.trans hname⟩
  obtain ⟨found, hfound, -⟩ := F.assoc.search (assocmapComp ctx.ents parentId name)
    (hashAssoc tb (ctx₀.ents e).id name)
  exact ⟨found, hfound⟩

end Checked

end Mending

/-- The names in a directory, of which there are no more than it has children -/
def namesIn (ctx : Ctx w) (S : Finset EntryRef) (parentId : ℕ) : Finset Bytes :=
  (S.filter fun e => e ≠ rootEntry ∧ (ctx.ents e).parentId = parentId).image fun e =>
    ((ctx.ents e).name).getD []

theorem card_namesIn_le {p : EntryRef} {children : Value} (I : Inv tb ctx₀ S)
    (M : Mending tb ctx₀ S parentId ctx todo) (hp : Chromium.Directory ctx₀ S parentId p)
    (hchildren : (ctx₀.ents p).children = some children) :
    (namesIn ctx S parentId).card ≤ (ctx₀.json.elems children).length := by
  refine Finset.card_image_le.trans (le_trans ?_ (List.toFinset_card_le _))
  refine Finset.card_le_card_of_injOn (fun e => (ctx₀.ents e).node)
    (fun e he => ?_) fun e he e' he' hsame => ?_
  · obtain ⟨heS, hroot, hparent⟩ := Finset.mem_filter.mp he
    rw [Finset.mem_coe, List.mem_toFinset]
    exact (mem_elems_iff I hp.1 hchildren).mpr
      ⟨e, heS, hroot, rfl, ((M.entry e).2.1.symm.trans hparent).trans hp.2.1.symm⟩
  · exact I.forest.node_inj e (Finset.mem_filter.mp he).1 e' (Finset.mem_filter.mp he').1 hsame

theorem mem_namesIn_of_found (M : Mending tb ctx₀ S parentId ctx todo) {id : ℕ} {name : Bytes}
    (h : FoundFor tb ctx parentId id name) : name ∈ namesIn ctx S parentId := by
  obtain ⟨N, filed, F⟩ := M.filing
  obtain ⟨q, hq⟩ := h
  obtain ⟨r, hrun, hfound, -⟩ :=
    F.assoc.search (assocmapComp ctx.ents parentId name) (hashAssoc tb id name)
  obtain rfl := Except.ok.inj (hq.symm.trans hrun)
  obtain ⟨hmem, hcomp, -⟩ := hfound q.1 q.2 rfl
  simp only [assocmapComp, Bool.and_eq_true, decide_eq_true_eq] at hcomp
  refine Finset.mem_image.mpr ⟨q.1, Finset.mem_filter.mpr ⟨F.mem q.1 hmem, ?_, hcomp.1.symm⟩, ?_⟩
  · exact fun h => F.root.2.1 (h ▸ hmem)
  · rw [← hcomp.2]
    rfl

end Mending

/-! ## The run -/

theorem reportOn_same {w : WordSize} {ctx : Ctx w} {extra : ℕ} {e : EntryRef} {s : Bytes}
    {report : FsckReport}
    (h : ctx.reportOn extra e s = some report) (extra' : ℕ) : ∃ report', ctx.reportOn extra' e s =
    some report' ∧
      report'.id = report.id ∧ report'.result = report.result ∧ report'.name = report.name ∧
      (report.result ≠ .nameDuplicate → report'.extra = report.extra) := by
  rw [Ctx.reportOn] at h ⊢
  split at h
  · cases h
  next hname =>
    rw [if_neg hname]
    split at h
    next result extra hinvalid =>
      obtain rfl := Option.some.inj h
      exact ⟨_, rfl, rfl, rfl, rfl, fun _ => rfl⟩
    next hvalid =>
      obtain rfl := Option.some.inj h
      exact ⟨_, rfl, rfl, rfl, rfl, fun h => absurd rfl h⟩

/-- The names that are proposed for the entry `id` have the hashcodes that they have in
the directory. -/
def Agree {w : WordSize} (tb : Tables w) (parentId : ℕ) (proposals : List (ℕ × Bytes)) : Prop :=
  ∀ q ∈ proposals, validateFilename q.2 = none → hashAssoc tb q.1 q.2 = hashAssoc tb parentId q.2

section Run

variable {w : WordSize} {digest : Bytes → Word w} {env : Env} {ctx₀ ctx ctx' : Ctx w}
  {S : Finset EntryRef}
  {parentId : ℕ} {todo rest : List NodeRef} {p e : EntryRef} {children : Value}

theorem foundFor_iff {tb : Tables w} (I : Inv tb ctx S) {id : ℕ} {name : Bytes}
    (hhash : hashAssoc tb id name = hashAssoc tb parentId name) :
    FoundFor tb ctx parentId id name ↔ TakenIn ctx parentId name := by
  obtain ⟨r, hrun, hfound, hnone⟩ := Chromium.lookupAssoc_spec I.indexed.assoc parentId name
  rw [lookupAssoc] at hrun
  rw [FoundFor, hhash, hrun]
  constructor
  · rintro ⟨q, hq⟩
    obtain ⟨hmem, hparent, hname, -⟩ := hfound q.1 q.2 (Except.ok.inj hq)
    obtain ⟨hqS, hroot, -⟩ := mem_named.mp hmem
    exact ⟨q.1, (childOf_iff I).mpr ⟨hqS, hroot, hparent⟩, hname⟩
  · rintro ⟨x, hx, hname⟩
    obtain ⟨hxS, hroot, hparent⟩ := (childOf_iff I).mp hx
    cases r with
    | none => exact absurd hname (hnone rfl x (mem_named.mpr ⟨hxS, hroot, by simp [hname]⟩) hparent)
    | some q => exact ⟨q, rfl⟩

theorem takenIn_repaired {assocMap : Hashmap w EntryRef} (he : ChildOf ctx parentId e)
    (hname : (ctx.ents e).name = none) (name n : Bytes) :
    TakenIn (repaired ctx e name assocMap) parentId n ↔ TakenIn ctx parentId n ∨ n = name := by
  have hchild : ∀ x, ChildOf (repaired ctx e name assocMap) parentId x ↔ ChildOf ctx parentId x :=
    fun x => by
    rw [ChildOf, ChildOf, (repaired_keeps ctx e name assocMap x).2.1]
    rfl
  constructor
  · rintro ⟨x, hx, hxname⟩
    by_cases hxe : x = e
    · rw [hxe, repaired_self] at hxname
      exact .inr (Option.some.inj hxname).symm
    · exact .inl ⟨x, (hchild x).mp hx, repaired_name ctx e name assocMap hxe ▸ hxname⟩
  · rintro (⟨x, hx, hxname⟩ | rfl)
    · have hxe : x ≠ e := by
        rintro rfl
        rw [hname] at hxname
        cases hxname
      exact ⟨x, (hchild x).mpr hx, (repaired_name ctx e name assocMap hxe).trans hxname⟩
    · exact ⟨e, (hchild e).mpr he, repaired_self ..⟩

/-- What the loop of repairs does for one child. -/
theorem applyFixes_mends (I : Inv (Tables.real digest) ctx₀ S)
    (M : Mending (.real digest) ctx₀ S parentId ctx todo) (hpoll : env.poll = .unchanged)
    (hp : Chromium.Directory ctx₀ S parentId p) (hchildren : (ctx₀.ents p).children = some children)
    (hfew : (ctx₀.json.elems children).length < 2 ^ 32) (he : Child ctx₀ S parentId e)
    (htodo : (ctx₀.ents e).node ∈ todo) (hname : (ctx₀.ents e).name = none)
    (hrest : ∀ n ∈ rest, n ∈ todo ∧ n ≠ (ctx₀.ents e).node)
    (hvisible : ∀ x, Child ctx₀ S parentId x → (ctx₀.ents x).node ∈ todo →
      (ctx₀.ents x).node ∉ rest →
      x ≠ e → (ctx₀.ents x).name ≠ none) {h : HandlerCtx} (hfit : h.Fit) {fuel : ℕ}
    (hfuel : 2 * (ctx₀.json.elems children).length + (nameSize + 6) ≤ fuel) (why : FsckResult)
    (data : FsckData)
    (hid : data.id = (ctx₀.ents e).id) (hlen : data.name.length = nameSize) :
    Yields Fault.Abort (applyFixes (.real digest) env parentId fuel ctx h why data) fun r =>
      ∃ ctx' h', r = some (none, ctx', h') ∧ h'.Fit ∧ Mending (.real digest) ctx₀ S parentId ctx' rest ∧
        ∀ names name h₀, Inv (.real digest) ctx S →
          Proposes (TakenIn ctx parentId) parentId (handleEntry h parentId why data).1
            (handleEntry h parentId why data).2 names h₀ name →
          Agree (.real digest) parentId (names.map (data.id, ·)) →
          h₀ = h' ∧ Inv (.real digest) ctx' S ∧
            ∀ n, TakenIn ctx' parentId n ↔ TakenIn ctx parentId n ∨ n = name := by
  have R := M.repairable hpoll hp hchildren he htodo hname
  have hcard := card_namesIn_le I M hp hchildren
  obtain ⟨names, h', name, hproposes, hnames, hready⟩ := within_handled parentId data
    (fun _ (h : FoundFor _ _ _ (ctx₀.ents e).id _) => mem_namesIn_of_found M h)
    (hcard.trans_lt hfew) hfit why hlen (hid ▸ (I.max_id.2 e he.1).trans I.max_id.1)
  rw [applyFixes_eq R hproposes ((handleEntry_id h parentId why data).trans hid) rfl (by omega)]
  obtain ⟨hvalid, hfree, hutf8⟩ := hproposes.good
  obtain ⟨str, rfl⟩ := hproposes.exists_str
  have happly := fsckApply_accepts R (proposed_eq hvalid) hvalid hfree hutf8
  obtain ⟨N, filed, F⟩ := M.filing
  have heN : e ∉ N := fun h => F.name e h R.name
  obtain herr | ⟨assocMap, filed', hins, -⟩ := F.assoc.insert_any (assocmapHash (.real digest)
    (Function.update ctx.ents e { ctx.ents e with name := some str.val }))
      (hashAssoc (.real digest) (ctx₀.ents e).id str) heN
  · have herr : giveName (.real digest) ctx (ctx₀.ents e).id e str.val = .error .tableSize := herr
    rw [herr]
    exact .inl rfl
  have hins : giveName (.real digest) ctx (ctx₀.ents e).id e str.val = .ok assocMap := hins
  rw [hins, ok_bind] at happly ⊢
  obtain ⟨S', N', filed', F', -⟩ := (fsckApply_files F parentId (ctx₀.ents e).id str).of_ok happly
  obtain rfl : S' = S := Finset.ext fun x => (F'.id.contains_iff x).symm.trans (F.id.contains_iff x)
  refine ⟨_, h', rfl, hready.fit, M.repair ⟨N', filed', F'⟩ hname hvalid hrest hvisible,
    fun names' name' h₀ I' hideal
    hagree => ?_⟩
  have hsame : ∀ n ∈ names', validateFilename n = none →
      (FoundFor (.real digest) ctx parentId (ctx₀.ents e).id n ↔ TakenIn ctx parentId n) :=
      fun n hn hnvalid =>
    foundFor_iff I' (hid ▸ hagree _ (List.mem_map_of_mem hn) hnvalid)
  have hideal' := hideal.congr hsame
  obtain ⟨rfl, rfl⟩ := hideal'.unique hproposes
  obtain ⟨hideid, heparent, -⟩ := M.entry e
  have hpid : (ctx.ents p).id = parentId := (M.entry p).1.trans hp.2.1
  have hhash : hashAssoc (.real digest) (ctx₀.ents e).id str.val = hashAssoc (.real digest) parentId str.val :=
    hid ▸ hagree _ (List.mem_map_of_mem hideal.name_mem) hvalid
  have hrepairs := repairs_of_applied (p := p) (Tables.real_faithful digest) I'
    ⟨he.1, rfl, (heparent.trans he.2.2).trans hpid.symm, R.name⟩ (fun _ _ => by rw [hideid, hpid]; exact hhash)
    (by rw [hideid, hpid]; exact happly)
  refine ⟨rfl, hrepairs.inv I' F.title fun q hq hqid => ?_,
    takenIn_repaired (M.childOf_iff.mpr he) R.name _⟩
  obtain rfl := I'.forest.id_inj q hq p hp.1 hqid
  exact M.kept q hp.2.2.1 ▸ hp.2.2.1

theorem fsckNext_silent {tb : Tables w} (callback : FsckReport → ℤ) {elders : List NodeRef}
    (h : ∀ n ∈ elders, fsckChild tb ctx parentId n = .ok none) (rest : List NodeRef) (idx : ℕ) :
    Chromium.fsckNext tb ctx parentId callback (elders ++ rest) idx =
      Chromium.fsckNext tb ctx parentId callback rest (idx + elders.length) := by
  induction elders generalizing idx with
  | nil => rfl
  | cons n elders ih =>
    rw [List.cons_append, Chromium.fsckNext, h n List.mem_cons_self, ok_bind]
    dsimp only
    rw [ih (fun m hm => h m (List.mem_cons_of_mem _ hm)), List.length_cons]
    congr 1
    omega

/-- Whatever the handler proposes for the children that are left, if its names have the hashcodes
that they have in the directory, the store keeps its invariant. -/
def KeepsInv (tb : Tables w) (ctx ctx' : Ctx w) (S : Finset EntryRef) (parentId : ℕ)
    (h : HandlerCtx) (reports : List FsckReport) : Prop :=
  ∀ proposals, Inv tb ctx S → ProposesAll parentId h (TakenIn ctx parentId) reports proposals →
    Agree tb parentId proposals → Inv tb ctx' S

/-- The check of a directory goes on to its end, by induction on the reports that are
still to be made. -/
theorem fixDir_mends (I : Inv (Tables.real digest) ctx₀ S) (hpoll : env.poll = .unchanged)
    (hp : Chromium.Directory ctx₀ S parentId p) (hchildren : (ctx₀.ents p).children = some children)
    (hfew : (ctx₀.json.elems children).length < 2 ^ 32) {reports : List FsckReport} {idx fuel : ℕ}
    {h : HandlerCtx} (M : Mending (.real digest) ctx₀ S parentId ctx todo)
    (htodo : (ctx₀.json.elems children).drop idx = todo)
    (hreports : todo.filterMap (reportAt (.real digest) ctx₀ parentId) = reports) (hfit : h.Fit)
    (hfuel : reports.length + 1 + (2 * (ctx₀.json.elems children).length + (nameSize + 6)) ≤ fuel) :
    Yields Fault.Abort (fixDir (.real digest) env parentId fuel ctx h idx) fun r =>
      ∃ ctx' h', r = some (none, ctx', h') ∧ Mending (.real digest) ctx₀ S parentId ctx' [] ∧
        KeepsInv (.real digest) ctx ctx' S parentId h reports := by
  induction reports generalizing ctx todo idx fuel h with
  | nil =>
    obtain ⟨fuel, rfl⟩ : ∃ n, fuel = n + 1 := Nat.exists_eq_succ_of_ne_zero (by omega)
    have hsilent := fun n hn => M.silent I hp hchildren (List.mem_of_mem_drop (htodo ▸ hn)) hn
      (List.filterMap_eq_nil_iff.mp hreports n hn)
    have hnext := fsckNext_silent (fun _ => 1) (fun n hn => (hsilent n hn).1) [] idx
    rw [List.append_nil] at hnext
    rw [fixDir, bookmarkCheckNext, M.checked hpoll hp hchildren]
    simp only [ok_bind, M.nodes, htodo, hnext, Chromium.fsckNext]
    exact ⟨ctx, h, rfl, M.skip (fun n hn => by cases hn) fun x hx hn _ => (hsilent _ hn).2 x hx rfl,
      fun _ I' _ _ => I'⟩
  | cons report reports ih =>
    obtain ⟨fuel, rfl⟩ : ∃ n, fuel = n + 1 := Nat.exists_eq_succ_of_ne_zero (by omega)
    obtain ⟨elders, n, younger, rfl, hsilent, hreport, hrest⟩ :=
      List.filterMap_eq_cons_iff.mp hreports
    have hdrop : ∀ m ∈ elders ++ n :: younger, m ∈ ctx₀.json.elems children := fun m hm =>
      List.mem_of_mem_drop (htodo ▸ hm)
    have helders := fun m hm => M.silent I hp hchildren (hdrop m (List.mem_append_left _ hm))
      (List.mem_append_left _ hm) (hsilent m hm)
    have hn : n ∈ elders ++ n :: younger := List.mem_append_right _ List.mem_cons_self
    obtain ⟨e, s, extra, extra', he, rfl, hreport₀, hrun⟩ :=
      M.fsckChild_eq I hp hchildren (hdrop n hn) hn
    obtain ⟨hname, hid, -⟩ := reportOn_some (hreport₀ ▸ hreport)
    obtain ⟨report', hreport', hid', hresult', hname', hextra'⟩ :=
      reportOn_same (hreport₀ ▸ hreport) extra'
    rw [hreport'] at hrun
    have hnodup : (elders ++ (ctx₀.ents e).node :: younger).Nodup :=
      htodo ▸ (elems_nodup I hchildren hp.1).sublist (List.drop_sublist idx _)
    have hfuel' : 2 * (ctx₀.json.elems children).length + (nameSize + 6) ≤ fuel := by
      rw [List.length_cons] at hfuel
      omega
    have hfixes := applyFixes_mends I M hpoll hp hchildren hfew he hn hname
      (fun m (hm : m ∈ younger) => ⟨List.mem_append_right _ (List.mem_cons_of_mem _ hm), fun hsame =>
        (List.nodup_cons.mp hnodup.of_append_right).1 (hsame ▸ hm)⟩)
      (fun x hx hmem hnot hne => (helders _ ((List.mem_append.mp hmem).resolve_right fun hmem =>
        (List.mem_cons.mp hmem).elim (fun hsame => hne (I.forest.node_inj x hx.1 e he.1 hsame))
          hnot)).2 x hx rfl)
      hfit hfuel' report'.result ⟨report'.id, report'.extra, copyName report'.name⟩
      (hid'.trans hid) (copyName_length _)
    rw [fixDir, bookmarkCheckNext, M.checked hpoll hp hchildren]
    simp only [ok_bind, M.nodes, htodo, fsckNext_silent (fun _ => 1) (fun m hm => (helders m hm).1),
      Chromium.fsckNext, hrun]
    refine hfixes.bind fun r hr => ?_
    obtain ⟨ctx', h', rfl, hfit', M', hideal⟩ := hr
    have htodo' : (ctx₀.json.elems children).drop (idx + elders.length + 1) = younger := by
      rw [Nat.add_assoc, ← List.drop_drop, htodo, List.drop_length_add_append]
      rfl
    refine (ih M' htodo' hrest hfit' (by rw [List.length_cons] at hfuel; omega)).mono fun r hr => ?_
    obtain ⟨ctx'', h'', rfl, M'', hkeeps⟩ := hr
    refine ⟨ctx'', h'', rfl, M'', fun proposals I' hall hagree => ?_⟩
    cases hall with
    | @cons _ h₀ _ _ _ names name rest hproposes hall =>
      obtain ⟨rfl, I'', htaken⟩ :=
        hideal names name h₀ I' (hproposes.of_report hid' hresult' hname' hextra')
        fun q hq => hagree q (List.mem_append_left _ (hid' ▸ hq))
      refine hkeeps rest I'' ?_ fun q hq => hagree q (List.mem_append_right _ hq)
      rwa [show TakenIn ctx' parentId = _ from funext fun n => propext (htaken n)]

end Run

/-! ## What a repair leaves -/

/-- All children of a directory have valid names, and those that had a name keep it. -/
structure Settled {w : WordSize} (parentId : ℕ) (ctx ctx' : Ctx w) : Prop where
  valid : ∀ e, ChildOf ctx' parentId e → ∃ name, (ctx'.ents e).name = some name ∧
    validateFilename name = none
  kept : ∀ e, ChildOf ctx parentId e → (ctx.ents e).name ≠ none →
    ChildOf ctx' parentId e ∧ (ctx'.ents e).name = (ctx.ents e).name

/-- The children have names of their own, too, under which they are found. -/
structure Fixed {w : WordSize} (tb : Tables w) (env : Env) (parentId : ℕ) (ctx ctx' : Ctx w) : Prop
    extends Settled parentId ctx ctx' where
  distinct : ∀ e e', ChildOf ctx' parentId e → ChildOf ctx' parentId e' →
    (ctx'.ents e).name = (ctx'.ents e').name → e = e'
  found : ∀ (e) (name : CString), ChildOf ctx' parentId e → (ctx'.ents e).name = some name.val →
    bookmarkLookup tb ctx' env parentId (some name) = .ok (ctx'.attributes e, ctx')

section Fixing

variable {w : WordSize} {tb : Tables w} {env : Env} {ctx ctx' : Ctx w} {S : Finset EntryRef}
  {parentId : ℕ} {p : EntryRef} {children : Value}

theorem loaded_name_valid (I : Inv tb ctx S) (hnames : ctx.AsLoaded S)
    (hflag : ctx.flags.filenameGuid = false) {e : EntryRef} (he : e ∈ S) (hroot : e ≠ rootEntry)
    {name : Bytes} (hname : (ctx.ents e).name = some name) :
    validateFilename name = none := by
  obtain ⟨p, hp, a, seen, hchildren, -, harray, hmem⟩ := I.forest.parent e he hroot
  obtain ⟨s, hs, hsame⟩ := (I.forest.describes e he hroot).name
  obtain rfl := hsame name hname
  obtain ⟨elders, younger, rfl⟩ := List.append_of_mem hmem
  exact ((hnames hflag p hp a hchildren e he hroot elders younger harray name hs).mp
    (by simp [hname])).2.1

theorem mending_start (I : Inv tb ctx S) (hnames : ctx.AsLoaded S)
    (hflag : ctx.flags.filenameGuid = false) (hready : ctx.watching = true ∧ ctx.loaded = true)
    (hp : Chromium.Directory ctx S parentId p) (hchildren : (ctx.ents p).children = some children) :
    Mending tb ctx S parentId ctx (ctx.json.elems children) where
  ready := hready
  filing := ⟨_, _, I.filing hflag⟩
  nodes _ := rfl
  parse _ := rfl
  entry _ := ⟨rfl, rfl, rfl, rfl⟩
  waiting _ _ _ := ⟨rfl, rfl⟩
  kept _ _ := rfl
  done e he hn :=
    absurd ((mem_elems_iff I hp.1 hchildren).mpr ⟨e, he.1, he.2.1, rfl, he.2.2.trans hp.2.1.symm⟩)
      hn
  valid _ _ he hname := loaded_name_valid I hnames hflag he.1 he.2.1 hname

theorem Mending.settled (I : Inv tb ctx S) (M : Mending tb ctx S parentId ctx' []) :
    Settled parentId ctx ctx' where
  valid e he := by
    have he := M.childOf_iff.mp he
    obtain ⟨name, hname⟩ := Option.ne_none_iff_exists'.mp (M.done e he List.not_mem_nil)
    exact ⟨name, hname, M.valid e name he hname⟩
  kept e he hname := ⟨M.childOf_iff.mpr ((Fsck.childOf_iff I).mp he), M.kept e hname⟩

theorem Mending.fixed (I : Inv tb ctx S) (hp : Chromium.Directory ctx S parentId p)
    (M : Mending tb ctx S parentId ctx' []) (I' : Inv tb ctx' S) (hpoll : env.poll = .unchanged) :
    Fixed tb env parentId ctx ctx' where
  toSettled := M.settled I
  distinct e e' he he' hsame := by
    obtain ⟨heS, hroot, hparent⟩ := (Fsck.childOf_iff I').mp he
    obtain ⟨heS', hroot', hparent'⟩ := (Fsck.childOf_iff I').mp he'
    have hname := M.done e (M.childOf_iff.mp he) List.not_mem_nil
    exact I'.indexed.names e (mem_named.mpr ⟨heS, hroot, hname⟩) e' (mem_named.mpr ⟨heS', hroot',
      hsame ▸ hname⟩)
      (hparent.trans hparent'.symm) hsame
  found e name he hname := by
    obtain ⟨N, filed, F⟩ := M.filing
    obtain ⟨heS, hroot, hparent⟩ := (Fsck.childOf_iff I').mp he
    obtain ⟨hid, -, hchildren, -⟩ := M.entry p
    have hdir : Chromium.Directory ctx' S parentId p :=
      ⟨hp.1, hid.trans hp.2.1, M.kept p hp.2.2.1 ▸ hp.2.2.1, hchildren ▸ hp.2.2.2⟩
    have hanswers : Answers ctx' S parentId name (.ok e) :=
      ⟨⟨p, hdir⟩, mem_named.mpr ⟨heS, hroot, hname ▸ Option.some_ne_none _⟩, hparent, hname⟩
    exact bookmarkLookup_eq I' F.title (M.load hpoll) hanswers

/-- There are as many children as names in use and reports. -/
theorem exists_proposals (I : Inv tb ctx S) (hp : Chromium.Directory ctx S parentId p)
    (hchildren : (ctx.ents p).children = some children)
    (hfew : (ctx.json.elems children).length < 2 ^ 32)
    {h : HandlerCtx} (hfit : h.Fit) : ∃ proposals, ProposesAll parentId h (TakenIn ctx parentId)
      ((ctx.json.elems children).filterMap (reportAt tb ctx parentId)) proposals := by
  refine exists_proposesAll
    (T := (((ctx.json.elems children).filter fun n =>
    (reportAt tb ctx parentId n).isNone).toFinset).image
    fun n => (ctx.json.nameOf n).getD []) (fun name htaken => ?_) ?_ hfit fun r hr => ?_
  · obtain ⟨e, he, hname⟩ := htaken
    obtain ⟨heS, hroot, hparent⟩ := (Fsck.childOf_iff I).mp he
    have hn := (mem_elems_iff I hp.1 hchildren).mpr ⟨e, heS, hroot, rfl, hparent.trans hp.2.1.symm⟩
    obtain ⟨x, hx, -, hnode, -, -, s, hs, hsame, -, extra, hreport, -⟩ :=
      child_spec I hchildren hp.1 hp.2.1 hn
    obtain rfl := I.forest.node_inj x hx e heS hnode
    refine Finset.mem_image.mpr ⟨(ctx.ents x).node,
      List.mem_toFinset.mpr (List.mem_filter.mpr ⟨hn, ?_⟩), ?_⟩
    · rw [hreport, Ctx.reportOn, if_pos (hname ▸ Option.some_ne_none name)]
      rfl
    · rw [hs, hsame name hname]
      rfl
  · refine lt_of_le_of_lt
      (Nat.add_le_add_right (Finset.card_image_le.trans (List.toFinset_card_le _)) _) ?_
    rw [List.length_filterMap_eq_countP, ← List.countP_eq_length_filter]
    refine lt_of_eq_of_lt ?_ hfew
    rw [List.length_eq_countP_add_countP (fun n => (reportAt tb ctx parentId n).isNone)]
    congr 1
    exact List.countP_congr fun n _ => by cases reportAt tb ctx parentId n <;> simp
  · obtain ⟨n, hn, hr⟩ := List.mem_filterMap.mp hr
    obtain ⟨e, he, -, -, -, -, s, -, -, -, extra, hreport, -⟩ :=
      child_spec I hchildren hp.1 hp.2.1 hn
    rw [(reportOn_some (hreport ▸ hr)).2.1]
    exact (I.max_id.2 e he).trans I.max_id.1

end Fixing

def nameA0 : CString := ⟨[97, 95, 48], by decide⟩

end BookmarkFS.Fsck
