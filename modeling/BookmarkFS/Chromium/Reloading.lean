import BookmarkFS.Chromium.GuidNames
import BookmarkFS.Chromium.Listing
import BookmarkFS.Chromium.Saving

/-! # What is saved is what is loaded

A store in memory has been changed since it was loaded, and its entries have been
made in another order than a loader would make them. As long as all bookmarks can be
seen, the entries that are made of the file have the same contents, one by one.
-/
namespace BookmarkFS.Chromium
open Library Hopscotch

variable {w : WordSize} {tb : Tables w} {ctx ctx' : Ctx w} {env env' : Env} {S S' : Finset EntryRef}

/-- What can be got at from the roots is the same in two stores. -/
structure Ctx.SameNodes (ctx ctx' : Ctx w) : Prop where
  roots : ctx'.roots = ctx.roots
  get : ∀ n, Reaches ctx.json ctx.roots n → ∀ k, ctx'.json.get n k = ctx.json.get n k
  elems : ∀ n c, Reaches ctx.json ctx.roots n → ctx.json.get n .children = some c →
    ctx'.json.elems c = ctx.json.elems c

/-- Every bookmark can be seen, under a name that is a filename. -/
def Ctx.AllVisible (ctx : Ctx w) (S : Finset EntryRef) : Prop :=
  ∀ e ∈ S, e ≠ rootEntry → ∃ name, (ctx.ents e).name = some name ∧ validateFilename name = none

namespace Ctx.SameNodes

variable (h : ctx.SameNodes ctx')

include h

theorem reaches {n : NodeRef} (hn : Reaches ctx.json ctx.roots n) :
    Reaches ctx'.json ctx'.roots n := by
  induction hn with
  | root hn => exact .root (h.roots ▸ hn)
  | child hn hc hm ih => exact .child ih ((h.get _ hn _).trans hc) (h.elems _ _ hn hc ▸ hm)

theorem of_reaches {n : NodeRef} (hn : Reaches ctx'.json ctx'.roots n) :
    Reaches ctx.json ctx.roots n := by
  induction hn with
  | root hn => exact .root (h.roots ▸ hn)
  | child _ hc hm ih =>
    have hc' := (h.get _ ih _).symm.trans hc
    exact .child ih hc' (h.elems _ _ ih hc' ▸ hm)

/-! ## Entries -/

section Entries

variable (I : Inv tb ctx S) (I' : Inv tb ctx' S') {e e' : EntryRef} (he : e ∈ S)
  (hroot : e ≠ rootEntry)
  (he' : e' ∈ S') (hroot' : e' ≠ rootEntry) (hnode : (ctx'.ents e').node = (ctx.ents e).node)

include I I' he hroot he' hroot' hnode

omit I' he' hroot' in
theorem entry_get (k : Key) : ctx'.json.get (ctx'.ents e').node k =
    ctx.json.get (ctx.ents e).node k := by
  rw [hnode, h.get _ (I.reaches he hroot)]

theorem entry_id : (ctx'.ents e').id = (ctx.ents e).id := by
  have hid := (I.forest.describes e he hroot).id
  have hid' := (I'.forest.describes e' he' hroot').id
  rw [parseId, h.entry_get I he hroot hnode] at hid'
  exact Option.some.inj (hid'.symm.trans hid)

theorem entry_guid : (ctx'.ents e').guid = (ctx.ents e).guid := by
  have hguid := (I.forest.describes e he hroot).guid
  have hguid' := (I'.forest.describes e' he' hroot').guid
  rw [h.entry_get I he hroot hnode] at hguid'
  exact Option.some.inj (hguid'.symm.trans hguid)

omit hroot' in
theorem entry_children : (ctx'.ents e').children = (ctx.ents e).children := by
  rw [← I'.forest.children e' he', h.entry_get I he hroot hnode, I.forest.children e he]

theorem entry_string : ∃ s, ctx.json.get (ctx.ents e).node .name = some (.string s) ∧
    (∀ name, (ctx.ents e).name = some name → name = s) ∧ ∀ name, (ctx'.ents e').name = some name →
    name = s := by
  obtain ⟨s, hs, hname⟩ := (I.forest.describes e he hroot).name
  obtain ⟨s', hs', hname'⟩ := (I'.forest.describes e' he' hroot').name
  rw [h.entry_get I he hroot hnode, hs] at hs'
  obtain rfl := Value.string.inj (Option.some.inj hs')
  exact ⟨s, hs, hname, hname'⟩

end Entries

/-- The directory of an entry is the same in both stores. -/
theorem entry_parent (I : Inv tb ctx S) (I' : Inv tb ctx' S') {e e' : EntryRef} (he : e ∈ S)
    (hroot : e ≠ rootEntry)
    (he' : e' ∈ S') (hroot' : e' ≠ rootEntry) (hnode : (ctx'.ents e').node = (ctx.ents e).node) :
    (ctx'.ents e').parentId = (ctx.ents e).parentId := by
  obtain ⟨p, hp, a, ha, hid, hmem⟩ := I.forest.folder he hroot
  rw [← hnode] at hmem
  by_cases hpr : p = rootEntry
  · subst hpr
    obtain ⟨b, hb⟩ := I'.forest.root_array
    rw [I.roots a ha, ← h.roots, ← I'.roots b hb] at hmem
    rw [(I'.forest.mem_array_iff I'.forest.root_mem hb he' hroot').mp hmem, ← hid,
      I'.forest.root_id, I.forest.root_id]
  · obtain ⟨q, hq, hqr, hqnode⟩ := I'.entry_of_reaches (h.reaches (I.reaches hp hpr))
    have hqa : (ctx'.ents q).children = some (.array a) :=
      (h.entry_children I I' hp hpr hq hqnode).trans ha
    have helems := h.elems _ _ (I.reaches hp hpr) ((I.forest.children p hp).trans ha)
    have hmem' : (ctx'.ents e').node ∈ ctx'.json.array a := by
      rw [show ctx'.json.array a = ctx.json.array a from helems]
      exact hmem
    rw [(I'.forest.mem_array_iff hq hqa he' hroot').mp hmem', ← hid]
    exact h.entry_id I I' hp hpr hq hqr hqnode

/-- Where all bookmarks of a store can be seen, a loader makes all of them visible. -/
theorem allVisible (I : Inv tb ctx S) (I' : Inv tb ctx' S') (hvisible : ctx.AllVisible S)
    (hnames : NamesAsLoaded ctx'.json ctx'.ents S' nonePending) : ctx'.AllVisible S' := by
  -- The entry of `S` with the same node has the name that is checked.
  have hold : ∀ x ∈ S', x ≠ rootEntry → ∃ y ∈ S, y ≠ rootEntry ∧
    (ctx'.ents x).node = (ctx.ents y).node ∧
      ∃ s, ctx'.json.get (ctx'.ents x).node .name = some (.string s) ∧ (ctx.ents y).name = some s ∧
        validateFilename s = none ∧ ∀ name, (ctx'.ents x).name = some name → name = s := by
    intro x hx hxroot
    obtain ⟨y, hy, hyroot, hnode⟩ := I.entry_of_reaches (h.of_reaches (I'.reaches hx hxroot))
    obtain ⟨s, hs, hname, hname'⟩ := h.entry_string I I' hy hyroot hx hxroot hnode.symm
    obtain ⟨name, hyname, hvalid⟩ := hvisible y hy hyroot
    obtain rfl := hname name hyname
    exact ⟨y, hy, hyroot, hnode.symm, name, (h.entry_get I hy hyroot hnode.symm _).trans hs,
      hyname, hvalid,
      hname'⟩
  have hnamed : ∀ e' ∈ S', (ctx'.ents e').name ≠ none := by
    intro e' he'
    have hrooted := I'.forest.rooted e' he'
    induction hrooted with
    | root => rw [I'.forest.root_name]; exact Option.some_ne_none _
    | @child e' p _ hp hpid _ ih =>
      by_cases hroot' : e' = rootEntry
      · rw [hroot', I'.forest.root_name]; exact Option.some_ne_none _
      obtain ⟨q, hq, a, ha, hqid, hmem⟩ := I'.forest.folder he' hroot'
      obtain rfl := I'.forest.id_inj p hp q hq (hpid.trans hqid.symm)
      obtain ⟨elders, younger, harray⟩ := List.append_of_mem hmem
      obtain ⟨y, hy, hyroot, hynode, s, hs, hyname, hvalid, -⟩ := hold e' he' hroot'
      refine (hnames p hp a ha e' he' hroot' elders younger (by rw [nonePending, List.append_nil,
        harray]) s hs).mpr
        ⟨ih hp, hvalid, fun x hx helder hxname => ?_⟩
      -- An elder sibling has another name in the store that was saved.
      have hxmem : (ctx'.ents x).node ∈ ctx'.json.array a := by
        rw [harray]
        exact List.mem_append_left _ helder
      have hxroot : x ≠ rootEntry := by
        obtain ⟨z, hz, hzroot, hznode, -⟩ := I'.forest.child_entry hp ha hxmem
        exact I'.forest.node_inj z hz x hx hznode ▸ hzroot
      obtain ⟨z, hz, hzroot, hznode, s', -, hzname, -, hz'⟩ := hold x hx hxroot
      obtain rfl := hz' s hxname
      have hparent : (ctx.ents z).parentId = (ctx.ents y).parentId := by
        rw [← h.entry_parent I I' hz hzroot hx hxroot hznode, ← h.entry_parent I I' hy hyroot he'
          hroot' hynode,
          (I'.forest.mem_array_iff hp ha hx hxroot).mp hxmem,
          (I'.forest.mem_array_iff hp ha he' hroot').mp hmem]
      obtain rfl := I.indexed.names z
        (mem_named.mpr ⟨hz, hzroot, by rw [hzname]; exact Option.some_ne_none _⟩) y
        (mem_named.mpr ⟨hy, hyroot, by rw [hyname]; exact Option.some_ne_none _⟩) hparent
          (hzname.trans hyname.symm)
      have hnodup := I'.forest.nodup hp ha
      rw [harray] at hnodup
      exact (List.nodup_append.mp hnodup).2.2 _ helder _ List.mem_cons_self
        (hznode.trans hynode.symm)
  intro e' he' hroot'
  obtain ⟨-, -, -, -, s, -, -, hvalid, hname'⟩ := hold e' he' hroot'
  obtain ⟨name, hname⟩ := Option.ne_none_iff_exists'.mp (hnamed e' he')
  exact ⟨name, hname, hname' name hname ▸ hvalid⟩

/-- The entry of the same node has the same contents. -/
theorem entry_eq (I : Inv tb ctx S) (I' : Inv tb ctx' S') (hv : ctx.AllVisible S)
    (hv' : ctx'.AllVisible S')
    {e e' : EntryRef} (he : e ∈ S) (hroot : e ≠ rootEntry) (he' : e' ∈ S') (hroot' : e' ≠ rootEntry)
    (hnode : (ctx'.ents e').node = (ctx.ents e).node) : ctx'.ents e' = ctx.ents e := by
  have hid := h.entry_id I I' he hroot he' hroot' hnode
  have hguid := h.entry_guid I I' he hroot he' hroot' hnode
  have hchildren := h.entry_children I I' he hroot he' hnode
  have hparent := h.entry_parent I I' he hroot he' hroot' hnode
  have hname : (ctx'.ents e').name = (ctx.ents e).name := by
    obtain ⟨s, -, hs, hs'⟩ := h.entry_string I I' he hroot he' hroot' hnode
    obtain ⟨name, hname, -⟩ := hv e he hroot
    obtain ⟨name', hname', -⟩ := hv' e' he' hroot'
    rw [hname, hname', hs name hname, hs' name' hname']
  cases hx : ctx.ents e
  cases hy : ctx'.ents e'
  simp only [hx, hy] at hid hguid hchildren hparent hname hnode
  simp only [hid, hguid, hchildren, hparent, hname, hnode]

end Ctx.SameNodes

/-! ## Readers -/

/-- Two stores with the same bookmarks, in title mode -/
structure Mirrors (tb : Tables w) (ctx ctx' : Ctx w) (S S' : Finset EntryRef) : Prop where
  inv : Inv tb ctx S
  inv' : Inv tb ctx' S'
  nodes : ctx.SameNodes ctx'
  entry : ∀ e ∈ S, e ≠ rootEntry → ∃ e' ∈ S', e' ≠ rootEntry ∧ ctx'.ents e' = ctx.ents e
  entry' : ∀ e' ∈ S', e' ≠ rootEntry → ∃ e ∈ S, e ≠ rootEntry ∧ ctx'.ents e' = ctx.ents e
  flags : ctx'.flags = ctx.flags
  title : ctx.flags.filenameGuid = false

/-- The entries that are found in two stores -/
inductive Twins (ctx ctx' : Ctx w) (S S' : Finset EntryRef) : Option EntryRef →
    Option EntryRef → Prop
  | none : Twins ctx ctx' S S' none none
  | root : Twins ctx ctx' S S' (some rootEntry) (some rootEntry)
  | entry {e e' : EntryRef} : e ∈ S → e ≠ rootEntry → e' ∈ S' → e' ≠ rootEntry →
      ctx'.ents e' = ctx.ents e →
      Twins ctx ctx' S S' (some e) (some e')

theorem parseStats_congr {json json' : Json} {entry : NodeEntry}
    (h : ∀ k, json'.get entry.node k = json.get entry.node k) (id : ℕ) :
    parseStats json' entry id = parseStats json entry id := by
  simp only [parseStats, h]

namespace Mirrors

variable (M : Mirrors tb ctx ctx' S S')

include M

theorem get_eq {e : EntryRef} (he : e ∈ S) (hroot : e ≠ rootEntry) (k : Key) :
    ctx'.json.get (ctx.ents e).node k = ctx.json.get (ctx.ents e).node k :=
  M.nodes.get _ (M.inv.reaches he hroot) k

theorem lookupId_twins (id : ℕ) : ∃ r r', lookupId tb ctx id = .ok r ∧
    lookupId tb ctx' id = .ok r' ∧
    Twins ctx ctx' S S' r r' ∧ ∀ e, r = some e → (ctx.ents e).id = id := by
  obtain ⟨r, hrun, hlook⟩ := M.inv.lookupId_spec id
  obtain ⟨r', hrun', hlook'⟩ := M.inv'.lookupId_spec id
  refine ⟨r, r', hrun, hrun', ?_, fun e h => ((hlook e).mp h).2⟩
  cases hr : r with
  | none =>
    cases hr' : r' with
    | none => exact .none
    | some e' =>
      obtain ⟨he', hid⟩ := (hlook' e').mp hr'
      by_cases hroot : e' = rootEntry
      · subst hroot
        have := (hlook rootEntry).mpr
          ⟨M.inv.forest.root_mem, M.inv.forest.root_id.trans (M.inv'.forest.root_id.symm.trans hid)⟩
        rw [hr] at this
        cases this
      · obtain ⟨e, he, -, heq⟩ := M.entry' e' he' hroot
        have := (hlook e).mpr ⟨he, heq ▸ hid⟩
        rw [hr] at this
        cases this
  | some e =>
    obtain ⟨he, hid⟩ := (hlook e).mp hr
    by_cases hroot : e = rootEntry
    · subst hroot
      rw [(hlook' rootEntry).mpr
        ⟨M.inv'.forest.root_mem, M.inv'.forest.root_id.trans (M.inv.forest.root_id.symm.trans hid)⟩]
      exact .root
    · obtain ⟨e', he', hroot', heq⟩ := M.entry e he hroot
      rw [(hlook' e').mpr ⟨he', heq.symm ▸ hid⟩]
      exact .entry he hroot he' hroot' heq

theorem lookupName_twins (parentId : ℕ) (name : Bytes) : ∃ found lctx lctx' r r',
    lookupName tb ctx parentId name = .ok (found, lctx, r) ∧
    lookupName tb ctx' parentId name = .ok (found, lctx', r') ∧ Twins ctx ctx' S S' r r' ∧
    r ≠ some rootEntry := by
  obtain ⟨q, hrun, hq⟩ := M.inv.lookupName_spec M.title parentId name
  obtain ⟨q', hrun', hq'⟩ := M.inv'.lookupName_spec (M.flags ▸ M.title) parentId name
  obtain ⟨e, id, rfl, he, hparent, hname, -⟩ | ⟨rfl, hfree⟩ := hq
  · obtain ⟨heS, hroot, -⟩ := mem_named.mp he
    obtain ⟨e', he', hroot', heq⟩ := M.entry e heS hroot
    have hnamed' : e' ∈ named ctx'.ents S' :=
      mem_named.mpr ⟨he', hroot', by rw [heq, hname]; exact Option.some_ne_none _⟩
    obtain ⟨x, id', rfl, hx, hparent', hname', -⟩ | ⟨rfl, hfree'⟩ := hq'
    · obtain rfl := M.inv'.indexed.names x hx e' hnamed' (by rw [hparent', heq, hparent])
        (by rw [hname', heq, hname])
      exact ⟨_, _, _, _, _, hrun, hrun', .entry heS hroot he' hroot' heq,
        fun h => hroot (Option.some.inj h)⟩
    · exact absurd (heq.symm ▸ hname) (hfree' e' hnamed' (heq.symm ▸ hparent))
  · obtain ⟨x, id', rfl, hx, hparent', hname', -⟩ | ⟨rfl, hfree'⟩ := hq'
    · obtain ⟨hxS, hroot', -⟩ := mem_named.mp hx
      obtain ⟨e, he, hroot, heq⟩ := M.entry' x hxS hroot'
      rw [heq] at hparent' hname'
      exact absurd hname'
        (hfree e (mem_named.mpr ⟨he, hroot, by rw [hname']; exact Option.some_ne_none _⟩) hparent')
    · exact ⟨_, _, _, _, _, hrun, hrun', .none, by simp⟩

theorem twins_name {e e' : EntryRef} (h : Twins ctx ctx' S S' (some e) (some e')) :
    (ctx'.ents e').name = (ctx.ents e).name ∧
    ((ctx'.ents e').children = none ↔ (ctx.ents e).children = none) ∧
      (ctx'.ents e').id = (ctx.ents e).id := by
  cases h with
  | root =>
    obtain ⟨a, ha⟩ := M.inv.forest.root_array
    obtain ⟨b, hb⟩ := M.inv'.forest.root_array
    rw [M.inv.forest.root_name, M.inv'.forest.root_name, ha, hb, M.inv.forest.root_id,
      M.inv'.forest.root_id]
    exact ⟨rfl, by simp, rfl⟩
  | entry _ _ _ _ heq =>
    rw [heq]
    exact ⟨rfl, Iff.rfl, rfl⟩

theorem lookupEntry_twins (id : ℕ) (name : Option CString) :
    ∃ r r', lookupEntry tb ctx id name = .ok r ∧
    lookupEntry tb ctx' id name = .ok r' ∧ ((∃ err, r = .error err ∧ r' = .error err) ∨
      ∃ e e', r = .ok e ∧ r' = .ok e' ∧ Twins ctx ctx' S S' (some e) (some e') ∧
        (e = rootEntry → id = rootId ∧ name = none)) := by
  obtain ⟨r, r', hrun, hrun', htwins, hid⟩ := M.lookupId_twins id
  simp only [lookupEntry, hrun, hrun', ok_bind]
  cases r with
  | none =>
    cases htwins
    exact ⟨_, _, rfl, rfl, .inl ⟨_, rfl, rfl⟩⟩
  | some p =>
    obtain ⟨p', rfl⟩ : ∃ p', r' = some p' := by cases htwins <;> exact ⟨_, rfl⟩
    obtain ⟨hname, hchildren, -⟩ := M.twins_name htwins
    dsimp only
    by_cases hnone : (ctx.ents p).name = none
    · rw [if_pos hnone, if_pos (hname.trans hnone)]
      exact ⟨_, _, rfl, rfl, .inl ⟨_, rfl, rfl⟩⟩
    rw [if_neg hnone, if_neg fun h => hnone (hname ▸ h)]
    cases name with
    | none =>
      refine ⟨_, _, rfl, rfl, .inr ⟨p, p', rfl, rfl, htwins, fun hp => ⟨?_, rfl⟩⟩⟩
      rw [← hid p rfl, hp, M.inv.forest.root_id]
    | some name =>
      dsimp only
      by_cases hfile : (ctx.ents p).children = none
      · rw [if_pos hfile, if_pos (hchildren.mpr hfile)]
        exact ⟨_, _, rfl, rfl, .inl ⟨_, rfl, rfl⟩⟩
      rw [if_neg hfile, if_neg fun h => hfile (hchildren.mp h)]
      obtain ⟨found, lctx, lctx', r, r', hlook, hlook', htwins', hne⟩ := M.lookupName_twins id name
      simp only [hlook, hlook', ok_bind]
      cases r with
      | none =>
        cases htwins'
        exact ⟨_, _, rfl, rfl, .inl ⟨_, rfl, rfl⟩⟩
      | some e =>
        obtain ⟨e', rfl⟩ : ∃ e', r' = some e' := by cases htwins' <;> exact ⟨_, rfl⟩
        cases found with
        | false => exact ⟨_, _, rfl, rfl, .inl ⟨_, rfl, rfl⟩⟩
        | true => exact ⟨_, _, rfl, rfl,
            .inr ⟨e, e', rfl, rfl, htwins', fun he => absurd (he ▸ rfl) hne⟩⟩

theorem lookupStat_eq {id : ℕ} {name : Option CString} {e e' : EntryRef}
    (h : Twins ctx ctx' S S' (some e) (some e')) (hroot : e ≠ rootEntry) :
    lookupStat ctx' id name e' = lookupStat ctx id name e := by
  cases h with
  | root => exact absurd rfl hroot
  | entry he hroot _ _ heq =>
    have hstats := parseStats_congr (M.get_eq he hroot)
    simp only [lookupStat, heq, hstats, parseId, M.get_eq he hroot]

/-- What `parse_entry()` makes of a child of a directory. -/
theorem parseEntry_eq {n : NodeRef} (hn : Reaches ctx.json ctx.roots n) (off : ℕ)
    (withStat : Bool) :
    parseEntry tb ctx' n off withStat = parseEntry tb ctx n off withStat := by
  obtain ⟨e, he, hroot, rfl⟩ := M.inv.entry_of_reaches hn
  obtain ⟨e', he', hroot', heq⟩ := M.entry e he hroot
  have hstats := parseStats_congr (M.get_eq he hroot)
  have hrun := parseEntry_child M.inv' he' hroot' withStat off
  rw [heq] at hrun
  rw [hrun, parseEntry_child M.inv he hroot]
  simp only [Ctx.dirent, heq, hstats]

theorem listChildren_eq_of (withStat : Bool) (callback : ListCallback) (nodes : List NodeRef)
    (hnodes : ∀ n ∈ nodes, Reaches ctx.json ctx.roots n) (idx : ℕ) (accepted : List Dirent) :
    listChildren tb ctx' withStat callback nodes idx accepted =
      listChildren tb ctx withStat callback nodes idx accepted := by
  induction nodes generalizing idx accepted with
  | nil => rfl
  | cons n nodes ih =>
    have ih := ih fun m hm => hnodes m (List.mem_cons_of_mem n hm)
    simp only [listChildren, M.parseEntry_eq (hnodes n List.mem_cons_self), ih]

/-- The children that a directory has in both stores -/
theorem children_eq {e e' : EntryRef} {c c' : Value} (h : Twins ctx ctx' S S' (some e) (some e'))
    (hc : (ctx.ents e).children = some c) (hc' : (ctx'.ents e').children = some c') :
    ctx'.json.elems c' = ctx.json.elems c ∧ ∀ n ∈ ctx.json.elems c,
    Reaches ctx.json ctx.roots n := by
  cases h with
  | root =>
    obtain ⟨a, ha⟩ := M.inv.forest.root_array
    obtain ⟨b, hb⟩ := M.inv'.forest.root_array
    obtain rfl := Option.some.inj (ha.symm.trans hc)
    obtain rfl := Option.some.inj (hb.symm.trans hc')
    rw [Json.elems, Json.elems, M.inv.roots a ha, M.inv'.roots b hb, M.nodes.roots]
    exact ⟨rfl, fun n hn => .root hn⟩
  | entry he hroot _ _ heq =>
    rw [heq, hc] at hc'
    obtain rfl := Option.some.inj hc'
    have hget := (M.inv.forest.children e he).trans hc
    exact ⟨M.nodes.elems _ _ (M.inv.reaches he hroot) hget,
      fun n hn => .child (M.inv.reaches he hroot) hget hn⟩

end Mirrors

/-- Whatever is asked of two stores, the answers are the same; but the mountpoint itself, which is
no part of a store, may have other times. -/
structure SameView (tb : Tables w) (ctx : Ctx w) (env : Env) (ctx' : Ctx w)
    (env' : Env) : Prop where
  lookup : ∀ id name, id ≠ rootId ∨ name ≠ none → ∃ r, bookmarkLookup tb ctx env id name =
    .ok (r, ctx) ∧
    bookmarkLookup tb ctx' env' id name = .ok (r, ctx')
  get : ∀ id xattr, ∃ r, bookmarkGet tb ctx env id xattr = .ok (r, ctx) ∧
    bookmarkGet tb ctx' env' id xattr = .ok (r, ctx')
  list : ∀ id off withStat callback, ∃ r, bookmarkList tb ctx env id off withStat (some callback)
    none = .ok (r, ctx) ∧
    bookmarkList tb ctx' env' id off withStat (some callback) none = .ok (r, ctx')

namespace Mirrors

variable (M : Mirrors tb ctx ctx' S S') (hload : storeLoad tb ctx env = .ok (none, ctx))
  (hload' : storeLoad tb ctx' env' = .ok (none, ctx'))

include M hload hload'

theorem lookup_eq {id : ℕ} {name : Option CString} (hid : id ≠ rootId ∨ name ≠ none) :
    ∃ r, bookmarkLookup tb ctx env id name = .ok (r, ctx) ∧
    bookmarkLookup tb ctx' env' id name = .ok (r, ctx') := by
  obtain ⟨r, r', hrun, hrun', ⟨err, rfl, rfl⟩ | ⟨e, e', rfl, rfl, htwins, hroot⟩⟩ :=
    M.lookupEntry_twins id name
  · simp only [bookmarkLookup, hload, hload', ok_bind, hrun, hrun']
    exact ⟨_, rfl, rfl⟩
  · have hne : e ≠ rootEntry := fun he => by
      obtain ⟨hrootId, hname⟩ := hroot he
      exact hid.elim (· hrootId) (· hname)
    simp only [bookmarkLookup, hload, hload', ok_bind, hrun, hrun', M.lookupStat_eq htwins hne]
    exact ⟨_, rfl, rfl⟩

theorem get_eq_of (id : ℕ) (xattr : Option XattrName) :
    ∃ r, bookmarkGet tb ctx env id xattr = .ok (r, ctx) ∧
    bookmarkGet tb ctx' env' id xattr = .ok (r, ctx') := by
  obtain ⟨r, r', hrun, hrun', htwins, -⟩ := M.lookupId_twins id
  simp only [bookmarkGet, hload, hload', ok_bind, hrun, hrun']
  cases htwins with
  | none => exact ⟨_, rfl, rfl⟩
  | root =>
    simp only [M.inv.forest.root_name, M.inv'.forest.root_name, M.inv.forest.root_id,
      M.inv'.forest.root_id,
      reduceCtorEq, if_false, if_true]
    exact ⟨_, rfl, rfl⟩
  | @entry e e' he hroot _ _ heq =>
    simp only [heq, M.flags]
    by_cases hname : (ctx.ents e).name = none
    · simp only [if_pos hname]
      exact ⟨_, rfl, rfl⟩
    simp only [if_neg hname, if_neg fun h => hroot ((M.inv.id_eq_root he).mp h)]
    cases xattrKey xattr ctx.flags with
    | none => exact ⟨_, rfl, rfl⟩
    | some key =>
      simp only [M.get_eq he hroot]
      cases ctx.json.get (ctx.ents e).node key with
      | none => exact ⟨_, rfl, rfl⟩
      | some value =>
        dsimp only
        cases jsonStringValue (some value) with
        | none => exact ⟨_, rfl, rfl⟩
        | some value => exact ⟨_, rfl, rfl⟩

theorem list_eq (id off : ℕ) (withStat : Bool) (callback : ListCallback) :
    ∃ r, bookmarkList tb ctx env id off withStat (some callback) none = .ok (r, ctx) ∧
      bookmarkList tb ctx' env' id off withStat (some callback) none = .ok (r, ctx') := by
  obtain ⟨r, r', hrun, hrun', htwins, -⟩ := M.lookupId_twins id
  simp only [bookmarkList, hload, hload', ok_bind, listDir, hrun, hrun']
  cases r with
  | none =>
    cases htwins
    exact ⟨_, rfl, rfl⟩
  | some p =>
    obtain ⟨p', rfl⟩ : ∃ p', r' = some p' := by cases htwins <;> exact ⟨_, rfl⟩
    obtain ⟨hname, hchildren, -⟩ := M.twins_name htwins
    dsimp only
    by_cases hnone : (ctx.ents p).name = none
    · simp only [if_pos hnone, if_pos (hname.trans hnone)]
      exact ⟨_, rfl, rfl⟩
    simp only [if_neg hnone, if_neg fun h => hnone (hname ▸ h)]
    cases hc : (ctx.ents p).children with
    | none =>
      rw [hchildren.mpr hc]
      exact ⟨_, rfl, rfl⟩
    | some c =>
      obtain ⟨c', hc'⟩ :=
        Option.ne_none_iff_exists'.mp fun h =>
        Option.some_ne_none c (hc.symm.trans (hchildren.mp h))
      obtain ⟨helems, hreaches⟩ := M.children_eq htwins hc hc'
      have hnodes : ∀ n ∈ (ctx.json.elems c).drop off, ∀ i,
          parseEntry tb ctx n i withStat = .ok (ctx.shown tb withStat n i) := by
        intro n hn i
        obtain ⟨e, he, hroot, rfl⟩ := M.inv.entry_of_reaches (hreaches n (List.mem_of_mem_drop hn))
        rw [shown_child M.inv he hroot, parseEntry_child M.inv he hroot]
      have hlist := M.listChildren_eq_of withStat callback ((ctx.json.elems c).drop off)
        (fun n hn => hreaches n (List.mem_of_mem_drop hn)) off []
      simp only [hc', ok_bind, Children.nodes, listCookie, helems, if_true, hlist,
        listChildren_eq callback off [] hnodes]
      exact ⟨_, rfl, rfl⟩

theorem sameView : SameView tb ctx env ctx' env' where
  lookup _ _ hid := M.lookup_eq hload hload' hid
  get id xattr := M.get_eq_of hload hload' id xattr
  list id off withStat callback := M.list_eq hload hload' id off withStat callback

end Mirrors

/-! ## Loading -/

/-- The nodes are those of the document, and the entries are made of them. -/
theorem buildMaps_nodes (hf : tb.Faithful) {json : Json} {roots : List NodeRef}
    (sep : Separate json roots)
    (base : Ctx w) (hjson : ctx.json = json) (hroots : ctx.roots = roots) :
    Yields Fault.Abort (buildMaps tb base json roots) fun r => ∀ ctx', r = some ctx' →
      ctx'.flags = base.flags ∧ ctx'.watching = base.watching ∧ ctx.SameNodes ctx' ∧
        ∃ S', Inv tb ctx' S' ∧ ctx'.AsLoaded S' := by
  obtain ⟨json', hroot, -⟩ := makeFakeRoot_spec json
  rw [buildMaps, hroot]
  refine (hf.yields_insert (idmapHash tb fun _ => fakeRootEntry json) (Holds.create _) rfl
    (by simp) fun x _ => rfl).bind fun idMap Hid => ?_
  refine (hf.yields_insert (guidmapHash tb fun _ => fakeRootEntry json) (Holds.create _)
    rfl (by simp) fun x _ => rfl).bind fun guidMap Hguid => ?_
  have L := loading_start base roots hroot Hid Hguid
  rw [iterRoots]
  split_ifs
  · simp
  refine (iterList_rule (fun ctx todo n ns p => iterNode_rule (Loading.visit hf sep)
    (fun ctx todo L => L.unread) _ ctx todo n ns p) _ roots rootEntry _ L Nat.one_pos
    (Function.update_self ..)).mono fun r hr ctx' h => ?_
  obtain ⟨-, L'⟩ := hr ctx' h
  have htodo : ∀ x, Function.update (Function.update (fun _ => []) rootEntry roots) rootEntry
      [] x = ([] : List NodeRef) := fun x => by by_cases hx : x = rootEntry <;> simp [hx]
  refine ⟨L'.kept.1, L'.kept.2, ⟨L'.roots_eq.trans hroots.symm, fun n hn k => ?_,
    fun n c hn hc => ?_⟩, _, L'.inv htodo,
    fun h => pendOf_eq_nonePending htodo ▸ L'.names h⟩
  · rw [hjson, hroots] at hn
    rw [hjson, L'.get_eq sep hn]
  · rw [hjson, hroots] at hn
    rw [hjson] at hc ⊢
    cases c with
    | array a => exact L'.array a (sep.array_lt n a hn hc)
    | string _ => rfl
    | other _ => rfl

/-- What a store must be like, so that all of it can be seen again. -/
structure Ctx.Restorable (ctx : Ctx w) : Prop where
  title : ctx.flags.filenameGuid = false
  visible : ∀ e, ctx.idMap.Contains e → e ≠ rootEntry →
    ∃ name, (ctx.ents e).name = some name ∧ validateFilename name = none
  guid_inj : ∀ e e', ctx.idMap.Contains e → ctx.idMap.Contains e' →
    (ctx.ents e).guid = (ctx.ents e').guid → e = e'
  root_guid : (ctx.ents rootEntry).guid = rootGuid
  roots : ctx.roots ≠ []

/-- What the loader makes of a tree that agrees with the entries shows the same. -/
theorem doLoad_mirrors (hf : tb.Faithful) (I : Inv tb ctx S) (hR : ctx.Restorable)
    (hshallow : ∀ d n, AtLevel ctx.json ctx.roots d n → ctx.json.get n .children ≠ none →
      d < maxNodeIterDepth - 1)
    {base : Ctx w} (hbase : base.flags = ctx.flags) :
    Yields Fault.Abort (doLoad tb base (some ⟨ctx.json, true, 1, some ctx.roots⟩)) fun r =>
      r.1 = none ∧ ∃ S', Mirrors tb ctx r.2 S S' := by
  have hguid : ∀ e ∈ S, ∀ e' ∈ S, (ctx.ents e).guid = (ctx.ents e').guid → e = e' :=
    fun e he e' he' =>
    hR.guid_inj e e' ((I.entries e).mp he) ((I.entries e').mp he')
  have hvisible : ctx.AllVisible S := fun e he => hR.visible e ((I.entries e).mp he)
  have hload : Yields Fault.Abort (doLoad tb base (some ⟨ctx.json, true, 1, some ctx.roots⟩))
    fun r =>
      r.1 = none → ∃ S', Mirrors tb ctx r.2 S S' := by
    rw [doLoad]
    refine (buildMaps_nodes hf I.separate base (show ctx.json = _ from rfl) rfl).bind fun r hr => ?_
    cases r with
    | none => exact fun h => (by cases h)
    | some new =>
      obtain ⟨hflags, -, hnodes, S', I', hnames⟩ := hr new rfl
      have htitle : new.flags.filenameGuid = false := by rw [hflags, hbase, hR.title]
      have hvisible' := hnodes.allVisible I I' hvisible (hnames htitle)
      refine fun _ => ⟨S', I, I'.congr rfl rfl rfl ⟨rfl, rfl, rfl⟩ rfl rfl rfl,
        ⟨hnodes.roots, hnodes.get, hnodes.elems⟩, fun e he hroot => ?_, fun e' he' hroot' => ?_,
        hflags.trans hbase,
        hR.title⟩
      · obtain ⟨e', he', hroot', hnode⟩ := I'.entry_of_reaches (hnodes.reaches (I.reaches he hroot))
        exact ⟨e', he', hroot', hnodes.entry_eq I I' hvisible hvisible' he hroot he' hroot' hnode⟩
      · obtain ⟨e, he, hroot, hnode⟩ :=
          I.entry_of_reaches (hnodes.of_reaches (I'.reaches he' hroot'))
        exact ⟨e, he, hroot, hnodes.entry_eq I I' hvisible hvisible' he hroot he' hroot' hnode.symm⟩
  exact ((doLoad_accepts hf I.separate (I.loadable hguid hR.root_guid hR.roots hshallow)
    base).and hload).mono
    fun r hr => ⟨hr.1, hr.2 hr.1⟩

open Classical in
/-- What `json_loadb()` makes of a file that `store_save()` has written. Without `JSON_ALLOW_NUL`
it refuses the escape for a null character, which the dump puts in for one. -/
noncomputable def Saver.reread (utf16 : Bytes → Option Bytes) (md5 : Bytes → Bytes) (s : Saver w) :
    Option Document :=
  if s.ctx.json.NulFree s.ctx.roots then some (s.file utf16 md5) else none

/-- Whatever has been done to a store in which all bookmarks can be seen, what `store_save()`
writes is accepted by `store_load()`, unless a string has got a null character, and each lookup,
attribute and listing of what has been loaded is what it was before. -/
theorem saved_store_restored (digest : Bytes → Word w) (utf16 : Bytes → Option Bytes)
    (md5 : Bytes → Bytes) (hreach : (backend (Tables.real digest)).Reachable ctx)
    (hloaded : ctx.loaded = true) (hR : ctx.Restorable) {sum : Bytes}
    (hsum : ctx.dirty ≠ .data → chksumRoot utf16 md5 ctx.json ctx.roots = some sum) {s : Saver w}
    (hsave : storeSave utf16 md5 ⟨ctx, sum⟩ true = (true, s)) {base : Ctx w}
    (hbase : base.flags = ctx.flags) :
    Yields Fault.Abort (doLoad (Tables.real digest) base (s.reread utf16 md5)) fun r =>
      (r.1 = none ↔ ctx.json.NulFree ctx.roots) ∧
      (r.1 = none → ∀ env env', storeLoad (Tables.real digest) ctx env = .ok (none, ctx) →
        storeLoad (Tables.real digest) r.2 env' = .ok (none, r.2) →
        SameView (Tables.real digest) ctx env r.2 env') := by
  have hf := Tables.real_faithful digest
  obtain ⟨S, I⟩ := (hreach.holds (backend_consistent hf)).inv hloaded
  obtain ⟨hjson, hroots, hchksum⟩ := storeSave_sum hsum hsave
  have hfile : s.file utf16 md5 = ⟨ctx.json, true, 1, some ctx.roots⟩ := by
    rw [Saver.file, hjson, hroots, hchksum]
    simp
  rw [Saver.reread, hjson, hroots, hfile]
  by_cases hnul : ctx.json.NulFree ctx.roots
  · rw [if_pos hnul]
    refine (doLoad_mirrors hf I hR (fun d n hn hc => chksumRoot_shallow hchksum hn hc) hbase).mono
      fun r hr => ?_
    obtain ⟨hnone, S', M⟩ := hr
    exact ⟨iff_of_true hnone hnul, fun _ env env' hload hload' => M.sameView hload hload'⟩
  · rw [if_neg hnul]
    exact ⟨iff_of_false (Option.some_ne_none _) hnul, fun h => absurd h (Option.some_ne_none _)⟩

/-- A store with a new URL is saved, and loaded again. -/
theorem saved_store_restored_set : ∃ (ctx : Ctx .w64) (s : Saver .w64), ctx.dirty = .data ∧
    s.sum = sumAfter ∧
    storeSave asciiUtf16 sampleMd5 ⟨ctx, []⟩ true = (true, s) ∧
    Yields Fault.Abort (doLoad colliding (.created ⟨false, false, false⟩)
      (s.reread asciiUtf16 sampleMd5)) fun r =>
      (r.1 = none ↔ ctx.json.NulFree ctx.roots) ∧
      (r.1 = none → ∀ env env', storeLoad colliding ctx env = .ok (none, ctx) →
        storeLoad colliding r.2 env' = .ok (none, r.2) → SameView colliding ctx env r.2 env') := by
  have h : Yields (fun _ => False)
      ((Call.lookup rootId none).run colliding (.created ⟨false, false, false⟩)
        aBookmark) fun ctx =>
        (ctx.watching = true ∧ ctx.loaded = true) ∧
        Yields (fun _ => False) ((Call.set 2 (.value none [98])).run colliding ctx aBookmark)
        fun ctx =>
          ((ctx.loaded = true ∧ ctx.dirty = .data) ∧
            chksumRoot asciiUtf16 sampleMd5 ctx.json ctx.roots = some sumAfter) ∧
          (ctx.flags.filenameGuid = false ∧ ctx.flags.ctime = false ∧ ctx.flags.readonly = false) ∧
          (∀ e ∈ ctx.idMap.visited, e ≠ rootEntry →
            (ctx.ents e).name ≠ none ∧ validateFilename ((ctx.ents e).name.getD []) = none) ∧
          (∀ e ∈ ctx.idMap.visited, ∀ e' ∈ ctx.idMap.visited, (ctx.ents e).guid =
          (ctx.ents e').guid → e = e') ∧
          (ctx.ents rootEntry).guid = rootGuid ∧ ctx.roots ≠ [] := by
    decide +kernel
  obtain ⟨ctx, hlookup, ⟨hwatching, hloaded⟩, h⟩ := h.exists_ok
  obtain ⟨ctx', hset, ⟨⟨hloaded', hdirty⟩, hsum⟩, ⟨htitle, hctime, hreadonly⟩, hvisible, hguid,
    hroot, hroots⟩ :=
    h.exists_ok
  have hwf : aBookmark.WellFormed := Env.written_wellFormed (by decide +kernel)
  have hlegal : (backend colliding).legal ctx (aBookmark, .set 2 (.value none [98])) :=
    legal_loaded hwf (storeLoad_loaded hwatching hloaded rfl) fun _ _ => trivial
  have hreach : (backend colliding).Reachable ctx' :=
    (reachable_created hwf hlookup).step hlegal hset
  have hmem : ∀ e, ctx'.idMap.Contains e → e ∈ ctx'.idMap.visited :=
    fun e => (Hashmap.mem_visited_iff _ e).mpr
  have hR : ctx'.Restorable := by
    refine ⟨htitle, fun e he hne => ?_, fun e e' he he' => hguid e (hmem e he) e' (hmem e' he'),
      hroot, hroots⟩
    obtain ⟨hname, hvalid⟩ := hvisible e (hmem e he) hne
    obtain ⟨name, hname⟩ := Option.ne_none_iff_exists'.mp hname
    rw [hname] at hvalid
    exact ⟨name, hname, hvalid⟩
  have hflags : (⟨false, false, false⟩ : Flags) = ctx'.flags := by
    cases hf : ctx'.flags
    simp only [hf] at htitle hctime hreadonly
    simp only [htitle, hctime, hreadonly]
  have hsave : storeSave asciiUtf16 sampleMd5 ⟨ctx', []⟩ true =
    (true, ⟨{ ctx' with dirty := .none }, sumAfter⟩) := by
    simp only [storeSave, hdirty, hsum, reduceCtorEq, if_true, if_false]
  exact ⟨ctx', _, hdirty, rfl, hsave, saved_store_restored _ asciiUtf16 sampleMd5 hreach hloaded' hR
    (fun hne => absurd hdirty hne) hsave hflags⟩

end BookmarkFS.Chromium
