import BookmarkFS.Chromium.Agreement
import BookmarkFS.Chromium.Checksum

/-! # Which stores are accepted

A store whose nodes form a tree that is not too deep, each with an identifier, a
GUID and a name, is accepted. A tree that agrees with the entries of a context is
of that kind, so that what has been saved can be loaded again.
-/
namespace BookmarkFS.Chromium
open Library Hopscotch

variable {w : WordSize} {tb : Tables w} {json : Json} {roots : List NodeRef}

/-- A node of the tree, and how many folders it is below a root. -/
inductive AtLevel (json : Json) (roots : List NodeRef) : ℕ → NodeRef → Prop
  | root {n : NodeRef} : n ∈ roots → AtLevel json roots 0 n
  | child {d : ℕ} {n m : NodeRef} {c : Value} : AtLevel json roots d n →
      json.get n .children = some c → m ∈ json.elems c → AtLevel json roots (d + 1) m

/-- What a tree of nodes has to be like. -/
structure Loadable (json : Json) (roots : List NodeRef) : Prop where
  nonempty : roots ≠ []
  nodup : roots.Nodup
  id : ∀ n, Reaches json roots n → ∃ id, parseId json n = some id ∧ id ≠ rootId
  guid : ∀ n, Reaches json roots n → ∃ guid,
    parseGuid ((jsonStringValue (json.get n .guid)).getD []) = some guid ∧ guid ≠ rootGuid
  name : ∀ n, Reaches json roots n → ∃ name, jsonStringValue (json.get n .name) = some name
  id_inj : ∀ n m, Reaches json roots n → Reaches json roots m → parseId json n = parseId json m →
    n = m
  guid_inj : ∀ n m, Reaches json roots n → Reaches json roots m →
    parseGuid ((jsonStringValue (json.get n .guid)).getD []) =
      parseGuid ((jsonStringValue (json.get m .guid)).getD []) → n = m
  children_nodup : ∀ n c, Reaches json roots n → json.get n .children = some c →
    (json.elems c).Nodup
  parent : ∀ n m c c' x, Reaches json roots n → Reaches json roots m →
    json.get n .children = some c →
    json.get m .children = some c' → x ∈ json.elems c → x ∈ json.elems c' → n = m
  not_root : ∀ n c x, Reaches json roots n → json.get n .children = some c →
    x ∈ json.elems c → x ∉ roots
  shallow : ∀ d n, AtLevel json roots d n → json.get n .children ≠ none → d < maxNodeIterDepth - 1

/-! ## Loading -/

namespace Loading

variable {base ctx : Ctx w} {todo : EntryRef → List NodeRef} {n : NodeRef} {ns : List NodeRef}
  {p : EntryRef}

theorem elems_eq (L : Loading tb base json roots ctx todo) (sep : Separate json roots)
    {q : EntryRef} (hq : q < ctx.nextEntry) (hroot : q ≠ rootEntry) {a : ArrayRef}
    (ha : (ctx.ents q).children = some (.array a)) :
    Reaches json roots (ctx.ents q).node ∧ json.get (ctx.ents q).node .children = some (.array a) ∧
      json.array a = ctx.json.array a := by
  have hreach := L.reaches q hq hroot
  have hget : json.get (ctx.ents q).node .children = some (.array a) := by
    rw [← L.get_eq sep hreach, L.forest.children q (Finset.mem_range.mpr hq), ha]
  exact ⟨hreach, hget, (L.array a (sep.array_lt _ a hreach hget)).symm⟩

/-- A node that is still to be visited has no entry yet. -/
theorem unvisited (L : Loading tb base json roots ctx todo) (sep : Separate json roots)
    (A : Loadable json roots) (hp : p < ctx.nextEntry) (hns : todo p = n :: ns) {x : EntryRef}
    (hx : x < ctx.nextEntry) (hroot : x ≠ rootEntry) : (ctx.ents x).node ≠ n := by
  intro hxn
  obtain ⟨q, hq, b, seen, hb, -, hseen, hmem⟩ := L.forest.parent x (Finset.mem_range.mpr hx) hroot
  have hq := Finset.mem_range.mp hq
  obtain ⟨a, ha⟩ := L.todo_array p (by simp [hns])
  obtain ⟨seen', hseen', -, -⟩ := L.forest.listed p (Finset.mem_range.mpr hp) a ha
  rw [hxn] at hmem
  have hlisted : ∀ {e} (b : ArrayRef), e = rootEntry → (ctx.ents e).children = some (.array b) →
      ctx.json.array b ++ todo rootEntry = roots := by
    rintro e b rfl hb
    obtain rfl : json.nextArray = b := by simpa [L.root_array] using hb
    exact L.root_listed
  by_cases hqroot : q = rootEntry
  · have hroots := hlisted b hqroot hb
    simp only [pendOf, hqroot, if_true, List.append_nil] at hseen
    have hnroot : n ∈ roots := by rw [← hroots, hseen]; exact List.mem_append_left _ hmem
    by_cases hproot : p = rootEntry
    · rw [← hproot, hns, hseen] at hroots
      have hnodup := A.nodup
      rw [← hroots] at hnodup
      exact List.disjoint_of_nodup_append hnodup hmem (by simp)
    · obtain ⟨hreach, hget, harray⟩ := L.elems_eq sep hp hproot ha
      simp only [pendOf, hproot, if_false, hns] at hseen'
      exact A.not_root _ _ n hreach hget (by rw [Json.elems, harray, hseen']; simp) hnroot
  · obtain ⟨hreach, hget, harray⟩ := L.elems_eq sep hq hqroot hb
    simp only [pendOf, hqroot, if_false] at hseen
    have hchild : n ∈ json.elems (.array b) := by
      rw [Json.elems, harray, hseen]
      exact List.mem_append_left _ hmem
    by_cases hproot : p = rootEntry
    · refine A.not_root _ _ n hreach hget hchild ?_
      have hroots := hlisted a hproot ha
      rw [← hproot, hns] at hroots
      rw [← hroots]
      simp
    · obtain ⟨hreach', hget', harray'⟩ := L.elems_eq sep hp hproot ha
      simp only [pendOf, hproot, if_false, hns] at hseen'
      have hnode := A.parent _ _ _ _ n hreach hreach' hget hget' hchild
        (by rw [Json.elems, harray', hseen']; simp)
      obtain rfl := L.forest.node_inj q (Finset.mem_range.mpr hq) p (Finset.mem_range.mpr hp) hnode
      obtain rfl : a = b := by simpa [ha] using hb
      have hnodup := A.children_nodup _ _ hreach hget
      rw [Json.elems, harray, hseen, hns] at hnodup
      exact List.disjoint_of_nodup_append hnodup hmem (by simp)

/-- The next node is accepted. -/
theorem visit_next (hf : tb.Faithful) (sep : Separate json roots) (A : Loadable json roots)
    (L : Loading tb base json roots ctx todo) (hrootguid : (ctx.ents rootEntry).guid = rootGuid)
    (hp : p < ctx.nextEntry) (hns : todo p = n :: ns) :
    Yields Fault.Abort (mapsIterCb tb ctx n (ctx.json.get n .children) p) fun r =>
      ∃ ctx', r = some (ctx.nextEntry, ctx') ∧ ctx'.nextEntry = ctx.nextEntry + 1 ∧
        (ctx'.ents rootEntry).guid = rootGuid ∧
        Loading tb base json roots ctx' (Function.update (Function.update todo p ns) ctx.nextEntry
          (kidsOf ctx'.json (ctx.json.get n .children))) := by
  have hreach : Reaches json roots n := L.reaches_todo p n (by simp [hns])
  have hget := L.get_eq sep hreach
  have hparse : ∀ m, Reaches json roots m → parseId ctx.json m = parseId json m := fun m hm => by
    rw [parseId, L.get_eq sep hm, parseId]
  obtain ⟨id, hid, hidroot⟩ := A.id n hreach
  obtain ⟨guid, hguid, hguidroot⟩ := A.guid n hreach
  obtain ⟨name, hname⟩ := A.name n hreach
  refine (L.visit_accepted hf sep hp hns (by rw [hparse n hreach, hid]) (fun x hx h => ?_)
    (by rw [hget, hguid]) (fun x hx h => ?_) (by rw [hget, hname])).mono fun r hr => ?_
  · by_cases hroot : x = rootEntry
    · exact hidroot (by rw [← h, (L.id_eq_root hx).mpr hroot])
    · have hxreach := L.reaches x hx hroot
      have hxid := (L.forest.describes x (Finset.mem_range.mpr hx) hroot).id
      rw [hparse _ hxreach, h, ← hid] at hxid
      exact L.unvisited sep A hp hns hx hroot (A.id_inj _ _ hxreach hreach hxid)
  · by_cases hroot : x = rootEntry
    · exact hguidroot (by rw [← h, hroot, hrootguid])
    · have hxreach := L.reaches x hx hroot
      have hxguid := (L.forest.describes x (Finset.mem_range.mpr hx) hroot).guid
      rw [L.get_eq sep hxreach, h, ← hguid] at hxguid
      exact L.unvisited sep A hp hns hx hroot (A.guid_inj _ _ hxreach hreach hxguid)
  · obtain ⟨ctx', rfl, hnext, hold, L'⟩ := hr
    exact ⟨ctx', rfl, hnext, by rw [hold _ L.root_lt, hrootguid], L'⟩

/-- What a visit of a node, or of all that is below it, comes to. -/
def Accepts (tb : Tables w) (base : Ctx w) (json : Json) (roots : List NodeRef) (ctx : Ctx w)
    (todo : EntryRef → List NodeRef) (r : Option (Ctx w)) : Prop :=
  ∃ ctx', r = some ctx' ∧ ctx.nextEntry ≤ ctx'.nextEntry ∧ (ctx'.ents rootEntry).guid = rootGuid ∧
    Loading tb base json roots ctx' todo

/-- The nodes of a list one after the other, by induction on the list. -/
theorem list_accepted {visit : Ctx w → NodeRef → EntryRef → Except Fault (Option (Ctx w))}
    {P : NodeRef → Prop}
    (hvisit : ∀ ctx todo n ns p, Loading tb base json roots ctx todo →
      (ctx.ents rootEntry).guid = rootGuid →
      p < ctx.nextEntry → todo p = n :: ns → P n →
      Yields Fault.Abort (visit ctx n p)
      (Accepts tb base json roots ctx (Function.update todo p ns)))
    (ns : List NodeRef) : ∀ (ctx : Ctx w) (p : EntryRef) (todo : EntryRef → List NodeRef),
      Loading tb base json roots ctx todo → (ctx.ents rootEntry).guid = rootGuid →
      p < ctx.nextEntry →
      todo p = ns → (∀ n ∈ ns, P n) →
      Yields Fault.Abort (iterList visit ctx ns p)
      (Accepts tb base json roots ctx (Function.update todo p [])) := by
  induction ns with
  | nil =>
    intro ctx p todo L hguid _ hns _
    exact ⟨ctx, rfl, le_rfl, hguid, by rwa [← hns, Function.update_eq_self]⟩
  | cons n ns ih =>
    intro ctx p todo L hguid hp hns hP
    refine (hvisit ctx todo n ns p L hguid hp hns (hP n (by simp))).bind fun r hr => ?_
    obtain ⟨ctx₁, rfl, hle, hguid₁, L₁⟩ := hr
    refine (ih ctx₁ p _ L₁ hguid₁ (hp.trans_le hle) (Function.update_self ..)
      fun m hm => hP m (List.mem_cons_of_mem n hm)).mono fun r hr => ?_
    obtain ⟨ctx', rfl, hle', hguid', L'⟩ := hr
    exact ⟨ctx', rfl, hle.trans hle', hguid', by rwa [Function.update_idem] at L'⟩

/-- A subtree that is not too deep, by induction on the depth that is left. -/
theorem node_accepted (hf : tb.Faithful) (sep : Separate json roots)
    (A : Loadable json roots) (depth : ℕ) :
    ∀ (level : ℕ), level + depth = maxNodeIterDepth - 1 →
      ∀ ctx todo n ns p, Loading tb base json roots ctx todo →
      (ctx.ents rootEntry).guid = rootGuid →
        p < ctx.nextEntry → todo p = n :: ns → AtLevel json roots level n →
        Yields Fault.Abort (iterNode tb depth ctx n p)
          (Accepts tb base json roots ctx (Function.update todo p ns)) := by
  induction depth with
  | zero =>
    intro level hlevel ctx todo n ns p L hguid hp hns hn
    have hget := L.get_eq sep (L.reaches_todo p n (by simp [hns]))
    rw [iterNode]
    refine (L.visit_next hf sep A hguid hp hns).bind fun r hr => ?_
    obtain ⟨ctx₁, rfl, hnext, hguid₁, L₁⟩ := hr
    have hchildren : ctx.json.get n .children = none := by
      by_contra h
      have := A.shallow level n hn (by rwa [hget] at h)
      omega
    simp only [hchildren, kidsOf] at L₁ ⊢
    have hnil : Function.update todo p ns ctx.nextEntry = [] := by
      rw [Function.update_of_ne hp.ne', L.unread _ le_rfl]
    exact ⟨ctx₁, rfl, by omega, hguid₁, by rwa [← hnil, Function.update_eq_self] at L₁⟩
  | succ depth ih =>
    intro level hlevel ctx todo n ns p L hguid hp hns hn
    have hget := L.get_eq sep (L.reaches_todo p n (by simp [hns]))
    have hnil : Function.update todo p ns ctx.nextEntry = [] := by
      rw [Function.update_of_ne hp.ne', L.unread _ le_rfl]
    rw [iterNode]
    refine (L.visit_next hf sep A hguid hp hns).bind fun r hr => ?_
    obtain ⟨ctx₁, rfl, hnext, hguid₁, L₁⟩ := hr
    cases hchildren : ctx.json.get n .children with
    | none =>
      simp only [hchildren, kidsOf] at L₁ ⊢
      exact ⟨ctx₁, rfl, by omega, hguid₁, by rwa [← hnil, Function.update_eq_self] at L₁⟩
    | some c =>
      simp only [hchildren, kidsOf] at L₁ ⊢
      refine (list_accepted (ih (level + 1) (by omega)) _ ctx₁ ctx.nextEntry _ L₁ hguid₁
        (hnext ▸ Nat.lt_succ_self _)
        (Function.update_self ..) fun m hm => ?_).mono fun r hr => ?_
      · refine .child hn (by rw [← hget, hchildren]) ?_
        cases c with
        | array a =>
          have halt : a < json.nextArray := sep.array_lt n a (L.reaches_todo p n (by simp [hns]))
            (by rw [← hget, hchildren])
          rwa [Json.elems, L₁.array a halt] at hm
        | string _ => cases hm
        | other _ => cases hm
      · obtain ⟨ctx', rfl, hle, hguid', L'⟩ := hr
        refine ⟨ctx', rfl, by omega, hguid', ?_⟩
        rwa [Function.update_idem, ← hnil, Function.update_eq_self] at L'

end Loading

/-- A store that is like that is accepted. -/
theorem doLoad_accepts (hf : tb.Faithful) (sep : Separate json roots) (A : Loadable json roots)
    (ctx : Ctx w) :
    Yields Fault.Abort (doLoad tb ctx (some ⟨json, true, 1, some roots⟩)) fun r => r.1 = none := by
  obtain ⟨json', hroot, -⟩ := makeFakeRoot_spec json
  have hbuild : Yields Fault.Abort (buildMaps tb ctx json roots) fun r => r ≠ none := by
    rw [buildMaps, hroot]
    refine (hf.yields_insert (idmapHash tb fun _ => fakeRootEntry json) (Holds.create _) rfl
      (by simp) fun x _ => rfl).bind fun idMap Hid => ?_
    refine (hf.yields_insert (guidmapHash tb fun _ => fakeRootEntry json) (Holds.create _)
      rfl (by simp) fun x _ => rfl).bind fun guidMap Hguid => ?_
    have L := loading_start ctx roots hroot Hid Hguid
    rw [iterRoots, if_neg A.nonempty]
    refine (Loading.list_accepted (Loading.node_accepted hf sep A _ 0 (Nat.zero_add _))
      roots _ rootEntry _ L rfl
      Nat.one_pos (Function.update_self ..) fun n hn => .root hn).mono fun r hr => ?_
    obtain ⟨ctx', rfl, -⟩ := hr
    exact Option.some_ne_none ctx'
  rw [doLoad]
  refine hbuild.bind fun r hr => ?_
  cases r with
  | none => exact absurd rfl hr
  | some new => exact rfl

/-! ## Saving -/

theorem AtLevel.nested {d k : ℕ} {n : NodeRef} (h : AtLevel json roots d n)
    (hk : Walk.Nested json.kids k n) :
    ∃ r ∈ roots, Walk.Nested json.kids (k + d) r := by
  induction h generalizing k with
  | root hn => exact ⟨_, hn, hk⟩
  | @child d n m c _ hc hm ih =>
    obtain ⟨r, hr, hnested⟩ :=
      ih (k := k + 1) ⟨json.elems c, by rw [Json.kids, hc]; rfl, .inr ⟨m, hm, hk⟩⟩
    exact ⟨r, hr, by rwa [Nat.add_right_comm] at hnested⟩

/-- A checksum is only computed if there are no more levels than a store may have. -/
theorem chksumRoot_shallow {utf16 : Bytes → Option Bytes} {md5 : Bytes → Bytes} {sum : Bytes}
    (h : chksumRoot utf16 md5 json roots = some sum) {d : ℕ} {n : NodeRef}
    (hn : AtLevel json roots d n)
    (hc : json.get n .children ≠ none) : d < maxNodeIterDepth - 1 := by
  by_contra hd
  obtain ⟨c, hc⟩ := Option.ne_none_iff_exists'.mp hc
  obtain ⟨r, hr, hnested⟩ := hn.nested (k := 1) ⟨json.elems c, by rw [Json.kids, hc]; rfl, .inl rfl⟩
  have hdeep : ∀ k, Walk.Nested json.kids (maxNodeIterDepth + k) r →
    Walk.Nested json.kids maxNodeIterDepth r := by
    intro k
    induction k with
    | zero => exact id
    | succ k ih => exact fun h => ih h.of_succ
  have hnested := hdeep (d - (maxNodeIterDepth - 1)) (by
    rwa [show maxNodeIterDepth + (d - (maxNodeIterDepth - 1)) = 1 + d by
      rw [maxNodeIterDepth] at hd ⊢; omega])
  obtain ⟨fed, hwalk, -⟩ := Option.map_eq_some_iff.mp h
  rw [walkRoots] at hwalk
  split at hwalk
  · cases hwalk
  rw [Walk.foldlM_eq_none hr fun s => Walk.visitTree_nested hnested s ()] at hwalk
  cases hwalk

section Saved

variable {ctx : Ctx w} {S : Finset EntryRef} (I : Inv tb ctx S)

include I

theorem Inv.separate : Separate ctx.json ctx.roots where
  node_lt n hn := by
    obtain ⟨e, he, -, rfl⟩ := I.entry_of_reaches hn
    exact I.forest.node_lt e he
  array_lt n a hn ha := by
    obtain ⟨e, he, -, rfl⟩ := I.entry_of_reaches hn
    exact I.forest.array_lt e he a ((I.forest.children e he).symm.trans ha)
  owner n m a hn hm hna hma := by
    obtain ⟨e, he, -, rfl⟩ := I.entry_of_reaches hn
    obtain ⟨e', he', -, rfl⟩ := I.entry_of_reaches hm
    rw [I.forest.owner e he e' he' a ((I.forest.children e he).symm.trans hna)
      ((I.forest.children e' he').symm.trans hma)]

theorem Inv.child_of_elem {e : EntryRef} (he : e ∈ S) {c : Value}
    (hc : ctx.json.get (ctx.ents e).node .children = some c) {x : NodeRef}
    (hx : x ∈ ctx.json.elems c) :
    ∃ y ∈ S, y ≠ rootEntry ∧ (ctx.ents y).node = x ∧ (ctx.ents y).parentId = (ctx.ents e).id := by
  cases c with
  | array a => exact I.forest.child_entry he ((I.forest.children e he).symm.trans hc) hx
  | string _ => cases hx
  | other _ => cases hx

/-- A tree that agrees with the entries is accepted, if their GUIDs differ and it is
not too deep. -/
theorem Inv.loadable (hguid : ∀ e ∈ S, ∀ e' ∈ S, (ctx.ents e).guid = (ctx.ents e').guid → e = e')
    (hrootguid : (ctx.ents rootEntry).guid = rootGuid) (hroots : ctx.roots ≠ [])
    (hshallow : ∀ d n, AtLevel ctx.json ctx.roots d n → ctx.json.get n .children ≠ none →
      d < maxNodeIterDepth - 1) : Loadable ctx.json ctx.roots where
  nonempty := hroots
  nodup := by
    obtain ⟨a, ha⟩ := I.forest.root_array
    rw [← I.roots a ha]
    exact I.forest.nodup I.forest.root_mem ha
  id n hn := by
    obtain ⟨e, he, hroot, rfl⟩ := I.entry_of_reaches hn
    exact ⟨_, (I.forest.describes e he hroot).id, fun h => hroot ((I.id_eq_root he).mp h)⟩
  guid n hn := by
    obtain ⟨e, he, hroot, rfl⟩ := I.entry_of_reaches hn
    exact ⟨_, (I.forest.describes e he hroot).guid,
      fun h => hroot (hguid e he _ I.forest.root_mem (h.trans hrootguid.symm))⟩
  name n hn := by
    obtain ⟨e, he, hroot, rfl⟩ := I.entry_of_reaches hn
    obtain ⟨s, hs, -⟩ := (I.forest.describes e he hroot).name
    exact ⟨s, by rw [hs, jsonStringValue]⟩
  id_inj n m hn hm h := by
    obtain ⟨e, he, hroot, rfl⟩ := I.entry_of_reaches hn
    obtain ⟨e', he', hroot', rfl⟩ := I.entry_of_reaches hm
    rw [(I.forest.describes e he hroot).id, (I.forest.describes e' he' hroot').id,
      Option.some_inj] at h
    rw [I.forest.id_inj e he e' he' h]
  guid_inj n m hn hm h := by
    obtain ⟨e, he, hroot, rfl⟩ := I.entry_of_reaches hn
    obtain ⟨e', he', hroot', rfl⟩ := I.entry_of_reaches hm
    rw [(I.forest.describes e he hroot).guid, (I.forest.describes e' he' hroot').guid,
      Option.some_inj] at h
    rw [hguid e he e' he' h]
  children_nodup n c hn hc := by
    obtain ⟨e, he, -, rfl⟩ := I.entry_of_reaches hn
    cases c with
    | array a => exact I.forest.nodup he ((I.forest.children e he).symm.trans hc)
    | string _ => exact List.nodup_nil
    | other _ => exact List.nodup_nil
  parent n m c c' x hn hm hc hc' hx hx' := by
    obtain ⟨e, he, -, rfl⟩ := I.entry_of_reaches hn
    obtain ⟨e', he', -, rfl⟩ := I.entry_of_reaches hm
    obtain ⟨y, hy, -, rfl, hparent⟩ := I.child_of_elem he hc hx
    obtain ⟨y', hy', -, hnode, hparent'⟩ := I.child_of_elem he' hc' hx'
    obtain rfl := I.forest.node_inj y' hy' y hy hnode
    rw [I.forest.id_inj e he e' he' (hparent.symm.trans hparent')]
  not_root n c x hn hc hx hxroot := by
    obtain ⟨e, he, hroot, rfl⟩ := I.entry_of_reaches hn
    obtain ⟨a, ha⟩ := I.forest.root_array
    obtain ⟨y, hy, -, rfl, hparent⟩ := I.child_of_elem he hc hx
    rw [← I.roots a ha] at hxroot
    obtain ⟨y', hy', -, hnode, hparent'⟩ := I.forest.child_entry I.forest.root_mem ha hxroot
    obtain rfl := I.forest.node_inj y' hy' y hy hnode
    exact hroot (I.forest.id_inj e he _ I.forest.root_mem (hparent.symm.trans hparent'))
  shallow := hshallow

end Saved

end BookmarkFS.Chromium
