import BookmarkFS.Chromium.Maps

/-! # What loading establishes

While a store is read, the entries are those allocated so far, and `todo p` are
the children of `p` still to be visited; for the root these are the members of
`roots`, since the array of the fake root is filled on the way. A visit takes
the first child of a directory off its list and puts the list of the new entry
in place.
-/
namespace BookmarkFS.Chromium
open Library Hopscotch

variable {w : WordSize} {tb : Tables w}

/-- The nodes below the given roots. -/
inductive Reaches (json : Json) (roots : List NodeRef) : NodeRef → Prop
  | root {n : NodeRef} : n ∈ roots → Reaches json roots n
  | child {n m : NodeRef} {c : Value} : Reaches json roots n →
      json.get n .children = some c → m ∈ json.elems c → Reaches json roots m

/-- What a parser returns consists of cells it has allocated, and shares no array. -/
structure Separate (json : Json) (roots : List NodeRef) : Prop where
  node_lt : ∀ n, Reaches json roots n → n < json.nextNode
  array_lt : ∀ n a, Reaches json roots n → json.get n .children = some (.array a) →
    a < json.nextArray
  owner : ∀ n m a, Reaches json roots n → Reaches json roots m →
    json.get n .children = some (.array a) → json.get m .children = some (.array a) → n = m

/-- The children to be visited once a node has an entry. -/
def kidsOf (json : Json) : Option Value → List NodeRef
  | none => []
  | some c => json.elems c

section Rule

variable {Q : Ctx w → (EntryRef → List NodeRef) → Prop}

/-- A visit of one node keeps `Q`. -/
def VisitKeeps (tb : Tables w) (Q : Ctx w → (EntryRef → List NodeRef) → Prop) : Prop :=
  ∀ ctx todo n ns p, Q ctx todo → p < ctx.nextEntry → todo p = n :: ns →
    Yields Fault.Abort (mapsIterCb tb ctx n (ctx.json.get n .children) p) fun r =>
      ∀ e ctx', r = some (e, ctx') → ctx.nextEntry = e ∧ ctx'.nextEntry = e + 1 ∧
        Q ctx' (Function.update (Function.update todo p ns) e
          (kidsOf ctx'.json (ctx.json.get n .children)))

/-- The nodes of a list one after the other, by induction on the list. -/
theorem iterList_rule {visit : Ctx w → NodeRef → EntryRef → Except Fault (Option (Ctx w))}
    (hvisit : ∀ ctx todo n ns p, Q ctx todo → p < ctx.nextEntry → todo p = n :: ns →
      Yields Fault.Abort (visit ctx n p) fun r => ∀ ctx', r = some ctx' →
        ctx.nextEntry ≤ ctx'.nextEntry ∧ Q ctx' (Function.update todo p ns))
    (ctx : Ctx w) (ns : List NodeRef) (p : EntryRef) (todo : EntryRef → List NodeRef)
    (hQ : Q ctx todo) (hp : p < ctx.nextEntry) (hns : todo p = ns) :
    Yields Fault.Abort (iterList visit ctx ns p) fun r => ∀ ctx', r = some ctx' →
      ctx.nextEntry ≤ ctx'.nextEntry ∧ Q ctx' (Function.update todo p []) := by
  induction ns generalizing ctx todo with
  | nil =>
    rintro _ ⟨⟩
    exact ⟨le_rfl, by rwa [← hns, Function.update_eq_self]⟩
  | cons n ns ih =>
    refine (hvisit ctx todo n ns p hQ hp hns).bind fun r hr => ?_
    cases r with
    | none => simp
    | some ctx₁ =>
      obtain ⟨hle, hQ₁⟩ := hr ctx₁ rfl
      refine (ih ctx₁ _ hQ₁ (hp.trans_le hle) (Function.update_self ..)).mono fun r hr ctx' h => ?_
      obtain ⟨hle', hQ'⟩ := hr ctx' h
      exact ⟨hle.trans hle', by rwa [Function.update_idem] at hQ'⟩

/-- A subtree, by induction on the depth that is left. -/
theorem iterNode_rule (hvisit : VisitKeeps tb Q)
    (hunread : ∀ ctx todo, Q ctx todo → ∀ x, ctx.nextEntry ≤ x → todo x = []) (depth : ℕ)
    (ctx : Ctx w) (todo : EntryRef → List NodeRef) (n : NodeRef) (ns : List NodeRef) (p : EntryRef)
    (hQ : Q ctx todo) (hp : p < ctx.nextEntry) (hns : todo p = n :: ns) :
    Yields Fault.Abort (iterNode tb depth ctx n p) fun r => ∀ ctx', r = some ctx' →
      ctx.nextEntry ≤ ctx'.nextEntry ∧ Q ctx' (Function.update todo p ns) := by
  induction depth generalizing ctx todo n ns p with
  | zero =>
    rw [iterNode]
    refine (hvisit ctx todo n ns p hQ hp hns).bind fun r hr => ?_
    cases r with
    | none => simp
    | some q =>
      obtain ⟨he, hnext, hQ'⟩ := hr q.1 q.2 rfl
      cases hchildren : ctx.json.get n .children with
      | none =>
        rintro _ ⟨⟩
        have hnil : Function.update todo p ns q.1 = [] := by
          rw [Function.update_of_ne (hp.trans_eq he).ne']
          exact hunread ctx todo hQ q.1 he.le
        rw [hchildren] at hQ'
        refine ⟨by omega, ?_⟩
        rwa [kidsOf, ← hnil, Function.update_eq_self] at hQ'
      | some c => simp
  | succ depth ih =>
    rw [iterNode]
    refine (hvisit ctx todo n ns p hQ hp hns).bind fun r hr => ?_
    cases r with
    | none => simp
    | some q =>
      obtain ⟨he, hnext, hQ'⟩ := hr q.1 q.2 rfl
      have hnil : Function.update todo p ns q.1 = [] := by
        rw [Function.update_of_ne (hp.trans_eq he).ne']
        exact hunread ctx todo hQ q.1 he.le
      cases hchildren : ctx.json.get n .children with
      | none =>
        rintro _ ⟨⟩
        rw [hchildren] at hQ'
        refine ⟨by omega, ?_⟩
        rwa [kidsOf, ← hnil, Function.update_eq_self] at hQ'
      | some c =>
        rw [hchildren] at hQ'
        refine (iterList_rule (fun ctx todo n ns p => ih ctx todo n ns p) q.2 _ q.1 _ hQ'
          (hnext ▸ Nat.lt_succ_self q.1) (Function.update_self ..)).mono fun r hr ctx' h => ?_
        obtain ⟨hle, hQ₂⟩ := hr ctx' h
        refine ⟨by omega, ?_⟩
        rwa [Function.update_idem, ← hnil, Function.update_eq_self] at hQ₂

end Rule

/-- The children that the array of `p` has and that have no entry. -/
def pendOf (todo : EntryRef → List NodeRef) : EntryRef → List NodeRef :=
  fun p => if p = rootEntry then [] else todo p

/-- When a child of `p` with the name `s` and the given elder siblings becomes visible. -/
def Shown (ents : Entries) (S : Finset EntryRef) (p : EntryRef) (s : Bytes)
    (elders : List NodeRef) : Prop :=
  (ents p).name ≠ none ∧ validateFilename s = none ∧
    ∀ x ∈ S, (ents x).node ∈ elders → (ents x).name ≠ some s

/-- Which entries have a name is what `maps_iter_cb()` decides. -/
def NamesAsLoaded (json : Json) (ents : Entries) (S : Finset EntryRef)
    (pend : EntryRef → List NodeRef) : Prop :=
  ∀ p ∈ S, ∀ a, (ents p).children = some (.array a) → ∀ e ∈ S, e ≠ rootEntry →
    ∀ elders younger, json.array a = (elders ++ (ents e).node :: younger) ++ pend p →
      ∀ s, json.get (ents e).node .name = some (.string s) →
        ((ents e).name ≠ none ↔ Shown ents S p s elders)

/-- The invariant of loading; `json` and `roots` are the store as the parser has left it, `base` is
the context that it is loaded into. -/
structure Loading (tb : Tables w) (base : Ctx w) (json : Json) (roots : List NodeRef) (ctx : Ctx w)
    (todo : EntryRef → List NodeRef) : Prop where
  forest : Forest ctx.json ctx.ents (Finset.range ctx.nextEntry) (pendOf todo)
  indexed : Indexed tb ctx (Finset.range ctx.nextEntry)
  unread : ∀ x, ctx.nextEntry ≤ x → todo x = []
  reaches_todo : ∀ x, ∀ n ∈ todo x, Reaches json roots n
  todo_array : ∀ x, todo x ≠ [] → ∃ a, (ctx.ents x).children = some (.array a)
  reaches : ∀ e < ctx.nextEntry, e ≠ rootEntry → Reaches json roots (ctx.ents e).node
  object : ∀ n < json.nextNode, ctx.json.object n = json.object n
  array : ∀ b < json.nextArray, ctx.json.array b = json.array b
  root_node : (ctx.ents rootEntry).node = json.nextNode
  root_array : (ctx.ents rootEntry).children = some (.array json.nextArray)
  next : ctx.json.nextNode = json.nextNode + 1 ∧ ctx.json.nextArray = json.nextArray + 1
  max_id : ctx.maxId ≤ maxBookmarkId ∧ ∀ e < ctx.nextEntry, (ctx.ents e).id ≤ ctx.maxId
  guid_mode : ctx.flags.filenameGuid = true →
    ∀ e < ctx.nextEntry, e ≠ rootEntry → (ctx.ents e).name = none
  roots_eq : ctx.roots = roots
  kept : ctx.flags = base.flags ∧ ctx.watching = base.watching
  root_listed : ctx.json.array json.nextArray ++ todo rootEntry = roots
  names : ctx.flags.filenameGuid = false →
    NamesAsLoaded ctx.json ctx.ents (Finset.range ctx.nextEntry) (pendOf todo)
  shown : ∀ e ∈ named ctx.ents (Finset.range ctx.nextEntry), ∀ p < ctx.nextEntry,
    (ctx.ents p).id = (ctx.ents e).parentId → (ctx.ents p).name ≠ none

section Visit

variable {base : Ctx w} {json : Json} {roots : List NodeRef} {ctx : Ctx w}
  {todo : EntryRef → List NodeRef}

/-- The context once the name of `e` has been decided. -/
def nameDecided (ctx : Ctx w) (e : EntryRef) (name : Option Bytes)
    (assocMap : Hashmap w EntryRef) : Ctx w :=
  let entry := { ctx.ents e with name := name }
  { ctx with assocMap := assocMap, ents := Function.update ctx.ents e entry }

/-- When `maps_iter_cb()` gives a name to a child of `parent`. -/
def NameTaken (ctx : Ctx w) (S : Finset EntryRef) (parent : EntryRef) (name : Bytes) : Prop :=
  ctx.flags.filenameGuid = false ∧ ((ctx.ents parent).name ≠ none ∨ (ctx.ents parent).id = rootId) ∧
    validateFilename name = none ∧ ∀ x ∈ named ctx.ents S,
      (ctx.ents x).parentId = (ctx.ents parent).id → (ctx.ents x).name ≠ some name

/-- What `maps_iter_cb()` decides about the name of the new entry. -/
theorem mapsIterName_spec (hf : tb.Faithful) (ctx : Ctx w) {S : Finset EntryRef}
    (parent e : EntryRef) (name : Bytes) (I : Indexed tb ctx S) (he : e ∈ S) (hroot : e ≠ rootEntry)
    (hnone : (ctx.ents e).name = none) (hparent : (ctx.ents e).parentId = (ctx.ents parent).id) :
    Yields Fault.Abort (mapsIterName tb ctx parent e name) fun ctx' =>
      Indexed tb ctx' S ∧ ∃ name' assocMap, ctx' = nameDecided ctx e name' assocMap ∧
        (name' = none ∧ ¬NameTaken ctx S parent name ∨
          name' = some name ∧ NameTaken ctx S parent name) := by
  have hkeep : ∀ {P : Prop}, ¬P → Indexed tb ctx S ∧ ∃ name' assocMap,
      ctx = nameDecided ctx e name' assocMap ∧ (name' = none ∧ ¬P ∨ name' = some name ∧ P) := by
    intro P hP
    refine ⟨I, none, ctx.assocMap, ?_, .inl ⟨rfl, hP⟩⟩
    rw [nameDecided, ← hnone]
    simp
  rw [mapsIterName]
  by_cases hguid : ctx.flags.filenameGuid = true
  · rw [if_pos hguid]
    exact hkeep fun h => by simp [h.1] at hguid
  rw [if_neg hguid]
  by_cases hhidden : (ctx.ents parent).name = none ∧ (ctx.ents parent).id ≠ rootId
  · rw [if_pos hhidden]
    exact hkeep fun h => h.2.1.elim (absurd hhidden.1) fun h => hhidden.2 h
  rw [if_neg hhidden]
  by_cases hvalid : validateFilename name ≠ none
  · rw [if_pos hvalid]
    exact hkeep fun h => hvalid h.2.2.1
  rw [if_neg hvalid]
  obtain ⟨r, hrun, hfound, hfree⟩ := lookupAssoc_spec I.assoc (ctx.ents parent).id name
  rw [hrun, ok_bind]
  cases r with
  | some q =>
    obtain ⟨hq, hqparent, hqname, -⟩ := hfound q.1 q.2 rfl
    exact hkeep fun h => h.2.2.2 q.1 hq hqparent hqname
  | none =>
    have hfree := hfree rfl
    refine (hparent ▸ I.giveName hf he hroot hnone (hparent ▸ hfree) rfl).bind fun assocMap I' => ?_
    refine ⟨I', some name, assocMap, rfl, .inr ⟨rfl, by simpa using hguid,
      ?_, by simpa using hvalid, hfree⟩⟩
    by_contra h
    exact hhidden (by push Not at h; exact h)

/-- The entry made for a node before its name is decided. -/
def newEntry (ctx : Ctx w) (node : NodeRef) (parent : EntryRef) (id : ℕ) (guid : Bytes) :
    NodeEntry :=
  { id := id, parentId := (ctx.ents parent).id, guid := guid, name := none, node := node,
    children := ctx.json.get node .children }

/-- The tree once the fake root lists a node that is a root. -/
def listedInRoot (ctx : Ctx w) (node : NodeRef) (parent : EntryRef) : Json :=
  if (ctx.ents parent).id = rootId then
    match (ctx.ents parent).children with
    | none => ctx.json
    | some siblings => ctx.json.arrayAppend siblings node
  else ctx.json

/-- The context once a node has an entry that is in the maps of identifiers and GUIDs. -/
def entryAdded (ctx : Ctx w) (node : NodeRef) (parent : EntryRef) (id : ℕ) (guid : Bytes)
    (idMap guidMap : Hashmap w EntryRef) : Ctx w :=
  { ctx with
    json := listedInRoot ctx node parent
    ents := Function.update ctx.ents ctx.nextEntry (newEntry ctx node parent id guid)
    nextEntry := ctx.nextEntry + 1, idMap := idMap, guidMap := guidMap, maxId := max ctx.maxId id }

namespace Loading

variable {n : NodeRef} {ns : List NodeRef} {p : EntryRef}

theorem root_lt (L : Loading tb base json roots ctx todo) : rootEntry < ctx.nextEntry :=
  Finset.mem_range.mp L.forest.root_mem

theorem id_eq_root (L : Loading tb base json roots ctx todo) (hp : p < ctx.nextEntry) :
    (ctx.ents p).id = rootId ↔ p = rootEntry := by
  constructor
  · intro h
    exact L.forest.id_inj p (Finset.mem_range.mpr hp) _ L.forest.root_mem
      (h.trans L.forest.root_id.symm)
  · rintro rfl; exact L.forest.root_id

theorem get_eq (L : Loading tb base json roots ctx todo) (sep : Separate json roots)
    (hn : Reaches json roots n) (k : Key) : ctx.json.get n k = json.get n k := by
  rw [Json.get, L.object n (sep.node_lt n hn), Json.get]

theorem listed_eq (L : Loading tb base json roots ctx todo) (hp : p < ctx.nextEntry) :
    listedInRoot ctx n p = if p = rootEntry then
      ctx.json.arrayAppend (.array json.nextArray) n else ctx.json := by
  rw [listedInRoot]
  by_cases h : p = rootEntry
  · subst h
    rw [if_pos L.forest.root_id, L.root_array, if_pos rfl]
  · rw [if_neg fun hid => h ((L.id_eq_root hp).mp hid), if_neg h]

theorem listed_get (L : Loading tb base json roots ctx todo) (hp : p < ctx.nextEntry) :
    (listedInRoot ctx n p).get = ctx.json.get ∧ (listedInRoot ctx n p).object = ctx.json.object ∧
      (listedInRoot ctx n p).nextNode = ctx.json.nextNode ∧
      (listedInRoot ctx n p).nextArray = ctx.json.nextArray := by
  rw [L.listed_eq hp]
  split_ifs <;> simp [Json.arrayAppend]

theorem listed_array (L : Loading tb base json roots ctx todo) (hp : p < ctx.nextEntry)
    (b : ArrayRef) :
    (listedInRoot ctx n p).array b = if p = rootEntry ∧ b = json.nextArray then
      ctx.json.array json.nextArray ++ [n] else ctx.json.array b := by
  rw [L.listed_eq hp]
  by_cases h : p = rootEntry
  · by_cases hb : b = json.nextArray <;>
      simp [h, hb, Json.arrayAppend, Json.setElems_array, Json.elems]
  · simp [h]

/-- The tree and the entries after a node has been given an entry. -/
theorem forest_added (L : Loading tb base json roots ctx todo) (sep : Separate json roots)
    (hp : p < ctx.nextEntry) (hns : todo p = n :: ns) {id : ℕ} {guid name : Bytes}
    (hid : parseId ctx.json n = some id) (hnew : ∀ x < ctx.nextEntry, (ctx.ents x).id ≠ id)
    (hguid : parseGuid ((jsonStringValue (ctx.json.get n .guid)).getD []) = some guid)
    (hname : jsonStringValue (ctx.json.get n .name) = some name)
    (idMap guidMap : Hashmap w EntryRef) :
    let ctx' := entryAdded ctx n p id guid idMap guidMap
    Forest ctx'.json ctx'.ents (Finset.range ctx'.nextEntry)
      (pendOf (Function.update (Function.update todo p ns) ctx.nextEntry
        (kidsOf ctx'.json (ctx.json.get n .children)))) := by
  intro ctx'
  have hreach : Reaches json roots n := L.reaches_todo p n (by simp [hns])
  obtain ⟨hget, hobject, hnextNode, hnextArray⟩ := L.listed_get (n := n) hp
  have hself : ctx'.ents ctx.nextEntry = newEntry ctx n p id guid := Function.update_self ..
  have hother : ∀ x ∈ Finset.range ctx.nextEntry, ctx'.ents x = ctx.ents x := fun x hx =>
    Function.update_of_ne (Finset.mem_range.mp hx).ne _ _
  have hnode : ∀ x ∈ Finset.range ctx.nextEntry, (ctx.ents x).node ≠ n := by
    intro x hx hxn
    by_cases hroot : x = rootEntry
    · rw [hroot, L.root_node] at hxn
      exact absurd hxn (sep.node_lt n hreach).ne'
    · have := (L.forest.describes x hx hroot).id
      rw [hxn, hid, Option.some_inj] at this
      exact hnew x (Finset.mem_range.mp hx) this.symm
  obtain ⟨a, ha⟩ := L.todo_array p (by simp [hns])
  have hpend : ∀ x, x ≠ ctx.nextEntry → x ≠ p → pendOf (Function.update (Function.update todo p ns)
      ctx.nextEntry (kidsOf ctx'.json (ctx.json.get n .children))) x = pendOf todo x := by
    intro x hx hxp
    simp only [pendOf, Function.update_of_ne hx, Function.update_of_ne hxp]
  have hpendp : pendOf (Function.update (Function.update todo p ns) ctx.nextEntry
      (kidsOf ctx'.json (ctx.json.get n .children))) p = if p = rootEntry then [] else ns := by
    simp only [pendOf, Function.update_of_ne hp.ne, Function.update_self]
  rw [show Finset.range ctx'.nextEntry = insert ctx.nextEntry (Finset.range ctx.nextEntry) from
    Finset.range_add_one]
  refine L.forest.addLeaf (p := p) (a := a) (by simp) (Finset.mem_range.mpr hp) ha hother
    (by rw [hself, newEntry]) (fun x hx => by
      rw [hself]; exact hnew x (Finset.mem_range.mp hx)) (fun x hx => by
      rw [hself]; exact hnode x hx) ?_ ?_ ?_ ?_ ?_ ?_ ?_
  · rw [hself]
    refine Describes.congr (⟨hid, hguid, ?_⟩ : Describes ctx.json _) fun k _ => ?_
    · cases hval : ctx.json.get n .name with
      | none => simp [hval, jsonStringValue] at hname
      | some v => cases v with
        | string s => exact ⟨s, hval, by simp [newEntry]⟩
        | array _ => simp [hval, jsonStringValue] at hname
        | other _ => simp [hval, jsonStringValue] at hname
    · show (listedInRoot ctx n p).get _ k = _
      rw [hget]
  · intro x _ k _
    show (listedInRoot ctx n p).get _ k = _
    rw [hget]
  · show (listedInRoot ctx n p).get _ _ = _
    rw [hget, hself, newEntry]
  · intro seen hseen
    show (listedInRoot ctx n p).array a = _
    rw [L.listed_array hp, hself, newEntry, hpendp]
    by_cases hroot : p = rootEntry
    · subst hroot
      obtain rfl : a = json.nextArray := by simpa [ha] using L.root_array
      simp [pendOf] at hseen
      simp [hseen]
    · simp [pendOf, hroot, hns] at hseen
      simp [hroot, hseen]
  · intro x hx hxp
    refine ⟨hpend x (Finset.mem_range.mp hx).ne hxp, fun b hb => ?_⟩
    show (listedInRoot ctx n p).array b = _
    rw [L.listed_array hp, if_neg]
    rintro ⟨rfl, rfl⟩
    exact hxp (L.forest.owner x hx _ L.forest.root_mem _ hb L.root_array)
  · intro b hb
    rw [hself] at hb
    have hbdoc : json.get n .children = some (.array b) := (L.get_eq sep hreach _).symm.trans hb
    have hblt := sep.array_lt n b hreach hbdoc
    refine ⟨?_, fun x hx hxb => ?_, ?_⟩
    · have hne : ctx.nextEntry ≠ rootEntry := L.root_lt.ne'
      simp only [pendOf, if_neg hne, Function.update_self]
      rw [show ctx.json.get n .children = some (.array b) from hb]
      rfl
    · by_cases hroot : x = rootEntry
      · subst hroot
        rw [L.root_array] at hxb
        exact hblt.ne' (by simpa using hxb)
      · have hxreach := L.reaches x (Finset.mem_range.mp hx) hroot
        refine hnode x hx (sep.owner _ _ b hxreach hreach ?_ hbdoc)
        rw [← L.get_eq sep hxreach, L.forest.children x hx, hxb]
    · show b < (listedInRoot ctx n p).nextArray
      rw [hnextArray, L.next.2]
      exact Nat.lt_succ_of_lt hblt
  · refine ⟨hnextNode.ge, hnextArray.ge, ?_⟩
    rw [hself]
    show n < (listedInRoot ctx n p).nextNode
    rw [hnextNode, L.next.1]
    exact Nat.lt_succ_of_lt (sep.node_lt n hreach)

/-- Adding an entry without a name to the maps. -/
theorem indexed_added (L : Loading tb base json roots ctx todo) {id : ℕ} {guid : Bytes}
    {idMap guidMap : Hashmap w EntryRef}
    (Hid : Holds idMap (insert ctx.nextEntry (Finset.range ctx.nextEntry))
      (idmapHash tb (entryAdded ctx n p id guid idMap guidMap).ents))
    (Hguid : Holds guidMap (insert ctx.nextEntry (Finset.range ctx.nextEntry))
      (guidmapHash tb (entryAdded ctx n p id guid idMap guidMap).ents)) :
    Indexed tb (entryAdded ctx n p id guid idMap guidMap)
      (Finset.range (ctx.nextEntry + 1)) := by
  have hself : (entryAdded ctx n p id guid idMap guidMap).ents ctx.nextEntry =
      newEntry ctx n p id guid := Function.update_self ..
  have hother : ∀ x ∈ named ctx.ents (Finset.range ctx.nextEntry),
      (entryAdded ctx n p id guid idMap guidMap).ents x = ctx.ents x := fun x hx =>
    Function.update_of_ne (Finset.mem_range.mp (mem_named.mp hx).1).ne _ _
  have hnamed : named (entryAdded ctx n p id guid idMap guidMap).ents
      (Finset.range (ctx.nextEntry + 1)) = named ctx.ents (Finset.range ctx.nextEntry) := by
    ext x
    rw [mem_named, mem_named, Finset.mem_range, Finset.mem_range]
    by_cases hx : x = ctx.nextEntry
    · subst hx
      simp [hself, newEntry]
    · rw [show (entryAdded ctx n p id guid idMap guidMap).ents x = ctx.ents x from
        Function.update_of_ne hx _ _]
      refine and_congr_left fun _ => ?_
      exact ⟨fun h => lt_of_le_of_ne (Nat.le_of_lt_succ h) hx, Nat.lt_succ_of_lt⟩
  refine ⟨by rwa [Finset.range_add_one], by rwa [Finset.range_add_one], ?_, ?_⟩
  · rw [hnamed]
    exact L.indexed.assoc.congr_hash fun x hx => by
      rw [assocmapHash, assocmapHash, hother x hx]
  · rw [hnamed]
    intro x hx y hy
    rw [hother x hx, hother y hy]
    exact L.indexed.names x hx y hy

/-- Where an element can be in a list that ends in `n`. -/
theorem append_cons_eq_concat {l r seen : List NodeRef} {m n : NodeRef}
    (h : l ++ m :: r = seen ++ [n]) :
    (r = [] ∧ m = n ∧ l = seen) ∨ ∃ r', r = r' ++ [n] ∧ l ++ m :: r' = seen := by
  rcases List.eq_nil_or_concat r with rfl | ⟨r', y, rfl⟩
  · obtain ⟨rfl, hm⟩ := List.append_inj' h rfl
    exact .inl ⟨rfl, by simpa using hm, rfl⟩
  · rw [List.concat_eq_append, ← List.cons_append, ← List.append_assoc] at h
    obtain ⟨h, hy⟩ := List.append_inj' h rfl
    exact .inr ⟨r', by simpa using hy, h⟩

theorem mem_todo_visited (hns : todo p = n :: ns) {kids : List NodeRef}
    {e x : EntryRef} {m : NodeRef}
    (h : m ∈ Function.update (Function.update todo p ns) e kids x) : (x = e ∧ m ∈ kids) ∨
    m ∈ todo x := by
  by_cases hx : x = e
  · subst hx
    rw [Function.update_self] at h
    exact .inl ⟨rfl, h⟩
  · rw [Function.update_of_ne hx] at h
    by_cases hxp : x = p
    · subst hxp
      rw [Function.update_self] at h
      exact .inr (hns ▸ List.mem_cons_of_mem _ h)
    · rw [Function.update_of_ne hxp] at h
      exact .inr h

theorem array_of_mem_kids {json : Json} {c : Option Value} {m : NodeRef} (h : m ∈ kidsOf json c) :
    ∃ a, c = some (.array a) ∧ m ∈ json.array a := by
  cases c with
  | none => cases h
  | some c =>
    cases c with
    | array a => exact ⟨a, rfl, h⟩
    | string _ => cases h
    | other _ => cases h

/-- What a visit does, but for the maps: the node has an entry, with a name or without. -/
structure NodeAdded (ctx : Ctx w) (n : NodeRef) (p : EntryRef) (id : ℕ) (guid : Bytes)
    (name' : Option Bytes) (ctx' : Ctx w) : Prop where
  json : ctx'.json = listedInRoot ctx n p
  self : ctx'.ents ctx.nextEntry = { newEntry ctx n p id guid with name := name' }
  other : ∀ x, x ≠ ctx.nextEntry → ctx'.ents x = ctx.ents x
  next : ctx'.nextEntry = ctx.nextEntry + 1
  maxId : ctx'.maxId = max ctx.maxId id

theorem nameDecided_added (idMap guidMap assocMap : Hashmap w EntryRef) (id : ℕ) (guid : Bytes)
    (name' : Option Bytes) : NodeAdded ctx n p id guid name'
      (nameDecided (entryAdded ctx n p id guid idMap guidMap) ctx.nextEntry name' assocMap) where
  json := rfl
  self := by simp [nameDecided, entryAdded]
  other x hx := by simp [nameDecided, entryAdded, hx]
  next := rfl
  maxId := rfl

namespace NodeAdded

variable {id : ℕ} {guid name : Bytes} {name' : Option Bytes} {ctx' : Ctx w}
  (V : NodeAdded ctx n p id guid name' ctx')

include V

theorem old : ∀ x < ctx.nextEntry, ctx'.ents x = ctx.ents x := fun x hx => V.other x hx.ne

theorem lt {x : EntryRef} (hx : x < ctx'.nextEntry) (hne : x ≠ ctx.nextEntry) : x < ctx.nextEntry :=
  lt_of_le_of_ne (Nat.le_of_lt_succ (hx.trans_eq V.next)) hne

theorem root (L : Loading tb base json roots ctx todo) : ctx'.ents rootEntry = ctx.ents rootEntry :=
  V.old _ L.root_lt

theorem array (L : Loading tb base json roots ctx todo) (hp : p < ctx.nextEntry) {b : ArrayRef}
    (hb : b < json.nextArray) : ctx'.json.array b = json.array b := by
  rw [V.json, L.listed_array hp, if_neg fun h => hb.ne h.2, L.array b hb]

theorem reaches_todo (L : Loading tb base json roots ctx todo) (sep : Separate json roots)
    (hp : p < ctx.nextEntry) (hns : todo p = n :: ns) {x : EntryRef} {m : NodeRef}
    (hm : m ∈ Function.update (Function.update todo p ns) ctx.nextEntry
      (kidsOf ctx'.json (ctx.json.get n .children)) x) : Reaches json roots m := by
  have hreach : Reaches json roots n := L.reaches_todo p n (by simp [hns])
  obtain ⟨rfl, hkid⟩ | hold := mem_todo_visited hns hm
  · obtain ⟨b, hc, hkid⟩ := array_of_mem_kids hkid
    have hcdoc : json.get n .children = some (.array b) := by rw [← L.get_eq sep hreach, hc]
    rw [V.array L hp (sep.array_lt n b hreach hcdoc)] at hkid
    exact .child hreach hcdoc hkid
  · exact L.reaches_todo x m hold

theorem todo_array (L : Loading tb base json roots ctx todo) (hns : todo p = n :: ns) {x : EntryRef}
    (hx : Function.update (Function.update todo p ns) ctx.nextEntry
      (kidsOf ctx'.json (ctx.json.get n .children)) x ≠ []) :
      ∃ a, (ctx'.ents x).children = some (.array a) := by
  obtain ⟨m, hm⟩ := List.exists_mem_of_ne_nil _ hx
  obtain ⟨rfl, hkid⟩ | hold := mem_todo_visited hns hm
  · obtain ⟨b, hc, -⟩ := array_of_mem_kids hkid
    rw [V.self]
    exact ⟨b, hc⟩
  · have harray := L.todo_array x (List.ne_nil_of_mem hold)
    have hxe : x ≠ ctx.nextEntry := by
      rintro rfl
      rw [L.unread _ le_rfl] at hold
      cases hold
    rwa [V.other x hxe]

theorem max_id (L : Loading tb base json roots ctx todo) (hid : parseId ctx.json n = some id) :
    ctx'.maxId ≤ maxBookmarkId ∧ ∀ x < ctx'.nextEntry, (ctx'.ents x).id ≤ ctx'.maxId := by
  have hidle : id ≤ maxBookmarkId := by
    rw [parseId] at hid
    split_ifs at hid
    simp only at hid
    split_ifs at hid with h₁ h₂
    rw [Option.some_inj] at hid
    omega
  rw [V.maxId]
  refine ⟨max_le L.max_id.1 hidle, fun x hx => ?_⟩
  by_cases hxe : x = ctx.nextEntry
  · subst hxe
    rw [V.self]
    exact le_max_right _ _
  · rw [V.other x hxe]
    exact (L.max_id.2 x (V.lt hx hxe)).trans (le_max_left _ _)

/-- Only the name of the new entry differs from what it is when the node is given an entry. -/
theorem forest (L : Loading tb base json roots ctx todo) (sep : Separate json roots)
    (hp : p < ctx.nextEntry) (hns : todo p = n :: ns) (hid : parseId ctx.json n = some id)
    (hnew : ∀ x < ctx.nextEntry, (ctx.ents x).id ≠ id)
    (hguid : parseGuid ((jsonStringValue (ctx.json.get n .guid)).getD []) = some guid)
    (hname : jsonStringValue (ctx.json.get n .name) = some name)
    (hname' : name' = none ∨ name' = some name) :
    Forest ctx'.json ctx'.ents (Finset.range ctx'.nextEntry)
      (pendOf (Function.update (Function.update todo p ns) ctx.nextEntry
        (kidsOf ctx'.json (ctx.json.get n .children)))) := by
  have F := L.forest_added sep hp hns hid hnew hguid hname ctx.idMap ctx.guidMap
  have hself : (entryAdded ctx n p id guid ctx.idMap ctx.guidMap).ents ctx.nextEntry =
    newEntry ctx n p id guid :=
    Function.update_self ..
  have hother : ∀ x, x ≠ ctx.nextEntry →
      (entryAdded ctx n p id guid ctx.idMap ctx.guidMap).ents x = ctx.ents x :=
    fun x hx => Function.update_of_ne hx _ _
  have hents : ∀ x, (ctx'.ents x).id =
    ((entryAdded ctx n p id guid ctx.idMap ctx.guidMap).ents x).id ∧
      (ctx'.ents x).parentId =
      ((entryAdded ctx n p id guid ctx.idMap ctx.guidMap).ents x).parentId ∧
      (ctx'.ents x).node = ((entryAdded ctx n p id guid ctx.idMap ctx.guidMap).ents x).node ∧
      (ctx'.ents x).children =
      ((entryAdded ctx n p id guid ctx.idMap ctx.guidMap).ents x).children := by
    intro x
    by_cases hx : x = ctx.nextEntry
    · subst hx
      rw [V.self, hself]
      exact ⟨rfl, rfl, rfl, rfl⟩
    · rw [V.other x hx, hother x hx]
      exact ⟨rfl, rfl, rfl, rfl⟩
  rw [V.next, V.json]
  refine F.congr (fun _ _ _ _ => rfl) le_rfl le_rfl (fun x _ => hents x) ?_ (fun x hx hxroot => ?_)
    fun x hx => rfl
  · rw [V.root L, hother _ L.root_lt.ne]
  · have D := F.describes x hx hxroot
    by_cases hxe : x = ctx.nextEntry
    · subst hxe
      rw [hself] at D
      rw [V.self]
      obtain ⟨str, hstr, -⟩ := D.name
      refine ⟨D.id, D.guid, str, hstr, fun m hm => ?_⟩
      have hstr' : ctx.json.get n .name = some (.string str) := by
        rw [← (L.listed_get (n := n) hp).1]
        exact hstr
      rw [hstr', jsonStringValue, Option.some_inj] at hname
      rcases hname' with rfl | rfl
      · cases hm
      · rw [hname, Option.some_inj.mp hm]
    · rw [hother x hxe] at D
      rwa [V.other x hxe]

/-- An entry with a name is in a directory that has one. -/
theorem shown (L : Loading tb base json roots ctx todo) (hp : p < ctx.nextEntry)
    (hnew : ∀ x < ctx.nextEntry, (ctx.ents x).id ≠ id)
    (hparent : name' ≠ none → (ctx.ents p).name ≠ none ∨ (ctx.ents p).id = rootId) :
    ∀ x ∈ named ctx'.ents (Finset.range ctx'.nextEntry), ∀ q < ctx'.nextEntry,
      (ctx'.ents q).id = (ctx'.ents x).parentId → (ctx'.ents q).name ≠ none := by
  intro x hx q hq hqid
  obtain ⟨hxlt, hxroot, hxname⟩ := mem_named.mp hx
  have hxlt := Finset.mem_range.mp hxlt
  by_cases hxe : x = ctx.nextEntry
  · by_cases hqe : q = ctx.nextEntry
    · rw [hqe, ← hxe]
      exact hxname
    have hqlt := V.lt hq hqe
    rw [hxe, V.self] at hxname hqid
    rw [V.old q hqlt] at hqid ⊢
    obtain rfl := L.forest.id_inj q (Finset.mem_range.mpr hqlt) p (Finset.mem_range.mpr hp) hqid
    refine (hparent hxname).elim (fun h => h) fun h => ?_
    rw [(L.id_eq_root hqlt).mp h, L.forest.root_name]
    exact Option.some_ne_none _
  · have hxlt := V.lt hxlt hxe
    rw [V.old x hxlt] at hqid hxname
    by_cases hqe : q = ctx.nextEntry
    · -- the parent of an older entry is older, too
      rw [hqe, V.self] at hqid
      obtain ⟨r, hr, -, -, -, hrid, -⟩ := L.forest.parent x (Finset.mem_range.mpr hxlt) hxroot
      exact absurd (hrid.trans hqid.symm) (hnew r (Finset.mem_range.mp hr))
    · have hqlt := V.lt hq hqe
      rw [V.old q hqlt] at hqid ⊢
      exact L.shown x (mem_named.mpr ⟨Finset.mem_range.mpr hxlt, hxroot, hxname⟩) q hqlt hqid

/-- The new entry is not among those that have been looked at. -/
theorem shown_iff {q : EntryRef} (hq : q < ctx.nextEntry) {l : List NodeRef} (hl : n ∉ l)
    (str : Bytes) :
    Shown ctx'.ents (Finset.range ctx'.nextEntry) q str l ↔
    Shown ctx.ents (Finset.range ctx.nextEntry) q str l := by
  rw [Shown, Shown, V.old q hq]
  refine and_congr_right fun _ => and_congr_right fun _ =>
    ⟨fun h x hx hxl => ?_, fun h x hx hxl => ?_⟩
  · have hx' : x ∈ Finset.range ctx'.nextEntry :=
      Finset.mem_range.mpr (V.next ▸ Nat.lt_succ_of_lt (Finset.mem_range.mp hx))
    have := h x hx'
    rw [V.old x (Finset.mem_range.mp hx)] at this
    exact this hxl
  · by_cases hxn : x = ctx.nextEntry
    · rw [hxn, V.self] at hxl
      exact absurd hxl hl
    · have hx := V.lt (Finset.mem_range.mp hx) hxn
      rw [V.old x hx] at hxl ⊢
      exact h x (Finset.mem_range.mpr hx) hxl

omit V in
/-- A name is taken if nothing that has been looked at is shown under it. -/
theorem taken_iff_shown (L : Loading tb base json roots ctx todo) (hp : p < ctx.nextEntry)
    (hflag : ctx.flags.filenameGuid = false) {a : ArrayRef}
    (ha : (ctx.ents p).children = some (.array a))
    {seen : List NodeRef} (hseen : ctx.json.array a = seen ++ pendOf todo p)
    (hentry : ∀ m ∈ seen, ∃ x ∈ Finset.range ctx.nextEntry, x ≠ rootEntry ∧ (ctx.ents x).node = m ∧
      (ctx.ents x).parentId = (ctx.ents p).id) (idMap guidMap : Hashmap w EntryRef) :
    NameTaken (entryAdded ctx n p id guid idMap guidMap) (Finset.range (ctx.nextEntry + 1)) p name ↔
      Shown ctx.ents (Finset.range ctx.nextEntry) p name seen := by
  have hold : ∀ x < ctx.nextEntry, (entryAdded ctx n p id guid idMap guidMap).ents x = ctx.ents x :=
    fun x hx => Function.update_of_ne hx.ne _ _
  constructor
  · rintro ⟨-, hparent, hvalid, hfree⟩
    rw [hold p hp] at hparent hfree
    refine ⟨hparent.elim (fun h => h) fun h => ?_, hvalid, fun x hx hxl hxs => ?_⟩
    · rw [(L.id_eq_root hp).mp h, L.forest.root_name]
      exact Option.some_ne_none _
    · obtain ⟨y, hy, hyroot, hyn, hyp⟩ := hentry _ hxl
      obtain rfl := L.forest.node_inj x hx y hy hyn.symm
      have hxlt := Finset.mem_range.mp hx
      refine hfree x (mem_named.mpr ⟨Finset.mem_range.mpr (Nat.lt_succ_of_lt hxlt), hyroot, ?_⟩)
        ?_ ?_
      · rw [hold x hxlt, hxs]
        exact Option.some_ne_none _
      · rw [hold x hxlt, hyp]
      · rw [hold x hxlt, hxs]
  · rintro ⟨hparent, hvalid, hfree⟩
    refine ⟨hflag, .inl (by rwa [hold p hp]), hvalid, fun x hx hxp => ?_⟩
    obtain ⟨hx, hxroot, hxname⟩ := mem_named.mp hx
    have hxn : x ≠ ctx.nextEntry := by
      rintro rfl
      exact hxname (by simp [entryAdded, newEntry])
    have hxlt := lt_of_le_of_ne (Nat.le_of_lt_succ (Finset.mem_range.mp hx)) hxn
    have hxS := Finset.mem_range.mpr hxlt
    rw [hold p hp, hold x hxlt] at hxp
    rw [hold x hxlt]
    obtain ⟨r, hr, b, seen', hb, hrid, hseen', hmem⟩ := L.forest.parent x hxS hxroot
    obtain rfl := L.forest.id_inj r hr p (Finset.mem_range.mpr hp) (hrid.trans hxp)
    obtain rfl : a = b := by simpa [ha] using hb
    rw [hseen] at hseen'
    exact hfree x hxS (List.append_cancel_right hseen' ▸ hmem)

theorem array_visited (L : Loading tb base json roots ctx todo) (hp : p < ctx.nextEntry)
    (hns : todo p = n :: ns) {a : ArrayRef} (ha : (ctx.ents p).children = some (.array a))
    {seen : List NodeRef} (hseen : ctx.json.array a = seen ++ pendOf todo p) (kids : List NodeRef) :
    ctx'.json.array a = seen ++ [n] ++
    pendOf (Function.update (Function.update todo p ns) ctx.nextEntry kids) p := by
  rw [V.json, L.listed_array hp]
  simp only [pendOf, Function.update_of_ne hp.ne, Function.update_self]
  by_cases hroot : p = rootEntry
  · subst hroot
    obtain rfl : a = json.nextArray := by simpa [ha] using L.root_array
    simp [pendOf] at hseen
    simp [hseen]
  · simp [pendOf, hroot, hns] at hseen
    simp [hroot, hseen]

/-- The names stay those decided when the next entry is added and named. -/
theorem names (L : Loading tb base json roots ctx todo) (hp : p < ctx.nextEntry)
    (hns : todo p = n :: ns) (hfresh : ∀ x < ctx.nextEntry, (ctx.ents x).node ≠ n)
    (hflag : ctx.flags.filenameGuid = false)
    (hname : jsonStringValue (ctx.json.get n .name) = some name)
    {idMap guidMap : Hashmap w EntryRef} (htaken : name' ≠ none ↔
      NameTaken (entryAdded ctx n p id guid idMap guidMap)
      (Finset.range (ctx.nextEntry + 1)) p name) :
    NamesAsLoaded ctx'.json ctx'.ents (Finset.range ctx'.nextEntry)
      (pendOf (Function.update (Function.update todo p ns) ctx.nextEntry
        (kidsOf ctx'.json (ctx.json.get n .children)))) := by
  intro q hq a ha e he hroot elders younger harr s hs
  have hget : ctx'.json.get = ctx.json.get := V.json ▸ (L.listed_get hp).1
  have he := Finset.mem_range.mp he
  by_cases hqn : q = ctx.nextEntry
  · -- nothing below the new entry has been visited
    subst hqn
    rw [V.self] at ha
    have hchildren : ctx.json.get n .children = some (.array a) := ha
    simp only [pendOf, if_neg L.root_lt.ne', Function.update_self, hchildren, kidsOf,
      Json.elems] at harr
    have := congrArg List.length harr
    simp at this
    omega
  have hqlt := V.lt (Finset.mem_range.mp hq) hqn
  rw [V.old q hqlt] at ha
  obtain ⟨seen, hseen, -, hentry⟩ := L.forest.listed q (Finset.mem_range.mpr hqlt) a ha
  have hnseen : n ∉ seen := by
    intro hn
    obtain ⟨x, hx, -, hxn, -⟩ := hentry n hn
    exact hfresh x (Finset.mem_range.mp hx) hxn
  have hearlier : ∀ younger', e ≠ ctx.nextEntry →
      ctx.json.array a = (elders ++ (ctx'.ents e).node :: younger') ++ pendOf todo q →
      ((ctx'.ents e).name ≠ none ↔ Shown ctx'.ents (Finset.range ctx'.nextEntry) q s elders) := by
    intro younger' hen h
    have helt := V.lt he hen
    rw [V.old e helt] at h hs ⊢
    rw [hget] at hs
    have hl : n ∉ elders := by
      rw [h] at hseen
      have := List.append_cancel_right hseen
      exact fun hn => hnseen (this ▸ List.mem_append_left _ hn)
    rw [V.shown_iff hqlt hl]
    exact L.names hflag q (Finset.mem_range.mpr hqlt) a ha e (Finset.mem_range.mpr helt) hroot
      elders younger' h s hs
  by_cases hqp : q = p
  · subst hqp
    rw [V.array_visited L hqlt hns ha hseen] at harr
    obtain ⟨-, hen, helders⟩ | ⟨younger', rfl, hsplit⟩ :=
      append_cons_eq_concat (List.append_cancel_right harr).symm
    · -- the new entry itself
      obtain rfl : e = ctx.nextEntry := by
        by_contra h
        exact hfresh e (V.lt he h) (V.old e (V.lt he h) ▸ hen)
      subst helders
      rw [V.self] at hs ⊢
      obtain rfl : s = name := by
        rw [hget] at hs
        rw [show ctx.json.get n .name = some (.string s) from hs, jsonStringValue,
          Option.some_inj] at hname
        exact hname
      rw [V.shown_iff hqlt hnseen]
      exact htaken.trans (taken_iff_shown L hqlt hflag ha hseen hentry idMap guidMap)
    · have hen : e ≠ ctx.nextEntry := by
        rintro rfl
        rw [V.self] at hsplit
        exact hnseen (hsplit ▸ by simp [newEntry])
      exact hearlier younger' hen (by rw [hsplit, hseen])
  · have hpend : pendOf (Function.update (Function.update todo p ns) ctx.nextEntry
        (kidsOf ctx'.json (ctx.json.get n .children))) q = pendOf todo q := by
      simp only [pendOf, Function.update_of_ne hqn, Function.update_of_ne hqp]
    rw [hpend, V.json, L.listed_array hp, if_neg ?_] at harr
    · refine hearlier younger ?_ harr
      rintro rfl
      rw [V.self, hseen] at harr
      exact hnseen (List.append_cancel_right harr ▸ by simp [newEntry])
    · rintro ⟨rfl, rfl⟩
      exact hqp (L.forest.owner q (Finset.mem_range.mpr hqlt) _ L.forest.root_mem _ ha L.root_array)

end NodeAdded

/-- The whole invariant after a node has been given an entry and a name. -/
theorem visited (L : Loading tb base json roots ctx todo) (sep : Separate json roots)
    (hp : p < ctx.nextEntry) (hns : todo p = n :: ns) {id : ℕ} {guid name : Bytes}
    (hid : parseId ctx.json n = some id) (hnew : ∀ x < ctx.nextEntry, (ctx.ents x).id ≠ id)
    (hguid : parseGuid ((jsonStringValue (ctx.json.get n .guid)).getD []) = some guid)
    (hname : jsonStringValue (ctx.json.get n .name) = some name)
    {idMap guidMap assocMap : Hashmap w EntryRef} {name' : Option Bytes} {ctx' : Ctx w}
    (hctx' : ctx' = nameDecided (entryAdded ctx n p id guid idMap guidMap)
      ctx.nextEntry name' assocMap)
    (hname' : name' = none ∨ name' = some name)
    (hmode : ctx.flags.filenameGuid = true → name' = none)
    (htaken : ctx.flags.filenameGuid = false → (name' ≠ none ↔
      NameTaken (entryAdded ctx n p id guid idMap guidMap)
      (Finset.range (ctx.nextEntry + 1)) p name))
    (I : Indexed tb ctx' (Finset.range ctx'.nextEntry)) :
    Loading tb base json roots ctx' (Function.update (Function.update todo p ns) ctx.nextEntry
      (kidsOf ctx'.json (ctx.json.get n .children))) := by
  have V : NodeAdded ctx n p id guid name' ctx' :=
    hctx' ▸ nameDecided_added idMap guidMap assocMap id guid name'
  have hreach : Reaches json roots n := L.reaches_todo p n (by simp [hns])
  obtain ⟨-, hobject, hnextNode, hnextArray⟩ := L.listed_get (n := n) hp
  have hflags : ctx'.flags = ctx.flags := by subst hctx'; rfl
  refine ⟨V.forest L sep hp hns hid hnew hguid hname hname', I, fun x hx => ?_,
    fun x m hm => V.reaches_todo L sep hp hns hm, fun x hx => V.todo_array L hns hx,
    fun x hx hxroot => ?_, ?_,
    fun b hb => V.array L hp hb, ?_, ?_, ?_, V.max_id L hid, fun hflag x hx hxroot => ?_, ?_, ?_,
    ?_, fun hflag => ?_,
    V.shown L hp hnew fun hnamed => ?_⟩
  · rw [V.next] at hx
    rw [Function.update_of_ne (Nat.lt_of_succ_le hx).ne',
      Function.update_of_ne (hp.trans (Nat.lt_of_succ_le hx)).ne']
    exact L.unread x (Nat.le_of_succ_le hx)
  · by_cases hxe : x = ctx.nextEntry
    · subst hxe
      rw [V.self]
      exact hreach
    · rw [V.other x hxe]
      exact L.reaches x (V.lt hx hxe) hxroot
  · intro m hm
    rw [V.json, hobject, L.object m hm]
  · rw [V.root L, L.root_node]
  · rw [V.root L, L.root_array]
  · rw [V.json, hnextNode, hnextArray]
    exact L.next
  · rw [hflags] at hflag
    by_cases hxe : x = ctx.nextEntry
    · subst hxe
      rw [V.self]
      exact hmode hflag
    · rw [V.other x hxe]
      exact L.guid_mode hflag x (V.lt hx hxe) hxroot
  · subst hctx'
    exact L.roots_eq
  · subst hctx'
    exact L.kept
  · rw [V.json, L.listed_array hp, Function.update_of_ne L.root_lt.ne]
    by_cases hpr : p = rootEntry
    · subst hpr
      rw [if_pos ⟨rfl, rfl⟩, Function.update_self, ← L.root_listed, hns, List.append_assoc]
      rfl
    · rw [if_neg fun h => hpr h.1, Function.update_of_ne (Ne.symm hpr), L.root_listed]
  · rw [hflags] at hflag
    refine V.names L hp hns (fun x hx hxn => ?_) hflag hname (htaken hflag)
    by_cases hxroot : x = rootEntry
    · rw [hxroot, L.root_node] at hxn
      exact (sep.node_lt n hreach).ne' hxn
    · have hxid := (L.forest.describes x (Finset.mem_range.mpr hx) hxroot).id
      rw [hxn, hid, Option.some_inj] at hxid
      exact hnew x hx hxid.symm
  · have hflag : ctx.flags.filenameGuid = false := by
      by_contra h
      exact hnamed (hmode (by simpa using h))
    have hparent := ((htaken hflag).mp hnamed).2.1
    rwa [show (entryAdded ctx n p id guid idMap guidMap).ents p = ctx.ents p from
      Function.update_of_ne hp.ne _ _] at hparent

/-- A visit of a node with an identifier and a GUID of its own. -/
theorem visit_accepted (hf : tb.Faithful) (sep : Separate json roots)
    (L : Loading tb base json roots ctx todo)
    (hp : p < ctx.nextEntry) (hns : todo p = n :: ns) {id : ℕ} {guid name : Bytes}
    (hid : parseId ctx.json n = some id) (hnew : ∀ x < ctx.nextEntry, (ctx.ents x).id ≠ id)
    (hguid : parseGuid ((jsonStringValue (ctx.json.get n .guid)).getD []) = some guid)
    (hnewguid : ∀ x < ctx.nextEntry, (ctx.ents x).guid ≠ guid)
    (hname : jsonStringValue (ctx.json.get n .name) = some name) :
    Yields Fault.Abort (mapsIterCb tb ctx n (ctx.json.get n .children) p) fun r =>
      ∃ ctx', r = some (ctx.nextEntry, ctx') ∧ ctx'.nextEntry = ctx.nextEntry + 1 ∧
        (∀ x < ctx.nextEntry, ctx'.ents x = ctx.ents x) ∧
        Loading tb base json roots ctx' (Function.update (Function.update todo p ns) ctx.nextEntry
          (kidsOf ctx'.json (ctx.json.get n .children))) := by
  rw [mapsIterCb, hid]
  obtain ⟨r, hrun, hlook⟩ := lookupId_spec L.indexed.id L.forest.id_inj id
  obtain rfl : r = none := by
    cases r with
    | none => rfl
    | some x =>
      obtain ⟨hx, hxid⟩ := (hlook x).mp rfl
      exact absurd hxid (hnew x (Finset.mem_range.mp hx))
  obtain ⟨r, hrun', hfound, -⟩ := lookupGuid_spec L.indexed.guid guid
  obtain rfl : r = none := by
    cases r with
    | none => rfl
    | some q =>
      obtain ⟨hx, hxguid, -⟩ := hfound q.1 q.2 rfl
      exact absurd hxguid (hnewguid q.1 (Finset.mem_range.mp hx))
  simp only [hrun, ok_bind, Option.isSome_none, Bool.false_eq_true, if_false, hguid, hrun', hname]
  have hself : Function.update ctx.ents ctx.nextEntry (newEntry ctx n p id guid) ctx.nextEntry =
    newEntry ctx n p id guid := Function.update_self ..
  have hother : ∀ x ∈ Finset.range ctx.nextEntry,
      Function.update ctx.ents ctx.nextEntry (newEntry ctx n p id guid) x = ctx.ents x :=
    fun x hx => Function.update_of_ne (Finset.mem_range.mp hx).ne _ _
  refine (hf.yields_file (fun entry => tb.digest (uint64Bytes entry.id))
    L.indexed.id Finset.notMem_range_self
    (newEntry ctx n p id guid)).bind fun idMap Hid => ?_
  refine (hf.yields_file (fun entry => tb.digest entry.guid) L.indexed.guid Finset.notMem_range_self
    (newEntry ctx n p id guid)).bind fun guidMap Hguid => ?_
  have I : Indexed tb (entryAdded ctx n p id guid idMap guidMap) _ := L.indexed_added Hid Hguid
  have hroot : ctx.nextEntry ≠ rootEntry := L.root_lt.ne'
  have hparentEnt : (entryAdded ctx n p id guid idMap guidMap).ents p = ctx.ents p :=
    hother p (Finset.mem_range.mpr hp)
  have hselfEnt : (entryAdded ctx n p id guid idMap guidMap).ents ctx.nextEntry =
    newEntry ctx n p id guid := hself
  refine (mapsIterName_spec hf (entryAdded ctx n p id guid idMap guidMap) p ctx.nextEntry name I
    (by simp) hroot (by rw [hselfEnt]; rfl) (by rw [hselfEnt, hparentEnt]; rfl)).bind
    fun ctx' hctx' => ?_
  obtain ⟨I', name', assocMap, hdecided, hname'⟩ := hctx'
  have hnext : ctx'.nextEntry = ctx.nextEntry + 1 := by rw [hdecided]; rfl
  refine ⟨ctx', rfl, hnext, fun x hx => ?_,
    L.visited sep hp hns hid hnew hguid hname hdecided ?_ ?_ ?_ (hnext ▸ I')⟩
  · rw [hdecided]
    simp [nameDecided, entryAdded, hx.ne]
  · exact hname'.imp And.left And.left
  · intro hmode
    obtain ⟨h, -⟩ | ⟨-, htaken⟩ := hname'
    · exact h
    · have := htaken.1
      rw [show (entryAdded ctx n p id guid idMap guidMap).flags = ctx.flags from rfl, hmode] at this
      cases this
  · intro _
    rcases hname' with ⟨rfl, h⟩ | ⟨rfl, h⟩
    · simp [h]
    · simp [h]

/-- A visit of one node keeps the invariant. -/
theorem visit (hf : tb.Faithful) (sep : Separate json roots) :
    VisitKeeps tb (Loading tb base json roots) := by
  intro ctx todo n ns p L hp hns
  cases hid : parseId ctx.json n with
  | none => simp [mapsIterCb, hid]
  | some id =>
  obtain ⟨r, hrun, hlook⟩ := lookupId_spec L.indexed.id L.forest.id_inj id
  cases r with
  | some x => simp [mapsIterCb, hid, hrun]
  | none =>
  have hnew : ∀ x < ctx.nextEntry, (ctx.ents x).id ≠ id := fun x hx h => by
    cases (hlook x).mpr ⟨Finset.mem_range.mpr hx, h⟩
  cases hguid : parseGuid ((jsonStringValue (ctx.json.get n .guid)).getD []) with
  | none => simp [mapsIterCb, hid, hrun, hguid]
  | some guid =>
  obtain ⟨r, hrun', -, hfree⟩ := lookupGuid_spec L.indexed.guid guid
  cases r with
  | some x => simp [mapsIterCb, hid, hrun, hguid, hrun']
  | none =>
  cases hname : jsonStringValue (ctx.json.get n .name) with
  | none => simp [mapsIterCb, hid, hrun, hguid, hrun', hname]
  | some name =>
  refine (L.visit_accepted hf sep hp hns hid hnew hguid
    (fun x hx => hfree rfl x (Finset.mem_range.mpr hx)) hname).mono fun r h => ?_
  obtain ⟨ctx', rfl, hnext, -, L'⟩ := h
  rintro e ctx'' ⟨rfl, rfl⟩
  exact ⟨rfl, hnext, L'⟩

end Loading

end Visit

/-! ## The whole of `store_load()` -/

section FakeRoot

theorem makeFakeRoot_spec (json : Json) :
    ∃ json', makeFakeRoot json = (json.nextNode, .array json.nextArray, json') ∧
      (∀ n, n ≠ json.nextNode → json'.object n = json.object n) ∧
      (∀ b, b ≠ json.nextArray → json'.array b = json.array b) ∧
      json'.get json.nextNode .children = some (.array json.nextArray) ∧
      json'.array json.nextArray = [] ∧ json'.nextNode = json.nextNode + 1 ∧
      json'.nextArray = json.nextArray + 1 := by
  refine ⟨_, rfl, fun n hn => ?_, fun b hb => ?_, ?_, ?_, rfl, rfl⟩
  · simp [Json.set, hn]
  · simp [Json.set, hb]
  · simp [Json.set, Json.get]
  · simp [Json.set]

/-- The entry of the fake root above a store. -/
def fakeRootEntry (json : Json) : NodeEntry where
  id := rootId
  parentId := rootId
  guid := rootGuid
  name := some []
  node := json.nextNode
  children := some (.array json.nextArray)

end FakeRoot

section Store

variable {ctx : Ctx w} {json : Json} {roots : List NodeRef}

/-- The invariant of a loaded store. -/
structure Inv (tb : Tables w) (ctx : Ctx w) (S : Finset EntryRef) : Prop where
  forest : Forest ctx.json ctx.ents S nonePending
  indexed : Indexed tb ctx S
  entry_lt : ∀ e ∈ S, e < ctx.nextEntry
  max_id : ctx.maxId ≤ maxBookmarkId ∧ ∀ e ∈ S, (ctx.ents e).id ≤ ctx.maxId
  guid_mode : ctx.flags.filenameGuid = true →
    ∀ e ∈ S, e ≠ rootEntry → (ctx.ents e).name = none
  roots : ∀ a, (ctx.ents rootEntry).children = some (.array a) → ctx.json.array a = ctx.roots
  shown : ∀ e ∈ named ctx.ents S, ∀ p ∈ S, (ctx.ents p).id = (ctx.ents e).parentId →
    (ctx.ents p).name ≠ none

theorem pendOf_eq_nonePending {todo : EntryRef → List NodeRef} (htodo : ∀ x, todo x = []) :
    pendOf todo = nonePending := by
  funext x
  simp [pendOf, nonePending, htodo x]

theorem Loading.inv {base : Ctx w} {todo : EntryRef → List NodeRef}
    (L : Loading tb base json roots ctx todo)
    (htodo : ∀ x, todo x = []) : Inv tb ctx (Finset.range ctx.nextEntry) where
  forest := pendOf_eq_nonePending htodo ▸ L.forest
  indexed := L.indexed
  entry_lt _ he := Finset.mem_range.mp he
  max_id := ⟨L.max_id.1, fun e he => L.max_id.2 e (Finset.mem_range.mp he)⟩
  guid_mode h e he := L.guid_mode h e (Finset.mem_range.mp he)
  roots a ha := by
    obtain rfl : json.nextArray = a := by simpa [L.root_array] using ha
    rw [L.roots_eq, ← L.root_listed, htodo, List.append_nil]
  shown e he p hp := L.shown e he p (Finset.mem_range.mp hp)

/-- `build_maps()` before the first root is visited. -/
theorem loading_start (ctx : Ctx w) (roots : List NodeRef) {json' : Json}
    (hroot : makeFakeRoot json = (json.nextNode, .array json.nextArray, json'))
    {idMap guidMap : Hashmap w EntryRef}
    (Hid : Holds idMap {rootEntry} (idmapHash tb fun _ => fakeRootEntry json))
    (Hguid : Holds guidMap {rootEntry} (guidmapHash tb fun _ => fakeRootEntry json)) :
    Loading tb ctx json roots { ctx with
      json := json', ents := fun _ => fakeRootEntry json, nextEntry := 1, idMap :=
      idMap, guidMap := guidMap,
      assocMap := hashmapCreate, roots := roots, maxId := 0 }
      (Function.update (fun _ => []) rootEntry roots) := by
  obtain ⟨json₁, hroot₁, hobject, harray, hchildren, hempty, hnode, hnext⟩ := makeFakeRoot_spec json
  obtain rfl : json' = json₁ := by rw [hroot] at hroot₁; simpa using hroot₁
  have hpend : pendOf (Function.update (fun _ => []) rootEntry roots) = nonePending := by
    funext x
    by_cases hx : x = rootEntry <;> simp [pendOf, nonePending, hx]
  have hsingle : Finset.range 1 = {rootEntry} := rfl
  have hnamed : named (fun _ => fakeRootEntry json) {rootEntry} = ∅ := by
    ext x
    rw [mem_named, Finset.mem_singleton]
    simp only [Finset.notMem_empty, iff_false]
    exact fun h => h.2.1 h.1
  refine ⟨?_, ?_, ?_, ?_, ?_, ?_, ?_, ?_, ?_, ?_, ⟨hnode, hnext⟩, ?_, ?_, rfl,
    ⟨rfl, rfl⟩, ?_, ?_, ?_⟩
  · rw [hpend]
    show Forest json' (fun _ => fakeRootEntry json) (Finset.range 1) nonePending
    rw [hsingle]
    refine ⟨by simp, rfl, rfl, ⟨_, rfl⟩, by simp, by simp, by simp, fun e _ => hchildren,
      by simp, ?_, by simp, ?_, ?_, ?_⟩
    · intro p _ a ha
      obtain rfl : json.nextArray = a := by simpa [fakeRootEntry] using ha
      exact ⟨[], by simp [hempty, nonePending], by simp, by simp⟩
    · intro e he
      obtain rfl := Finset.mem_singleton.mp he
      exact .root
    · intro e _
      rw [hnode]
      exact Nat.lt_succ_self _
    · intro e _ a ha
      obtain rfl : json.nextArray = a := by simpa [fakeRootEntry] using ha
      rw [hnext]
      exact Nat.lt_succ_self _
  · refine ⟨Hid, Hguid, ?_, ?_⟩
    · show Holds hashmapCreate (named (fun _ => fakeRootEntry json) (Finset.range 1)) _
      rw [hsingle, hnamed]
      exact Holds.create _
    · show ∀ x ∈ named (fun _ => fakeRootEntry json) (Finset.range 1), _
      rw [hsingle, hnamed]
      simp
  · intro x (hx : 1 ≤ x)
    rw [Function.update_of_ne (show x ≠ rootEntry from Nat.one_le_iff_ne_zero.mp hx)]
  · intro x n hn
    by_cases hx : x = rootEntry
    · subst hx
      exact .root (by simpa using hn)
    · simp [hx] at hn
  · intro x hx
    exact ⟨json.nextArray, rfl⟩
  · intro e he hne
    exact absurd (Nat.lt_one_iff.mp he) hne
  · exact fun n hn => hobject n hn.ne
  · exact fun b hb => harray b hb.ne
  · rfl
  · rfl
  · exact ⟨Nat.zero_le _, fun e _ => le_rfl⟩
  · intro _ e he hne
    exact absurd (Nat.lt_one_iff.mp he) hne
  · rw [Function.update_self]
    exact congrArg (· ++ roots) hempty
  · intro _ p _ a _ e he hne
    exact absurd (Nat.lt_one_iff.mp (Finset.mem_range.mp he)) hne
  · intro e he
    obtain ⟨he, hne, -⟩ := mem_named.mp he
    exact absurd (Nat.lt_one_iff.mp (Finset.mem_range.mp he)) hne

/-- The names of a store are those given to it while it was loaded. -/
def Ctx.AsLoaded (ctx : Ctx w) (S : Finset EntryRef) : Prop :=
  ctx.flags.filenameGuid = false → NamesAsLoaded ctx.json ctx.ents S nonePending

/-- `build_maps()` fails, or ends in a store with the invariant. -/
theorem buildMaps_spec (hf : tb.Faithful) (sep : Separate json roots) (ctx : Ctx w) :
    Yields Fault.Abort (buildMaps tb ctx json roots) fun r => ∀ ctx', r = some ctx' →
      ctx'.flags = ctx.flags ∧ ctx'.watching = ctx.watching ∧ ctx'.roots ≠ [] ∧
        ∃ S, Inv tb ctx' S ∧ ctx'.AsLoaded S := by
  obtain ⟨json', hroot, -⟩ := makeFakeRoot_spec json
  rw [buildMaps, hroot]
  refine (hf.yields_insert (idmapHash tb fun _ => fakeRootEntry json) (Holds.create _) rfl
    (by simp) fun x _ => rfl).bind fun idMap Hid => ?_
  refine (hf.yields_insert (guidmapHash tb fun _ => fakeRootEntry json) (Holds.create _)
    rfl (by simp) fun x _ => rfl).bind fun guidMap Hguid => ?_
  have L := loading_start ctx roots hroot Hid Hguid
  rw [iterRoots]
  split_ifs with hempty
  · simp
  · refine (iterList_rule (fun ctx todo n ns p => iterNode_rule (Loading.visit hf sep)
      (fun ctx todo L => L.unread) _ ctx todo n ns p) _ roots rootEntry _ L Nat.one_pos
      (Function.update_self ..)).mono fun r hr ctx' h => ?_
    obtain ⟨-, L'⟩ := hr ctx' h
    have htodo : ∀ x, Function.update (Function.update (fun _ => []) rootEntry roots) rootEntry
        [] x = ([] : List NodeRef) := fun x => by by_cases hx : x = rootEntry <;> simp [hx]
    exact ⟨L'.kept.1, L'.kept.2, L'.roots_eq ▸ hempty, _, L'.inv htodo,
      fun h => pendOf_eq_nonePending htodo ▸ L'.names h⟩

def Document.WellFormed (doc : Document) : Prop :=
  ∀ roots, doc.roots = some roots → Separate doc.json roots

/-- What the parser, the generator of UUIDs and the clock can return. -/
structure Env.WellFormed (env : Env) : Prop where
  file : ∀ doc, env.file = some doc → doc.WellFormed
  uuid : env.uuid.length = uuidLen
  now : env.now.Valid

/-- The invariant of a context over a whole run: there may be no store, but then there is nothing
to be saved either. -/
structure Ctx.Consistent (tb : Tables w) (ctx : Ctx w) : Prop where
  inv : ctx.loaded = true → ∃ S, Inv tb ctx S
  dirty : ctx.dirty ≠ .none → ctx.loaded = true

theorem Inv.congr {ctx' : Ctx w} {S : Finset EntryRef} (I : Inv tb ctx S)
    (hjson : ctx'.json = ctx.json) (hents : ctx'.ents = ctx.ents)
    (hnext : ctx'.nextEntry = ctx.nextEntry) (hmaps : ctx'.idMap = ctx.idMap ∧
      ctx'.guidMap = ctx.guidMap ∧ ctx'.assocMap = ctx.assocMap) (hmax : ctx'.maxId = ctx.maxId)
    (hflags : ctx'.flags = ctx.flags) (hroots : ctx'.roots = ctx.roots) : Inv tb ctx' S := by
  obtain ⟨F, ⟨Hid, Hguid, Hassoc, hnames⟩, hlt, hid, hmode, hlisted, hshown⟩ := I
  obtain ⟨hidMap, hguidMap, hassocMap⟩ := hmaps
  refine ⟨by rwa [hjson, hents], ⟨?_, ?_, ?_, ?_⟩, by rwa [hnext], by rwa [hmax, hents],
    by rwa [hflags, hents], by rwa [hents, hjson, hroots], by rwa [hents]⟩
  · rwa [hidMap, hents]
  · rwa [hguidMap, hents]
  · rwa [hassocMap, hents]
  · rwa [hents]

theorem doLoad_spec (hf : tb.Faithful) {file : Option Document}
    (hfile : ∀ doc, file = some doc → doc.WellFormed) (C : ctx.Consistent tb) :
    Yields Fault.Abort (doLoad tb ctx file) fun r => r.2.Consistent tb ∧
      r.2.flags = ctx.flags ∧ r.2.watching = ctx.watching ∧
      (r.1 = none → r.2.loaded = true ∧ ∃ S, Inv tb r.2 S ∧ r.2.AsLoaded S) := by
  unfold doLoad
  have hfail : (ctx.Consistent tb ∧ ctx.flags = ctx.flags ∧ ctx.watching = ctx.watching ∧
      (some Errno.perm = none → ctx.loaded = true ∧ ∃ S, Inv tb ctx S ∧ ctx.AsLoaded S)) :=
    ⟨C, rfl, rfl, nofun⟩
  cases file with
  | none => exact hfail
  | some doc =>
  dsimp only
  by_cases hchecksum : doc.checksum = false
  · rw [if_pos hchecksum]; exact hfail
  rw [if_neg hchecksum]
  by_cases hversion : doc.version ≠ 1
  · rw [if_pos hversion]; exact hfail
  rw [if_neg hversion]
  cases hroots : doc.roots with
  | none => exact hfail
  | some roots =>
  refine (buildMaps_spec hf (hfile doc rfl roots hroots) ctx).bind fun r hr => ?_
  cases r with
  | none => exact hfail
  | some new =>
  obtain ⟨hflags, hwatching, hroots, S, I, hnames⟩ := hr new rfl
  have I' : Inv tb { new with
      loaded := true, dirty := if ctx.flags.readonly then ctx.dirty else .none } S :=
    I.congr rfl rfl rfl ⟨rfl, rfl, rfl⟩ rfl rfl rfl
  exact ⟨⟨fun _ => ⟨S, I'⟩, fun _ => rfl⟩, hflags, hwatching, fun _ => ⟨rfl, S, I', hnames⟩⟩

/-- `store_load()` keeps the invariant, and after a success there is a store. -/
theorem storeLoad_spec (hf : tb.Faithful) {env : Env} (henv : env.WellFormed)
    (C : ctx.Consistent tb) :
    Yields Fault.Abort (storeLoad tb ctx env) fun r => r.2.Consistent tb ∧
      r.2.flags = ctx.flags ∧
      (r.1 = none → r.2.loaded = true ∧ r.2.watching = true ∧ ∃ S, Inv tb r.2 S) := by
  have hload : ∀ ctx₁ : Ctx w, ctx₁.flags = ctx.flags → ctx₁.watching = true → ctx₁.Consistent tb →
      Yields Fault.Abort (doLoad tb ctx₁ env.file) fun r => r.2.Consistent tb ∧
        r.2.flags = ctx.flags ∧
        (r.1 = none → r.2.loaded = true ∧ r.2.watching = true ∧ ∃ S, Inv tb r.2 S) := by
    intro ctx₁ hflags hwatching C₁
    refine (doLoad_spec hf henv.file C₁).mono fun r h => ?_
    obtain ⟨C', hflags', hwatching', hload⟩ := h
    refine ⟨C', hflags'.trans hflags, fun hr => ?_⟩
    obtain ⟨hloaded, S, I, -⟩ := hload hr
    exact ⟨hloaded, hwatching'.trans hwatching, S, I⟩
  rw [storeLoad]
  by_cases hwatching : ctx.watching = false
  · rw [if_pos hwatching]
    by_cases hinit : env.initWatcher = false
    · rw [if_pos hinit]; exact ⟨C, rfl, nofun⟩
    · rw [if_neg hinit]
      refine hload { ctx with watching := true } rfl rfl ⟨fun h => ?_, C.dirty⟩
      obtain ⟨S, I⟩ := C.inv h
      exact ⟨S, I.congr rfl rfl rfl ⟨rfl, rfl, rfl⟩ rfl rfl rfl⟩
  · rw [if_neg hwatching]
    have hwatching : ctx.watching = true := by simpa using hwatching
    by_cases hdirty : ctx.dirty ≠ .none
    · rw [if_pos hdirty]
      exact ⟨C, rfl, fun _ => ⟨C.dirty hdirty, hwatching, C.inv (C.dirty hdirty)⟩⟩
    · rw [if_neg hdirty]
      have hdirty := not_not.mp hdirty
      cases env.poll with
      | unchanged =>
        by_cases hloaded : ctx.loaded = true
        · simp only [hloaded, if_true]
          exact ⟨C, rfl, fun _ => ⟨hloaded, hwatching, C.inv hloaded⟩⟩
        · simp only [hloaded]
          exact hload ctx rfl hwatching C
      | changed =>
        exact hload { ctx with loaded := false } rfl hwatching ⟨nofun, fun h => absurd hdirty h⟩
      | noEntry => exact ⟨C, rfl, nofun⟩
      | failed => exact ⟨C, rfl, nofun⟩

end Store

end BookmarkFS.Chromium
