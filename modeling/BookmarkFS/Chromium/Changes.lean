import BookmarkFS.Chromium.Loading

/-! # What each operation changes

For every operation, what it has found out and what it has made of the context
when it succeeds.
-/
namespace BookmarkFS.Chromium
open Library Hopscotch

variable {w : WordSize} {tb : Tables w} {ctx : Ctx w} {env : Env} {S : Finset EntryRef}

/-- The store that `store_load()` has left an operation to work on. -/
structure Refreshed (tb : Tables w) (ctx : Ctx w) (env : Env) (ctx₁ : Ctx w)
    (S : Finset EntryRef) : Prop where
  load : storeLoad tb ctx env = .ok (none, ctx₁)
  loaded : ctx₁.loaded = true
  watching : ctx₁.watching = true
  flags : ctx₁.flags = ctx.flags
  inv : Inv tb ctx₁ S

theorem storeLoad_bind {β : Type} {f : Option Errno × Ctx w → Except Fault β} {R : β → Prop}
    (hf : tb.Faithful) (henv : env.WellFormed) (C : ctx.Consistent tb)
    (hfail : ∀ err ctx₁, ctx₁.Consistent tb → Yields Fault.Abort (f (some err, ctx₁)) R)
    (hload : ∀ ctx₁ S, Refreshed tb ctx env ctx₁ S → ctx₁.Consistent tb →
      Yields Fault.Abort (f (none, ctx₁)) R) :
    Yields Fault.Abort (storeLoad tb ctx env >>= f) R := by
  refine (storeLoad_spec hf henv C).bind_of ?_
  rintro ⟨_ | err, ctx₁⟩ hrun ⟨C₁, hflags, hinv⟩
  · obtain ⟨hloaded, hwatching, S, I⟩ := hinv rfl
    exact hload ctx₁ S ⟨hrun, hloaded, hwatching, hflags, I⟩ C₁
  · exact hfail err ctx₁ C₁

namespace Inv

variable (I : Inv tb ctx S)

include I

theorem id_eq_root {e : EntryRef} (he : e ∈ S) : (ctx.ents e).id = rootId ↔ e = rootEntry := by
  constructor
  · exact fun h => I.forest.id_inj e he _ I.forest.root_mem (h.trans I.forest.root_id.symm)
  · rintro rfl; exact I.forest.root_id

theorem title_mode {p : EntryRef} (hp : p ∈ S) (hroot : p ≠ rootEntry)
    (hname : (ctx.ents p).name ≠ none) : ctx.flags.filenameGuid = false := by
  by_contra h
  exact hname (I.guid_mode (by simpa using h) p hp hroot)

/-- `lookup_name()` in title mode -/
theorem lookupName_spec (hflag : ctx.flags.filenameGuid = false) (parentId : ℕ) (name : Bytes) :
    ∃ r, lookupName tb ctx parentId name = .ok r ∧
      ((∃ e id, r = (true, ⟨hashAssoc tb parentId name, id, []⟩, some e) ∧ e ∈ named ctx.ents S ∧
          (ctx.ents e).parentId = parentId ∧ (ctx.ents e).name = some name ∧
          Designates ctx.assocMap id e) ∨
        (r = (false, ⟨hashAssoc tb parentId name, 0, []⟩, none) ∧ ∀ e ∈ named ctx.ents S,
          (ctx.ents e).parentId = parentId → (ctx.ents e).name ≠ some name)) := by
  obtain ⟨r, hrun, hfound, hfree⟩ := lookupAssoc_spec I.indexed.assoc parentId name
  simp only [lookupName, hflag, Bool.false_eq_true, if_false, hrun, ok_bind]
  cases r with
  | none => exact ⟨_, rfl, .inr ⟨rfl, hfree rfl⟩⟩
  | some q =>
    obtain ⟨he, hparent, hname, hid⟩ := hfound q.1 q.2 rfl
    exact ⟨_, rfl, .inl ⟨q.1, q.2, rfl, he, hparent, hname, hid⟩⟩

end Inv

/-- `lookup_id()` in a store with the invariant -/
theorem Inv.lookupId_spec (I : Inv tb ctx S) (id : ℕ) :
    ∃ r, lookupId tb ctx id = .ok r ∧ ∀ e, r = some e ↔ e ∈ S ∧ (ctx.ents e).id = id :=
  Chromium.lookupId_spec I.indexed.id I.forest.id_inj id

/-- The removals from the maps in title mode. The hash inputs of the entries in the association map
may have changed since they were filed under `hashOf`, unless the table shrinks. -/
theorem dropEntry_spec (hf : tb.Faithful) (ctx : Ctx w) {N : Finset EntryRef}
    {hashOf : EntryRef → Word w} (Hid : Holds ctx.idMap S (idmapHash tb ctx.ents))
    (Hguid : Holds ctx.guidMap S (guidmapHash tb ctx.ents)) (Hassoc : Holds ctx.assocMap N hashOf)
    (hflag : ctx.flags.filenameGuid = false) {e : EntryRef} (he : e ∈ S) {id : Word w}
    (hid : Designates ctx.assocMap id e)
    (hagree : ctx.assocMap.Shrinks → ∀ x ∈ N.erase e, assocmapHash tb ctx.ents x = hashOf x) :
    Yields Fault.Abort (dropEntry tb ctx e id) fun ctx' => ∃ idMap guidMap assocMap,
      ctx' = { ctx with idMap := idMap, guidMap := guidMap, assocMap := assocMap } ∧
        Holds idMap (S.erase e) (idmapHash tb ctx.ents) ∧
        Holds guidMap (S.erase e) (guidmapHash tb ctx.ents) ∧
        Holds assocMap (N.erase e) hashOf ∧
        (¬ctx.assocMap.Shrinks → ∀ id' e', e' ≠ e → Designates ctx.assocMap id' e' →
          Designates assocMap id' e') := by
  rw [dropEntry]
  simp only [hflag, Bool.false_eq_true, if_false]
  refine (hf.yields_remove_id Hassoc hid hagree).bind fun assocMap Ha => ?_
  refine (hf.yields_remove_entry Hguid he fun _ _ => rfl).bind fun guidMap Hg => ?_
  refine (hf.yields_remove_entry Hid he fun _ _ => rfl).bind fun idMap Hi => ?_
  exact ⟨idMap, guidMap, assocMap, rfl, Hi, Hg, Ha.1, Ha.2⟩

theorem named_erase {ents : Entries} (e : EntryRef) :
    named ents (S.erase e) = (named ents S).erase e := by
  ext x
  simp only [mem_named, Finset.mem_erase]
  tauto

/-- The tree once a node has its new name. -/
theorem Forest.rename {json : Json} {ents : Entries} (F : Forest json ents S nonePending)
    {x : EntryRef} (hx : x ∈ S) (hroot : x ≠ rootEntry) (newName : Bytes) :
    Forest (json.set (ents x).node .name (.string newName))
      (Function.update ents x { ents x with name := some newName }) S nonePending := by
  have hkeep : ∀ y, (Function.update ents x { ents x with name := some newName } y).id =
      (ents y).id ∧
      (Function.update ents x { ents x with name := some newName } y).parentId = (ents y).parentId ∧
      (Function.update ents x { ents x with name := some newName } y).node = (ents y).node ∧
      (Function.update ents x { ents x with name := some newName } y).children =
        (ents y).children := by
    intro y
    by_cases hy : y = x
    · subst hy; simp
    · simp [hy]
  refine F.congr (fun _ _ _ _ => rfl) le_rfl le_rfl (fun y _ => hkeep y)
    (by rw [Function.update_of_ne hroot.symm]) (fun y hy hyroot => ?_)
    fun y _ => Json.get_set_of_key (by decide)
  have D := F.describes y hy hyroot
  by_cases hyx : y = x
  · subst hyx
    rw [Function.update_self]
    exact ⟨by rw [parseId, Json.get_set_of_key (by decide)]; exact D.id,
      by rw [Json.get_set_of_key (by decide)]; exact D.guid,
      newName, Json.get_set_self .., by simp⟩
  · rw [Function.update_of_ne hyx]
    exact D.congr fun k _ => Json.get_set_of_node fun h => hyx (F.node_inj y hy x hx h)

section Delete

/-- What `bookmark_delete()` does on success: `e` is the entry deleted. -/
structure Deletes (tb : Tables w) (ctx : Ctx w) (S : Finset EntryRef) (now : Timespec)
    (parentId : ℕ) (name : Bytes) (p e : EntryRef) (a : ArrayRef) (ctx' : Ctx w) : Prop where
  parent : p ∈ S ∧ p ≠ rootEntry ∧ (ctx.ents p).id = parentId ∧ (ctx.ents p).name ≠ none
  siblings : (ctx.ents p).children = some (.array a)
  entry : e ∈ named ctx.ents S ∧ (ctx.ents e).parentId = parentId ∧ (ctx.ents e).name = some name
  leaf : ∀ c, (ctx.ents e).children = some c → ctx.json.elems c = []
  change : ∃ idMap guidMap assocMap, ctx' = { ctx with
    json := nodeMtimeNow (ctx.json.setElems (.array a) ((ctx.json.array a).erase (ctx.ents e).node))
      (ctx.ents p).node now
    idMap := idMap, guidMap := guidMap, assocMap := assocMap, dirty := .data }
  indexed : Indexed tb ctx' (S.erase e)

theorem leaf_of_checkDeleted {deleteDir : Bool} {e : EntryRef}
    (h : checkDeleted ctx deleteDir e = none) :
    ∀ c, (ctx.ents e).children = some c → ctx.json.elems c = [] := by
  intro c hc
  cases deleteDir with
  | true =>
    by_contra hne
    simp [checkDeleted, hc, Json.arraySize, hne] at h
  | false => simp [checkDeleted, hc] at h

theorem bookmarkDelete_spec (hf : tb.Faithful) (henv : env.WellFormed) (C : ctx.Consistent tb)
    (parentId : ℕ) (name : CString) (deleteDir : Bool) :
    Yields Fault.Abort (bookmarkDelete tb ctx env parentId name deleteDir) fun r =>
      (∃ err, r.1 = .error err ∧ r.2.Consistent tb) ∨
      ∃ ctx₁ S p e a, Refreshed tb ctx env ctx₁ S ∧
      Deletes tb ctx₁ S env.now parentId name p e a r.2 := by
  rw [bookmarkDelete]
  by_cases hroot : parentId = rootId
  · rw [if_pos hroot]; exact .inl ⟨_, rfl, C⟩
  rw [if_neg hroot]
  refine storeLoad_bind hf henv C (fun err ctx₁ C₁ => .inl ⟨_, rfl, C₁⟩) fun ctx₁ S R C₁ => ?_
  have I := R.inv
  obtain ⟨r, hrun, hlook⟩ := I.lookupId_spec parentId
  simp only [hrun, ok_bind]
  cases r with
  | none => exact .inl ⟨_, rfl, C₁⟩
  | some p =>
  obtain ⟨hp, rfl⟩ := (hlook p).mp rfl
  have hproot : p ≠ rootEntry := fun h => hroot ((I.id_eq_root hp).mpr h)
  dsimp only
  by_cases hname : (ctx₁.ents p).name = none
  · rw [if_pos hname]; exact .inl ⟨_, rfl, C₁⟩
  rw [if_neg hname]
  have hflag := I.title_mode hp hproot hname
  cases hchildren : (ctx₁.ents p).children with
  | none => exact .inl ⟨_, rfl, C₁⟩
  | some siblings =>
  obtain ⟨r, hrun, hr⟩ := I.lookupName_spec hflag (ctx₁.ents p).id name
  simp only [hrun, ok_bind]
  obtain ⟨e, id, rfl, he, hparent, hename, hid⟩ | ⟨rfl, -⟩ := hr
  rotate_left
  · exact .inl ⟨_, rfl, C₁⟩
  dsimp only
  cases hcheck : checkDeleted ctx₁ deleteDir e with
  | some err => exact .inl ⟨_, rfl, C₁⟩
  | none =>
  obtain ⟨heS, heroot, -⟩ := mem_named.mp he
  obtain ⟨q, hq, a, ha, hqid, hmem⟩ := I.forest.folder heS heroot
  obtain rfl := I.forest.id_inj q hq p hp (hqid.trans hparent)
  obtain rfl : siblings = .array a := by simpa [hchildren] using ha
  have hsearch : ctx₁.json.arraySearch (.array a) (ctx₁.ents e).node =
      .ok ((ctx₁.json.array a).idxOf (ctx₁.ents e).node) := if_pos hmem
  simp only [Bool.true_eq_false, if_false, hsearch, ok_bind]
  refine (dropEntry_spec hf { ctx₁ with
      json := ctx₁.json.arrayRemove (.array a) ((ctx₁.json.array a).idxOf (ctx₁.ents e).node) }
    I.indexed.id I.indexed.guid I.indexed.assoc hflag heS hid fun _ _ _ =>
      rfl).bind fun ctx₂ hctx₂ => ?_
  obtain ⟨idMap, guidMap, assocMap, rfl, Hi, Hg, Ha, -⟩ := hctx₂
  refine .inr ⟨ctx₁, S, q, e, a, R, ⟨hq, hproot, rfl, hname⟩, ha, ⟨he, hparent, hename⟩,
    leaf_of_checkDeleted hcheck, ⟨idMap, guidMap, assocMap, ?_⟩, Hi, Hg, ?_, fun x hx y hy => ?_⟩
  · rw [List.erase_eq_eraseIdx_of_idxOf rfl]
    rfl
  · rw [named_erase]; exact Ha
  · rw [named_erase] at hx hy
    exact I.indexed.names x (Finset.mem_of_mem_erase hx) y (Finset.mem_of_mem_erase hy)

theorem Deletes.inv {ctx' : Ctx w} {now : Timespec} {parentId : ℕ} {name : Bytes} {p e : EntryRef}
    {a : ArrayRef} (I : Inv tb ctx S) (D : Deletes tb ctx S now parentId name p e a ctx') :
    Inv tb ctx' (S.erase e) := by
  obtain ⟨⟨hp, hproot, hpid, -⟩, ha, ⟨he, heparent, -⟩, hleaf, ⟨idMap, guidMap, assocMap, rfl⟩,
    hindexed⟩ := D
  obtain ⟨heS, heroot, -⟩ := mem_named.mp he
  refine ⟨?_, hindexed, fun x hx => I.entry_lt x (Finset.mem_of_mem_erase hx),
    ⟨I.max_id.1, fun x hx => I.max_id.2 x (Finset.mem_of_mem_erase hx)⟩,
    fun h x hx => I.guid_mode h x (Finset.mem_of_mem_erase hx), fun b hb => ?_, fun x hx q hq =>
      I.shown x (Finset.mem_of_mem_erase (named_erase (S := S) e ▸ hx)) q
        (Finset.mem_of_mem_erase hq)⟩
  · refine Forest.set ?_ _ _ (by decide)
    exact I.forest.eraseLeaf heS heroot hp ha (heparent.trans hpid.symm) hleaf (by simp) (by simp)
      (by simp) (Json.setElems_array a · _)
  · refine Eq.trans ?_ (I.roots b hb)
    simp only [nodeMtimeNow, Json.set_array, Json.setElems_array]
    rw [if_neg]
    rintro rfl
    exact hproot (I.forest.owner p hp _ I.forest.root_mem _ ha hb)

end Delete

section Permute

/-- The list that `bookmark_permute()` makes of a list with two elements at the given places. -/
def permuteList (op : PermdOp) (ns : List NodeRef) (node1 node2 : NodeRef) (idx1 idx2 : ℕ) :
    List NodeRef :=
  match op with
  | .swap => (ns.set idx1 node2).set idx2 node1
  | _ =>
    let idx2 := if op = .moveAfter then idx2 + 1 else idx2
    if idx1 = idx2 then ns
    else if idx1 > idx2 then (ns.eraseIdx idx1).insertIdx idx2 node1
    else (ns.insertIdx idx2 node1).eraseIdx idx1

theorem setElems_setElems (json : Json) (a : ArrayRef) (ns ns' : List NodeRef) :
    (json.setElems (.array a) ns).setElems (.array a) ns' = json.setElems (.array a) ns' := by
  simp [Json.setElems, Function.update_idem]

/-- The array operations, in terms of the list. -/
theorem permuteChildren_eq (json : Json) (a : ArrayRef) (op : PermdOp) (node1 node2 : NodeRef)
    (idx1 idx2 : ℕ) :
    (permuteChildren json (.array a) op node1 node2 idx1 idx2 = none ∧
      permuteList op (json.array a) node1 node2 idx1 idx2 = json.array a) ∨
    permuteChildren json (.array a) op node1 node2 idx1 idx2 =
      some (json.setElems (.array a) (permuteList op (json.array a) node1 node2 idx1 idx2)) := by
  have hself : ∀ ns, (json.setElems (.array a) ns).array a = ns := fun ns => by
    rw [Json.setElems_array, if_pos rfl]
  cases op with
  | swap =>
    right
    simp [permuteChildren, permuteList, Json.arraySet, hself, setElems_setElems, Json.elems]
  | moveBefore | moveAfter =>
    simp only [permuteChildren, permuteList, reduceCtorEq, if_true, if_false]
    split_ifs with heq hgt hlt hlt
    · exact .inl ⟨rfl, rfl⟩
    · exact absurd hlt hgt.asymm
    · simp [Json.arrayRemove, Json.arrayInsert, hself, setElems_setElems, Json.elems]
    · simp [Json.arrayRemove, Json.arrayInsert, hself, setElems_setElems, Json.elems]
    · omega

/-- No element is lost. -/
theorem permuteList_perm (op : PermdOp) {ns : List NodeRef} {node1 node2 : NodeRef} {idx1 idx2 : ℕ}
    (h1 : ns[idx1]? = some node1) (h2 : ns[idx2]? = some node2) :
    (permuteList op ns node1 node2 idx1 idx2).Perm ns := by
  obtain ⟨hlt1, rfl⟩ := List.getElem?_eq_some_iff.mp h1
  obtain ⟨hlt2, rfl⟩ := List.getElem?_eq_some_iff.mp h2
  have hmove : ∀ idx, idx ≤ ns.length → idx1 ≠ idx → (if idx1 > idx then
      (ns.eraseIdx idx1).insertIdx idx ns[idx1]
        else (ns.insertIdx idx ns[idx1]).eraseIdx idx1).Perm ns := by
    intro idx hle hne
    split_ifs with hgt
    · refine (List.perm_insertIdx _ _ ?_).trans (List.getElem_cons_eraseIdx_perm hlt1)
      rw [List.length_eraseIdx_of_lt hlt1]
      omega
    · have hlt : idx1 < (ns.insertIdx idx ns[idx1]).length := by
        rw [List.length_insertIdx_of_le_length hle]
        omega
      have hget : (ns.insertIdx idx ns[idx1])[idx1] = ns[idx1] :=
        List.getElem_insertIdx_of_lt (by omega) _
      refine (List.perm_cons ns[idx1]).mp (List.Perm.trans ?_ (List.perm_insertIdx ns[idx1] ns hle))
      have := List.getElem_cons_eraseIdx_perm hlt
      rwa [hget] at this
  cases op with
  | swap => exact List.set_set_perm hlt1 hlt2
  | moveBefore | moveAfter =>
    simp only [permuteList, reduceCtorEq, if_true, if_false]
    split_ifs with heq hgt
    · exact List.Perm.refl ns
    · simpa only [if_pos hgt] using hmove _ (by omega) heq
    · simpa only [if_neg hgt] using hmove _ (by omega) heq

/-- The children of a folder after `bookmark_permute()`. -/
def permuted (ctx : Ctx w) (op : PermdOp) (a : ArrayRef) (e1 e2 : EntryRef) : List NodeRef :=
  permuteList op (ctx.json.array a) (ctx.ents e1).node (ctx.ents e2).node
    ((ctx.json.array a).idxOf (ctx.ents e1).node) ((ctx.json.array a).idxOf (ctx.ents e2).node)

/-- What `bookmark_permute()` does on success. -/
structure Permutes (ctx : Ctx w) (S : Finset EntryRef) (now : Timespec) (parentId : ℕ)
    (op : PermdOp) (p e1 e2 : EntryRef) (a : ArrayRef) (ctx' : Ctx w) : Prop where
  parent : p ∈ S ∧ p ≠ rootEntry ∧ (ctx.ents p).id = parentId ∧ (ctx.ents p).name ≠ none
  siblings : (ctx.ents p).children = some (.array a)
  entry1 : e1 ∈ named ctx.ents S ∧ (ctx.ents e1).parentId = parentId
  entry2 : e2 ∈ named ctx.ents S ∧ (ctx.ents e2).parentId = parentId
  perm : (permuted ctx op a e1 e2).Perm (ctx.json.array a)
  change : ctx' = ctx ∧ (e2 = e1 ∨ permuted ctx op a e1 e2 = ctx.json.array a) ∨
    ctx' = { ctx with
      json := nodeMtimeNow (ctx.json.setElems (.array a) (permuted ctx op a e1 e2))
        (ctx.ents p).node now
      dirty := .data }

theorem bookmarkPermute_spec (hf : tb.Faithful) (henv : env.WellFormed) (C : ctx.Consistent tb)
    (parentId : ℕ) (op : PermdOp) (name1 name2 : CString) :
    Yields Fault.Abort (bookmarkPermute tb ctx env parentId op name1 name2) fun r =>
      (∃ err, r.1 = .error err ∧ r.2.Consistent tb) ∨
      ∃ ctx₁ S p e1 e2 a, Refreshed tb ctx env ctx₁ S ∧
        Permutes ctx₁ S env.now parentId op p e1 e2 a r.2 := by
  rw [bookmarkPermute]
  by_cases hroot : parentId = rootId
  · rw [if_pos hroot]; exact .inl ⟨_, rfl, C⟩
  rw [if_neg hroot]
  refine storeLoad_bind hf henv C (fun err ctx₁ C₁ => .inl ⟨_, rfl, C₁⟩) fun ctx₁ S R C₁ => ?_
  have I := R.inv
  dsimp only
  by_cases hvalid1 : validateFilename (name1.val.take (nameMax + 1)) ≠ none
  · rw [if_pos hvalid1]; exact .inl ⟨_, rfl, C₁⟩
  rw [if_neg hvalid1]
  by_cases hvalid2 : validateFilename (name2.val.take (nameMax + 1)) ≠ none
  · rw [if_pos hvalid2]; exact .inl ⟨_, rfl, C₁⟩
  rw [if_neg hvalid2]
  obtain ⟨r, hrun, hlook⟩ := I.lookupId_spec parentId
  simp only [hrun, ok_bind]
  cases r with
  | none => exact .inl ⟨_, rfl, C₁⟩
  | some p =>
  obtain ⟨hp, rfl⟩ := (hlook p).mp rfl
  have hproot : p ≠ rootEntry := fun h => hroot ((I.id_eq_root hp).mpr h)
  dsimp only
  by_cases hname : (ctx₁.ents p).name = none
  · rw [if_pos hname]; exact .inl ⟨_, rfl, C₁⟩
  rw [if_neg hname]
  have hflag := I.title_mode hp hproot hname
  cases hchildren : (ctx₁.ents p).children with
  | none => exact .inl ⟨_, rfl, C₁⟩
  | some siblings =>
  obtain ⟨r, hrun, hr⟩ := I.lookupName_spec hflag (ctx₁.ents p).id (name1.val.take (nameMax + 1))
  simp only [hrun, ok_bind]
  obtain ⟨e1, id1, rfl, he1, hparent1, -⟩ | ⟨rfl, -⟩ := hr
  rotate_left
  · exact .inl ⟨_, rfl, C₁⟩
  obtain ⟨r, hrun, hr⟩ := I.lookupName_spec hflag (ctx₁.ents p).id (name2.val.take (nameMax + 1))
  simp only [Bool.true_eq_false, if_false, hrun, ok_bind]
  obtain ⟨e2, id2, rfl, he2, hparent2, -⟩ | ⟨rfl, -⟩ := hr
  rotate_left
  · exact .inl ⟨_, rfl, C₁⟩
  simp only [Bool.true_eq_false, if_false]
  have hmem : ∀ e ∈ named ctx₁.ents S, (ctx₁.ents e).parentId = (ctx₁.ents p).id →
      ∃ a, (ctx₁.ents p).children = some (.array a) ∧ (ctx₁.ents e).node ∈ ctx₁.json.array a := by
    intro e he hparent
    obtain ⟨heS, heroot, -⟩ := mem_named.mp he
    obtain ⟨q, hq, a, ha, hqid, hmem⟩ := I.forest.folder heS heroot
    obtain rfl := I.forest.id_inj q hq p hp (hqid.trans hparent)
    exact ⟨a, ha, hmem⟩
  obtain ⟨a, ha, hmem1⟩ := hmem e1 he1 hparent1
  obtain ⟨b, hb, hmem2⟩ := hmem e2 he2 hparent2
  obtain rfl : a = b := by simpa [ha] using hb
  obtain rfl : siblings = .array a := by simpa [hchildren] using ha
  have hperm : (permuted ctx₁ op a e1 e2).Perm (ctx₁.json.array a) :=
    permuteList_perm op (List.getElem?_idxOf hmem1) (List.getElem?_idxOf hmem2)
  have hdone : ∀ ctx', (ctx' = ctx₁ ∧ (e2 = e1 ∨ permuted ctx₁ op a e1 e2 = ctx₁.json.array a) ∨
      ctx' = { ctx₁ with
        json := nodeMtimeNow (ctx₁.json.setElems (.array a) (permuted ctx₁ op a e1 e2))
          (ctx₁.ents p).node env.now
        dirty := .data }) → Permutes ctx₁ S env.now (ctx₁.ents p).id op p e1 e2 a ctx' :=
          fun ctx' h =>
    ⟨⟨hp, hproot, rfl, hname⟩, ha, ⟨he1, hparent1⟩, ⟨he2, hparent2⟩, hperm, h⟩
  by_cases heq : e2 = e1
  · rw [if_pos heq]
    exact .inr ⟨ctx₁, S, p, e1, e2, a, R, hdone ctx₁ (.inl ⟨rfl, .inl heq⟩)⟩
  rw [if_neg heq]
  have hsearch : ∀ n ∈ ctx₁.json.array a,
      ctx₁.json.arraySearch (.array a) n = .ok ((ctx₁.json.array a).idxOf n) :=
      fun n hn => if_pos hn
  simp only [hsearch _ hmem1, hsearch _ hmem2, ok_bind]
  obtain ⟨hrun, hsame⟩ | hrun := permuteChildren_eq ctx₁.json a op (ctx₁.ents e1).node
    (ctx₁.ents e2).node ((ctx₁.json.array a).idxOf (ctx₁.ents e1).node)
    ((ctx₁.json.array a).idxOf (ctx₁.ents e2).node)
  · rw [hrun]
    exact .inr ⟨ctx₁, S, p, e1, e2, a, R, hdone _ (.inl ⟨rfl, .inr hsame⟩)⟩
  · rw [hrun]
    exact .inr ⟨ctx₁, S, p, e1, e2, a, R, hdone _ (.inr rfl)⟩

theorem Permutes.inv {ctx' : Ctx w} {now : Timespec} {parentId : ℕ} {op : PermdOp}
    {p e1 e2 : EntryRef} {a : ArrayRef} (I : Inv tb ctx S)
    (P : Permutes ctx S now parentId op p e1 e2 a ctx') : Inv tb ctx' S := by
  obtain ⟨⟨hp, hproot, -⟩, ha, -, -, hperm, ⟨rfl, -⟩ | rfl⟩ := P
  · exact I
  refine ⟨(I.forest.permute hp ha hperm).set _ _ (by decide), ⟨I.indexed.id, I.indexed.guid,
    I.indexed.assoc, I.indexed.names⟩, I.entry_lt, I.max_id, I.guid_mode, fun b hb => ?_, I.shown⟩
  refine Eq.trans ?_ (I.roots b hb)
  simp only [nodeMtimeNow, Json.set_array, Json.setElems_array]
  rw [if_neg]
  rintro rfl
  exact hproot (I.forest.owner p hp _ I.forest.root_mem _ ha hb)

end Permute

section Set

/-- The modification time that some changes of an attribute leave behind. -/
def stamped (ctx : Ctx w) (json : Json) (node : NodeRef) (now : Timespec) : Json :=
  if ctx.flags.ctime then nodeMtimeNow json node now else json

/-- What `bookmark_set()` does on success, in title mode, to the bookmark of the entry `e`. -/
inductive Sets (tb : Tables w) (ctx : Ctx w) (S : Finset EntryRef) (now : Timespec)
    (e : EntryRef) : SetArg → Ctx w → Prop
  | times {atime mtime : Option Timespec} :
      (∀ ts, atime = some ts ∨ mtime = some ts → validTsSec ts.sec = true) →
      Sets tb ctx S now e (.times atime mtime) { ctx with
        json := storeTimes ctx.json (ctx.ents e).node atime mtime
        dirty := if ctx.dirty = .none then .metadata else ctx.dirty }
  | url {val : Bytes} {old : Value} : ctx.json.get (ctx.ents e).node .url = some old →
      Sets tb ctx S now e (.value none val) { ctx with
        json := setString ctx.json (ctx.ents e).node .url val, dirty := .data }
  | dateAdded {val : Bytes} {old : Value} {ts : Timespec} :
      ctx.json.get (ctx.ents e).node .dateAdded = some old → val.length ≤ 19 →
      parseTs val = some ts →
      Sets tb ctx S now e (.value (some .dateAdded) val) { ctx with
        json := stamped ctx (setString ctx.json (ctx.ents e).node .dateAdded val)
          (ctx.ents e).node now
        dirty := .data }
  | sameGuid {val : Bytes} : Sets tb ctx S now e (.value (some .guid) val) ctx
  | guid {val guid : Bytes} {guidMap : Hashmap w EntryRef} : parseGuid val = some guid →
      (∀ x ∈ S, (ctx.ents x).guid ≠ guid) →
      Holds guidMap S (guidmapHash tb
      (Function.update ctx.ents e { ctx.ents e with guid := guid })) →
      Sets tb ctx S now e (.value (some .guid) val) { ctx with
        json := stamped ctx (ctx.json.set (ctx.ents e).node .guid (.string val))
          (ctx.ents e).node now
        ents := Function.update ctx.ents e { ctx.ents e with guid := guid }
        guidMap := guidMap, dirty := .data }

/-- `update_guid()` on an entry whose new GUID is not in use. -/
theorem updateGuid_spec (hf : tb.Faithful) (I : Indexed tb ctx S) {e : EntryRef} (he : e ∈ S)
    (guid : Bytes) :
    Yields Fault.Abort (updateGuid tb ctx e (-1) guid (tb.digest guid)) fun ctx' => ∃ guidMap,
      ctx' = { ctx with guidMap := guidMap
                        ents := Function.update ctx.ents e { ctx.ents e with guid := guid } } ∧
        Holds guidMap S
          (guidmapHash tb (Function.update ctx.ents e { ctx.ents e with guid := guid })) := by
  have hagree : ∀ x ∈ S.erase e, guidmapHash tb ctx.ents x = guidmapHash tb
      (Function.update ctx.ents e { ctx.ents e with guid := guid }) x := fun x hx => by
    rw [guidmapHash, guidmapHash, Function.update_of_ne (Finset.mem_erase.mp hx).1]
  rw [updateGuid]
  refine (hf.yields_remove_entry I.guid he fun _ _ => rfl).bind fun guidMap H => ?_
  refine (hf.yields_insert _ (H.congr_hash hagree) (by simp [guidmapHash]) (Finset.notMem_erase e S)
    hagree).bind fun guidMap H => ?_
  exact ⟨guidMap, rfl, by rwa [Finset.insert_erase he] at H⟩

theorem setValue_spec (hf : tb.Faithful) (C : ctx.Consistent tb) (I : Inv tb ctx S)
    (hflag : ctx.flags.filenameGuid = false) (now : Timespec) {e : EntryRef} (he : e ∈ S)
    (hroot : e ≠ rootEntry) (xattr : Option XattrName) (val : Bytes) :
    Yields Fault.Abort (setValue tb ctx now (ctx.ents e).id e xattr val) fun r =>
      (∃ err, r.1 = .error err ∧ r.2.Consistent tb) ∨
      Sets tb ctx S now e (.value xattr val) r.2 := by
  rw [setValue]
  cases xattr with
  | none =>
    simp only [xattrKey]
    cases hold : ctx.json.get (ctx.ents e).node .url with
    | none => exact .inl ⟨_, rfl, C⟩
    | some old => exact .inr (.url hold)
  | some xattr =>
  cases xattr with
  | title => simp only [xattrKey, hflag]; exact .inl ⟨_, rfl, C⟩
  | unknown => exact .inl ⟨_, rfl, C⟩
  | dateAdded =>
    simp only [xattrKey]
    cases hold : ctx.json.get (ctx.ents e).node .dateAdded with
    | none => exact .inl ⟨_, rfl, C⟩
    | some old =>
      simp only [setPrepare, reduceCtorEq, if_false]
      by_cases hlen : 19 < val.length
      · rw [if_pos hlen]; exact .inl ⟨_, rfl, C⟩
      rw [if_neg hlen]
      cases hts : parseTs val with
      | none => exact .inl ⟨_, rfl, C⟩
      | some ts =>
        have : Sets tb ctx S now e (.value (some .dateAdded) val) _ :=
          .dateAdded hold (not_lt.mp hlen) hts
        refine .inr ?_
        simpa [stamped] using this
  | guid =>
    simp only [xattrKey, hflag, Bool.false_eq_true, if_false]
    cases hold : ctx.json.get (ctx.ents e).node .guid with
    | none => exact .inl ⟨_, rfl, C⟩
    | some old =>
      simp only [setPrepare, reduceCtorEq, if_false]
      cases hguid : parseGuid val with
      | none => exact .inl ⟨_, rfl, C⟩
      | some guid =>
        obtain ⟨r, hrun, hfound, hfree⟩ := lookupGuid_spec I.indexed.guid guid
        simp only [hrun, ok_bind]
        cases r with
        | some q =>
          by_cases hid : (ctx.ents q.1).id = (ctx.ents e).id
          · simp only [hid, if_true]
            exact .inr .sameGuid
          · simp only [hid, if_false]
            exact .inl ⟨_, rfl, C⟩
        | none =>
          have hstring : ∃ s, old = .string s := by
            have := (I.forest.describes e he hroot).guid
            rw [hold] at this
            cases old with
            | string s => exact ⟨s, rfl⟩
            | array _ => cases this
            | other _ => cases this
          obtain ⟨s, rfl⟩ := hstring
          have hset : Yields Fault.Abort (updateGuid tb ctx e (-1) guid
            (tb.digest guid) >>= fun ctx =>
              .ok ((none : Option (Except Errno Unit)), ctx)) fun q => ∃ guidMap,
              q = (none, { ctx with guidMap := guidMap
                                    ents := Function.update ctx.ents e
                                      { ctx.ents e with guid := guid } }) ∧
                Holds guidMap S
                  (guidmapHash tb (Function.update ctx.ents e
                    { ctx.ents e with guid := guid })) := by
            refine (updateGuid_spec hf I.indexed he guid).bind fun ctx' h => ?_
            obtain ⟨guidMap, rfl, H⟩ := h
            exact ⟨guidMap, rfl, H⟩
          refine hset.bind fun q h => ?_
          obtain ⟨guidMap, rfl, H⟩ := h
          have : Sets tb ctx S now e _ _ := .guid hguid (hfree rfl) H
          refine .inr ?_
          simpa [stamped, setString, hold] using this

/-- The bookmark that `bookmark_set()` finds. -/
structure Settable (ctx : Ctx w) (S : Finset EntryRef) (id : ℕ) (e : EntryRef) : Prop where
  mem : e ∈ S
  ne_root : e ≠ rootEntry
  id : (ctx.ents e).id = id
  name : (ctx.ents e).name ≠ none
  parent : (ctx.ents e).parentId ≠ rootId

theorem bookmarkSet_spec (hf : tb.Faithful) (henv : env.WellFormed) (C : ctx.Consistent tb)
    (id : ℕ) (arg : SetArg) :
    Yields Fault.Abort (bookmarkSet tb ctx env id arg) fun r =>
      (∃ err, r.1 = .error err ∧ r.2.Consistent tb) ∨
      ∃ ctx₁ S e, Refreshed tb ctx env ctx₁ S ∧ Settable ctx₁ S id e ∧
        Sets tb ctx₁ S env.now e arg r.2 := by
  rw [bookmarkSet]
  by_cases hroot : id = rootId
  · rw [if_pos hroot]; exact .inl ⟨_, rfl, C⟩
  rw [if_neg hroot]
  refine storeLoad_bind hf henv C (fun err ctx₁ C₁ => .inl ⟨_, rfl, C₁⟩) fun ctx₁ S R C₁ => ?_
  have I := R.inv
  obtain ⟨r, hrun, hlook⟩ := I.lookupId_spec id
  simp only [hrun, ok_bind]
  cases r with
  | none => exact .inl ⟨_, rfl, C₁⟩
  | some e =>
  obtain ⟨he, rfl⟩ := (hlook e).mp rfl
  have heroot : e ≠ rootEntry := fun h => hroot ((I.id_eq_root he).mpr h)
  dsimp only
  by_cases hname : (ctx₁.ents e).name = none
  · rw [if_pos hname]; exact .inl ⟨_, rfl, C₁⟩
  rw [if_neg hname]
  by_cases hparent : (ctx₁.ents e).parentId = rootId
  · rw [if_pos hparent]; exact .inl ⟨_, rfl, C₁⟩
  rw [if_neg hparent]
  have hsettable : Settable ctx₁ S (ctx₁.ents e).id e := ⟨he, heroot, rfl, hname, hparent⟩
  cases arg with
  | value xattr val =>
    refine (setValue_spec hf C₁ I (I.title_mode he heroot hname) env.now he heroot xattr val).mono
      fun r hr => hr.imp_right fun h => ⟨ctx₁, S, e, R, hsettable, h⟩
  | times atime mtime =>
    by_cases hvalid : (atime.any fun ts => !validTsSec ts.sec) = true ∨
        (mtime.any fun ts => !validTsSec ts.sec) = true
    · simp only [setTimes, if_pos hvalid]
      exact .inl ⟨_, rfl, C₁⟩
    · simp only [setTimes, if_neg hvalid]
      refine .inr ⟨ctx₁, S, e, R, hsettable, .times fun ts hts => ?_⟩
      rcases hts with rfl | rfl <;> simp_all

theorem Forest.setString {json : Json} {ents : Entries} {pend : EntryRef → List NodeRef}
    (F : Forest json ents S pend) (n : NodeRef) {k : Key} (val : Bytes)
    (hk : k ≠ .id ∧ k ≠ .guid ∧ k ≠ .name ∧ k ≠ .children) :
    Forest (setString json n k val) ents S pend := by
  rw [Chromium.setString]
  split
  · exact F.set n _ hk
  · exact F

theorem Forest.storeTimes {json : Json} {ents : Entries} {pend : EntryRef → List NodeRef}
    (F : Forest json ents S pend) (n : NodeRef) (atime mtime : Option Timespec) :
    Forest (storeTimes json n atime mtime) ents S pend := by
  cases atime <;> cases mtime
  · exact F
  · exact F.set _ _ (by decide)
  · exact F.set _ _ (by decide)
  · exact (F.set _ _ (by decide)).set _ _ (by decide)

theorem Forest.stamped {json : Json} {ents : Entries} {pend : EntryRef → List NodeRef}
    (F : Forest json ents S pend) (ctx : Ctx w) (n : NodeRef) (now : Timespec) :
    Forest (stamped ctx json n now) ents S pend := by
  rw [Chromium.stamped]
  split_ifs
  · exact F.set n _ (by decide)
  · exact F

theorem storeTimes_array (json : Json) (n : NodeRef) (atime mtime : Option Timespec) :
    (storeTimes json n atime mtime).array = json.array := by
  cases atime <;> cases mtime <;> rfl

theorem setString_array (json : Json) (n : NodeRef) (k : Key) (val : Bytes) :
    (setString json n k val).array = json.array := by
  rw [setString]
  split <;> rfl

theorem stamped_array (ctx : Ctx w) (json : Json) (n : NodeRef) (now : Timespec) :
    (stamped ctx json n now).array = json.array := by
  rw [stamped]
  split_ifs <;> rfl

theorem Sets.loaded {ctx' : Ctx w} {now : Timespec} {e : EntryRef} {arg : SetArg}
    (T : Sets tb ctx S now e arg ctx') : ctx'.loaded = ctx.loaded := by
  cases T <;> rfl

theorem Sets.inv {ctx' : Ctx w} {now : Timespec} {e : EntryRef} {arg : SetArg} (I : Inv tb ctx S)
    (he : e ∈ S) (hroot : e ≠ rootEntry) (T : Sets tb ctx S now e arg ctx') : Inv tb ctx' S := by
  cases T with
  | times _ =>
    exact ⟨I.forest.storeTimes _ _ _, ⟨I.indexed.id, I.indexed.guid, I.indexed.assoc,
      I.indexed.names⟩, I.entry_lt, I.max_id, I.guid_mode, by
        rw [storeTimes_array]; exact I.roots, I.shown⟩
  | url _ =>
    exact ⟨I.forest.setString _ _ (by decide), ⟨I.indexed.id, I.indexed.guid, I.indexed.assoc,
      I.indexed.names⟩, I.entry_lt, I.max_id, I.guid_mode, by
        rw [setString_array]; exact I.roots, I.shown⟩
  | dateAdded _ _ _ =>
    exact ⟨(I.forest.setString _ _ (by decide)).stamped _ _ _, ⟨I.indexed.id, I.indexed.guid,
      I.indexed.assoc, I.indexed.names⟩, I.entry_lt, I.max_id, I.guid_mode, by
        rw [stamped_array, setString_array]; exact I.roots, I.shown⟩
  | sameGuid => exact I
  | guid hguid hfree H =>
    rename_i val guid guidMap
    have hents : ∀ x, (Function.update ctx.ents e { ctx.ents e with guid := guid } x).id =
        (ctx.ents x).id ∧
        (Function.update ctx.ents e { ctx.ents e with guid := guid } x).parentId =
        (ctx.ents x).parentId ∧
        (Function.update ctx.ents e { ctx.ents e with guid := guid } x).node = (ctx.ents x).node ∧
        (Function.update ctx.ents e { ctx.ents e with guid := guid } x).children =
        (ctx.ents x).children ∧
        (Function.update ctx.ents e { ctx.ents e with guid := guid } x).name =
        (ctx.ents x).name := by
      intro x
      by_cases hx : x = e
      · subst hx; simp
      · simp [hx]
    have hnamed := named_congr (S := S) fun x _ => (hents x).2.2.2.2
    have F : Forest (ctx.json.set (ctx.ents e).node .guid (.string val))
        (Function.update ctx.ents e { ctx.ents e with guid := guid }) S nonePending := by
      refine I.forest.congr (fun _ _ _ _ => rfl) le_rfl le_rfl (fun x _ => ⟨(hents x).1,
        (hents x).2.1, (hents x).2.2.1, (hents x).2.2.2.1⟩) (hents _).2.2.2.2
        (fun x hx hxroot => ?_)
        fun x _ => Json.get_set_of_key (by decide)
      have D := I.forest.describes x hx hxroot
      by_cases hxe : x = e
      · subst hxe
        rw [Function.update_self]
        refine ⟨?_, ?_, ?_⟩
        · rw [parseId, Json.get_set_of_key (by decide)]
          exact D.id
        · rw [Json.get_set_self]
          exact hguid
        · rw [Json.get_set_of_key (by decide)]
          exact D.name
      · rw [Function.update_of_ne hxe]
        refine D.congr fun k _ => Json.get_set_of_node ?_
        exact fun h => hxe (I.forest.node_inj x hx e he h)
    refine ⟨F.stamped _ _ _, ⟨?_, H, ?_, ?_⟩, I.entry_lt, ?_, fun h x hx hxroot => ?_, ?_, ?_⟩
    · exact I.indexed.id.congr_hash fun x _ => by rw [idmapHash, idmapHash, (hents x).1]
    · rw [hnamed]
      exact I.indexed.assoc.congr_hash fun x _ => by
        rw [assocmapHash, assocmapHash, (hents x).2.1, (hents x).2.2.2.2]
    · rw [hnamed]
      intro x hx y hy
      rw [(hents x).2.1, (hents y).2.1, (hents x).2.2.2.2, (hents y).2.2.2.2]
      exact I.indexed.names x hx y hy
    · exact ⟨I.max_id.1, fun x hx => (hents x).1.symm ▸ I.max_id.2 x hx⟩
    · rw [(hents x).2.2.2.2]
      exact I.guid_mode h x hx hxroot
    · intro b hb
      rw [(hents _).2.2.2.1] at hb
      rw [stamped_array]
      exact I.roots b hb
    · dsimp only
      rw [hnamed]
      intro x hx q hq
      rw [(hents q).1, (hents x).2.1, (hents q).2.2.2.2]
      exact I.shown x hx q hq

end Set

end BookmarkFS.Chromium
