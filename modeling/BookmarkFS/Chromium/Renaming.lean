import BookmarkFS.Chromium.Changes

/-! # What renaming a bookmark changes

A rename has four shapes: within one directory or into another one, and with or
without an entry that is replaced. In each of them the maps end up right,
provided that the association map does not shrink when the entry replaced leaves
it. The tree does too, except when the entry replaced is in the same directory:
its node then stays among the children.
-/
namespace BookmarkFS.Chromium
open Library Hopscotch

variable {w : WordSize} {tb : Tables w} {ctx : Ctx w} {env : Env} {S : Finset EntryRef}

/-- The tree after the entry `x` has got its name and its place. The children of the old parent are
in the array `a`, `c` are those of the new one, and `v` is the entry replaced. -/
def renamedJson (ctx : Ctx w) (p q x : EntryRef) (v : Option EntryRef) (a : ArrayRef) (c : Value)
    (newName : Bytes) : Json :=
  let json := ctx.json.set (ctx.ents x).node .name (.string newName)
  if p = q then json
  else
    let json := match v with
      | none => json.arrayAppend c (ctx.ents x).node
      | some v => json.update (ctx.ents v).node (ctx.ents x).node
    json.setElems (.array a) ((json.array a).erase (ctx.ents x).node)

/-- The node of the entry renamed: in another directory it takes over the object of the node that
it replaces. -/
def renamedNode (ctx : Ctx w) (p q x : EntryRef) (v : Option EntryRef) : NodeRef :=
  match v with
  | none => (ctx.ents x).node
  | some v => if p = q then (ctx.ents x).node else (ctx.ents v).node

/-- The entries after the entry `x` has got its name and its place. -/
def renamedEnts (ctx : Ctx w) (p q x : EntryRef) (v : Option EntryRef) (newName : Bytes) :
    Entries :=
  let entry := ctx.ents x
  Function.update ctx.ents x { entry with
    name := some newName, parentId := (ctx.ents q).id, node := renamedNode ctx p q x v }

def remaining (S : Finset EntryRef) : Option EntryRef → Finset EntryRef
  | none => S
  | some v => S.erase v

/-- Whether `v` is what a rename to the given name replaces, if anything. -/
def Replaces (ctx : Ctx w) (S : Finset EntryRef) (x : EntryRef) (newParentId : ℕ)
    (newName : Bytes) : Option EntryRef → Prop
  | none => ∀ e ∈ named ctx.ents S, (ctx.ents e).parentId = newParentId →
      (ctx.ents e).name ≠ some newName
  | some v => v ∈ named ctx.ents S ∧ (ctx.ents v).parentId = newParentId ∧
      (ctx.ents v).name = some newName ∧ v ≠ x ∧
      ((ctx.ents v).children = none ↔ (ctx.ents x).children = none) ∧
      ∀ c, (ctx.ents v).children = some c → ctx.json.elems c = []

/-- What `bookmark_rename()` does on success, unless the two names are one. -/
structure Renames (tb : Tables w) (ctx : Ctx w) (S : Finset EntryRef) (now : Timespec)
    (oldParentId : ℕ) (oldName : Bytes) (newParentId : ℕ) (newName : Bytes) (p q x : EntryRef)
    (v : Option EntryRef) (a : ArrayRef) (c : Value) (ctx' : Ctx w) : Prop where
  oldParent : p ∈ S ∧ p ≠ rootEntry ∧ (ctx.ents p).id = oldParentId ∧ (ctx.ents p).name ≠ none
  newParent : q ∈ S ∧ q ≠ rootEntry ∧ (ctx.ents q).id = newParentId ∧ (ctx.ents q).name ≠ none
  entry : x ∈ named ctx.ents S ∧ (ctx.ents x).parentId = oldParentId ∧
    (ctx.ents x).name = some oldName
  replaced : Replaces ctx S x newParentId newName v
  oldSiblings : (ctx.ents p).children = some (.array a)
  newSiblings : (ctx.ents q).children = some c
  utf8 : oldName = newName ∨ validUtf8 newName = true
  differ : ¬(p = q ∧ oldName = newName)
  change : ∃ idMap guidMap assocMap, ctx' = { ctx with
    json := renameTimes { ctx with json := renamedJson ctx p q x v a c newName
                                   ents := renamedEnts ctx p q x v newName } now p q
      (ctx.ents x).node
    ents := renamedEnts ctx p q x v newName
    idMap := idMap, guidMap := guidMap, assocMap := assocMap, dirty := .data }
  indexed : Indexed tb ctx' (remaining S v)

section Steps

theorem leaf_of_checkReplaced {noreplace found : Bool} {x : EntryRef} {new : Option EntryRef}
    (h : checkReplaced ctx noreplace found x new = none) : new = none ∨ ∃ v, new = some v ∧ v ≠ x ∧
      ((ctx.ents v).children = none ↔ (ctx.ents x).children = none) ∧
        ∀ c, (ctx.ents v).children = some c → ctx.json.elems c = [] := by
  cases new with
  | none => exact .inl rfl
  | some v =>
    refine .inr ⟨v, rfl, ?_⟩
    cases found with
    | false => simp [checkReplaced] at h
    | true =>
    simp only [checkReplaced] at h
    split_ifs at h with hnoreplace heq
    refine ⟨heq, ?_⟩
    cases hv : (ctx.ents v).children <;> cases hx : (ctx.ents x).children <;> simp_all
    exact List.length_eq_zero_iff.mp h

theorem noreplace_of_checkReplaced {noreplace found : Bool} {x v : EntryRef}
    (h : checkReplaced ctx noreplace found x (some v) = none) : noreplace = false := by
  cases found with
  | false => simp [checkReplaced] at h
  | true =>
    simp only [checkReplaced] at h
    by_contra hnoreplace
    rw [if_pos (by simpa using hnoreplace)] at h
    cases h

/-- `Update node name`, unless the name stays. -/
theorem updateName_spec (I : Inv tb ctx S) {p q x : EntryRef} (hx : x ∈ named ctx.ents S)
    {oldName newName : CString} (hname : (ctx.ents x).name = some oldName.val)
    (hdiffer : ¬(p = q ∧ oldName = newName)) :
    updateName ctx x p q oldName newName = .ok none ∨
      (oldName.val = newName.val ∨ validUtf8 newName = true) ∧
      updateName ctx x p q oldName newName =
        .ok (some (ctx.json.set (ctx.ents x).node .name (.string newName),
          Function.update ctx.ents x { ctx.ents x with name := some newName.val })) := by
  rw [updateName]
  split_ifs with heq
  · subst heq
    obtain ⟨hxS, hroot, -⟩ := mem_named.mp hx
    obtain ⟨s, hs, hdescribes⟩ := (I.forest.describes x hxS hroot).name
    obtain rfl := hdescribes _ hname
    have hpq : p ≠ q := fun h => hdiffer ⟨h, rfl⟩
    refine .inr ⟨.inl rfl, ?_⟩
    have hobject : ctx.json.set (ctx.ents x).node .name (.string oldName) = ctx.json := by
      rw [Json.set, show Function.update (ctx.json.object (ctx.ents x).node) .name
        (some (.string oldName.val)) = ctx.json.object (ctx.ents x).node by
          rw [← hs]; exact Function.update_eq_self _ _, Function.update_eq_self]
    have hents : Function.update ctx.ents x { ctx.ents x with name := some oldName.val } =
        ctx.ents := by
      rw [← hname]; exact Function.update_eq_self _ _
    rw [debugAssert, if_pos hpq, hobject, hents]
    rfl
  · by_cases hutf8 : validUtf8 newName = true
    · simp only [jsonStringn, hutf8, if_true]
      exact .inr ⟨.inr trivial, trivial⟩
    · simp only [jsonStringn, hutf8]
      exact .inl rfl

/-- `move_node`, after the name has been updated. -/
theorem moveNode_spec (I : Inv tb ctx S) {p q x : EntryRef} {v : Option EntryRef} {a : ArrayRef}
    {c : Value} {newName : Bytes} (hp : p ∈ S) (hq : q ∈ S) (hpq : p ≠ q)
    (hx : x ∈ S) (hroot : x ≠ rootEntry) (hparent : (ctx.ents x).parentId = (ctx.ents p).id)
    (hv : ∀ v', v = some v' → v' ≠ x)
    (ha : (ctx.ents p).children = some (.array a)) (hc : (ctx.ents q).children = some c) :
    moveNode (ctx.json.set (ctx.ents x).node .name (.string newName))
      (Function.update ctx.ents x { ctx.ents x with name := some newName }) x p q
      (ctx.ents x).node v =
      .ok (renamedJson ctx p q x v a c newName, renamedEnts ctx p q x v newName) := by
  have hkeep : ∀ y, (Function.update ctx.ents x { ctx.ents x with name := some newName } y).id =
      (ctx.ents y).id ∧ (Function.update ctx.ents x
        { ctx.ents x with name := some newName } y).children = (ctx.ents y).children := by
    intro y
    by_cases hy : y = x
    · subst hy; simp
    · simp [hy]
  have hmem : (ctx.ents x).node ∈ ctx.json.array a :=
    (I.forest.mem_array_iff hp ha hx hroot).mpr hparent
  have hca : c ≠ .array a := by
    rintro rfl
    exact hpq (I.forest.owner p hp q hq a ha hc)
  have hsearch : ∀ json : Json, json.array a = ctx.json.array a →
      json.arraySearch (.array a) (ctx.ents x).node =
        .ok ((ctx.json.array a).idxOf (ctx.ents x).node) := by
    intro json h
    rw [Json.arraySearch, Json.elems, h, if_pos hmem]
  unfold moveNode
  cases v with
  | none =>
    have happend : ((ctx.json.set (ctx.ents x).node .name (.string newName)).arrayAppend c
        (ctx.ents x).node).array a = ctx.json.array a := by
      cases c with
      | array b =>
        rw [Json.arrayAppend, Json.setElems_array, if_neg]
        · rfl
        · rintro rfl
          exact hca rfl
      | string _ => rfl
      | other _ => rfl
    simp only [(hkeep _).1, (hkeep _).2, ha, hc, hsearch _ happend, ok_bind, Function.update_self,
      Function.update_idem]
    rw [renamedJson, if_neg hpq, renamedEnts, renamedNode]
    dsimp only
    rw [Json.arrayRemove, Json.elems, happend, List.erase_eq_eraseIdx_of_idxOf rfl]
  | some v =>
    have hnode := hv v rfl
    simp only [(hkeep _).1, (hkeep _).2, ha, hsearch ((ctx.json.set (ctx.ents x).node .name
      (.string newName)).update _ _) rfl, ok_bind, Function.update_self, Function.update_idem,
      Function.update_of_ne hnode]
    rw [renamedJson, if_neg hpq, renamedEnts, renamedNode, if_neg hpq]
    dsimp only
    rw [List.erase_eq_eraseIdx_of_idxOf rfl]
    rfl

theorem renamedEnts_self (ctx : Ctx w) (p q x : EntryRef) (v : Option EntryRef) (newName : Bytes) :
    renamedEnts ctx p q x v newName x = { ctx.ents x with
      name := some newName, parentId := (ctx.ents q).id, node := renamedNode ctx p q x v } :=
  Function.update_self ..

theorem renamedEnts_of_ne {p q x y : EntryRef} {v : Option EntryRef} {newName : Bytes}
    (h : y ≠ x) : renamedEnts ctx p q x v newName y = ctx.ents y :=
  Function.update_of_ne h ..

theorem renamedEnts_keeps (ctx : Ctx w) (p q x : EntryRef) (v : Option EntryRef) (newName : Bytes)
    (y : EntryRef) : (renamedEnts ctx p q x v newName y).id = (ctx.ents y).id ∧
      (renamedEnts ctx p q x v newName y).guid = (ctx.ents y).guid ∧
      (renamedEnts ctx p q x v newName y).children = (ctx.ents y).children := by
  by_cases hy : y = x
  · subst hy; rw [renamedEnts_self]; simp
  · rw [renamedEnts_of_ne hy]; simp

theorem mem_remaining {v : Option EntryRef} {x : EntryRef} :
    x ∈ remaining S v ↔ x ∈ S ∧ v ≠ some x := by
  cases v with
  | none => simp [remaining]
  | some v => simp [remaining, and_comm, eq_comm]

theorem remaining_subset (S : Finset EntryRef) (v : Option EntryRef) : remaining S v ⊆ S :=
  fun _ h => (mem_remaining.mp h).1

/-- The entry replaced leaves the maps. The hashcode of the entry renamed is not what it was filed
under any more, so that its identifier is good only as long as the table does not shrink. -/
theorem dropReplaced_spec (hf : tb.Faithful) (I : Inv tb ctx S)
    (hflag : ctx.flags.filenameGuid = false) {p q x : EntryRef} {v : Option EntryRef}
    {newName : Bytes} (hv : ∀ v', v = some v' → v' ∈ S ∧ v' ≠ x) {oldId newId : Word w}
    (hold : Designates ctx.assocMap oldId x)
    (hnew : ∀ v', v = some v' → Designates ctx.assocMap newId v')
    (hshrink : v ≠ none → ¬ctx.assocMap.Shrinks) (json : Json) :
    Yields Fault.Abort (dropReplaced tb { ctx with
        json := json, ents := renamedEnts ctx p q x v newName } v newId) fun ctx' =>
        ∃ idMap guidMap assocMap,
      ctx' = { ctx with json := json, ents := renamedEnts ctx p q x v newName
                        idMap := idMap, guidMap := guidMap, assocMap := assocMap } ∧
      Holds idMap (remaining S v) (idmapHash tb (renamedEnts ctx p q x v newName)) ∧
      Holds guidMap (remaining S v) (guidmapHash tb (renamedEnts ctx p q x v newName)) ∧
      Holds assocMap (named ctx.ents (remaining S v)) (assocmapHash tb ctx.ents) ∧
      Designates assocMap oldId x := by
  have Hid := I.indexed.id.congr_hash (g := idmapHash tb (renamedEnts ctx p q x v newName))
    fun y _ => by rw [idmapHash, idmapHash, (renamedEnts_keeps ctx p q x v newName y).1]
  have Hguid := I.indexed.guid.congr_hash
    (g := guidmapHash tb (renamedEnts ctx p q x v newName))
    fun y _ => by rw [guidmapHash, guidmapHash, (renamedEnts_keeps ctx p q x v newName y).2.1]
  cases v with
  | none => exact ⟨_, _, _, rfl, Hid, Hguid, I.indexed.assoc, hold⟩
  | some v =>
    obtain ⟨hvS, hvx⟩ := hv v rfl
    have hshrink := hshrink (by simp)
    refine (dropEntry_spec hf { ctx with json := json
                                         ents := renamedEnts ctx p q x (some v) newName }
      Hid Hguid I.indexed.assoc hflag hvS (hnew v rfl) fun h => absurd h hshrink).mono
      fun ctx' h => ?_
    obtain ⟨idMap, guidMap, assocMap, rfl, Hi, Hg, Ha, hkeep⟩ := h
    refine ⟨idMap, guidMap, assocMap, rfl, Hi, Hg, ?_, hkeep hshrink _ _ hvx.symm hold⟩
    rw [remaining, named_erase]
    exact Ha

/-- The entry renamed is filed under its new name. -/
theorem refileRenamed_spec (hf : tb.Faithful) (I : Inv tb ctx S)
    (hflag : ctx.flags.filenameGuid = false) {p q x : EntryRef} {v : Option EntryRef}
    {newName : Bytes} (hx : x ∈ named ctx.ents S) (hv : Replaces ctx S x (ctx.ents q).id newName v)
    {oldLctx newLctx : LookupCtx w}
    (hhash : newLctx.hashcode = hashAssoc tb (ctx.ents q).id newName) {ctx' : Ctx w}
    (hents : ctx'.ents = renamedEnts ctx p q x v newName) (hflags : ctx'.flags = ctx.flags)
    (Hid : Holds ctx'.idMap (remaining S v) (idmapHash tb ctx'.ents))
    (Hguid : Holds ctx'.guidMap (remaining S v) (guidmapHash tb ctx'.ents))
    (Hassoc : Holds ctx'.assocMap (named ctx.ents (remaining S v)) (assocmapHash tb ctx.ents))
    (hold : Designates ctx'.assocMap oldLctx.entryId x) :
    Yields Fault.Abort (refileRenamed tb ctx' x oldLctx newLctx) fun ctx'' => ∃ assocMap,
      ctx'' = { ctx' with assocMap := assocMap } ∧ Indexed tb ctx'' (remaining S v) := by
  have hself := renamedEnts_self ctx p q x v newName
  have hagree : ∀ y ∈ (named ctx.ents (remaining S v)).erase x,
      assocmapHash tb ctx'.ents y = assocmapHash tb ctx.ents y := fun y hy => by
    rw [hents, assocmapHash, assocmapHash, renamedEnts_of_ne (Finset.mem_erase.mp hy).1]
  have hxrem : x ∈ named ctx.ents (remaining S v) := by
    obtain ⟨hxS, hroot, hname⟩ := mem_named.mp hx
    refine mem_named.mpr ⟨mem_remaining.mpr ⟨hxS, ?_⟩, hroot, hname⟩
    rintro rfl
    exact hv.2.2.2.1 rfl
  have hnamed : named ctx'.ents (remaining S v) = named ctx.ents (remaining S v) := by
    ext y
    rw [mem_named, mem_named, hents]
    by_cases hy : y = x
    · subst hy
      rw [hself]
      simp [(mem_named.mp hx).2.2]
    · rw [renamedEnts_of_ne hy]
  rw [refileRenamed]
  simp only [hflags, hflag, Bool.false_eq_true, if_false]
  refine (hf.yields_remove_id Hassoc hold fun _ => hagree).bind fun assocMap H => ?_
  refine (hf.yields_insert _ (H.1.congr_hash fun y hy => (hagree y hy).symm) ?_
    (Finset.notMem_erase x _) fun _ _ => rfl).bind fun assocMap H' => ?_
  · rw [hhash, assocmapHash, hents, hself]
    rfl
  refine ⟨assocMap, rfl, Hid, Hguid, ?_, ?_⟩
  · rw [Finset.insert_erase hxrem] at H'
    rw [hnamed]
    exact H'
  · -- no other entry has the new name, since the one that had it has been replaced
    have hfree : ∀ y ∈ named ctx.ents (remaining S v), y ≠ x →
        (ctx.ents y).parentId = (ctx.ents q).id → (ctx.ents y).name ≠ some newName := by
      intro y hy hyx hparent hname
      obtain ⟨hyrem, hyroot, hynone⟩ := mem_named.mp hy
      obtain ⟨hyS, hyv⟩ := mem_remaining.mp hyrem
      have hyN := mem_named.mpr ⟨hyS, hyroot, hynone⟩
      cases v with
      | none => exact hv y hyN hparent hname
      | some v =>
        obtain ⟨hvN, hvparent, hvname, -⟩ := hv
        exact hyv (congrArg some (I.indexed.names v hvN y hyN (hvparent.trans hparent.symm)
          (hvname.trans hname.symm)))
    have hsub : ∀ y, y ∈ named ctx.ents (remaining S v) → y ∈ named ctx.ents S := fun y hy => by
      obtain ⟨h, h'⟩ := mem_named.mp hy
      exact mem_named.mpr ⟨remaining_subset S v h, h'⟩
    show ∀ y ∈ named ctx'.ents (remaining S v), ∀ z ∈ named ctx'.ents (remaining S v),
      (ctx'.ents y).parentId = (ctx'.ents z).parentId → (ctx'.ents y).name = (ctx'.ents z).name →
      y = z
    rw [hnamed, hents]
    intro y hy z hz hparent hname
    by_cases hyx : y = x <;> by_cases hzx : z = x
    · rw [hyx, hzx]
    · rw [hyx, hself, renamedEnts_of_ne hzx] at hparent hname
      exact absurd hname.symm (hfree z hz hzx hparent.symm)
    · rw [hzx, hself, renamedEnts_of_ne hyx] at hparent hname
      exact absurd hname (hfree y hy hyx hparent)
    · rw [renamedEnts_of_ne hyx, renamedEnts_of_ne hzx] at hparent hname
      exact I.indexed.names y (hsub y hy) z (hsub z hz) hparent hname

end Steps

/-- The entry that `bookmark_rename()` is asked to rename. -/
def Named (ctx : Ctx w) (S : Finset EntryRef) (parentId : ℕ) (name : Bytes) (e : EntryRef) : Prop :=
  e ∈ named ctx.ents S ∧ (ctx.ents e).parentId = parentId ∧ (ctx.ents e).name = some name

section Lookups

variable {p q x : EntryRef} {v : Option EntryRef}

theorem Inv.newParent_spec (I : Inv tb ctx S) (hp : p ∈ S) (newParentId : ℕ) :
    ∃ r, (if (ctx.ents p).id = newParentId then .ok (some p) else lookupId tb ctx newParentId) =
    .ok r ∧
      ∀ e, r = some e ↔ e ∈ S ∧ (ctx.ents e).id = newParentId := by
  split_ifs with h
  · refine ⟨_, rfl, fun e => ?_⟩
    rw [Option.some_inj]
    constructor
    · rintro rfl
      exact ⟨hp, h⟩
    · rintro ⟨he, hid⟩
      exact I.forest.id_inj p hp e he (h.trans hid.symm)
  · exact I.lookupId_spec newParentId

theorem Inv.lookupReplaced_spec (I : Inv tb ctx S) (hflag : ctx.flags.filenameGuid = false)
    (parentId : ℕ) (newName : CString) :
    ∃ found newId v, lookupName tb ctx parentId newName =
    .ok (found, ⟨hashAssoc tb parentId newName, newId, []⟩, v) ∧
      (v = none → ∀ e ∈ named ctx.ents S, (ctx.ents e).parentId = parentId →
        (ctx.ents e).name ≠ some newName.val) ∧
      ∀ v', v = some v' → found = true ∧ Named ctx S parentId newName v' ∧
      Designates ctx.assocMap newId v' := by
  obtain ⟨r, hrun, hr⟩ := I.lookupName_spec hflag parentId newName
  rw [hrun]
  obtain ⟨v, newId, rfl, hv, hparent, hname, hnew⟩ | ⟨rfl, hfree⟩ := hr
  · refine ⟨_, _, _, rfl, by simp, ?_⟩
    rintro v' ⟨⟩
    exact ⟨rfl, ⟨hv, hparent, hname⟩, hnew⟩
  · exact ⟨_, _, _, rfl, fun _ => hfree, by simp⟩

theorem checkReplaced_reply {noreplace : Bool} {new : EntryRef} {reply : Except Errno Unit}
    (h : checkReplaced ctx noreplace true x (some new) = some reply) :
    (∃ err, reply = .error err) ∨ new = x ∧ reply = .ok () := by
  simp only [checkReplaced] at h
  split_ifs at h with hnoreplace hsame
  · exact .inl ⟨_, (Option.some_inj.mp h).symm⟩
  · exact .inr ⟨hsame, (Option.some_inj.mp h).symm⟩
  · refine .inl ?_
    cases hv : (ctx.ents new).children <;> cases hx :
      (ctx.ents x).children <;> simp only [hv, hx] at h
    · cases h
    · exact ⟨_, (Option.some_inj.mp h).symm⟩
    · exact ⟨_, (Option.some_inj.mp h).symm⟩
    · split_ifs at h
      exact ⟨_, (Option.some_inj.mp h).symm⟩

theorem Replaces.mem {newParentId : ℕ} {newName : Bytes}
    (h : Replaces ctx S x newParentId newName v) :
    ∀ v', v = some v' → v' ∈ S ∧ v' ≠ x := by
  rintro v' rfl
  exact ⟨(mem_named.mp h.1).1, h.2.2.2.1⟩

theorem Replaces.differ (I : Inv tb ctx S) {oldName newName : CString}
    (hx : Named ctx S (ctx.ents p).id oldName x)
    (h : Replaces ctx S x (ctx.ents q).id newName v) : ¬(p = q ∧ oldName = newName) := by
  rintro ⟨rfl, rfl⟩
  obtain ⟨hx, hparent, hname⟩ := hx
  cases v with
  | none => exact h x hx hparent hname
  | some v =>
    obtain ⟨hv, hvparent, hvname, hvx, -⟩ := h
    exact hvx (I.indexed.names v hv x hx (hvparent.trans hparent.symm) (hvname.trans hname.symm))

/-- The tree and the entries, in one directory or in two -/
theorem moved_spec (I : Inv tb ctx S) {a : ArrayRef} {c : Value} {newName : Bytes}
    (hp : p ∈ S) (hq : q ∈ S)
    (hx : x ∈ S) (hroot : x ≠ rootEntry) (hparent : (ctx.ents x).parentId = (ctx.ents p).id)
    (h : Replaces ctx S x (ctx.ents q).id newName v) (ha : (ctx.ents p).children = some (.array a))
    (hc : (ctx.ents q).children = some c) :
    (if p ≠ q then moveNode (ctx.json.set (ctx.ents x).node .name (.string newName))
        (Function.update ctx.ents x { ctx.ents x with name := some newName }) x p q
        (ctx.ents x).node v
      else .ok (ctx.json.set (ctx.ents x).node .name (.string newName),
        Function.update ctx.ents x { ctx.ents x with name := some newName })) =
      .ok (renamedJson ctx p q x v a c newName, renamedEnts ctx p q x v newName) := by
  split_ifs with hpq
  · exact moveNode_spec I hp hq hpq hx hroot hparent (fun v' hv' => (h.mem v' hv').2) ha hc
  · obtain rfl := not_not.mp hpq
    have hnode : renamedNode ctx p p x v = (ctx.ents x).node := by
      cases v with
      | none => rfl
      | some v => exact if_pos rfl
    simp only [renamedJson, if_true, renamedEnts, hnode, ← hparent]

/-- What is left once it is known what is renamed, and what is replaced -/
theorem renameEntry_spec (hf : tb.Faithful) (I : Inv tb ctx S)
    (hflag : ctx.flags.filenameGuid = false) {oldParentId newParentId : ℕ}
    {oldName newName : CString} {c : Value} {oldId newId : Word w}
    (hp : p ∈ S ∧ p ≠ rootEntry ∧ (ctx.ents p).id = oldParentId ∧ (ctx.ents p).name ≠ none)
    (hq : q ∈ S ∧ q ≠ rootEntry ∧ (ctx.ents q).id = newParentId ∧ (ctx.ents q).name ≠ none)
    (hx : Named ctx S oldParentId oldName x) (hc : (ctx.ents q).children = some c)
    (h : Replaces ctx S x newParentId newName v) (hold : Designates ctx.assocMap oldId x)
    (hnew : ∀ v', v = some v' → Designates ctx.assocMap newId v')
    (hshrink : v ≠ none → ¬ctx.assocMap.Shrinks) (now : Timespec) :
    Yields Fault.Abort (renameEntry tb ctx now x p q v oldName newName
        ⟨hashAssoc tb oldParentId oldName, oldId, []⟩ ⟨hashAssoc tb newParentId newName, newId, []⟩)
        fun r =>
      r = (.error .perm, ctx) ∨
        ∃ a, Renames tb ctx S now oldParentId oldName newParentId newName p q x v a c r.2 := by
  obtain ⟨hpS, hproot, rfl, hpname⟩ := hp
  obtain ⟨hqS, hqroot, rfl, hqname⟩ := hq
  have hdiffer := h.differ I hx
  obtain ⟨hxN, hxparent, hxname⟩ := hx
  obtain ⟨hxS, hxroot, -⟩ := mem_named.mp hxN
  rw [renameEntry]
  obtain hrun | ⟨hutf8, hrun⟩ := updateName_spec I hxN hxname hdiffer
  · simp only [hrun, ok_bind]
    exact .inl rfl
  simp only [hrun, ok_bind]
  obtain ⟨p', hp', a, ha, hp'id, -⟩ := I.forest.folder hxS hxroot
  obtain rfl := I.forest.id_inj p' hp' p hpS (hp'id.trans hxparent)
  have hmove := moved_spec I hpS hqS hxS hxroot hxparent h ha hc
  simp only [hmove, ok_bind]
  refine (dropReplaced_spec hf I hflag h.mem hold hnew hshrink _).bind fun ctx₂ h₂ => ?_
  obtain ⟨idMap, guidMap, assocMap, rfl, Hi, Hg, Ha, hold'⟩ := h₂
  refine Yields.bind (refileRenamed_spec hf I hflag hxN h rfl rfl rfl Hi Hg Ha hold') fun ctx₃ h₃ =>
    ?_
  obtain ⟨assocMap, rfl, hindexed⟩ := h₃
  exact .inr ⟨a, ⟨hpS, hproot, rfl, hpname⟩, ⟨hqS, hqroot, rfl, hqname⟩, ⟨hxN, hxparent, hxname⟩, h,
    ha, hc, hutf8,
    fun h => hdiffer ⟨h.1, Subtype.ext h.2⟩, ⟨idMap, guidMap, assocMap, rfl⟩,
    ⟨hindexed.id, hindexed.guid, hindexed.assoc, hindexed.names⟩⟩

end Lookups

theorem bookmarkRename_spec (hf : tb.Faithful) (henv : env.WellFormed) (C : ctx.Consistent tb)
    (oldParentId : ℕ) (oldName : CString) (newParentId : ℕ) (newName : CString) (noreplace : Bool)
    (hshrink : ∀ ctx₁ S x v, Refreshed tb ctx env ctx₁ S → Named ctx₁ S oldParentId oldName x →
      Replaces ctx₁ S x newParentId newName (some v) → noreplace = false → ¬ctx₁.assocMap.Shrinks) :
    Yields Fault.Abort (bookmarkRename tb ctx env oldParentId oldName newParentId newName noreplace)
      fun r => (∃ err, r.1 = .error err ∧ r.2.Consistent tb) ∨
        (∃ S, Refreshed tb ctx env r.2 S ∧ oldParentId = newParentId ∧ oldName = newName) ∨
        ∃ ctx₁ S p q x v a c, Refreshed tb ctx env ctx₁ S ∧ (v ≠ none → noreplace = false) ∧
          Renames tb ctx₁ S env.now oldParentId oldName newParentId newName p q x v a c r.2 := by
  rw [bookmarkRename]
  by_cases hroot : oldParentId = rootId ∨ newParentId = rootId
  · rw [if_pos hroot]; exact .inl ⟨_, rfl, C⟩
  rw [if_neg hroot]
  push Not at hroot
  refine storeLoad_bind hf henv C (fun err ctx₁ C₁ => .inl ⟨_, rfl, C₁⟩) fun ctx₁ S R C₁ => ?_
  have I := R.inv
  -- the entry to be renamed
  obtain ⟨r, hrun, hlook⟩ := I.lookupId_spec oldParentId
  simp only [hrun, ok_bind]
  cases r with
  | none => exact .inl ⟨_, rfl, C₁⟩
  | some p =>
  obtain ⟨hp, rfl⟩ := (hlook p).mp rfl
  have hproot : p ≠ rootEntry := fun h => hroot.1 ((I.id_eq_root hp).mpr h)
  dsimp only
  by_cases hname : (ctx₁.ents p).name = none
  · rw [if_pos hname]; exact .inl ⟨_, rfl, C₁⟩
  rw [if_neg hname]
  have hflag := I.title_mode hp hproot hname
  by_cases hchildren : (ctx₁.ents p).children = none
  · rw [if_pos hchildren]; exact .inl ⟨_, rfl, C₁⟩
  rw [if_neg hchildren]
  obtain ⟨r, hrun, hr⟩ := I.lookupName_spec hflag (ctx₁.ents p).id oldName
  simp only [hrun, ok_bind]
  obtain ⟨x, oldId, rfl, hx, hxparent, hxname, hold⟩ | ⟨rfl, -⟩ := hr
  rotate_left
  · exact .inl ⟨_, rfl, C₁⟩
  simp only [Bool.true_eq_false, if_false]
  obtain ⟨hxS, hxroot, -⟩ := mem_named.mp hx
  -- the new parent
  obtain ⟨r, hrun, hlook⟩ := I.newParent_spec hp newParentId
  simp only [hrun, ok_bind]
  cases r with
  | none => exact .inl ⟨_, rfl, C₁⟩
  | some q =>
  obtain ⟨hq, rfl⟩ := (hlook q).mp rfl
  have hqroot : q ≠ rootEntry := fun h => hroot.2 ((I.id_eq_root hq).mpr h)
  dsimp only
  by_cases hqname : (ctx₁.ents q).name = none
  · rw [if_pos hqname]; exact .inl ⟨_, rfl, C₁⟩
  rw [if_neg hqname]
  cases hc : (ctx₁.ents q).children with
  | none => exact .inl ⟨_, rfl, C₁⟩
  | some c =>
  simp only [reduceCtorEq, if_false]
  -- the entry to be replaced
  obtain ⟨found, newId, v, hrun, hfree, hfound⟩ :=
    I.lookupReplaced_spec hflag (ctx₁.ents q).id newName
  simp only [hrun, ok_bind]
  cases hcheck : checkReplaced ctx₁ noreplace found x v with
  | some reply =>
    cases v with
    | none => cases found <;> simp [checkReplaced] at hcheck
    | some v =>
    obtain ⟨rfl, ⟨-, hvparent, hvname⟩, -⟩ := hfound v rfl
    obtain ⟨err, rfl⟩ | ⟨rfl, rfl⟩ := checkReplaced_reply hcheck
    · exact .inl ⟨_, rfl, C₁⟩
    · refine .inr (.inl ⟨S, R, hxparent.symm.trans hvparent, ?_⟩)
      exact Subtype.ext (Option.some_inj.mp (hxname.symm.trans hvname))
  | none =>
  have hreplaces : Replaces ctx₁ S x (ctx₁.ents q).id newName v := by
    obtain rfl | ⟨v, rfl, hvx, hkind, hleaf⟩ := leaf_of_checkReplaced hcheck
    · exact hfree rfl
    · obtain ⟨-, ⟨hv, hvparent, hvname⟩, -⟩ := hfound v rfl
      exact ⟨hv, hvparent, hvname, hvx, hkind, hleaf⟩
  have hnoreplace : v ≠ none → noreplace = false := fun hv => by
    obtain ⟨v, rfl⟩ := Option.ne_none_iff_exists'.mp hv
    exact noreplace_of_checkReplaced hcheck
  refine (renameEntry_spec hf I hflag ⟨hp, hproot, rfl, hname⟩ ⟨hq, hqroot, rfl, hqname⟩ ⟨hx,
    hxparent, hxname⟩ hc
    hreplaces hold (fun v' h => (hfound v' h).2.2) ?_ env.now).mono fun r hr => ?_
  · intro hv
    obtain ⟨v, rfl⟩ := Option.ne_none_iff_exists'.mp hv
    exact hshrink ctx₁ S x v R ⟨hx, hxparent, hxname⟩ hreplaces (hnoreplace hv)
  obtain rfl | ⟨a, hrenames⟩ := hr
  · exact .inl ⟨_, rfl, C₁⟩
  · exact .inr (.inr ⟨ctx₁, S, p, q, x, v, a, c, R, hnoreplace, hrenames⟩)

/-! ## The tree -/

theorem Below.congr {ents ents' : Entries} {x e : EntryRef} (B : Below ents' S x e)
    (h : ∀ y ∈ S, (ents' y).id = (ents y).id ∧ (ents' y).parentId = (ents y).parentId) :
    Below ents S x e := by
  induction B with
  | self => exact .self
  | child he hp hid _ ih => exact .child he hp (by rw [← (h _ hp).1, ← (h _ he).2, hid]) ih

theorem Forest.renameTimes {json : Json} {ents : Entries} {pend : EntryRef → List NodeRef}
    (F : Forest json ents S pend) (ctx : Ctx w) (hjson : ctx.json = json) (now : Timespec)
    (p q : EntryRef) (n : NodeRef) : Forest (renameTimes ctx now p q n) ents S pend := by
  subst hjson
  rw [Chromium.renameTimes]
  split_ifs
  · exact ((F.set _ _ (by decide)).set _ _ (by decide)).set _ _ (by decide)
  · exact (F.set _ _ (by decide)).set _ _ (by decide)
  · exact (F.set _ _ (by decide)).set _ _ (by decide)
  · exact F.set _ _ (by decide)

theorem renameTimes_array (ctx : Ctx w) (now : Timespec) (p q : EntryRef) (n : NodeRef) :
    (renameTimes ctx now p q n).array = ctx.json.array := by
  rw [renameTimes]
  split_ifs <;> rfl

/-- The tree after a rename, unless an entry of the same directory has been replaced. -/
theorem renamed_forest (I : Inv tb ctx S) {p q x : EntryRef} {v : Option EntryRef}
    {a b : ArrayRef} {newName : Bytes} (hp : p ∈ S) (hq : q ∈ S)
    (hx : x ∈ named ctx.ents S) (hxparent : (ctx.ents x).parentId = (ctx.ents p).id)
    (hv : Replaces ctx S x (ctx.ents q).id newName v)
    (ha : (ctx.ents p).children = some (.array a)) (hb : (ctx.ents q).children = some (.array b))
    (hsame : v ≠ none → p ≠ q) (hbelow : ¬Below ctx.ents S x q) :
    Forest (renamedJson ctx p q x v a (.array b) newName) (renamedEnts ctx p q x v newName)
      (remaining S v) nonePending := by
  obtain ⟨hxS, hroot, -⟩ := mem_named.mp hx
  have F := I.forest.rename hxS hroot newName
  have hself : Function.update ctx.ents x { ctx.ents x with name := some newName } x =
      { ctx.ents x with name := some newName } := Function.update_self ..
  have hother : ∀ y, y ≠ x → Function.update ctx.ents x { ctx.ents x with name := some newName } y =
      ctx.ents y := fun y hy => Function.update_of_ne hy ..
  have hkeep : ∀ y, (Function.update ctx.ents x { ctx.ents x with name := some newName } y).id =
      (ctx.ents y).id ∧ (Function.update ctx.ents x
        { ctx.ents x with name := some newName } y).parentId = (ctx.ents y).parentId ∧
      (Function.update ctx.ents x
        { ctx.ents x with name := some newName } y).children = (ctx.ents y).children ∧
      (Function.update ctx.ents x
        { ctx.ents x with name := some newName } y).node = (ctx.ents y).node := by
    intro y
    by_cases hy : y = x
    · subst hy; simp
    · simp [hy]
  by_cases hpq : p = q
  · obtain rfl : v = none := by
      by_contra h
      exact hsame h hpq
    subst hpq
    have : renamedEnts ctx p p x none newName =
        Function.update ctx.ents x { ctx.ents x with name := some newName } := by
      rw [renamedEnts, ← hxparent]
      rfl
    simp only [renamedJson, if_true, this]
    exact F
  have hbelow' : ¬Below (Function.update ctx.ents x { ctx.ents x with name := some newName })
    S x q :=
    fun h => hbelow (h.congr fun y _ => ⟨(hkeep y).1, (hkeep y).2.1⟩)
  have hab : a ≠ b := by
    rintro rfl
    exact hpq (I.forest.owner p hp q hq a ha hb)
  cases v with
  | none =>
    refine F.move (a := a) (b := b) hxS hroot hp hq hpq (by rw [(hkeep p).2.2.1, ha])
      (by rw [(hkeep q).2.2.1, hb]) (by rw [(hkeep x).2.1, (hkeep p).1, hxparent])
        hbelow' ?_ ?_ ?_ ?_ ?_
    · simp [renamedJson, hpq, Json.arrayAppend]
    · simp [renamedJson, hpq, Json.arrayAppend]
    · simp [renamedJson, hpq, Json.arrayAppend]
    · intro d
      simp only [renamedJson, if_neg hpq, Json.arrayAppend, Json.setElems_array, if_neg hab,
        Json.set_array, (hkeep x).2.2.2, Json.elems]
    · rw [hself, (hkeep q).1, Function.update_idem]
      rfl
  | some v =>
    obtain ⟨hvN, hvparent, hvname, hvx, hkind, hleaf⟩ := hv
    obtain ⟨hvS, hvroot, -⟩ := mem_named.mp hvN
    refine F.replace (v := v) (a := a) (b := b) hxS hroot hvS hvroot hp hq hpq
      (by rw [(hkeep p).2.2.1, ha]) (by rw [(hkeep q).2.2.1, hb])
      (by rw [(hkeep x).2.1, (hkeep p).1, hxparent]) (by rw [(hkeep v).2.1, (hkeep q).1, hvparent])
      (by rw [(hkeep v).2.2.1]; exact hleaf)
      (by rw [(hkeep v).2.2.1, (hkeep x).2.2.1]; exact hkind.mpr) hbelow' (fun n k => ?_) ?_ ?_
      (fun d => ?_) ?_
    · rw [(hkeep v).2.2.2, (hkeep x).2.2.2]
      simp only [renamedJson, if_neg hpq, Json.setElems_get, Json.get_update]
    · simp [renamedJson, hpq, Json.update]
    · simp [renamedJson, hpq, Json.update]
    · simp only [renamedJson, if_neg hpq, Json.setElems_array, (hkeep x).2.2.2, Json.update_array,
        Json.set_array]
    · rw [hself, (hkeep q).1, (hkeep v).2.2.2, Function.update_idem, renamedEnts, renamedNode,
        if_neg hpq]

theorem Renames.inv {ctx' : Ctx w} {now : Timespec} {oldParentId newParentId : ℕ}
    {oldName newName : Bytes} {p q x : EntryRef} {v : Option EntryRef} {a b : ArrayRef}
    (I : Inv tb ctx S) (R : Renames tb ctx S now oldParentId oldName newParentId newName p q x v a
      (.array b) ctx') (hsame : v ≠ none → p ≠ q) (hbelow : ¬Below ctx.ents S x q) :
    Inv tb ctx' (remaining S v) := by
  obtain ⟨⟨hp, hproot, rfl, hpname⟩, ⟨hq, hqroot, rfl, hqname⟩, ⟨hx, hxparent, -⟩, hv, ha, hb, -, -,
    ⟨idMap, guidMap, assocMap, rfl⟩, hindexed⟩ := R
  have hkeeps := renamedEnts_keeps ctx p q x v newName
  have hroot : renamedEnts ctx p q x v newName rootEntry = ctx.ents rootEntry :=
    renamedEnts_of_ne (mem_named.mp hx).2.1.symm
  refine ⟨(renamed_forest I hp hq hx hxparent hv ha hb hsame hbelow).renameTimes _ rfl _ _ _ _,
    hindexed, fun y hy => I.entry_lt y (remaining_subset S v hy), ⟨I.max_id.1, fun y hy => ?_⟩,
    fun h => ?_, fun d hd => ?_, fun y hy r hr hrid => ?_⟩
  · dsimp only
    rw [(hkeeps y).1]
    exact I.max_id.2 y (remaining_subset S v hy)
  · exact absurd (I.title_mode hp hproot hpname) (by simpa using h)
  · simp only [hroot] at hd
    refine Eq.trans ?_ (I.roots d hd)
    have hda : d ≠ a := by
      rintro rfl
      exact hproot (I.forest.owner p hp _ I.forest.root_mem _ ha hd)
    have hdb : d ≠ b := by
      rintro rfl
      exact hqroot (I.forest.owner q hq _ I.forest.root_mem _ hb hd)
    dsimp only
    rw [renameTimes_array]
    by_cases hpq : p = q
    · simp only [renamedJson, if_pos hpq]
      rfl
    · cases v with
      | none =>
        simp only [renamedJson, if_neg hpq, Json.arrayAppend, Json.setElems_array, if_neg hda,
          if_neg hdb, Json.set_array]
      | some v =>
        simp only [renamedJson, if_neg hpq, Json.setElems_array, if_neg hda, Json.update_array,
          Json.set_array]
  · dsimp only at hrid ⊢
    have hr := remaining_subset S v hr
    by_cases hrx : r = x
    · rw [hrx, renamedEnts_self]
      rintro ⟨⟩
    rw [(hkeeps r).1] at hrid
    rw [renamedEnts_of_ne hrx]
    obtain ⟨hy, hyroot, hyname⟩ := mem_named.mp hy
    by_cases hyx : y = x
    · rw [hyx, renamedEnts_self] at hrid
      rwa [I.forest.id_inj r hr q hq hrid]
    · dsimp only at hyname
      rw [renamedEnts_of_ne hyx] at hrid hyname
      exact I.shown y (mem_named.mpr ⟨remaining_subset S v hy, hyroot, hyname⟩) r hr hrid

end BookmarkFS.Chromium
