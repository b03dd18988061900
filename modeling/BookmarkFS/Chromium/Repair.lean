import BookmarkFS.Chromium.Changes

/-! # What repairing a name changes

`fsck_apply()` computes the hashcode of the new name with the identifier of the
entry in place of that of its parent. Where the two hashcodes are one, the entry
is filed as all others are.
-/
namespace BookmarkFS.Chromium
open Library Hopscotch

variable {w : WordSize} {tb : Tables w} {ctx : Ctx w} {env : Env} {S : Finset EntryRef}

/-- The name that is proposed to `fsck_apply()`, as far as it is looked at. -/
def proposed (name : CString) : Bytes := name.val.take (nameMax + 1)

/-- The store with a new name for the entry `e`. -/
def repaired (ctx : Ctx w) (e : EntryRef) (name : Bytes) (assocMap : Hashmap w EntryRef) : Ctx w :=
  { ctx with json := ctx.json.set (ctx.ents e).node .name (.string name)
             ents := Function.update ctx.ents e { ctx.ents e with name := some name }
             assocMap := assocMap, dirty := .data }

/-- The entry that `fsck_apply()` is to repair. -/
structure Hidden (ctx : Ctx w) (S : Finset EntryRef) (parentId id : ℕ) (e : EntryRef) : Prop where
  mem : e ∈ S
  id : (ctx.ents e).id = id
  parent : (ctx.ents e).parentId = parentId
  name : (ctx.ents e).name = none

/-- What `fsck_apply()` does when it calls no callback. -/
structure Repairs (tb : Tables w) (ctx : Ctx w) (S : Finset EntryRef) (parentId id : ℕ)
    (name : Bytes) (e : EntryRef) (ctx' : Ctx w) : Prop where
  entry : Hidden ctx S parentId id e
  valid : validateFilename name = none
  utf8 : validUtf8 name = true
  free : ∀ x ∈ named ctx.ents S, (ctx.ents x).parentId = parentId → (ctx.ents x).name ≠ some name
  change : ∃ assocMap, ctx' = repaired ctx e name assocMap
  indexed : Indexed tb ctx' S

theorem Hidden.ne_root {parentId id : ℕ} {e : EntryRef} (h : Hidden ctx S parentId id e)
    (I : Inv tb ctx S) : e ≠ rootEntry := by
  rintro rfl
  have := h.name
  rw [I.forest.root_name] at this
  cases this

/-- What `fsck_apply()` does after it has found an entry that has no name. -/
theorem fsckApply_start {parentId id : ℕ} (name : CString) {e : EntryRef}
    (hlook : lookupId tb ctx id = .ok (some e)) (hparent : (ctx.ents e).parentId = parentId)
    (hname : (ctx.ents e).name = none) :
    fsckApply tb ctx parentId id name = (do
      let name := proposed name
      if let some (result, extra) := validateFilenameFsck name then
        return (.ok (some ⟨result, id, extra, name⟩), ctx)
      let hashcode := hashAssoc tb id name
      if (← hashmapSearch (assocmapComp ctx.ents parentId name) ctx.assocMap hashcode).isSome then
        return (.ok (some ⟨.nameDuplicate, id, (ctx.ents e).id, name⟩), ctx)
      let some nameNode := jsonStringn name | return (.ok (some ⟨.nameInvalid, id, 256, name⟩), ctx)
      let json := ctx.json.set (ctx.ents e).node .name nameNode
      let ents := Function.update ctx.ents e { ctx.ents e with name := some name }
      let assocMap ← tb.insert (assocmapHash tb ents) ctx.assocMap hashcode e
      .ok (.ok none, { ctx with json := json, ents := ents, assocMap := assocMap, dirty := .data })) := by
  rw [fsckApply, hlook, ok_bind]
  simp only [hparent, hname, ne_eq, not_true_eq_false, if_false]
  rfl

/-- The branches of `fsck_apply()` on an entry that has no name. -/
theorem fsckApply_hidden (I : Inv tb ctx S) {parentId id : ℕ} (name : CString) {e : EntryRef}
    (h : Hidden ctx S parentId id e) :
    (∃ result extra, validateFilenameFsck (proposed name) = some (result, extra) ∧
      fsckApply tb ctx parentId id name = .ok (.ok (some ⟨result, id, extra, proposed name⟩), ctx)) ∨
    (validateFilename (proposed name) = none ∧
      ∃ found, hashmapSearch (assocmapComp ctx.ents parentId (proposed name)) ctx.assocMap
          (hashAssoc tb id (proposed name)) = .ok found ∧
        ((found ≠ none ∧ fsckApply tb ctx parentId id name =
            .ok (.ok (some ⟨.nameDuplicate, id, id, proposed name⟩), ctx)) ∨
          (found = none ∧ validUtf8 (proposed name) = false ∧ fsckApply tb ctx parentId id name =
            .ok (.ok (some ⟨.nameInvalid, id, 256, proposed name⟩), ctx)) ∨
          (found = none ∧ validUtf8 (proposed name) = true ∧ fsckApply tb ctx parentId id name =
            (tb.insert (assocmapHash tb (Function.update ctx.ents e
              { ctx.ents e with name := some (proposed name) })) ctx.assocMap
              (hashAssoc tb id (proposed name)) e >>= fun assocMap =>
                .ok (.ok none, repaired ctx e (proposed name) assocMap))))) := by
  obtain ⟨r, hlook, hr⟩ := I.lookupId_spec id
  obtain rfl := (hr e).mpr ⟨h.mem, h.id⟩
  rw [fsckApply_start name hlook h.parent h.name]
  dsimp only
  cases hvalid : validateFilenameFsck (proposed name) with
  | some q => exact .inl ⟨q.1, q.2, rfl, rfl⟩
  | none =>
    obtain ⟨found, hsearch, -⟩ := I.indexed.assoc.search
      (assocmapComp ctx.ents parentId (proposed name)) (hashAssoc tb id (proposed name))
    refine .inr ⟨by simpa [validateFilenameFsck] using hvalid, found, hsearch, ?_⟩
    simp only [hsearch, ok_bind]
    cases found with
    | some q => exact .inl ⟨by simp, by simp [h.id]⟩
    | none =>
      by_cases hutf8 : validUtf8 (proposed name) = true
      · simp only [jsonStringn, hutf8, if_true]
        exact .inr (.inr ⟨trivial, trivial, rfl⟩)
      · simp only [jsonStringn, hutf8]
        exact .inr (.inl ⟨trivial, by simp, rfl⟩)

/-- `fsck_apply()` on hashcodes that do not tell the entry from its parent. -/
theorem fsckApply_spec (hf : tb.Faithful) (I : Inv tb ctx S) {parentId id : ℕ} {name : CString}
    (hhash : ∀ e, Hidden ctx S parentId id e → validateFilename (proposed name) = none →
      validUtf8 (proposed name) = true →
        hashAssoc tb id (proposed name) = hashAssoc tb parentId (proposed name)) :
    Yields Fault.Abort (fsckApply tb ctx parentId id name) fun r => r.2 = ctx ∨
      (r.1 = .ok none ∧ ∃ e, Repairs tb ctx S parentId id (proposed name) e r.2) := by
  by_cases hhidden : ∃ e, Hidden ctx S parentId id e
  · obtain ⟨e, h⟩ := hhidden
    obtain ⟨result, extra, -, hrun⟩ | ⟨hvalid, found, hsearch, hcases⟩ :=
      fsckApply_hidden I name h
    · rw [hrun]; exact .inl rfl
    obtain ⟨-, hrun⟩ | ⟨-, -, hrun⟩ | ⟨rfl, hutf8, hrun⟩ := hcases
    · rw [hrun]; exact .inl rfl
    · rw [hrun]; exact .inl rfl
    have hhash := hhash e h hvalid hutf8
    obtain ⟨r, hlook, -, hfree⟩ := lookupAssoc_spec I.indexed.assoc parentId (proposed name)
    rw [lookupAssoc, ← hhash, hsearch] at hlook
    have hfree := hfree (Except.ok.inj hlook).symm
    rw [hrun, hhash, ← h.parent]
    refine (I.indexed.giveName hf h.mem (h.ne_root I) h.name (h.parent.symm ▸ hfree) rfl).bind
      fun assocMap H => .inr ⟨rfl, e, h.parent.symm ▸ h, hvalid, hutf8, h.parent.symm ▸ hfree,
        ⟨assocMap, rfl⟩, H.id, H.guid, H.assoc, H.names⟩
  · obtain ⟨r, hrun, hlook⟩ := I.lookupId_spec id
    rw [fsckApply, hrun, ok_bind]
    cases r with
    | none => exact .inl rfl
    | some e =>
      obtain ⟨he, hid⟩ := (hlook e).mp rfl
      dsimp only
      by_cases hparent : (ctx.ents e).parentId ≠ parentId
      · rw [if_pos hparent]; exact .inl rfl
      rw [if_neg hparent]
      by_cases hname : (ctx.ents e).name ≠ none
      · rw [if_pos hname]; exact .inl rfl
      exact absurd ⟨e, he, hid, not_not.mp hparent, not_not.mp hname⟩ hhidden

/-- The checks that come before a repair. -/
theorem checkDir_spec (hf : tb.Faithful) (henv : env.WellFormed) (C : ctx.Consistent tb)
    (parentId : ℕ) :
    Yields Fault.Abort (checkDir tb ctx env parentId) fun r =>
      (∃ err, r.1 = .error err ∧ r.2.Consistent tb) ∨ ∃ S p c, r.1 = .ok c ∧
        Refreshed tb ctx env r.2 S ∧ r.2.flags.filenameGuid = false ∧ p ∈ S ∧
        (r.2.ents p).id = parentId ∧ (r.2.ents p).name ≠ none ∧ (r.2.ents p).children = some c := by
  rw [checkDir]
  by_cases hmode : ctx.flags.filenameGuid = true
  · rw [if_pos hmode]; exact .inl ⟨_, rfl, C⟩
  rw [if_neg hmode]
  refine storeLoad_bind hf henv C (fun err ctx₁ C₁ => .inl ⟨_, rfl, C₁⟩) fun ctx₁ S R C₁ => ?_
  have I := R.inv
  obtain ⟨r, hrun, hlook⟩ := I.lookupId_spec parentId
  simp only [hrun, ok_bind]
  cases r with
  | none => exact .inl ⟨_, rfl, C₁⟩
  | some p =>
  obtain ⟨hp, hid⟩ := (hlook p).mp rfl
  dsimp only
  by_cases hname : (ctx₁.ents p).name = none
  · rw [if_pos hname]; exact .inl ⟨_, rfl, C₁⟩
  rw [if_neg hname]
  cases hc : (ctx₁.ents p).children with
  | none => exact .inl ⟨_, rfl, C₁⟩
  | some c =>
    have hflag : ctx₁.flags.filenameGuid = false := by rw [R.flags]; simpa using hmode
    exact .inr ⟨S, p, c, rfl, R, hflag, hp, hid, hname, hc⟩

theorem bookmarkCheckApply_spec (hf : tb.Faithful) (henv : env.WellFormed) (C : ctx.Consistent tb)
    {parentId id : ℕ} {name : CString}
    (hhash : ∀ ctx₁ S, Refreshed tb ctx env ctx₁ S → ∀ e, Hidden ctx₁ S parentId id e →
      validateFilename (proposed name) = none → validUtf8 (proposed name) = true →
        hashAssoc tb id (proposed name) = hashAssoc tb parentId (proposed name)) :
    Yields Fault.Abort (bookmarkCheckApply tb ctx env parentId id name) fun r =>
      r.2.Consistent tb ∨ ∃ ctx₁ S e, Refreshed tb ctx env ctx₁ S ∧
        ctx₁.flags.filenameGuid = false ∧
        (∀ p ∈ S, (ctx₁.ents p).id = parentId → (ctx₁.ents p).name ≠ none) ∧
        Repairs tb ctx₁ S parentId id (proposed name) e r.2 := by
  rw [bookmarkCheckApply]
  refine (checkDir_spec hf henv C parentId).bind ?_
  rintro ⟨dir, ctx₁⟩ (⟨err, rfl, C₁⟩ | ⟨S, p, c, rfl, R, hflag, hp, hid, hname, -⟩)
  · exact .inl C₁
  refine (fsckApply_spec hf R.inv fun e => hhash ctx₁ S R e).mono fun r hr => ?_
  obtain h | ⟨-, e, T⟩ := hr
  · rw [h]
    exact .inl ⟨fun _ => ⟨S, R.inv⟩, fun _ => R.loaded⟩
  · refine .inr ⟨ctx₁, S, e, R, hflag, fun q hq hqid => ?_, T⟩
    rwa [R.inv.forest.id_inj q hq p hp (hqid.trans hid.symm)]

theorem Repairs.inv {parentId id : ℕ} {name : Bytes} {e : EntryRef} {ctx' : Ctx w}
    (I : Inv tb ctx S) (hflag : ctx.flags.filenameGuid = false)
    (hshown : ∀ p ∈ S, (ctx.ents p).id = parentId → (ctx.ents p).name ≠ none)
    (R : Repairs tb ctx S parentId id name e ctx') : Inv tb ctx' S := by
  obtain ⟨h, -, -, -, ⟨assocMap, rfl⟩, hindexed⟩ := R
  have hroot := h.ne_root I
  have hkeep : ∀ y, (Function.update ctx.ents e { ctx.ents e with name := some name } y).id =
      (ctx.ents y).id ∧
      (Function.update ctx.ents e { ctx.ents e with name := some name } y).parentId =
      (ctx.ents y).parentId := by
    intro y
    by_cases hy : y = e
    · subst hy; simp
    · simp [hy]
  refine ⟨I.forest.rename h.mem hroot name, hindexed, I.entry_lt, ⟨I.max_id.1, fun x hx => ?_⟩,
    fun hmode => ?_, fun b hb => ?_, fun x hx p hp hpid => ?_⟩
  · exact (hkeep x).1.trans_le (I.max_id.2 x hx)
  · rw [show (repaired ctx e name assocMap).flags = ctx.flags from rfl, hflag] at hmode
    cases hmode
  · refine I.roots b ?_
    rwa [show (repaired ctx e name assocMap).ents rootEntry = ctx.ents rootEntry from
      Function.update_of_ne hroot.symm _ _] at hb
  · simp only [repaired] at hpid ⊢
    rw [(hkeep p).1, (hkeep x).2] at hpid
    by_cases hpe : p = e
    · rw [hpe, Function.update_self]
      exact nofun
    · rw [Function.update_of_ne hpe]
      by_cases hxe : x = e
      · exact hshown p hp (hpid.trans (hxe ▸ h.parent))
      · obtain ⟨hx, hxroot, hxname⟩ := mem_named.mp hx
        rw [show (repaired ctx e name assocMap).ents x = ctx.ents x from
          Function.update_of_ne hxe _ _] at hxname
        exact I.shown x (mem_named.mpr ⟨hx, hxroot, hxname⟩) p hp hpid

end BookmarkFS.Chromium
