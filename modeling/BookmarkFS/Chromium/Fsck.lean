import BookmarkFS.Chromium.Lookup

/-! # What repairing a name shows

`fsck_apply()` is to give a name to an entry that has none, unless the name is
taken. It looks for the name, and files the entry, under a hashcode that is
made of the identifier of the entry, where a lookup takes that of the directory.
-/
namespace BookmarkFS.Chromium
open Library Hopscotch

variable {w : WordSize} {tb : Tables w} {ctx ctx' : Ctx w} {env : Env} {S : Finset EntryRef}

def Ctx.Visible (ctx : Ctx w) (parentId : ℕ) (name : Bytes) (f : EntryRef) : Prop :=
  ctx.idMap.Contains f ∧ f ≠ rootEntry ∧ (ctx.ents f).parentId = parentId ∧
    (ctx.ents f).name = some name

theorem Inv.visible_iff (I : Inv tb ctx S) {parentId : ℕ} {name : Bytes} {f : EntryRef} :
    ctx.Visible parentId name f ↔ Named ctx S parentId name f := by
  rw [Ctx.Visible, ← I.entries, Named, mem_named]
  constructor
  · rintro ⟨hf, hroot, hparent, hname⟩
    exact ⟨⟨hf, hroot, by simp [hname]⟩, hparent, hname⟩
  · rintro ⟨⟨hf, hroot, -⟩, hparent, hname⟩
    exact ⟨hf, hroot, hparent, hname⟩

/-- The reply and the state that `fsck_apply()` should leave when it is to give the name `name` to
the child `e` of `p`. -/
structure FsckApplied (tb : Tables w) (ctx : Ctx w) (env : Env) (p e : EntryRef) (name : CString)
    (reply : Except Errno (Option FsckReport)) (ctx' : Ctx w) : Prop where
  valid : reply = .ok none → validateFilename name = none
  free : reply = .ok none → ∀ f, ¬ctx.Visible (ctx.ents p).id name f
  /-- The entry is found under its new name. -/
  shown : reply = .ok none → bookmarkLookup tb ctx' env (ctx.ents p).id (some name) =
    .ok (ctx'.attributes e, ctx')
  /-- No other lookup changes, -/
  other : reply = .ok none → ∀ id m, id ≠ (ctx.ents e).id → (id, m) ≠ ((ctx.ents p).id, some name) →
    Prod.fst <$> bookmarkLookup tb ctx' env id m = Prod.fst <$> bookmarkLookup tb ctx env id m
  /-- and nothing is found below the entry, as before. -/
  below : reply = .ok none → ∀ m, ∃ err err',
    bookmarkLookup tb ctx env (ctx.ents e).id (some m) = .ok (.error err, ctx) ∧
      bookmarkLookup tb ctx' env (ctx.ents e).id (some m) = .ok (.error err', ctx')
  taken : ∀ f, ctx.Visible (ctx.ents p).id name f → ctx' = ctx ∧
    ∃ report, reply = .ok (some report) ∧
    report.result = .nameDuplicate ∧ report.id = (ctx.ents e).id ∧ report.extra = (ctx.ents f).id

theorem proposed_valid {name : CString} :
    validateFilename (proposed name) = none ↔ validateFilename name = none := by
  by_cases hlen : name.val.length ≤ nameMax + 1
  · rw [proposed, List.take_of_length_le hlen]
  · have hne : ∀ s : Bytes, nameMax < s.length → validateFilename s ≠ none := by
      intro s hs
      have hdot : ¬(s = [dot] ∨ s = [dot, dot]) := by
        rintro (rfl | rfl) <;> revert hs <;> decide
      rw [validateFilename, if_neg hdot, if_pos (.inr hs)]
      simp
    exact iff_of_false (hne _ (by rw [proposed, List.length_take]; omega)) (hne _ (by omega))

theorem proposed_eq {name : CString} (h : validateFilename name = none) : proposed name = name := by
  refine List.take_of_length_le (not_lt.mp fun hlen => ?_)
  rw [validateFilename] at h
  split_ifs at h with _ hbad
  exact hbad (.inr (by omega))

section Repaired

variable (ctx) (e : EntryRef) (name : Bytes) (assocMap : Hashmap w EntryRef)

theorem repaired_keeps (x : EntryRef) :
    ((repaired ctx e name assocMap).ents x).id = (ctx.ents x).id ∧
    ((repaired ctx e name assocMap).ents x).parentId = (ctx.ents x).parentId ∧
    ((repaired ctx e name assocMap).ents x).children = (ctx.ents x).children ∧
    ((repaired ctx e name assocMap).ents x).node = (ctx.ents x).node := by
  by_cases hx : x = e
  · subst hx; simp [repaired]
  · simp [repaired, hx]

theorem repaired_name {x : EntryRef} (hx : x ≠ e) :
    ((repaired ctx e name assocMap).ents x).name = (ctx.ents x).name := by
  simp [repaired, hx]

theorem repaired_self : ((repaired ctx e name assocMap).ents e).name = some name := by
  simp [repaired]

theorem repaired_lookupId (id : ℕ) :
    lookupId tb (repaired ctx e name assocMap) id = lookupId tb ctx id := by
  have hcomp : idmapComp (repaired ctx e name assocMap).ents id = idmapComp ctx.ents id := by
    funext x
    rw [idmapComp, idmapComp, (repaired_keeps ctx e name assocMap x).1]
  rw [lookupId, lookupId, hcomp]
  rfl

theorem repaired_parseStats (x : EntryRef) (id : ℕ) :
    parseStats (repaired ctx e name assocMap).json ((repaired ctx e name assocMap).ents x) id =
      parseStats ctx.json (ctx.ents x) id := by
  obtain ⟨-, -, hchildren, hnode⟩ := repaired_keeps ctx e name assocMap x
  have hget : ∀ k, k ≠ .name → (repaired ctx e name assocMap).json.get (ctx.ents x).node k =
      ctx.json.get (ctx.ents x).node k := fun k hk => Json.get_set_of_key hk
  simp only [parseStats, hchildren, hnode, hget .dateLastUsed (by simp),
    hget .dateModified (by simp), hget .dateAdded (by simp), hget .url (by simp)]

end Repaired

section Shown

variable {parentId id : ℕ} {name : Bytes} {e : EntryRef}

theorem Repairs.directory_iff (R : Repairs tb ctx S parentId id name e ctx') {dir : ℕ}
    (hdir : dir ≠ id) (p : EntryRef) : Directory ctx' S dir p ↔ Directory ctx S dir p := by
  obtain ⟨assocMap, rfl⟩ := R.change
  obtain ⟨hid, -, hchildren, -⟩ := repaired_keeps ctx e name assocMap p
  rw [Directory, Directory, hid, hchildren]
  refine and_congr_right fun hp => and_congr_right fun hpid => ?_
  rw [repaired_name]
  rintro rfl
  exact hdir (hpid.symm.trans R.entry.id)

theorem Repairs.named_iff (R : Repairs tb ctx S parentId id name e ctx') {dir : ℕ} {m : Bytes}
    (hne : ¬(dir = parentId ∧ m = name)) (x : EntryRef) : Named ctx' S dir m x ↔
    Named ctx S dir m x := by
  obtain ⟨assocMap, rfl⟩ := R.change
  obtain ⟨-, hparent, -, -⟩ := repaired_keeps ctx e name assocMap x
  rw [Named, Named, mem_named, mem_named, hparent]
  by_cases hx : x = e
  · subst hx
    rw [repaired_self, R.entry.parent, R.entry.name]
    constructor
    · rintro ⟨-, rfl, hm⟩
      exact absurd ⟨rfl, (Option.some.inj hm).symm⟩ hne
    · rintro ⟨-, -, hm⟩
      cases hm
  · rw [repaired_name ctx e name assocMap hx]

theorem Repairs.answers_iff (R : Repairs tb ctx S parentId id name e ctx') {dir : ℕ} {m : Bytes}
    (hdir : dir ≠ id) (hne : ¬(dir = parentId ∧ m = name)) (r : Except Errno EntryRef) :
    Answers ctx' S dir m r ↔ Answers ctx S dir m r := by
  have hdirectory := R.directory_iff hdir
  have hnamed := R.named_iff hne
  cases r with
  | ok x => simp only [Answers, hdirectory, hnamed]
  | error err =>
    simp only [Answers, hdirectory, hnamed]
    obtain ⟨assocMap, rfl⟩ := R.change
    have hkeep : ∀ p, ((repaired ctx e name assocMap).ents p).id = dir →
        ((repaired ctx e name assocMap).ents p).name = (ctx.ents p).name := fun p hp =>
      repaired_name ctx e name assocMap fun h =>
        hdir (hp.symm.trans ((repaired_keeps ctx e name assocMap p).1.trans (h ▸ R.entry.id)))
    refine or_congr (and_congr_right fun _ => forall₂_congr fun p hp => ?_)
      (or_congr (and_congr_right fun _ => exists_congr fun p => and_congr_right fun hp => ?_)
        Iff.rfl)
    · rw [(repaired_keeps ctx e name assocMap p).1] at *
      exact forall_congr' fun hid => by
        rw [hkeep p ((repaired_keeps ctx e name assocMap p).1.trans hid)]
    · rw [(repaired_keeps ctx e name assocMap p).1, (repaired_keeps ctx e name assocMap p).2.2.1]
      exact and_congr_right fun hid => by
        rw [hkeep p ((repaired_keeps ctx e name assocMap p).1.trans hid)]

theorem Repairs.attributes_eq (R : Repairs tb ctx S parentId id name e ctx') (x : EntryRef) :
    ctx'.attributes x = ctx.attributes x := by
  obtain ⟨assocMap, rfl⟩ := R.change
  rw [Ctx.attributes, Ctx.attributes, (repaired_keeps ctx e name assocMap x).1, repaired_parseStats]

end Shown

theorem bookmarkLookup_self (hload : storeLoad tb ctx env = .ok (none, ctx)) {id : ℕ}
    {r : Option EntryRef} (hrun : lookupId tb ctx id = .ok r) :
    bookmarkLookup tb ctx env id none = .ok (match r with
      | none => .error .stale
      | some e => if (ctx.ents e).name = none then .error .stale else
        match parseStats ctx.json (ctx.ents e) id with
        | none => .error .io
        | some stat => .ok stat, ctx) := by
  simp only [bookmarkLookup, lookupEntry, hload, hrun, ok_bind]
  cases r with
  | none => rfl
  | some e =>
    dsimp only
    by_cases hname : (ctx.ents e).name = none
    · rw [if_pos hname, if_pos hname]; rfl
    · rw [if_neg hname, if_neg hname]; rfl

section Applied

variable {p e : EntryRef} {name : CString}

/-- What a repair shows, if the entry is filed as all others are. -/
theorem Repairs.applied (R : Repairs tb ctx S (ctx.ents p).id (ctx.ents e).id name e ctx')
    (I : Inv tb ctx S) (hflag : ctx.flags.filenameGuid = false)
    (hload : storeLoad tb ctx env = .ok (none, ctx)) (hwatching : ctx.watching = true)
    (hp : Directory ctx S (ctx.ents p).id p) : FsckApplied tb ctx env p e name (.ok none) ctx' := by
  have hshown : ∀ q ∈ S, (ctx.ents q).id = (ctx.ents p).id → (ctx.ents q).name ≠ none :=
    fun q hq hid => I.forest.id_inj q hq p hp.1 hid ▸ hp.2.2.1
  have I' := R.inv I hflag hshown
  have hflag' : ctx'.flags.filenameGuid = false := by
    obtain ⟨assocMap, rfl⟩ := R.change
    exact hflag
  have hload' : storeLoad tb ctx' env = .ok (none, ctx') := by
    obtain ⟨assocMap, rfl⟩ := R.change
    simp [storeLoad, repaired, hwatching]
  -- the entry is no folder above its own directory
  have hpe : (ctx.ents p).id ≠ (ctx.ents e).id := fun h =>
    hp.2.2.1 (I.forest.id_inj p hp.1 e R.entry.mem h ▸ R.entry.name)
  have hp' := (R.directory_iff hpe p).mpr hp
  have hfree : ∀ f, ¬ctx.Visible (ctx.ents p).id name f := fun f hf =>
    R.free f (I.visible_iff.mp hf).1 hf.2.2.1 hf.2.2.2
  refine ⟨fun _ => R.valid, fun _ => hfree, fun _ => ?_, fun _ id m hid hne => ?_, fun _ m => ?_,
    fun f hf => absurd hf (hfree f)⟩
  · have hnamed : Named ctx' S (ctx.ents p).id name e := by
      obtain ⟨assocMap, rfl⟩ := R.change
      refine ⟨mem_named.mpr ⟨R.entry.mem, R.entry.ne_root I, ?_⟩, ?_, repaired_self ..⟩
      · rw [repaired_self]; simp
      · rw [(repaired_keeps ctx e name assocMap e).2.1, R.entry.parent]
    have hanswer : Answers ctx' S (ctx.ents p).id name (.ok e) := ⟨⟨p, hp'⟩, hnamed⟩
    exact bookmarkLookup_eq I' hflag' hload' hanswer
  · cases m with
    | none =>
      obtain ⟨r, hrun, hlook⟩ := I.lookupId_spec id
      have hrun' : lookupId tb ctx' id = .ok r := by
        obtain ⟨assocMap, rfl⟩ := R.change
        rw [← hrun, repaired_lookupId]
      rw [bookmarkLookup_self hload hrun, bookmarkLookup_self hload' hrun']
      cases r with
      | none => rfl
      | some x =>
        obtain ⟨-, hxid⟩ := (hlook x).mp rfl
        obtain ⟨assocMap, rfl⟩ := R.change
        have hxe : x ≠ e := fun h => hid (hxid.symm.trans (h ▸ rfl))
        simp only [repaired_name ctx e name assocMap hxe, repaired_parseStats]
        rfl
    | some m =>
      have hanswers := R.answers_iff hid (m := m) fun h => hne (by rw [h.1, Subtype.ext h.2])
      obtain ⟨r, -, hr⟩ := lookupEntry_spec I hflag id m
      rw [bookmarkLookup_eq I hflag hload hr, bookmarkLookup_eq I' hflag' hload'
        ((hanswers r).mpr hr)]
      cases r with
      | error err => rfl
      | ok x => exact congrArg Except.ok (R.attributes_eq x)
  · have hstale : Answers ctx S (ctx.ents e).id m (.error .stale) :=
      .inl ⟨rfl, fun q hq hid => I.forest.id_inj q hq e R.entry.mem hid ▸ R.entry.name⟩
    obtain ⟨r, -, hr⟩ := lookupEntry_spec I' hflag' (ctx.ents e).id m
    cases r with
    | error err => exact ⟨_, err, bookmarkLookup_eq I hflag hload hstale,
        bookmarkLookup_eq I' hflag' hload' hr⟩
    | ok x =>
      have hx := (R.named_iff (fun h => hpe h.1.symm) x).mp hr.2
      exact absurd R.entry.name (I.shown x hx.1 e R.entry.mem hx.2.1.symm)

theorem validateFilenameFsck_ne_duplicate {str : Bytes} {result : FsckResult} {extra : ℕ}
    (h : validateFilenameFsck str = some (result, extra)) : result ≠ .nameDuplicate := by
  obtain ⟨err, -, herr⟩ := Option.map_eq_some_iff.mp h
  cases err <;> simp only [Prod.mk.injEq] at herr <;> rw [← herr.1] <;> simp

/-- An entry that is filed under another hashcode than its name has is not found. -/
theorem lookup_misfiled (env : Env) (I : Inv tb ctx S) (hflag : ctx.flags.filenameGuid = false)
    (hwatching : ctx.watching = true) (hp : Directory ctx S (ctx.ents p).id p)
    (hname : (ctx.ents e).name = none) (hfree : ∀ f, ¬ctx.Visible (ctx.ents p).id name f)
    {assocMap : Hashmap w EntryRef} {hashOf : EntryRef → Word w}
    (H : Holds assocMap (insert e (named ctx.ents S)) hashOf)
    (hhash : hashOf e ≠ hashAssoc tb (ctx.ents p).id name) :
    bookmarkLookup tb (repaired ctx e name assocMap) env (ctx.ents p).id (some name) =
      .ok (.error .noent, repaired ctx e name assocMap) := by
  obtain ⟨hpS, -, hpname, hpdir⟩ := hp
  have hload : storeLoad tb (repaired ctx e name assocMap) env =
      .ok (none, repaired ctx e name assocMap) := by
    simp [storeLoad, repaired, hwatching]
  have hlookup : lookupId tb (repaired ctx e name assocMap) (ctx.ents p).id = .ok (some p) := by
    obtain ⟨r, hrun, hlook⟩ := I.lookupId_spec (ctx.ents p).id
    obtain rfl := (hlook p).mpr ⟨hpS, rfl⟩
    rw [repaired_lookupId, hrun]
  have hpe : p ≠ e := fun h => hpname (h ▸ hname)
  obtain ⟨r, hrun, hfound, -⟩ := H.search
    (assocmapComp (repaired ctx e name assocMap).ents (ctx.ents p).id name)
    (hashAssoc tb (ctx.ents p).id name)
  obtain rfl : r = none := by
    cases r with
    | none => rfl
    | some y =>
      obtain ⟨hy, hcomp, hfiled, -⟩ := hfound y.1 y.2 rfl
      have hye : y.1 ≠ e := fun h => hhash (h ▸ hfiled)
      simp only [assocmapComp, Bool.and_eq_true, decide_eq_true_eq,
        repaired_name ctx e name assocMap hye,
        (repaired_keeps ctx e name assocMap y.1).2.1] at hcomp
      have hyS := (Finset.mem_insert.mp hy).resolve_left hye
      exact absurd (I.visible_iff.mpr ⟨hyS, hcomp.1.symm, hcomp.2.symm⟩) (hfree y.1)
  have hmode : (repaired ctx e name assocMap).flags.filenameGuid = false := hflag
  have hassoc : lookupAssoc tb (repaired ctx e name assocMap) (ctx.ents p).id name = .ok none :=
    hrun
  have hpname' := repaired_name ctx e name assocMap hpe ▸ hpname
  have hpdir' := (repaired_keeps ctx e name assocMap p).2.2.1 ▸ hpdir
  simp only [bookmarkLookup, lookupEntry, lookupName, hload, hlookup, hmode, hassoc, ok_bind,
    if_neg hpname', if_neg hpdir', Bool.false_eq_true, if_false]

/-- Where the name is not applied to a child that has it already, no child has it. -/
theorem FsckApplied.not_visible {reply : Except Errno (Option FsckReport)} (I : Inv tb ctx S)
    (happlied : FsckApplied tb ctx env p e name reply ctx')
    (he : Hidden ctx S (ctx.ents p).id (ctx.ents e).id e)
    (hrun : fsckApply tb ctx (ctx.ents p).id (ctx.ents e).id name = .ok (reply, ctx')) :
    ∀ f, ¬ctx.Visible (ctx.ents p).id name f := by
  intro f hf
  obtain ⟨-, report, rfl, hresult, -, hextra⟩ := happlied.taken f hf
  obtain ⟨result, extra, hinvalid, hrun'⟩ | ⟨-, found, -, hcases⟩ := fsckApply_hidden I name he
  · obtain rfl : _ = report := by simpa using congrArg (Prod.fst <$> ·) (hrun'.symm.trans hrun)
    exact validateFilenameFsck_ne_duplicate hinvalid hresult
  obtain ⟨-, hrun'⟩ | ⟨-, -, hrun'⟩ | ⟨-, -, hrun'⟩ := hcases
  · -- the report is about the entry itself
    obtain rfl : _ = report := by simpa using congrArg (Prod.fst <$> ·) (hrun'.symm.trans hrun)
    have hname := he.name
    rw [I.forest.id_inj e he.mem f ((I.entries f).mpr hf.1) hextra, hf.2.2.2] at hname
    cases hname
  · obtain rfl : _ = report := by simpa using congrArg (Prod.fst <$> ·) (hrun'.symm.trans hrun)
    cases hresult
  · obtain ⟨assocMap, -, h⟩ := bind_eq_ok.mp (hrun'.symm.trans hrun)
    cases h

/-- An accepted name that is not taken is given, and then found only under the right hashcode. -/
theorem FsckApplied.hash {reply : Except Errno (Option FsckReport)} (hf : tb.Faithful)
    (I : Inv tb ctx S) (hflag : ctx.flags.filenameGuid = false) (hwatching : ctx.watching = true)
    (happlied : FsckApplied tb ctx env p e name reply ctx') (hp : Directory ctx S (ctx.ents p).id p)
    (he : Hidden ctx S (ctx.ents p).id (ctx.ents e).id e)
    (hfree : ∀ f, ¬ctx.Visible (ctx.ents p).id name f)
    (hrun : fsckApply tb ctx (ctx.ents p).id (ctx.ents e).id name = .ok (reply, ctx'))
    (hvalid : validateFilename name = none) (hutf8 : validUtf8 name = true) :
    hashAssoc tb (ctx.ents e).id name = hashAssoc tb (ctx.ents p).id name := by
  by_contra hhash
  have hcases := fsckApply_hidden I name he
  rw [proposed_eq hvalid] at hcases
  obtain ⟨result, extra, hinvalid, -⟩ | ⟨-, found, hsearch, hcases⟩ := hcases
  · rw [validateFilenameFsck, hvalid] at hinvalid
    cases hinvalid
  obtain ⟨hfound, -⟩ | ⟨-, hbad, -⟩ | ⟨-, -, hrun'⟩ := hcases
  · -- whatever is found is a child of that name
    obtain ⟨r, hrun, hr, -⟩ := I.indexed.assoc.search
      (assocmapComp ctx.ents (ctx.ents p).id name) (hashAssoc tb (ctx.ents e).id name)
    obtain rfl : r = found := Except.ok.inj (hrun.symm.trans hsearch)
    obtain ⟨y, hy⟩ := Option.ne_none_iff_exists'.mp hfound
    obtain ⟨hyS, hcomp, -, -⟩ := hr y.1 y.2 hy
    simp only [assocmapComp, Bool.and_eq_true, decide_eq_true_eq] at hcomp
    exact hfree y.1 (I.visible_iff.mpr ⟨hyS, hcomp.1.symm, hcomp.2.symm⟩)
  · rw [hutf8] at hbad
    cases hbad
  obtain ⟨assocMap, hinsert, hdone⟩ := bind_eq_ok.mp (hrun'.symm.trans hrun)
  obtain ⟨rfl, rfl⟩ := Prod.mk.inj (Except.ok.inj hdone)
  have hne : ∀ x ∈ named ctx.ents S, x ≠ e := fun x hx h => (mem_named.mp hx).2.2 (h ▸ he.name)
  have H := (hf.yields_insert (Function.update (assocmapHash tb ctx.ents) e
    (hashAssoc tb (ctx.ents e).id name)) (I.indexed.assoc.congr_hash fun x hx => by
      rw [Function.update_of_ne (hne x hx)]) (Function.update_self ..) (fun h => hne e h rfl)
    fun x hx => by
      rw [Function.update_of_ne (hne x hx), assocmapHash, assocmapHash,
        Function.update_of_ne (hne x hx)]).of_ok hinsert
  have hmisfiled := lookup_misfiled env I hflag hwatching hp he.name hfree H
    (by rwa [Function.update_self])
  have hshown := happlied.shown rfl
  rw [hmisfiled] at hshown
  have := (Prod.mk.inj (Except.ok.inj hshown)).1
  rw [Ctx.attributes] at this
  split at this <;> cases this

/-- What is applied under the right hashcode changes the state. -/
theorem repairs_of_applied (hf : tb.Faithful) (I : Inv tb ctx S)
    (he : Hidden ctx S (ctx.ents p).id (ctx.ents e).id e)
    (hhash : validateFilename name = none → validUtf8 name = true →
      hashAssoc tb (ctx.ents e).id name = hashAssoc tb (ctx.ents p).id name)
    (hrun : fsckApply tb ctx (ctx.ents p).id (ctx.ents e).id name = .ok (.ok none, ctx')) :
    Repairs tb ctx S (ctx.ents p).id (ctx.ents e).id name e ctx' := by
  have hhash' : ∀ x, Hidden ctx S (ctx.ents p).id (ctx.ents e).id x →
      validateFilename (proposed name) = none → validUtf8 (proposed name) = true →
      hashAssoc tb (ctx.ents e).id (proposed name) =
        hashAssoc tb (ctx.ents p).id (proposed name) := fun x _ hvalid hutf8 => by
    rw [proposed_eq (proposed_valid.mp hvalid)] at hutf8 ⊢
    exact hhash (proposed_valid.mp hvalid) hutf8
  obtain hsame | ⟨-, x, R⟩ := (fsckApply_spec hf I hhash').of_ok hrun
  · -- the entry has got its name
    exfalso
    obtain ⟨result, extra, -, hrun'⟩ | ⟨-, found, -, hcases⟩ := fsckApply_hidden I name he
    · cases hrun'.symm.trans hrun
    obtain ⟨-, hrun'⟩ | ⟨-, -, hrun'⟩ | ⟨-, -, hrun'⟩ := hcases
    · cases hrun'.symm.trans hrun
    · cases hrun'.symm.trans hrun
    obtain ⟨assocMap, -, hdone⟩ := bind_eq_ok.mp (hrun'.symm.trans hrun)
    have hctx : repaired ctx e (proposed name) assocMap = ctx :=
      (Prod.mk.inj (Except.ok.inj hdone)).2.trans hsame
    have := repaired_self ctx e (proposed name) assocMap
    rw [hctx, he.name] at this
    cases this
  · obtain rfl := I.forest.id_inj x R.entry.mem e he.mem R.entry.id
    rwa [proposed_eq (proposed_valid.mp R.valid)] at R

/-- `fsck_apply()` does what it should if and only if the name is not taken, and the hashcode that
it computes is that of the name in the directory, unless it rejects the name anyway. -/
theorem fsckApply_applied_iff (digest : Bytes → Word w) {reply : Except Errno (Option FsckReport)}
    (hreach : (backend (Tables.real digest)).Reachable ctx) (henv : env.WellFormed)
    (hflag : ctx.flags.filenameGuid = false)
    (hload : storeLoad (Tables.real digest) ctx env = .ok (none, ctx))
    (hp : ctx.idMap.Contains p) (hpname : (ctx.ents p).name ≠ none)
    (hpdir : (ctx.ents p).children ≠ none) (he : ctx.idMap.Contains e)
    (hparent : (ctx.ents e).parentId = (ctx.ents p).id) (hname : (ctx.ents e).name = none)
    (hrun : fsckApply (Tables.real digest) ctx (ctx.ents p).id (ctx.ents e).id name =
      .ok (reply, ctx')) :
    FsckApplied (Tables.real digest) ctx env p e name reply ctx' ↔
      (∀ f, ¬ctx.Visible (ctx.ents p).id name f) ∧
      (validateFilename name = none → validUtf8 name = true →
        hashAssoc (Tables.real digest) (ctx.ents e).id name =
          hashAssoc (Tables.real digest) (ctx.ents p).id name) := by
  have hf := Tables.real_faithful digest
  obtain ⟨-, -, hloaded⟩ :=
    (storeLoad_spec hf henv (hreach.holds (backend_consistent hf))).of_ok hload
  obtain ⟨-, hwatching, S, I⟩ := hloaded rfl
  have hpdirectory : Directory ctx S (ctx.ents p).id p :=
    ⟨(I.entries p).mpr hp, rfl, hpname, hpdir⟩
  have hhidden : Hidden ctx S (ctx.ents p).id (ctx.ents e).id e :=
    ⟨(I.entries e).mpr he, rfl, hparent, hname⟩
  constructor
  · intro happlied
    have hfree := happlied.not_visible I hhidden hrun
    exact ⟨hfree, happlied.hash hf I hflag hwatching hpdirectory hhidden hfree hrun⟩
  · rintro ⟨hfree, hhash⟩
    by_cases hreply : reply = .ok none
    · subst hreply
      exact (repairs_of_applied hf I hhidden hhash hrun).applied I hflag hload hwatching hpdirectory
    · exact ⟨fun h => absurd h hreply, fun h => absurd h hreply, fun h => absurd h hreply,
        fun h => absurd h hreply, fun h => absurd h hreply, fun f hf => absurd hf (hfree f)⟩

end Applied

/-- A folder with two bookmarks of one name, the second of which is hidden. -/
def twoOfAName : Env :=
  .written (.written [writtenFolder 1 [65] 0, writtenUrl 2 [97] [], writtenUrl 3 [97] []] [[1, 2]])
    [0]

/-- Where all hashcodes are one, the hidden bookmark gets its new name. -/
theorem fsckApply_applied_colliding : ∃ ctx ctx', (backend colliding).Reachable ctx ∧
    fsckApply colliding ctx 1 3 nameB = .ok (.ok none, ctx') ∧
    FsckApplied colliding ctx twoOfAName 1 3 nameB (.ok none) ctx' := by
  have h : Yields (fun _ => False)
      ((Call.lookup rootId none).run colliding (.created ⟨false, false, false⟩)
        twoOfAName) fun ctx =>
        ctx.watching = true ∧ ctx.loaded = true ∧ ctx.flags.filenameGuid = false ∧
        (1 ∈ ctx.idMap.visited ∧ 3 ∈ ctx.idMap.visited) ∧
        ((ctx.ents 1).id = 1 ∧ (ctx.ents 1).name ≠ none ∧ (ctx.ents 1).children ≠ none) ∧
        ((ctx.ents 3).id = 3 ∧ (ctx.ents 3).parentId = 1 ∧ (ctx.ents 3).name = none) ∧
        (∀ f ∈ ctx.idMap.visited, (ctx.ents f).name ≠ some nameB) ∧
        Yields (fun _ => False) (fsckApply colliding ctx 1 3 nameB) fun r => r.1 = .ok none := by
    decide +kernel
  obtain ⟨ctx, hload, hwatching, hloaded, hflag, ⟨h1, h3⟩, ⟨hid1, hname1, hdir⟩,
    ⟨hid3, hparent, hname3⟩, hfree, h⟩ := h.exists_ok
  obtain ⟨⟨_, ctx'⟩, hrun, rfl⟩ := h.exists_ok
  have hwf : twoOfAName.WellFormed := Env.written_wellFormed (by decide +kernel)
  have hreach := reachable_created hwf hload
  have happlied := fsckApply_applied_iff (fun _ => 0) (p := 1) (e := 3) hreach hwf hflag
    (storeLoad_loaded hwatching hloaded rfl) ((Hashmap.mem_visited_iff _ _).mp h1) hname1 hdir
    ((Hashmap.mem_visited_iff _ _).mp h3) (by rw [hparent, hid1]) hname3
      (by rw [hid1, hid3]; exact hrun)
  refine ⟨ctx, ctx', hreach, hrun, happlied.mpr ⟨fun f hf => ?_, fun _ _ => rfl⟩⟩
  exact hfree f ((Hashmap.mem_visited_iff _ f).mpr hf.1) hf.2.2.2

/-- A repair that succeeds does not make the bookmark visible. -/
theorem repaired_not_found : ∃ ctx ctx' : Ctx .w64,
    storeLoad polynomial (.created ⟨false, false, false⟩) twoOfAName = .ok (none, ctx) ∧
    bookmarkCheckApply polynomial ctx twoOfAName 1 3 nameB = .ok (.ok none, ctx') ∧
    Prod.fst <$> bookmarkLookup polynomial ctx' twoOfAName 1 (some nameB) =
    .ok (.error .noent) := by
  have h : Yields (fun _ => False)
    (storeLoad polynomial (.created ⟨false, false, false⟩) twoOfAName)
      fun r => r.1 = none ∧ Yields (fun _ => False)
        (bookmarkCheckApply polynomial r.2 twoOfAName 1 3 nameB) fun r' => r'.1 = .ok none ∧
          Prod.fst <$> bookmarkLookup polynomial r'.2 twoOfAName 1 (some nameB) =
            .ok (.error .noent) := by
    decide +kernel
  obtain ⟨⟨_, ctx⟩, hload, rfl, h⟩ := h.exists_ok
  obtain ⟨⟨_, ctx'⟩, hrun, rfl, hlookup⟩ := h.exists_ok
  exact ⟨ctx, ctx', hload, hrun, hlookup⟩

end BookmarkFS.Chromium
