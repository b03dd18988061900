import BookmarkFS.Chromium.Calls

/-! # Where entries are filed

A repair may file an entry under a hashcode that is not that of its fields, and a
table that grows or shrinks files all entries anew. Whatever a call does to the
association map, an entry that it neither renames nor moves stays where it is, or
comes to be filed under the hashcode that a lookup uses.
-/
namespace BookmarkFS.Chromium
open Library Hopscotch

variable {w : WordSize} {tb : Tables w} {digest : Bytes → Word w} {ctx ctx' : Ctx w} {env : Env}
  {S N : Finset EntryRef} {filed : EntryRef → Word w}

/-- In title mode the maps have the entries `S`, of which `N` are filed by their names, under
whatever hashcodes. -/
structure Filing (tb : Tables w) (ctx : Ctx w) (S N : Finset EntryRef) (filed : EntryRef → Word w) :
    Prop where
  title : ctx.flags.filenameGuid = false
  id : Holds ctx.idMap S (idmapHash tb ctx.ents)
  assoc : Holds ctx.assocMap N filed
  mem : ∀ e ∈ N, e ∈ S
  name : ∀ e ∈ N, (ctx.ents e).name ≠ none
  root : rootEntry ∈ S ∧ rootEntry ∉ N ∧ (ctx.ents rootEntry).name ≠ none
  id_inj : ∀ e ∈ S, ∀ e' ∈ S, (ctx.ents e).id = (ctx.ents e').id → e = e'
  entry_lt : ∀ e ∈ S, e < ctx.nextEntry
  max_id : ∀ e ∈ S, (ctx.ents e).id ≤ ctx.maxId

/-- An entry is filed as it was, or under the hashcode of its fields. -/
def Refiled (tb : Tables w) (ents : Entries) (filed filed' : EntryRef → Word w)
    (e : EntryRef) : Prop :=
  filed' e = filed e ∨ filed' e = assocmapHash tb ents e

/-- What a call does to the maps. Entries that keep their directories and names are refiled, if they
are there before and afterwards. -/
def Filing.Next (tb : Tables w) (ctx : Ctx w) (S N : Finset EntryRef) (filed : EntryRef → Word w)
    (ctx' : Ctx w) : Prop :=
  ∃ S' N' filed', Filing tb ctx' S' N' filed' ∧ ∀ e ∈ S, e ∈ S' →
    (ctx'.ents e).parentId = (ctx.ents e).parentId → (ctx'.ents e).name = (ctx.ents e).name →
    (e ∈ N' ↔ e ∈ N) ∧ (e ∈ N → Refiled tb ctx'.ents filed filed' e)

/-- The checks that `bookmark_rename()` makes of a directory -/
def Enterable (tb : Tables w) (ctx : Ctx w) (id : ℕ) : Prop :=
  id ≠ rootId ∧ ∃ p, lookupId tb ctx id = .ok (some p) ∧ (ctx.ents p).name ≠ none ∧
    (ctx.ents p).children ≠ none

/-- A rename that gets past its checks and replaces an entry does not shrink the association
map. -/
def Call.Steady (tb : Tables w) (ctx : Ctx w) : Call → Prop
  | .rename oldParentId oldName newParentId newName noreplace => ∀ oldLctx old newLctx new,
    Enterable tb ctx oldParentId → Enterable tb ctx newParentId →
      lookupName tb ctx oldParentId oldName = .ok (true, oldLctx, some old) →
      lookupName tb ctx newParentId newName = .ok (true, newLctx, some new) →
      checkReplaced ctx noreplace true old (some new) = none → ¬ctx.assocMap.Shrinks
  | _ => True

theorem assocmapHash_congr {ents ents' : Entries} {e : EntryRef}
    (hparent : (ents' e).parentId = (ents e).parentId) (hname : (ents' e).name = (ents e).name) :
    assocmapHash tb ents' e = assocmapHash tb ents e := by
  rw [assocmapHash, assocmapHash, hparent, hname]

/-- The maps of identifiers and names, and the identifiers, are the same in both. -/
structure Ctx.SameMaps (ctx ctx' : Ctx w) : Prop where
  flags : ctx'.flags = ctx.flags
  id : ctx'.idMap = ctx.idMap
  assoc : ctx'.assocMap = ctx.assocMap
  next : ctx'.nextEntry = ctx.nextEntry
  max : ctx.maxId ≤ ctx'.maxId
  ents : ∀ e, (ctx'.ents e).id = (ctx.ents e).id

theorem Ctx.SameMaps.rfl : ctx.SameMaps ctx :=
    ⟨.refl _, .refl _, .refl _, .refl _, le_rfl, fun _ => .refl _⟩

namespace Filing

theorem congr (F : Filing tb ctx S N filed) (h : ctx.SameMaps ctx')
    (hname : ∀ e, (ctx.ents e).name ≠ none → (ctx'.ents e).name ≠ none) :
    Filing tb ctx' S N filed where
  title := by rw [h.flags, F.title]
  id := by
    rw [h.id]
    exact F.id.congr_hash fun e _ => by rw [idmapHash, idmapHash, h.ents]
  assoc := h.assoc ▸ F.assoc
  mem := F.mem
  name e he := hname e (F.name e he)
  root := ⟨F.root.1, F.root.2.1, hname rootEntry F.root.2.2⟩
  id_inj e he e' he' hsame := F.id_inj e he e' he' (by rwa [h.ents, h.ents] at hsame)
  entry_lt e he := h.next ▸ F.entry_lt e he
  max_id e he := h.ents e ▸ (F.max_id e he).trans h.max

theorem setEntry (F : Filing tb ctx S N filed) (e : EntryRef) (entry : NodeEntry)
    (hid : entry.id = (ctx.ents e).id) (hname : entry.name ≠ none) :
    Filing tb { ctx with ents := Function.update ctx.ents e entry } S N filed := by
  refine F.congr ⟨rfl, rfl, rfl, rfl, le_rfl, fun x => ?_⟩ fun x hx => ?_
  · by_cases hxe : x = e
    · simp [hxe, hid]
    · simp [hxe]
  · by_cases hxe : x = e
    · simpa [hxe] using hname
    · simpa [hxe] using hx

theorem Next.of_same (F : Filing tb ctx S N filed) (h : ctx.SameMaps ctx')
    (hname : ∀ e, (ctx'.ents e).name = (ctx.ents e).name) : Next tb ctx S N filed ctx' :=
  ⟨S, N, filed, F.congr h fun e he => hname e ▸ he, fun _ _ _ _ _ => ⟨Iff.rfl, fun _ => .inl rfl⟩⟩

theorem Next.refl (F : Filing tb ctx S N filed) : Next tb ctx S N filed ctx :=
  .of_same F .rfl fun _ => rfl

theorem lookupId_spec (F : Filing tb ctx S N filed) (id : ℕ) :
    ∃ r, lookupId tb ctx id = .ok r ∧ ∀ e, r = some e ↔ e ∈ S ∧ (ctx.ents e).id = id :=
  Chromium.lookupId_spec F.id F.id_inj id

theorem lookupAssoc_spec (F : Filing tb ctx S N filed) (parentId : ℕ) (name : Bytes) :
    ∃ r, lookupAssoc tb ctx parentId name = .ok r ∧
      (∀ e id, r = some (e, id) → e ∈ N ∧ (ctx.ents e).parentId = parentId ∧
        (ctx.ents e).name = some name ∧ Designates ctx.assocMap id e) ∧
      (r = none → ∀ e ∈ N, (ctx.ents e).parentId = parentId → (ctx.ents e).name = some name →
        filed e ≠ assocmapHash tb ctx.ents e) := by
  obtain ⟨r, hrun, hfound, hnone⟩ :=
    F.assoc.search (assocmapComp ctx.ents parentId name) (hashAssoc tb parentId name)
  refine ⟨r, hrun, fun e id hr => ?_, fun hr e he hparent hname hfiled => ?_⟩
  · obtain ⟨he, hcomp, -, hid⟩ := hfound e id hr
    simp only [assocmapComp, Bool.and_eq_true, decide_eq_true_eq] at hcomp
    exact ⟨he, hcomp.1.symm, hcomp.2.symm, hid⟩
  · have := hnone hr e he (by simp [hfiled, assocmapHash, hparent, hname])
    simp [assocmapComp, hparent, hname] at this

theorem lookupName_spec (F : Filing tb ctx S N filed) (parentId : ℕ) (name : Bytes) :
    ∃ r, lookupName tb ctx parentId name = .ok r ∧
      r.2.1.hashcode = hashAssoc tb parentId name ∧
      ∀ e, r.2.2 = some e → r.1 = true ∧ (e ∈ N ∧ (ctx.ents e).parentId = parentId ∧
        (ctx.ents e).name = some name) ∧ Designates ctx.assocMap r.2.1.entryId e := by
  obtain ⟨r, hrun, hfound, -⟩ := F.lookupAssoc_spec parentId name
  simp only [lookupName, F.title, Bool.false_eq_true, if_false, hrun, ok_bind]
  cases r with
  | none => exact ⟨_, rfl, rfl, fun e h => by cases h⟩
  | some q =>
    refine ⟨_, rfl, rfl, fun e h => ?_⟩
    obtain rfl := Option.some.inj h
    obtain ⟨he, hparent, hname, hid⟩ := hfound q.1 q.2 rfl
    exact ⟨rfl, ⟨he, hparent, hname⟩, hid⟩

end Filing

theorem Inv.filing (I : Inv tb ctx S) (hflag : ctx.flags.filenameGuid = false) :
    Filing tb ctx S (named ctx.ents S) (assocmapHash tb ctx.ents) where
  title := hflag
  id := I.indexed.id
  assoc := I.indexed.assoc
  mem e he := (mem_named.mp he).1
  name e he := (mem_named.mp he).2.2
  root := ⟨I.forest.root_mem, fun h => (mem_named.mp h).2.1 rfl, by
    rw [I.forest.root_name]; exact Option.some_ne_none _⟩
  id_inj := I.forest.id_inj
  entry_lt := I.entry_lt
  max_id := I.max_id.2

theorem Refiled.trans {ents : Entries} {filed filed' filed'' : EntryRef → Word w} {e : EntryRef}
    (h : Refiled tb ents filed filed' e) (h' : Refiled tb ents filed' filed'' e) :
    Refiled tb ents filed filed'' e := by
  obtain h' | h' := h'
  · exact h.imp h'.trans h'.trans
  · exact .inr h'

theorem Refiled.congr {ents ents' : Entries} {filed filed' : EntryRef → Word w} {e : EntryRef}
    (h : Refiled tb ents filed filed' e)
    (hents : assocmapHash tb ents' e = assocmapHash tb ents e) :
    Refiled tb ents' filed filed' e :=
  h.imp id fun h => h.trans hents.symm

/-! ## The tables -/

section Maps

variable {map : Hashmap w EntryRef}

theorem remove_refiles (H : Holds map N filed) (ents : Entries) {id : Word w} {e : EntryRef}
    (hid : Designates map id e) :
    Yields (fun _ => True)
    ((Tables.real digest).remove (assocmapHash (.real digest) ents) map e id.toInt)
      fun map' => ∃ filed', Holds map' (N.erase e) filed' ∧
        (∀ x, Refiled (.real digest) ents filed filed' x) ∧
        (¬map.Shrinks → ∀ id' x, x ≠ e → Designates map id' x → Designates map' id' x) := by
  obtain ⟨map', hrun, hremoved⟩ := H.remove_id (assocmapHash (.real digest) ents) hid
  refine .of_eq_ok hrun ?_
  obtain ⟨H', hkeep⟩ | ⟨hshrinks, H'⟩ := hremoved
  · exact ⟨filed, H', fun _ => .inl rfl, fun _ => hkeep⟩
  · exact ⟨_, H', fun _ => .inr rfl, fun h => absurd hshrinks h⟩

theorem insert_refiles (H : Holds map N filed) (ents : Entries) (hash : Word w) {e : EntryRef}
    (he : e ∉ N) :
    Yields (fun _ => True)
    ((Tables.real digest).insert (assocmapHash (.real digest) ents) map hash e)
      fun map' => ∃ filed', Inserted (assocmapHash (.real digest) ents)
      N filed hash e map' filed' := by
  obtain herr | ⟨map', filed', hrun, h⟩ := H.insert_any (assocmapHash (.real digest) ents) hash he
  · exact .of_eq_error herr trivial
  · exact .of_eq_ok hrun ⟨filed', h⟩

theorem remove_id_entry {hashOf : EntryRef → Word w} (H : Holds map S hashOf) {e : EntryRef}
    (he : e ∈ S) :
    Yields (fun _ => True) ((Tables.real digest).remove hashOf map e (-1)) fun map' =>
      Holds map' (S.erase e) hashOf :=
  ((Tables.real_faithful digest).yields_remove_entry H he fun _ _ => rfl).weaken

theorem dropEntry_filing (F : Filing (.real digest) ctx S N filed) {e : EntryRef} (he : e ∈ N)
    {id : Word w} (hid : Designates ctx.assocMap id e) :
    Yields (fun _ => True) (dropEntry (.real digest) ctx e id) fun ctx' =>
      ctx'.ents = ctx.ents ∧ ctx'.flags = ctx.flags ∧ ∃ filed',
        Filing (.real digest) ctx' (S.erase e) (N.erase e) filed' ∧
        (∀ x, Refiled (.real digest) ctx.ents filed filed' x) ∧
        (¬ctx.assocMap.Shrinks → ∀ id' x, x ≠ e → Designates ctx.assocMap id' x →
          Designates ctx'.assocMap id' x) := by
  rw [dropEntry]
  simp only [F.title, Bool.false_eq_true, if_false]
  refine (remove_refiles F.assoc ctx.ents hid).bind fun assocMap h =>
    (Yields.any _).bind fun guidMap _ => ?_
  obtain ⟨filed', H, hrefiled, hkeep⟩ := h
  refine (remove_id_entry F.id (F.mem e he)).bind fun idMap Hid => ?_
  refine ⟨rfl, rfl, filed', ⟨F.title, Hid, H, fun x hx => ?_, fun x hx => ?_, ⟨?_, ?_, F.root.2.2⟩,
    fun x hx y hy => ?_, fun x hx => ?_, fun x hx => ?_⟩, hrefiled, hkeep⟩
  · exact Finset.mem_erase.mpr ⟨(Finset.mem_erase.mp hx).1, F.mem x (Finset.mem_of_mem_erase hx)⟩
  · exact F.name x (Finset.mem_of_mem_erase hx)
  · exact Finset.mem_erase.mpr ⟨fun h : rootEntry = e => F.root.2.1 (h ▸ he), F.root.1⟩
  · exact fun h => F.root.2.1 (Finset.mem_of_mem_erase h)
  · exact F.id_inj x (Finset.mem_of_mem_erase hx) y (Finset.mem_of_mem_erase hy)
  · exact F.entry_lt x (Finset.mem_of_mem_erase hx)
  · exact F.max_id x (Finset.mem_of_mem_erase hx)

end Maps

/-! ## The calls -/

section Calls

theorem buildNode_numbers (tb : Tables w) (env : Env) (node : NodeRef) (name : Bytes)
    (isDir : Bool) :
    Yields (fun _ => True) (buildNode tb ctx env node name isDir) fun r =>
      (∃ json maxId, r.2 = { ctx with json := json, maxId := maxId } ∧ ctx.maxId ≤ maxId) ∧
        ∀ bctx, r.1 = .ok bctx → bctx.stat.id = r.2.maxId ∧ r.2.maxId = ctx.maxId + 1 := by
  rw [buildNode]
  dsimp only
  split
  · exact ⟨⟨_, _, rfl, le_rfl⟩, fun _ h => by cases h⟩
  cases jsonStringn name with
  | none => exact ⟨⟨_, _, rfl, Nat.le_succ _⟩, fun _ h => by cases h⟩
  | some nameNode =>
    dsimp only
    split
    · exact ⟨⟨_, _, rfl, Nat.le_succ _⟩, fun _ h => by cases h; exact ⟨rfl, rfl⟩⟩
    · refine (Yields.any _).bind fun hashcode _ => ?_
      exact ⟨⟨_, _, rfl, Nat.le_succ _⟩, fun _ h => by cases h; exact ⟨rfl, rfl⟩⟩

theorem addNode_filing (F : Filing (.real digest) ctx S N filed) (now : Timespec) (parentId : ℕ)
    (parent : EntryRef) (siblings : Value) (node : NodeRef) (name : CString) (isDir : Bool)
    (lctx : LookupCtx w) {bctx : BuildCtx w} (hid : bctx.stat.id = ctx.maxId)
    (hnew : ∀ e ∈ S, (ctx.ents e).id < ctx.maxId) :
    Yields (fun _ => True)
      (addNode (.real digest) ctx now parentId parent siblings node name isDir lctx bctx) fun r =>
      Filing.Next (.real digest) ctx S N filed r.2 := by
  have heS : ctx.nextEntry ∉ S := fun h => lt_irrefl _ (F.entry_lt _ h)
  have heN : ctx.nextEntry ∉ N := fun h => heS (F.mem _ h)
  have hne : ∀ {x}, x ∈ S → x ≠ ctx.nextEntry := fun hx h => heS (h ▸ hx)
  rw [addNode]
  simp only [F.title, Bool.false_eq_true, if_false, ok_bind]
  refine ((Tables.real_faithful digest).yields_insert _ (F.id.congr_hash fun x hx => ?_) ?_ heS
    fun x _ => rfl).weaken.bind fun idMap Hid => ?_
  · simp [idmapHash, hne hx]
  · simp [idmapHash]
  refine (insert_refiles F.assoc _ _ heN).bind fun assocMap h =>
    (Yields.any _).bind fun guidMap _ => ?_
  obtain ⟨filed', H, -, hrest⟩ := h
  refine ⟨insert ctx.nextEntry S, insert ctx.nextEntry N, filed',
    ⟨F.title, ?_, H, ?_, ?_, ⟨Finset.mem_insert_of_mem F.root.1, ?_, ?_⟩, ?_, ?_, ?_⟩, ?_⟩
  · refine Hid.congr_hash fun x _ => ?_
    by_cases hx : x = ctx.nextEntry
    · simp [idmapHash, hx]
    · simp [idmapHash, hx]
  · exact fun x hx => (Finset.mem_insert.mp hx).elim (fun h => Finset.mem_insert.mpr (.inl h))
      fun h => Finset.mem_insert_of_mem (F.mem x h)
  · intro x hx
    obtain rfl | hx := Finset.mem_insert.mp hx
    · simp
    · simpa [hne (F.mem x hx)] using F.name x hx
  · rw [Finset.mem_insert, not_or]
    exact ⟨hne F.root.1, F.root.2.1⟩
  · simpa [hne F.root.1] using F.root.2.2
  · intro x hx y hy hsame
    obtain rfl | hx := Finset.mem_insert.mp hx <;> obtain rfl | hy := Finset.mem_insert.mp hy
    · rfl
    · simp only [Function.update_self, Function.update_of_ne (hne hy)] at hsame
      exact absurd (hid.symm.trans hsame) (hnew y hy).ne'
    · simp only [Function.update_self, Function.update_of_ne (hne hx)] at hsame
      exact absurd (hsame.trans hid) (hnew x hx).ne
    · simp only [Function.update_of_ne (hne hx), Function.update_of_ne (hne hy)] at hsame
      exact F.id_inj x hx y hy hsame
  · intro x hx
    obtain rfl | hx := Finset.mem_insert.mp hx
    · exact Nat.lt_succ_self _
    · exact (F.entry_lt x hx).trans (Nat.lt_succ_self _)
  · intro x hx
    obtain rfl | hx := Finset.mem_insert.mp hx
    · simp [hid]
    · simpa [hne hx] using (hnew x hx).le
  · intro x hx _ _ _
    refine ⟨?_, fun hxN => (hrest x hxN).imp id fun h => h.trans ?_⟩
    · rw [Finset.mem_insert, or_iff_right (hne hx)]
    · simp [assocmapHash, hne hx]

theorem updateGuid_filing (e : EntryRef) (oldEntryId : ℤ) (guid : Bytes) (hashcode : Word w) :
    Yields (fun _ => True) (updateGuid tb ctx e oldEntryId guid hashcode) fun ctx' =>
      ctx.SameMaps ctx' ∧ ∀ x, (ctx'.ents x).name = (ctx.ents x).name := by
  rw [updateGuid]
  refine (Yields.any _).bind fun _ _ => (Yields.any _).bind fun guidMap _ => ?_
  have hents : ∀ x, (Function.update ctx.ents e { ctx.ents e with guid := guid } x).id =
    (ctx.ents x).id ∧
      (Function.update ctx.ents e { ctx.ents e with guid := guid } x).name = (ctx.ents x).name := by
    intro x
    by_cases hx : x = e
    · subst hx
      simp
    · simp [hx]
  exact ⟨⟨rfl, rfl, rfl, rfl, le_rfl, fun x => (hents x).1⟩, fun x => (hents x).2⟩

theorem setPrepare_filing (id : ℕ) (e : EntryRef) (key : Key) (val : Bytes) :
    Yields (fun _ => True) (setPrepare tb ctx id e key val) fun r =>
      ctx.SameMaps r.2 ∧ ∀ x, (r.2.ents x).name = (ctx.ents x).name := by
  have hrefl : ctx.SameMaps ctx ∧ ∀ x, (ctx.ents x).name = (ctx.ents x).name := ⟨.rfl, fun _ => rfl⟩
  rw [setPrepare.eq_def]
  split
  · split
    · exact hrefl
    · split <;> exact hrefl
  · cases parseGuid val with
    | none => exact hrefl
    | some guid =>
      refine (Yields.any _).bind fun found _ => ?_
      cases found with
      | some found => exact hrefl
      | none => exact (updateGuid_filing e (-1) guid (tb.digest guid)).bind fun ctx₁ h => h
  · split
    · exact hrefl
    · split <;> exact hrefl
  · exact hrefl

/-- The entry that a repair names is not in the association map before. -/
theorem fsckApply_files (F : Filing (.real digest) ctx S N filed) (parentId id : ℕ)
    (name : CString) :
    Yields (fun _ => True) (fsckApply (.real digest) ctx parentId id name) fun r =>
      Filing.Next (.real digest) ctx S N filed r.2 := by
  have hrefl := Filing.Next.refl F
  rw [fsckApply.eq_def]
  obtain ⟨r, hrun, hlook⟩ := F.lookupId_spec id
  simp only [hrun, ok_bind]
  cases r with
  | none => exact hrefl
  | some e =>
  dsimp only
  split
  · exact hrefl
  by_cases hname : (ctx.ents e).name ≠ none
  · rw [if_pos hname]
    exact hrefl
  rw [if_neg hname]
  have heN : e ∉ N := fun h => hname (F.name e h)
  split
  · exact hrefl
  refine (Yields.any _).bind fun found _ => ?_
  split
  · exact hrefl
  split
  swap
  · exact hrefl
  refine (insert_refiles F.assoc _ _ heN).bind fun assocMap h => ?_
  obtain ⟨filed', H, -, hrest⟩ := h
  have F' := F.setEntry e { ctx.ents e with name := some (name.val.take (nameMax + 1)) } rfl
    (by simp)
  refine ⟨S, insert e N, filed', ⟨F.title, F'.id, H, fun x hx => ?_, fun x hx => ?_,
    ⟨F.root.1, ?_, F'.root.2.2⟩, F'.id_inj, F.entry_lt, F'.max_id⟩, fun x _ _ _ hsame => ?_⟩
  · obtain rfl | hx := Finset.mem_insert.mp hx
    · exact ((hlook x).mp rfl).1
    · exact F.mem x hx
  · obtain rfl | hx := Finset.mem_insert.mp hx
    · simp
    · exact F'.name x hx
  · rw [Finset.mem_insert, not_or]
    exact ⟨fun h : rootEntry = e => hname (h ▸ F.root.2.2), F.root.2.1⟩
  · have hxe : x ≠ e := by
      rintro rfl
      simp only [Function.update_self, not_not.mp hname] at hsame
      cases hsame
    exact ⟨by rw [Finset.mem_insert, or_iff_right hxe], fun hx => hrest x hx⟩

/-- The entry renamed, in its directory and under its name. -/
def renamedEntry (ctx : Ctx w) (old newParent : EntryRef) (newName : CString)
    (node : NodeRef) : NodeEntry :=
  { ctx.ents old with parentId := (ctx.ents newParent).id, name := some newName.val, node := node }

theorem updateName_entry {old : EntryRef} (oldParent newParent : EntryRef) {oldName : CString}
    (newName : CString) (hname : (ctx.ents old).name = some oldName.val) :
    Yields (fun _ => True) (updateName ctx old oldParent newParent oldName newName) fun r =>
    ∀ json ents,
      r = some (json, ents) →
      ents = Function.update ctx.ents old { ctx.ents old with name := some newName.val } := by
  rw [updateName]
  split
  next heq =>
    refine (Yields.any _).bind fun _ _ => fun json ents h => ?_
    obtain ⟨-, rfl⟩ := Prod.mk.inj (Option.some.inj h)
    subst heq
    rw [← hname]
    exact (Function.update_eq_self old _).symm
  · cases jsonStringn newName.val with
    | none => exact fun _ _ h => by cases h
    | some nameNode =>
      intro json ents h
      obtain ⟨-, rfl⟩ := Prod.mk.inj (Option.some.inj h)
      rfl

theorem moveNode_entry (json : Json) (ents : Entries) (old oldParent newParent : EntryRef)
    (oldNode : NodeRef) (new : Option EntryRef) :
    Yields (fun _ => True) (moveNode json ents old oldParent newParent oldNode new) fun r => ∃ node,
      r.2 = Function.update ents old { ents old with parentId := (ents newParent).id, node := node } := by
  unfold moveNode
  cases (ents oldParent).children with
  | none => trivial
  | some siblings =>
    refine (Yields.any _).bind fun idx _ => ?_
    cases new with
    | none => exact ⟨_, rfl⟩
    | some new => exact ⟨_, rfl⟩

/-- The entry renamed is filed under the hashcode of its new name. -/
theorem refileRenamed_filing (F : Filing (.real digest) ctx S N filed) {old : EntryRef}
    (hold : old ∈ N) {oldLctx : LookupCtx w} (hid : Designates ctx.assocMap oldLctx.entryId old)
    (newLctx : LookupCtx w) :
    Yields (fun _ => True) (refileRenamed (.real digest) ctx old oldLctx newLctx) fun ctx' =>
      ctx'.ents = ctx.ents ∧ ∃ filed', Filing (.real digest) ctx' S N filed' ∧
        filed' old = newLctx.hashcode ∧
        ∀ x ∈ N, x ≠ old → Refiled (.real digest) ctx.ents filed filed' x := by
  rw [refileRenamed]
  simp only [F.title, Bool.false_eq_true, if_false]
  refine (remove_refiles F.assoc ctx.ents hid).bind fun assocMap h => ?_
  obtain ⟨filed₁, H₁, hrefiled, -⟩ := h
  refine (insert_refiles H₁ ctx.ents newLctx.hashcode (Finset.notMem_erase old N)).bind
    fun assocMap' h => ?_
  obtain ⟨filed', H, hself, hrest⟩ := h
  rw [Finset.insert_erase hold] at H
  refine ⟨rfl, filed', ⟨F.title, F.id, H, F.mem, F.name, F.root, F.id_inj, F.entry_lt, F.max_id⟩,
    hself, fun x hx hne => ?_⟩
  exact (hrefiled x).trans (hrest x (Finset.mem_erase.mpr ⟨hne, hx⟩))

/-- What is left when the entry that a rename replaces has been removed. -/
theorem dropReplaced_filing (F : Filing (.real digest) ctx S N filed) {old : EntryRef}
    (hold : old ∈ N)
    {id : Word w} (hid : Designates ctx.assocMap id old) {new : Option EntryRef} {newId : Word w}
    (hnew : ∀ v, new = some v → v ∈ N ∧ v ≠ old ∧ Designates ctx.assocMap newId v ∧
      ¬ctx.assocMap.Shrinks) :
    Yields (fun _ => True) (dropReplaced (.real digest) ctx new newId) fun ctx' =>
      ctx'.ents = ctx.ents ∧ ∃ S' N' filed', Filing (.real digest) ctx' S' N' filed' ∧
        (old ∈ N' ∧ Designates ctx'.assocMap id old) ∧ (∀ x ∈ S', (x ∈ N' ↔ x ∈ N)) ∧
        ∀ x, Refiled (.real digest) ctx.ents filed filed' x := by
  cases new with
  | none => exact ⟨rfl, S, N, filed, F, ⟨hold, hid⟩, fun _ _ => Iff.rfl, fun _ => .inl rfl⟩
  | some v =>
    obtain ⟨hv, hne, hvid, hshrinks⟩ := hnew v rfl
    refine (dropEntry_filing F hv hvid).mono fun ctx' h => ?_
    obtain ⟨hents, -, filed', F', hrefiled, hkeep⟩ := h
    refine ⟨hents, _, _, filed', F', ⟨Finset.mem_erase.mpr ⟨hne.symm, hold⟩,
      hkeep hshrinks id old hne.symm hid⟩,
      fun x hx => ?_, hrefiled⟩
    rw [Finset.mem_erase, and_iff_right (Finset.mem_erase.mp hx).1]

theorem renameEntry_files (F : Filing (.real digest) ctx S N filed) (now : Timespec)
    {old oldParent newParent : EntryRef} {new : Option EntryRef} {oldName newName : CString}
    {oldLctx newLctx : LookupCtx w} (hold : old ∈ N)
    (hid : Designates ctx.assocMap oldLctx.entryId old)
    (hname : (ctx.ents old).name = some oldName.val)
    (hparent : (ctx.ents old).parentId = (ctx.ents oldParent).id)
    (hhash : newLctx.hashcode = hashAssoc (.real digest) (ctx.ents newParent).id newName)
    (hnew : ∀ v, new = some v →
      v ∈ N ∧ v ≠ old ∧ Designates ctx.assocMap newLctx.entryId v ∧ ¬ctx.assocMap.Shrinks) :
    Yields (fun _ => True)
      (renameEntry (.real digest) ctx now old oldParent newParent new oldName newName oldLctx
        newLctx) fun r =>
      Filing.Next (.real digest) ctx S N filed r.2 := by
  rw [renameEntry]
  refine (updateName_entry oldParent newParent newName hname).bind fun r hr => ?_
  cases r with
  | none => exact .refl F
  | some q =>
  obtain ⟨json, ents⟩ := q
  obtain rfl := hr json ents rfl
  have hmoved : Yields (fun _ => True) (if oldParent ≠ newParent then
      moveNode json (Function.update ctx.ents old { ctx.ents old with name := some newName.val }) old oldParent
        newParent (ctx.ents old).node new
      else .ok (json, Function.update ctx.ents old { ctx.ents old with name := some newName.val })) fun r =>
      ∃ node, r.2 = Function.update ctx.ents old (renamedEntry ctx old newParent newName node) := by
    by_cases hmove : oldParent ≠ newParent
    · rw [if_pos hmove]
      refine (moveNode_entry json _ old oldParent newParent _ new).mono fun r hr => ?_
      obtain ⟨node, hr⟩ := hr
      refine ⟨node, hr.trans ?_⟩
      rw [Function.update_idem, Function.update_self]
      congr 2
      by_cases hself : newParent = old
      · rw [hself, Function.update_self]
        rfl
      · rw [Function.update_of_ne hself]
        rfl
    · rw [if_neg hmove]
      obtain rfl := not_not.mp hmove
      exact ⟨(ctx.ents old).node, by rw [renamedEntry, ← hparent]⟩
  refine hmoved.bind fun r hr => ?_
  obtain ⟨json₁, ents₁⟩ := r
  obtain ⟨node, rfl⟩ := hr
  have F₁ := F.setEntry old (renamedEntry ctx old newParent newName node) rfl
    (Option.some_ne_none _)
  have F₂ : Filing (.real digest) { ctx with
      json := json₁, ents :=
        Function.update ctx.ents old (renamedEntry ctx old newParent newName node) } S N filed :=
    F₁.congr ⟨rfl, rfl, rfl, rfl, le_rfl, fun _ => rfl⟩ fun _ h => h
  refine (dropReplaced_filing F₂ hold hid hnew).bind fun ctx₁ h => ?_
  obtain ⟨hents, S', N', filed₁, F₃, ⟨hold', hid'⟩, hmem, hrefiled₁⟩ := h
  refine (refileRenamed_filing F₃ hold' hid' newLctx).bind fun ctx₂ h => ?_
  obtain ⟨hents', filed₂, F₄, hself, hrefiled₂⟩ := h
  refine ⟨S', N', filed₂, F₄.congr ⟨rfl, rfl, rfl, rfl, le_rfl, fun _ => rfl⟩ fun _ h => h,
    fun x _ hx _ _ => ⟨hmem x hx, fun hxN => ?_⟩⟩
  dsimp only
  rw [hents', hents]
  by_cases hxo : x = old
  · subst hxo
    exact .inr (hself.trans (by simp [hhash, assocmapHash, renamedEntry]))
  · rw [hents] at hrefiled₂
    exact (hrefiled₁ x).trans (hrefiled₂ x ((hmem x hx).mpr hxN) hxo)

section Loaded

variable (F : Filing (.real digest) ctx S N filed)
  (hload : storeLoad (Tables.real digest) ctx env = .ok (none, ctx))

include F hload

theorem bookmarkCreate_files (parentId : ℕ) (name : CString) (isDir : Bool) :
    Yields (fun _ => True) (bookmarkCreate (.real digest) ctx env parentId name isDir) fun r =>
      Filing.Next (.real digest) ctx S N filed r.2 := by
  have hrefl := Filing.Next.refl F
  rw [bookmarkCreate]
  split
  · exact hrefl
  simp only [hload, ok_bind]
  refine (Yields.any _).bind fun parent _ => ?_
  cases parent with
  | none => exact hrefl
  | some p =>
  dsimp only
  split
  · exact hrefl
  cases (ctx.ents p).children with
  | none => exact hrefl
  | some siblings =>
  refine (Yields.any _).bind ?_
  rintro ⟨found, lctx, entry⟩ -
  dsimp only
  split
  · -- the entry is there, and is looked at for the stat buffer only
    cases entry with
    | none => exact hrefl
    | some e =>
    dsimp only
    cases parseId ctx.json (ctx.ents e).node with
    | none => exact hrefl
    | some id =>
      dsimp only
      split <;> exact hrefl
  split
  · exact hrefl
  refine (buildNode_numbers _ env _ name isDir).bind ?_
  rintro ⟨built, ctx₁⟩ ⟨⟨json, maxId, hctx, hmax⟩, hbuilt⟩
  dsimp only at hctx hmax hbuilt
  subst hctx
  cases built with
  | error err => exact .of_same F ⟨rfl, rfl, rfl, rfl, hmax, fun _ => rfl⟩ fun _ => rfl
  | ok bctx =>
    obtain ⟨hid, hsucc⟩ := hbuilt bctx rfl
    have F₁ : Filing (.real digest) { ctx with json := json, maxId := maxId } S N filed :=
      F.congr ⟨rfl, rfl, rfl, rfl, hmax, fun _ => rfl⟩ fun _ h => h
    exact addNode_filing F₁ env.now parentId p siblings _ name isDir lctx hid fun e he =>
      (F.max_id e he).trans_lt (hsucc ▸ Nat.lt_succ_self _)

theorem bookmarkDelete_files (parentId : ℕ) (name : CString) (deleteDir : Bool) :
    Yields (fun _ => True) (bookmarkDelete (.real digest) ctx env parentId name deleteDir) fun r =>
      Filing.Next (.real digest) ctx S N filed r.2 := by
  have hrefl := Filing.Next.refl F
  rw [bookmarkDelete]
  split
  · exact hrefl
  simp only [hload, ok_bind]
  refine (Yields.any _).bind fun parent _ => ?_
  cases parent with
  | none => exact hrefl
  | some p =>
  dsimp only
  split
  · exact hrefl
  cases (ctx.ents p).children with
  | none => exact hrefl
  | some siblings =>
  obtain ⟨⟨found, lctx, entry⟩, hrun, -, hfound⟩ := F.lookupName_spec parentId name
  simp only [hrun, ok_bind]
  cases entry with
  | none => exact hrefl
  | some e =>
  obtain ⟨-, ⟨he, -, -⟩, hid⟩ := hfound e rfl
  dsimp only
  split
  · exact hrefl
  split
  · exact hrefl
  refine (Yields.any _).bind fun idx _ => ?_
  have F₁ : Filing (.real digest)
    { ctx with json := ctx.json.arrayRemove siblings idx } S N filed :=
    F.congr ⟨rfl, rfl, rfl, rfl, le_rfl, fun _ => rfl⟩ fun _ h => h
  refine (dropEntry_filing F₁ he hid).bind fun ctx₁ h => ?_
  obtain ⟨hents, -, filed', F', hrefiled, -⟩ := h
  refine ⟨S.erase e, N.erase e, filed', F'.congr ⟨rfl, rfl, rfl, rfl,
    le_rfl, fun _ => rfl⟩ fun _ h => h,
    fun x _ hx _ _ => ⟨?_, fun _ => ?_⟩⟩
  · rw [Finset.mem_erase, and_iff_right (Finset.mem_erase.mp hx).1]
  · exact (hrefiled x).congr (by rw [hents])

theorem bookmarkPermute_files (parentId : ℕ) (op : PermdOp) (name1 name2 : CString) :
    Yields (fun _ => True) (bookmarkPermute (.real digest) ctx env parentId op name1 name2) fun r =>
      Filing.Next (.real digest) ctx S N filed r.2 := by
  have hrefl := Filing.Next.refl F
  rw [bookmarkPermute]
  split
  · exact hrefl
  simp only [hload, ok_bind]
  split
  · exact hrefl
  split
  · exact hrefl
  refine (Yields.any _).bind fun parent _ => ?_
  cases parent with
  | none => exact hrefl
  | some p =>
  dsimp only
  split
  · exact hrefl
  cases (ctx.ents p).children with
  | none => exact hrefl
  | some children =>
  refine (Yields.any _).bind ?_
  rintro ⟨found1, lctx1, entry1⟩ -
  cases entry1 with
  | none => exact hrefl
  | some e1 =>
  dsimp only
  split
  · exact hrefl
  refine (Yields.any _).bind ?_
  rintro ⟨found2, lctx2, entry2⟩ -
  cases entry2 with
  | none => exact hrefl
  | some e2 =>
  dsimp only
  split
  · exact hrefl
  split
  · exact hrefl
  refine (Yields.any _).bind fun idx1 _ => (Yields.any _).bind fun idx2 _ => ?_
  split
  · exact hrefl
  · exact .of_same F ⟨rfl, rfl, rfl, rfl, le_rfl, fun _ => rfl⟩ fun _ => rfl

theorem bookmarkSet_files (id : ℕ) (arg : SetArg) :
    Yields (fun _ => True) (bookmarkSet (.real digest) ctx env id arg) fun r =>
      Filing.Next (.real digest) ctx S N filed r.2 := by
  have hrefl := Filing.Next.refl F
  rw [bookmarkSet]
  split
  · exact hrefl
  simp only [hload, ok_bind]
  refine (Yields.any _).bind fun r _ => ?_
  cases r with
  | none => exact hrefl
  | some e =>
  dsimp only
  split
  · exact hrefl
  split
  · exact hrefl
  cases arg with
  | times atime mtime =>
    dsimp only
    rw [setTimes]
    split
    · exact hrefl
    · exact .of_same F ⟨rfl, rfl, rfl, rfl, le_rfl, fun _ => rfl⟩ fun _ => rfl
  | value xattr val =>
    dsimp only
    rw [setValue]
    dsimp only
    cases xattrKey xattr ctx.flags with
    | none => exact hrefl
    | some key =>
    dsimp only
    split
    · exact hrefl
    refine (setPrepare_filing id e key val).bind fun r h => ?_
    obtain ⟨reply, ctx₁⟩ := r
    obtain ⟨hsame, hname⟩ := h
    cases reply with
    | some reply => exact .of_same F hsame hname
    | none => exact .of_same F ⟨hsame.1, hsame.2, hsame.3, hsame.4, hsame.5, hsame.6⟩ hname

theorem bookmarkCheckApply_files (parentId id : ℕ) (name : CString) :
    Yields (fun _ => True) (bookmarkCheckApply (.real digest) ctx env parentId id name) fun r =>
      Filing.Next (.real digest) ctx S N filed r.2 := by
  rw [bookmarkCheckApply]
  refine (checkDir_kept hload parentId).bind ?_
  rintro ⟨dir, ctx₁⟩ hctx
  obtain rfl : ctx₁ = ctx := hctx
  have hrefl := Filing.Next.refl F
  cases dir with
  | error err => exact hrefl
  | ok children => exact fsckApply_files F parentId id name

theorem bookmarkRename_files (oldParentId : ℕ) (oldName : CString) (newParentId : ℕ)
    (newName : CString) (noreplace : Bool)
    (hsteady : (Call.rename oldParentId oldName newParentId newName noreplace).Steady
      (.real digest) ctx) :
    Yields (fun _ => True)
      (bookmarkRename (.real digest) ctx env oldParentId oldName newParentId newName noreplace)
      fun r =>
      Filing.Next (.real digest) ctx S N filed r.2 := by
  have hrefl := Filing.Next.refl F
  rw [bookmarkRename]
  split
  · exact hrefl
  next hperm =>
  rw [not_or] at hperm
  simp only [hload, ok_bind]
  obtain ⟨r, holdRun, hlook⟩ := F.lookupId_spec oldParentId
  simp only [holdRun, ok_bind]
  cases r with
  | none => exact hrefl
  | some oldParent =>
  obtain ⟨-, holdParent⟩ := (hlook oldParent).mp rfl
  dsimp only
  split
  · exact hrefl
  next holdName =>
  split
  · exact hrefl
  next holdDir =>
  obtain ⟨⟨oldFound, oldLctx, oldEntry⟩, hfoundOld, -, hold⟩ :=
    F.lookupName_spec oldParentId oldName
  simp only [hfoundOld, ok_bind]
  cases oldEntry with
  | none => exact hrefl
  | some old =>
  obtain ⟨holdFound, ⟨hmem, hparent, hname⟩, hid⟩ := hold old rfl
  dsimp only at holdFound hid ⊢
  subst holdFound
  rw [if_neg (by decide : ¬true = false)]
  have hnewParent : Yields (fun _ => True) (if oldParentId = newParentId then .ok (some oldParent)
      else lookupId (.real digest) ctx newParentId) fun r => ∀ q, r = some q →
        lookupId (.real digest) ctx newParentId = .ok (some q) ∧ (ctx.ents q).id = newParentId := by
    split
    next heq =>
      intro q hq
      obtain rfl := Option.some.inj hq
      exact ⟨heq ▸ holdRun, holdParent.trans heq⟩
    · obtain ⟨r, hrun, hlook⟩ := F.lookupId_spec newParentId
      refine .of_eq_ok hrun fun q hq => ?_
      subst hq
      exact ⟨hrun, ((hlook q).mp rfl).2⟩
  refine hnewParent.bind fun newParent hnewParent => ?_
  cases newParent with
  | none => exact hrefl
  | some newParent =>
  obtain ⟨hnewRun, hnewParent⟩ := hnewParent newParent rfl
  dsimp only
  split
  · exact hrefl
  next hnewName =>
  split
  · exact hrefl
  next hnewDir =>
  obtain ⟨⟨newFound, newLctx, new⟩, hfoundNew, hhash, hnew⟩ := F.lookupName_spec newParentId newName
  simp only [hfoundNew, ok_bind]
  cases hchecked : checkReplaced ctx noreplace newFound old new with
  | some reply => exact hrefl
  | none =>
  refine renameEntry_files F env.now hmem hid hname (hparent.trans holdParent.symm)
    (hnewParent ▸ hhash) fun v hv => ?_
  obtain ⟨hfound, ⟨hv', -, -⟩, hvid⟩ := hnew v hv
  dsimp only at hfound hvid
  subst hv hfound
  refine ⟨hv', fun hself => ?_, hvid, hsteady oldLctx old newLctx v
    ⟨hperm.1, oldParent, holdRun, holdName, holdDir⟩
    ⟨hperm.2, newParent, hnewRun, hnewName, hnewDir⟩ hfoundOld hfoundNew hchecked⟩
  cases noreplace with
  | true => cases hchecked
  | false =>
    rw [checkReplaced, if_neg Bool.false_ne_true, if_pos hself] at hchecked
    cases hchecked

/-- What one call does to the maps, on a store that is up to date. -/
theorem Call.run_files {call : Call} (hsteady : call.Steady (.real digest) ctx)
    (hrun : call.run (.real digest) ctx env = .ok ctx') :
    Filing.Next (.real digest) ctx S N filed ctx' := by
  by_cases hcall : call.Modifies
  · cases call with
    | create parentId name isDir =>
        exact (Yields.map (bookmarkCreate_files F hload parentId name isDir)).of_ok hrun
    | delete parentId name deleteDir =>
      exact (Yields.map (bookmarkDelete_files F hload parentId name deleteDir)).of_ok hrun
    | permute parentId op name1 name2 =>
      exact (Yields.map (bookmarkPermute_files F hload parentId op name1 name2)).of_ok hrun
    | rename oldParentId oldName newParentId newName noreplace =>
      exact (Yields.map (bookmarkRename_files F hload oldParentId oldName newParentId
        newName noreplace
        hsteady)).of_ok hrun
    | set id arg => exact (Yields.map (bookmarkSet_files F hload id arg)).of_ok hrun
    | checkApply parentId id name =>
        exact (Yields.map (bookmarkCheckApply_files F hload parentId id name)).of_ok hrun
    | lookup | get | list | checkNext => exact hcall.elim
  · obtain ⟨status, hstore⟩ | rfl := Call.run_reads_load hcall hrun
    · rw [hload] at hstore
      obtain rfl := congrArg Prod.snd (Except.ok.inj hstore)
      exact .refl F
    · exact .refl F

end Loaded

end Calls

end BookmarkFS.Chromium
