import BookmarkFS.Chromium.Agreement
import BookmarkFS.Chromium.Listing

/-! # Identifiers as filenames

With `BACKEND_FILENAME_GUID`, a file is to be named after the GUID of its node.
The loader leaves the name of every entry empty then, and an entry without a
name is taken for one that is hidden: nothing that the store holds is shown.
-/
namespace BookmarkFS.Chromium
open Library Hopscotch

variable {w : WordSize} {tb : Tables w} {ctx ctx' : Ctx w} {env : Env} {S : Finset EntryRef}

/-- A node of the tree, and the identifier of the directory that it belongs to. -/
def Ctx.ChildOf (ctx : Ctx w) (parentId : ℕ) (n : NodeRef) : Prop :=
  (parentId = rootId ∧ n ∈ ctx.roots) ∨ ∃ m children, Reaches ctx.json ctx.roots m ∧
    parseId ctx.json m = some parentId ∧ ctx.json.get m .children = some children ∧
    n ∈ ctx.json.elems children

/-- Every node of the tree is shown under its GUID, and taken for what it is. -/
structure Ctx.GuidNamed (tb : Tables w) (ctx : Ctx w) (env : Env) : Prop where
  listed : ∀ parentId n id guid, ctx.ChildOf parentId n → parseId ctx.json n = some id →
    jsonStringValue (ctx.json.get n .guid) = some guid →
    ∃ entries, Lists tb ctx env parentId false entries ∧ ∃ x ∈ entries, x.name = guid ∧ x.id = id
  found : ∀ parentId n id (guid : CString), ctx.ChildOf parentId n → parseId ctx.json n = some id →
    jsonStringValue (ctx.json.get n .guid) = some guid.val →
    ∃ stat, bookmarkLookup tb ctx env parentId (some guid) = .ok (.ok stat, ctx) ∧ stat.id = id
  distinct : ∀ parentId parentId' entries entries', Lists tb ctx env parentId false entries →
    Lists tb ctx env parentId' false entries' → ∀ x ∈ entries, ∀ x' ∈ entries', x.name = x'.name →
    x.id = x'.id
  alive : ∀ n id, Reaches ctx.json ctx.roots n → parseId ctx.json n = some id →
    (∀ name, Prod.fst <$> bookmarkLookup tb ctx env id name ≠ .ok (.error .stale)) ∧
    (∀ xattr, Prod.fst <$> bookmarkGet tb ctx env id xattr ≠ .ok (.error .stale)) ∧
    (∀ arg, Prod.fst <$> bookmarkSet tb ctx env id arg ≠ .ok (.error .stale)) ∧
    (∀ off withStat callback cookie, (Prod.fst ∘ Prod.fst) <$>
      bookmarkList tb ctx env id off withStat callback cookie ≠ .ok (.error .stale)) ∧
    ∀ name isDir, Prod.fst <$> bookmarkCreate tb ctx env id name isDir ≠ .ok (.error .stale)

section Runs

variable (tb)

/-- The runs of a backend whose filenames are GUIDs. -/
def guidBackend : System (Ctx w) (Env × Call) Fault where
  init ctx := (backend tb).init ctx ∧ ctx.flags.filenameGuid = true
  legal _ request := request.1.WellFormed
  step := (backend tb).step

end Runs

/-- What is common to the states of these runs. -/
structure Ctx.GuidMode (tb : Tables w) (ctx : Ctx w) : Prop where
  consistent : ctx.Consistent tb
  flag : ctx.flags.filenameGuid = true
  roots : ctx.loaded = true → ctx.roots ≠ []

theorem doLoad_roots (hf : tb.Faithful) {file : Option Document}
    (hfile : ∀ doc, file = some doc → doc.WellFormed) (h : ctx.loaded = true → ctx.roots ≠ []) :
    Yields Fault.Abort (doLoad tb ctx file) fun r => r.2.loaded = true → r.2.roots ≠ [] := by
  unfold doLoad
  cases file with
  | none => exact h
  | some doc =>
  dsimp only
  by_cases hchecksum : doc.checksum = false
  · rw [if_pos hchecksum]; exact h
  rw [if_neg hchecksum]
  by_cases hversion : doc.version ≠ 1
  · rw [if_pos hversion]; exact h
  rw [if_neg hversion]
  cases hroots : doc.roots with
  | none => exact h
  | some roots =>
  refine (buildMaps_spec hf (hfile doc rfl roots hroots) ctx).bind fun r hr => ?_
  cases r with
  | none => exact h
  | some new => exact fun _ => (hr new rfl).2.2.1

theorem storeLoad_roots (hf : tb.Faithful) (henv : env.WellFormed)
    (h : ctx.loaded = true → ctx.roots ≠ []) :
    Yields Fault.Abort (storeLoad tb ctx env) fun r => r.2.loaded = true → r.2.roots ≠ [] := by
  rw [storeLoad]
  by_cases hwatching : ctx.watching = false
  · rw [if_pos hwatching]
    by_cases hinit : env.initWatcher = false
    · rw [if_pos hinit]; exact h
    · rw [if_neg hinit]; exact doLoad_roots hf henv.file h
  rw [if_neg hwatching]
  by_cases hdirty : ctx.dirty ≠ .none
  · rw [if_pos hdirty]; exact h
  rw [if_neg hdirty]
  cases env.poll with
  | unchanged =>
    by_cases hloaded : ctx.loaded = true
    · simp only [hloaded, if_true]
      exact fun _ => h hloaded
    · simp only [hloaded]
      exact doLoad_roots hf henv.file h
  | changed => exact doLoad_roots hf henv.file fun h => by cases h
  | noEntry => exact h
  | failed => exact h

theorem stale_guid {α : Type} (I : Inv tb ctx S) (hflag : ctx.flags.filenameGuid = true) {id : ℕ}
    (hid : id ≠ rootId) (f : EntryRef → Except Fault (Except Errno α × Ctx w)) :
    (do let some e ← lookupId tb ctx id | return (.error .stale, ctx)
        if (ctx.ents e).name = none then return (.error .stale, ctx)
        f e : Except Fault (Except Errno α × Ctx w)) = .ok (.error .stale, ctx) := by
  obtain ⟨r, hrun, hlook⟩ := I.lookupId_spec id
  rw [hrun, ok_bind]
  cases r with
  | none => rfl
  | some e =>
    obtain ⟨he, rfl⟩ := (hlook e).mp rfl
    have hname : (ctx.ents e).name = none :=
      I.guid_mode hflag e he fun hroot => hid (hroot ▸ I.forest.root_id)
    dsimp only
    rw [if_pos hname]
    rfl

theorem create_stale (I : Inv tb ctx S) (hflag : ctx.flags.filenameGuid = true)
    (hload : storeLoad tb ctx env = .ok (none, ctx)) {id : ℕ} (hid : id ≠ rootId) (name : CString)
    (isDir : Bool) : bookmarkCreate tb ctx env id name isDir = .ok (.error .stale, ctx) := by
  rw [bookmarkCreate, if_neg hid, hload]
  exact stale_guid I hflag hid _

namespace Ctx.GuidMode

variable (G : ctx.GuidMode tb)

include G

theorem inv_of_load (hf : tb.Faithful) (henv : env.WellFormed)
    (hload : storeLoad tb ctx env = .ok (none, ctx')) :
    ∃ S, Inv tb ctx' S ∧ ctx'.flags.filenameGuid = true := by
  obtain ⟨-, hflags, hinv⟩ := (storeLoad_spec hf henv G.consistent).of_ok hload
  obtain ⟨-, -, S, I⟩ := hinv rfl
  exact ⟨S, I, by rw [hflags, G.flag]⟩

/-- A call does no more than to bring the store up to date. -/
theorem run_loads (hf : tb.Faithful) (henv : env.WellFormed) {call : Call}
    (h : call.run tb ctx env = .ok ctx') :
    (∃ status, storeLoad tb ctx env = .ok (status, ctx')) ∨ ctx' = ctx := by
  have hstale : ∀ {α : Type} ctx₁, storeLoad tb ctx env = .ok (none, ctx₁) → ∀ id, id ≠ rootId →
      ∀ f : EntryRef → Except Fault (Except Errno α × Ctx w), Yields (fun _ => True) (do
        let some e ← lookupId tb ctx₁ id | return (.error .stale, ctx₁)
        if (ctx₁.ents e).name = none then return (.error .stale, ctx₁)
        f e) fun r => r.2 = ctx₁ := by
    intro α ctx₁ hload id hid f
    obtain ⟨S, I, hflag⟩ := G.inv_of_load hf henv hload
    exact .of_eq_ok (stale_guid I hflag hid f) rfl
  cases call with
  | create parentId name isDir =>
    by_cases hroot : parentId = rootId
    · simp only [Call.run, bookmarkCreate, if_pos hroot] at h
      exact .inr (Except.ok.inj h).symm
    simp only [Call.run, bookmarkCreate, if_neg hroot] at h
    refine .inl (Call.load_of_read (fun status ctx₁ hload => ?_) h)
    cases status with
    | some err => rfl
    | none => exact hstale ctx₁ hload _ hroot _
  | delete parentId name deleteDir =>
    by_cases hroot : parentId = rootId
    · simp only [Call.run, bookmarkDelete, if_pos hroot] at h
      exact .inr (Except.ok.inj h).symm
    simp only [Call.run, bookmarkDelete, if_neg hroot] at h
    refine .inl (Call.load_of_read (fun status ctx₁ hload => ?_) h)
    cases status with
    | some err => rfl
    | none => exact hstale ctx₁ hload _ hroot _
  | permute parentId op name1 name2 =>
    by_cases hroot : parentId = rootId
    · simp only [Call.run, bookmarkPermute, if_pos hroot] at h
      exact .inr (Except.ok.inj h).symm
    simp only [Call.run, bookmarkPermute, if_neg hroot] at h
    refine .inl (Call.load_of_read (fun status ctx₁ hload => ?_) h)
    cases status with
    | some err => rfl
    | none =>
      dsimp only
      split_ifs
      · rfl
      · rfl
      · exact hstale ctx₁ hload _ hroot _
  | rename oldParentId oldName newParentId newName noreplace =>
    by_cases hroot : oldParentId = rootId ∨ newParentId = rootId
    · simp only [Call.run, bookmarkRename, if_pos hroot] at h
      exact .inr (Except.ok.inj h).symm
    simp only [Call.run, bookmarkRename, if_neg hroot] at h
    refine .inl (Call.load_of_read (fun status ctx₁ hload => ?_) h)
    cases status with
    | some err => rfl
    | none => exact hstale ctx₁ hload _ (fun h => hroot (.inl h)) _
  | set id arg =>
    by_cases hroot : id = rootId
    · simp only [Call.run, bookmarkSet, if_pos hroot] at h
      exact .inr (Except.ok.inj h).symm
    simp only [Call.run, bookmarkSet, if_neg hroot] at h
    refine .inl (Call.load_of_read (fun status ctx₁ hload => ?_) h)
    cases status with
    | some err => rfl
    | none => exact hstale ctx₁ hload _ hroot _
  | checkApply parentId id name =>
    simp only [Call.run, bookmarkCheckApply, checkDir, G.flag, if_true] at h
    exact .inr (Except.ok.inj h).symm
  | lookup | get | list | checkNext => exact Call.run_reads_load id h

theorem step (hf : tb.Faithful) (henv : env.WellFormed) {call : Call}
    (h : call.run tb ctx env = .ok ctx') : ctx'.GuidMode tb := by
  obtain ⟨status, hload⟩ | rfl := G.run_loads hf henv h
  · obtain ⟨C, hflags, -⟩ := (storeLoad_spec hf henv G.consistent).of_ok hload
    exact ⟨C, by rw [hflags, G.flag], (storeLoad_roots hf henv G.roots).of_ok hload⟩
  · exact G

end Ctx.GuidMode

theorem guidBackend_mode (hf : tb.Faithful) : (guidBackend tb).Invariant (Ctx.GuidMode tb) where
  init ctx h := ⟨(backend_consistent hf).init ctx h.1, h.2,
    fun hloaded => absurd (h.1.1.symm.trans hloaded) Bool.false_ne_true⟩
  step _ _ _ G henv hstep := G.step hf henv hstep

/-- In no state that any calls reach are the nodes of the tree named after their GUIDs. -/
theorem guid_unnamed (digest : Bytes → Word w)
    (hreach : (guidBackend (Tables.real digest)).Reachable ctx) (henv : env.WellFormed)
    (hload : storeLoad (Tables.real digest) ctx env = .ok (none, ctx)) :
    ¬ctx.GuidNamed (Tables.real digest) env := by
  have hf := Tables.real_faithful digest
  have G := hreach.holds (guidBackend_mode hf)
  obtain ⟨-, -, hinv⟩ := (storeLoad_spec hf henv G.consistent).of_ok hload
  obtain ⟨hloaded, -, S, I⟩ := hinv rfl
  obtain ⟨n, hn⟩ := List.exists_mem_of_ne_nil _ (G.roots hloaded)
  obtain ⟨e, he, hroot, rfl⟩ := I.entry_of_reaches (.root hn)
  intro named
  obtain ⟨-, -, -, -, hstale⟩ := named.alive _ _ (.root hn) (I.forest.describes e he hroot).id
  have hid : (ctx.ents e).id ≠ rootId := fun h => hroot ((I.id_eq_root he).mp h)
  exact hstale nameA false (by rw [create_stale I G.flag hload hid]; rfl)

/-- The same two folders, with GUIDs as filenames. -/
theorem guid_unnamed_twoFolders : ∃ ctx, (guidBackend colliding).Reachable ctx ∧
    ¬ctx.GuidNamed colliding twoFolders := by
  have h : Yields (fun _ => False)
      ((Call.lookup rootId none).run colliding (.created ⟨true, false, false⟩)
        twoFolders) fun ctx =>
        ctx.watching = true ∧ ctx.loaded = true := by
    decide +kernel
  obtain ⟨ctx, hrun, hwatching, hloaded⟩ := h.exists_ok
  have hwf : twoFolders.WellFormed := Env.written_wellFormed (by decide +kernel)
  have hinit : (guidBackend colliding).init (.created ⟨true, false, false⟩) := ⟨⟨rfl, rfl⟩, rfl⟩
  have hlegal : (guidBackend colliding).legal (.created ⟨true, false, false⟩)
    (twoFolders, .lookup rootId none) := hwf
  have hreach : (guidBackend colliding).Reachable ctx := .step (.init hinit) hlegal hrun
  exact ⟨ctx, hreach, guid_unnamed _ hreach hwf (storeLoad_loaded hwatching hloaded rfl)⟩

/-- The mountpoint is empty, and its first folder is stale. -/
theorem guid_folder_stale : ∃ ctx : Ctx .w64,
    storeLoad colliding (.created ⟨true, false, false⟩) twoFolders = .ok (none, ctx) ∧
    ¬ctx.GuidNamed colliding twoFolders := by
  have h : Yields (fun _ => False) (storeLoad colliding (.created ⟨true, false, false⟩) twoFolders)
      fun r => r.1 = none ∧ 0 ∈ r.2.roots ∧ parseId r.2.json 0 = some 1 ∧
        (jsonStringValue (r.2.json.get 0 .guid)).isSome = true ∧ Yields (fun _ => False)
          (bookmarkList colliding r.2 twoFolders rootId 0 false (some fun _ _ => 0) none)
          fun r => r.1.1 = .ok (0, []) := by
    decide +kernel
  obtain ⟨⟨_, ctx⟩, hload, rfl, hroot, hid, hguid, hlist⟩ := h.exists_ok
  obtain ⟨guid, hguid⟩ := Option.isSome_iff_exists.mp hguid
  refine ⟨ctx, hload, fun named => ?_⟩
  obtain ⟨entries, ⟨cookie, hrun⟩, x, hx, -⟩ :=
    named.listed _ 0 _ guid (.inl ⟨rfl, hroot⟩) hid hguid
  rw [(Prod.mk.inj (Except.ok.inj (hlist.of_ok hrun))).2] at hx
  cases hx

end BookmarkFS.Chromium
