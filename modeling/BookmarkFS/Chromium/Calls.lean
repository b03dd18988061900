import BookmarkFS.Chromium.Creation
import BookmarkFS.Chromium.Renaming
import BookmarkFS.Chromium.Repair
import BookmarkFS.Chromium.Written
import BookmarkFS.Library.Transition

/-! # Runs of the backend

A step is one call, with what it finds outside of the context. A call is legal
if the file, the clock and the generator of UUIDs are what they can be, if the
kernel would make it, and if it does not run into one of the defects of the
backend: a folder whose children are no array, a name that is replaced in its
own directory, an association map that shrinks in the middle of a rename, and a
repair that is filed under the wrong hashcode. In every state that legal calls
reach, the invariant of the context holds.
-/
namespace BookmarkFS.Chromium
open Library Hopscotch

variable {w : WordSize} {tb : Tables w} {ctx : Ctx w} {env : Env} {S : Finset EntryRef}

/-- The entry points of the backend. -/
inductive Call where
  | create (parentId : ℕ) (name : CString) (isDir : Bool)
  | delete (parentId : ℕ) (name : CString) (deleteDir : Bool)
  | permute (parentId : ℕ) (op : PermdOp) (name1 name2 : CString)
  | rename (oldParentId : ℕ) (oldName : CString) (newParentId : ℕ) (newName : CString)
      (noreplace : Bool)
  | set (id : ℕ) (arg : SetArg)
  | lookup (id : ℕ) (name : Option CString)
  | get (id : ℕ) (xattr : Option XattrName)
  | list (id off : ℕ) (withStat : Bool) (callback : Option ListCallback)
      (cookie : Option ListCookie)
  | checkNext (parentId : ℕ) (callback : FsckReport → ℤ) (idx : ℕ)
  | checkApply (parentId id : ℕ) (name : CString)

section Runs

variable (tb : Tables w)

/-- The context that a call leaves behind. -/
def Call.run (ctx : Ctx w) (env : Env) : Call → Except Fault (Ctx w)
  | .create parentId name isDir => Prod.snd <$> bookmarkCreate tb ctx env parentId name isDir
  | .delete parentId name deleteDir => Prod.snd <$> bookmarkDelete tb ctx env parentId
      name deleteDir
  | .permute parentId op name1 name2 =>
    Prod.snd <$> bookmarkPermute tb ctx env parentId op name1 name2
  | .rename oldParentId oldName newParentId newName noreplace =>
    Prod.snd <$> bookmarkRename tb ctx env oldParentId oldName newParentId newName noreplace
  | .set id arg => Prod.snd <$> bookmarkSet tb ctx env id arg
  | .lookup id name => Prod.snd <$> bookmarkLookup tb ctx env id name
  | .get id xattr => Prod.snd <$> bookmarkGet tb ctx env id xattr
  | .list id off withStat callback cookie =>
    Prod.snd <$> bookmarkList tb ctx env id off withStat callback cookie
  | .checkNext parentId callback idx =>
    Prod.snd <$> bookmarkCheckNext tb ctx env parentId callback idx
  | .checkApply parentId id name => Prod.snd <$> bookmarkCheckApply tb ctx env parentId id name

/-- What is asked of a call on the store that it finds up to date; `S` are the entries of the map of
identifiers. Nothing is asked of a create that draws no UUID, nor of a rename that is refused. -/
def Call.Legal (ctx : Ctx w) (env : Env) (S : Finset EntryRef) : Call → Prop
  | .create parentId name _ => ∀ p c, Draws ctx S parentId name p c →
    (∃ a, c = .array a) ∧ ∀ e ∈ S, (ctx.ents e).guid ≠ env.uuid
  | .rename oldParentId oldName newParentId newName noreplace => ∀ x v,
      Named ctx S oldParentId oldName x →
    Replaces ctx S x newParentId newName v → (v ≠ none → noreplace = false) →
      (∀ q ∈ S, (ctx.ents q).id = newParentId → ¬Below ctx.ents S x q ∧
        ∀ c, (ctx.ents q).children = some c → ∃ a, c = .array a) ∧
      (v ≠ none → oldParentId ≠ newParentId ∧ ¬ctx.assocMap.Shrinks)
  | .checkApply parentId id name => ∀ e, Hidden ctx S parentId id e →
    validateFilename (proposed name) = none → validUtf8 (proposed name) = true →
      hashAssoc tb id (proposed name) = hashAssoc tb parentId (proposed name)
  | _ => True

/-- The runs of the backend from the moment it is created. -/
def backend : System (Ctx w) (Env × Call) Fault where
  init ctx := ctx.loaded = false ∧ ctx.dirty = .none
  legal ctx request := request.1.WellFormed ∧ ∀ ctx₁ S, storeLoad tb ctx request.1 =
    .ok (none, ctx₁) →
    (∀ e, e ∈ S ↔ ctx₁.idMap.Contains e) → request.2.Legal tb ctx₁ request.1 S
  step ctx request := request.2.run tb ctx request.1

end Runs

theorem Inv.entries (I : Inv tb ctx S) (e : EntryRef) : e ∈ S ↔ ctx.idMap.Contains e :=
  (I.indexed.id.contains_iff e).symm

theorem Inv.consistent (I : Inv tb ctx S) (h : ctx.loaded = true) : ctx.Consistent tb :=
  ⟨fun _ => ⟨S, I⟩, fun _ => h⟩

def Call.Modifies : Call → Prop
  | .create .. | .delete .. | .permute .. | .rename .. | .set .. | .checkApply .. => True
  | .lookup .. | .get .. | .list .. | .checkNext .. => False

namespace Call

variable {call : Call}

theorem Legal.of_refreshed (hlegal : (backend tb).legal ctx (env, call)) {ctx₁ : Ctx w}
    (R : Refreshed tb ctx env ctx₁ S) : call.Legal tb ctx₁ env S :=
  hlegal.2 ctx₁ S R.load R.inv.entries

/-- What one step preserves: a legal call that may change the store ends as it should, unless a
table has to be larger than it can be. -/
theorem run_modifies (hf : tb.Faithful) (C : ctx.Consistent tb)
    (hlegal : (backend tb).legal ctx (env, call)) (hcall : call.Modifies) :
    Yields Fault.Abort (call.run tb ctx env) fun ctx' => ctx'.Consistent tb := by
  have henv : env.WellFormed := hlegal.1
  cases call with
  | create parentId name isDir =>
    refine Yields.map ((bookmarkCreate_spec hf henv C parentId name isDir fun ctx₁ S p c R D =>
      (Legal.of_refreshed hlegal R p c D).2).mono fun r hr => ?_)
    obtain ⟨err, -, C'⟩ | ⟨ctx₁, S, p, c, R, K⟩ := hr
    · exact C'
    obtain ⟨a, rfl⟩ :=
      (Legal.of_refreshed hlegal R p c ⟨K.parent, K.siblings, K.free, K.id_le, K.utf8⟩).1
    refine (K.inv R.inv henv.uuid).consistent ?_
    obtain ⟨idMap, guidMap, assocMap, h⟩ := K.change
    rw [h]
    exact R.loaded
  | delete parentId name deleteDir =>
    refine Yields.map ((bookmarkDelete_spec hf henv C parentId name deleteDir).mono fun r hr => ?_)
    obtain ⟨err, -, C'⟩ | ⟨ctx₁, S, p, e, a, R, D⟩ := hr
    · exact C'
    refine (D.inv R.inv).consistent ?_
    obtain ⟨idMap, guidMap, assocMap, h⟩ := D.change
    rw [h]
    exact R.loaded
  | permute parentId op name1 name2 =>
    refine Yields.map ((bookmarkPermute_spec hf henv C parentId op name1 name2).mono fun r hr => ?_)
    obtain ⟨err, -, C'⟩ | ⟨ctx₁, S, p, e1, e2, a, R, P⟩ := hr
    · exact C'
    refine (P.inv R.inv).consistent ?_
    obtain ⟨h, -⟩ | h := P.change <;> rw [h] <;> exact R.loaded
  | rename oldParentId oldName newParentId newName noreplace =>
    refine Yields.map
      ((bookmarkRename_spec hf henv C oldParentId oldName newParentId newName noreplace
      fun ctx₁ S x v R hx hv hnoreplace =>
        ((Legal.of_refreshed hlegal R x (some v) hx hv fun _ => hnoreplace).2
          (Option.some_ne_none v)).2).mono
      fun r hr => ?_)
    obtain ⟨err, -, C'⟩ | ⟨S, R, -⟩ | ⟨ctx₁, S, p, q, x, v, a, c, R, hnoreplace, T⟩ := hr
    · exact C'
    · exact R.inv.consistent R.loaded
    obtain ⟨hparent, hreplace⟩ := Legal.of_refreshed hlegal R x v T.entry T.replaced hnoreplace
    obtain ⟨hbelow, harray⟩ := hparent q T.newParent.1 T.newParent.2.2.1
    obtain ⟨b, rfl⟩ := harray c T.newSiblings
    refine (T.inv R.inv (fun hv hpq => (hreplace hv).1 ?_) hbelow).consistent ?_
    · rw [← T.oldParent.2.2.1, ← T.newParent.2.2.1, hpq]
    · obtain ⟨idMap, guidMap, assocMap, h⟩ := T.change
      rw [h]
      exact R.loaded
  | set id arg =>
    refine Yields.map ((bookmarkSet_spec hf henv C id arg).mono fun r hr => ?_)
    obtain ⟨err, -, C'⟩ | ⟨ctx₁, S, e, R, hsettable, T⟩ := hr
    · exact C'
    exact (T.inv R.inv hsettable.mem hsettable.ne_root).consistent (T.loaded.trans R.loaded)
  | checkApply parentId id name =>
    refine Yields.map ((bookmarkCheckApply_spec hf henv C
      fun ctx₁ S R => Legal.of_refreshed hlegal R).mono fun r hr => ?_)
    obtain C' | ⟨ctx₁, S, e, R, hflag, hshown, T⟩ := hr
    · exact C'
    refine (T.inv R.inv hflag hshown).consistent ?_
    obtain ⟨assocMap, h⟩ := T.change
    rw [h]
    exact R.loaded
  | lookup | get | list | checkNext => exact hcall.elim

/-- What a call that only reads leaves behind is what `store_load()` has left to it. -/
theorem load_of_read {α : Type} {f : Option Errno × Ctx w → Except Fault (α × Ctx w)}
    (hread : ∀ status ctx₁, storeLoad tb ctx env = .ok (status, ctx₁) →
      Yields (fun _ => True) (f (status, ctx₁)) fun r => r.2 = ctx₁)
    {ctx' : Ctx w} (h : (Prod.snd <$> (storeLoad tb ctx env >>= f)) = .ok ctx') :
    ∃ status, storeLoad tb ctx env = .ok (status, ctx') := by
  cases hload : storeLoad tb ctx env with
  | error e => rw [hload] at h; cases h
  | ok q =>
    rw [hload, ok_bind] at h
    have := (Yields.map (R := fun ctx' => ctx' = q.2) (hread q.1 q.2 hload)).of_ok h
    exact ⟨q.1, by rw [this]⟩

theorem run_reads_load (hcall : ¬call.Modifies) {ctx' : Ctx w}
    (h : call.run tb ctx env = .ok ctx') :
    (∃ status, storeLoad tb ctx env = .ok (status, ctx')) ∨ ctx' = ctx := by
  cases call with
  | lookup id name =>
    refine .inl (load_of_read (fun status ctx₁ _ => ?_) h)
    cases status with
    | some err => rfl
    | none => exact (Yields.any _).bind fun r _ => by cases r <;> rfl
  | get id xattr =>
    refine .inl (load_of_read (fun status ctx₁ _ => ?_) h)
    cases status with
    | some err => rfl
    | none =>
      refine (Yields.any _).bind fun r _ => ?_
      cases r with
      | none => rfl
      | some e =>
        dsimp only
        by_cases hname : (ctx₁.ents e).name = none
        · rw [if_pos hname]; rfl
        rw [if_neg hname]
        by_cases hid : (ctx₁.ents e).id = rootId
        · rw [if_pos hid]; rfl
        rw [if_neg hid]
        cases xattrKey xattr ctx₁.flags with
        | none => rfl
        | some key =>
          cases hval : ctx₁.json.get (ctx₁.ents e).node key with
          | none => simp only [hval]; rfl
          | some val => simp only [hval]; cases jsonStringValue (some val) <;> rfl
  | list id off withStat callback cookie =>
    refine .inl (load_of_read (fun status ctx₁ _ => ?_) h)
    cases status with
    | some err => rfl
    | none =>
      refine (Yields.any _).bind fun r _ => ?_
      cases r with
      | error err => rfl
      | ok found =>
        cases callback with
        | none => rfl
        | some callback => exact (Yields.any _).bind fun _ _ => rfl
  | checkNext parentId callback idx =>
    obtain ⟨⟨dir, ctx₁⟩, hdir, hrest⟩ : ∃ q, checkDir tb ctx env parentId = .ok q ∧
        q.2 = ctx' := by
      cases hdir : checkDir tb ctx env parentId with
      | error e => simp [run, bookmarkCheckNext, hdir] at h
      | ok q =>
        refine ⟨q, rfl, ?_⟩
        have hrun : Yields (fun _ => True) (bookmarkCheckNext tb ctx env parentId callback idx)
            fun r => r.2 = q.2 := by
          rw [bookmarkCheckNext, hdir, ok_bind]
          obtain ⟨dir, ctx₁⟩ := q
          cases dir with
          | error err => rfl
          | ok children => exact (Yields.any _).bind fun _ _ => rfl
        exact ((Yields.map (R := fun ctx' => q.2 = ctx') (hrun.mono fun r hr => hr.symm)).of_ok h)
    obtain rfl : ctx₁ = ctx' := hrest
    rw [checkDir] at hdir
    split_ifs at hdir with hmode
    · exact .inr (congrArg Prod.snd (Except.ok.inj hdir)).symm
    refine .inl (load_of_read (fun status ctx₁ _ => ?_) (congrArg (Prod.snd <$> ·) hdir))
    cases status with
    | some err => rfl
    | none =>
      refine (Yields.any _).bind fun r _ => ?_
      cases r with
      | none => rfl
      | some e =>
        dsimp only
        split_ifs
        · rfl
        split <;> rfl
  | create | delete | permute | rename | set | checkApply => exact absurd trivial hcall

theorem run_reads (hf : tb.Faithful) (C : ctx.Consistent tb)
    (hlegal : (backend tb).legal ctx (env, call)) (hcall : ¬call.Modifies) {ctx' : Ctx w}
    (h : call.run tb ctx env = .ok ctx') : ctx'.Consistent tb := by
  obtain ⟨status, hload⟩ | rfl := run_reads_load hcall h
  · exact ((storeLoad_spec hf hlegal.1 C).of_ok hload).1
  · exact C

end Call

theorem backend_consistent (hf : tb.Faithful) : (backend tb).Invariant (Ctx.Consistent tb) where
  init ctx h := ⟨fun hloaded => absurd (h.1.symm.trans hloaded) Bool.false_ne_true,
    fun hdirty => absurd h.2 hdirty⟩
  step ctx request ctx' C hlegal hstep := by
    by_cases hcall : request.2.Modifies
    · exact (Call.run_modifies hf C hlegal hcall).of_ok hstep
    · exact Call.run_reads hf C hlegal hcall hstep

/-! ## Calls on a store that is loaded -/

theorem storeLoad_loaded (hwatching : ctx.watching = true) (hloaded : ctx.loaded = true)
    (hpoll : env.poll = .unchanged) : storeLoad tb ctx env = .ok (none, ctx) := by
  simp [storeLoad, hwatching, hloaded, hpoll]

theorem first_load_spec (hf : tb.Faithful) {flags : Flags} (henv : env.WellFormed)
    (hload : storeLoad tb (.created flags) env = .ok (none, ctx)) :
    ctx.loaded = true ∧ ctx.watching = true ∧ ctx.flags = flags ∧ ∃ S, Inv tb ctx S ∧
    ctx.AsLoaded S := by
  have C : ({ Ctx.created flags with watching := true } : Ctx w).Consistent tb :=
    ⟨nofun, fun h => absurd rfl h⟩
  have hstart : (Ctx.created flags : Ctx w).watching = false := rfl
  rw [storeLoad, if_pos hstart] at hload
  by_cases hinit : env.initWatcher = false
  · rw [if_pos hinit] at hload
    cases hload
  · rw [if_neg hinit] at hload
    obtain ⟨-, hflags, hwatching, hspec⟩ := (doLoad_spec hf henv.file C).of_ok hload
    obtain ⟨hloaded, hinv⟩ := hspec rfl
    exact ⟨hloaded, hwatching, hflags, hinv⟩

theorem legal_loaded {call : Call} (henv : env.WellFormed)
    (hload : storeLoad tb ctx env = .ok (none, ctx))
    (h : ∀ S, (∀ e ∈ S, e ∈ ctx.idMap.visited) → call.Legal tb ctx env S) :
    (backend tb).legal ctx (env, call) := by
  refine ⟨henv, fun ctx₁ S hload' hS => ?_⟩
  obtain rfl : ctx = ctx₁ := congrArg Prod.snd (Except.ok.inj (hload.symm.trans hload'))
  exact h S fun e he => (Hashmap.mem_visited_iff _ e).mpr ((hS e).mp he)

theorem reachable_created {flags : Flags} (henv : env.WellFormed)
    (hrun : (Call.lookup rootId none).run tb (.created flags) env = .ok ctx) :
    (backend tb).Reachable ctx := by
  have hlegal : (backend tb).legal (.created flags) (env, .lookup rootId none) :=
    ⟨henv, fun _ _ _ _ => trivial⟩
  exact .step (.init ⟨rfl, rfl⟩) hlegal hrun

theorem Below.parent_ne_root {x e : EntryRef} (h : Below ctx.ents S x e)
    (hroot : ∀ p ∈ S, (ctx.ents p).id = rootId → (ctx.ents p).parentId = rootId)
    (hx : (ctx.ents x).parentId ≠ rootId) : (ctx.ents e).parentId ≠ rootId := by
  induction h with
  | self => exact hx
  | child _ hp hid _ ih => exact fun h => ih (hroot _ hp (hid.trans h))

def colliding : Tables .w64 := .real fun _ => 0

/-- A hash function that adds up the bytes in a polynomial. -/
def polynomial : Tables .w64 := .real (List.foldl (fun h c => h * 33 + c.toNat) 0)

/-- Two folders, one with two bookmarks and one with one. -/
def twoFolders : Env :=
  .written (.written [writtenFolder 1 [65] 0, writtenFolder 2 [66] 1, writtenUrl 3 [97] [],
    writtenUrl 4 [98] [], writtenUrl 5 [97] []] [[2, 3], [4]]) [0, 1]

def nameA : CString := ⟨[97], by decide⟩

def nameB : CString := ⟨[98], by decide⟩

/-- A rename that replaces a bookmark in another directory, as the kernel would make it. -/
theorem twoFolders_rename : ∃ ctx ctx', (backend colliding).Reachable ctx ∧
    (backend colliding).legal ctx (twoFolders, .rename 1 nameA 2 nameA false) ∧
    (Call.rename 1 nameA 2 nameA false).run colliding ctx twoFolders = .ok ctx' ∧
    ctx'.loaded = true ∧ ctx'.json.array 0 = [3] ∧ ctx'.json.array 1 = [4] := by
  have h : Yields (fun _ => False)
      ((Call.lookup rootId none).run colliding (.created ⟨false, false, false⟩)
        twoFolders) fun ctx =>
        ctx.watching = true ∧ ctx.loaded = true ∧ ¬ctx.assocMap.Shrinks ∧
        (∀ e ∈ ctx.idMap.visited, (ctx.ents e).id = rootId → (ctx.ents e).parentId = rootId) ∧
        (∀ e ∈ ctx.idMap.visited, (ctx.ents e).id = 2 →
          (ctx.ents e).parentId = rootId ∧ (ctx.ents e).children = some (.array 1)) ∧
        Yields (fun _ => False) ((Call.rename 1 nameA 2 nameA false).run colliding ctx twoFolders)
          fun ctx' => ctx'.loaded = true ∧ ctx'.json.array 0 = [3] ∧ ctx'.json.array 1 = [4] := by
    decide +kernel
  obtain ⟨ctx, hload, hwatching, hloaded, hshrinks, hroot, hfolder, h⟩ := h.exists_ok
  obtain ⟨ctx', hrename, h⟩ := h.exists_ok
  have hwf : twoFolders.WellFormed := Env.written_wellFormed (by decide +kernel)
  refine ⟨ctx, ctx', reachable_created hwf hload, ?_, hrename, h⟩
  refine legal_loaded hwf (storeLoad_loaded hwatching hloaded rfl)
    fun S hS x v hx hv _ => ⟨fun q hq hqid => ?_, fun _ => ⟨by decide, hshrinks⟩⟩
  obtain ⟨htop, hchildren⟩ := hfolder q (hS q hq) hqid
  refine ⟨fun hbelow => ?_, fun c hc => ⟨1, Option.some.inj (hc.symm.trans hchildren)⟩⟩
  refine hbelow.parent_ne_root (fun p hp => hroot p (hS p hp)) ?_ htop
  rw [hx.2.1]
  decide

end BookmarkFS.Chromium
