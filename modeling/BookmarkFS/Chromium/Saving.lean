import BookmarkFS.Chromium.Checksum
import BookmarkFS.Chromium.Failures

/-! # What is saved

Whatever an operation does to the tree stays within the cells that the store can
get at, and it either sets the level of data or leaves what the checksum depends
on as it is. No invariant of the maps is needed for this, so it holds of every run.
-/
namespace BookmarkFS.Chromium
open Library Hopscotch

variable {w : WordSize} {tb : Tables w} {ctx ctx' : Ctx w} {env : Env}

/-- The nodes and the arrays that the store or an entry can get at are allocated. -/
structure Enclosed (N : NodeRef → Prop) (A : ArrayRef → Prop) (json : Json) (roots : List NodeRef)
    (ents : Entries) :
    Prop where
  node_lt : ∀ n, N n → n < json.nextNode
  array_lt : ∀ a, A a → a < json.nextArray
  root : ∀ n ∈ roots, N n
  children : ∀ n, N n → ∀ a, json.get n .children = some (.array a) → A a
  elem : ∀ a, A a → ∀ n ∈ json.array a, N n
  entry : ∀ e, N (ents e).node ∧ ∀ a, (ents e).children = some (.array a) → A a

/-- Nothing that the checksum depends on differs. -/
structure Alike (N : NodeRef → Prop) (A : ArrayRef → Prop) (json json' : Json) : Prop where
  get : ∀ n, N n → ∀ k, k = .id ∨ k = .name ∨ k = .url ∨ k = .children →
    json'.get n k = json.get n k
  array : ∀ a, A a → json'.array a = json.array a

/-- What a call that does not load the store may do. -/
structure Ctx.Advances (ctx ctx' : Ctx w) : Prop where
  roots : ctx'.roots = ctx.roots
  loaded : ctx'.loaded = ctx.loaded
  enclosed : ∀ N A, Enclosed N A ctx.json ctx.roots ctx.ents →
    ∃ N' A', Enclosed N' A' ctx'.json ctx'.roots ctx'.ents
  level : ctx'.dirty ≠ .data → ctx.dirty ≠ .data ∧
    ∀ N A, Enclosed N A ctx.json ctx.roots ctx.ents → Alike N A ctx.json ctx'.json

theorem Alike.refl (N : NodeRef → Prop) (A : ArrayRef → Prop) (json : Json) : Alike N A json json :=
  ⟨fun _ _ _ _ => rfl, fun _ _ => rfl⟩

theorem Ctx.Advances.refl (ctx : Ctx w) : ctx.Advances ctx :=
  ⟨rfl, rfl, fun N A h => ⟨N, A, h⟩, fun h => ⟨h, fun N A _ => .refl N A _⟩⟩

namespace Enclosed

variable {N : NodeRef → Prop} {A : ArrayRef → Prop} {json : Json} {roots : List NodeRef}
  {ents : Entries}

theorem set (h : Enclosed N A json roots ents) (n : NodeRef) {k : Key}
    (hk : k ≠ .children) (v : Value) :
    Enclosed N A (json.set n k v) roots ents where
  node_lt := h.node_lt
  array_lt := h.array_lt
  root := h.root
  children m hm a ha := h.children m hm a (by rwa [Json.get_set_of_key hk.symm] at ha)
  elem := h.elem
  entry := h.entry

theorem mtime (h : Enclosed N A json roots ents) (n : NodeRef) (now : Timespec) :
    Enclosed N A (nodeMtimeNow json n now) roots ents :=
  h.set n (by simp) _

theorem storeTimes (h : Enclosed N A json roots ents) (n : NodeRef)
    (atime mtime : Option Timespec) :
    Enclosed N A (storeTimes json n atime mtime) roots ents := by
  cases atime <;> cases mtime
  · exact h
  · exact h.set n (by simp) _
  · exact h.set n (by simp) _
  · exact (h.set n (by simp) _).set n (by simp) _

/-- An array gets elements that the store can get at. -/
theorem setElems (h : Enclosed N A json roots ents) {v : Value} {ns : List NodeRef}
    (hns : ∀ a, v = .array a → A a → ∀ n ∈ ns, N n) :
    Enclosed N A (json.setElems v ns) roots ents where
  node_lt := by simpa using h.node_lt
  array_lt := by simpa using h.array_lt
  root := h.root
  children m hm a ha := h.children m hm a (by simpa using ha)
  elem b hb n hn := by
    cases v with
    | array a =>
      by_cases hba : b = a
      · subst hba
        simp only [Json.setElems, Function.update_self] at hn
        exact hns b rfl hb n hn
      · simp only [Json.setElems, Function.update_of_ne hba] at hn
        exact h.elem b hb n hn
    | string s => exact h.elem b hb n hn
    | other content => exact h.elem b hb n hn
  entry := h.entry

theorem elems (h : Enclosed N A json roots ents) {v : Value} (hv : ∀ a, v = .array a → A a) :
    ∀ n ∈ json.elems v, N n := by
  intro n hn
  cases v with
  | array a => exact h.elem a (hv a rfl) n hn
  | string s => cases hn
  | other content => cases hn

theorem append (h : Enclosed N A json roots ents) (v : Value) {n : NodeRef} (hn : N n) :
    Enclosed N A (json.arrayAppend v n) roots ents := by
  refine h.setElems fun a hv ha m hm => ?_
  subst hv
  obtain hm | hm := List.mem_append.mp hm
  · exact h.elem a ha m hm
  · exact List.mem_singleton.mp hm ▸ hn

theorem remove (h : Enclosed N A json roots ents) (v : Value) (idx : ℕ) :
    Enclosed N A (json.arrayRemove v idx) roots ents := by
  refine h.setElems fun a hv ha m hm => ?_
  subst hv
  exact h.elem a ha m (List.mem_of_mem_eraseIdx hm)

theorem insert (h : Enclosed N A json roots ents) (v : Value) (idx : ℕ) {n : NodeRef} (hn : N n) :
    Enclosed N A (json.arrayInsert v idx n) roots ents := by
  refine h.setElems fun a hv ha m hm => ?_
  subst hv
  obtain rfl | hm := List.eq_or_mem_of_mem_insertIdx hm
  · exact hn
  · exact h.elem a ha m hm

theorem replace (h : Enclosed N A json roots ents) (v : Value) (idx : ℕ) {n : NodeRef} (hn : N n) :
    Enclosed N A (json.arraySet v idx n) roots ents := by
  refine h.setElems fun a hv ha m hm => ?_
  subst hv
  obtain hm | rfl := List.mem_or_eq_of_mem_set hm
  · exact h.elem a ha m hm
  · exact hn

theorem update (h : Enclosed N A json roots ents) {dst src : NodeRef} (hdst : N dst)
    (hsrc : N src) :
    Enclosed N A (json.update dst src) roots ents where
  node_lt := h.node_lt
  array_lt := h.array_lt
  root := h.root
  children m hm a ha := by
    rw [Json.get_update] at ha
    split at ha
    · obtain ha | ⟨-, ha⟩ := Option.or_eq_some_iff.mp ha
      · exact h.children src hsrc a ha
      · exact h.children dst hdst a ha
    · exact h.children m hm a ha
  elem := h.elem
  entry := h.entry

theorem permuted (h : Enclosed N A json roots ents) {children : Value} {op : PermdOp}
    {node1 node2 : NodeRef} {idx1 idx2 : ℕ} {json' : Json} (h1 : N node1) (h2 : N node2)
    (hrun : permuteChildren json children op node1 node2 idx1 idx2 = some json') :
    Enclosed N A json' roots ents := by
  cases op with
  | swap =>
    obtain rfl := Option.some.inj hrun
    exact (h.replace _ _ h2).replace _ _ h1
  | moveBefore | moveAfter =>
    simp only [permuteChildren, reduceCtorEq, if_false, if_true] at hrun
    split at hrun
    · cases hrun
    · obtain rfl := Option.some.inj hrun
      split <;> split
      · exact ((h.remove _ _).insert _ _ h1).remove _ _
      · exact (h.insert _ _ h1).remove _ _
      · exact (h.remove _ _).insert _ _ h1
      · exact h.insert _ _ h1

theorem newObject (h : Enclosed N A json roots ents) :
    Enclosed (fun n => N n ∨ n = json.nextNode) A json.newObject.2 roots ents where
  node_lt n hn := by
    obtain hn | rfl := hn
    · exact (h.node_lt n hn).trans (Nat.lt_succ_self _)
    · exact Nat.lt_succ_self _
  array_lt := h.array_lt
  root n hn := .inl (h.root n hn)
  children n hn a ha := by
    by_cases heq : n = json.nextNode
    · subst heq
      simp [Json.newObject, Json.get] at ha
    · refine h.children n (hn.resolve_right heq) a ?_
      simpa [Json.newObject, Json.get, heq] using ha
  elem a ha n hn := .inl (h.elem a ha n hn)
  entry e := ⟨.inl (h.entry e).1, (h.entry e).2⟩

theorem newArray (h : Enclosed N A json roots ents) :
    Enclosed N (fun a => A a ∨ a = json.nextArray) json.newArray.2 roots ents where
  node_lt := h.node_lt
  array_lt a ha := by
    obtain ha | rfl := ha
    · exact (h.array_lt a ha).trans (Nat.lt_succ_self _)
    · exact Nat.lt_succ_self _
  root := h.root
  children n hn a ha := .inl (h.children n hn a ha)
  elem a ha n hn := by
    by_cases heq : a = json.nextArray
    · subst heq
      simp [Json.newArray] at hn
    · refine h.elem a (ha.resolve_right heq) n ?_
      simpa [Json.newArray, heq] using hn
  entry e := ⟨(h.entry e).1, fun a ha => .inl ((h.entry e).2 a ha)⟩

theorem setChildren (h : Enclosed N A json roots ents) (n : NodeRef) {a : ArrayRef} (ha : A a) :
    Enclosed N A (json.set n .children (.array a)) roots ents where
  node_lt := h.node_lt
  array_lt := h.array_lt
  root := h.root
  children m hm b hb := by
    by_cases heq : m = n
    · subst heq
      rw [Json.get_set_self] at hb
      cases hb
      exact ha
    · exact h.children m hm b (by rwa [Json.get_set_of_node heq] at hb)
  elem := h.elem
  entry := h.entry

theorem buildNodeHead (h : Enclosed N A json roots ents) (node : NodeRef) (isDir : Bool)
    (now : Timespec) :
    ∃ A', (∀ a, A a → A' a) ∧ Enclosed N A' (buildNodeHead json node isDir now) roots ents := by
  cases isDir with
  | true =>
    refine ⟨fun a => A a ∨ a = json.nextArray, fun a ha => .inl ha, ?_⟩
    exact (((h.newArray.setChildren node (.inr rfl)).set node (by simp) _).set node (by simp) _).set
      node (by simp) _
  | false =>
    refine ⟨A, fun a ha => ha, ?_⟩
    exact (((h.set node (by simp) _).set node (by simp) _).set node (by simp) _).set node (by simp)
      _

theorem setEntry (h : Enclosed N A json roots ents) (e : EntryRef) {entry : NodeEntry}
    (hnode : N entry.node) (hchildren : ∀ a, entry.children = some (.array a) → A a) :
    Enclosed N A json roots (Function.update ents e entry) where
  node_lt := h.node_lt
  array_lt := h.array_lt
  root := h.root
  children := h.children
  elem := h.elem
  entry x := by
    by_cases hx : x = e
    · subst hx
      rw [Function.update_self]
      exact ⟨hnode, hchildren⟩
    · rw [Function.update_of_ne hx]
      exact h.entry x

end Enclosed

/-! ## The operations -/

section Operations

variable {status : Option Errno}

theorem Ctx.Advances.of_data (hroots : ctx'.roots = ctx.roots) (hloaded : ctx'.loaded = ctx.loaded)
    (hdirty : ctx'.dirty = .data) (h : ∀ N A, Enclosed N A ctx.json ctx.roots ctx.ents →
      Enclosed N A ctx'.json ctx.roots ctx'.ents) : ctx.Advances ctx' :=
  ⟨hroots, hloaded, fun N A hE => ⟨N, A, hroots ▸ h N A hE⟩, fun hlevel => absurd hdirty hlevel⟩

theorem dropEntry_kept (e : EntryRef) (entryId : Word w) :
    Yields (fun _ => True) (dropEntry tb ctx e entryId) fun ctx' => ctx'.json = ctx.json ∧
    ctx'.ents = ctx.ents ∧ ctx'.roots = ctx.roots ∧ ctx'.loaded = ctx.loaded := by
  rw [dropEntry]
  split
  all_goals
    refine (Yields.any _).bind fun _ _ => (Yields.any _).bind fun _ _ =>
      (Yields.any _).bind fun _ _ => ?_
    exact ⟨rfl, rfl, rfl, rfl⟩

theorem updateGuid_kept (e : EntryRef) (oldEntryId : ℤ) (guid : Bytes) (hashcode : Word w) :
    Yields (fun _ => True) (updateGuid tb ctx e oldEntryId guid hashcode) fun ctx' =>
    ctx'.json = ctx.json ∧
      ctx'.ents = Function.update ctx.ents e { ctx.ents e with guid := guid } ∧
      ctx'.roots = ctx.roots ∧
      ctx'.loaded = ctx.loaded ∧ ctx'.dirty = ctx.dirty ∧ ctx'.flags = ctx.flags := by
  rw [updateGuid]
  refine (Yields.any _).bind fun _ _ => (Yields.any _).bind fun _ _ => ?_
  exact ⟨rfl, rfl, rfl, rfl, rfl, rfl⟩

theorem dropReplaced_kept (new : Option EntryRef) (entryId : Word w) :
    Yields (fun _ => True) (dropReplaced tb ctx new entryId) fun ctx' =>
      ctx'.json = ctx.json ∧ ctx'.ents = ctx.ents ∧ ctx'.roots = ctx.roots ∧
      ctx'.loaded = ctx.loaded := by
  cases new with
  | none => exact ⟨rfl, rfl, rfl, rfl⟩
  | some new => exact dropEntry_kept new entryId

theorem refileRenamed_kept (old : EntryRef) (oldLctx newLctx : LookupCtx w) :
    Yields (fun _ => True) (refileRenamed tb ctx old oldLctx newLctx) fun ctx' =>
    ctx'.json = ctx.json ∧
      (∃ guid, ctx'.ents = Function.update ctx.ents old { ctx.ents old with guid := guid }) ∧
      ctx'.roots = ctx.roots ∧ ctx'.loaded = ctx.loaded := by
  rw [refileRenamed]
  split
  · refine (updateGuid_kept old _ _ _).mono fun ctx' h => ?_
    obtain ⟨hjson, hents, hroots, hloaded, -⟩ := h
    exact ⟨hjson, ⟨_, hents⟩, hroots, hloaded⟩
  · refine (Yields.any _).bind fun _ _ => (Yields.any _).bind fun _ _ => ?_
    exact ⟨rfl, ⟨(ctx.ents old).guid, (Function.update_eq_self old ctx.ents).symm⟩, rfl, rfl⟩

theorem updateName_kept (old oldParent newParent : EntryRef) (oldName newName : CString) :
    Yields (fun _ => True) (updateName ctx old oldParent newParent oldName newName) fun r =>
      ∀ json ents, r = some (json, ents) → ∀ N A, Enclosed N A ctx.json ctx.roots ctx.ents →
        Enclosed N A json ctx.roots ents := by
  rw [updateName]
  split
  · refine (Yields.any _).bind fun _ _ => ?_
    intro json ents h N A hE
    obtain ⟨rfl, rfl⟩ := Prod.mk.inj (Option.some.inj h)
    exact hE
  · cases jsonStringn newName.val with
    | none => rintro _ _ ⟨⟩
    | some nameNode =>
      intro json ents h N A hE
      obtain ⟨rfl, rfl⟩ := Prod.mk.inj (Option.some.inj h)
      exact (hE.set _ (by simp) _).setEntry old (hE.entry old).1 (hE.entry old).2

theorem setPrepare_kept (id : ℕ) (e : EntryRef) (key : Key) (val : Bytes) :
    Yields (fun _ => True) (setPrepare tb ctx id e key val) fun r => r.2.json = ctx.json ∧
    r.2.roots = ctx.roots ∧
      r.2.loaded = ctx.loaded ∧ ∀ N A, Enclosed N A ctx.json ctx.roots ctx.ents →
        Enclosed N A r.2.json ctx.roots r.2.ents := by
  have hsame : ctx.json = ctx.json ∧ ctx.roots = ctx.roots ∧ ctx.loaded = ctx.loaded ∧
      ∀ N A, Enclosed N A ctx.json ctx.roots ctx.ents → Enclosed N A ctx.json ctx.roots ctx.ents :=
    ⟨rfl, rfl, rfl, fun _ _ h => h⟩
  rw [setPrepare.eq_def]
  split
  · split
    · exact hsame
    split <;> exact hsame
  · split
    swap
    · exact hsame
    refine (Yields.any _).bind fun found _ => ?_
    split
    · exact hsame
    refine (updateGuid_kept e _ _ _).bind fun ctx₁ h => ?_
    obtain ⟨hjson, hents, hroots, hloaded, -⟩ := h
    refine ⟨hjson, hroots, hloaded, fun N A hE => ?_⟩
    rw [hjson, hents]
    exact hE.setEntry e (hE.entry e).1 (hE.entry e).2
  · split
    · exact hsame
    split <;> exact hsame
  · exact hsame

theorem xattrKey_ne_children {xattr : Option XattrName} {flags : Flags} {key : Key}
    (h : xattrKey xattr flags = some key) : key ≠ .children := by
  rintro rfl
  rw [xattrKey.eq_def] at h
  split at h <;> try split at h
  all_goals cases h

theorem storeTimes_get {json : Json} (node : NodeRef) (atime mtime : Option Timespec)
    {n : NodeRef} {k : Key}
    (hk : k ≠ .dateLastUsed ∧ k ≠ .dateModified) : (storeTimes json node atime mtime).get n k =
    json.get n k := by
  cases atime <;> cases mtime <;> simp only [storeTimes, Json.get_set_of_key hk.1,
    Json.get_set_of_key hk.2]

/-- What is common to the two halves of a rename. -/
theorem moveNode_enclosed {json : Json} {ents : Entries} (old oldParent newParent : EntryRef)
    (oldNode : NodeRef)
    (new : Option EntryRef) (hE : ∀ N A, Enclosed N A ctx.json ctx.roots ctx.ents →
      Enclosed N A json ctx.roots ents ∧ N oldNode) :
    Yields (fun _ => True) (moveNode json ents old oldParent newParent oldNode new) fun r =>
      ∀ N A, Enclosed N A ctx.json ctx.roots ctx.ents → Enclosed N A r.1 ctx.roots r.2 := by
  rw [moveNode.eq_def]
  cases new with
  | none =>
    dsimp only
    cases (ents oldParent).children with
    | none => trivial
    | some siblings =>
      refine (Yields.any _).bind fun idx _ => ?_
      intro N A hctx
      obtain ⟨h, hnode⟩ := hE N A hctx
      refine Enclosed.setEntry (Enclosed.remove ?_ _ _) old (h.entry old).1 (h.entry old).2
      cases (ents newParent).children with
      | none => exact h
      | some children => exact h.append children hnode
  | some new =>
    dsimp only
    cases (ents oldParent).children with
    | none => trivial
    | some siblings =>
      refine (Yields.any _).bind fun idx _ => ?_
      intro N A hctx
      obtain ⟨h, hnode⟩ := hE N A hctx
      exact ((h.update (h.entry new).1 hnode).remove _ _).setEntry old (h.entry new).1
        (h.entry old).2

theorem renameEntry_advances (now : Timespec) (old oldParent newParent : EntryRef)
    (new : Option EntryRef) (oldName newName : CString) (oldLctx newLctx : LookupCtx w) :
    Yields (fun _ => True)
    (renameEntry tb ctx now old oldParent newParent new oldName newName oldLctx newLctx) fun r =>
      ctx.Advances r.2 := by
  rw [renameEntry]
  refine (updateName_kept old oldParent newParent oldName newName).bind fun r hr => ?_
  cases r with
  | none => exact .refl ctx
  | some q =>
  obtain ⟨json, ents⟩ := q
  have hmoved : Yields (fun _ => True) (if oldParent ≠ newParent then
      moveNode json ents old oldParent newParent (ctx.ents old).node new
        else .ok (json, ents)) fun r =>
      ∀ N A, Enclosed N A ctx.json ctx.roots ctx.ents → Enclosed N A r.1 ctx.roots r.2 := by
    by_cases hmove : oldParent ≠ newParent
    · rw [if_pos hmove]
      exact moveNode_enclosed old oldParent newParent (ctx.ents old).node new
        fun N A hE => ⟨hr json ents rfl N A hE, (hE.entry old).1⟩
    · rw [if_neg hmove]
      exact hr json ents rfl
  refine hmoved.bind fun r hE => ?_
  obtain ⟨json₁, ents₁⟩ := r
  refine (dropReplaced_kept new _).bind fun ctx₁ h₁ =>
    (refileRenamed_kept old _ _).bind fun ctx₂ h₂ => ?_
  obtain ⟨hjson₁, hents₁, hroots₁, hloaded₁⟩ := h₁
  obtain ⟨hjson₂, ⟨guid, hents₂⟩, hroots₂, hloaded₂⟩ := h₂
  refine .of_data (hroots₂.trans hroots₁) (hloaded₂.trans hloaded₁) rfl fun N A h => ?_
  have h' : Enclosed N A json₁ ctx.roots
    (Function.update ents₁ old { ents₁ old with guid := guid }) :=
    (hE N A h).setEntry old ((hE N A h).entry old).1 ((hE N A h).entry old).2
  dsimp only
  rw [hents₂, hents₁]
  rw [renameTimes, hjson₂, hjson₁]
  dsimp only
  split <;> split
  · exact ((h'.mtime _ _).mtime _ _).mtime _ _
  · exact (h'.mtime _ _).mtime _ _
  · exact (h'.mtime _ _).mtime _ _
  · exact h'.mtime _ _

theorem setTimes_advances (node : NodeRef) (atime mtime : Option Timespec) :
    ctx.Advances (setTimes ctx node atime mtime).2 := by
  rw [setTimes]
  split
  · exact .refl ctx
  refine ⟨rfl, rfl, fun N A hE => ⟨N, A, hE.storeTimes node atime mtime⟩,
    fun hlevel => ⟨?_, fun N A hE => ?_⟩⟩
  · intro hdirty
    simp [hdirty] at hlevel
  · refine ⟨fun n _ k hk => storeTimes_get node atime mtime ?_, fun a _ => by rw [storeTimes_array]⟩
    obtain rfl | rfl | rfl | rfl := hk <;> simp

theorem setValue_advances (now : Timespec) (id : ℕ) (e : EntryRef) (xattr : Option XattrName)
    (val : Bytes) :
    Yields (fun _ => True) (setValue tb ctx now id e xattr val) fun r => ctx.Advances r.2 := by
  rw [setValue]
  dsimp only
  cases hkey : xattrKey xattr ctx.flags with
  | none => exact .refl ctx
  | some key =>
  dsimp only
  split
  · exact .refl ctx
  refine ((setPrepare_reply id e key val).and (setPrepare_kept id e key val)).bind fun r hr => ?_
  obtain ⟨reply, ctx₁⟩ := r
  obtain ⟨hreply, hjson, hroots, hloaded, hE⟩ := hr
  cases reply with
  | some reply =>
    obtain rfl : ctx₁ = ctx := hreply reply rfl
    exact .refl _
  | none =>
    refine .of_data hroots hloaded rfl fun N A h => ?_
    have hset : Enclosed N A (setString ctx₁.json (ctx.ents e).node key val)
      ctx.roots ctx₁.ents := by
      rw [setString]
      split
      · exact (hE N A h).set _ (xattrKey_ne_children hkey) _
      · exact hE N A h
    dsimp only
    split
    · exact hset.mtime _ _
    · exact hset

theorem buildNode_kept (node : NodeRef) (name : Bytes) (isDir : Bool) :
    Yields (fun _ => True) (buildNode tb ctx env node name isDir) fun r => r.2.ents = ctx.ents ∧
      r.2.roots = ctx.roots ∧ r.2.loaded = ctx.loaded ∧ r.2.dirty = ctx.dirty ∧
      ∀ N A, Enclosed N A ctx.json ctx.roots ctx.ents →
        ∃ A', (∀ a, A a → A' a) ∧ Enclosed N A' r.2.json ctx.roots ctx.ents := by
  rw [buildNode]
  dsimp only
  split
  · exact ⟨rfl, rfl, rfl, rfl, fun N A h => h.buildNodeHead node isDir env.now⟩
  cases jsonStringn name with
  | none =>
    refine ⟨rfl, rfl, rfl, rfl, fun N A h => ?_⟩
    obtain ⟨A', hsub, h'⟩ := h.buildNodeHead node isDir env.now
    exact ⟨A', hsub, h'.set node (by simp) _⟩
  | some nameNode =>
    dsimp only
    split
    · refine ⟨rfl, rfl, rfl, rfl, fun N A h => ?_⟩
      obtain ⟨A', hsub, h'⟩ := h.buildNodeHead node isDir env.now
      exact ⟨A', hsub, ((h'.set node (by simp) _).set node (by simp) _).set node (by simp) _⟩
    · refine (Yields.any _).bind fun hashcode _ => ?_
      refine ⟨rfl, rfl, rfl, rfl, fun N A h => ?_⟩
      obtain ⟨A', hsub, h'⟩ := h.buildNodeHead node isDir env.now
      exact ⟨A', hsub, ((h'.set node (by simp) _).set node (by simp) _).set node (by simp) _⟩

theorem addNode_kept (now : Timespec) (parentId : ℕ) (parent : EntryRef) (siblings : Value)
    (node : NodeRef) (name : CString) (isDir : Bool) (lctx : LookupCtx w) (bctx : BuildCtx w) :
    Yields (fun _ => True)
    (addNode tb ctx now parentId parent siblings node name isDir lctx bctx) fun r =>
      r.2.roots = ctx.roots ∧ r.2.loaded = ctx.loaded ∧ r.2.dirty = .data ∧
      ∀ N A, Enclosed N A ctx.json ctx.roots ctx.ents → N node →
      Enclosed N A r.2.json ctx.roots r.2.ents := by
  rw [addNode]
  refine (Yields.any _).bind fun idMap _ => ?_
  cases ctx.flags.filenameGuid
  all_goals
    simp only [Bool.false_eq_true, if_true, if_false]
    refine (Yields.any _).bind fun assocMap _ => (Yields.any _).bind fun guidMap _ => ?_
    refine ⟨rfl, rfl, rfl, fun N A h hnode => ?_⟩
    have happend := h.append siblings hnode
    have hentry : ∀ a, (if isDir = true then (ctx.json.arrayAppend siblings node).get node .children
      else none) =
        some (.array a) → A a := by
      intro a ha
      split at ha
      · exact happend.children node hnode a ha
      · cases ha
    exact ((happend.setEntry ctx.nextEntry hnode hentry).setEntry ctx.nextEntry hnode hentry).mtime
      _ _

section Loaded

variable (hload : storeLoad tb ctx env = .ok (status, ctx))

include hload

theorem bookmarkDelete_advances (parentId : ℕ) (name : CString) (deleteDir : Bool) :
    Yields (fun _ => True) (bookmarkDelete tb ctx env parentId name deleteDir) fun r =>
    ctx.Advances r.2 := by
  rw [bookmarkDelete]
  split
  · exact .refl ctx
  simp only [hload, ok_bind]
  cases status with
  | some err => exact .refl ctx
  | none =>
  refine (Yields.any _).bind fun parent _ => ?_
  cases parent with
  | none => exact .refl ctx
  | some p =>
  dsimp only
  split
  · exact .refl ctx
  cases (ctx.ents p).children with
  | none => exact .refl ctx
  | some siblings =>
  refine (Yields.any _).bind ?_
  rintro ⟨found, lctx, entry⟩ -
  cases entry with
  | none => exact .refl ctx
  | some e =>
  dsimp only
  split
  · exact .refl ctx
  split
  · exact .refl ctx
  refine (Yields.any _).bind fun idx _ => (dropEntry_kept e _).bind fun ctx₁ h => ?_
  obtain ⟨hjson, hents, hroots, hloaded⟩ := h
  refine .of_data hroots hloaded rfl fun N A hE => ?_
  dsimp only
  rw [hjson, hents]
  exact (hE.remove siblings idx).mtime _ _

theorem bookmarkPermute_advances (parentId : ℕ) (op : PermdOp) (name1 name2 : CString) :
    Yields (fun _ => True) (bookmarkPermute tb ctx env parentId op name1 name2) fun r =>
    ctx.Advances r.2 := by
  rw [bookmarkPermute]
  split
  · exact .refl ctx
  simp only [hload, ok_bind]
  cases status with
  | some err => exact .refl ctx
  | none =>
  dsimp only
  split
  · exact .refl ctx
  split
  · exact .refl ctx
  refine (Yields.any _).bind fun parent _ => ?_
  cases parent with
  | none => exact .refl ctx
  | some p =>
  dsimp only
  split
  · exact .refl ctx
  cases (ctx.ents p).children with
  | none => exact .refl ctx
  | some children =>
  refine (Yields.any _).bind ?_
  rintro ⟨found1, _, entry1⟩ -
  cases entry1 with
  | none => exact .refl ctx
  | some e1 =>
  dsimp only
  split
  · exact .refl ctx
  refine (Yields.any _).bind ?_
  rintro ⟨found2, _, entry2⟩ -
  cases entry2 with
  | none => exact .refl ctx
  | some e2 =>
  dsimp only
  split
  · exact .refl ctx
  split
  · exact .refl ctx
  refine (Yields.any _).bind fun idx1 _ => (Yields.any _).bind fun idx2 _ => ?_
  split
  · exact .refl ctx
  next json hjson =>
    refine .of_data rfl rfl rfl fun N A hE => Enclosed.mtime ?_ _ _
    exact hE.permuted (hE.entry e1).1 (hE.entry e2).1 hjson

theorem bookmarkRename_advances (oldParentId : ℕ) (oldName : CString) (newParentId : ℕ)
    (newName : CString) (noreplace : Bool) :
    Yields (fun _ => True)
    (bookmarkRename tb ctx env oldParentId oldName newParentId newName noreplace) fun r =>
      ctx.Advances r.2 := by
  rw [bookmarkRename]
  split
  · exact .refl ctx
  simp only [hload, ok_bind]
  cases status with
  | some err => exact .refl ctx
  | none =>
  refine (Yields.any _).bind fun oldParent _ => ?_
  cases oldParent with
  | none => exact .refl ctx
  | some oldParent =>
  dsimp only
  split
  · exact .refl ctx
  split
  · exact .refl ctx
  refine (Yields.any _).bind ?_
  rintro ⟨oldFound, oldLctx, oldEntry⟩ -
  cases oldEntry with
  | none => exact .refl ctx
  | some old =>
  dsimp only
  split
  · exact .refl ctx
  refine (Yields.any _).bind fun newParent _ => ?_
  cases newParent with
  | none => exact .refl ctx
  | some newParent =>
  dsimp only
  split
  · exact .refl ctx
  split
  · exact .refl ctx
  refine (Yields.any _).bind ?_
  rintro ⟨newFound, newLctx, new⟩ -
  dsimp only
  split
  · exact .refl ctx
  exact renameEntry_advances _ _ _ _ _ _ _ _ _

theorem bookmarkSet_advances (id : ℕ) (arg : SetArg) :
    Yields (fun _ => True) (bookmarkSet tb ctx env id arg) fun r => ctx.Advances r.2 := by
  rw [bookmarkSet]
  split
  · exact .refl ctx
  simp only [hload, ok_bind]
  cases status with
  | some err => exact .refl ctx
  | none =>
  refine (Yields.any _).bind fun r _ => ?_
  cases r with
  | none => exact .refl ctx
  | some e =>
  dsimp only
  split
  · exact .refl ctx
  split
  · exact .refl ctx
  cases arg with
  | times atime mtime => exact setTimes_advances _ _ _
  | value xattr val => exact setValue_advances _ _ _ _ _

theorem bookmarkCheckApply_advances (parentId id : ℕ) (name : CString) :
    Yields (fun _ => True) (bookmarkCheckApply tb ctx env parentId id name) fun r =>
    ctx.Advances r.2 := by
  rw [bookmarkCheckApply]
  cases status with
  | some err =>
    rw [checkDir, hload]
    split <;> exact .refl ctx
  | none =>
  refine (checkDir_kept hload parentId).bind ?_
  rintro ⟨dir, ctx₁⟩ hctx
  obtain rfl : ctx₁ = ctx := hctx
  cases dir with
  | error err => exact .refl _
  | ok children =>
  dsimp only
  rw [fsckApply.eq_def]
  refine (Yields.any _).bind fun r _ => ?_
  cases r with
  | none => exact .refl _
  | some e =>
  dsimp only
  split
  · exact .refl _
  split
  · exact .refl _
  split
  · exact .refl _
  refine (Yields.any _).bind fun found _ => ?_
  split
  · exact .refl _
  split
  swap
  · exact .refl _
  refine (Yields.any _).bind fun assocMap _ => .of_data rfl rfl rfl fun N A hE => ?_
  exact (hE.set _ (by simp) _).setEntry e (hE.entry e).1 (hE.entry e).2

theorem bookmarkCreate_advances (parentId : ℕ) (name : CString) (isDir : Bool) :
    Yields (fun _ => True) (bookmarkCreate tb ctx env parentId name isDir) fun r =>
    ctx.Advances r.2 := by
  rw [bookmarkCreate]
  split
  · exact .refl ctx
  simp only [hload, ok_bind]
  cases status with
  | some err => exact .refl ctx
  | none =>
  refine (Yields.any _).bind fun parent _ => ?_
  cases parent with
  | none => exact .refl ctx
  | some p =>
  dsimp only
  split
  · exact .refl ctx
  cases hsiblings : (ctx.ents p).children with
  | none => exact .refl ctx
  | some siblings =>
  refine (Yields.any _).bind ?_
  rintro ⟨found, lctx, entry⟩ -
  dsimp only
  split
  · -- the entry is there, and is looked at for the stat buffer only
    cases entry with
    | none => exact .refl ctx
    | some e =>
    dsimp only
    cases parseId ctx.json (ctx.ents e).node with
    | none => exact .refl ctx
    | some id =>
      dsimp only
      split <;> exact .refl ctx
  split
  · exact .refl ctx
  refine ((buildNode_error le_rfl name isDir (buildNodeHead_extends _ isDir _)).and
    (buildNode_kept ctx.json.nextNode name isDir)).bind ?_
  rintro ⟨built, ctx₁⟩ hbuilt
  obtain ⟨herror, hents, hroots, hloaded, hdirty, hE⟩ := hbuilt
  cases built with
  | error err =>
    refine ⟨hroots, hloaded, fun N A h => ?_, fun hlevel => ⟨hdirty ▸ hlevel, fun N A h => ?_⟩⟩
    · obtain ⟨A', -, h'⟩ := hE _ _ h.newObject
      refine ⟨fun n => N n ∨ n = ctx.json.nextNode, A', ?_⟩
      dsimp only at hroots hents ⊢
      rwa [hroots, hents]
    · obtain ⟨hextends, -⟩ := herror err rfl
      exact ⟨fun n hn k _ => hextends.get n (h.node_lt n hn) k, fun a ha => hextends.array a
        (h.array_lt a ha)⟩
  | ok bctx =>
    refine (addNode_kept _ _ _ _ _ _ _ _ _).mono fun r hr => ?_
    obtain ⟨hroots', hloaded', hdirty', hadded⟩ := hr
    refine ⟨hroots'.trans hroots, hloaded'.trans hloaded, fun N A h => ?_,
      fun hlevel => absurd hdirty' hlevel⟩
    obtain ⟨A', -, h'⟩ := hE _ _ h.newObject
    dsimp only at hroots hents h'
    rw [← hroots, ← hents] at h'
    exact ⟨_, A', hroots'.symm ▸ hadded _ A' h' (.inr rfl)⟩

end Loaded

end Operations

/-! ## The load -/

section Load

variable {N : NodeRef → Prop} {A : ArrayRef → Prop}

theorem mapsIterName_enclosed (hE : Enclosed N A ctx.json ctx.roots ctx.ents) (parent e : EntryRef)
    (name : Bytes) :
    Yields (fun _ => True) (mapsIterName tb ctx parent e name) fun ctx' => ctx'.json = ctx.json ∧
      Enclosed N A ctx'.json ctx'.roots ctx'.ents := by
  simp only [mapsIterName]
  split
  · exact ⟨rfl, hE⟩
  split
  · exact ⟨rfl, hE⟩
  split
  · exact ⟨rfl, hE⟩
  refine (Yields.any _).bind fun found _ => ?_
  split
  · exact ⟨rfl, hE⟩
  · exact (Yields.any _).bind fun assocMap _ => ⟨rfl, hE.setEntry e (hE.entry e).1 (hE.entry e).2⟩

theorem mapsIterCb_enclosed (hE : Enclosed N A ctx.json ctx.roots ctx.ents) {node : NodeRef}
    (hnode : N node) (parent : EntryRef) : Yields (fun _ => True)
    (mapsIterCb tb ctx node (ctx.json.get node .children) parent) fun r =>
      ∀ e ctx', r = some (e, ctx') → Enclosed N A ctx'.json ctx'.roots ctx'.ents := by
  rw [mapsIterCb]
  cases parseId ctx.json node with
  | none => rintro _ _ ⟨⟩
  | some id =>
  refine (Yields.any _).bind fun found _ => ?_
  split
  · rintro _ _ ⟨⟩
  cases parseGuid ((jsonStringValue (ctx.json.get node .guid)).getD []) with
  | none => rintro _ _ ⟨⟩
  | some guid =>
  refine (Yields.any _).bind fun found _ => ?_
  split
  · rintro _ _ ⟨⟩
  cases jsonStringValue (ctx.json.get node .name) with
  | none => rintro _ _ ⟨⟩
  | some name =>
  refine (Yields.any _).bind fun idMap _ => (Yields.any _).bind fun guidMap _ => ?_
  refine (mapsIterName_enclosed (N := N) (A := A) ?_ _ _ _).bind fun ctx₁ h => ?_
  · refine Enclosed.setEntry ?_ _ hnode (hE.children node hnode)
    dsimp only
    split
    · split
      · exact hE
      · exact hE.append _ hnode
    · exact hE
  · rintro e ctx' hsome
    obtain ⟨-, rfl⟩ := Prod.mk.inj (Option.some.inj hsome)
    exact h.2

theorem iterList_enclosed {visit : Ctx w → NodeRef → EntryRef → Except Fault (Option (Ctx w))}
    (hvisit : ∀ ctx node parent, Enclosed N A ctx.json ctx.roots ctx.ents → N node →
      Yields (fun _ => True) (visit ctx node parent) fun r => ∀ ctx' ∈ r,
      Enclosed N A ctx'.json ctx'.roots ctx'.ents)
    (nodes : List NodeRef) (hnodes : ∀ n ∈ nodes, N n) (parent : EntryRef)
    (hE : Enclosed N A ctx.json ctx.roots ctx.ents) :
    Yields (fun _ => True) (iterList visit ctx nodes parent) fun r =>
      ∀ ctx' ∈ r, Enclosed N A ctx'.json ctx'.roots ctx'.ents := by
  induction nodes generalizing ctx with
  | nil => exact fun ctx' h => by cases h; exact hE
  | cons node nodes ih =>
    rw [iterList]
    refine (hvisit ctx node parent hE (hnodes node List.mem_cons_self)).bind fun r hr => ?_
    cases r with
    | none => exact nofun
    | some ctx₁ => exact ih (fun n hn => hnodes n (List.mem_cons_of_mem _ hn)) (hr ctx₁ rfl)

theorem iterNode_enclosed (depth : ℕ) (ctx : Ctx w) (node : NodeRef) (parent : EntryRef)
    (hE : Enclosed N A ctx.json ctx.roots ctx.ents) (hnode : N node) :
    Yields (fun _ => True) (iterNode tb depth ctx node parent) fun r =>
      ∀ ctx' ∈ r, Enclosed N A ctx'.json ctx'.roots ctx'.ents := by
  induction depth generalizing ctx node parent with
  | zero =>
    rw [iterNode]
    refine (mapsIterCb_enclosed hE hnode parent).bind fun r hr => ?_
    cases r with
    | none => rintro _ ⟨⟩
    | some found =>
      cases ctx.json.get node .children with
      | none => exact fun ctx' h => by cases h; exact hr _ _ rfl
      | some children => rintro _ ⟨⟩
  | succ depth ih =>
    rw [iterNode]
    refine (mapsIterCb_enclosed hE hnode parent).bind fun r hr => ?_
    cases r with
    | none => rintro _ ⟨⟩
    | some found =>
      have hchildren := hE.children node hnode
      cases hget : ctx.json.get node .children with
      | none => exact fun ctx' h => by cases h; exact hr _ _ rfl
      | some children =>
        rw [hget] at hchildren
        have hfound := hr found.1 found.2 rfl
        exact iterList_enclosed ih _ (hfound.elems fun a ha => hchildren a (ha ▸ rfl)) _ hfound

/-- What a parser returns is enclosed, and stays so while the maps are built. -/
theorem buildMaps_enclosed {json : Json} {roots : List NodeRef} (sep : Separate json roots) :
    Yields (fun _ => True) (buildMaps tb ctx json roots) fun r =>
      ∀ ctx' ∈ r, ∃ N A, Enclosed N A ctx'.json ctx'.roots ctx'.ents := by
  obtain ⟨json', hroot, hobject, harray, hchildren, hempty, hnode, hnext⟩ := makeFakeRoot_spec json
  simp only [buildMaps, hroot, iterRoots]
  refine (Yields.any _).bind fun idMap _ => (Yields.any _).bind fun guidMap _ => ?_
  split
  · rintro _ ⟨⟩
  let N := fun n => Reaches json roots n ∨ n = json.nextNode
  let A := fun a => (∃ n, Reaches json roots n ∧ json.get n .children = some (.array a)) ∨
    a = json.nextArray
  have hE : Enclosed N A json' roots fun _ => fakeRootEntry json := by
    refine ⟨fun n hn => ?_, fun a ha => ?_, fun n hn => .inl (.root hn), fun n hn a ha => ?_,
      fun a ha n hn => ?_, ?_⟩
    · obtain hn | rfl := hn
      · exact hnode ▸ (sep.node_lt n hn).trans (Nat.lt_succ_self _)
      · exact hnode ▸ Nat.lt_succ_self _
    · obtain ⟨n, hn, ha⟩ | rfl := ha
      · exact hnext ▸ (sep.array_lt n a hn ha).trans (Nat.lt_succ_self _)
      · exact hnext ▸ Nat.lt_succ_self _
    · obtain hn | rfl := hn
      · rw [Json.get, hobject n (sep.node_lt n hn).ne] at ha
        exact .inl ⟨n, hn, ha⟩
      · rw [hchildren] at ha
        cases ha
        exact .inr rfl
    · obtain ⟨m, hm, ha⟩ | rfl := ha
      · rw [harray a (sep.array_lt m a hm ha).ne] at hn
        exact .inl (.child hm ha hn)
      · rw [hempty] at hn
        cases hn
    · exact fun e => ⟨.inr rfl, fun a ha => .inr (by cases ha; rfl)⟩
  refine (iterList_enclosed (iterNode_enclosed _) roots (fun n hn => .inl (.root hn)) rootEntry hE).mono
    fun r hr ctx' h => ⟨N, A, hr ctx' h⟩

end Load

/-- Whether `store_load()` comes to `do_load`. -/
def Ctx.reloads (ctx : Ctx w) (env : Env) : Bool :=
  if ctx.watching = false then env.initWatcher
  else if ctx.dirty ≠ .none then false
  else match env.poll with
    | .unchanged => !ctx.loaded
    | .changed => true
    | .noEntry | .failed => false

/-- A load that fails leaves the tree in memory as it was. -/
structure Ctx.SameTree (ctx ctx' : Ctx w) : Prop where
  tree : ctx'.json = ctx.json ∧ ctx'.roots = ctx.roots ∧ ctx'.ents = ctx.ents
  dirty : ctx'.dirty = ctx.dirty
  loaded : ctx'.loaded = true → ctx.loaded = true

theorem doLoad_cases {file : Option Document} (hfile : ∀ doc, file = some doc → doc.WellFormed) :
    Yields (fun _ => True) (doLoad tb ctx file) fun r =>
      (r.1 = none ∧ ∃ N A, Enclosed N A r.2.json r.2.roots r.2.ents) ∨ r.1 ≠ none ∧ r.2 = ctx := by
  unfold doLoad
  cases file with
  | none => exact .inr ⟨nofun, rfl⟩
  | some doc =>
  dsimp only
  split
  · exact .inr ⟨nofun, rfl⟩
  split
  · exact .inr ⟨nofun, rfl⟩
  cases hroots : doc.roots with
  | none => exact .inr ⟨nofun, rfl⟩
  | some roots =>
  refine (buildMaps_enclosed (hfile doc rfl roots hroots)).bind fun r hr => ?_
  cases r with
  | none => exact .inr ⟨nofun, rfl⟩
  | some new => exact .inl ⟨rfl, hr new rfl⟩

theorem storeLoad_cases (henv : env.WellFormed) : Yields (fun _ => True) (storeLoad tb ctx env) fun r =>
    ((ctx.reloads env = true ∧ r.1 = none) ∧ ∃ N A, Enclosed N A r.2.json r.2.roots r.2.ents) ∨
      ¬(ctx.reloads env = true ∧ r.1 = none) ∧ ctx.SameTree r.2 := by
  have hload : ∀ ctx₀ : Ctx w, ctx.SameTree ctx₀ → ctx.reloads env = true →
      Yields (fun _ => True) (doLoad tb ctx₀ env.file) fun r =>
        ((ctx.reloads env = true ∧ r.1 = none) ∧ ∃ N A, Enclosed N A r.2.json r.2.roots r.2.ents) ∨
          ¬(ctx.reloads env = true ∧ r.1 = none) ∧ ctx.SameTree r.2 := by
    intro ctx₀ hsame hreloads
    refine (doLoad_cases henv.file).mono fun r hr => ?_
    obtain ⟨hnone, hE⟩ | ⟨hsome, rfl⟩ := hr
    · exact .inl ⟨⟨hreloads, hnone⟩, hE⟩
    · exact .inr ⟨fun h => hsome h.2, hsame⟩
  have hrefl : ctx.SameTree ctx := ⟨⟨rfl, rfl, rfl⟩, rfl, id⟩
  rw [storeLoad]
  by_cases hwatching : ctx.watching = false
  · rw [if_pos hwatching]
    by_cases hinit : env.initWatcher = false
    · rw [if_pos hinit]
      exact .inr ⟨fun h => (by cases h.2), hrefl⟩
    · rw [if_neg hinit]
      exact hload _ ⟨⟨rfl, rfl, rfl⟩, rfl, id⟩ (by simpa [Ctx.reloads, hwatching] using hinit)
  rw [if_neg hwatching]
  by_cases hdirty : ctx.dirty ≠ .none
  · rw [if_pos hdirty]
    exact .inr ⟨by simp [Ctx.reloads, hwatching, hdirty], hrefl⟩
  rw [if_neg hdirty]
  cases hpoll : env.poll with
  | unchanged =>
    dsimp only
    by_cases hloaded : ctx.loaded = true
    · rw [if_pos hloaded]
      exact .inr ⟨by simp [Ctx.reloads, hwatching, hdirty, hpoll, hloaded], hrefl⟩
    · rw [if_neg hloaded]
      exact hload _ hrefl (by simpa [Ctx.reloads, hwatching, hdirty, hpoll] using hloaded)
  | changed => exact hload _ ⟨⟨rfl, rfl, rfl⟩, rfl, fun h => by cases h⟩ (by simp [Ctx.reloads, hwatching, hdirty, hpoll])
  | noEntry => exact .inr ⟨fun h => (by cases h.2), hrefl⟩
  | failed => exact .inr ⟨fun h => (by cases h.2), hrefl⟩

/-! ## Runs -/

inductive SaverEvent where
  /-- `store_load()`, on a file with the given checksum. -/
  | load (env : Env) (sum : Bytes)
  /-- A call on a store that need not be loaded. -/
  | call (env : Env) (call : Call)
  /-- `store_save()`, which can write the file or not. -/
  | save (written : Bool)

section Runs

variable (tb : Tables w) (utf16 : Bytes → Option Bytes) (md5 : Bytes → Bytes)

/-- The runs of a backend on files with checksums that are right. A call that has to load the store
is a load followed by the call. -/
def saving : System (Saver w) SaverEvent Fault where
  init s := s.ctx.loaded = false ∧ s.ctx.dirty = .none
  legal s event := match event with
    | .load env sum => env.WellFormed ∧ ∀ ctx, storeLoad tb s.ctx env = .ok (none, ctx) →
        s.ctx.reloads env = true →
      RightSum utf16 md5 ctx.json ctx.roots sum
    | .call env _ => ∃ status, storeLoad tb s.ctx env = .ok (status, s.ctx)
    | .save _ => True
  step s event := match event with
    | .load env sum => do
      let (status, ctx) ← storeLoad tb s.ctx env
      .ok ⟨ctx, if s.ctx.reloads env = true ∧ status = none then sum else s.sum⟩
    | .call env call => (fun ctx => ⟨ctx, s.sum⟩) <$> call.run tb s.ctx env
    | .save written => .ok (storeSave utf16 md5 s written).2

/-- The store is enclosed, and its checksum is right if it is not to be computed anew. -/
def Saver.Sound (s : Saver w) : Prop :=
  s.ctx.loaded = true → (∃ N A, Enclosed N A s.ctx.json s.ctx.roots s.ctx.ents) ∧
    (s.ctx.dirty ≠ .data → RightSum utf16 md5 s.ctx.json s.ctx.roots s.sum)

end Runs

section Sound

variable {utf16 : Bytes → Option Bytes} {md5 : Bytes → Bytes} {s s' : Saver w}

/-- What the checksum depends on is what can be got at from the roots. -/
theorem Alike.preorder {N : NodeRef → Prop} {A : ArrayRef → Prop} {json json' : Json}
    {roots : List NodeRef}
    {ents : Entries} (h : Alike N A json json') (hE : Enclosed N A json roots ents) (depth : ℕ) :
    json'.preorder depth roots = json.preorder depth roots ∧
    ∀ n ∈ json.preorder depth roots, N n := by
  have hkids : ∀ n, N n → json'.kids n = json.kids n := by
    intro n hn
    rw [Json.kids, Json.kids, h.get n hn .children (by simp)]
    have hchildren := hE.children n hn
    cases hget : json.get n .children with
    | none => rfl
    | some c =>
      rw [hget] at hchildren
      cases c with
      | array a => exact congrArg some (h.array a (hchildren a rfl))
      | string s => rfl
      | other content => rfl
  have hclosed : ∀ n ns, N n → json.kids n = some ns → ∀ m ∈ ns, N m := by
    intro n ns hn hns m hm
    obtain ⟨c, hc, rfl⟩ := Option.map_eq_some_iff.mp hns
    exact hE.elems (fun a ha => hE.children n hn a (ha ▸ hc)) m hm
  refine ⟨List.flatMap_congr fun n hn => (Walk.preorder_congr hkids hclosed depth (hE.root n hn)).1,
    fun m hm => ?_⟩
  obtain ⟨n, hn, hm⟩ := List.mem_flatMap.mp hm
  exact (Walk.preorder_congr hkids hclosed depth (hE.root n hn)).2 m hm

theorem Alike.rightSum {N : NodeRef → Prop} {A : ArrayRef → Prop} {json json' : Json}
    {roots : List NodeRef}
    {ents : Entries} (h : Alike N A json json') (hE : Enclosed N A json roots ents) {sum : Bytes}
    (hsum : RightSum utf16 md5 json roots sum) : RightSum utf16 md5 json' roots sum := by
  intro depth hdepth
  obtain ⟨hsame, hN⟩ := h.preorder hE depth
  rw [hsum depth hdepth, hsame]
  congr 2
  refine List.flatMap_congr fun n hn => ?_
  rw [chksumNode, chksumNode, h.get n (hN n hn) .id (by simp), h.get n (hN n hn) .name (by simp),
    h.get n (hN n hn) .url (by simp), h.get n (hN n hn) .children (by simp)]

/-- A call that need not load the store, of whatever kind, does what it may. -/
theorem Call.run_advances {status : Option Errno} (hload : storeLoad tb ctx env = .ok (status, ctx))
    {call : Call} (hrun : call.run tb ctx env = .ok ctx') : ctx.Advances ctx' := by
  by_cases hcall : call.Modifies
  · cases call with
    | create parentId name isDir =>
        exact (Yields.map (bookmarkCreate_advances hload parentId name isDir)).of_ok hrun
    | delete parentId name deleteDir =>
      exact (Yields.map (bookmarkDelete_advances hload parentId name deleteDir)).of_ok hrun
    | permute parentId op name1 name2 =>
      exact (Yields.map (bookmarkPermute_advances hload parentId op name1 name2)).of_ok hrun
    | rename oldParentId oldName newParentId newName noreplace =>
      exact (Yields.map (bookmarkRename_advances hload oldParentId oldName newParentId newName
        noreplace)).of_ok hrun
    | set id arg => exact (Yields.map (bookmarkSet_advances hload id arg)).of_ok hrun
    | checkApply parentId id name =>
        exact (Yields.map (bookmarkCheckApply_advances hload parentId id name)).of_ok hrun
    | lookup | get | list | checkNext => exact hcall.elim
  · obtain ⟨status', hload'⟩ | rfl := Call.run_reads_load hcall hrun
    · obtain ⟨-, rfl⟩ := Prod.mk.inj (Except.ok.inj (hload.symm.trans hload'))
      exact .refl _
    · exact .refl _

theorem Saver.Sound.load {env : Env} {sum : Bytes} (hs : s.Sound utf16 md5)
    (hlegal : (saving tb utf16 md5).legal s (.load env sum))
    (hstep : (saving tb utf16 md5).step s (.load env sum) = .ok s') : s'.Sound utf16 md5 := by
  obtain ⟨henv, hsum⟩ := hlegal
  obtain ⟨⟨status, ctx⟩, hload, hs'⟩ := bind_eq_ok.mp hstep
  obtain rfl := Except.ok.inj hs'
  obtain ⟨hnew, hE⟩ | ⟨hold, hsame⟩ := (storeLoad_cases henv).of_ok hload
  · obtain ⟨hreloads, rfl⟩ := hnew
    refine fun _ => ⟨hE, fun _ => ?_⟩
    rw [if_pos ⟨hreloads, rfl⟩]
    exact hsum ctx hload hreloads
  · intro hloaded
    obtain ⟨hjson, hroots, hents⟩ := hsame.tree
    obtain ⟨hE, hright⟩ := hs (hsame.loaded hloaded)
    rw [if_neg hold]
    dsimp only at hjson hroots hents ⊢
    rw [hjson, hroots, hents, hsame.dirty]
    exact ⟨hE, hright⟩

theorem Saver.Sound.call {env : Env} {call : Call} (hs : s.Sound utf16 md5)
    (hlegal : (saving tb utf16 md5).legal s (.call env call))
    (hstep : (saving tb utf16 md5).step s (.call env call) = .ok s') : s'.Sound utf16 md5 := by
  obtain ⟨status, hload⟩ := hlegal
  cases hrun : call.run tb s.ctx env with
  | error fault =>
    simp only [saving, hrun] at hstep
    cases hstep
  | ok ctx =>
    simp only [saving, hrun] at hstep
    obtain rfl := Except.ok.inj hstep
    have h := Call.run_advances hload hrun
    intro hloaded
    obtain ⟨⟨N, A, hE⟩, hright⟩ := hs (h.loaded ▸ hloaded)
    refine ⟨h.enclosed N A hE, fun hlevel => ?_⟩
    obtain ⟨hbefore, halike⟩ := h.level hlevel
    exact h.roots ▸ (halike N A hE).rightSum hE (hright hbefore)

/-- `store_save()` leaves a checksum that is right. -/
theorem storeSave_spec (hs : s.Sound utf16 md5) (written : Bool) :
    (storeSave utf16 md5 s written).2.Sound utf16 md5 ∧
    ((storeSave utf16 md5 s written).1 = true → s.ctx.loaded = true →
      RightSum utf16 md5 (storeSave utf16 md5 s written).2.ctx.json
      (storeSave utf16 md5 s written).2.ctx.roots
        (storeSave utf16 md5 s written).2.sum) := by
  rw [storeSave]
  by_cases hclean : s.ctx.dirty = .none
  · rw [if_pos hclean]
    exact ⟨hs, fun _ hloaded => (hs hloaded).2 (by simp [hclean])⟩
  rw [if_neg hclean]
  cases hsum : (if s.ctx.dirty = .data then chksumRoot utf16 md5 s.ctx.json s.ctx.roots
    else some s.sum) with
  | none => exact ⟨hs, fun hsaved => absurd hsaved Bool.false_ne_true⟩
  | some sum =>
    have hright : s.ctx.loaded = true → RightSum utf16 md5 s.ctx.json s.ctx.roots sum := by
      intro hloaded
      split at hsum
      · exact chksumRoot_spec hsum
      next hlevel => exact Option.some.inj hsum ▸ (hs hloaded).2 hlevel
    cases written with
    | true => exact ⟨fun hloaded => ⟨(hs hloaded).1, fun _ => hright hloaded⟩,
        fun _ hloaded => hright hloaded⟩
    | false => exact ⟨fun hloaded => ⟨(hs hloaded).1, fun _ => hright hloaded⟩,
        fun hsaved => absurd hsaved Bool.false_ne_true⟩

theorem saving_sound : (saving tb utf16 md5).Invariant (Saver.Sound utf16 md5) where
  init s hinit hloaded := absurd (hinit.1.symm.trans hloaded) Bool.false_ne_true
  step s event s' hs hlegal hstep := by
    cases event with
    | load env sum => exact hs.load hlegal hstep
    | call env call => exact hs.call hlegal hstep
    | save written => exact Except.ok.inj hstep ▸ (storeSave_spec hs written).1

/-- In every run on files with checksums that are right, what is saved has a checksum that is
right: the loop with the stack walks as the recursion does, which only fails on what is nested too
deep, and no call that changes what the checksum depends on leaves it to stand. -/
theorem saved_checksum_right (hreach : (saving tb utf16 md5).Reachable s)
    (hloaded : s.ctx.loaded = true) :
    (∀ written, (storeSave utf16 md5 s written).1 = true →
      RightSum utf16 md5 (storeSave utf16 md5 s written).2.ctx.json
      (storeSave utf16 md5 s written).2.ctx.roots
        (storeSave utf16 md5 s written).2.sum) ∧
    (∀ env status (call : Call) ctx', storeLoad tb s.ctx env = .ok (status, s.ctx) →
      call.run tb s.ctx env = .ok ctx' →
      ctx'.dirty ≠ .data → ∀ depth, ctx'.json.preorder depth ctx'.roots =
      s.ctx.json.preorder depth s.ctx.roots ∧
        ∀ n ∈ s.ctx.json.preorder depth s.ctx.roots, ∀ k, k = .id ∨ k = .name ∨ k = .url ∨
        k = .children →
          ctx'.json.get n k = s.ctx.json.get n k) ∧
    (∀ {σ δ : Type} (visit : σ → NodeRef → δ → Option (σ × δ)) (state : σ)
      (n : NodeRef) (datum : δ),
      Walk.Ends s.ctx.json.kids visit maxNodeIterDepth state (some n) [⟨[], 0, datum⟩]
        (Walk.visitTree s.ctx.json.kids visit (maxNodeIterDepth - 1) state n datum) ∧
      ((∀ state n datum, (visit state n datum).isSome) →
        (Walk.visitTree s.ctx.json.kids visit (maxNodeIterDepth - 1) state n datum = none ↔
          Walk.Nested s.ctx.json.kids maxNodeIterDepth n))) := by
  have hs := hreach.holds saving_sound
  refine ⟨fun written hsaved => (storeSave_spec hs written).2 hsaved hloaded, ?_, ?_⟩
  · intro env status call ctx' hload hrun hlevel depth
    obtain ⟨⟨N, A, hE⟩, -⟩ := hs hloaded
    have h := Call.run_advances hload hrun
    have halike := (h.level hlevel).2 N A hE
    obtain ⟨hsame, hN⟩ := halike.preorder hE depth
    exact ⟨by rw [h.roots, hsame], fun n hn k hk => halike.get n (hN n hn) k hk⟩
  · intro σ δ visit state n datum
    exact ⟨Walk.loop_eq state n datum (by decide), fun htotal => Walk.visitTree_eq_none_iff htotal _
      state n datum⟩

end Sound

def aBookmark : Env := .written (.written [writtenFolder 1 [65] 0, writtenUrl 2 [97] []] [[1]]) [0]

/-- UTF-16LE, as long as all characters are ASCII. -/
def asciiUtf16 (s : Bytes) : Option Bytes := some (s.flatMap fun c => [c, 0])

/-- The MD5 digests of what the store with one bookmark comes to, first with no URL and then with
that of one letter. -/
def sampleMd5 (s : Bytes) : Bytes :=
  if s = [49, 65, 0, 102, 111, 108, 100, 101, 114, 50, 97, 0, 117, 114, 108] then
    [23, 32, 68, 133, 38, 156, 207, 120, 54, 150, 160, 35, 182, 140, 162, 93]
  else if s = [49, 65, 0, 102, 111, 108, 100, 101, 114, 50, 97, 0, 117, 114, 108, 98] then
    [192, 9, 137, 66, 249, 200, 253, 98, 3, 222, 164, 135, 253, 76, 146, 121]
  else []

/-- The checksums of the store with one bookmark, without an URL and with one -/
def sumBefore : Bytes :=
  base16Encode [23, 32, 68, 133, 38, 156, 207, 120, 54, 150, 160, 35, 182, 140, 162, 93]

def sumAfter : Bytes :=
  base16Encode [192, 9, 137, 66, 249, 200, 253, 98, 3, 222, 164, 135, 253, 76, 146, 121]

/-- A new URL is saved with a new checksum. -/
theorem saved_checksum_right_set : ∃ s : Saver .w64, s.ctx.dirty = .data ∧
    (storeSave asciiUtf16 sampleMd5 s true).2.sum = sumAfter ∧
    RightSum asciiUtf16 sampleMd5 (storeSave asciiUtf16 sampleMd5 s true).2.ctx.json
      (storeSave asciiUtf16 sampleMd5 s true).2.ctx.roots
      (storeSave asciiUtf16 sampleMd5 s true).2.sum := by
  have h : Yields (fun _ => False) (storeLoad colliding (.created ⟨false, false, false⟩)
    aBookmark) fun r =>
      r.1 = none ∧ (r.2.watching = true ∧ r.2.loaded = true) ∧
        chksumRoot asciiUtf16 sampleMd5 r.2.json r.2.roots = some sumBefore ∧
        Yields (fun _ => False) ((Call.set 2 (.value none [98])).run colliding r.2 aBookmark)
        fun ctx =>
          (ctx.loaded = true ∧ ctx.dirty = .data) ∧
            chksumRoot asciiUtf16 sampleMd5 ctx.json ctx.roots = some sumAfter := by
    decide +kernel
  obtain ⟨⟨_, ctx⟩, hload, rfl, ⟨hwatching, hloaded⟩, hsum, h⟩ := h.exists_ok
  obtain ⟨ctx', hrun, ⟨hloaded', hdirty⟩, hsum'⟩ := h.exists_ok
  dsimp only at hwatching hloaded hsum hrun
  have hwf : aBookmark.WellFormed := Env.written_wellFormed (by decide +kernel)
  have hstart : (saving colliding asciiUtf16 sampleMd5).Reachable ⟨ctx, sumBefore⟩ := by
    refine .step (.init (s := ⟨.created ⟨false, false, false⟩, []⟩) ⟨rfl, rfl⟩)
      (l := .load aBookmark sumBefore) ?_ ?_
    · refine ⟨hwf, fun ctx₁ hload₁ _ => ?_⟩
      obtain ⟨-, rfl⟩ := Prod.mk.inj (Except.ok.inj (hload.symm.trans hload₁))
      exact chksumRoot_spec hsum
    · simp only [saving, hload, ok_bind]
      rfl
  have hreach : (saving colliding asciiUtf16 sampleMd5).Reachable ⟨ctx', sumBefore⟩ := by
    have hlegal : (saving colliding asciiUtf16 sampleMd5).legal ⟨ctx, sumBefore⟩
        (.call aBookmark (.set 2 (.value none [98]))) :=
          ⟨none, storeLoad_loaded hwatching hloaded rfl⟩
    refine .step hstart hlegal ?_
    simp only [saving, hrun]
    rfl
  have hsave : storeSave asciiUtf16 sampleMd5 ⟨ctx', sumBefore⟩ true =
      (true, ⟨{ ctx' with dirty := .none }, sumAfter⟩) := by
    simp only [storeSave, hdirty, hsum', reduceCtorEq, if_true, if_false]
  refine ⟨_, hdirty, ?_, (saved_checksum_right hreach hloaded').1 true (congrArg Prod.fst hsave)⟩
  exact congrArg (fun r => r.2.sum) hsave

end BookmarkFS.Chromium
