import BookmarkFS.Chromium.Calls

/-! # Agreement of the tree and the maps

Every operation updates the JSON tree and three maps by hand. In every state
that legal calls reach, they are about the same bookmarks, under the same names
and in the same directories.
-/
namespace BookmarkFS.Chromium
open Library Hopscotch

variable {w : WordSize} {tb : Tables w} {ctx : Ctx w} {S : Finset EntryRef}

/-- The JSON tree and the maps are about the same bookmarks. -/
structure Ctx.Agrees (ctx : Ctx w) : Prop where
  /-- The nodes of the tree are those of the entries, the root apart, one for each. -/
  node_iff : ∀ n, Reaches ctx.json ctx.roots n ↔
    ∃ e, ctx.idMap.Contains e ∧ e ≠ rootEntry ∧ (ctx.ents e).node = n
  node_inj : ∀ e e', ctx.idMap.Contains e → ctx.idMap.Contains e' →
    (ctx.ents e).node = (ctx.ents e').node → e = e'
  once : ∀ e a, ctx.idMap.Contains e → (ctx.ents e).children = some (.array a) →
    (ctx.json.array a).Nodup
  guid_iff : ∀ e, ctx.guidMap.Contains e ↔ ctx.idMap.Contains e
  id : ∀ e, ctx.idMap.Contains e → e ≠ rootEntry →
    parseId ctx.json (ctx.ents e).node = some (ctx.ents e).id
  guid : ∀ e, ctx.idMap.Contains e → e ≠ rootEntry →
    parseGuid ((jsonStringValue (ctx.json.get (ctx.ents e).node .guid)).getD []) =
      some (ctx.ents e).guid
  children : ∀ e, ctx.idMap.Contains e →
    ctx.json.get (ctx.ents e).node .children = (ctx.ents e).children
  /-- An entry is the child of the one folder whose array contains its node. -/
  parent_iff : ∀ e p, ctx.idMap.Contains e → e ≠ rootEntry → ctx.idMap.Contains p →
    ((ctx.ents e).parentId = (ctx.ents p).id ↔ ∃ a, (ctx.ents p).children = some (.array a) ∧
      (ctx.ents e).node ∈ ctx.json.array a)
  parent : ∀ e, ctx.idMap.Contains e → e ≠ rootEntry →
    ∃ p, ctx.idMap.Contains p ∧ (ctx.ents e).parentId = (ctx.ents p).id
  assoc_iff : ∀ e, ctx.assocMap.Contains e ↔
    ctx.idMap.Contains e ∧ e ≠ rootEntry ∧ (ctx.ents e).name ≠ none
  keys : ∀ e e', ctx.assocMap.Contains e → ctx.assocMap.Contains e' →
    (ctx.ents e).parentId = (ctx.ents e').parentId → (ctx.ents e).name = (ctx.ents e').name → e = e'

section Agrees

variable (I : Inv tb ctx S)

include I

theorem Inv.reaches {e : EntryRef} (he : e ∈ S) (hroot : e ≠ rootEntry) :
    Reaches ctx.json ctx.roots (ctx.ents e).node := by
  have hrooted := I.forest.rooted e he
  induction hrooted with
  | root => exact absurd rfl hroot
  | @child e p _ hp hpid _ ih =>
    obtain ⟨q, hq, a, ha, hqid, hmem⟩ := I.forest.folder he hroot
    obtain rfl := I.forest.id_inj p hp q hq (hpid.trans hqid.symm)
    by_cases hproot : p = rootEntry
    · subst hproot
      exact .root (I.roots a ha ▸ hmem)
    · exact .child (ih hp hproot) ((I.forest.children p hp).trans ha) hmem

theorem Inv.entry_of_reaches {n : NodeRef} (h : Reaches ctx.json ctx.roots n) :
    ∃ e ∈ S, e ≠ rootEntry ∧ (ctx.ents e).node = n := by
  induction h with
  | root hn =>
    obtain ⟨a, ha⟩ := I.forest.root_array
    obtain ⟨e, he, hroot, hen, -⟩ := I.forest.child_entry I.forest.root_mem ha (I.roots a ha ▸ hn)
    exact ⟨e, he, hroot, hen⟩
  | @child n m c _ hc hm ih =>
    obtain ⟨p, hp, -, rfl⟩ := ih
    cases c with
    | array a =>
      obtain ⟨e, he, hroot, hen, -⟩ :=
        I.forest.child_entry hp ((I.forest.children p hp).symm.trans hc) hm
      exact ⟨e, he, hroot, hen⟩
    | string _ => cases hm
    | other _ => cases hm

theorem Inv.agrees : ctx.Agrees := by
  have hid := fun e => (I.entries e).symm
  have hguid := I.indexed.guid.contains_iff
  have hassoc := I.indexed.assoc.contains_iff
  refine ⟨fun n => ?_, ?_, ?_, fun e => ?_, ?_, ?_, ?_, ?_, ?_, fun e => ?_, ?_⟩
  · constructor
    · intro h
      obtain ⟨e, he, hroot, hen⟩ := I.entry_of_reaches h
      exact ⟨e, (hid e).mpr he, hroot, hen⟩
    · rintro ⟨e, he, hroot, rfl⟩
      exact I.reaches ((hid e).mp he) hroot
  · exact fun e e' he he' => I.forest.node_inj e ((hid e).mp he) e' ((hid e').mp he')
  · exact fun e a he ha => I.forest.nodup ((hid e).mp he) ha
  · rw [hguid, hid]
  · exact fun e he hroot => (I.forest.describes e ((hid e).mp he) hroot).id
  · exact fun e he hroot => (I.forest.describes e ((hid e).mp he) hroot).guid
  · exact fun e he => I.forest.children e ((hid e).mp he)
  · intro e p he hroot hp
    constructor
    · intro hparent
      obtain ⟨q, hq, a, ha, hqid, hmem⟩ := I.forest.folder ((hid e).mp he) hroot
      obtain rfl := I.forest.id_inj q hq p ((hid p).mp hp) (hqid.trans hparent)
      exact ⟨a, ha, hmem⟩
    · rintro ⟨a, ha, hmem⟩
      exact (I.forest.mem_array_iff ((hid p).mp hp) ha ((hid e).mp he) hroot).mp hmem
  · intro e he hroot
    obtain ⟨p, hp, -, -, hpid, -⟩ := I.forest.folder ((hid e).mp he) hroot
    exact ⟨p, (hid p).mpr hp, hpid.symm⟩
  · rw [hassoc, hid, mem_named]
  · exact fun e e' he he' => I.indexed.names e ((hassoc e).mp he) e' ((hassoc e').mp he')

end Agrees

/-- In every state that legal calls reach, the tree and the maps agree. -/
theorem tree_and_maps_agree (digest : Bytes → Word w) {ctx : Ctx w}
    (hreach : (backend (Tables.real digest)).Reachable ctx) (hloaded : ctx.loaded = true) :
    ctx.Agrees := by
  obtain ⟨S, I⟩ :=
    (hreach.holds (backend_consistent (Tables.real_faithful digest))).inv hloaded
  exact I.agrees

/-- The tree and the maps agree after such a rename. -/
theorem tree_and_maps_agree_replaced :
    ∃ ctx, (backend colliding).Reachable ctx ∧ ctx.json.array 0 = [3] ∧ ctx.Agrees := by
  obtain ⟨ctx, ctx', hreach, hlegal, hrun, hloaded, harray, -⟩ := twoFolders_rename
  exact ⟨ctx', hreach.step hlegal hrun, harray,
    tree_and_maps_agree _ (hreach.step hlegal hrun) hloaded⟩

/-- A name that is replaced in its own directory leaves its node there. -/
theorem replaced_node_stays : ∃ ctx ctx' : Ctx .w64,
    storeLoad colliding (.created ⟨false, false, false⟩) twoFolders = .ok (none, ctx) ∧
    bookmarkRename colliding ctx twoFolders 1 nameA 1 nameB false = .ok (.ok (), ctx') ∧
    ¬ctx'.Agrees := by
  have h : Yields (fun _ => False) (storeLoad colliding (.created ⟨false, false, false⟩) twoFolders)
      fun r => r.1 = none ∧ Yields (fun _ => False)
        (bookmarkRename colliding r.2 twoFolders 1 nameA 1 nameB false) fun r' =>
          r'.1.toOption = some () ∧ 0 ∈ r'.2.roots ∧ r'.2.json.get 0 .children = some (.array 0) ∧
            3 ∈ r'.2.json.array 0 ∧ ∀ e ∈ r'.2.idMap.visited, (r'.2.ents e).node ≠ 3 := by
    decide +kernel
  obtain ⟨⟨_, ctx⟩, hload, rfl, h⟩ := h.exists_ok
  obtain ⟨⟨r, ctx'⟩, hrename, hr, hroot, hchildren, hmem, hnode⟩ := h.exists_ok
  cases r with
  | error err => cases hr
  | ok u =>
    refine ⟨ctx, ctx', hload, hrename, fun hagrees => ?_⟩
    obtain ⟨e, he, -, hen⟩ := (hagrees.node_iff 3).mp (.child (.root hroot) hchildren hmem)
    exact hnode e ((Hashmap.mem_visited_iff _ e).mpr he) hen

end BookmarkFS.Chromium
