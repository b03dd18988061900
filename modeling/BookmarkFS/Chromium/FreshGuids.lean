import BookmarkFS.Chromium.Calls

/-! # GUIDs of new nodes

A node that is created gets a random GUID, under which its entry is filed. A GUID that is
in use should be drawn again, but the `continue` in the loop of `build_node_guid()` goes to
its condition, which is 0: the first GUID is kept, and has no hashcode.
-/
namespace BookmarkFS.Chromium
open Library Hopscotch

variable {w : WordSize} {tb : Tables w} {ctx ctx' : Ctx w} {env : Env} {S : Finset EntryRef}

/-- `uuid_generate_random()`, with what two calls of `prng_rand()` return -/
def uuidGenerateRandom (a b : UInt64) : Bytes :=
  let dst := uint64Bytes a.toNat ++ uint64Bytes b.toNat
  let dst := dst.set 6 (dst.getD 6 0 &&& 0x0f ||| 0x40)
  dst.set 8 (dst.getD 8 0 &&& 0x3f ||| 0x80)

theorem length_uuidGenerateRandom (a b : UInt64) : (uuidGenerateRandom a b).length = uuidLen := by
  simp [uuidGenerateRandom, uint64Bytes, uuidLen]

/-- What `build_node_guid()` hands back, and the store with the node that it is called on -/
structure NodeGuid (w : WordSize) where
  guid : Bytes
  hashcode : Word w
  json : Json

/-- `build_node_guid()` with the random numbers to come, as `build_node()` calls it. -/
def drawNodeGuid (tb : Tables w) (ctx : Ctx w) (node : NodeRef) (random : ℕ → UInt64) :
    Except Fault (NodeGuid w) := do
  let guid := uuidGenerateRandom (random 0) (random 1)
  let hashcode ← buildNodeGuid tb ctx guid
  .ok ⟨guid, hashcode, ctx.json.set node .guid (.string (uuidBin2hex guid))⟩

/-- What is asked of the GUID of a new node. -/
structure NodeGuid.Right (tb : Tables w) (ctx : Ctx w) (node : NodeRef)
    (r : NodeGuid w) : Prop where
  fresh : ∀ e, ctx.guidMap.Contains e → (ctx.ents e).guid ≠ r.guid
  hashcode : r.hashcode = tb.digest r.guid
  member : r.json.get node .guid = some (.string (uuidBin2hex r.guid))

/-- The keys of the map are distinct, and each one is found. -/
structure Ctx.GuidsFound (tb : Tables w) (ctx : Ctx w) : Prop where
  distinct : ∀ e, ctx.guidMap.Contains e → ∀ e', ctx.guidMap.Contains e' →
    (ctx.ents e).guid = (ctx.ents e').guid → e = e'
  found : ∀ e, ctx.guidMap.Contains e → ∃ id, lookupGuid tb ctx (ctx.ents e).guid =
    .ok (some (e, id))

theorem guidsFound_of_distinct (H : Holds ctx.guidMap S (guidmapHash tb ctx.ents))
    (hdistinct : ∀ e ∈ S, ∀ e' ∈ S, (ctx.ents e).guid = (ctx.ents e').guid → e = e') :
    ctx.GuidsFound tb := by
  refine ⟨fun e he e' he' => hdistinct e ((H.contains_iff e).mp he) e' ((H.contains_iff e').mp he'),
    fun e he => ?_⟩
  rw [H.contains_iff] at he
  obtain ⟨r, hrun, hfound, hnone⟩ := lookupGuid_spec H (ctx.ents e).guid
  cases r with
  | none => exact absurd rfl (hnone rfl e he)
  | some p =>
    obtain ⟨hp, hguid, -⟩ := hfound p.1 p.2 rfl
    exact ⟨p.2, by rw [hrun, ← hdistinct p.1 hp e he hguid]⟩

theorem drawNodeGuid_spec (H : Holds ctx.guidMap S (guidmapHash tb ctx.ents)) (node : NodeRef)
    (random : ℕ → UInt64) :
    ∃ r, drawNodeGuid tb ctx node random = .ok r ∧
    r.guid = uuidGenerateRandom (random 0) (random 1) ∧
      r.json.get node .guid = some (.string (uuidBin2hex r.guid)) ∧
      ((∀ e ∈ S, (ctx.ents e).guid ≠ r.guid) → r.hashcode = tb.digest r.guid) := by
  obtain ⟨found, hrun, hfound, -⟩ := lookupGuid_spec H (uuidGenerateRandom (random 0) (random 1))
  rw [lookupGuid] at hrun
  simp only [drawNodeGuid, buildNodeGuid, hrun, ok_bind]
  cases found with
  | none => exact ⟨_, rfl, rfl, Json.get_set_self _ _ _, fun _ => rfl⟩
  | some p =>
    obtain ⟨hp, hguid, -⟩ := hfound p.1 p.2 rfl
    exact ⟨_, rfl, rfl, Json.get_set_self _ _ _, fun h => absurd hguid (h p.1 hp)⟩

/-- An entry that has the GUID of another one is in the map all the same. -/
theorem Adds.guidsFound_iff {parentId : ℕ} {name : Bytes} {isDir : Bool} {p : EntryRef} {c : Value}
    {hashcode : Word w} (I : Inv tb ctx S)
    (A : Adds tb ctx S env parentId name isDir p c hashcode ctx')
    (hhash : (∀ e ∈ S, (ctx.ents e).guid ≠ env.uuid) → hashcode = tb.digest env.uuid)
    (h : ctx.GuidsFound tb) :
    ctx'.GuidsFound tb ↔ ∀ e ∈ S, (ctx.ents e).guid ≠ env.uuid := by
  have hnew : ctx.nextEntry ∉ S := I.nextEntry_not_mem
  have hdistinct : ∀ e ∈ S, ∀ e' ∈ S, (ctx.ents e).guid = (ctx.ents e').guid → e = e' :=
    fun e he e' he' =>
    h.distinct e ((I.indexed.guid.contains_iff e).mpr he) e'
      ((I.indexed.guid.contains_iff e').mpr he')
  obtain ⟨hself, hother⟩ : (ctx'.ents ctx.nextEntry).guid = env.uuid ∧
    ∀ x ∈ S, ctx'.ents x = ctx.ents x := by
    obtain ⟨idMap, guidMap, assocMap, rfl⟩ := A.change
    refine ⟨?_, fun x hx => update_of_mem hnew _ hx⟩
    dsimp only
    rw [Function.update_self]
    rfl
  constructor
  · intro h' e he hguid
    refine hnew (h'.distinct e ?_ ctx.nextEntry ?_ ?_ ▸ he)
    · exact (A.guidMap.contains_iff e).mpr (Finset.mem_insert_of_mem he)
    · exact (A.guidMap.contains_iff _).mpr (Finset.mem_insert_self _ _)
    · rw [hself, hother e he, hguid]
  · intro hfresh
    obtain rfl := hhash hfresh
    refine guidsFound_of_distinct (A.creates I hfresh).indexed.guid fun x hx y hy hguid => ?_
    rcases Finset.mem_insert.mp hx with rfl | hx <;> rcases Finset.mem_insert.mp hy with rfl | hy
    · rfl
    · rw [hself, hother y hy] at hguid
      exact absurd hguid.symm (hfresh y hy)
    · rw [hself, hother x hx] at hguid
      exact absurd hguid (hfresh x hx)
    · rw [hother x hx, hother y hy] at hguid
      exact hdistinct x hx y hy hguid

/-- A GUID is as it should be if and only if the first one that is drawn is not in use, and then
the map remains as it should be when the node is added. -/
theorem node_guid_right (digest : Bytes → Word w) :
    (∀ (ctx : Ctx w) S, Holds ctx.guidMap S (guidmapHash (.real digest) ctx.ents) → ∀ node random,
      ∃ r, drawNodeGuid (.real digest) ctx node random = .ok r ∧ (r.Right (.real digest) ctx node ↔
        ∀ e, ctx.guidMap.Contains e → (ctx.ents e).guid ≠ uuidGenerateRandom (random 0)
        (random 1))) ∧
    ∀ (ctx : Ctx w) env, ctx.Consistent (.real digest) → env.WellFormed →
    ∀ parentId name isDir stat ctx',
      bookmarkCreate (.real digest) ctx env parentId name isDir = .ok (.ok stat, ctx') →
      ∃ ctx₁, storeLoad (.real digest) ctx env = .ok (none, ctx₁) ∧
      (ctx₁.GuidsFound (.real digest) →
        (ctx'.GuidsFound (.real digest) ↔
          ∀ e, ctx₁.guidMap.Contains e → (ctx₁.ents e).guid ≠ env.uuid)) := by
  have hf := Tables.real_faithful digest
  refine ⟨fun ctx S H node random => ?_, fun ctx env C henv parentId name isDir stat ctx' hrun =>
    ?_⟩
  · obtain ⟨r, hrun, hguid, hmember, hhash⟩ := drawNodeGuid_spec H node random
    rw [← hguid]
    refine ⟨r, hrun, fun h => h.fresh, fun hfresh => ⟨hfresh, hhash fun e he => ?_, hmember⟩⟩
    exact hfresh e ((H.contains_iff e).mpr he)
  · obtain ⟨err, herr, -⟩ | ⟨ctx₁, S, p, siblings, hashcode, R, hhash, A⟩ :=
      (bookmarkCreate_adds hf henv C parentId name isDir).of_ok hrun
    · cases herr
    · refine ⟨ctx₁, R.load, fun h => (A.guidsFound_iff R.inv hhash h).trans ?_⟩
      exact forall_congr' fun e => by rw [R.inv.indexed.guid.contains_iff]

/-- A folder with a bookmark whose GUID is that of the random numbers 0 and 0. -/
def drawnBefore : Env := { Env.written (.written [writtenFolder 1 [65] 0,
    (.guid, .string (uuidBin2hex (uuidGenerateRandom 0 0))) :: writtenUrl 2 [97] []] [[1]]) [0] with
  uuid := uuidGenerateRandom 0 0 }

/-- The next GUID is that of the random numbers 1 and 1. -/
def drawnNext : Env := { drawnBefore with uuid := uuidGenerateRandom 1 1 }

/-- Another GUID than that of the bookmark is new, and the entry that gets it is found. -/
theorem node_guid_right_loaded : ∃ ctx ctx' : Ctx .w64, ∃ r stat,
    (backend polynomial).Reachable ctx ∧
    drawNodeGuid polynomial ctx 0 (fun _ => 1) = .ok r ∧ r.Right polynomial ctx 0 ∧
    bookmarkCreate polynomial ctx drawnNext 1 nameB false = .ok (.ok stat, ctx') ∧
    ctx'.GuidsFound polynomial := by
  have h : Yields (fun _ => False)
      ((Call.lookup rootId none).run polynomial (.created ⟨false, false, false⟩) drawnBefore)
        fun ctx =>
        (ctx.loaded = true ∧ ctx.watching = true) ∧
        (∀ e ∈ ctx.guidMap.visited, ∀ e' ∈ ctx.guidMap.visited, (ctx.ents e).guid =
        (ctx.ents e').guid → e = e') ∧
        (∀ e ∈ ctx.guidMap.visited, (ctx.ents e).guid ≠ uuidGenerateRandom 1 1) ∧
        Yields (fun _ => False) (bookmarkCreate polynomial ctx drawnNext 1 nameB false) fun r =>
        r.1.isOk = true := by
    decide +kernel
  obtain ⟨ctx, hload, ⟨hloaded, hwatching⟩, hdistinct, hnew, hcreate⟩ := h.exists_ok
  obtain ⟨⟨reply, ctx'⟩, hcreate, hok⟩ := hcreate.exists_ok
  have hwf : drawnBefore.WellFormed :=
    { Env.written_wellFormed (by decide +kernel) with uuid := length_uuidGenerateRandom 0 0 }
  have hreach := reachable_created hwf hload
  have C := hreach.holds (backend_consistent (Tables.real_faithful _))
  obtain ⟨S, I⟩ := C.inv hloaded
  simp only [Hashmap.mem_visited_iff] at hdistinct hnew
  obtain ⟨r, hdraw, hright⟩ :=
    (node_guid_right (List.foldl (fun h c => h * 33 + c.toNat) 0)).1 ctx S I.indexed.guid 0
    fun _ => 1
  cases reply with
  | error err => cases hok
  | ok stat =>
    obtain ⟨ctx₁, hload₁, hcreated⟩ :=
      (node_guid_right (List.foldl (fun h c => h * 33 + c.toNat) 0)).2 ctx drawnNext C
      { hwf with uuid := length_uuidGenerateRandom 1 1 } 1 nameB false stat ctx' hcreate
    obtain rfl : ctx = ctx₁ :=
      congrArg Prod.snd (Except.ok.inj ((storeLoad_loaded hwatching hloaded rfl).symm.trans hload₁))
    refine ⟨ctx, ctx', r, stat, hreach, hdraw, hright.mpr hnew, hcreate, (hcreated ?_).mpr hnew⟩
    exact guidsFound_of_distinct I.indexed.guid fun e he e' he' =>
      hdistinct e ((I.indexed.guid.contains_iff e).mpr he) e'
        ((I.indexed.guid.contains_iff e').mpr he')

/-- The GUID is drawn once more, the new node gets it all the same, without its hashcode,
and is added. -/
theorem node_guid_repeated : ∃ ctx ctx' : Ctx .w64, ∃ r stat, (backend polynomial).Reachable ctx ∧
    ctx.GuidsFound polynomial ∧ drawNodeGuid polynomial ctx 0 (fun _ => 0) = .ok r ∧
    (∃ e, ctx.guidMap.Contains e ∧ (ctx.ents e).guid = r.guid) ∧
    r.hashcode ≠ polynomial.digest r.guid ∧
    ¬r.Right polynomial ctx 0 ∧ bookmarkCreate polynomial ctx drawnBefore 1 nameB false =
    .ok (.ok stat, ctx') ∧
    ¬ctx'.GuidsFound polynomial := by
  have h : Yields (fun _ => False)
      ((Call.lookup rootId none).run polynomial (.created ⟨false, false, false⟩) drawnBefore)
        fun ctx =>
        ctx.loaded = true ∧
        (∀ e ∈ ctx.guidMap.visited, ∀ e' ∈ ctx.guidMap.visited, (ctx.ents e).guid =
        (ctx.ents e').guid → e = e') ∧
        (2 ∈ ctx.guidMap.visited ∧ (ctx.ents 2).guid = uuidGenerateRandom 0 0) ∧
        Yields (fun _ => False) (drawNodeGuid polynomial ctx 0 fun _ => 0) (fun r =>
          r.guid = uuidGenerateRandom 0 0 ∧ r.hashcode ≠ polynomial.digest r.guid) ∧
        Yields (fun _ => False) (bookmarkCreate polynomial ctx drawnBefore 1 nameB false) fun r =>
          r.1.isOk = true ∧ (2 ∈ r.2.guidMap.visited ∧ 3 ∈ r.2.guidMap.visited) ∧
            (r.2.ents 2).guid = (r.2.ents 3).guid := by
    decide +kernel
  obtain ⟨ctx, hload, hloaded, hdistinct, ⟨htaken, hguid⟩, hdraw, hcreate⟩ := h.exists_ok
  obtain ⟨r, hdraw, hr, hhash⟩ := hdraw.exists_ok
  obtain ⟨⟨reply, ctx'⟩, hcreate, hok, ⟨h2, h3⟩, hsame⟩ := hcreate.exists_ok
  have hwf : drawnBefore.WellFormed :=
    { Env.written_wellFormed (by decide +kernel) with uuid := length_uuidGenerateRandom 0 0 }
  have hreach := reachable_created hwf hload
  obtain ⟨S, I⟩ := (hreach.holds (backend_consistent (Tables.real_faithful _))).inv hloaded
  simp only [Hashmap.mem_visited_iff] at hdistinct htaken h2 h3
  have htaken : ∃ e, ctx.guidMap.Contains e ∧ (ctx.ents e).guid = r.guid :=
    ⟨2, htaken, hguid.trans hr.symm⟩
  have hfound : ctx.GuidsFound polynomial :=
    guidsFound_of_distinct I.indexed.guid fun e he e' he' =>
    hdistinct e ((I.indexed.guid.contains_iff e).mpr he) e'
      ((I.indexed.guid.contains_iff e').mpr he')
  cases reply with
  | error err => cases hok
  | ok stat =>
    refine ⟨ctx, ctx', r, stat, hreach, hfound, hdraw, htaken, hhash, fun h => ?_,
      hcreate, fun h => ?_⟩
    · obtain ⟨e, he, hguid⟩ := htaken
      exact h.fresh e he hguid
    · exact absurd (h.distinct 2 h2 3 h3 hsame) (by decide)

end BookmarkFS.Chromium
