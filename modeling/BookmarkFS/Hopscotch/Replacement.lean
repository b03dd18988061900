import BookmarkFS.Hopscotch.Contract
import BookmarkFS.Hopscotch.Refinement

/-! # Replacement of an entry

`hashmap_update()` with another entry leaves the new one where the old one was,
but without the hop bit, which it takes back before it looks at what is to be
done. No search finds the new entry, and an iteration does.
-/
namespace BookmarkFS.Hopscotch
open Library

variable {w : WordSize} {α κ : Type} {hashOf entryHash : α → Word w}

theorem bucket_ext {b b' : Bucket w α} (hbits : b.bits = b'.bits) (hentry : b.entry = b'.entry) : b = b' := by
  cases b
  cases b'
  simp_all

/-- The array after another entry has been put into the slot `home + idx`, written out. -/
def replaced (t : Buckets w α) (home idx : ℕ) (newEntry : α) : Buckets w α :=
  let mem := Function.update t.mem home { t.mem home with bits := bitUnset (t.mem home).bits idx }
  { t with mem := Function.update mem (home + idx) { mem (home + idx) with entry := some newEntry } }

theorem replaced_bits (t : Buckets w α) (home idx : ℕ) (newEntry : α) (i : ℕ) :
    ((replaced t home idx newEntry).mem i).bits = ((vacated t home idx).mem i).bits := by
  by_cases hi : i = home + idx
  · subst hi
    simp [replaced, vacated]
  · simp [replaced, vacated, Function.update_of_ne hi]

theorem replaced_entry (t : Buckets w α) (home idx : ℕ) (newEntry : α) (i : ℕ) :
    ((replaced t home idx newEntry).mem i).entry = if i = home + idx then some newEntry else (t.mem i).entry := by
  by_cases hi : i = home + idx
  · subst hi
    simp [replaced]
  · rw [if_neg hi]
    by_cases hhome : i = home
    · subst hhome
      simp [replaced, Function.update_of_ne hi]
    · simp [replaced, Function.update_of_ne hi, Function.update_of_ne hhome]

section Search

variable {map : Hashmap w α} {S : Finset α}

/-- A search looks at no entry but those that the hop bits point to. -/
theorem hashmapSearch_congr (map map' : Hashmap w α) (comp : α → Bool) (hash : Word w) (hexp : map'.exp = map.exp)
    (hlt : map.exp < w.bits) (hsize : map'.buckets.size = map.buckets.size)
    (hbits : ∀ i, (map'.buckets.mem i).bits = (map.buckets.mem i).bits)
    (hentry : ∀ h j, j < map.exp → map.buckets.hop h j = true →
      (map'.buckets.mem (h + j)).entry = (map.buckets.mem (h + j)).entry) :
    hashmapSearch comp map' hash = hashmapSearch comp map hash := by
  have hloop : ∀ fuel hop, (∀ j, hop.getLsbD j = true →
    map.buckets.hop (hashToIdx hash map.exp) j = true) →
      hashmapSearchLoop comp map' hash (hashToIdx hash map.exp) fuel hop =
        hashmapSearchLoop comp map hash (hashToIdx hash map.exp) fuel hop := by
    intro fuel
    induction fuel with
    | zero => exact fun _ _ => rfl
    | succ fuel ih =>
      intro hop hsub
      have hrest := ih (bitUnset hop (countTz hop)) fun j hj => hsub j (by
        rw [getLsbD_bitUnset, Bool.and_eq_true] at hj
        exact hj.2)
      by_cases hend : countTz hop ≥ map.exp
      · simp only [hashmapSearchLoop, hexp, if_pos hend]
      have hset := hsub _ (getLsbD_countTz hop (by omega))
      have hbucket : map'.buckets.mem (hashToIdx hash map.exp + countTz hop) =
          map.buckets.mem (hashToIdx hash map.exp + countTz hop) :=
        bucket_ext (hbits _) (hentry _ _ (by omega) hset)
      have hread : map'.buckets.get (hashToIdx hash map.exp + countTz hop) =
          map.buckets.get (hashToIdx hash map.exp + countTz hop) := by
        rw [Buckets.get, Buckets.get, hsize, hbucket]
      simp only [hashmapSearchLoop, hexp, if_neg hend, hread, hrest]
  have hhome : map'.buckets.get (hashToIdx hash map.exp) =
    (map.buckets.get (hashToIdx hash map.exp)).map fun b =>
      { b with entry := (map'.buckets.mem (hashToIdx hash map.exp)).entry } := by
    rw [Buckets.get, Buckets.get, hsize]
    split_ifs
    · exact congrArg Except.ok (bucket_ext (hbits _) rfl)
    · rfl
  rw [hashmapSearch, hashmapSearch, hexp, hhome]
  cases hget : map.buckets.get (hashToIdx hash map.exp) with
  | error f => rfl
  | ok b =>
    have hmem : map.buckets.mem (hashToIdx hash map.exp) = b := by
      rw [Buckets.get] at hget
      split_ifs at hget
      exact Except.ok.inj hget
    simp only [Except.map, ok_bind]
    rw [hloop _ _ fun j hj => by rw [Buckets.hop, hmem]; exact hj]

variable [DecidableEq α]

/-- A replacement whose bucket has been worked out: searches find what they find when the
entry is gone. -/
theorem Holds.replace_at (H : Holds map S hashOf) (entryHash : α → Word w) {id : ℤ}
    {home idx : ℕ} {e : α}
    (newEntry : α) (hid : (if id < 0 then Hopscotch.findEntry entryHash map e else
      .ok (id.toNat >>> w.hopIdxWidth, id.toNat % 2 ^ w.hopIdxWidth)) = .ok (home, idx))
    (hidx : idx < map.exp) (hset : map.buckets.hop home idx = true)
    (hslot : map.buckets.occ (home + idx) = some e) :
    hashmapUpdate entryHash map e (some newEntry) id =
        .ok { map with buckets := replaced map.buckets home idx newEntry } ∧
      ∀ comp hash, ∃ r,
        hashmapSearch comp { map with buckets := replaced map.buckets home idx newEntry } hash =
        .ok r ∧
          (∀ x found, r = some (x, found) → x ∈ S.erase e ∧ comp x = true ∧ hashOf x = hash) ∧
          (r = none → ∀ x ∈ S.erase e, hashOf x = hash → comp x = false) := by
  obtain ⟨H₁, -⟩ := H.vacate hidx hset hslot
  have hlt := Buckets.lt_of_occ hslot
  have hhome : home < map.buckets.size := by omega
  have hentry := (update_bits_entry map.buckets home (bitUnset (map.buckets.mem home).bits idx)
    (home + idx)).trans
    (Buckets.occ_eq_some.mp hslot).2
  constructor
  · simp only [hashmapUpdate, hid, ok_bind, Buckets.get_ok hhome, Buckets.set_ok _ hhome, Option.isSome_some, if_true]
    rw [Buckets.get_ok (by exact hlt), ok_bind, debugAssert, if_pos hentry, ok_bind,
      Buckets.set_ok _ (by exact hlt), ok_bind]
    rfl
  · intro comp hash
    have hsame := hashmapSearch_congr { map with buckets := vacated map.buckets home idx, numUsed := map.numUsed - 1 }
      { map with buckets := replaced map.buckets home idx newEntry } comp hash rfl H.exp_lt_bits rfl
      (replaced_bits _ _ _ _) fun h j hj hbit => ?_
    · obtain ⟨r, hrun, hfound, hnone⟩ := H₁.search comp hash
      exact ⟨r, hsame.trans hrun, fun x found hr => ⟨(hfound x found hr).1, (hfound x found hr).2.1,
        (hfound x found hr).2.2.1⟩, hnone⟩
    · obtain ⟨x, hx, -⟩ := H₁.layout.slot_of_hop h j hj hbit
      have hne : h + j ≠ home + idx := by
        intro hc
        have hx := (Buckets.occ_eq_some.mp hx).2
        rw [show (vacated map.buckets home idx).mem (h + j) = (vacated map.buckets home idx).mem
          (home + idx) by
          rw [hc], vacated_entry, if_pos rfl] at hx
        cases hx
      show ((replaced map.buckets home idx newEntry).mem (h + j)).entry =
        ((vacated map.buckets home idx).mem (h + j)).entry
      rw [replaced_entry, vacated_entry, if_neg hne, if_neg hne]

/-- What a replacement leaves: a search finds what it finds when the entry is gone, and an
iteration comes across the new entry where the old one was. -/
structure Overwritten (map : Hashmap w α) (S : Finset α) (hashOf : α → Word w) (e newEntry : α)
    (map' : Hashmap w α) : Prop where
  search : ∀ comp hash, ∃ r, hashmapSearch comp map' hash = .ok r ∧
    (∀ x found, r = some (x, found) → x ∈ S.erase e ∧ comp x = true ∧ hashOf x = hash) ∧
    (r = none → ∀ x ∈ S.erase e, hashOf x = hash → comp x = false)
  occ : ∃ i, map.buckets.occ i = some e ∧ map'.buckets.occ = Function.update map.buckets.occ i
    (some newEntry)
  used : map'.numUsed = map.numUsed

theorem Holds.overwrite (H : Holds map S hashOf) (entryHash : α → Word w) {id : ℤ} {home idx : ℕ}
    {e newEntry : α}
    (hid : (if id < 0 then Hopscotch.findEntry entryHash map e else
      .ok (id.toNat >>> w.hopIdxWidth, id.toNat % 2 ^ w.hopIdxWidth)) = .ok (home, idx))
    (hidx : idx < map.exp) (hset : map.buckets.hop home idx = true)
    (hslot : map.buckets.occ (home + idx) = some e) :
    ∃ map', hashmapUpdate entryHash map e (some newEntry) id = .ok map' ∧
      Overwritten map S hashOf e newEntry map' := by
  obtain ⟨hrun, hsearch⟩ := H.replace_at entryHash newEntry hid hidx hset hslot
  refine ⟨_, hrun, hsearch, ⟨home + idx, hslot, ?_⟩, rfl⟩
  funext i
  show (if i < map.buckets.size then ((replaced map.buckets home idx newEntry).mem i).entry
    else none) = _
  rw [replaced_entry]
  by_cases hi : i = home + idx
  · subst hi
    rw [if_pos (Buckets.lt_of_occ hslot), if_pos rfl, Function.update_self]
  · rw [if_neg hi, Function.update_of_ne hi]
    rfl

theorem Holds.overwrite_entry (H : Holds map S entryHash) {e : α} (he : e ∈ S) (newEntry : α) :
    (map.exp = w.expMax → hashmapUpdate entryHash map e (some newEntry) (-1) = .error .expMax) ∧
      (map.exp ≠ w.expMax → ∃ map', hashmapUpdate entryHash map e (some newEntry) (-1) = .ok map' ∧
        Overwritten map S entryHash e newEntry map') := by
  obtain ⟨hmax, hfind⟩ := H.findEntry he rfl
  refine ⟨fun h => by simp [hashmapUpdate, hmax h], fun h => ?_⟩
  obtain ⟨home, j, hfound, hj, -, hset, hslot⟩ := hfind h
  exact H.overwrite entryHash (by rw [if_pos (by decide), hfound]) hj hset hslot

theorem Holds.overwrite_id (H : Holds map S hashOf) (entryHash : α → Word w) {id : Word w} {e : α}
    (hid : Designates map id e) (newEntry : α) :
    ∃ map', hashmapUpdate entryHash map e (some newEntry) id.toInt = .ok map' ∧
      Overwritten map S hashOf e newEntry map' := by
  obtain ⟨h, j, hh, hj, rfl, hset, hslot⟩ := hid
  obtain ⟨hneg, hhome, hhop⟩ := packId_split H.exp_le hh hj
  refine H.overwrite entryHash ?_ hj hset hslot
  rw [if_neg hneg, hhome, hhop]

end Search

section Replaced

variable [DecidableEq α] [DecidableEq κ] {key : α → κ} {comp : κ → α → Bool} {s : Session w α κ}
  {e newEntry : α} {id : ℤ}

def sessionsFrom (key : α → κ) (entryHash : α → Word w) (comp : κ → α → Bool) (s : Session w α κ) :
    System (Session w α κ) (Call α) Fault :=
  { sessions key entryHash comp with init := (· = s) }

/-- What is asked of a replacement: it succeeds and leaves the number of entries, and from then on
the map shows the finite map that has the new entry under the key of the old one. -/
def Session.Replaced (key : α → κ) (entryHash : α → Word w) (comp : κ → α → Bool)
    (s : Session w α κ) (e newEntry : α) (id : ℤ) : Prop :=
  ∃ map', hashmapUpdate entryHash s.map e (some newEntry) id = .ok map' ∧
    map'.numUsed = s.map.numUsed ∧
    ∀ s', (sessionsFrom key entryHash comp ⟨map', Function.update s.spec (key e)
    (some newEntry)⟩).Reachable s' →
      s'.Observes key entryHash comp

omit [DecidableEq κ] in
/-- In every state a replacement fails an assertion, or leaves a map where nothing is found
under the key. -/
theorem Session.Represents.overwrite (hcomp : ∀ k e, comp k e = true ↔ key e = k)
    (h : s.Represents key entryHash) (hpresent : s.spec (key e) = some e) (newEntry : α)
    (hid : id = -1 ∨ FoundBy comp s.map e id) :
    (id = -1 ∧ s.map.exp = w.expMax ∧ hashmapUpdate entryHash s.map e (some newEntry) id =
      .error .expMax) ∨
      ∃ map', hashmapUpdate entryHash s.map e (some newEntry) id = .ok map' ∧
        (∀ hash, hashmapSearch (comp (key e)) map' hash = .ok none) ∧ newEntry ∈ map'.visited := by
  obtain ⟨S, H, hspec⟩ := h
  have he : e ∈ S := ((hspec _ _).mp hpresent).1
  have hlost : ∀ map', Overwritten s.map S entryHash e newEntry map' →
      (∀ hash, hashmapSearch (comp (key e)) map' hash = .ok none) ∧ newEntry ∈ map'.visited := by
    intro map' O
    refine ⟨fun hash => ?_, ?_⟩
    · obtain ⟨r, hrun, hfound, -⟩ := O.search (comp (key e)) hash
      cases r with
      | none => exact hrun
      | some p =>
        obtain ⟨hmem, hkey, -⟩ := hfound p.1 p.2 rfl
        obtain ⟨hne, hp⟩ := Finset.mem_erase.mp hmem
        have hother := (hspec (key e) p.1).mpr ⟨hp, (hcomp _ _).mp hkey⟩
        rw [hpresent, Option.some_inj] at hother
        exact absurd hother.symm hne
    · obtain ⟨i, -, hocc⟩ := O.occ
      exact (map'.mem_visited_iff newEntry).mpr ⟨i, by rw [hocc, Function.update_self]⟩
  obtain rfl | hfound := hid
  · obtain ⟨hmax, hok⟩ := H.overwrite_entry he newEntry
    by_cases hexp : s.map.exp = w.expMax
    · exact .inl ⟨rfl, hexp, hmax hexp⟩
    · obtain ⟨map', hrun, O⟩ := hok hexp
      exact .inr ⟨map', hrun, hlost map' O⟩
  · obtain ⟨found, rfl, hdes⟩ := hfound.designates H
    obtain ⟨map', hrun, O⟩ := H.overwrite_id entryHash hdes newEntry
    exact .inr ⟨map', hrun, hlost map' O⟩

/-- An entry is never replaced by another one with its hashcode, whatever its key. -/
theorem replacement_lost (hcomp : ∀ k e, comp k e = true ↔ key e = k)
    (hreach : (sessions key entryHash comp).Reachable s) (hpresent : s.spec (key e) = some e)
    (hhash : entryHash newEntry = entryHash e) (hid : id = -1 ∨ FoundBy comp s.map e id) :
    ¬s.Replaced key entryHash comp e newEntry id := by
  rintro ⟨map', hrun, -, hobserves⟩
  obtain ⟨-, -, hfail⟩ | ⟨map'', hrun', hnone, -⟩ :=
    (hreach.holds sessions_invariant).overwrite hcomp hpresent newEntry hid
  · rw [hrun] at hfail
    cases hfail
  · obtain rfl := Except.ok.inj (hrun.symm.trans hrun')
    have hnew : Function.update s.spec (key e) (some newEntry) (key e) = some newEntry :=
      Function.update_self ..
    obtain ⟨r, hsearch, hspec, -⟩ :=
      (hobserves _ (.init rfl)).search (key e) (entryHash e) fun x hx => by
      rw [Option.some.inj (hx.symm.trans hnew), hhash]
    rw [hnone, Except.ok.injEq] at hsearch
    subst hsearch
    cases hspec.trans hnew

end Replaced

section Pairs

/-- Sessions of pairs whose first component is the key, all with the hashcode 0. -/
def pairs : System (Session .w32 (ℕ × ℕ) ℕ) (Call (ℕ × ℕ)) Fault :=
  sessions Prod.fst (fun _ => 0) fun k e => decide (e.1 = k)

/-- A map with one pair, and the identifier that a search stores. -/
theorem one_pair : ∃ s id, pairs.Reachable s ∧ s.Represents Prod.fst (fun _ => 0) ∧
    s.spec 7 = some (7, 1) ∧
    FoundBy (fun k e => decide (e.1 = k)) s.map (7, 1) id ∧ id ≠ -1 := by
  obtain ⟨map', hins, H⟩ := (Holds.create fun _ : ℕ × ℕ => (0 : Word .w32)).crowded_insert
    (Finset.notMem_empty (7, 1)) (by decide)
  have hreach : pairs.Reachable ⟨map', Function.update (fun _ => none) 7 (some (7, 1))⟩ := by
    refine .step (.init rfl) (show pairs.legal _ (.insert (7, 1)) from rfl) ?_
    show (hashmapInsert _ _ _ (7, 1) >>= _) = _
    rw [hins]
    rfl
  have hrep := hreach.holds sessions_invariant
  obtain ⟨r, hrun, hr, hid⟩ :=
    (hrep.observes (fun k e => decide_eq_true_iff)).search 7 0 fun _ _ => rfl
  replace hr : r.map Prod.fst = some (7, 1) := hr
  obtain ⟨⟨e, found⟩, rfl, rfl⟩ := Option.map_eq_some_iff.mp hr
  refine ⟨_, found.toInt, hreach, hrep, rfl, ⟨7, 0, found, hrun, rfl⟩, ?_⟩
  obtain ⟨h, j, hh, hj, rfl, -, -⟩ := hid _ _ rfl
  have := (packId_split H.exp_le hh hj).1
  omega

/-- Another pair with the key is not what the map has afterwards. -/
theorem replacement_lost_pair : ∃ s id, pairs.Reachable s ∧ s.spec 7 = some (7, 1) ∧
    ¬s.Replaced Prod.fst (fun _ => 0) (fun k e => decide (e.1 = k)) (7, 1) (7, 2) id := by
  obtain ⟨s, id, hreach, -, hpresent, hid, -⟩ := one_pair
  exact ⟨s, id, hreach, hpresent, replacement_lost (fun k e => decide_eq_true_iff)
    hreach hpresent rfl (.inr hid)⟩

/-- The replacement is carried out, but the new pair is found by an iteration only. -/
theorem replacement_hidden : ∃ s id map', pairs.Reachable s ∧ s.spec 7 = some (7, 1) ∧
    FoundBy (fun k e => decide (e.1 = k)) s.map (7, 1) id ∧
    hashmapUpdate (fun _ => 0) s.map (7, 1) (some (7, 2)) id = .ok map' ∧
    hashmapSearch (fun e => decide (e.1 = 7)) map' 0 = .ok none ∧ (7, 2) ∈ map'.visited ∧
    ¬s.Replaced Prod.fst (fun _ => 0) (fun k e => decide (e.1 = k)) (7, 1) (7, 2) id := by
  obtain ⟨s, id, hreach, hrep, hpresent, hid, hne⟩ := one_pair
  obtain ⟨h, -⟩ | ⟨map', hrun, hnone, hvisited⟩ :=
    hrep.overwrite (fun k e => decide_eq_true_iff) hpresent (7, 2) (.inr hid)
  · exact absurd h hne
  refine ⟨s, id, map', hreach, hpresent, hid, hrun, hnone 0, hvisited, ?_⟩
  rintro ⟨map'', hrun', -, hobserves⟩
  obtain rfl := Except.ok.inj (hrun.symm.trans hrun')
  obtain ⟨r, hsearch, hspec, -⟩ := (hobserves _ (.init rfl)).search 7 0 fun _ _ => rfl
  rw [hnone, Except.ok.injEq] at hsearch
  subst hsearch
  cases hspec

end Pairs

end BookmarkFS.Hopscotch
