import BookmarkFS.Hopscotch.Displacement

/-! # One specification for each operation of the hashmap

Searches, insertions and removals in terms of `Holds`. None of them leaves the
array. What they assert holds, except that `find_entry()` refuses a table of
the maximal size that `rehash()` may well have built.
-/
namespace BookmarkFS.Hopscotch
open Library

variable {w : WordSize} {α : Type} {hashOf : α → Word w}

/-! ## Walking the hop bits of a home bucket -/

/-- `hop` is a hop bitmask whose bits below `k` have been visited and cleared. -/
def VisitedBelow (bits hop : Word w) (k : ℕ) : Prop :=
  ∀ j, hop.getLsbD j = (decide (k ≤ j) && bits.getLsbD j)

theorem VisitedBelow.zero (bits : Word w) : VisitedBelow bits bits 0 := fun j => by simp

theorem VisitedBelow.le_countTz {bits hop : Word w} {k : ℕ} (h : VisitedBelow bits hop k)
    (hc : countTz hop < w.bits) : k ≤ countTz hop ∧ bits.getLsbD (countTz hop) = true := by
  have hset := getLsbD_countTz hop hc
  rw [h (countTz hop)] at hset
  simpa using hset

theorem VisitedBelow.next {bits hop : Word w} {k : ℕ} (h : VisitedBelow bits hop k) :
    VisitedBelow bits (bitUnset hop (countTz hop)) (countTz hop + 1) := by
  intro j
  rw [getLsbD_bitUnset]
  rcases lt_trichotomy (countTz hop) j with hlt | heq | hgt
  · by_cases hj : j < w.bits
    · have hk : k ≤ j := (h.le_countTz (hlt.trans hj)).1.trans hlt.le
      rw [h j]
      simp [hk, show countTz hop ≠ j by omega, show countTz hop + 1 ≤ j by omega]
    · simp [BitVec.getLsbD_of_ge _ j (Nat.not_lt.mp hj)]
  · simp [heq]
  · have hz : hop.getLsbD j = false := by
      by_contra hj
      exact absurd (countTz_le_of_getLsbD hop (by simpa using hj)) (by omega)
    simp [hz, show ¬countTz hop + 1 ≤ j by omega]

section Search

variable {map : Hashmap w α} {S : Finset α}

/-- Bucket `h + j` passes the fragment test exactly when its entry has the hashcode sought. -/
theorem Holds.fragment_iff (H : Holds map S hashOf) {hash : Word w} {j : ℕ} {e : α}
    (hslot : map.buckets.occ (hashToIdx hash map.exp + j) = some e)
    (hhome : hashToIdx (hashOf e) map.exp = hashToIdx hash map.exp) :
    map.buckets.fragment map.exp (hashToIdx hash map.exp + j) = hash <<< map.exp ↔
      hashOf e = hash := by
  rw [(H.layout.hop_of_slot _ _ hslot).2.1]
  exact ⟨fun h => hash_eq_of_idx_of_fragment hhome h, fun h => by rw [h]⟩

/-- The slot a set hop bit of the home of `hash` points to. -/
theorem Holds.slot_of_bit (H : Holds map S hashOf) {hash : Word w} {j : ℕ} (hj : j < map.exp)
    (hbit : (map.buckets.mem (hashToIdx hash map.exp)).bits.getLsbD j = true) :
    ∃ e, map.buckets.occ (hashToIdx hash map.exp + j) = some e ∧
      hashToIdx (hashOf e) map.exp = hashToIdx hash map.exp :=
  H.layout.slot_of_hop _ j hj hbit

/-- The search loop finds the first match among the hop bits not yet visited. -/
theorem Holds.searchLoop_spec (H : Holds map S hashOf) (comp : α → Bool) (hash : Word w)
    (fuel : ℕ) (hop : Word w) (k : ℕ)
    (hvis : VisitedBelow (map.buckets.mem (hashToIdx hash map.exp)).bits hop k)
    (hk : k ≤ w.bits) (hfuel : w.bits < fuel + k) :
    ∃ r, hashmapSearchLoop comp map hash (hashToIdx hash map.exp) fuel hop = .ok r ∧
      (∀ e id, r = some (e, id) → comp e = true ∧ hashOf e = hash ∧ Designates map id e) ∧
      (r = none → ∀ j e, k ≤ j → j < map.exp →
        map.buckets.hop (hashToIdx hash map.exp) j = true →
        map.buckets.occ (hashToIdx hash map.exp + j) = some e → hashOf e = hash →
        comp e = false) := by
  have hexp := H.exp_lt_bits
  induction fuel generalizing hop k with
  | zero => omega
  | succ fuel ih =>
    by_cases hend : countTz hop ≥ map.exp
    · refine ⟨none, by simp only [hashmapSearchLoop, if_pos hend], by simp, ?_⟩
      intro _ j e hkj hj hset
      have hbit : hop.getLsbD j = true := by
        rw [hvis j, decide_eq_true hkj]; exact hset
      exact absurd (countTz_le_of_getLsbD hop hbit) (by omega)
    · have hlt : countTz hop < map.exp := by omega
      obtain ⟨hkc, hbit⟩ := hvis.le_countTz (by omega)
      obtain ⟨e, hslot, hhome⟩ := H.slot_of_bit hlt hbit
      have hread := Buckets.get_ok (Buckets.lt_of_occ hslot)
      have hentry := (Buckets.occ_eq_some.mp hslot).2
      have hfrag : (map.buckets.mem (hashToIdx hash map.exp + countTz hop)).bits &&&
          bucketHashMask w map.exp = hash <<< map.exp ↔ hashOf e = hash :=
        H.fragment_iff hslot hhome
      -- the rest of the walk, when this bucket is not the one sought
      obtain ⟨r, hrun, hfound, hnone⟩ := ih _ _ hvis.next (by omega) (by omega)
      have hskip : (hashOf e = hash → comp e = false) → r = none → ∀ j e', k ≤ j → j < map.exp →
          map.buckets.hop (hashToIdx hash map.exp) j = true →
          map.buckets.occ (hashToIdx hash map.exp + j) = some e' → hashOf e' = hash →
          comp e' = false := by
        intro hmiss hr j e' hkj hj hset hslot' hhash
        rcases lt_trichotomy j (countTz hop) with hlt' | rfl | hgt
        · have hbit' : hop.getLsbD j = true := by
            rw [hvis j, decide_eq_true hkj]; exact hset
          exact absurd (countTz_le_of_getLsbD hop hbit') (by omega)
        · rw [hslot, Option.some_inj] at hslot'
          exact hslot' ▸ hmiss (hslot' ▸ hhash)
        · exact hnone hr j e' (by omega) hj hset hslot' hhash
      by_cases hmatch : hashOf e = hash
      · have heq := hfrag.mpr hmatch
        cases hcomp : comp e with
        | true =>
          refine ⟨some (e, packId w (hashToIdx hash map.exp) (countTz hop)), ?_, ?_, by simp⟩
          · simp only [hashmapSearchLoop, if_neg hend, hread, ok_bind]
            rw [if_neg (not_not_intro heq)]
            simp only [hentry, hcomp, if_true]
          · rintro e' id ⟨rfl, rfl⟩
            exact ⟨hcomp, hmatch, _, _, hashToIdx_lt _ hexp.le, hlt, rfl, hbit, hslot⟩
        | false =>
          refine ⟨r, ?_, hfound, hskip fun _ => hcomp⟩
          simp only [hashmapSearchLoop, if_neg hend, hread, ok_bind]
          rw [if_neg (not_not_intro heq)]
          simpa only [hentry, hcomp, Bool.false_eq_true, if_false] using hrun
      · refine ⟨r, ?_, hfound, hskip fun h => absurd h hmatch⟩
        simp only [hashmapSearchLoop, if_neg hend, hread, ok_bind]
        rw [if_pos fun h => hmatch (hfrag.mp h), hrun]

/-- `hashmap_search()` answers with an entry filed under the hashcode given that passes the
comparison, together with the identifier of its bucket, whenever there is one. -/
theorem Holds.search (H : Holds map S hashOf) (comp : α → Bool) (hash : Word w) :
    ∃ r, hashmapSearch comp map hash = .ok r ∧
      (∀ e id, r = some (e, id) →
        e ∈ S ∧ comp e = true ∧ hashOf e = hash ∧ Designates map id e) ∧
      (r = none → ∀ e ∈ S, hashOf e = hash → comp e = false) := by
  have hexp := H.exp_lt_bits
  have hlt : hashToIdx hash map.exp < map.buckets.size := by
    have := H.exp_ge
    simpa [H.layout.size] using neighborhood_lt (j := 0) (hashToIdx_lt hash hexp.le)
      (by unfold expMin at this; omega)
  obtain ⟨r, hrun, hfound, hnone⟩ := H.searchLoop_spec comp hash (w.bits + 1) _ 0
    (VisitedBelow.zero _) (Nat.zero_le _) (by omega)
  refine ⟨r, ?_, ?_, ?_⟩
  · simp only [hashmapSearch, Buckets.get_ok hlt, ok_bind, debugAssert, if_pos H.exp_le, hrun]
  · intro e id hr
    obtain ⟨hcomp, hhash, hid⟩ := hfound e id hr
    obtain ⟨h, j, hh, hj, rfl, hset, hslot⟩ := hid
    exact ⟨(H.mem_iff e).mpr ⟨_, hslot⟩, hcomp, hhash, h, j, hh, hj, rfl, hset, hslot⟩
  · intro hr e he hhash
    obtain ⟨i, hi⟩ := (H.mem_iff e).mp he
    obtain ⟨-, -, j, hj, hij, hset⟩ := H.layout.hop_of_slot i e hi
    subst hhash
    exact hnone hr j e (Nat.zero_le j) hj hset (hij ▸ hi) rfl

/-- `find_entry()` finds an entry filed under the hashcode its fields have now, except that it
takes no table of the maximal size. -/
theorem Holds.findEntry [DecidableEq α] (H : Holds map S hashOf) {entryHash : α → Word w} {e : α}
    (he : e ∈ S) (hhash : entryHash e = hashOf e) :
    (map.exp = w.expMax → findEntry entryHash map e = .error .expMax) ∧
      (map.exp ≠ w.expMax →
        ∃ h j, findEntry entryHash map e = .ok (h, j) ∧ j < map.exp ∧ h < 2 ^ map.exp ∧
          map.buckets.hop h j = true ∧ map.buckets.occ (h + j) = some e) := by
  have hexp := H.exp_lt_bits
  obtain ⟨i, hi⟩ := (H.mem_iff e).mp he
  obtain ⟨-, hfrag, j, hj, rfl, hset⟩ := H.layout.hop_of_slot i e hi
  rw [Buckets.fragment] at hfrag
  have hread := Buckets.get_ok (show hashToIdx (hashOf e) map.exp < map.buckets.size by
    have := Buckets.lt_of_occ hi; omega)
  simp only [Hopscotch.findEntry, hhash, hread, ok_bind]
  refine ⟨fun hmax => by rw [if_pos hmax.ge], fun hmax => ?_⟩
  · rw [if_neg fun h => hmax (le_antisymm H.exp_le h)]
    -- the walk meets `e` at hop index `j`, and at no lower one
    suffices hloop : ∀ fuel hop k,
        VisitedBelow (map.buckets.mem (hashToIdx (hashOf e) map.exp)).bits hop k → k ≤ j →
        w.bits < fuel + k →
        findEntryLoop map e (hashOf e) (hashToIdx (hashOf e) map.exp) fuel hop = .ok j by
      rw [hloop _ _ 0 (VisitedBelow.zero _) (Nat.zero_le _) (by omega)]
      exact ⟨_, j, rfl, hj, hashToIdx_lt _ hexp.le, hset, hi⟩
    intro fuel
    induction fuel with
    | zero => intros; omega
    | succ fuel ih =>
      intro hop k hvis hkj hfuel
      have hbit : hop.getLsbD j = true := by
        rw [hvis j, decide_eq_true hkj]; exact hset
      have hle := countTz_le_of_getLsbD hop hbit
      obtain ⟨hkc, hcbit⟩ := hvis.le_countTz (by omega)
      obtain ⟨e', hslot, hhome⟩ := H.slot_of_bit (show countTz hop < map.exp by omega) hcbit
      have hentry := (Buckets.occ_eq_some.mp hslot).2
      simp only [findEntryLoop, debugAssert, if_pos (show countTz hop < map.exp by omega), ok_bind,
        Buckets.get_ok (Buckets.lt_of_occ hslot)]
      rcases hle.eq_or_lt with rfl | hlt
      · obtain rfl : e' = e := by simpa [hslot] using hi
        rw [if_neg (not_not_intro hfrag), if_neg (not_not_intro hentry)]
      · have hne : e' ≠ e := by
          rintro rfl
          have := H.layout.slot_unique _ _ _ hslot hi
          omega
        have hnext := ih _ _ hvis.next (by omega) (by omega)
        rw [hnext]
        simp [hentry, hne]

end Search

/-! ## Filing an entry into a free slot, and taking one out -/

section Slots

variable {t : Buckets w α} {exp : ℕ} {occ : ℕ → Option α}

/-- The array after an entry has been filed at `home + idx`, written out. -/
def filed (t : Buckets w α) (exp home idx : ℕ) (hash : Word w) (e : α) : Buckets w α :=
  let mem := Function.update t.mem home { t.mem home with bits := bitSet (t.mem home).bits idx }
  let dst : Bucket w α :=
    { bits := ((mem (home + idx)).bits &&& bucketHopMask w exp) ||| hash <<< exp, entry := some e }
  { t with mem := Function.update mem (home + idx) dst }

theorem filed_hop (hexp : exp < w.bits) {home idx : ℕ} (hidx : idx < exp) (hash : Word w) (e : α)
    {h j : ℕ} (hj : j < exp) :
    (filed t exp home idx hash e).hop h j =
    ((decide (h = home) && decide (idx = j)) || t.hop h j) := by
  have hmask : (bucketHopMask w exp).getLsbD j = true := by
    rw [getLsbD_bucketHopMask hexp]; simp [hj]
  by_cases hdst : h = home + idx
  · subst hdst
    by_cases hzero : idx = 0
    · subst hzero
      simp [filed, Buckets.hop, hmask, hj, getLsbD_bitSet _ (show 0 < w.bits by omega)]
    · simp [filed, Buckets.hop, hmask, hj, hzero]
  · by_cases hhome : h = home
    · subst hhome
      simp [filed, Buckets.hop, Function.update_of_ne hdst,
        getLsbD_bitSet _ (show idx < w.bits by omega)]
    · simp [filed, Buckets.hop, Function.update_of_ne hdst, hhome]

theorem filed_entry (exp home idx : ℕ) (hash : Word w) (e : α) (i : ℕ) :
    ((filed t exp home idx hash e).mem i).entry =
      if i = home + idx then some e else (t.mem i).entry := by
  by_cases hdst : i = home + idx
  · subst hdst; simp [filed]
  · rw [if_neg hdst]
    by_cases hhome : i = home
    · subst hhome; simp [filed, Function.update_of_ne hdst]
    · simp [filed, Function.update_of_ne hdst, Function.update_of_ne hhome]

theorem filed_fragment (hexp : exp < w.bits) {home idx : ℕ} (hidx : idx < exp) (hash : Word w)
    (e : α) (i : ℕ) :
    (filed t exp home idx hash e).fragment exp i =
      if i = home + idx then hash <<< exp else t.fragment exp i := by
  apply BitVec.eq_of_getLsbD_eq
  intro k hk
  by_cases hlow : k < exp
  · have hmask : (bucketHashMask w exp).getLsbD k = false := by
      rw [getLsbD_bucketHashMask hexp]; simp [hlow]
    split_ifs <;> simp [Buckets.fragment, hmask, hlow]
  · have hmask : (bucketHashMask w exp).getLsbD k = true := by
      rw [getLsbD_bucketHashMask hexp]; simp [hk, Nat.not_lt.mp hlow]
    have hhop : (bucketHopMask w exp).getLsbD k = false := by
      rw [getLsbD_bucketHopMask hexp]; simp [hlow]
    by_cases hdst : i = home + idx
    · subst hdst
      simp only [Buckets.fragment, filed, Function.update_self, BitVec.getLsbD_and,
        BitVec.getLsbD_or, hmask, hhop, if_true]
      simp
    · by_cases hhome : i = home
      · subst hhome
        simp only [Buckets.fragment, filed, Function.update_of_ne hdst, Function.update_self,
          BitVec.getLsbD_and, hmask, if_neg hdst, getLsbD_bitSet _ (show idx < w.bits by omega)]
        simp [show ¬idx = k by omega]
      · simp only [Buckets.fragment, filed, Function.update_of_ne hdst,
          Function.update_of_ne hhome, if_neg hdst]

/-- Filing an entry into the slot `make_room()` set aside. -/
theorem filed_layout (L : Layout t exp hashOf occ) (hexp : exp ≤ w.expMax) {hash : Word w}
    {idx : ℕ} {e : α} (hidx : idx < exp) (hfree : FreeAt t occ (hashToIdx hash exp + idx))
    (hhash : hashOf e = hash) (hnew : ∀ i, occ i ≠ some e) :
    Layout (filed t exp (hashToIdx hash exp) idx hash e) exp hashOf
        (filed t exp (hashToIdx hash exp) idx hash e).occ ∧
      (∀ e', (∃ i, (filed t exp (hashToIdx hash exp) idx hash e).occ i = some e') ↔
        e' = e ∨ ∃ i, occ i = some e') := by
  have hexpw : exp < w.bits := hexp.trans_lt (expMax_lt_bits w)
  obtain ⟨hlt, hbnone, hocc⟩ := hfree
  have hocc' : (filed t exp (hashToIdx hash exp) idx hash e).occ =
      Function.update occ (hashToIdx hash exp + idx) (some e) := by
    funext i
    show (if i < t.size then _ else _) = _
    rw [filed_entry]
    by_cases hi : i = hashToIdx hash exp + idx
    · subst hi; simp [hlt]
    · rw [if_neg hi, Function.update_of_ne hi, ← hocc i hi]; rfl
  rw [hocc']
  have hcases : ∀ {i : ℕ} {e' : α},
      Function.update occ (hashToIdx hash exp + idx) (some e) i = some e' →
      (i = hashToIdx hash exp + idx ∧ e' = e) ∨
        (i ≠ hashToIdx hash exp + idx ∧ occ i = some e') := by
    intro i e' hi
    by_cases hib : i = hashToIdx hash exp + idx
    · subst hib; exact .inl ⟨rfl, by simpa using hi.symm⟩
    · exact .inr ⟨hib, by rwa [Function.update_of_ne hib] at hi⟩
  refine ⟨⟨L.size, ?_, ?_, ?_⟩, ?_⟩
  · intro h j hj hh
    rw [filed_hop hexpw hidx _ _ hj, Bool.or_eq_true] at hh
    rcases hh with hnewbit | hold
    · simp only [Bool.and_eq_true, decide_eq_true_eq] at hnewbit
      obtain ⟨rfl, rfl⟩ := hnewbit
      exact ⟨e, by simp, by rw [hhash]⟩
    · obtain ⟨e', he', hid⟩ := L.slot_of_hop h j hj hold
      refine ⟨e', ?_, hid⟩
      rw [Function.update_of_ne, he']
      intro hc
      rw [hc, hbnone] at he'
      cases he'
  · intro i e' hi
    rw [filed_entry, filed_fragment hexpw hidx]
    obtain ⟨rfl, rfl⟩ | ⟨hib, hold⟩ := hcases hi
    · refine ⟨by simp, by simp [hhash], idx, hidx, by rw [hhash], ?_⟩
      rw [filed_hop hexpw hidx _ _ hidx, hhash]
      simp
    · obtain ⟨hentry, hfrag, j, hj, hij, hset⟩ := L.hop_of_slot i e' hold
      refine ⟨by rw [if_neg hib, hentry], by rw [if_neg hib, hfrag], j, hj, hij, ?_⟩
      rw [filed_hop hexpw hidx _ _ hj, hset, Bool.or_true]
  · intro i i' e' hi hi'
    obtain ⟨hib, he⟩ | ⟨hib, h⟩ := hcases hi <;> obtain ⟨hib', he'⟩ | ⟨hib', h'⟩ := hcases hi'
    · exact hib.trans hib'.symm
    · exact absurd (he ▸ h') (hnew i')
    · exact absurd (he' ▸ h) (hnew i)
    · exact L.slot_unique _ _ _ h h'
  · intro e'
    constructor
    · rintro ⟨i, hi⟩
      obtain ⟨-, he⟩ | ⟨-, h⟩ := hcases hi
      · exact .inl he
      · exact .inr ⟨i, h⟩
    · rintro (rfl | ⟨i, hi⟩)
      · exact ⟨_, Function.update_self ..⟩
      · refine ⟨i, ?_⟩
        rw [Function.update_of_ne, hi]
        intro hc
        rw [hc, hbnone] at hi
        cases hi

/-- The array after the slot `home + idx` has been emptied, written out. -/
def vacated (t : Buckets w α) (home idx : ℕ) : Buckets w α :=
  let mem := Function.update t.mem home { t.mem home with bits := bitUnset (t.mem home).bits idx }
  { t with mem := Function.update mem (home + idx) { mem (home + idx) with entry := none } }

theorem vacated_hop (t : Buckets w α) (home idx h j : ℕ) :
    (vacated t home idx).hop h j = (!(decide (h = home) && decide (idx = j)) && t.hop h j) := by
  by_cases hdst : h = home + idx
  · subst hdst
    by_cases hzero : idx = 0
    · subst hzero
      simp only [vacated, Buckets.hop, Nat.add_zero, Function.update_self, getLsbD_bitUnset]
      simp
    · simp [vacated, Buckets.hop, hzero]
  · by_cases hhome : h = home
    · subst hhome
      simp only [vacated, Buckets.hop, Function.update_of_ne hdst, Function.update_self,
        getLsbD_bitUnset]
      simp
    · simp [vacated, Buckets.hop, Function.update_of_ne hdst, hhome]

theorem vacated_entry (t : Buckets w α) (home idx i : ℕ) :
    ((vacated t home idx).mem i).entry = if i = home + idx then none else (t.mem i).entry := by
  by_cases hdst : i = home + idx
  · subst hdst; simp [vacated]
  · rw [if_neg hdst]
    by_cases hhome : i = home
    · subst hhome; simp [vacated, Function.update_of_ne hdst]
    · simp [vacated, Function.update_of_ne hdst, Function.update_of_ne hhome]

theorem vacated_fragment (t : Buckets w α) (hexp : exp < w.bits) (home : ℕ) {idx : ℕ}
    (hidx : idx < exp) (i : ℕ) : (vacated t home idx).fragment exp i = t.fragment exp i := by
  apply BitVec.eq_of_getLsbD_eq
  intro k hk
  have hbits : ((vacated t home idx).mem i).bits =
      if i = home then bitUnset (t.mem home).bits idx else (t.mem i).bits := by
    by_cases hdst : i = home + idx
    · subst hdst
      by_cases hzero : idx = 0
      · subst hzero; simp [vacated]
      · simp [vacated, hzero]
    · by_cases hhome : i = home
      · subst hhome; simp [vacated, Function.update_of_ne hdst]
      · simp [vacated, Function.update_of_ne hdst, hhome]
  rw [Buckets.fragment, hbits]
  split_ifs with hhome
  · subst hhome
    simp only [Buckets.fragment, BitVec.getLsbD_and, getLsbD_bitUnset,
      getLsbD_bucketHashMask hexp]
    by_cases hle : exp ≤ k
    · simp [show idx ≠ k by omega]
    · simp [hle]
  · rfl

/-- Emptying the slot of an entry together with its hop bit. -/
theorem vacated_layout (L : Layout t exp hashOf t.occ) (hexp : exp ≤ w.expMax) {home idx : ℕ}
    {e : α} (hidx : idx < exp) (hset : t.hop home idx = true)
    (hslot : t.occ (home + idx) = some e) :
    Layout (vacated t home idx) exp hashOf (vacated t home idx).occ ∧
      (∀ e', (∃ i, (vacated t home idx).occ i = some e') ↔ e' ≠ e ∧ ∃ i, t.occ i = some e') := by
  have hexpw : exp < w.bits := hexp.trans_lt (expMax_lt_bits w)
  have hocc : (vacated t home idx).occ = Function.update t.occ (home + idx) none := by
    funext i
    show (if i < t.size then _ else _) = _
    rw [vacated_entry]
    by_cases hi : i = home + idx
    · subst hi; simp
    · rw [if_neg hi, Function.update_of_ne hi]; rfl
  have hcases : ∀ {i : ℕ} {e' : α}, (vacated t home idx).occ i = some e' →
      i ≠ home + idx ∧ t.occ i = some e' := by
    intro i e' hi
    rw [hocc] at hi
    by_cases hib : i = home + idx
    · subst hib; simp at hi
    · exact ⟨hib, by rwa [Function.update_of_ne hib] at hi⟩
  refine ⟨⟨L.size, ?_, ?_, ?_⟩, ?_⟩
  · intro h j hj hh
    rw [vacated_hop, Bool.and_eq_true] at hh
    obtain ⟨hne, hold⟩ := hh
    obtain ⟨e', he', hid⟩ := L.slot_of_hop h j hj hold
    refine ⟨e', ?_, hid⟩
    rw [hocc, Function.update_of_ne, he']
    -- another hop bit pointing to the emptied slot would make `e` home in two buckets
    intro hc
    obtain ⟨e₀, he₀, hid₀⟩ := L.slot_of_hop home idx hidx hset
    rw [hc] at he'
    obtain rfl : e₀ = e' := by simpa [he₀] using he'
    obtain rfl : h = home := hid.symm.trans hid₀
    obtain rfl : idx = j := by omega
    simp at hne
  · intro i e' hi
    obtain ⟨hib, hold⟩ := hcases hi
    obtain ⟨hentry, hfrag, j, hj, hij, hbit⟩ := L.hop_of_slot i e' hold
    refine ⟨by rw [vacated_entry, if_neg hib, hentry],
      by rw [vacated_fragment t hexpw home hidx, hfrag], j, hj, hij, ?_⟩
    rw [vacated_hop, hbit, Bool.and_true, Bool.not_eq_true', Bool.and_eq_false_iff]
    by_contra hc
    simp only [decide_eq_false_iff_not, not_or, not_not] at hc
    exact hib (by omega)
  · intro i i' e' hi hi'
    exact L.slot_unique _ _ _ (hcases hi).2 (hcases hi').2
  · intro e'
    constructor
    · rintro ⟨i, hi⟩
      obtain ⟨hib, hold⟩ := hcases hi
      refine ⟨?_, i, hold⟩
      rintro rfl
      exact hib (L.slot_unique _ _ _ hold hslot)
    · rintro ⟨hne, i, hi⟩
      refine ⟨i, ?_⟩
      rw [hocc, Function.update_of_ne, hi]
      rintro rfl
      exact hne (by simpa [hi] using hslot)

end Slots

end BookmarkFS.Hopscotch
