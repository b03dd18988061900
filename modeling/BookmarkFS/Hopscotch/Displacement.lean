import BookmarkFS.Hopscotch.Layout

/-! # Making room

`make_room()` keeps the layout and the entries at every swap. Each swap moves
the hole to a lower bucket; the slot it finally hands out is free for `occ`,
while its `entry` may still be the pointer that was moved away last.
-/
namespace BookmarkFS.Hopscotch
open Library

variable {w : WordSize} {α : Type} {t : Buckets w α} {exp : ℕ} {hashOf : α → Word w}
  {occ : ℕ → Option α}

/-- The linear probe stops at the end of the array or at the first empty slot. -/
theorem probe_spec (t : Buckets w α) (n b : ℕ) (hb : b + n ≤ t.size) :
    ∃ b', probe t n b = .ok b' ∧ b ≤ b' ∧ b' ≤ b + n ∧
      (b' < b + n → (t.mem b').entry = none) ∧
      ∀ i, b ≤ i → i < b' → (t.mem i).entry ≠ none := by
  induction n generalizing b with
  | zero =>
    exact ⟨b, rfl, le_rfl, le_rfl, fun h => absurd h (by omega), fun i hi hi' => by omega⟩
  | succ n ih =>
    have hlt : b < t.size := by omega
    cases hentry : (t.mem b).entry with
    | none =>
      refine ⟨b, ?_, le_rfl, by omega, fun _ => hentry, fun i hi hi' => by omega⟩
      simp [probe, Buckets.get_ok hlt, hentry]
    | some e =>
      obtain ⟨b', hrun, hge, hle, hempty, hfull⟩ := ih (b + 1) (by omega)
      refine ⟨b', ?_, by omega, by omega, fun h => hempty (by omega), fun i hi hi' => ?_⟩
      · simp [probe, Buckets.get_ok hlt, hentry, hrun]
      · rcases hi.eq_or_lt with rfl | hgt
        · simp [hentry]
        · exact hfull i hgt hi'

/-- A bucket found for a swap has a hop bit nearer to it than `b`. -/
theorem findSwap_spec (t : Buckets w α) (b n swp : ℕ) (hn : swp + n ≤ b) (hb : b ≤ t.size)
    (hdist : b - swp < w.bits) :
    ∃ r, findSwap t b n swp = .ok r ∧ ∀ home hop, r = some (home, hop) →
      swp ≤ home ∧ home + hop < b ∧ t.hop home hop = true := by
  induction n generalizing swp with
  | zero => exact ⟨none, rfl, by simp⟩
  | succ n ih =>
    have hlt : swp < t.size := by omega
    by_cases hfar : countTz (t.mem swp).bits ≥ b - swp
    · obtain ⟨r, hrun, hr⟩ := ih (swp + 1) (by omega) (by omega)
      refine ⟨r, ?_, fun home hop h => ?_⟩
      · simp only [findSwap, Buckets.get_ok hlt, ok_bind, if_pos hfar, hrun]
      · obtain ⟨hge, hlast, hset⟩ := hr home hop h
        exact ⟨by omega, hlast, hset⟩
    · refine ⟨some (swp, countTz (t.mem swp).bits), ?_, ?_⟩
      · simp only [findSwap, Buckets.get_ok hlt, ok_bind, if_neg hfar]
      · rintro home hop ⟨rfl, rfl⟩
        exact ⟨le_rfl, by omega, getLsbD_countTz _ (by omega)⟩

/-- The array after one swap, written out. -/
def swapped (t : Buckets w α) (exp b swp hop : ℕ) : Buckets w α :=
  let mem := Function.update t.mem swp
    { t.mem swp with bits := bitUnset (bitSet (t.mem swp).bits (b - swp)) hop }
  let dst : Bucket w α :=
    { bits := (mem b).bits ^^^ (((mem b).bits ^^^ (mem (swp + hop)).bits) &&& bucketHashMask w exp),
      entry := (mem (swp + hop)).entry }
  { t with mem := Function.update mem b dst }

theorem swapSlot_eq {b swp hop : ℕ} (hb : b < t.size) (hhop : swp + hop < b) :
    swapSlot t exp b swp hop = .ok (swapped t exp b swp hop) := by
  have hswp : swp < t.size := by omega
  have hsrc : swp + hop < t.size := by omega
  simp only [swapSlot, Buckets.get_ok hswp, Buckets.set_ok _ hswp, ok_bind]
  rw [Buckets.get_ok (by exact hsrc), ok_bind, Buckets.get_ok (by exact hb), ok_bind,
    Buckets.set_ok _ (by exact hb)]
  rfl

section Swap

variable {b swp hop : ℕ}

theorem swapped_hop (hexp : exp < w.bits) (hb : swp < b) (hdist : b - swp < exp) {h j : ℕ}
    (hj : j < exp) :
    (swapped t exp b swp hop).hop h j =
      if h = swp then decide (hop ≠ j) && (decide (b - swp = j) || t.hop h j) else t.hop h j := by
  have hmask : (bucketHashMask w exp).getLsbD j = false := by
    rw [getLsbD_bucketHashMask hexp]; simp [hj]
  by_cases hhb : h = b
  · subst hhb
    have hne : h ≠ swp := by omega
    simp [swapped, Buckets.hop, hmask, hne]
  · by_cases hhs : h = swp
    · subst hhs
      simp [swapped, Buckets.hop, Function.update_of_ne hhb, getLsbD_bitUnset,
        getLsbD_bitSet _ (show b - h < w.bits by omega)]
    · simp [swapped, Buckets.hop, Function.update_of_ne hhb, hhs]

theorem swapped_entry (hb : swp + hop < b) (i : ℕ) :
    ((swapped t exp b swp hop).mem i).entry =
      if i = b then (t.mem (swp + hop)).entry else (t.mem i).entry := by
  by_cases hib : i = b
  · subst hib
    by_cases hsrc : swp + hop = swp
    · simp [swapped, hsrc]
    · simp [swapped, Function.update_of_ne hsrc]
  · by_cases his : i = swp
    · subst his
      simp [swapped, hib]
    · simp [swapped, Function.update_of_ne his, hib]

theorem swapped_fragment (hexp : exp < w.bits) (hb : swp + hop < b) (hdist : b - swp < exp)
    (i : ℕ) :
    (swapped t exp b swp hop).fragment exp i =
      if i = b then t.fragment exp (swp + hop) else t.fragment exp i := by
  apply BitVec.eq_of_getLsbD_eq
  intro k hk
  by_cases hlow : k < exp
  · have hmask : (bucketHashMask w exp).getLsbD k = false := by
      rw [getLsbD_bucketHashMask hexp]; simp [hlow]
    split_ifs <;> simp [Buckets.fragment, hmask]
  · have hmask : (bucketHashMask w exp).getLsbD k = true := by
      rw [getLsbD_bucketHashMask hexp]; simp [hk, Nat.not_lt.mp hlow]
    -- setting and clearing hop bits leaves the bits from `exp` on alone
    have hkeep : (bitUnset (bitSet (t.mem swp).bits (b - swp)) hop).getLsbD k =
        (t.mem swp).bits.getLsbD k := by
      rw [getLsbD_bitUnset, getLsbD_bitSet _ (by omega)]
      simp [show hop ≠ k by omega, show ¬b - swp = k by omega]
    have hmem : ∀ i, (Function.update t.mem swp
        { t.mem swp with bits := bitUnset (bitSet (t.mem swp).bits (b - swp)) hop } i).bits.getLsbD
          k =
        (t.mem i).bits.getLsbD k := by
      intro i
      by_cases his : i = swp
      · subst his; simpa using hkeep
      · rw [Function.update_of_ne his]
    by_cases hib : i = b
    · subst hib
      simp only [Buckets.fragment, swapped, Function.update_self, BitVec.getLsbD_and,
        BitVec.getLsbD_xor, hmem, hmask, if_true]
      cases (t.mem i).bits.getLsbD k <;> simp
    · simp only [Buckets.fragment, swapped, Function.update_of_ne hib, BitVec.getLsbD_and, hmem,
        hmask, if_neg hib]

/-- The occupancy after the entry at `swp + hop` has moved to `b`. -/
def movedOcc (occ : ℕ → Option α) (b src : ℕ) : ℕ → Option α :=
  Function.update (Function.update occ b (occ src)) src none

theorem movedOcc_cases {src : ℕ} (hb : src ≠ b) {i : ℕ} {e : α}
    (h : movedOcc occ b src i = some e) :
    i ≠ src ∧ ((i = b ∧ occ src = some e) ∨ (i ≠ b ∧ occ i = some e)) := by
  by_cases his : i = src
  · subst his; simp [movedOcc] at h
  · rw [movedOcc, Function.update_of_ne his] at h
    by_cases hib : i = b
    · subst hib; exact ⟨his, .inl ⟨rfl, by simpa using h⟩⟩
    · exact ⟨his, .inr ⟨hib, by rwa [Function.update_of_ne hib] at h⟩⟩

theorem movedOcc_at {src : ℕ} (hb : src ≠ b) : movedOcc occ b src b = occ src := by
  rw [movedOcc, Function.update_of_ne (Ne.symm hb), Function.update_self]

theorem movedOcc_of_ne {src i : ℕ} (hb : i ≠ b) (hs : i ≠ src) : movedOcc occ b src i = occ i := by
  rw [movedOcc, Function.update_of_ne hs, Function.update_of_ne hb]

theorem movedOcc_same {src : ℕ} (hb : src ≠ b) (hnone : occ b = none) :
    SameEntries occ (movedOcc occ b src) := by
  intro e
  constructor
  · rintro ⟨i, hi⟩
    obtain ⟨-, ⟨-, h⟩ | ⟨-, h⟩⟩ := movedOcc_cases hb hi
    · exact ⟨_, h⟩
    · exact ⟨_, h⟩
  · rintro ⟨i, hi⟩
    by_cases his : i = src
    · exact ⟨b, by rw [movedOcc_at hb, ← his, hi]⟩
    · have hib : i ≠ b := by rintro rfl; simp [hnone] at hi
      exact ⟨i, by rw [movedOcc_of_ne hib his, hi]⟩

/-- One swap keeps the layout, and the slot it leaves is the new hole. -/
theorem swapped_layout (L : Layout t exp hashOf occ) (hexp : exp ≤ w.expMax)
    (hfree : FreeAt t occ b) (hb : swp + hop < b) (hdist : b - swp < exp)
    (hset : t.hop swp hop = true) :
    Layout (swapped t exp b swp hop) exp hashOf (movedOcc occ b (swp + hop)) ∧
      FreeAt (swapped t exp b swp hop) (movedOcc occ b (swp + hop)) (swp + hop) := by
  have hexpw : exp < w.bits := hexp.trans_lt (expMax_lt_bits w)
  have hhop : hop < exp := by omega
  have hsrcb : swp + hop ≠ b := by omega
  obtain ⟨e, hsrc, hhome⟩ := L.slot_of_hop swp hop hhop hset
  obtain ⟨hblt, hbnone, hocc⟩ := hfree
  have hhop_eq : ∀ h j, j < exp → (swapped t exp b swp hop).hop h j =
      if h = swp then decide (hop ≠ j) && (decide (b - swp = j) || t.hop h j) else t.hop h j :=
    fun h j hj => swapped_hop hexpw (by omega) hdist hj
  refine ⟨⟨L.size, ?_, ?_, ?_⟩, by show swp + hop < t.size; omega, ?_, ?_⟩
  · -- a hop bit after the swap is the new one of `swp`, or an old one other than `hop`
    intro h j hj hh
    rw [hhop_eq h j hj] at hh
    by_cases hhs : h = swp
    · subst hhs
      rw [if_pos rfl] at hh
      simp only [ne_eq, Bool.and_eq_true, decide_eq_true_eq, Bool.or_eq_true] at hh
      obtain ⟨hne, rfl | hold⟩ := hh
      · rw [show h + (b - h) = b by omega, movedOcc_at hsrcb]
        exact ⟨e, hsrc, hhome⟩
      · obtain ⟨e', he', hid⟩ := L.slot_of_hop h j hj hold
        refine ⟨e', ?_, hid⟩
        rw [movedOcc_of_ne ?_ (by omega), he']
        rintro rfl
        simp [hbnone] at he'
    · rw [if_neg hhs] at hh
      obtain ⟨e', he', hid⟩ := L.slot_of_hop h j hj hh
      refine ⟨e', ?_, hid⟩
      rw [movedOcc_of_ne ?_ ?_, he']
      · rintro rfl; simp [hbnone] at he'
      · intro hc
        rw [hc, hsrc, Option.some_inj] at he'
        exact hhs (by rw [← hid, ← he', hhome])
  · -- an entry after the swap is the moved one, or stays where it was
    intro i e' hi
    obtain ⟨his, ⟨rfl, hold⟩ | ⟨hib, hold⟩⟩ := movedOcc_cases hsrcb hi
    · obtain rfl : e = e' := by simpa [hsrc] using hold
      obtain ⟨hentry, hfrag, -⟩ := L.hop_of_slot _ _ hsrc
      refine ⟨?_, ?_, i - swp, hdist, by omega, ?_⟩
      · rw [swapped_entry hb, if_pos rfl, hentry]
      · rw [swapped_fragment hexpw hb hdist, if_pos rfl, hfrag]
      · rw [hhome, hhop_eq _ _ hdist, if_pos rfl]
        simp [show hop ≠ i - swp by omega]
    · obtain ⟨hentry, hfrag, j, hj, hij, hset'⟩ := L.hop_of_slot _ _ hold
      refine ⟨?_, ?_, j, hj, hij, ?_⟩
      · rw [swapped_entry hb, if_neg hib, hentry]
      · rw [swapped_fragment hexpw hb hdist, if_neg hib, hfrag]
      · rw [hhop_eq _ _ hj]
        split_ifs with hhs
        · have hne : hop ≠ j := by rintro rfl; exact his (by omega)
          simp [hne, hset']
        · exact hset'
  · intro i i' e' hi hi'
    obtain ⟨his, ⟨hib, h⟩ | ⟨hib, h⟩⟩ := movedOcc_cases hsrcb hi <;>
      obtain ⟨his', ⟨hib', h'⟩ | ⟨hib', h'⟩⟩ := movedOcc_cases hsrcb hi'
    · exact hib.trans hib'.symm
    · exact absurd (L.slot_unique _ _ _ h' h) his'
    · exact absurd (L.slot_unique _ _ _ h h') his
    · exact L.slot_unique _ _ _ h h'
  · simp [movedOcc]
  · intro i hi
    show (if i < t.size then _ else _) = _
    rw [swapped_entry hb]
    by_cases hib : i = b
    · rw [if_pos (hib ▸ hblt), if_pos hib, hib, movedOcc_at hsrcb, hsrc]
      exact (L.hop_of_slot _ _ hsrc).1
    · rw [if_neg hib, movedOcc_of_ne hib hi, ← hocc i hib]
      rfl

end Swap

/-- What `make_room()` leaves behind: the same entries in a valid layout, and either a free slot
in the neighborhood of `home` or no free slot set aside. -/
def RoomMade (t : Buckets w α) (home exp : ℕ) (hashOf : α → Word w) (occ : ℕ → Option α)
    (t' : Buckets w α) (r : Option ℕ) : Prop :=
  ∃ occ', Layout t' exp hashOf occ' ∧ SameEntries occ occ' ∧ t'.size = t.size ∧
    match r with
    | none => t'.occ = occ'
    | some idx => idx < exp ∧ FreeAt t' occ' (home + idx)

theorem occ_of_freeAt {b : ℕ} (h : FreeAt t occ b) :
    ({ t with mem := Function.update t.mem b { t.mem b with entry := none } } : Buckets w α).occ =
      occ := by
  funext i
  by_cases hib : i = b
  · subst hib
    simp [Buckets.occ, h.1, h.2.1]
  · rw [← h.2.2 i hib]
    simp [Buckets.occ, Function.update_of_ne hib]

theorem Layout.clear_entry (L : Layout t exp hashOf occ) {b : ℕ} (hb : occ b = none) :
    Layout { t with mem := Function.update t.mem b { t.mem b with entry := none } } exp hashOf
      occ where
  size := L.size
  slot_of_hop h j hj hh := by
    refine L.slot_of_hop h j hj ?_
    by_cases hhb : h = b
    · subst hhb; simpa [Buckets.hop] using hh
    · simpa [Buckets.hop, Function.update_of_ne hhb] using hh
  hop_of_slot i e hi := by
    have hib : i ≠ b := by rintro rfl; simp [hb] at hi
    obtain ⟨hentry, hfrag, j, hj, hij, hset⟩ := L.hop_of_slot i e hi
    refine ⟨by simpa [Function.update_of_ne hib] using hentry,
      by simpa [Buckets.fragment, Function.update_of_ne hib] using hfrag, j, hj, hij, ?_⟩
    by_cases hhb : hashToIdx (hashOf e) exp = b
    · rw [hhb] at hset ⊢; simpa [Buckets.hop] using hset
    · simpa [Buckets.hop, Function.update_of_ne hhb] using hset
  slot_unique := L.slot_unique

/-- The loop of swaps, by induction on the bucket index of the hole. -/
theorem displace_spec (hexp : exp ≤ w.expMax) (home fuel : ℕ) (b : ℕ) (t : Buckets w α)
    (occ : ℕ → Option α) (L : Layout t exp hashOf occ) (hfree : FreeAt t occ b) (hhome : home ≤ b)
    (hpos : 0 < exp) (hfuel : b < fuel) :
    ∃ t' r, displace exp home fuel t b = .ok (t', r) ∧ RoomMade t home exp hashOf occ t' r := by
  induction fuel generalizing b t occ with
  | zero => omega
  | succ fuel ih =>
    by_cases hfar : home + exp ≤ b
    · have hbits := hexp.trans_lt (expMax_lt_bits w)
      obtain ⟨r, hrun, hr⟩ := findSwap_spec t b (exp - 1) (b - (exp - 1)) (by omega)
        hfree.1.le (by omega)
      cases r with
      | none =>
        refine ⟨{ t with mem := Function.update t.mem b { t.mem b with entry := none } }, none, ?_,
          occ, L.clear_entry hfree.2.1, SameEntries.refl _, rfl, occ_of_freeAt hfree⟩
        simp [displace, hfar, hrun, Buckets.get_ok hfree.1, Buckets.set_ok _ hfree.1]
      | some p =>
        obtain ⟨swp, hop⟩ := p
        obtain ⟨hge, hlast, hset⟩ := hr swp hop rfl
        obtain ⟨L', hfree'⟩ := swapped_layout L hexp hfree hlast (by omega) hset
        obtain ⟨t', r', hrun', occ', hL', hsame', hsize', hr'⟩ :=
          ih (swp + hop) _ _ L' hfree' (by omega) (by omega)
        refine ⟨t', r', ?_, occ', hL', (movedOcc_same (by omega) hfree.2.1).trans hsame', hsize',
          hr'⟩
        simp [displace, hfar, hrun, swapSlot_eq hfree.1 hlast, hrun']
    · refine ⟨t, some (b - home), by simp [displace, hfar], occ, L, SameEntries.refl _, rfl,
        by omega, ?_⟩
      rwa [show home + (b - home) = b by omega]

/-- An empty slot in the neighborhood of the home bucket makes `make_room()` succeed. -/
theorem makeRoom_of_free {home i : ℕ} (hi : home ≤ i) (hlt : i < t.size) (hexp : i < home + exp)
    (hfree : t.occ i = none) : ∃ idx, makeRoom t home exp = .ok (t, some idx) := by
  obtain ⟨b, hrun, hge, hle, -, hfull⟩ := probe_spec t (t.size - home) home (by omega)
  have hb : b ≤ i := by
    by_contra h
    exact hfull i hi (by omega) (by rw [← Buckets.occ_of_lt hlt, hfree])
  refine ⟨b - home, ?_⟩
  simp [makeRoom, hrun, show b ≠ t.size by omega, displace, show ¬home + exp ≤ b by omega]

/-- `make_room()` never leaves the array, and keeps the layout and the entries, whether it finds a
slot, finds none, or gives up after some swaps. -/
theorem makeRoom_spec (L : Layout t exp hashOf t.occ) (hexp : exp ≤ w.expMax) (hpos : 0 < exp)
    {home : ℕ} (hhome : home < 2 ^ exp) :
    ∃ t' r, makeRoom t home exp = .ok (t', r) ∧ RoomMade t home exp hashOf t.occ t' r := by
  have hlt : home < t.size := by
    simpa [L.size] using neighborhood_lt (j := 0) hhome hpos
  obtain ⟨b, hrun, hge, hle, hempty, -⟩ := probe_spec t (t.size - home) home (by omega)
  by_cases hend : b = t.size
  · exact ⟨t, none, by simp [makeRoom, hrun, hend], t.occ, L, SameEntries.refl _, rfl, rfl⟩
  · have hb : b < t.size := by omega
    have hfree : FreeAt t t.occ b :=
      ⟨hb, by rw [Buckets.occ_of_lt hb, hempty (by omega)], fun _ _ => rfl⟩
    obtain ⟨t', r, hrun', hr⟩ :=
      displace_spec hexp home (b + 1) b t t.occ L hfree hge hpos (by omega)
    exact ⟨t', r, by simp [makeRoom, hrun, hend, hrun'], hr⟩

end BookmarkFS.Hopscotch
