import BookmarkFS.Hopscotch.Operations

/-! # Insertions, removals and the resizing they trigger

A rehash files every entry under the hashcode its fields have now, which is why
the specifications carry two hash functions: `hashOf` says under which hashcode
an entry was inserted, `entryHash` is what the callback answers.
-/
namespace BookmarkFS.Hopscotch
open Library

variable {w : WordSize} {α : Type} {hashOf entryHash : α → Word w} {map : Hashmap w α}
  {S : Finset α}

/-- The writes that follow a successful `make_room()`. -/
theorem file_eq {t : Buckets w α} {exp home idx : ℕ} {β : Type} (hash : Word w) (e : α)
    (hlt : home + idx < t.size) (k : Buckets w α → Except Fault β) :
    (do let home' ← t.get home
        let t ← t.set home { home' with bits := bitSet home'.bits idx }
        let b ← t.get (home + idx)
        let t ← t.set (home + idx)
          { bits := (b.bits &&& bucketHopMask w exp) ||| hash <<< exp, entry := some e }
        k t) = k (filed t exp home idx hash e) := by
  have hhome : home < t.size := by omega
  rw [Buckets.get_ok hhome, ok_bind, Buckets.set_ok _ hhome, ok_bind,
    Buckets.get_ok (by exact hlt), ok_bind, Buckets.set_ok _ (by exact hlt), ok_bind]
  rfl

/-- `make_room()` has no slot for `e` in some table with `exp` that holds the entries of `T`. -/
def NoRoom (entryHash : α → Word w) (exp : ℕ) (T : Set α) (e : α) : Prop :=
  ∃ t t' : Buckets w α, Layout t exp entryHash t.occ ∧ (∀ x, x ∈ T ↔ ∃ i, t.occ i = some x) ∧
    makeRoom t (hashToIdx (entryHash e) exp) exp = .ok (t', none)

/-- The loop of `rehash()`: the new table holds what has been read of the old one. It fails only
where there is no room for one of the entries. -/
theorem rehashLoop_spec (entryHash : α → Word w) {old : Buckets w α} {newExp : ℕ}
    (hexp : newExp ≤ w.expMax) (hpos : 0 < newExp)
    (huniq : ∀ i i' e, old.occ i = some e → old.occ i' = some e → i = i') (n oldB : ℕ)
    (new : Buckets w α) (hn : oldB + n ≤ old.size) (L : Layout new newExp entryHash new.occ)
    (hread : ∀ e, (∃ i, new.occ i = some e) ↔ ∃ i < oldB, old.occ i = some e) :
    ∃ r, rehashLoop entryHash old newExp n oldB new = .ok r ∧
      (∀ new', r = some new' → Layout new' newExp entryHash new'.occ ∧
        ∀ e, (∃ i, new'.occ i = some e) ↔ ∃ i < oldB + n, old.occ i = some e) ∧
      (r = none → ∃ T e, (∃ i, old.occ i = some e) ∧ (∀ x ∈ T, x ≠ e ∧ ∃ i, old.occ i = some x) ∧
        NoRoom entryHash newExp T e) := by
  induction n generalizing oldB new with
  | zero => exact ⟨some new, rfl, by rintro _ ⟨⟩; exact ⟨L, hread⟩, by simp⟩
  | succ n ih =>
    have hlt : oldB < old.size := by omega
    have hocc := Buckets.occ_of_lt hlt
    -- the entries below `oldB + 1` are those below `oldB` and the one in bucket `oldB`
    have hsucc : ∀ e, (∃ i < oldB + 1, old.occ i = some e) ↔
        (old.mem oldB).entry = some e ∨ ∃ i < oldB, old.occ i = some e := by
      intro e
      rw [← hocc]
      constructor
      · rintro ⟨i, hi, he⟩
        rcases Nat.lt_succ_iff_lt_or_eq.mp hi with hi | rfl
        · exact .inr ⟨i, hi, he⟩
        · exact .inl he
      · rintro (he | ⟨i, hi, he⟩)
        · exact ⟨oldB, by omega, he⟩
        · exact ⟨i, by omega, he⟩
    cases hentry : (old.mem oldB).entry with
    | none =>
      obtain ⟨r, hrun, hr⟩ := ih (oldB + 1) new (by omega) L fun e => by
        rw [hread, hsucc, hentry]; simp
      refine ⟨r, by simp [rehashLoop, Buckets.get_ok hlt, hentry, hrun], ?_⟩
      rwa [show oldB + (n + 1) = oldB + 1 + n by omega]
    | some e =>
      have hhome := hashToIdx_lt (entryHash e) (hexp.trans (expMax_lt_bits w).le)
      obtain ⟨new₁, room, hrun₁, occ', L₁, hsame, hsize, hroom⟩ := makeRoom_spec L hexp hpos hhome
      have hnew : ∀ x, (∃ i < oldB, old.occ i = some x) → x ≠ e := by
        rintro x ⟨i, hi, hx⟩ rfl
        have := huniq _ _ _ hx (hocc.trans hentry)
        omega
      cases room with
      | none =>
        refine ⟨none, by simp [rehashLoop, Buckets.get_ok hlt, hentry, hrun₁], by simp, fun _ => ?_⟩
        refine ⟨{x | ∃ i, new.occ i = some x}, e, ⟨_, hocc.trans hentry⟩, fun x hx => ?_, new, new₁,
          L, fun x => Iff.rfl, hrun₁⟩
        obtain ⟨i, hi, hx'⟩ := (hread x).mp hx
        exact ⟨hnew x ⟨i, hi, hx'⟩, i, hx'⟩
      | some idx =>
        obtain ⟨hidx, hfree⟩ := hroom
        have hmem : ∀ e', (∃ i, occ' i = some e') ↔ ∃ i < oldB, old.occ i = some e' :=
          fun e' => (hsame e').trans (hread e')
        have hnew : ∀ i, occ' i ≠ some e := fun i hi => hnew e ((hmem e).mp ⟨i, hi⟩) rfl
        obtain ⟨L₂, hmem₂⟩ := filed_layout L₁ hexp hidx hfree rfl hnew
        obtain ⟨r, hrun, hr⟩ := ih (oldB + 1) _ (by omega) L₂ fun e' => by
          rw [hmem₂, hmem, hsucc, hentry, Option.some_inj, eq_comm]
        refine ⟨r, ?_, ?_⟩
        · simp only [rehashLoop, Buckets.get_ok hlt, hentry, ok_bind, hrun₁]
          rw [file_eq (entryHash e) e hfree.1, hrun]
        · rwa [show oldB + (n + 1) = oldB + 1 + n by omega]

/-- `rehash()` either leaves the map as it is, or files every entry under its present hashcode. -/
theorem Holds.rehash (H : Holds map S hashOf) (entryHash : α → Word w) (newExp : ℕ)
    (hge : expMin ≤ newExp) :
    ∃ map' done, Hopscotch.rehash entryHash map newExp = .ok (map', done) ∧
      (done = false → map' = map ∧ (w.expMax < newExp ∨ ∃ (T : Set α) (e : α),
        e ∈ S ∧ (∀ x ∈ T, x ≠ e ∧ x ∈ S) ∧ NoRoom entryHash newExp T e)) ∧
      (done = true → map'.exp = newExp ∧ Holds map' S entryHash) := by
  by_cases hmax : w.expMax < newExp
  · exact ⟨map, false, by rw [Hopscotch.rehash, if_pos hmax], fun _ => ⟨rfl, .inl hmax⟩, by simp⟩
  · have hle : newExp ≤ w.expMax := by omega
    obtain ⟨r, hrun, hr, hfail⟩ := rehashLoop_spec entryHash hle (by unfold expMin at hge; omega)
      H.layout.slot_unique map.buckets.size 0 (Buckets.calloc (bucketCnt newExp)) (by omega)
      (Layout.calloc w newExp entryHash) (by simp)
    cases r with
    | none =>
      refine ⟨map, false, ?_, fun _ => ⟨rfl, .inr ?_⟩, by simp⟩
      · rw [Hopscotch.rehash, if_neg hmax, hrun, ok_bind]
      · simpa only [H.mem_iff] using hfail rfl
    | some new =>
      obtain ⟨L, hmem⟩ := hr new rfl
      refine ⟨{ map with buckets := new, exp := newExp }, true, ?_, by simp, fun _ => ⟨rfl, ?_⟩⟩
      · rw [Hopscotch.rehash, if_neg hmax, hrun, ok_bind]
      · refine ⟨hge, hle, L, fun e => ?_, H.used⟩
        rw [H.mem_iff, hmem]
        refine exists_congr fun i => ⟨fun hi => ⟨?_, hi⟩, And.right⟩
        have := Buckets.lt_of_occ hi
        omega

/-! ## Insertion -/

/-- An attempt for which `make_room()` finds no slot leaves a table with the same entries, which
is the one that is rehashed. -/
theorem Holds.no_room (H : Holds map S hashOf) {hash : Word w} {t : Buckets w α}
    (hrun : makeRoom map.buckets (hashToIdx hash map.exp) map.exp = .ok (t, none)) :
    Holds { map with buckets := t } S hashOf := by
  have hpos : 0 < map.exp := lt_of_lt_of_le (by decide) H.exp_ge
  obtain ⟨t', r, hrun', occ', L, hsame, hsize, hroom⟩ :=
    makeRoom_spec H.layout H.exp_le hpos (hashToIdx_lt hash H.exp_lt_bits.le)
  obtain ⟨rfl, rfl⟩ : t = t' ∧ none = r := by simpa [hrun] using hrun'
  obtain rfl : t.occ = occ' := hroom
  exact ⟨H.exp_ge, H.exp_le, L, fun x => (H.mem_iff x).trans (hsame x).symm, H.used⟩

section Insert

variable [DecidableEq α]

/-- An insertion for which `make_room()` finds a slot. -/
theorem Holds.insert_room (H : Holds map S hashOf) {hash : Word w} {e : α}
    (hhash : hashOf e = hash) (he : e ∉ S) (fuel : ℕ) {t : Buckets w α} {idx : ℕ}
    (hrun : makeRoom map.buckets (hashToIdx hash map.exp) map.exp = .ok (t, some idx)) :
    ∃ map', hashmapInsertLoop entryHash hash e (fuel + 1) map = .ok map' ∧
      Holds map' (insert e S) hashOf := by
  have hpos : 0 < map.exp := lt_of_lt_of_le (by decide) H.exp_ge
  obtain ⟨t', r, hrun', occ', L, hsame, hsize, hroom⟩ :=
    makeRoom_spec H.layout H.exp_le hpos (hashToIdx_lt hash H.exp_lt_bits.le)
  obtain ⟨rfl, rfl⟩ : t = t' ∧ some idx = r := by simpa [hrun] using hrun'
  obtain ⟨hidx, hfree⟩ := hroom
  have hmem : ∀ x, (∃ i, occ' i = some x) ↔ x ∈ S := fun x => (hsame x).trans (H.mem_iff x).symm
  obtain ⟨L', hmem'⟩ :=
    filed_layout L H.exp_le hidx hfree hhash fun i hi => he ((hmem e).mp ⟨i, hi⟩)
  let home := hashToIdx hash map.exp
  refine ⟨⟨filed t map.exp home idx hash e, map.numUsed + 1, map.exp⟩, ?_, H.exp_ge, H.exp_le, L',
    fun x => ?_, ?_⟩
  · simp only [hashmapInsertLoop, hrun, ok_bind]
    rw [file_eq hash e hfree.1]
  · rw [Finset.mem_insert, hmem', hmem]
  · show map.numUsed + 1 = _
    rw [Finset.card_insert_of_notMem he, H.used]

/-- What an insertion leaves, whatever the hashcodes of the entries have become: the new entry is
filed under the hashcode given, each other one as it was, or anew. -/
structure Inserted (entryHash : α → Word w) (S : Finset α) (hashOf : α → Word w) (hash : Word w)
    (e : α) (map' : Hashmap w α) (hashOf' : α → Word w) : Prop where
  holds : Holds map' (insert e S) hashOf'
  self : hashOf' e = hash
  rest : ∀ x ∈ S, hashOf' x = hashOf x ∨ hashOf' x = entryHash x

theorem Inserted.of_rehash {hash : Word w} {e : α} {map' : Hashmap w α} {hashOf' : α → Word w}
    (h : Inserted entryHash S entryHash hash e map' hashOf') (hashOf : α → Word w) :
    Inserted entryHash S hashOf hash e map' hashOf' :=
  ⟨h.holds, h.self, fun x hx => .inr ((h.rest x hx).elim id id)⟩

/-- `hashmap_insert()` by induction on the exponents left: every retry is at a larger one. -/
theorem Holds.insertLoop {hash : Word w} {e : α} (he : e ∉ S) (fuel : ℕ) (hashOf : α → Word w)
    (map : Hashmap w α) (H : Holds map S hashOf) (hfuel : w.expMax < fuel + map.exp) :
    hashmapInsertLoop entryHash hash e fuel map = .error .tableSize ∨
      ∃ map' hashOf', hashmapInsertLoop entryHash hash e fuel map = .ok map' ∧
        Inserted entryHash S hashOf hash e map' hashOf' := by
  induction fuel generalizing map hashOf with
  | zero => have := H.exp_le; omega
  | succ fuel ih =>
    have hge := H.exp_ge
    obtain ⟨t, room, hrun, -⟩ := makeRoom_spec H.layout H.exp_le (lt_of_lt_of_le (by decide) hge)
      (hashToIdx_lt hash H.exp_lt_bits.le)
    cases room with
    | some idx =>
      have hother : ∀ x ∈ S, Function.update hashOf e hash x = hashOf x :=
        fun x hx => Function.update_of_ne (fun h : x = e => he (h ▸ hx)) _ _
      obtain ⟨map', hins, H'⟩ : ∃ map', hashmapInsertLoop entryHash hash e (fuel + 1) map =
          .ok map' ∧ Holds map' (insert e S) (Function.update hashOf e hash) :=
        (H.congr_hash fun x hx => (hother x hx).symm).insert_room (Function.update_self ..) he
          fuel hrun
      exact .inr ⟨map', _, hins, H', Function.update_self .., fun x hx => .inl (hother x hx)⟩
    | none =>
      have H₁ := H.no_room hrun
      obtain ⟨map₁, grown, hrun₁, hfail₁, hdone₁⟩ :=
        H₁.rehash entryHash (map.exp + 1) (by omega)
      cases grown with
      | true =>
        obtain ⟨hexp₁, H₂⟩ := hdone₁ rfl
        simp only [hashmapInsertLoop, hrun, hrun₁, ok_bind, if_true]
        obtain herr | ⟨map', hashOf', hins, h⟩ := ih entryHash map₁ H₂ (by omega)
        · exact .inl herr
        · exact .inr ⟨map', hashOf', hins, h.of_rehash hashOf⟩
      | false =>
        obtain ⟨rfl, -⟩ := hfail₁ rfl
        obtain ⟨map₂, grown, hrun₂, -, hdone₂⟩ :=
          H₁.rehash entryHash (map.exp + 2) (by omega)
        cases grown with
        | true =>
          obtain ⟨hexp₂, H₂⟩ := hdone₂ rfl
          simp only [hashmapInsertLoop, hrun, hrun₁, hrun₂, ok_bind, if_true, Bool.false_eq_true,
            if_false]
          obtain herr | ⟨map', hashOf', hins, h⟩ := ih entryHash map₂ H₂ (by omega)
          · exact .inl herr
          · exact .inr ⟨map', hashOf', hins, h.of_rehash hashOf⟩
        | false =>
          left
          simp only [hashmapInsertLoop, hrun, hrun₁, hrun₂, ok_bind, Bool.false_eq_true, if_false]

/-- `hashmap_insert()` files the entry, or aborts on a table that cannot grow. -/
theorem Holds.insert_any (H : Holds map S hashOf) (entryHash : α → Word w) (hash : Word w) {e : α}
    (he : e ∉ S) :
    hashmapInsert entryHash map hash e = .error .tableSize ∨
      ∃ map' hashOf', hashmapInsert entryHash map hash e = .ok map' ∧
        Inserted entryHash S hashOf hash e map' hashOf' :=
  Holds.insertLoop he _ hashOf map H (by omega)

theorem Holds.insert (H : Holds map S hashOf) {hash : Word w} {e : α} (hhash : hashOf e = hash)
    (he : e ∉ S) (hagree : ∀ x ∈ S, entryHash x = hashOf x) :
    hashmapInsert entryHash map hash e = .error .tableSize ∨
      ∃ map', hashmapInsert entryHash map hash e = .ok map' ∧ Holds map' (insert e S) hashOf := by
  obtain herr | ⟨map', hashOf', hins, h⟩ := H.insert_any entryHash hash he
  · exact .inl herr
  refine .inr ⟨map', hins, h.holds.congr_hash fun x hx => ?_⟩
  obtain rfl | hx := Finset.mem_insert.mp hx
  · exact h.self.trans hhash.symm
  · exact (h.rest x hx).elim id fun h => h.trans (hagree x hx)

end Insert

/-! ## Removal -/

/-- Removing an entry leaves the load factor below 1/8 in a table above the minimal size. -/
def Hashmap.Shrinks (map : Hashmap w α) : Prop :=
  expMin < map.exp ∧ map.numUsed - 1 < map.buckets.size >>> 3

instance (map : Hashmap w α) : Decidable map.Shrinks :=
  inferInstanceAs (Decidable (_ ∧ _))

theorem update_bits_entry (t : Buckets w α) (home : ℕ) (bits : Word w) (i : ℕ) :
    (Function.update t.mem home { t.mem home with bits := bits } i).entry = (t.mem i).entry := by
  by_cases h : i = home
  · subst h
    simp
  · simp [h]

section Remove

variable [DecidableEq α]

/-- What a removal leaves: either no bucket moves, or the map shrinks and every remaining entry is
filed anew. -/
def Removed (entryHash : α → Word w) (map : Hashmap w α) (S : Finset α) (hashOf : α → Word w)
    (e : α) (map' : Hashmap w α) : Prop :=
  (Holds map' (S.erase e) hashOf ∧
      ∀ id e', e' ≠ e → Designates map id e' → Designates map' id e') ∨
    (map.Shrinks ∧ Holds map' (S.erase e) entryHash)

theorem Removed.holds {e : α} {map' : Hashmap w α} (h : Removed entryHash map S hashOf e map')
    (hagree : ∀ x ∈ S.erase e, entryHash x = hashOf x) : Holds map' (S.erase e) hashOf := by
  obtain ⟨H, -⟩ | ⟨-, H⟩ := h
  · exact H
  · exact H.congr_hash hagree

/-- The table right after the bucket of `e` has been emptied. -/
theorem Holds.vacate (H : Holds map S hashOf) {home idx : ℕ} {e : α} (hidx : idx < map.exp)
    (hset : map.buckets.hop home idx = true) (hslot : map.buckets.occ (home + idx) = some e) :
    Holds { map with buckets := vacated map.buckets home idx, numUsed := map.numUsed - 1 }
        (S.erase e) hashOf ∧
      ∀ id e', e' ≠ e → Designates map id e' →
        Designates { map with buckets := vacated map.buckets home idx, numUsed := map.numUsed - 1 }
          id e' := by
  obtain ⟨L, hmem⟩ := vacated_layout H.layout H.exp_le hidx hset hslot
  refine ⟨⟨H.exp_ge, H.exp_le, L, fun x => ?_, ?_⟩, ?_⟩
  · rw [Finset.mem_erase, hmem, H.mem_iff]
  · show map.numUsed - 1 = _
    rw [Finset.card_erase_of_mem ((H.mem_iff e).mpr ⟨_, hslot⟩), H.used]
  · rintro id e' hne ⟨h, j, hh, hj, hid, hbit, hslot'⟩
    have hother : h + j ≠ home + idx := by
      intro hc
      rw [hc, hslot, Option.some_inj] at hslot'
      exact hne hslot'.symm
    refine ⟨h, j, hh, hj, hid, ?_, ?_⟩
    · show (vacated map.buckets home idx).hop h j = true
      rw [vacated_hop, hbit, Bool.and_true, Bool.not_eq_true', Bool.and_eq_false_iff]
      by_contra hc
      simp only [decide_eq_false_iff_not, not_or, not_not] at hc
      exact hother (by omega)
    · rw [Buckets.occ_eq_some] at hslot' ⊢
      refine ⟨hslot'.1, ?_⟩
      show ((vacated map.buckets home idx).mem (h + j)).entry = some e'
      rw [vacated_entry, if_neg hother, hslot'.2]

/-- A removal whose bucket has been worked out. -/
theorem Holds.remove_at (H : Holds map S hashOf) (entryHash : α → Word w) {id : ℤ}
    {home idx : ℕ} {e : α}
    (hid : (if id < 0 then Hopscotch.findEntry entryHash map e else
      .ok (id.toNat >>> w.hopIdxWidth, id.toNat % 2 ^ w.hopIdxWidth)) = .ok (home, idx))
    (hidx : idx < map.exp) (hset : map.buckets.hop home idx = true)
    (hslot : map.buckets.occ (home + idx) = some e) :
    ∃ map', hashmapUpdate entryHash map e none id = .ok map' ∧
      Removed entryHash map S hashOf e map' := by
  obtain ⟨H₁, hkeep⟩ := H.vacate hidx hset hslot
  have hlt := Buckets.lt_of_occ hslot
  have hhome : home < map.buckets.size := by omega
  have hentry := (update_bits_entry map.buckets home (bitUnset (map.buckets.mem home).bits idx)
    (home + idx)).trans
    (Buckets.occ_eq_some.mp hslot).2
  simp only [hashmapUpdate, hid, ok_bind, Buckets.get_ok hhome, Buckets.set_ok _ hhome,
    Option.isSome_none, Bool.false_eq_true, if_false]
  rw [Buckets.get_ok (by exact hlt), ok_bind, debugAssert, if_pos hentry, ok_bind,
    Buckets.set_ok _ (by exact hlt), ok_bind]
  by_cases hmin : map.exp ≤ expMin
  · rw [if_pos hmin]
    exact ⟨_, rfl, .inl ⟨H₁, hkeep⟩⟩
  · rw [if_neg hmin]
    by_cases hload : map.numUsed - 1 < map.buckets.size >>> 3
    · rw [if_pos hload]
      obtain ⟨map₁, done, hrun, hfail, hdone⟩ :=
        H₁.rehash entryHash (map.exp - 1) (by omega)
      refine ⟨map₁, by erw [hrun]; rfl, ?_⟩
      cases done with
      | false => obtain ⟨rfl, -⟩ := hfail rfl; exact .inl ⟨H₁, hkeep⟩
      | true => exact .inr ⟨⟨by omega, hload⟩, (hdone rfl).2⟩
    · rw [if_neg hload]
      exact ⟨_, rfl, .inl ⟨H₁, hkeep⟩⟩

theorem packId_split {exp hashIdx hopIdx : ℕ} (he : exp ≤ w.expMax) (hhash : hashIdx < 2 ^ exp)
    (hhop : hopIdx < exp) :
    ¬(packId w hashIdx hopIdx).toInt < 0 ∧
      (packId w hashIdx hopIdx).toInt.toNat >>> w.hopIdxWidth = hashIdx ∧
      (packId w hashIdx hopIdx).toInt.toNat % 2 ^ w.hopIdxWidth = hopIdx := by
  have hlt : hopIdx < 2 ^ w.hopIdxWidth := hhop.trans (he.trans_lt (expMax_lt_hopRange w))
  rw [packId_toInt he hhash hhop, Int.toNat_natCast, Nat.shiftRight_eq_div_pow]
  refine ⟨by omega, ?_, ?_⟩
  · rw [Nat.add_comm, Nat.add_mul_div_right _ _ (Nat.two_pow_pos _), Nat.div_eq_of_lt hlt, zero_add]
  · rw [Nat.add_comm, Nat.add_mul_mod_self_right, Nat.mod_eq_of_lt hlt]

theorem Holds.remove_id (H : Holds map S hashOf) (entryHash : α → Word w) {id : Word w} {e : α}
    (hid : Designates map id e) :
    ∃ map', hashmapUpdate entryHash map e none id.toInt = .ok map' ∧
      Removed entryHash map S hashOf e map' := by
  obtain ⟨h, j, hh, hj, rfl, hset, hslot⟩ := hid
  obtain ⟨hneg, hhome, hhop⟩ := packId_split H.exp_le hh hj
  refine H.remove_at entryHash ?_ hj hset hslot
  rw [if_neg hneg, hhome, hhop]

theorem Holds.remove_entry (H : Holds map S hashOf) {e : α} (he : e ∈ S)
    (hhash : entryHash e = hashOf e) :
    (map.exp = w.expMax → hashmapUpdate entryHash map e none (-1) = .error .expMax) ∧
      (map.exp ≠ w.expMax → ∃ map', hashmapUpdate entryHash map e none (-1) = .ok map' ∧
        Removed entryHash map S hashOf e map') := by
  obtain ⟨hmax, hfind⟩ := H.findEntry he hhash
  refine ⟨fun h => by simp [hashmapUpdate, hmax h], fun h => ?_⟩
  obtain ⟨home, j, hfound, hj, -, hset, hslot⟩ := hfind h
  exact H.remove_at entryHash (by rw [if_pos (by decide), hfound]) hj hset hslot

end Remove

/-! ## Iteration -/

/-- The entries in the order in which `hashmap_foreach()` visits them. -/
def Hashmap.visited (map : Hashmap w α) : List α :=
  (List.range map.buckets.size).filterMap map.buckets.occ

theorem hashmapForeach_eq {σ : Type} (map : Hashmap w α) (walk : σ → α → σ) (s : σ) :
    hashmapForeach map walk s = map.visited.foldl walk s := by
  rw [Hashmap.visited, List.foldl_filterMap, hashmapForeach]
  refine List.foldl_ext _ _ s fun s i hi => ?_
  rw [Buckets.occ_of_lt (List.mem_range.mp hi)]
  cases (map.buckets.mem i).entry <;> rfl

theorem Holds.mem_visited (H : Holds map S hashOf) (e : α) : e ∈ map.visited ↔ e ∈ S := by
  rw [Hashmap.visited, List.mem_filterMap, H.mem_iff]
  refine exists_congr fun i => ⟨And.right, fun h => ⟨?_, h⟩⟩
  exact List.mem_range.mpr (Buckets.lt_of_occ h)

theorem Holds.nodup_visited (H : Holds map S hashOf) : map.visited.Nodup := by
  refine List.Nodup.filterMap (fun i i' e hi hi' => ?_) List.nodup_range
  exact H.layout.slot_unique i i' e hi hi'

end BookmarkFS.Hopscotch
