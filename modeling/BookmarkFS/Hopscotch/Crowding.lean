import BookmarkFS.Hopscotch.Resize

/-! # Entries that share one hashcode

All of them compete for one neighborhood, so that their number is a lower bound
for the exponent of the table. Up to the maximal size the table always grows
enough to take one more.
-/
namespace BookmarkFS.Hopscotch
open Library

variable {w : WordSize} {α : Type} {hash : Word w} {map : Hashmap w α} {S : Finset α}

section Layout

variable {t : Buckets w α} {exp : ℕ}

theorem crowded_slot (L : Layout t exp (fun _ => hash) t.occ) {i : ℕ} {e : α}
    (hi : t.occ i = some e) : hashToIdx hash exp ≤ i ∧ i < hashToIdx hash exp + exp := by
  obtain ⟨-, -, j, hj, rfl, -⟩ := L.hop_of_slot i e hi
  omega

/-- As long as there are fewer entries than the neighborhood has slots, there is room. -/
theorem crowded_room [DecidableEq α] (L : Layout t exp (fun _ => hash) t.occ)
    (hexp : exp ≤ w.expMax)
    {T : Finset α} (hT : ∀ i e, t.occ i = some e → e ∈ T) (hcard : T.card < exp) :
    ∃ t' idx, makeRoom t (hashToIdx hash exp) exp = .ok (t', some idx) := by
  have hhome := hashToIdx_lt hash (hexp.trans (expMax_lt_bits w).le)
  -- otherwise the slots of the neighborhood hold more entries than there are
  obtain ⟨j, hj, hfree⟩ : ∃ j < exp, t.occ (hashToIdx hash exp + j) = none := by
    by_contra hfull
    push Not at hfull
    have hsome : ∀ j : Fin exp, ∃ e ∈ T, t.occ (hashToIdx hash exp + j) = some e := by
      intro j
      obtain ⟨e, he⟩ := Option.ne_none_iff_exists'.mp (hfull j j.isLt)
      exact ⟨e, hT _ e he, he⟩
    choose entryAt hmem hslot using hsome
    have hinj : Function.Injective entryAt := by
      intro j j' h
      have := L.slot_unique _ _ _ (hslot j) (h ▸ hslot j')
      exact Fin.ext (by omega)
    have hle := Finset.card_le_card_of_injOn (s := Finset.univ) (t := T) entryAt
      (fun j _ => hmem j) hinj.injOn
    simp at hle
    omega
  have hlt : hashToIdx hash exp + j < t.size := L.size ▸ neighborhood_lt hhome hj
  obtain ⟨idx, hrun⟩ := makeRoom_of_free (Nat.le_add_right (hashToIdx hash exp) j) hlt
    (Nat.add_lt_add_left hj _) hfree
  exact ⟨t, idx, hrun⟩

end Layout

theorem Holds.crowded_card (H : Holds map S fun _ => hash) : S.card ≤ map.exp := by
  have hsome : ∀ e : S, ∃ i, map.buckets.occ i = some e.1 := fun e => (H.mem_iff e).mp e.2
  choose slot hslot using hsome
  have hinj : Function.Injective slot := by
    intro e e' h
    have := hslot e
    rw [h, hslot e', Option.some_inj] at this
    exact Subtype.ext this.symm
  have hle := Finset.card_le_card_of_injOn (s := S.attach)
    (t := Finset.Ico (hashToIdx hash map.exp) (hashToIdx hash map.exp + map.exp)) slot
    (fun e _ => Finset.mem_coe.mpr (Finset.mem_Ico.mpr (crowded_slot H.layout (hslot e))))
    hinj.injOn
  simpa using hle

variable [DecidableEq α]

/-- A rehash of such a table succeeds if the new neighborhoods are large enough. -/
theorem Holds.crowded_rehash (H : Holds map S fun _ => hash) (newExp : ℕ)
    (hge : expMin ≤ newExp) (hle : newExp ≤ w.expMax) (hcard : S.card ≤ newExp) :
    ∃ map', Hopscotch.rehash (fun _ => hash) map newExp = .ok (map', true) ∧ map'.exp = newExp ∧
      Holds map' S fun _ => hash := by
  obtain ⟨map', done, hrun, hfail, hdone⟩ := H.rehash (fun _ => hash) newExp hge
  cases done with
  | true => exact ⟨map', hrun, hdone rfl⟩
  | false =>
    obtain ⟨-, hmax | ⟨T, e, he, hT, t, t', L, hmem, hnone⟩⟩ := hfail rfl
    · omega
    · -- the table for which there is no room lacks `e`, and so has a free slot
      have hpos := Finset.card_pos.mpr ⟨e, he⟩
      obtain ⟨t'', idx, hroom⟩ := crowded_room L hle (T := S.erase e)
        (fun i x hx => Finset.mem_erase.mpr (hT x ((hmem x).mpr ⟨i, hx⟩)))
        (by rw [Finset.card_erase_of_mem he]; omega)
      rw [hnone] at hroom
      simp at hroom

/-- One more entry always fits below the maximal exponent. -/
theorem Holds.crowded_insert (H : Holds map S fun _ => hash) {e : α} (he : e ∉ S)
    (hcard : S.card < w.expMax) :
    ∃ map', hashmapInsert (fun _ => hash) map hash e = .ok map' ∧
      Holds map' (Insert.insert e S) fun _ => hash := by
  have hroom : ∀ {m : Hashmap w α}, Holds m S (fun _ => hash) → S.card < m.exp →
      ∃ t idx, makeRoom m.buckets (hashToIdx hash m.exp) m.exp = .ok (t, some idx) :=
    fun Hm hlt => crowded_room Hm.layout Hm.exp_le (fun i x hx => (Hm.mem_iff x).mpr ⟨i, hx⟩) hlt
  have hge := H.exp_ge
  obtain ⟨t, room, hrun, -⟩ := makeRoom_spec H.layout H.exp_le (lt_of_lt_of_le (by decide) hge)
    (hashToIdx_lt hash H.exp_lt_bits.le)
  cases room with
  | some idx => exact H.insert_room rfl he _ hrun
  | none =>
    have hfull : map.exp ≤ S.card := by
      by_contra hlt
      obtain ⟨t', idx, hrun'⟩ := hroom H (by omega)
      rw [hrun] at hrun'
      simp at hrun'
    obtain ⟨map₁, hrun₁, hexp₁, H₁⟩ := (H.no_room hrun).crowded_rehash (map.exp + 1)
      (by omega) (by omega) (by have := H.crowded_card; omega)
    obtain ⟨t₁, idx, hrun₂⟩ := hroom H₁ (by have := H.crowded_card; omega)
    obtain ⟨n, hn⟩ : ∃ n, w.expMax = n + 1 := Nat.exists_eq_succ_of_ne_zero (by omega)
    simp only [hashmapInsert, hashmapInsertLoop, hrun, hrun₁, ok_bind, if_true, hn]
    exact H₁.insert_room rfl he n hrun₂

end BookmarkFS.Hopscotch
