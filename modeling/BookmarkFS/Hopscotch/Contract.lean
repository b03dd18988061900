import BookmarkFS.Hopscotch.Resize

/-! # What the map asks of those who modify it

A removal must be of an entry that is there, under an identifier that is not
stale; and while a table is rehashed the hash inputs of its entries must be what
they were when the entries were filed. The checked tables fault on a call that
does not meet this, and agree with the tables of hashmap.c on all others.
-/
namespace BookmarkFS.Hopscotch
open Library

variable {w : WordSize} {α : Type}

def Hashmap.Contains (map : Hashmap w α) (e : α) : Prop := ∃ i, map.buckets.occ i = some e

theorem Hashmap.mem_visited_iff (map : Hashmap w α) (e : α) : e ∈ map.visited ↔ map.Contains e := by
  rw [Hashmap.visited, List.mem_filterMap]
  exact exists_congr fun i => and_iff_right_of_imp fun h => List.mem_range.mpr (Buckets.lt_of_occ h)

/-- The table has `e` filed under the hashcode `hash`. -/
def FiledUnder (map : Hashmap w α) (e : α) (hash : Word w) : Prop :=
  ∃ j < map.exp, map.buckets.hop (hashToIdx hash map.exp) j = true ∧
    map.buckets.occ (hashToIdx hash map.exp + j) = some e ∧
    map.buckets.fragment map.exp (hashToIdx hash map.exp + j) = hash <<< map.exp

/-- `hashmap_insert(map, hash, _)` rehashes entries only under the hashcodes they are
filed under. -/
def InsertSound (entryHash : α → Word w) (map : Hashmap w α) (hash : Word w) : Prop :=
  (∃ t, makeRoom map.buckets (hashToIdx hash map.exp) map.exp = .ok (t, none)) →
    ∀ x, map.Contains x → FiledUnder map x (entryHash x)

/-- `hashmap_update(map, e, NULL, id)` is about an entry that is present, in the bucket that `id`
designates unless it is negative; and it rehashes entries only as above. -/
def RemoveSound (entryHash : α → Word w) (map : Hashmap w α) (e : α) (id : ℤ) : Prop :=
  map.Contains e ∧ (0 ≤ id → ∃ found : Word w, id = found.toInt ∧ Designates map found e) ∧
    (map.Shrinks → ∀ x, x ≠ e → map.Contains x → FiledUnder map x (entryHash x))

/-- The faults that end a call for the size of a table alone. -/
def Fault.Abort (f : Fault) : Prop := f = .tableSize ∨ f = .expMax

section Checked

open Classical in
/-- `hashmap_insert()` that asserts `InsertSound`. -/
noncomputable def checkedInsert (entryHash : α → Word w) (map : Hashmap w α) (hash : Word w)
    (e : α) : Except Fault (Hashmap w α) :=
  if InsertSound entryHash map hash then hashmapInsert entryHash map hash e else .error .assertion

open Classical in
/-- The removal of `hashmap_update()` that asserts `RemoveSound`. -/
noncomputable def checkedRemove [DecidableEq α] (entryHash : α → Word w) (map : Hashmap w α)
    (e : α) (id : ℤ) : Except Fault (Hashmap w α) :=
  if RemoveSound entryHash map e id then hashmapUpdate entryHash map e none id
  else .error .assertion

end Checked

section Sound

variable {map : Hashmap w α} {S : Finset α} {hashOf entryHash : α → Word w}

theorem Holds.contains_iff (H : Holds map S hashOf) (e : α) : map.Contains e ↔ e ∈ S :=
  (H.mem_iff e).symm

theorem Holds.filedUnder (H : Holds map S hashOf) {e : α} (he : e ∈ S) :
    FiledUnder map e (hashOf e) := by
  obtain ⟨i, hi⟩ := (H.mem_iff e).mp he
  obtain ⟨-, hfrag, j, hj, rfl, hset⟩ := H.layout.hop_of_slot i e hi
  exact ⟨j, hj, hset, hi, hfrag⟩

theorem Holds.insertSound (H : Holds map S hashOf) (hagree : ∀ x ∈ S, entryHash x = hashOf x)
    (hash : Word w) : InsertSound entryHash map hash := by
  intro _ x hx
  have hx := (H.contains_iff x).mp hx
  exact hagree x hx ▸ H.filedUnder hx

theorem Holds.removeSound [DecidableEq α] (H : Holds map S hashOf) {e : α} (he : e ∈ S)
    (hagree : map.Shrinks → ∀ x ∈ S.erase e, entryHash x = hashOf x) {id : ℤ}
    (hid : 0 ≤ id → ∃ found : Word w, id = found.toInt ∧ Designates map found e) :
    RemoveSound entryHash map e id := by
  refine ⟨(H.contains_iff e).mpr he, hid, fun hshrinks x hne hx => ?_⟩
  have hx := (H.contains_iff x).mp hx
  exact hagree hshrinks x (Finset.mem_erase.mpr ⟨hne, hx⟩) ▸ H.filedUnder hx

end Sound

end BookmarkFS.Hopscotch
