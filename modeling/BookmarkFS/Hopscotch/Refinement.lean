import BookmarkFS.Hopscotch.Crowding
import BookmarkFS.Library.Transition
import Mathlib.Data.Set.Card

/-! # The hashmap as a finite map

The abstract state of a session is the partial function from keys to the entry
inserted and not removed since. Runs consist of the calls the users of the map
may make; searches leave the map alone and so are observations, not steps.
-/
namespace BookmarkFS.Hopscotch
open Library

variable {w : WordSize} {α κ : Type}

/-- The hashmap together with the finite map it stands for. -/
structure Session (w : WordSize) (α κ : Type) where
  map : Hashmap w α
  spec : κ → Option α

inductive Call (α : Type) where
  | insert (entry : α)
  | remove (entry : α) (entryId : ℤ)

section Calls

variable [DecidableEq α] [DecidableEq κ] (key : α → κ) (entryHash : α → Word w)
  (comp : κ → α → Bool)

/-- `id` is what a search of the present map has stored for `e`. -/
def FoundBy (map : Hashmap w α) (e : α) (id : ℤ) : Prop :=
  ∃ k hash found, hashmapSearch (comp k) map hash = .ok (some (e, found)) ∧ id = found.toInt

/-- Insertions are of absent keys, removals of present entries under -1 or an identifier that a
search has just returned. -/
def Session.legal (s : Session w α κ) : Call α → Prop
  | .insert e => s.spec (key e) = none
  | .remove e id => s.spec (key e) = some e ∧ (id = -1 ∨ FoundBy comp s.map e id)

def Session.step (s : Session w α κ) : Call α → Except Fault (Session w α κ)
  | .insert e => do
    let map ← hashmapInsert entryHash s.map (entryHash e) e
    .ok ⟨map, Function.update s.spec (key e) (some e)⟩
  | .remove e id => do
    let map ← hashmapUpdate entryHash s.map e none id
    .ok ⟨map, Function.update s.spec (key e) none⟩

/-- The calls on a map that starts out empty. -/
def sessions : System (Session w α κ) (Call α) Fault where
  init s := s = ⟨hashmapCreate, fun _ => none⟩
  legal := Session.legal key comp
  step := Session.step key entryHash

end Calls

/-- The finite map `spec` has exactly the entries of `S`, each one under its own key. -/
def Spells (key : α → κ) (spec : κ → Option α) (S : Finset α) : Prop :=
  ∀ k e, spec k = some e ↔ e ∈ S ∧ key e = k

namespace Spells

variable {key : α → κ} {spec : κ → Option α} {S : Finset α}

theorem notMem (h : Spells key spec S) {e : α} (he : spec (key e) = none) : e ∉ S := by
  intro hmem
  simp [(h _ _).mpr ⟨hmem, rfl⟩] at he

variable [DecidableEq α] [DecidableEq κ]

theorem insert (h : Spells key spec S) {e : α} (he : spec (key e) = none) :
    Spells key (Function.update spec (key e) (some e)) (insert e S) := by
  intro k x
  by_cases hk : k = key e
  · subst hk
    rw [Function.update_self, Finset.mem_insert, Option.some_inj]
    constructor
    · rintro rfl; exact ⟨.inl rfl, rfl⟩
    · rintro ⟨rfl | hx, hkey⟩
      · rfl
      · rw [(h _ _).mpr ⟨hx, hkey⟩] at he; cases he
  · rw [Function.update_of_ne hk, h, Finset.mem_insert]
    constructor
    · rintro ⟨hx, hkey⟩; exact ⟨.inr hx, hkey⟩
    · rintro ⟨rfl | hx, hkey⟩
      · exact absurd hkey.symm hk
      · exact ⟨hx, hkey⟩

theorem erase (h : Spells key spec S) {e : α} (he : spec (key e) = some e) :
    Spells key (Function.update spec (key e) none) (S.erase e) := by
  intro k x
  by_cases hk : k = key e
  · subst hk
    rw [Function.update_self, Finset.mem_erase]
    constructor
    · rintro ⟨⟩
    · rintro ⟨⟨hne, hx⟩, hkey⟩
      rw [(h _ _).mpr ⟨hx, hkey⟩, Option.some_inj] at he
      exact absurd he hne
  · rw [Function.update_of_ne hk, h, Finset.mem_erase]
    constructor
    · rintro ⟨hx, hkey⟩
      refine ⟨⟨?_, hx⟩, hkey⟩
      rintro rfl
      exact hk hkey.symm
    · rintro ⟨⟨-, hx⟩, hkey⟩; exact ⟨hx, hkey⟩

end Spells

section Refinement

variable [DecidableEq α] [DecidableEq κ] {key : α → κ} {entryHash : α → Word w}
  {comp : κ → α → Bool}

def Session.Represents (key : α → κ) (entryHash : α → Word w) (s : Session w α κ) : Prop :=
  ∃ S, Holds s.map S entryHash ∧ Spells key s.spec S

omit [DecidableEq α] [DecidableEq κ] in
theorem FoundBy.designates {map : Hashmap w α} {S : Finset α} (H : Holds map S entryHash) {e : α}
    {id : ℤ} (h : FoundBy comp map e id) : ∃ found, id = found.toInt ∧ Designates map found e := by
  obtain ⟨k, hash, found, hrun, rfl⟩ := h
  obtain ⟨r, hrun', hfound, -⟩ := H.search (comp k) hash
  rw [hrun, Except.ok.injEq] at hrun'
  obtain ⟨-, -, -, hid⟩ := hfound e found hrun'.symm
  exact ⟨found, rfl, hid⟩

/-- The one call that fails where it should not: a removal without an identifier from a table of
the maximal size. -/
def Session.AtMaximalSize (s : Session w α κ) : Call α → Prop
  | .insert _ => False
  | .remove _ id => id = -1 ∧ s.map.exp = w.expMax

/-- A legal call keeps the representation, ends for lack of table size, or is a removal that the
table is too large for. -/
theorem Session.Represents.step {s : Session w α κ} (h : s.Represents key entryHash) {c : Call α}
    (hlegal : s.legal key comp c) :
    (s.AtMaximalSize c → s.step key entryHash c = .error .expMax) ∧
      (¬s.AtMaximalSize c → s.step key entryHash c = .error .tableSize ∨
        ∃ s', s.step key entryHash c = .ok s' ∧ s'.Represents key entryHash) := by
  obtain ⟨S, H, hspec⟩ := h
  cases c with
  | insert e =>
    refine ⟨False.elim, fun _ => ?_⟩
    have he := hspec.notMem hlegal
    obtain herr | ⟨map', hrun, H'⟩ := H.insert rfl he fun _ _ => (rfl : entryHash _ = _)
    · exact .inl (by simp [Session.step, herr])
    · refine .inr ⟨⟨map', Function.update s.spec (key e) (some e)⟩, by simp [Session.step, hrun],
        ?_⟩
      exact ⟨insert e S, H', hspec.insert hlegal⟩
  | remove e id =>
    obtain ⟨hpresent, hid⟩ := hlegal
    have he : e ∈ S := ((hspec _ _).mp hpresent).1
    obtain ⟨hmax, hremove⟩ := H.remove_entry he rfl
    refine ⟨?_, fun hsize => .inr ?_⟩
    · rintro ⟨rfl, hexp⟩
      simp [Session.step, hmax hexp]
    · obtain ⟨map', hrun, hremoved⟩ : ∃ map', hashmapUpdate entryHash s.map e none id = .ok map' ∧
          Removed entryHash s.map S entryHash e map' := by
        obtain rfl | hfound := hid
        · exact hremove fun hexp => hsize ⟨rfl, hexp⟩
        · obtain ⟨found, rfl, hdes⟩ := hfound.designates H
          exact H.remove_id entryHash hdes
      refine ⟨⟨map', Function.update s.spec (key e) none⟩, by simp [Session.step, hrun], ?_⟩
      exact ⟨S.erase e, hremoved.holds fun _ _ => rfl, hspec.erase hpresent⟩

theorem sessions_invariant :
    (sessions key entryHash comp).Invariant (Session.Represents key entryHash) where
  init := by
    rintro _ rfl
    exact ⟨∅, Holds.create entryHash, fun k e => by simp⟩
  step := by
    intro s c s' h (hlegal : s.legal key comp c) (hstep : s.step key entryHash c = .ok s')
    obtain ⟨hmax, hok⟩ := h.step hlegal
    by_cases hsize : s.AtMaximalSize c
    · rw [hmax hsize] at hstep; cases hstep
    · obtain herr | ⟨s'', hstep', h'⟩ := hok hsize
      · rw [herr] at hstep; cases hstep
      · rw [hstep', Except.ok.injEq] at hstep
        exact hstep ▸ h'

/-- What a session shows to its users is its finite map. -/
structure Session.Observes (key : α → κ) (entryHash : α → Word w) (comp : κ → α → Bool)
    (s : Session w α κ) : Prop where
  /-- A search with the hashcode of the key finds the entry the finite map has. -/
  search : ∀ k hash, (∀ e, s.spec k = some e → entryHash e = hash) →
    ∃ r, hashmapSearch (comp k) s.map hash = .ok r ∧ r.map Prod.fst = s.spec k ∧
      ∀ e id, r = some (e, id) → Designates s.map id e
  /-- An iteration visits every entry present exactly once. -/
  foreach : ∃ visited : List α, visited.Nodup ∧ (∀ e, e ∈ visited ↔ s.spec (key e) = some e) ∧
    ∀ {τ : Type} (walk : τ → α → τ) (userData : τ),
      hashmapForeach s.map walk userData = visited.foldl walk userData
  used : s.map.numUsed = {e | s.spec (key e) = some e}.ncard

omit [DecidableEq α] [DecidableEq κ] in
theorem Session.Represents.observes (hcomp : ∀ k e, comp k e = true ↔ key e = k)
    {s : Session w α κ} (h : s.Represents key entryHash) : s.Observes key entryHash comp := by
  obtain ⟨S, H, hspec⟩ := h
  have hmem : ∀ e, e ∈ S ↔ s.spec (key e) = some e := fun e => by simp [hspec (key e) e]
  refine ⟨fun k hash hhash => ?_, ?_, ?_⟩
  · obtain ⟨r, hrun, hfound, hnone⟩ := H.search (comp k) hash
    refine ⟨r, hrun, ?_, fun e id hr => (hfound e id hr).2.2.2⟩
    cases r with
    | some p =>
      obtain ⟨he, hk, -, -⟩ := hfound p.1 p.2 rfl
      exact ((hspec k p.1).mpr ⟨he, (hcomp k p.1).mp hk⟩).symm
    | none =>
      cases hk : s.spec k with
      | none => rfl
      | some e =>
        obtain ⟨he, hkey⟩ := (hspec k e).mp hk
        have := hnone rfl e he (hhash e hk)
        rw [(hcomp k e).mpr hkey] at this
        cases this
  · refine ⟨s.map.visited, H.nodup_visited, fun e => ?_, fun walk u => hashmapForeach_eq _ walk u⟩
    rw [H.mem_visited, hmem]
  · rw [H.used, show {e | s.spec (key e) = some e} = (S : Set α) by ext e; simp [hmem],
      Set.ncard_coe_finset]

/-- The hopscotch hashmap refines a finite map: so it shows in every state that any sequence of
legal calls leads to, through displacements, growth, shrinking and failed rehashes. A legal call
that fails does so for lack of table size, except for the removals `AtMaximalSize` describes. -/
theorem hashmap_refines_finite_map (key : α → κ) (entryHash : α → Word w) (comp : κ → α → Bool)
    (hcomp : ∀ k e, comp k e = true ↔ key e = k) {s : Session w α κ}
    (h : (sessions key entryHash comp).Reachable s) :
    s.Observes key entryHash comp ∧ ∀ c, s.legal key comp c →
      ((∀ f, s.step key entryHash c = .error f → f = .tableSize) ↔ ¬s.AtMaximalSize c) := by
  have hrep := h.holds sessions_invariant
  refine ⟨hrep.observes hcomp, fun c hlegal => ?_⟩
  obtain ⟨hmax, hok⟩ := hrep.step hlegal
  constructor
  · intro hfault hsize
    cases hfault _ (hmax hsize)
  · intro hsize f hstep
    obtain herr | ⟨s', hrun, -⟩ := hok hsize
    · rw [herr, Except.error.injEq] at hstep; exact hstep.symm
    · rw [hrun] at hstep; cases hstep

end Refinement

section Collisions

/-- Sessions of numbers that all have the hashcode 0, on a 32-bit machine. -/
def collisions : System (Session .w32 ℕ ℕ) (Call ℕ) Fault :=
  sessions id (fun _ => 0) fun k e => decide (e = k)

/-- The first `n` numbers can be inserted, as long as `n` is at most `EXP_MAX`. -/
theorem collidingInserts (n : ℕ) (hn : n ≤ 26) :
    ∃ s, ((List.range n).map Call.insert).foldlM collisions.step ⟨hashmapCreate, fun _ => none⟩ =
        .ok s ∧ collisions.Reachable s ∧ Holds s.map (Finset.range n) (fun _ => 0) ∧
      ∀ k, s.spec k = if k < n then some k else none := by
  induction n with
  | zero => exact ⟨_, rfl, .init rfl, Holds.create _, fun k => by simp⟩
  | succ n ih =>
    obtain ⟨s, hrun, hreach, H, hspec⟩ := ih (by omega)
    obtain ⟨map', hins, H'⟩ := H.crowded_insert (e := n) (by simp)
      (by rw [Finset.card_range]; exact hn)
    have hstep : collisions.step s (.insert n) =
        .ok ⟨map', Function.update s.spec n (some n)⟩ := by
      show (hashmapInsert _ s.map _ n >>= _) = _
      rw [hins]
      rfl
    have hlegal : collisions.legal s (.insert n) := by
      show s.spec n = none
      rw [hspec, if_neg (lt_irrefl n)]
    refine ⟨_, ?_, .step hreach hlegal hstep, by rwa [Finset.range_add_one], fun k => ?_⟩
    · rw [List.range_succ, List.map_append, List.foldlM_append, hrun]
      simp [hstep]
    · show Function.update s.spec n (some n) k = _
      rcases lt_trichotomy k n with hk | rfl | hk
      · rw [Function.update_of_ne hk.ne, hspec, if_pos hk, if_pos (by omega)]
      · simp
      · rw [Function.update_of_ne hk.ne', hspec, if_neg (by omega), if_neg (by omega)]

/-- A table of twenty-six colliding entries still shows its finite map. -/
theorem collisions_observed :
    ∃ s, collisions.Reachable s ∧ s.spec 25 = some 25 ∧
      s.Observes id (fun _ => 0) fun k e => decide (e = k) := by
  obtain ⟨s, -, hreach, -, hspec⟩ := collidingInserts 26 le_rfl
  refine ⟨s, hreach, by simp [hspec], ?_⟩
  exact (hashmap_refines_finite_map id (fun _ => 0) (fun k e => decide (e = k)) (by simp) hreach).1

/-- Twenty-six colliding entries fill a table of the maximal size of a 32-bit machine, and then
the removal of the first one fails an assertion. -/
theorem remove_fails_at_maximal_size :
    ∃ s, ((List.range 26).map Call.insert).foldlM collisions.step ⟨hashmapCreate, fun _ => none⟩ =
        .ok s ∧ collisions.Reachable s ∧ collisions.legal s (.remove 0 (-1)) ∧
      collisions.step s (.remove 0 (-1)) = .error .expMax := by
  obtain ⟨s, hrun, hreach, H, hspec⟩ := collidingInserts 26 le_rfl
  have hexp : s.map.exp = WordSize.expMax .w32 := by
    refine le_antisymm H.exp_le ?_
    show 26 ≤ s.map.exp
    simpa using H.crowded_card
  refine ⟨s, hrun, hreach, ⟨by simp [hspec], .inl rfl⟩, ?_⟩
  have hfail : hashmapUpdate (fun _ => 0) s.map 0 none (-1) = .error .expMax :=
    (H.remove_entry (by simp) rfl).1 hexp
  show (hashmapUpdate _ s.map 0 none (-1) >>= _) = _
  rw [hfail]
  rfl

end Collisions

end BookmarkFS.Hopscotch
