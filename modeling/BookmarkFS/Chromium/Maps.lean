import BookmarkFS.Chromium.Forest
import BookmarkFS.Hopscotch.Contract

/-! # The three maps of the backend

What a lookup finds in a map that holds the right entries, and what the calls
that modify a map leave behind, for all tables that do what hashmap.c does
whenever they are used as they ask to be.
-/
namespace BookmarkFS.Chromium
open Library Hopscotch

variable {w : WordSize} {tb : Tables w}

/-- The tables do what hashmap.c does on every call that meets the contract of the map. -/
structure Tables.Faithful (tb : Tables w) : Prop where
  insert : ∀ entryHash map hash e, InsertSound entryHash map hash →
    tb.insert entryHash map hash e = hashmapInsert entryHash map hash e
  remove : ∀ entryHash map e id, RemoveSound entryHash map e id →
    tb.remove entryHash map e id = hashmapUpdate entryHash map e none id

theorem Tables.real_faithful (digest : Bytes → Word w) : (Tables.real digest).Faithful where
  insert _ _ _ _ _ := rfl
  remove _ _ _ _ _ := rfl

/-- Tables that assert that they are used as they ask to be. -/
noncomputable def Tables.checked (digest : Bytes → Word w) : Tables w where
  digest := digest
  insert := checkedInsert
  remove := checkedRemove

theorem Tables.checked_faithful (digest : Bytes → Word w) : (Tables.checked digest).Faithful where
  insert _ _ _ _ h := if_pos h
  remove _ _ _ _ h := if_pos h

theorem update_of_mem {ents : Entries} {S : Finset EntryRef} {e x : EntryRef} (he : e ∉ S)
    (entry : NodeEntry) (hx : x ∈ S) : Function.update ents e entry x = ents x :=
  Function.update_of_ne (fun h : x = e => he (h ▸ hx)) _ _

namespace Tables.Faithful

variable {map : Hashmap w EntryRef} {S : Finset EntryRef} {hashOf entryHash : EntryRef → Word w}
  {e : EntryRef}

theorem yields_insert (hf : tb.Faithful) (hashOf : EntryRef → Word w) (H : Holds map S hashOf)
    {hash : Word w}
    (hhash : hashOf e = hash) (he : e ∉ S) (hagree : ∀ x ∈ S, entryHash x = hashOf x) :
    Yields Fault.Abort (tb.insert entryHash map hash e) fun map' =>
      Holds map' (Insert.insert e S) hashOf := by
  rw [hf.insert _ _ _ _ (H.insertSound hagree hash)]
  obtain herr | ⟨map', hrun, H'⟩ := H.insert hhash he hagree
  · rw [herr]; exact .inl rfl
  · rw [hrun]; exact H'

/-- An entry that is not in the map is filed under the hashcode of what is stored in its
cell in the end. -/
theorem yields_file (hf : tb.Faithful) (h : NodeEntry → Word w) {ents : Entries}
    (H : Holds map S fun x => h (ents x)) (he : e ∉ S) (entry : NodeEntry) {stored : NodeEntry} :
    Yields Fault.Abort (tb.insert (fun x => h (Function.update ents e stored x)) map (h entry) e)
    fun map' =>
      Holds map' (Insert.insert e S) fun x => h (Function.update ents e entry x) := by
  refine hf.yields_insert _ (H.congr_hash fun x hx => ?_) ?_ he fun x hx => ?_
  · rw [update_of_mem he _ hx]
  · rw [Function.update_self]
  · rw [update_of_mem he _ hx, update_of_mem he _ hx]

/-- Removal by an identifier. If the map does not shrink, the hashcodes of the entries that stay
do not matter, and identifiers stay valid. -/
theorem yields_remove_id (hf : tb.Faithful) (H : Holds map S hashOf) {id : Word w}
    (hid : Designates map id e) (hagree : map.Shrinks → ∀ x ∈ S.erase e, entryHash x = hashOf x) :
    Yields Fault.Abort (tb.remove entryHash map e id.toInt) fun map' =>
      Holds map' (S.erase e) hashOf ∧ (¬map.Shrinks → ∀ id' e', e' ≠ e →
        Designates map id' e' → Designates map' id' e') := by
  have he : e ∈ S := by
    obtain ⟨h, j, -, -, -, -, hslot⟩ := hid
    exact (H.mem_iff e).mpr ⟨_, hslot⟩
  rw [hf.remove _ _ _ _ (H.removeSound he hagree fun _ => ⟨id, rfl, hid⟩)]
  obtain ⟨map', hrun, hremoved⟩ := H.remove_id entryHash hid
  rw [hrun]
  obtain ⟨H', hkeep⟩ | ⟨hshrinks, H'⟩ := hremoved
  · exact ⟨H', fun _ => hkeep⟩
  · exact ⟨H'.congr_hash (hagree hshrinks), fun h => absurd hshrinks h⟩

theorem yields_remove_entry (hf : tb.Faithful) (H : Holds map S hashOf) (he : e ∈ S)
    (hagree : ∀ x ∈ S, entryHash x = hashOf x) :
    Yields Fault.Abort (tb.remove entryHash map e (-1)) fun map' =>
      Holds map' (S.erase e) hashOf := by
  have hrest : ∀ x ∈ S.erase e, entryHash x = hashOf x :=
    fun x hx => hagree x (Finset.mem_of_mem_erase hx)
  rw [hf.remove _ _ _ _ (H.removeSound he (fun _ => hrest) fun h => absurd h (by decide))]
  obtain ⟨hmax, hremove⟩ := H.remove_entry he (hagree e he)
  by_cases hexp : map.exp = w.expMax
  · rw [hmax hexp]; exact .inr rfl
  · obtain ⟨map', hrun, hremoved⟩ := hremove hexp
    rw [hrun]
    exact hremoved.holds hrest

end Tables.Faithful

/-- The entries that have a name in the filesystem, the root apart. -/
def named (ents : Entries) (S : Finset EntryRef) : Finset EntryRef :=
  S.filter fun e => e ≠ rootEntry ∧ (ents e).name ≠ none

theorem mem_named {ents : Entries} {S : Finset EntryRef} {e : EntryRef} :
    e ∈ named ents S ↔ e ∈ S ∧ e ≠ rootEntry ∧ (ents e).name ≠ none := by
  rw [named, Finset.mem_filter]

/-- The maps hold the entries `S`, each one under the hashcode of its own fields, and no two
visible entries have one name in one directory. -/
structure Indexed (tb : Tables w) (ctx : Ctx w) (S : Finset EntryRef) : Prop where
  id : Holds ctx.idMap S (idmapHash tb ctx.ents)
  guid : Holds ctx.guidMap S (guidmapHash tb ctx.ents)
  assoc : Holds ctx.assocMap (named ctx.ents S) (assocmapHash tb ctx.ents)
  names : ∀ e ∈ named ctx.ents S, ∀ e' ∈ named ctx.ents S,
    (ctx.ents e).parentId = (ctx.ents e').parentId → (ctx.ents e).name = (ctx.ents e').name → e = e'

section Indexed

variable {ctx : Ctx w} {S : Finset EntryRef} {e : EntryRef}

theorem named_congr {ents ents' : Entries} {S : Finset EntryRef}
    (h : ∀ e ∈ S, (ents' e).name = (ents e).name) : named ents' S = named ents S := by
  ext e
  simp only [mem_named]
  exact and_congr_right fun he => by rw [h e he]

/-- Naming an entry under a name that is free in its directory. -/
theorem Indexed.giveName (I : Indexed tb ctx S) (hf : tb.Faithful) (he : e ∈ S)
    (hroot : e ≠ rootEntry) (hnone : (ctx.ents e).name = none) {name : Bytes}
    (hfree : ∀ x ∈ named ctx.ents S, (ctx.ents x).parentId = (ctx.ents e).parentId →
      (ctx.ents x).name ≠ some name)
    {ents : Entries}
    (hents : ents = Function.update ctx.ents e { ctx.ents e with name := some name }) :
    Yields Fault.Abort (tb.insert (assocmapHash tb ents) ctx.assocMap
      (hashAssoc tb (ctx.ents e).parentId name) e) fun assocMap =>
        Indexed tb { ctx with ents := ents, assocMap := assocMap } S := by
  have hself : ents e = { ctx.ents e with name := some name } := by simp [hents]
  have hother : ∀ x, x ≠ e → ents x = ctx.ents x := fun x hx => by simp [hents, hx]
  have hnotmem : e ∉ named ctx.ents S := fun h => (mem_named.mp h).2.2 hnone
  have hne : ∀ x ∈ named ctx.ents S, x ≠ e := fun x hx h => hnotmem (h ▸ hx)
  have hnamed : named ents S = insert e (named ctx.ents S) := by
    ext x
    by_cases hx : x = e
    · subst hx
      simp [mem_named, he, hroot, hself]
    · simp [mem_named, hx, hother x hx]
  have hagree : ∀ x ∈ named ctx.ents S, assocmapHash tb ctx.ents x = assocmapHash tb ents x :=
    fun x hx => by rw [assocmapHash, assocmapHash, hother x (hne x hx)]
  have hsame : ∀ x, (ents x).id = (ctx.ents x).id ∧ (ents x).guid = (ctx.ents x).guid := by
    intro x
    by_cases hx : x = e
    · subst hx; simp [hself]
    · simp [hother x hx]
  refine (hf.yields_insert _ (I.assoc.congr_hash hagree) (by simp [assocmapHash, hself]) hnotmem
    fun x hx => rfl).mono fun assocMap H => ⟨?_, ?_, ?_, ?_⟩
  · exact I.id.congr_hash fun x _ => by simp [idmapHash, (hsame x).1]
  · exact I.guid.congr_hash fun x _ => by simp [guidmapHash, (hsame x).2]
  · rw [hnamed]; exact H
  · show ∀ x ∈ named ents S, ∀ y ∈ named ents S, (ents x).parentId = (ents y).parentId →
      (ents x).name = (ents y).name → x = y
    rw [hnamed]
    intro x hx y hy hparent hname
    rcases Finset.mem_insert.mp hx with rfl | hxS <;> rcases Finset.mem_insert.mp hy with rfl | hyS
    · rfl
    · rw [hself, hother y (hne y hyS)] at hparent hname
      exact absurd hname.symm (hfree y hyS hparent.symm)
    · rw [hself, hother x (hne x hxS)] at hparent hname
      exact absurd hname (hfree x hxS hparent)
    · rw [hother x (hne x hxS), hother y (hne y hyS)] at hparent hname
      exact I.names x hxS y hyS hparent hname

end Indexed

section Lookup

variable {ctx : Ctx w} {S : Finset EntryRef}

theorem lookupId_spec (H : Holds ctx.idMap S (idmapHash tb ctx.ents))
    (hinj : ∀ e ∈ S, ∀ e' ∈ S, (ctx.ents e).id = (ctx.ents e').id → e = e') (id : ℕ) :
    ∃ r, lookupId tb ctx id = .ok r ∧ ∀ e, r = some e ↔ e ∈ S ∧ (ctx.ents e).id = id := by
  obtain ⟨r, hrun, hfound, hnone⟩ := H.search (idmapComp ctx.ents id) (tb.digest (uint64Bytes id))
  refine ⟨r.map Prod.fst, by rw [lookupId, hrun]; rfl, fun e => ?_⟩
  have hcomp : ∀ x, idmapComp ctx.ents id x = true ↔ (ctx.ents x).id = id := by
    intro x; simp [idmapComp, eq_comm]
  cases r with
  | none =>
    simp only [Option.map_none, reduceCtorEq, false_iff, not_and]
    intro he hid
    have := hnone rfl e he (by rw [idmapHash, hid])
    rw [(hcomp e).mpr hid] at this
    cases this
  | some p =>
    obtain ⟨hp, hpcomp, -, -⟩ := hfound p.1 p.2 rfl
    simp only [Option.map_some, Option.some_inj]
    constructor
    · rintro rfl; exact ⟨hp, (hcomp _).mp hpcomp⟩
    · rintro ⟨he, hid⟩; exact hinj _ hp _ he (((hcomp _).mp hpcomp).trans hid.symm)

theorem lookupGuid_spec (H : Holds ctx.guidMap S (guidmapHash tb ctx.ents)) (guid : Bytes) :
    ∃ r, lookupGuid tb ctx guid = .ok r ∧
      (∀ e id, r = some (e, id) → e ∈ S ∧ (ctx.ents e).guid = guid ∧ Designates ctx.guidMap id e) ∧
      (r = none → ∀ e ∈ S, (ctx.ents e).guid ≠ guid) := by
  obtain ⟨r, hrun, hfound, hnone⟩ := H.search (guidmapComp ctx.ents guid) (tb.digest guid)
  refine ⟨r, hrun, fun e id hr => ?_, fun hr e he hguid => ?_⟩
  · obtain ⟨he, hcomp, -, hid⟩ := hfound e id hr
    exact ⟨he, (by simpa [guidmapComp] using hcomp : guid = _).symm, hid⟩
  · have := hnone hr e he (by rw [guidmapHash, hguid])
    simp [guidmapComp, hguid] at this

/-- `S` are the entries of the association map, each one under its own hashcode. -/
theorem lookupAssoc_spec (H : Holds ctx.assocMap S (assocmapHash tb ctx.ents)) (parentId : ℕ)
    (name : Bytes) :
    ∃ r, lookupAssoc tb ctx parentId name = .ok r ∧
      (∀ e id, r = some (e, id) → e ∈ S ∧ (ctx.ents e).parentId = parentId ∧
        (ctx.ents e).name = some name ∧ Designates ctx.assocMap id e) ∧
      (r = none → ∀ e ∈ S, (ctx.ents e).parentId = parentId → (ctx.ents e).name ≠ some name) := by
  obtain ⟨r, hrun, hfound, hnone⟩ :=
    H.search (assocmapComp ctx.ents parentId name) (hashAssoc tb parentId name)
  refine ⟨r, hrun, fun e id hr => ?_, fun hr e he hparent hname => ?_⟩
  · obtain ⟨he, hcomp, -, hid⟩ := hfound e id hr
    simp only [assocmapComp, Bool.and_eq_true, decide_eq_true_eq] at hcomp
    exact ⟨he, hcomp.1.symm, hcomp.2.symm, hid⟩
  · have := hnone hr e he (by simp [assocmapHash, hparent, hname])
    simp [assocmapComp, hparent, hname] at this

end Lookup

end BookmarkFS.Chromium
