import BookmarkFS.Chromium.Queries
import Mathlib.Data.Finset.Card

/-! # Agreement of the JSON tree with the node entries

`Forest` ties the entries `S` to the nodes below the fake root. It is stated for
a tree that is still being read: `pend p` are the children of `p` that have no
entry yet, and none are left once the store has been loaded.
-/
namespace BookmarkFS.Chromium
open Library Hopscotch

/-- Entries from which the parents lead up to the root. -/
inductive Rooted (ents : Entries) (S : Finset EntryRef) : EntryRef → Prop
  | root : Rooted ents S rootEntry
  | child {e p : EntryRef} : e ∈ S → p ∈ S → (ents p).id = (ents e).parentId →
      Rooted ents S p → Rooted ents S e

/-- The members of a node that its entry repeats. -/
structure Describes (json : Json) (entry : NodeEntry) : Prop where
  id : parseId json entry.node = some entry.id
  guid : parseGuid ((jsonStringValue (json.get entry.node .guid)).getD []) = some entry.guid
  name : ∃ s, json.get entry.node .name = some (.string s) ∧ ∀ n, entry.name = some n → n = s

structure Forest (json : Json) (ents : Entries) (S : Finset EntryRef)
    (pend : EntryRef → List NodeRef) : Prop where
  root_mem : rootEntry ∈ S
  root_id : (ents rootEntry).id = rootId
  root_name : (ents rootEntry).name = some []
  root_array : ∃ a, (ents rootEntry).children = some (.array a)
  id_inj : ∀ e ∈ S, ∀ e' ∈ S, (ents e).id = (ents e').id → e = e'
  node_inj : ∀ e ∈ S, ∀ e' ∈ S, (ents e).node = (ents e').node → e = e'
  describes : ∀ e ∈ S, e ≠ rootEntry → Describes json (ents e)
  children : ∀ e ∈ S, json.get (ents e).node .children = (ents e).children
  owner : ∀ e ∈ S, ∀ e' ∈ S, ∀ a, (ents e).children = some (.array a) →
    (ents e').children = some (.array a) → e = e'
  listed : ∀ p ∈ S, ∀ a, (ents p).children = some (.array a) →
    ∃ seen, json.array a = seen ++ pend p ∧ seen.Nodup ∧
      ∀ n ∈ seen, ∃ e ∈ S, e ≠ rootEntry ∧ (ents e).node = n ∧ (ents e).parentId = (ents p).id
  parent : ∀ e ∈ S, e ≠ rootEntry → ∃ p ∈ S, ∃ a seen, (ents p).children = some (.array a) ∧
    (ents p).id = (ents e).parentId ∧ json.array a = seen ++ pend p ∧ (ents e).node ∈ seen
  rooted : ∀ e ∈ S, Rooted ents S e
  node_lt : ∀ e ∈ S, (ents e).node < json.nextNode
  array_lt : ∀ e ∈ S, ∀ a, (ents e).children = some (.array a) → a < json.nextArray

def nonePending : EntryRef → List NodeRef := fun _ => []

theorem Describes.congr {json json' : Json} {entry : NodeEntry} (D : Describes json entry)
    (h : ∀ k, k = .id ∨ k = .guid ∨ k = .name → json'.get entry.node k = json.get entry.node k) :
    Describes json' entry where
  id := by rw [parseId, h .id (by simp)]; exact D.id
  guid := by rw [h .guid (by simp)]; exact D.guid
  name := by rw [h .name (by simp)]; exact D.name

/-- A node that has the members of another one is described by the same values. -/
theorem Describes.of_get {json json' : Json} {entry entry' : NodeEntry} (D : Describes json entry)
    (hid : entry'.id = entry.id) (hguid : entry'.guid = entry.guid)
    (hname : entry'.name = entry.name)
    (h : ∀ k val, json.get entry.node k = some val → json'.get entry'.node k = some val) :
    Describes json' entry' := by
  obtain ⟨hdid, hdguid, s, hs, hdname⟩ := D
  refine ⟨?_, ?_, s, h _ _ hs, hname ▸ hdname⟩
  · cases hval : json.get entry.node .id with
    | none =>
      rw [parseId, hval] at hdid
      cases hdid
    | some val => rw [parseId, h _ _ hval, hid, ← hdid, parseId, hval]
  · cases hval : json.get entry.node .guid with
    | none =>
      rw [hval] at hdguid
      cases hdguid
    | some val => rw [h _ _ hval, hguid, ← hdguid, hval]

theorem Rooted.congr {ents ents' : Entries} {S : Finset EntryRef} {e : EntryRef}
    (R : Rooted ents S e)
    (h : ∀ x ∈ S, (ents' x).id = (ents x).id ∧ (ents' x).parentId = (ents x).parentId) :
    Rooted ents' S e := by
  induction R with
  | root => exact .root
  | child he hp hid _ ih => exact .child he hp (by rw [(h _ hp).1, (h _ he).2, hid]) ih

theorem Rooted.mono {ents : Entries} {S S' : Finset EntryRef} {e : EntryRef}
    (R : Rooted ents S e) (h : S ⊆ S') : Rooted ents S' e := by
  induction R with
  | root => exact .root
  | child he hp hid _ ih => exact .child (h he) (h hp) hid ih

namespace Forest

variable {json json' : Json} {ents ents' : Entries} {S : Finset EntryRef}
  {pend : EntryRef → List NodeRef}

/-- Changes that leave the shape of the tree alone. -/
theorem congr (F : Forest json ents S pend)
    (harray : ∀ e ∈ S, ∀ a, (ents e).children = some (.array a) → json'.array a = json.array a)
    (hnode : json.nextNode ≤ json'.nextNode) (hnext : json.nextArray ≤ json'.nextArray)
    (hents : ∀ e ∈ S, (ents' e).id = (ents e).id ∧ (ents' e).parentId = (ents e).parentId ∧
      (ents' e).node = (ents e).node ∧ (ents' e).children = (ents e).children)
    (hroot : (ents' rootEntry).name = (ents rootEntry).name)
    (hdescribes : ∀ e ∈ S, e ≠ rootEntry → Describes json' (ents' e))
    (hchildren : ∀ e ∈ S, json'.get (ents e).node .children = json.get (ents e).node .children) :
    Forest json' ents' S pend where
  root_mem := F.root_mem
  root_id := by rw [(hents _ F.root_mem).1, F.root_id]
  root_name := by rw [hroot, F.root_name]
  root_array := by rw [(hents _ F.root_mem).2.2.2]; exact F.root_array
  id_inj e he e' he' h := F.id_inj e he e' he' (by rwa [(hents e he).1, (hents e' he').1] at h)
  node_inj e he e' he' h :=
    F.node_inj e he e' he' (by rwa [(hents e he).2.2.1, (hents e' he').2.2.1] at h)
  describes := hdescribes
  children e he := by
    rw [(hents e he).2.2.1, (hents e he).2.2.2, hchildren e he, F.children e he]
  owner e he e' he' a h h' := by
    rw [(hents e he).2.2.2] at h
    rw [(hents e' he').2.2.2] at h'
    exact F.owner e he e' he' a h h'
  listed p hp a h := by
    rw [(hents p hp).2.2.2] at h
    obtain ⟨seen, hseen, hnodup, hentry⟩ := F.listed p hp a h
    refine ⟨seen, by rw [harray p hp a h, hseen], hnodup, fun n hn => ?_⟩
    obtain ⟨e, he, hne, hn, hparent⟩ := hentry n hn
    exact ⟨e, he, hne, by rw [(hents e he).2.2.1, hn],
      by rw [(hents e he).2.1, (hents p hp).1, hparent]⟩
  parent e he hne := by
    obtain ⟨p, hp, a, seen, ha, hid, hseen, hmem⟩ := F.parent e he hne
    exact ⟨p, hp, a, seen, by rw [(hents p hp).2.2.2, ha],
      by rw [(hents p hp).1, (hents e he).2.1, hid], by rw [harray p hp a ha, hseen],
      by rwa [(hents e he).2.2.1]⟩
  rooted e he := (F.rooted e he).congr fun x hx => ⟨(hents x hx).1, (hents x hx).2.1⟩
  node_lt e he := by rw [(hents e he).2.2.1]; exact (F.node_lt e he).trans_le hnode
  array_lt e he a h := (F.array_lt e he a ((hents e he).2.2.2 ▸ h)).trans_le hnext

theorem set (F : Forest json ents S pend) (n : NodeRef) {k : Key} (v : Value)
    (hk : k ≠ .id ∧ k ≠ .guid ∧ k ≠ .name ∧ k ≠ .children) :
    Forest (json.set n k v) ents S pend := by
  refine F.congr (fun _ _ _ _ => rfl) le_rfl le_rfl (fun e he => ⟨rfl, rfl, rfl, rfl⟩) rfl
    (fun e he hne => ?_)
    fun e he => Json.get_set_of_key hk.2.2.2.symm
  refine (F.describes e he hne).congr fun l hl => Json.get_set_of_key ?_
  rcases hl with rfl | rfl | rfl
  exacts [hk.1.symm, hk.2.1.symm, hk.2.2.1.symm]

section AddLeaf

variable {pend' : EntryRef → List NodeRef} {e p : EntryRef} {a : ArrayRef}

theorem eq_of_insert {β : Type} {f f' : EntryRef → β} (hf : ∀ x ∈ S, f' x = f x)
    (hinj : ∀ x ∈ S, ∀ y ∈ S, f x = f y → x = y) (hnew : ∀ x ∈ S, f x ≠ f' e) :
    ∀ x ∈ insert e S, ∀ y ∈ insert e S, f' x = f' y → x = y := by
  intro x hx y hy h
  rcases Finset.mem_insert.mp hx with rfl | hxS <;> rcases Finset.mem_insert.mp hy with rfl | hyS
  · rfl
  · rw [hf y hyS] at h
    exact absurd h.symm (hnew y hyS)
  · rw [hf x hxS] at h
    exact absurd h (hnew x hxS)
  · rw [hf x hxS, hf y hyS] at h
    exact hinj x hxS y hyS h

section Listed

variable (hp : p ∈ S) (ha : (ents p).children = some (.array a)) (hents : ∀ x ∈ S, ents' x = ents x)
  (hparent : (ents' e).parentId = (ents p).id)
  (harray : ∀ seen, json.array a = seen ++ pend p →
    json'.array a = seen ++ (ents' e).node :: pend' p)
  (hothers : ∀ x ∈ S, x ≠ p → pend' x = pend x ∧
    ∀ b, (ents x).children = some (.array b) → json'.array b = json.array b)

include ha harray hothers in
/-- The array of `p` has one more node for which there is an entry. -/
theorem seen_added {x : EntryRef} {b : ArrayRef} {seen : List NodeRef} (hx : x ∈ S)
    (hb : (ents x).children = some (.array b)) (hseen : json.array b = seen ++ pend x) :
    json'.array b = (if x = p then seen ++ [(ents' e).node] else seen) ++ pend' x := by
  by_cases hxp : x = p
  · subst hxp
    obtain rfl : a = b := by simpa [ha] using hb
    rw [if_pos rfl, harray seen hseen, List.append_assoc, List.singleton_append]
  · obtain ⟨hpend, hsame⟩ := hothers x hx hxp
    rw [if_neg hxp, hsame b hb, hpend, hseen]

include ha hents hparent harray hothers

/-- What is listed has an entry, below the one that it is listed by. -/
theorem addLeaf_listed (F : Forest json ents S pend) (he : e ∉ S)
    (hnode : ∀ x ∈ S, (ents x).node ≠ (ents' e).node) {x : EntryRef} {b : ArrayRef}
    (hx : x ∈ S) (hb : (ents x).children = some (.array b)) :
    ∃ seen, json'.array b = seen ++ pend' x ∧ seen.Nodup ∧
      ∀ n ∈ seen, ∃ y ∈ insert e S, y ≠ rootEntry ∧ (ents' y).node = n ∧
      (ents' y).parentId = (ents' x).id := by
  obtain ⟨seen, hseen, hnodup, hentry⟩ := F.listed x hx b hb
  have hold : ∀ n ∈ seen, ∃ y ∈ insert e S, y ≠ rootEntry ∧ (ents' y).node = n ∧
      (ents' y).parentId = (ents' x).id := by
    intro n hn
    obtain ⟨y, hy, hne, hn, hpar⟩ := hentry n hn
    exact ⟨y, Finset.mem_insert_of_mem hy, hne, by rw [hents y hy, hn], by rw [hents y hy,
      hents x hx, hpar]⟩
  refine ⟨_, seen_added ha harray hothers hx hb hseen, ?_, fun n hn => ?_⟩
  · split_ifs
    · refine List.nodup_append.mpr ⟨hnodup, List.nodup_singleton _, ?_⟩
      rintro n hn m hm rfl
      obtain ⟨y, hy, -, hyn, -⟩ := hentry n hn
      exact hnode y hy (hyn.trans (List.mem_singleton.mp hm))
    · exact hnodup
  · split_ifs at hn with hxp
    · rcases List.mem_append.mp hn with hn | hn
      · exact hold n hn
      · exact ⟨e, Finset.mem_insert_self e S, fun h => he (h ▸ F.root_mem),
          (List.mem_singleton.mp hn).symm,
          by rw [hents x hx, hparent, hxp]⟩
    · exact hold n hn

include hp

/-- An entry is listed by its parent. -/
theorem addLeaf_parent (F : Forest json ents S pend) {x : EntryRef} (hx : x ∈ insert e S)
    (hne : x ≠ rootEntry) :
    ∃ q ∈ insert e S, ∃ b seen, (ents' q).children = some (.array b) ∧
    (ents' q).id = (ents' x).parentId ∧
      json'.array b = seen ++ pend' q ∧ (ents' x).node ∈ seen := by
  rcases Finset.mem_insert.mp hx with rfl | hx
  · obtain ⟨seen, hseen, -⟩ := F.listed p hp a ha
    exact ⟨p, Finset.mem_insert_of_mem hp, a,
      _, by rw [hents p hp, ha], by rw [hents p hp, hparent],
      seen_added ha harray hothers hp ha hseen, by simp⟩
  · obtain ⟨q, hq, b, seen, hb, hqid, hseen, hmem⟩ := F.parent x hx hne
    refine ⟨q, Finset.mem_insert_of_mem hq, b, _, by rw [hents q hq, hb], by rw [hents q hq,
      hents x hx, hqid],
      seen_added ha harray hothers hq hb hseen, ?_⟩
    rw [hents x hx]
    split_ifs
    · exact List.mem_append_left _ hmem
    · exact hmem

end Listed

/-- One more entry `e` for the node that is next among the children of `p`. -/
theorem addLeaf (F : Forest json ents S pend) (he : e ∉ S) (hp : p ∈ S)
    (ha : (ents p).children = some (.array a)) (hents : ∀ x ∈ S, ents' x = ents x)
    (hparent : (ents' e).parentId = (ents p).id) (hid : ∀ x ∈ S, (ents x).id ≠ (ents' e).id)
    (hnode : ∀ x ∈ S, (ents x).node ≠ (ents' e).node) (hdescribes : Describes json' (ents' e))
    (hkeep : ∀ x ∈ S, ∀ k, k = .id ∨ k = .guid ∨ k = .name ∨ k = .children →
      json'.get (ents x).node k = json.get (ents x).node k)
    (hchildren : json'.get (ents' e).node .children = (ents' e).children)
    (harray : ∀ seen, json.array a = seen ++ pend p →
      json'.array a = seen ++ (ents' e).node :: pend' p)
    (hothers : ∀ x ∈ S, x ≠ p → pend' x = pend x ∧
      ∀ b, (ents x).children = some (.array b) → json'.array b = json.array b)
    (hnew : ∀ b, (ents' e).children = some (.array b) → json'.array b = pend' e ∧
      (∀ x ∈ S, (ents x).children ≠ some (.array b)) ∧ b < json'.nextArray)
    (hnext : json.nextNode ≤ json'.nextNode ∧ json.nextArray ≤ json'.nextArray ∧
      (ents' e).node < json'.nextNode) :
    Forest json' ents' (insert e S) pend' := by
  have hrootents := hents _ F.root_mem
  refine ⟨Finset.mem_insert_of_mem F.root_mem, by rw [hrootents, F.root_id],
    by rw [hrootents, F.root_name], by rw [hrootents]; exact F.root_array, ?_, ?_, ?_,
    ?_, ?_, ?_, ?_,
    ?_, ?_, ?_⟩
  · exact eq_of_insert (fun x hx => by rw [hents x hx]) F.id_inj hid
  · exact eq_of_insert (fun x hx => by rw [hents x hx]) F.node_inj hnode
  · intro x hx hne
    rcases Finset.mem_insert.mp hx with rfl | hx
    · exact hdescribes
    · rw [hents x hx]
      exact (F.describes x hx hne).congr fun k hk => hkeep x hx k (by tauto)
  · intro x hx
    rcases Finset.mem_insert.mp hx with rfl | hx
    · exact hchildren
    · rw [hents x hx, hkeep x hx .children (by simp), F.children x hx]
  · intro x hx y hy b h h'
    rcases Finset.mem_insert.mp hx with rfl | hxS <;> rcases Finset.mem_insert.mp hy with rfl | hyS
    · rfl
    · rw [hents y hyS] at h'; exact absurd h' ((hnew b h).2.1 y hyS)
    · rw [hents x hxS] at h; exact absurd h ((hnew b h').2.1 x hxS)
    · rw [hents x hxS] at h; rw [hents y hyS] at h'; exact F.owner x hxS y hyS b h h'
  · intro x hx b hb
    rcases Finset.mem_insert.mp hx with rfl | hx
    · exact ⟨[], by simp [(hnew b hb).1], List.nodup_nil, by simp⟩
    · exact addLeaf_listed ha hents hparent harray hothers F he hnode hx (by rwa [hents x hx] at hb)
  · exact fun x hx hne => addLeaf_parent hp ha hents hparent harray hothers F hx hne
  · intro x hx
    have hkeepRooted : ∀ y ∈ S, Rooted ents' (insert e S) y := fun y hy =>
      ((F.rooted y hy).congr fun z hz => by rw [hents z hz]; exact ⟨rfl, rfl⟩).mono
        (Finset.subset_insert e S)
    rcases Finset.mem_insert.mp hx with rfl | hx
    · exact .child (Finset.mem_insert_self _ _) (Finset.mem_insert_of_mem hp)
        (by rw [hents p hp, hparent]) (hkeepRooted p hp)
    · exact hkeepRooted x hx
  · intro x hx
    rcases Finset.mem_insert.mp hx with rfl | hx
    · exact hnext.2.2
    · rw [hents x hx]; exact (F.node_lt x hx).trans_le hnext.1
  · intro x hx b hb
    rcases Finset.mem_insert.mp hx with rfl | hx
    · exact (hnew b hb).2.2
    · rw [hents x hx] at hb; exact (F.array_lt x hx b hb).trans_le hnext.2.1

end AddLeaf

end Forest

/-! ## The complete tree -/

/-- `x` is `e` or one of its ancestors. -/
inductive Below (ents : Entries) (S : Finset EntryRef) (x : EntryRef) : EntryRef → Prop
  | self : Below ents S x x
  | child {e p : EntryRef} : e ∈ S → p ∈ S → (ents p).id = (ents e).parentId →
      Below ents S x p → Below ents S x e

/-- Entries stay rooted when `x` moves to a parent that is not below it. -/
theorem Rooted.move {ents ents' : Entries} {S : Finset EntryRef} {x q : EntryRef} (hx : x ∈ S)
    (hq : q ∈ S) (hid : ∀ e ∈ S, (ents' e).id = (ents e).id)
    (hkeep : ∀ e ∈ S, e ≠ x → (ents' e).parentId = (ents e).parentId)
    (hmoved : (ents' x).parentId = (ents q).id) (hqrooted : Rooted ents S q)
    (hbelow : ¬Below ents S x q) {e : EntryRef} (R : Rooted ents S e) : Rooted ents' S e := by
  -- the ancestors of the new parent are not touched
  have hparent : Rooted ents' S q := by
    clear hq hmoved R
    induction hqrooted with
    | root => exact .root
    | @child e p he hp hpid _ ih =>
      have hne : e ≠ x := by rintro rfl; exact hbelow .self
      exact .child he hp (by rw [hid p hp, hkeep e he hne, hpid])
        (ih fun h => hbelow (.child he hp hpid h))
  induction R with
  | root => exact .root
  | @child e p he hp hpid _ ih =>
    by_cases hex : e = x
    · subst hex
      exact .child he hq (by rw [hid q hq, hmoved]) hparent
    · exact .child he hp (by rw [hid p hp, hkeep e he hex, hpid]) ih

theorem Rooted.erase {ents : Entries} {S : Finset EntryRef} {v : EntryRef}
    (hleaf : ∀ e ∈ S, e ≠ rootEntry → (ents v).id ≠ (ents e).parentId) {e : EntryRef}
    (R : Rooted ents S e) (he : e ≠ v) :
    Rooted ents (S.erase v) e := by
  induction R with
  | root => exact .root
  | @child e p heS hp hpid _ ih =>
    by_cases h : e = rootEntry
    · subst h; exact .root
    · have hpv : p ≠ v := by rintro rfl; exact hleaf e heS h hpid
      exact .child (Finset.mem_erase.mpr ⟨he, heS⟩) (Finset.mem_erase.mpr ⟨hpv, hp⟩) hpid (ih hpv)

namespace Forest

variable {json json' : Json} {ents ents' : Entries} {S : Finset EntryRef}
  (F : Forest json ents S nonePending)

include F

theorem nodup {p : EntryRef} (hp : p ∈ S) {a : ArrayRef}
    (ha : (ents p).children = some (.array a)) : (json.array a).Nodup := by
  obtain ⟨seen, hseen, hnodup, -⟩ := F.listed p hp a ha
  rwa [hseen, nonePending, List.append_nil]

theorem child_entry {p : EntryRef} (hp : p ∈ S) {a : ArrayRef}
    (ha : (ents p).children = some (.array a)) {n : NodeRef} (hn : n ∈ json.array a) :
    ∃ e ∈ S, e ≠ rootEntry ∧ (ents e).node = n ∧ (ents e).parentId = (ents p).id := by
  obtain ⟨seen, hseen, -, hentry⟩ := F.listed p hp a ha
  rw [hseen, nonePending, List.append_nil] at hn
  exact hentry n hn

theorem folder {e : EntryRef} (he : e ∈ S) (hroot : e ≠ rootEntry) :
    ∃ p ∈ S, ∃ a, (ents p).children = some (.array a) ∧ (ents p).id = (ents e).parentId ∧
      (ents e).node ∈ json.array a := by
  obtain ⟨p, hp, a, seen, ha, hid, hseen, hmem⟩ := F.parent e he hroot
  exact ⟨p, hp, a, ha, hid, by rw [hseen]; exact List.mem_append_left _ hmem⟩

theorem mem_array_iff {p e : EntryRef} (hp : p ∈ S) {a : ArrayRef}
    (ha : (ents p).children = some (.array a)) (he : e ∈ S) (hroot : e ≠ rootEntry) :
    (ents e).node ∈ json.array a ↔ (ents e).parentId = (ents p).id := by
  constructor
  · intro hn
    obtain ⟨x, hx, -, hnode, hparent⟩ := F.child_entry hp ha hn
    rw [← F.node_inj x hx e he hnode, hparent]
  · intro hparent
    obtain ⟨q, hq, b, hb, hid, hmem⟩ := F.folder he hroot
    obtain rfl := F.id_inj q hq p hp (hid.trans hparent)
    obtain rfl : a = b := by simpa [ha] using hb
    exact hmem

theorem not_parent {v : EntryRef} (hv : v ∈ S)
    (hleaf : ∀ c, (ents v).children = some c → json.elems c = []) {e : EntryRef} (he : e ∈ S)
    (hroot : e ≠ rootEntry) : (ents v).id ≠ (ents e).parentId := by
  intro hid
  obtain ⟨q, hq, b, hb, hqid, hmem⟩ := F.folder he hroot
  obtain rfl := F.id_inj q hq v hv (hqid.trans hid.symm)
  have := hleaf _ hb
  rw [Json.elems] at this
  rw [this] at hmem
  cases hmem

/-- A leaf is taken out of the array of its parent. -/
theorem eraseLeaf {e p : EntryRef} {a : ArrayRef} (he : e ∈ S) (hroot : e ≠ rootEntry) (hp : p ∈ S)
    (ha : (ents p).children = some (.array a)) (hparent : (ents e).parentId = (ents p).id)
    (hleaf : ∀ c, (ents e).children = some c → json.elems c = []) (hget : json'.get = json.get)
    (hnode : json'.nextNode = json.nextNode) (hnext : json'.nextArray = json.nextArray)
    (harray : ∀ b, json'.array b = if b = a then (json.array a).erase (ents e).node
      else json.array b) :
    Forest json' ents (S.erase e) nonePending := by
  have hmono : ∀ {x}, x ∈ S.erase e → x ∈ S := fun h => Finset.mem_of_mem_erase h
  refine ⟨Finset.mem_erase.mpr ⟨hroot.symm, F.root_mem⟩, F.root_id, F.root_name, F.root_array,
    fun x hx y hy => F.id_inj x (hmono hx) y (hmono hy),
    fun x hx y hy => F.node_inj x (hmono hx) y (hmono hy), fun x hx hxroot => ?_, fun x hx => ?_,
    fun x hx y hy => F.owner x (hmono hx) y (hmono hy), fun x hx b hb => ?_, fun x hx hxroot => ?_,
    fun x hx => ?_, fun x hx => hnode ▸ F.node_lt x (hmono hx),
    fun x hx b hb => hnext ▸ F.array_lt x (hmono hx) b hb⟩
  · exact (F.describes x (hmono hx) hxroot).congr fun k _ => by rw [hget]
  · rw [hget, F.children x (hmono hx)]
  · refine ⟨json'.array b, by simp [nonePending], ?_, fun n hn => ?_⟩
    · rw [harray]
      split_ifs with h
      · subst h; exact (F.nodup (hmono hx) hb).erase _
      · exact F.nodup (hmono hx) hb
    · rw [harray] at hn
      have hn' : n ∈ json.array b ∧ n ≠ (ents e).node := by
        split_ifs at hn with h
        · subst h
          exact ((F.nodup (hmono hx) hb).mem_erase_iff.mp hn).symm
        · refine ⟨hn, ?_⟩
          rintro rfl
          have hxe := (F.mem_array_iff (hmono hx) hb he hroot).mp hn
          obtain rfl := F.id_inj x (hmono hx) p hp (hxe.symm.trans hparent)
          exact h (by simpa [ha] using hb.symm)
      obtain ⟨y, hy, hyroot, hyn, hyparent⟩ := F.child_entry (hmono hx) hb hn'.1
      refine ⟨y, Finset.mem_erase.mpr ⟨?_, hy⟩, hyroot, hyn, hyparent⟩
      rintro rfl
      exact hn'.2 hyn.symm
  · obtain ⟨q, hq, b, hb, hqid, hmem⟩ := F.folder (hmono hx) hxroot
    have hqe : q ≠ e := by
      rintro rfl
      exact F.not_parent he hleaf (hmono hx) hxroot hqid
    refine ⟨q, Finset.mem_erase.mpr ⟨hqe, hq⟩, b, json'.array b, hb, hqid, by simp [nonePending],
      ?_⟩
    rw [harray]
    split_ifs with h
    · subst h
      refine (F.nodup hp ha).mem_erase_iff.mpr ⟨fun h => ?_, hmem⟩
      exact (Finset.mem_erase.mp hx).1 (F.node_inj x (hmono hx) e he h)
    · exact hmem
  · exact (F.rooted x (hmono hx)).erase (fun y hy hy' => F.not_parent he hleaf hy hy')
      (Finset.mem_erase.mp hx).1

/-- The children of one folder change places. -/
theorem permute {p : EntryRef} {a : ArrayRef} (hp : p ∈ S)
    (ha : (ents p).children = some (.array a)) {elems : List NodeRef}
    (hperm : elems.Perm (json.array a)) :
    Forest (json.setElems (.array a) elems) ents S nonePending := by
  have hmem : ∀ b n, n ∈ (json.setElems (.array a) elems).array b ↔ n ∈ json.array b := by
    intro b n
    rw [Json.setElems_array]
    split_ifs with h
    · subst h; exact hperm.mem_iff
    · rfl
  refine ⟨F.root_mem, F.root_id, F.root_name, F.root_array, F.id_inj, F.node_inj,
    fun e he hroot => (F.describes e he hroot).congr fun k _ => by simp, fun e he => ?_, F.owner,
    fun q hq b hb => ⟨(json.setElems (.array a) elems).array b, by simp [nonePending], ?_,
      fun n hn => ?_⟩, fun e he hroot => ?_, F.rooted, fun e he => ?_, fun e he b hb => ?_⟩
  · simpa using F.children e he
  · rw [Json.setElems_array]
    split_ifs with h
    · subst h; exact hperm.nodup_iff.mpr (F.nodup hp ha)
    · exact F.nodup hq hb
  · exact F.child_entry hq hb ((hmem b n).mp hn)
  · obtain ⟨q, hq, b, hb, hid, hn⟩ := F.folder he hroot
    exact ⟨q, hq, b, _, hb, hid, (List.append_nil _).symm, (hmem b _).mpr hn⟩
  · simpa using F.node_lt e he
  · simpa using F.array_lt e he b hb

omit F in
theorem moved_keeps {x : EntryRef} {parentId : ℕ} {node : NodeRef}
    (hents : ents' = Function.update ents x { ents x with parentId := parentId, node := node })
    (y : EntryRef) :
    (ents' y).id = (ents y).id ∧ (ents' y).children = (ents y).children ∧
      (ents' y).name = (ents y).name ∧
      (ents' y).guid = (ents y).guid := by
  rw [hents]
  by_cases hy : y = x
  · subst hy
    simp
  · simp [hy]

theorem eq_of_mem_array {x p r : EntryRef} {a c : ArrayRef} (hx : x ∈ S) (hroot : x ≠ rootEntry)
    (hp : p ∈ S) (hparent : (ents x).parentId = (ents p).id)
    (ha : (ents p).children = some (.array a)) (hr : r ∈ S)
    (hc : (ents r).children = some (.array c)) (hn : (ents x).node ∈ json.array c) : c = a := by
  have hrid := (F.mem_array_iff hr hc hx hroot).mp hn
  obtain rfl := F.id_inj p hp r hr (hparent.symm.trans hrid)
  simpa [ha] using hc.symm

/-- A node moves from the end of the tree below `p` to the end of the array of `q`. -/
theorem move {x p q : EntryRef} {a b : ArrayRef} (hx : x ∈ S) (hroot : x ≠ rootEntry) (hp : p ∈ S)
    (hq : q ∈ S) (hpq : p ≠ q) (ha : (ents p).children = some (.array a))
    (hb : (ents q).children = some (.array b)) (hparent : (ents x).parentId = (ents p).id)
    (hbelow : ¬Below ents S x q) (hget : json'.get = json.get)
    (hnode : json'.nextNode = json.nextNode) (hnext : json'.nextArray = json.nextArray)
    (harray : ∀ c, json'.array c = if c = a then (json.array a).erase (ents x).node
      else if c = b then json.array b ++ [(ents x).node] else json.array c)
    (hents : ents' = Function.update ents x { ents x with parentId := (ents q).id }) :
    Forest json' ents' S nonePending := by
  have hself : ents' x = { ents x with parentId := (ents q).id } := by simp [hents]
  have hother : ∀ y, y ≠ x → ents' y = ents y := fun y hy => by simp [hents, hy]
  have hsame := moved_keeps hents
  have hnodes : ∀ y, (ents' y).node = (ents y).node := by
    intro y
    by_cases hy : y = x
    · rw [hy, hself]
    · rw [hother y hy]
  have hab : a ≠ b := by
    rintro rfl
    exact hpq (F.owner p hp q hq a ha hb)
  have howner : ∀ r ∈ S, ∀ c, (ents r).children = some (.array c) → c = b → r = q := by
    rintro r hr c hc rfl
    exact F.owner r hr q hq c hc hb
  have hxmem : (ents x).node ∉ json.array b := fun hn =>
    hab (F.eq_of_mem_array hx hroot hp hparent ha hq hb hn).symm
  refine ⟨F.root_mem, by rw [(hsame _).1, F.root_id], by rw [(hsame _).2.2.1, F.root_name],
    by rw [(hsame _).2.1]; exact F.root_array, fun y hy z hz h => ?_, fun y hy z hz h => ?_,
    fun y hy hyroot => ?_, fun y hy => ?_, fun y hy z hz c h h' => ?_, fun r hr c hc => ?_,
    fun y hy hyroot => ?_, fun y hy => ?_, fun y hy => ?_, fun y hy c hc => ?_⟩
  · rw [(hsame y).1, (hsame z).1] at h; exact F.id_inj y hy z hz h
  · rw [hnodes y, hnodes z] at h; exact F.node_inj y hy z hz h
  · obtain ⟨hid, -, hname, hguid⟩ := hsame y
    exact (F.describes y hy hyroot).of_get hid hguid hname fun k val h => by rw [hget, hnodes y, h]
  · rw [hget, hnodes y, (hsame y).2.1]; exact F.children y hy
  · rw [(hsame y).2.1] at h; rw [(hsame z).2.1] at h'; exact F.owner y hy z hz c h h'
  · rw [(hsame r).2.1] at hc
    refine ⟨json'.array c, by simp [nonePending], ?_, fun n hn => ?_⟩
    · rw [harray]
      split_ifs with h h
      · exact (F.nodup hp ha).erase _
      · refine List.nodup_append.mpr ⟨F.nodup hq hb, List.nodup_singleton _, ?_⟩
        rintro n hn m hm rfl
        exact hxmem (List.mem_singleton.mp hm ▸ hn)
      · exact F.nodup hr hc
    · have hold : ∀ n, n ∈ json.array c → n ≠ (ents x).node → ∃ e ∈ S, e ≠ rootEntry ∧
          (ents' e).node = n ∧ (ents' e).parentId = (ents' r).id := by
        intro n hn hnx
        obtain ⟨e, he, heroot, hen, hep⟩ := F.child_entry hr hc hn
        have hex : e ≠ x := by rintro rfl; exact hnx hen.symm
        exact ⟨e, he, heroot, by rw [hother e hex, hen], by rw [hother e hex, hep, (hsame r).1]⟩
      rw [harray] at hn
      split_ifs at hn with h₁ h
      · obtain ⟨hne, hn⟩ := (F.nodup hp ha).mem_erase_iff.mp hn
        exact hold n (h₁ ▸ hn) hne
      · rcases List.mem_append.mp hn with hn | hn
        · refine hold n (h ▸ hn) ?_
          rintro rfl
          exact hxmem hn
        · obtain rfl := howner r hr c hc h
          exact ⟨x, hx, hroot, by rw [hself]; exact (List.mem_singleton.mp hn).symm,
            by rw [hself, (hsame r).1]⟩
      · refine hold n hn ?_
        rintro rfl
        exact h₁ (F.eq_of_mem_array hx hroot hp hparent ha hr hc hn)
  · by_cases hyx : y = x
    · subst hyx
      refine ⟨q, hq, b, json'.array b, by rw [(hsame q).2.1, hb], by rw [(hsame q).1, hself],
        by simp [nonePending], ?_⟩
      rw [harray, if_neg hab.symm, if_pos rfl, hnodes y]
      simp
    · obtain ⟨r, hr, c, hc, hid, hmem⟩ := F.folder hy hyroot
      refine ⟨r, hr, c, json'.array c, by rw [(hsame r).2.1, hc],
        by rw [(hsame r).1, hother y hyx, hid], by simp [nonePending], ?_⟩
      rw [harray, hnodes y]
      split_ifs with h h
      · refine (F.nodup hp ha).mem_erase_iff.mpr ⟨fun h => hyx (F.node_inj y hy x hx h), h ▸ hmem⟩
      · exact List.mem_append_left _ (h ▸ hmem)
      · exact hmem
  · exact Rooted.move hx hq (fun e _ => (hsame e).1) (fun e _ he => by rw [hother e he])
      (by rw [hself]) (F.rooted q hq) hbelow (F.rooted y hy)
  · rw [hnodes y, hnode]; exact F.node_lt y hy
  · rw [(hsame y).2.1] at hc; rw [hnext]; exact F.array_lt y hy c hc

/-- A node below `p` takes over the object of the leaf `v` below `q`. -/
theorem replace {x v p q : EntryRef} {a b : ArrayRef} (hx : x ∈ S) (hroot : x ≠ rootEntry)
    (hv : v ∈ S) (hvroot : v ≠ rootEntry) (hp : p ∈ S) (hq : q ∈ S) (hpq : p ≠ q)
    (ha : (ents p).children = some (.array a)) (hb : (ents q).children = some (.array b))
    (hparent : (ents x).parentId = (ents p).id) (hvparent : (ents v).parentId = (ents q).id)
    (hleaf : ∀ c, (ents v).children = some c → json.elems c = [])
    (hkind : (ents x).children = none → (ents v).children = none) (hbelow : ¬Below ents S x q)
    (hget : ∀ n k, json'.get n k = if n = (ents v).node then
      (json.get (ents x).node k).or (json.get (ents v).node k) else json.get n k)
    (hnode : json'.nextNode = json.nextNode) (hnext : json'.nextArray = json.nextArray)
    (harray : ∀ c, json'.array c =
      if c = a then (json.array a).erase (ents x).node else json.array c)
    (hents : ents' = Function.update ents x
      { ents x with parentId := (ents q).id, node := (ents v).node }) :
    Forest json' ents' (S.erase v) nonePending := by
  have hself : ents' x = { ents x with parentId := (ents q).id, node := (ents v).node } := by
    simp [hents]
  have hother : ∀ y, y ≠ x → ents' y = ents y := fun y hy => by simp [hents, hy]
  have hsame := moved_keeps hents
  have hmem : ∀ {y}, y ∈ S.erase v → y ∈ S := fun h => Finset.mem_of_mem_erase h
  have hnv : ∀ {y}, y ∈ S.erase v → (ents y).node ≠ (ents v).node := fun {y} h hn =>
    (Finset.mem_erase.mp h).1 (F.node_inj y (hmem h) v hv hn)
  have hqv : q ≠ v := by
    rintro rfl
    exact F.not_parent hv hleaf hv hvroot hvparent.symm
  have hxv : x ≠ v := by
    rintro rfl
    exact hpq (F.id_inj p hp q hq (hparent.symm.trans hvparent))
  have hxS : x ∈ S.erase v := Finset.mem_erase.mpr ⟨hxv, hx⟩
  have hqS : q ∈ S.erase v := Finset.mem_erase.mpr ⟨hqv, hq⟩
  have hab : a ≠ b := by
    rintro rfl
    exact hpq (F.owner p hp q hq a ha hb)
  refine ⟨Finset.mem_erase.mpr ⟨hvroot.symm, F.root_mem⟩, by rw [(hsame _).1, F.root_id],
    by rw [(hsame _).2.2.1, F.root_name], by rw [(hsame _).2.1]; exact F.root_array,
    fun y hy z hz h => ?_, fun y hy z hz h => ?_, fun y hy hyroot => ?_, fun y hy => ?_,
    fun y hy z hz c h h' => ?_, fun r hr c hc => ?_, fun y hy hyroot => ?_, fun y hy => ?_,
    fun y hy => ?_, fun y hy c hc => ?_⟩
  · rw [(hsame y).1, (hsame z).1] at h; exact F.id_inj y (hmem hy) z (hmem hz) h
  · by_cases hyx : y = x <;> by_cases hzx : z = x
    · rw [hyx, hzx]
    · rw [hyx, hself, hother z hzx] at h; exact absurd h.symm (hnv hz)
    · rw [hzx, hself, hother y hyx] at h; exact absurd h (hnv hy)
    · rw [hother y hyx, hother z hzx] at h; exact F.node_inj y (hmem hy) z (hmem hz) h
  · by_cases hyx : y = x
    · subst hyx
      obtain ⟨hid, -, hname, hguid⟩ := hsame y
      refine (F.describes y hx hroot).of_get hid hguid hname fun k val h => ?_
      rw [hself, hget, if_pos rfl, h, Option.some_or]
    · rw [hother y hyx]
      exact (F.describes y (hmem hy) hyroot).congr fun k _ => by rw [hget, if_neg (hnv hy)]
  · by_cases hyx : y = x
    · subst hyx
      rw [hself, hget, if_pos rfl, F.children y hx, F.children v hv]
      cases h : (ents y).children with
      | none => rw [hkind h]; rfl
      | some c => rfl
    · rw [hother y hyx, hget, if_neg (hnv hy), F.children y (hmem hy)]
  · rw [(hsame y).2.1] at h; rw [(hsame z).2.1] at h'
    exact F.owner y (hmem hy) z (hmem hz) c h h'
  · rw [(hsame r).2.1] at hc
    refine ⟨json'.array c, by simp [nonePending], ?_, fun n hn => ?_⟩
    · rw [harray]
      split_ifs with h
      · exact (F.nodup hp ha).erase _
      · exact F.nodup (hmem hr) hc
    · have hn' : n ∈ json.array c ∧ n ≠ (ents x).node := by
        rw [harray] at hn
        split_ifs at hn with h
        · exact h ▸ ((F.nodup hp ha).mem_erase_iff.mp hn).symm
        · exact ⟨hn, fun hnx => h (F.eq_of_mem_array hx hroot hp hparent ha (hmem hr)
            hc (hnx ▸ hn))⟩
      obtain ⟨e, he, heroot, hen, hep⟩ := F.child_entry (hmem hr) hc hn'.1
      have hex : e ≠ x := by rintro rfl; exact hn'.2 hen.symm
      by_cases hev : e = v
      · subst hev
        obtain rfl := F.id_inj r (hmem hr) q hq (hep.symm.trans hvparent)
        exact ⟨x, hxS, hroot, by rw [hself]; exact hen, by rw [hself, (hsame r).1]⟩
      · exact ⟨e, Finset.mem_erase.mpr ⟨hev, he⟩, heroot, by rw [hother e hex, hen],
          by rw [hother e hex, hep, (hsame r).1]⟩
  · by_cases hyx : y = x
    · subst hyx
      refine ⟨q, hqS, b, json'.array b, by rw [(hsame q).2.1, hb], by rw [(hsame q).1, hself],
        by simp [nonePending], ?_⟩
      rw [harray, if_neg hab.symm, hself]
      exact (F.mem_array_iff hq hb hv hvroot).mpr hvparent
    · obtain ⟨r, hr, c, hc, hid, hn⟩ := F.folder (hmem hy) hyroot
      have hrv : r ≠ v := by
        rintro rfl
        exact F.not_parent hv hleaf (hmem hy) hyroot hid
      refine ⟨r, Finset.mem_erase.mpr ⟨hrv, hr⟩, c, json'.array c, by rw [(hsame r).2.1, hc],
        by rw [(hsame r).1, hother y hyx, hid], by simp [nonePending], ?_⟩
      rw [harray, hother y hyx]
      split_ifs with h
      · exact (F.nodup hp ha).mem_erase_iff.mpr
          ⟨fun h => hyx (F.node_inj y (hmem hy) x hx h), h ▸ hn⟩
      · exact hn
  · have hmoved := Rooted.move hx hq (fun e _ => (hsame e).1) (fun e _ he => by rw [hother e he])
      (by rw [hself]) (F.rooted q hq) hbelow (F.rooted y (hmem hy))
    refine hmoved.erase (fun e he heroot => ?_) (Finset.mem_erase.mp hy).1
    rw [(hsame v).1]
    by_cases hex : e = x
    · rw [hex, hself]
      exact fun h => hqv (F.id_inj q hq v hv h.symm)
    · rw [hother e hex]
      exact F.not_parent hv hleaf he heroot
  · rw [hnode]
    by_cases hyx : y = x
    · rw [hyx, hself]; exact F.node_lt v hv
    · rw [hother y hyx]; exact F.node_lt y (hmem hy)
  · rw [(hsame y).2.1] at hc; rw [hnext]; exact F.array_lt y (hmem hy) c hc

end Forest

end BookmarkFS.Chromium
