import BookmarkFS.Library.Preorder
import Mathlib.Order.WellFoundedSet

/-! # Trees that a graph unfolds to

A finite graph in which the way up from each node is unique and comes to an end
is a forest. The tree below a node has just what can be reached from there, and
each once.
-/
namespace BookmarkFS.Library.Rose
open Relation

variable {α β : Type}

mutual

def map (f : α → β) : Rose α → Rose β
  | node a ts => node (f a) (maps f ts)

def maps (f : α → β) : List (Rose α) → List (Rose β)
  | [] => []
  | t :: ts => t.map f :: maps f ts

end

mutual

theorem preorder_map (f : α → β) : ∀ t : Rose α, (t.map f).preorder = t.preorder.map f
  | node a ts => by rw [map, preorder, preorder, List.map_cons, preorders_maps f ts]

theorem preorders_maps (f : α → β) : ∀ ts : List (Rose α), preorders (maps f ts) =
    (preorders ts).map f
  | [] => rfl
  | t :: ts => by rw [maps, preorders, preorders, List.map_append, preorder_map f t,
      preorders_maps f ts]

end

theorem maps_eq (f : α → β) (ts : List (Rose α)) : maps f ts = ts.map (map f) := by
  induction ts with
  | nil => rfl
  | cons t ts ih => rw [maps, ih, List.map_cons]

theorem label_map (f : α → β) (t : Rose α) : (t.map f).label = f t.label := by
  cases t with
  | node a ts => rfl

theorem preorders_eq_flatMap (ts : List (Rose α)) : preorders ts = ts.flatMap preorder := by
  induction ts with
  | nil => rfl
  | cons t ts ih => rw [preorders, ih, List.flatMap_cons]

theorem label_mem_preorder (t : Rose α) : t.label ∈ t.preorder := by
  rw [preorder_eq]
  exact List.mem_cons_self

/-- At each node, the subtrees are those of what comes next in the graph, in order. -/
inductive Unfolds (kids : α → List α) : Rose α → Prop
  | node {a : α} {ts : List (Rose α)} : ts.map label = kids a → (∀ t ∈ ts, Unfolds kids t) →
      Unfolds kids (.node a ts)

variable {kids : α → List α} {t : Rose α}

theorem Unfolds.closed (h : Unfolds kids t) {a b : α} (ha : a ∈ t.preorder) (hb : b ∈ kids a) :
    b ∈ t.preorder := by
  induction h with
  | @node root ts hlabels hts ih =>
    rw [preorder, preorders_eq_flatMap] at ha ⊢
    refine List.mem_cons_of_mem _ (List.mem_flatMap.mpr ?_)
    obtain rfl | ha := List.mem_cons.mp ha
    · rw [← hlabels] at hb
      obtain ⟨t, ht, rfl⟩ := List.mem_map.mp hb
      exact ⟨t, ht, t.label_mem_preorder⟩
    · obtain ⟨t, ht, ha⟩ := List.mem_flatMap.mp ha
      exact ⟨t, ht, ih t ht ha⟩

theorem Unfolds.mem_preorder_iff (h : Unfolds kids t) {x : α} :
    x ∈ t.preorder ↔ ReflTransGen (fun a b => b ∈ kids a) t.label x := by
  constructor
  · intro hx
    induction h with
    | @node root ts hlabels hts ih =>
      rw [preorder, preorders_eq_flatMap] at hx
      obtain rfl | hx := List.mem_cons.mp hx
      · exact .refl
      · obtain ⟨t, ht, hx⟩ := List.mem_flatMap.mp hx
        exact .head (hlabels ▸ List.mem_map_of_mem ht) (ih t ht hx)
  · intro hx
    induction hx with
    | refl => exact t.label_mem_preorder
    | tail _ hstep ih => exact h.closed ih hstep

section Forest

variable (hparent : ∀ {a a' b}, b ∈ kids a → b ∈ kids a' → a = a')
  (hup : WellFounded fun a b => b ∈ kids a)

include hup

theorem not_mem_kids_of_reaches {a b : α} (h : ReflTransGen (fun a b => b ∈ kids a) b a) :
    b ∉ kids a := fun hb =>
  have hloop : TransGen (fun a b => b ∈ kids a) b b := .tail' h hb
  hup.transGen.asymmetric _ _ hloop hloop

theorem wellFounded_down {s : Set α} (hs : s.Finite) (hkids : ∀ {a b}, b ∈ kids a → a ∈ s ∧ b ∈ s) :
    WellFounded fun b a => b ∈ kids a := by
  let r : α → α → Prop := fun b a => TransGen (fun a b => b ∈ kids a) a b
  have : IsStrictOrder α r :=
    { irrefl := fun a h => hup.transGen.asymmetric a a h h
      trans := fun _ _ _ hab hbc => hbc.trans hab }
  have hwf := Set.wellFoundedOn_iff.mp (hs.wellFoundedOn (r := r))
  exact Subrelation.wf (fun {b a} hb => ⟨.single hb, (hkids hb).2, (hkids hb).1⟩) hwf

include hparent

/-- Each node of the forest comes once. -/
theorem Unfolds.nodup_preorder (h : Unfolds kids t) (hnodup : ∀ a, (kids a).Nodup) :
    t.preorder.Nodup := by
  induction h with
  | @node root ts hlabels hts ih =>
    have hreaches : ∀ t ∈ ts, ∀ x ∈ t.preorder, ReflTransGen (fun a b => b ∈ kids a) t.label x :=
      fun t ht x hx =>
      (hts t ht).mem_preorder_iff.mp hx
    have hkid : ∀ t ∈ ts, t.label ∈ kids root := fun t ht => hlabels ▸ List.mem_map_of_mem ht
    rw [preorder, preorders_eq_flatMap, List.nodup_cons, List.nodup_flatMap]
    refine ⟨fun hroot => ?_, ih, ?_⟩
    · obtain ⟨t, ht, hx⟩ := List.mem_flatMap.mp hroot
      exact not_mem_kids_of_reaches hup (hreaches t ht root hx) (hkid t ht)
    · -- Of two siblings, neither can be reached from the other, and all ways up are on one line.
      have hapart : ∀ t ∈ ts, ∀ t' ∈ ts, ReflTransGen (fun a b => b ∈ kids a) t.label t'.label →
          t.label = t'.label := by
        intro t ht t' ht' hto
        obtain heq | ⟨a, hto, ha⟩ := hto.cases_tail
        · exact heq.symm
        · obtain rfl := hparent ha (hkid t' ht')
          exact absurd (hkid t ht) (not_mem_kids_of_reaches hup hto)
      have hpairwise : ts.Pairwise fun t t' => t.label ≠ t'.label :=
        List.pairwise_map.mp (show (ts.map label).Nodup from hlabels ▸ hnodup root)
      refine hpairwise.imp_of_mem fun {t t'} ht ht' hne x hx hx' => hne ?_
      have hunique : Relator.RightUnique (Function.swap fun a b => b ∈ kids a) :=
        fun a b c hb hc => hparent hb hc
      obtain h | h := ReflTransGen.total_of_right_unique hunique
        (reflTransGen_swap.mpr (hreaches t ht x hx)) (reflTransGen_swap.mpr (hreaches t' ht' x hx'))
      · exact (hapart t' ht' t ht (reflTransGen_swap.mp h)).symm
      · exact hapart t ht t' ht' (reflTransGen_swap.mp h)

end Forest

theorem exists_unfolds (hdown : WellFounded fun b a => b ∈ kids a) (a : α) : ∃ t, t.label = a ∧
    Unfolds kids t := by
  have hlist : ∀ l : List α, (∀ b ∈ l, ∃ t, t.label = b ∧ Unfolds kids t) →
      ∃ ts : List (Rose α), ts.map label = l ∧ ∀ t ∈ ts, Unfolds kids t := by
    intro l hl
    induction l with
    | nil => exact ⟨[], rfl, fun t ht => by cases ht⟩
    | cons b l ih =>
      obtain ⟨t, rfl, ht⟩ := hl b List.mem_cons_self
      obtain ⟨ts, rfl, hts⟩ := ih fun c hc => hl c (List.mem_cons_of_mem _ hc)
      exact ⟨t :: ts, rfl, List.forall_mem_cons.mpr ⟨ht, hts⟩⟩
  induction a using hdown.induction with
  | _ a ih =>
    obtain ⟨ts, hlabels, hts⟩ := hlist (kids a) ih
    exact ⟨.node a ts, rfl, .node hlabels hts⟩

end BookmarkFS.Library.Rose
