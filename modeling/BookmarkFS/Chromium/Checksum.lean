import BookmarkFS.Chromium.Calls
import BookmarkFS.Library.Walk

/-! # The checksum of a store

The checksum is a digest of all nodes in preorder. `iter_node()` walks with an
explicit stack, which holds a sentinel at its bottom; what it computes is given by
a recursion. The checksum is only computed anew if the store is dirty to the level
of its data, so whatever changes a node that it depends on has to set that level.
-/
namespace BookmarkFS.Chromium
open Library Hopscotch

/-- What `json_array_get()` runs through, if a node has children. -/
def Json.kids (json : Json) (n : NodeRef) : Option (List NodeRef) :=
  (json.get n .children).map json.elems

section Walk

variable {σ δ : Type} (json : Json) (visit : σ → NodeRef → δ → Option (σ × δ))

/-- `iter_roots()` on a store that the callback does not change -/
def walkRoots (roots : List NodeRef) (s : σ) (d : δ) : Option σ :=
  if roots = [] then none
  else roots.foldlM (fun s n => Walk.visitTree json.kids visit (maxNodeIterDepth - 1) s n d) s

end Walk

section Checksum

variable (utf16 : Bytes → Option Bytes) (md5 : Bytes → Bytes) (json : Json)

/-- What `chksum_iter_cb()` adds for a node, unless its name cannot be converted. A member that is
missing adds nothing, as in a build without assertions. -/
def chksumNode (n : NodeRef) : Option Bytes :=
  (utf16 ((jsonStringValue (json.get n .name)).getD [])).map fun name =>
    (jsonStringValue (json.get n .id)).getD [] ++ name ++
      match json.get n .children with
      | some _ => [0x66, 0x6f, 0x6c, 0x64, 0x65, 0x72]
      | none => [0x75, 0x72, 0x6c] ++ (jsonStringValue (json.get n .url)).getD []

/-- `chksum_iter_cb()`, on what has been fed to the digest so far. -/
def chksumIterCb (fed : Bytes) (n : NodeRef) (_ : Unit) : Option (Bytes × Unit) :=
  ((chksumNode utf16 json n).map (fed ++ ·)).map fun fed => (fed, ())

/-- `chksum_root()` -/
def chksumRoot (roots : List NodeRef) : Option Bytes :=
  (walkRoots json (chksumIterCb utf16 json) roots [] ()).map fun fed => base16Encode (md5 fed)

/-- All nodes below the roots, as far as `depth` levels reach. -/
def Json.preorder (json : Json) (depth : ℕ) (roots : List NodeRef) : List NodeRef :=
  roots.flatMap (Walk.preorder json.kids depth)

/-- What the checksum should be, no matter how deep the recursion may go. -/
def RightSum (roots : List NodeRef) (sum : Bytes) : Prop :=
  ∀ depth ≥ maxNodeIterDepth - 1,
    sum = base16Encode
    (md5 ((json.preorder depth roots).flatMap fun n => (chksumNode utf16 json n).getD []))

end Checksum

/-- A store, and the value of its member `checksum`. -/
structure Saver (w : WordSize) where
  ctx : Ctx w
  sum : Bytes

/-- `store_save()`, where the file can be written or not: whether it succeeds, and
what it leaves. -/
def storeSave {w : WordSize} (utf16 : Bytes → Option Bytes) (md5 : Bytes → Bytes) (s : Saver w)
    (written : Bool) :
    Bool × Saver w :=
  if s.ctx.dirty = .none then (true, s)
  else
    match (if s.ctx.dirty = .data then chksumRoot utf16 md5 s.ctx.json s.ctx.roots
      else some s.sum) with
    | none => (false, s)
    | some sum =>
      if written then (true, ⟨{ s.ctx with dirty := .none }, sum⟩)
        else (false, { s with sum := sum })

section Spec

variable {utf16 : Bytes → Option Bytes} {md5 : Bytes → Bytes} {json : Json}

theorem foldlM_chksum (l : List NodeRef) {fed fed' : Bytes}
    (h : l.foldlM (fun fed n => (chksumNode utf16 json n).map (fed ++ ·)) fed = some fed') :
    fed' = fed ++ l.flatMap fun n => (chksumNode utf16 json n).getD [] := by
  induction l generalizing fed with
  | nil => simpa using h.symm
  | cons n l ih =>
    rw [List.foldlM_cons] at h
    obtain ⟨fed₁, hfed₁, h⟩ := Option.bind_eq_some_iff.mp h
    obtain ⟨more, hmore, rfl⟩ := Option.map_eq_some_iff.mp hfed₁
    rw [ih h, List.flatMap_cons, hmore, Option.getD_some, List.append_assoc]

theorem chksumRoot_spec {roots : List NodeRef} {sum : Bytes}
    (h : chksumRoot utf16 md5 json roots = some sum) :
    RightSum utf16 md5 json roots sum := by
  intro depth hdepth
  obtain ⟨fed, hwalk, rfl⟩ := Option.map_eq_some_iff.mp h
  rw [walkRoots] at hwalk
  split at hwalk
  · cases hwalk
  have hfed := foldlM_chksum _ (Walk.foldlM_flatMap (fun _ _ _ hn => Walk.visitTree_fold hn)
    roots hwalk)
  rw [hfed, List.nil_append]
  congr 3
  refine List.flatMap_congr fun n hn => (Walk.preorder_eq (fun hnested => ?_) hdepth).symm
  rw [Walk.foldlM_eq_none hn fun s => Walk.visitTree_nested hnested s ()] at hwalk
  cases hwalk

/-- A save succeeds if the file can be written, no folder is nested too deep and all names can
be converted. -/
theorem storeSave_succeeds {w : WordSize} {s : Saver w} (hroots : s.ctx.roots ≠ [])
    (hshallow : ∀ n ∈ s.ctx.roots, ¬Walk.Nested s.ctx.json.kids maxNodeIterDepth n)
    (hconvert : ∀ n ∈ s.ctx.json.preorder (maxNodeIterDepth - 1) s.ctx.roots,
      (utf16 ((jsonStringValue (s.ctx.json.get n .name)).getD [])).isSome) :
    (storeSave utf16 md5 s true).1 = true := by
  have hsum : (chksumRoot utf16 md5 s.ctx.json s.ctx.roots).isSome := by
    rw [chksumRoot, walkRoots, if_neg hroots, Option.isSome_map]
    refine Walk.foldlM_isSome (fun n hn fed => ?_) []
    refine Walk.visitTree_isSome (hshallow n hn) (fun m hm fed _ => ?_) fed ()
    rw [chksumIterCb, chksumNode]
    simpa using hconvert m (List.mem_flatMap.mpr ⟨n, hn, hm⟩)
  obtain ⟨sum, hsum⟩ := Option.isSome_iff_exists.mp hsum
  rw [storeSave]
  by_cases hclean : s.ctx.dirty = .none
  · rw [if_pos hclean]
  by_cases hdata : s.ctx.dirty = .data
  · simp only [if_neg hclean, if_pos hdata, hsum, if_true]
  · simp only [if_neg hclean, if_neg hdata, if_true]

end Spec

end BookmarkFS.Chromium
