import BookmarkFS.Chromium.Loading

/-! # Stores written out cell by cell

A store file in which the objects and arrays are given one after the other, by
their positions. Whether a parser can return it is decided by a look at each
object.
-/
namespace BookmarkFS.Chromium
open Library Hopscotch

variable {w : WordSize}

/-- The members of an object in the order of the file. -/
abbrev Members := List (Key × Value)

def Json.written (objects : List Members) (arrays : List (List NodeRef)) : Json where
  object n key := ((objects.getD n []).find? fun member => member.1 = key).map Prod.snd
  array a := arrays.getD a []
  nextNode := objects.length
  nextArray := arrays.length

/-- The elements of the children of `n` are there, and no other object has the same children. -/
def Json.closedAt (json : Json) (n : NodeRef) : Bool :=
  match json.get n .children with
  | some (.array a) => a < json.nextArray && (json.array a).all (· < json.nextNode) &&
      (List.range json.nextNode).all fun m => json.get m .children ≠ some (.array a) || n = m
  | _ => true

def Json.closed (json : Json) (roots : List NodeRef) : Bool :=
  roots.all (· < json.nextNode) && (List.range json.nextNode).all json.closedAt

theorem Json.closedAt_array {json : Json} {n : NodeRef} {a : ArrayRef}
    (h : json.closedAt n = true) (ha : json.get n .children = some (.array a)) :
    a < json.nextArray ∧ (∀ m ∈ json.array a, m < json.nextNode) ∧
      ∀ m < json.nextNode, json.get m .children = some (.array a) → n = m := by
  simp only [closedAt, ha, Bool.and_eq_true, decide_eq_true_eq, List.all_eq_true, List.mem_range,
    Bool.or_eq_true] at h
  exact ⟨h.1.1, h.1.2, fun m hm hma => (h.2 m hm).resolve_left (absurd hma)⟩

theorem Json.separate_of_closed {json : Json} {roots : List NodeRef}
    (h : json.closed roots = true) : Separate json roots := by
  simp only [closed, Bool.and_eq_true, List.all_eq_true, decide_eq_true_eq, List.mem_range] at h
  obtain ⟨hroots, hat⟩ := h
  have hlt : ∀ n, Reaches json roots n → n < json.nextNode := by
    intro n hn
    induction hn with
    | root h => exact hroots _ h
    | @child n m c _ hc hm ih =>
      cases c with
      | array a => exact (closedAt_array (hat n ih) hc).2.1 m hm
      | string _ => cases hm
      | other _ => cases hm
  refine ⟨hlt, fun n a hn ha => (closedAt_array (hat n (hlt n hn)) ha).1,
    fun n m a hn hm ha ha' => ?_⟩
  exact (closedAt_array (hat n (hlt n hn)) ha).2.2 m (hlt m hm) ha'

/-- The members that the backend needs in a node; the GUID is made of the identifier. -/
def writtenNode (id : ℕ) (name : Bytes) : Members :=
  [(.id, .string (decimal id)), (.name, .string name),
    (.guid, .string (uuidBin2hex (List.replicate 15 0 ++ [UInt8.ofNat id]))),
    (.dateAdded, .string (decimal 0)), (.dateLastUsed, .string (decimal 0))]

def writtenFolder (id : ℕ) (name : Bytes) (children : ArrayRef) : Members :=
  (.children, .array children) :: writtenNode id name

def writtenUrl (id : ℕ) (name url : Bytes) : Members :=
  (.url, .string url) :: writtenNode id name

/-- What a call finds at the first load of a store with these contents. -/
def Env.written (json : Json) (roots : List NodeRef) : Env where
  initWatcher := true
  poll := .unchanged
  file := some ⟨json, true, 1, some roots⟩
  now := ⟨0, 0⟩
  uuid := List.replicate 16 255

theorem Env.written_wellFormed {json : Json} {roots : List NodeRef}
    (h : json.closed roots = true) : (Env.written json roots).WellFormed where
  file := by
    rintro doc hdoc roots' hroots'
    obtain rfl : _ = doc := Option.some.inj hdoc
    obtain rfl : roots = roots' := Option.some.inj hroots'
    exact Json.separate_of_closed h
  uuid := rfl
  now := ⟨rfl, le_refl (0 : ℤ), (by decide : (0 : ℤ) < 1000000000)⟩

/-- The context of a backend that has just been created. -/
def Ctx.created (flags : Flags) : Ctx w where
  json := .written [] []
  ents _ := ⟨0, 0, [], none, 0, none⟩
  nextEntry := 0
  idMap := hashmapCreate
  guidMap := hashmapCreate
  assocMap := hashmapCreate
  roots := []
  watching := false
  loaded := false
  maxId := 0
  dirty := .none
  flags := flags

end BookmarkFS.Chromium
