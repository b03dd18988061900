import BookmarkFS.Hopscotch.Table
import BookmarkFS.Library.Text

/-! # The JSON store in memory

Objects and arrays are cells named by references, as `json_t` pointers are, so
that two pointers to one value are seen to change together. Strings and scalars
are never shared by the backend, which copies them, and stand in their object.
Whatever is no JSON object behaves like one without members. Cells are not
reclaimed: what has been unlinked from the store stays as it was.
-/
namespace BookmarkFS.Chromium
open Library Hopscotch

/-- The member names that the backend reads or writes, and all others. -/
inductive Key where
  | id
  | guid
  | name
  | url
  | type
  | children
  | dateAdded
  | dateLastUsed
  | dateModified
  | other (name : Bytes)
  deriving DecidableEq

abbrev NodeRef := ℕ

abbrev ArrayRef := ℕ

inductive Value where
  | string (s : Bytes)
  | array (ref : ArrayRef)
  /-- A value the backend never looks into. -/
  | other (content : ℕ)
  deriving DecidableEq

abbrev Object := Key → Option Value

structure Json where
  object : NodeRef → Object
  array : ArrayRef → List NodeRef
  nextNode : ℕ
  nextArray : ℕ

/-- `json_string_value()` -/
def jsonStringValue : Option Value → Option Bytes
  | some (.string s) => some s
  | _ => none

/-- `json_string_length()` -/
def jsonStringLength (v : Option Value) : ℕ := ((jsonStringValue v).getD []).length

/-- `json_stringn()`, which takes valid UTF-8 only. -/
def jsonStringn (s : Bytes) : Option Value := if validUtf8 s then some (.string s) else none

namespace Json

variable (json : Json)

/-- `json_object()` -/
def newObject : NodeRef × Json :=
  (json.nextNode, { json with object := Function.update json.object json.nextNode fun _ => none
                              nextNode := json.nextNode + 1 })

/-- `json_array()` -/
def newArray : Value × Json :=
  (.array json.nextArray, { json with array := Function.update json.array json.nextArray []
                                      nextArray := json.nextArray + 1 })

/-- `json_object_sget()` -/
def get (node : NodeRef) (key : Key) : Option Value := json.object node key

/-- `json_object_sset_new()` and its siblings. -/
def set (node : NodeRef) (key : Key) (value : Value) : Json :=
  let members := Function.update (json.object node) key (some value)
  { json with object := Function.update json.object node members }

/-- `json_object_update()`: the members of `src` replace or join those of `dst`. -/
def update (dst src : NodeRef) : Json :=
  let members := fun key => (json.object src key).or (json.object dst key)
  { json with object := Function.update json.object dst members }

/-- The elements of an array; what is no array has none. -/
def elems : Value → List NodeRef
  | .array ref => json.array ref
  | _ => []

/-- Replaces the elements of an array; on anything else the array functions of the library fail
and change nothing. -/
def setElems (value : Value) (elems : List NodeRef) : Json :=
  match value with
  | .array ref => { json with array := Function.update json.array ref elems }
  | _ => json

/-- `json_array_size()` -/
def arraySize (value : Value) : ℕ := (json.elems value).length

/-- `json_array_append()` -/
def arrayAppend (value : Value) (node : NodeRef) : Json :=
  json.setElems value (json.elems value ++ [node])

/-- `json_array_remove()` -/
def arrayRemove (value : Value) (idx : ℕ) : Json :=
  json.setElems value ((json.elems value).eraseIdx idx)

/-- `json_array_insert()` -/
def arrayInsert (value : Value) (idx : ℕ) (node : NodeRef) : Json :=
  json.setElems value ((json.elems value).insertIdx idx node)

/-- `json_array_set()` -/
def arraySet (value : Value) (idx : ℕ) (node : NodeRef) : Json :=
  json.setElems value ((json.elems value).set idx node)

/-- `json_array_search()`, which must not be called for what is not there. -/
def arraySearch (value : Value) (node : NodeRef) : Except Fault ℕ :=
  if node ∈ json.elems value then .ok ((json.elems value).idxOf node) else .error .assertion

section Frame

variable {json}

@[simp] theorem set_array (n : NodeRef) (k : Key) (v : Value) :
    (json.set n k v).array = json.array := rfl

@[simp] theorem set_nextNode (n : NodeRef) (k : Key) (v : Value) :
    (json.set n k v).nextNode = json.nextNode := rfl

@[simp] theorem set_nextArray (n : NodeRef) (k : Key) (v : Value) :
    (json.set n k v).nextArray = json.nextArray := rfl

@[simp] theorem set_elems (n : NodeRef) (k : Key) (v : Value) :
    (json.set n k v).elems = json.elems := rfl

theorem get_set (n m : NodeRef) (k l : Key) (v : Value) :
    (json.set n k v).get m l = if m = n ∧ l = k then some v else json.get m l := by
  by_cases hm : m = n
  · subst hm
    by_cases hl : l = k
    · subst hl; simp [set, get]
    · simp [set, get, hl]
  · simp [set, get, hm]

theorem get_set_self (n : NodeRef) (k : Key) (v : Value) : (json.set n k v).get n k = some v := by
  simp [get_set]

theorem get_set_of_key {n m : NodeRef} {k l : Key} {v : Value} (h : l ≠ k) :
    (json.set n k v).get m l = json.get m l := by
  simp [get_set, h]

theorem get_set_of_node {n m : NodeRef} {k l : Key} {v : Value} (h : m ≠ n) :
    (json.set n k v).get m l = json.get m l := by
  simp [get_set, h]

@[simp] theorem setElems_object (v : Value) (ns : List NodeRef) :
    (json.setElems v ns).object = json.object := by
  cases v <;> rfl

@[simp] theorem setElems_get (v : Value) (ns : List NodeRef) :
    (json.setElems v ns).get = json.get := by
  cases v <;> rfl

@[simp] theorem setElems_nextNode (v : Value) (ns : List NodeRef) :
    (json.setElems v ns).nextNode = json.nextNode := by
  cases v <;> rfl

@[simp] theorem setElems_nextArray (v : Value) (ns : List NodeRef) :
    (json.setElems v ns).nextArray = json.nextArray := by
  cases v <;> rfl

theorem setElems_array (a b : ArrayRef) (ns : List NodeRef) :
    (json.setElems (.array a) ns).array b = if b = a then ns else json.array b := by
  simp [setElems, Function.update_apply]

theorem get_update (dst src m : NodeRef) (k : Key) :
    (json.update dst src).get m k =
      if m = dst then (json.get src k).or (json.get dst k) else json.get m k := by
  by_cases hm : m = dst
  · subst hm; simp [update, get]
  · simp [update, get, hm]

@[simp] theorem update_array (dst src : NodeRef) : (json.update dst src).array = json.array := rfl

end Frame

end Json

end BookmarkFS.Chromium
