import BookmarkFS.Hopscotch.Bits

/-! # The hopscotch hashmap, as hashmap.c computes it

Buckets are an array behind checked reads and writes, and every fault the C
code could run into is a value: an index outside the array, a failed
`debug_assert()`, the `xassert()` on a table that cannot grow any more. Of the
assertions, the one `find_entry()` makes on the size of the table has a fault
of its own, since it speaks of the table and not of the entry sought. A
bucket's `entry` is a pointer, so entries are compared by identity, and the
two callbacks of the map are arguments, since what they answer for an entry
depends on memory the map does not own.
-/
namespace BookmarkFS.Hopscotch

variable {w : WordSize} {α : Type}

inductive Fault where
  /-- A bucket index outside the array. -/
  | outOfBounds
  /-- A `debug_assert()` that does not hold. -/
  | assertion
  /-- The `debug_assert(exp < EXP_MAX)` of `find_entry()`. -/
  | expMax
  /-- The `xassert()` on a table that has to grow and cannot. -/
  | tableSize
  /-- A loop of the model was cut off. -/
  | diverges
  deriving DecidableEq

structure Bucket (w : WordSize) (α : Type) where
  bits : Word w
  entry : Option α

/-- The `buckets` array with its length `num_buckets`. -/
structure Buckets (w : WordSize) (α : Type) where
  mem : ℕ → Bucket w α
  size : ℕ

namespace Buckets

/-- `xcalloc(n, sizeof(struct bucket))` -/
def calloc (n : ℕ) : Buckets w α where
  mem _ := { bits := 0, entry := none }
  size := n

def get (t : Buckets w α) (i : ℕ) : Except Fault (Bucket w α) :=
  if i < t.size then .ok (t.mem i) else .error .outOfBounds

def set (t : Buckets w α) (i : ℕ) (b : Bucket w α) : Except Fault (Buckets w α) :=
  if i < t.size then .ok { t with mem := Function.update t.mem i b } else .error .outOfBounds

end Buckets

structure Hashmap (w : WordSize) (α : Type) where
  buckets : Buckets w α
  numUsed : ℕ
  exp : ℕ

/-- `debug_assert()` -/
def debugAssert (p : Prop) [Decidable p] : Except Fault Unit :=
  if p then .ok () else .error .assertion

/-- The body of the loop of `find_entry()`; `hop` is the part of the bitmask not yet visited. -/
def findEntryLoop [DecidableEq α] (map : Hashmap w α) (entry : α) (hashcode : Word w) (home : ℕ) :
    ℕ → Word w → Except Fault ℕ
  | 0, _ => .error .diverges
  | fuel + 1, hop => do
    let hopIdx := countTz hop
    debugAssert (hopIdx < map.exp)
    let b ← map.buckets.get (home + hopIdx)
    if b.bits &&& bucketHashMask w map.exp ≠ hashcode <<< map.exp then
      findEntryLoop map entry hashcode home fuel (bitUnset hop hopIdx)
    else if b.entry ≠ some entry then
      findEntryLoop map entry hashcode home fuel (bitUnset hop hopIdx)
    else
      .ok hopIdx

/-- `find_entry()`: the home bucket and the hop index of an entry known to be present. -/
def findEntry [DecidableEq α] (entryHash : α → Word w) (map : Hashmap w α) (entry : α) :
    Except Fault (ℕ × ℕ) := do
  let hashcode := entryHash entry
  let hashIdx := hashToIdx hashcode map.exp
  let home ← map.buckets.get hashIdx
  if w.expMax ≤ map.exp then
    .error .expMax
  else
    let hopIdx ← findEntryLoop map entry hashcode hashIdx (w.bits + 1) home.bits
    .ok (hashIdx, hopIdx)

/-- First loop of `make_room()`: linear probe over the `n` buckets from `b` to `end`. -/
def probe (t : Buckets w α) : ℕ → ℕ → Except Fault ℕ
  | 0, b => .ok b
  | n + 1, b => do
    let bucket ← t.get b
    match bucket.entry with
    | none => .ok b
    | some _ => probe t n (b + 1)

/-- Innermost loop of `make_room()`: the first of the `n` buckets before `b` that is home to an
entry nearer to it than `b`, with the hop index of that entry. -/
def findSwap (t : Buckets w α) (b : ℕ) : ℕ → ℕ → Except Fault (Option (ℕ × ℕ))
  | 0, _ => .ok none
  | n + 1, swp => do
    let bucket ← t.get swp
    let hopIdx := countTz bucket.bits
    if hopIdx ≥ b - swp then
      findSwap t b n (swp + 1)
    else
      .ok (some (swp, hopIdx))

/-- One swap of `make_room()`: the entry at `swp + hop_idx` moves into the empty slot `b`. -/
def swapSlot (t : Buckets w α) (exp b swp hopIdx : ℕ) : Except Fault (Buckets w α) := do
  let owner ← t.get swp
  let t ← t.set swp { owner with bits := bitUnset (bitSet owner.bits (b - swp)) hopIdx }
  let src ← t.get (swp + hopIdx)
  let dst ← t.get b
  t.set b { bits := dst.bits ^^^ ((dst.bits ^^^ src.bits) &&& bucketHashMask w exp),
            entry := src.entry }

/-- Second loop of `make_room()`: swap the empty slot `b` forward into the neighborhood. -/
def displace (exp home : ℕ) : ℕ → Buckets w α → ℕ → Except Fault (Buckets w α × Option ℕ)
  | 0, _, _ => .error .diverges
  | fuel + 1, t, b =>
    if home + exp ≤ b then do
      match ← findSwap t b (exp - 1) (b - (exp - 1)) with
      | none =>
        -- Not able to swap empty slot to the neighborhood of home bucket.
        let bucket ← t.get b
        let t ← t.set b { bucket with entry := none }
        .ok (t, none)
      | some (swp, hopIdx) =>
        let t ← swapSlot t exp b swp hopIdx
        displace exp home fuel t (swp + hopIdx)
    else
      .ok (t, some (b - home))

/-- `make_room()`; `none` stands for -1. -/
def makeRoom (t : Buckets w α) (home exp : ℕ) : Except Fault (Buckets w α × Option ℕ) := do
  let b ← probe t (t.size - home) home
  if b = t.size then
    .ok (t, none)
  else
    displace exp home (b + 1) t b

/-- Loop of `rehash()` over the `n` old buckets from `oldB`; `none` when no room is found. -/
def rehashLoop (entryHash : α → Word w) (old : Buckets w α) (newExp : ℕ) :
    ℕ → ℕ → Buckets w α → Except Fault (Option (Buckets w α))
  | 0, _, new => .ok (some new)
  | n + 1, oldB, new => do
    let bucket ← old.get oldB
    match bucket.entry with
    | none => rehashLoop entryHash old newExp n (oldB + 1) new
    | some oldE => do
      let hashcode := entryHash oldE
      let newHome := hashToIdx hashcode newExp
      match ← makeRoom new newHome newExp with
      | (_, none) => .ok none
      | (new, some hopIdx) => do
        let home ← new.get newHome
        let new ← new.set newHome { home with bits := bitSet home.bits hopIdx }
        let newB ← new.get (newHome + hopIdx)
        let new ← new.set (newHome + hopIdx)
          { bits := (newB.bits &&& bucketHopMask w newExp) ||| hashcode <<< newExp,
            entry := some oldE }
        rehashLoop entryHash old newExp n (oldB + 1) new

/-- `rehash()`: the map together with whether it succeeded. -/
def rehash (entryHash : α → Word w) (map : Hashmap w α) (newExp : ℕ) :
    Except Fault (Hashmap w α × Bool) :=
  if w.expMax < newExp then
    .ok (map, false)
  else do
    match ← rehashLoop entryHash map.buckets newExp map.buckets.size 0
        (Buckets.calloc (bucketCnt newExp)) with
    | none => .ok (map, false)
    | some new => .ok ({ map with buckets := new, exp := newExp }, true)

/-- `hashmap_create()` -/
def hashmapCreate : Hashmap w α where
  buckets := Buckets.calloc (bucketCnt expMin)
  numUsed := 0
  exp := expMin

/-- `hashmap_foreach()` with the walk function `walk` on its `user_data`. -/
def hashmapForeach {σ : Type} (map : Hashmap w α) (walk : σ → α → σ) (userData : σ) : σ :=
  (List.range map.buckets.size).foldl
    (fun s i => match (map.buckets.mem i).entry with
      | none => s
      | some e => walk s e) userData

/-- `hashmap_update()`; `newEntry` is `none` for a removal. -/
def hashmapUpdate [DecidableEq α] (entryHash : α → Word w) (map : Hashmap w α) (entry : α)
    (newEntry : Option α) (entryId : ℤ) : Except Fault (Hashmap w α) := do
  let (home, hopIdx) ←
    (if entryId < 0 then
      findEntry entryHash map entry
    else
      .ok (entryId.toNat >>> w.hopIdxWidth, entryId.toNat % 2 ^ w.hopIdxWidth))
  let bucket ← map.buckets.get home
  let t ← map.buckets.set home { bucket with bits := bitUnset bucket.bits hopIdx }
  let b ← t.get (home + hopIdx)
  debugAssert (b.entry = some entry)
  let t ← t.set (home + hopIdx) { b with entry := newEntry }
  let map := { map with buckets := t }
  if newEntry.isSome then
    .ok map
  else
    let bucketsUsed := map.numUsed - 1
    let map := { map with numUsed := bucketsUsed }
    if map.exp ≤ expMin then
      .ok map
    -- load factor < 0.125
    else if bucketsUsed < map.buckets.size >>> 3 then do
      let (map, _) ← rehash entryHash map (map.exp - 1)
      .ok map
    else
      .ok map

/-- The recursion of `hashmap_insert()`, which grows the table before it tries again. -/
def hashmapInsertLoop (entryHash : α → Word w) (hashcode : Word w) (entry : α) :
    ℕ → Hashmap w α → Except Fault (Hashmap w α)
  | 0, _ => .error .diverges
  | fuel + 1, map => do
    let hashIdx := hashToIdx hashcode map.exp
    match ← makeRoom map.buckets hashIdx map.exp with
    | (t, none) => do
      let map := { map with buckets := t }
      let (map, grown) ← rehash entryHash map (map.exp + 1)
      if grown then
        hashmapInsertLoop entryHash hashcode entry fuel map
      else do
        let (map, grown) ← rehash entryHash map (map.exp + 2)
        if grown then
          hashmapInsertLoop entryHash hashcode entry fuel map
        else
          .error .tableSize
    | (t, some hopIdx) => do
      let home ← t.get hashIdx
      let t ← t.set hashIdx { home with bits := bitSet home.bits hopIdx }
      let b ← t.get (hashIdx + hopIdx)
      let t ← t.set (hashIdx + hopIdx)
        { bits := (b.bits &&& bucketHopMask w map.exp) ||| hashcode <<< map.exp,
          entry := some entry }
      .ok { map with buckets := t, numUsed := map.numUsed + 1 }

/-- `hashmap_insert()` -/
def hashmapInsert (entryHash : α → Word w) (map : Hashmap w α) (hashcode : Word w) (entry : α) :
    Except Fault (Hashmap w α) :=
  hashmapInsertLoop entryHash hashcode entry (w.expMax + 1) map

/-- Loop of `hashmap_search()`; `hop` is the part of the bitmask not yet visited. -/
def hashmapSearchLoop (entryComp : α → Bool) (map : Hashmap w α) (hashcode : Word w)
    (hashIdx : ℕ) : ℕ → Word w → Except Fault (Option (α × Word w))
  | 0, _ => .error .diverges
  | fuel + 1, hop =>
    let hopIdx := countTz hop
    if hopIdx ≥ map.exp then
      .ok none
    else do
      let b ← map.buckets.get (hashIdx + hopIdx)
      if b.bits &&& bucketHashMask w map.exp ≠ hashcode <<< map.exp then
        hashmapSearchLoop entryComp map hashcode hashIdx fuel (bitUnset hop hopIdx)
      else
        match b.entry with
        | none => .error .assertion
        | some e =>
          if entryComp e then
            .ok (some (e, packId w hashIdx hopIdx))
          else
            hashmapSearchLoop entryComp map hashcode hashIdx fuel (bitUnset hop hopIdx)

/-- `hashmap_search()`: the entry found with its `entry_id`; `entryComp` is `entry_comp(key, ·)`
compared to 0. -/
def hashmapSearch (entryComp : α → Bool) (map : Hashmap w α) (hashcode : Word w) :
    Except Fault (Option (α × Word w)) := do
  let hashIdx := hashToIdx hashcode map.exp
  let home ← map.buckets.get hashIdx
  debugAssert (map.exp ≤ w.expMax)
  hashmapSearchLoop entryComp map hashcode hashIdx (w.bits + 1) home.bits

end BookmarkFS.Hopscotch
