import BookmarkFS.Library.Memory

/-! # The MD5 digest

The context of a digest has the state, the number of bytes so far, and a buffer for
the bytes of a block that is not complete yet. What is written or read outside of
the buffer or of the input is a fault.
-/
namespace BookmarkFS.Md5
open Library

inductive Fault where
  /-- Memory is used outside of an array. -/
  | outOfBounds
  /-- A `size_t` would be negative. -/
  | underflow
  /-- The loop does not end. -/
  | diverges
  deriving DecidableEq

abbrev U32 := BitVec 32

/-- `MD5_BLOCK_SIZE` -/
def blockSize : ℕ := 64

/-- `MD5_LAST_SIZE` -/
def lastSize : ℕ := blockSize - 8

/-- `state` -/
structure State where
  s0 : U32
  s1 : U32
  s2 : U32
  s3 : U32
  deriving DecidableEq

/-- `struct md5_ctx`; there are always `MD5_BLOCK_SIZE` bytes in the buffer, whatever they are. -/
structure Ctx where
  state : State
  len : BitVec 64
  off : ℕ
  buf : Bytes
  buf_length : buf.length = blockSize

def t0 : List U32 := [
  0xd76aa478, 0xe8c7b756, 0x242070db, 0xc1bdceee, 0xf57c0faf, 0x4787c62a, 0xa8304613, 0xfd469501,
  0x698098d8, 0x8b44f7af, 0xffff5bb1, 0x895cd7be, 0x6b901122, 0xfd987193, 0xa679438e, 0x49b40821,
  0xf61e2562, 0xc040b340, 0x265e5a51, 0xe9b6c7aa, 0xd62f105d, 0x02441453, 0xd8a1e681, 0xe7d3fbc8,
  0x21e1cde6, 0xc33707d6, 0xf4d50d87, 0x455a14ed, 0xa9e3e905, 0xfcefa3f8, 0x676f02d9, 0x8d2a4c8a,
  0xfffa3942, 0x8771f681, 0x6d9d6122, 0xfde5380c, 0xa4beea44, 0x4bdecfa9, 0xf6bb4b60, 0xbebfbc70,
  0x289b7ec6, 0xeaa127fa, 0xd4ef3085, 0x04881d05, 0xd9d4d039, 0xe6db99e5, 0x1fa27cf8, 0xc4ac5665,
  0xf4292244, 0x432aff97, 0xab9423a7, 0xfc93a039, 0x655b59c3, 0x8f0ccc92, 0xffeff47d, 0x85845dd1,
  0x6fa87e4f, 0xfe2ce6e0, 0xa3014314, 0x4e0811a1, 0xf7537e82, 0xbd3af235, 0x2ad7d2bb, 0xeb86d391]

def t1 : List ℕ := [7, 12, 17, 22, 5, 9, 14, 20, 4, 11, 16, 23, 6, 10, 15, 21]

/-- The bytes of a number, the low-order byte first: `htole32()` and `htole64()`. -/
def leBytes {n : ℕ} (len : ℕ) (val : BitVec n) : Bytes :=
  (List.range len).map fun i => UInt8.ofBitVec ((val >>> (8 * i)).setWidth 8)

/-- `le32toh()` -/
def le32toh (bytes : Bytes) : U32 :=
  (bytes.getD 0 0).toBitVec.setWidth 32 ||| (bytes.getD 1 0).toBitVec.setWidth 32 <<< 8 |||
    (bytes.getD 2 0).toBitVec.setWidth 32 <<< 16 ||| (bytes.getD 3 0).toBitVec.setWidth 32 <<< 24

/-- `ROTL32()` -/
def rotl32 (v : U32) (n : ℕ) : U32 := v <<< n ||| v >>> (32 - n)

/-- `MD5_OP()`, where `e` is its argument and `buf` the block as numbers. -/
def md5Op (buf : List U32) (i : ℕ) (s : State) (e : U32) (j : ℕ) : State :=
  let tmp := e + s.s0 + t0.getD i 0 + buf.getD j 0
  { s0 := s.s3
    s3 := s.s2
    s2 := s.s1
    s1 := s.s1 + rotl32 tmp (t1.getD (i / 16 * 4 + i % 4) 0) }

/-- `md5_update_one()` -/
def md5UpdateOne (state : State) (block : Bytes) : State :=
  let buf := (List.range 16).map fun i => le32toh ((block.drop (4 * i)).take 4)
  let s := state
  let s := (List.range' 0 16).foldl
    (fun s i => md5Op buf i s ((s.s1 &&& s.s2) ||| (~~~s.s1 &&& s.s3)) i) s
  let s := (List.range' 16 16).foldl
    (fun s i => md5Op buf i s ((s.s1 &&& s.s3) ||| (s.s2 &&& ~~~s.s3)) ((i * 5 + 1) % 16)) s
  let s := (List.range' 32 16).foldl
    (fun s i => md5Op buf i s (s.s1 ^^^ s.s2 ^^^ s.s3) ((i * 3 + 5) % 16)) s
  let s := (List.range' 48 16).foldl
    (fun s i => md5Op buf i s (s.s2 ^^^ (s.s1 ||| ~~~s.s3)) (i * 7 % 16)) s
  { s0 := state.s0 + s.s0
    s1 := state.s1 + s.s1
    s2 := state.s2 + s.s2
    s3 := state.s3 + s.s3 }

/-- `memcpy()` or `memset()` into the buffer -/
def Ctx.store (ctx : Ctx) (off : ℕ) (val : Bytes) : Except Fault Ctx :=
  if h : off + val.length ≤ blockSize then
    .ok { ctx with
      buf := ctx.buf.take off ++ val ++ ctx.buf.drop (off + val.length)
      buf_length := by
        have hlen := ctx.buf_length
        simp only [List.length_append, List.length_take, List.length_drop]
        omega }
  else .error .outOfBounds

/-- The loop of `md5_update()`, from the offset `pos` of the input to `stop`. -/
def md5UpdateLoop (src : Bytes) (stop : ℕ) : ℕ → State → ℕ → Except Fault State
  | 0, state, pos => if pos < stop then .error .diverges else .ok state
  | fuel + 1, state, pos =>
    if pos < stop then do
      let block ← loadBytes .outOfBounds src pos blockSize
      md5UpdateLoop src stop fuel (md5UpdateOne state block) (pos + blockSize)
    else .ok state

/-- The part of `md5_update()` that starts at a block, with `src` at the offset `pos`
of the input. -/
def md5UpdateBlocks (ctx : Ctx) (src : Bytes) (pos : ℕ) : Except Fault Ctx := do
  let srcLen ← subSize Fault.underflow src.length pos
  let off := srcLen % blockSize
  let stop ← subSize Fault.underflow (pos + srcLen) off
  let state ← md5UpdateLoop src stop src.length ctx.state pos
  let rest ← loadBytes .outOfBounds src stop off
  Ctx.store { ctx with state := state, off := off } 0 rest

/-- `md5_update()` -/
def md5Update (ctx : Ctx) (src : Bytes) : Except Fault Ctx := do
  let ctx := { ctx with len := ctx.len + BitVec.ofNat 64 src.length }
  if 0 < ctx.off then
    let remLen ← subSize Fault.underflow blockSize ctx.off
    if src.length < remLen then
      let stored ← ctx.store ctx.off src
      .ok { stored with off := ctx.off + src.length }
    else
      let part ← loadBytes .outOfBounds src 0 remLen
      let ctx ← ctx.store ctx.off part
      md5UpdateBlocks { ctx with state := md5UpdateOne ctx.state ctx.buf } src remLen
  else
    md5UpdateBlocks ctx src 0

/-- `memset()` to zero, from an offset of the buffer to another -/
def Ctx.zero (ctx : Ctx) (off stop : ℕ) : Except Fault Ctx := do
  let len ← subSize Fault.underflow stop off
  ctx.store off (List.replicate len 0)

/-- The bytes that `md5_digest()` stores at its second argument. -/
def md5Digest (ctx : Ctx) : Except Fault Bytes := do
  let off := ctx.off
  let ctx ← ctx.store off [0x80]
  let off := off + 1
  let (ctx, off) ← (if off > lastSize then do
      let ctx ← ctx.zero off blockSize
      .ok ({ ctx with state := md5UpdateOne ctx.state ctx.buf }, 0)
    else .ok (ctx, off) : Except Fault (Ctx × ℕ))
  let ctx ← ctx.zero off lastSize
  let ctx ← ctx.store lastSize (leBytes 8 (ctx.len * 8))
  let state := md5UpdateOne ctx.state ctx.buf
  .ok (leBytes 4 state.s0 ++ leBytes 4 state.s1 ++ leBytes 4 state.s2 ++ leBytes 4 state.s3)

/-- `md5_init()` on a context that may hold anything -/
def md5Init (ctx : Ctx) : Ctx :=
  { ctx with state := ⟨0x67452301, 0xefcdab89, 0x98badcfe, 0x10325476⟩, len := 0, off := 0 }

/-- One call of `md5_update()` after the other -/
def md5Updates (ctx : Ctx) (pieces : List Bytes) : Except Fault Ctx := pieces.foldlM md5Update ctx

end BookmarkFS.Md5
