import BookmarkFS.Library.Angles
import BookmarkFS.Library.Blocks
import BookmarkFS.Library.Text

/-! # MD5 as RFC 1321 has it

The message is padded to whole blocks, and each block takes the four registers
through four rounds of sixteen steps, which are written down one by one.
-/
namespace BookmarkFS.Md5.Rfc
open Library

abbrev Word := BitVec 32

abbrev Regs := Fin 4 → Word

def A : Fin 4 := 0
def B : Fin 4 := 1
def C : Fin 4 := 2
def D : Fin 4 := 3

def F (x y z : Word) : Word := (x &&& y) ||| (~~~x &&& z)
def G (x y z : Word) : Word := (x &&& z) ||| (y &&& ~~~z)
def H (x y z : Word) : Word := x ^^^ y ^^^ z
def I (x y z : Word) : Word := y ^^^ (x ||| ~~~z)

/-- The integer part of 4294967296 times `abs(sin(i))` -/
noncomputable def T (i : ℕ) : Word := BitVec.ofNat 32 ⌊(4294967296 : ℕ) * |Real.sin i|⌋₊

/-- `[abcd k s i]`, of which `a` tells the other registers -/
structure Step where
  a : Fin 4
  k : ℕ
  s : ℕ
  i : ℕ
  deriving DecidableEq

/-- a = b + ((a + f(b,c,d) + X[k] + T[i]) <<< s) -/
noncomputable def Step.run (f : Word → Word → Word → Word) (X : ℕ → Word) (r : Regs)
    (step : Step) : Regs :=
  let a := step.a
  let b := a + 1
  let c := a + 2
  let d := a + 3
  Function.update r a (r b + (r a + f (r b) (r c) (r d) + X step.k + T step.i).rotateLeft step.s)

def round1 : List Step := [
  ⟨A, 0, 7, 1⟩, ⟨D, 1, 12, 2⟩, ⟨C, 2, 17, 3⟩, ⟨B, 3, 22, 4⟩,
  ⟨A, 4, 7, 5⟩, ⟨D, 5, 12, 6⟩, ⟨C, 6, 17, 7⟩, ⟨B, 7, 22, 8⟩,
  ⟨A, 8, 7, 9⟩, ⟨D, 9, 12, 10⟩, ⟨C, 10, 17, 11⟩, ⟨B, 11, 22, 12⟩,
  ⟨A, 12, 7, 13⟩, ⟨D, 13, 12, 14⟩, ⟨C, 14, 17, 15⟩, ⟨B, 15, 22, 16⟩]

def round2 : List Step := [
  ⟨A, 1, 5, 17⟩, ⟨D, 6, 9, 18⟩, ⟨C, 11, 14, 19⟩, ⟨B, 0, 20, 20⟩,
  ⟨A, 5, 5, 21⟩, ⟨D, 10, 9, 22⟩, ⟨C, 15, 14, 23⟩, ⟨B, 4, 20, 24⟩,
  ⟨A, 9, 5, 25⟩, ⟨D, 14, 9, 26⟩, ⟨C, 3, 14, 27⟩, ⟨B, 8, 20, 28⟩,
  ⟨A, 13, 5, 29⟩, ⟨D, 2, 9, 30⟩, ⟨C, 7, 14, 31⟩, ⟨B, 12, 20, 32⟩]

def round3 : List Step := [
  ⟨A, 5, 4, 33⟩, ⟨D, 8, 11, 34⟩, ⟨C, 11, 16, 35⟩, ⟨B, 14, 23, 36⟩,
  ⟨A, 1, 4, 37⟩, ⟨D, 4, 11, 38⟩, ⟨C, 7, 16, 39⟩, ⟨B, 10, 23, 40⟩,
  ⟨A, 13, 4, 41⟩, ⟨D, 0, 11, 42⟩, ⟨C, 3, 16, 43⟩, ⟨B, 6, 23, 44⟩,
  ⟨A, 9, 4, 45⟩, ⟨D, 12, 11, 46⟩, ⟨C, 15, 16, 47⟩, ⟨B, 2, 23, 48⟩]

def round4 : List Step := [
  ⟨A, 0, 6, 49⟩, ⟨D, 7, 10, 50⟩, ⟨C, 14, 15, 51⟩, ⟨B, 5, 21, 52⟩,
  ⟨A, 12, 6, 53⟩, ⟨D, 3, 10, 54⟩, ⟨C, 10, 15, 55⟩, ⟨B, 1, 21, 56⟩,
  ⟨A, 8, 6, 57⟩, ⟨D, 15, 10, 58⟩, ⟨C, 6, 15, 59⟩, ⟨B, 13, 21, 60⟩,
  ⟨A, 4, 6, 61⟩, ⟨D, 11, 10, 62⟩, ⟨C, 2, 15, 63⟩, ⟨B, 9, 21, 64⟩]

/-- The words of a block, with the low-order byte of each given first -/
def words (block : Bytes) (k : ℕ) : Word :=
  let byte := fun i => (block.getD (4 * k + i) 0).toNat
  BitVec.ofNat 32 (byte 0 + 2 ^ 8 * byte 1 + 2 ^ 16 * byte 2 + 2 ^ 24 * byte 3)

/-- A block taken into the registers -/
noncomputable def process (r : Regs) (block : Bytes) : Regs :=
  let X := words block
  let r' := round1.foldl (Step.run F X) r
  let r' := round2.foldl (Step.run G X) r'
  let r' := round3.foldl (Step.run H X) r'
  let r' := round4.foldl (Step.run I X) r'
  fun x => r x + r' x

/-- The bytes of a number, the low-order byte first -/
def lowFirst (len n : ℕ) : Bytes := (List.range len).map fun i => UInt8.ofNat (n / 2 ^ (8 * i))

/-- The zero bytes after the first padding byte, so that eight bytes are left of the last block -/
def zeros (len : ℕ) : ℕ := (119 - len % 64) % 64

/-- The message with a single one bit, zero bits, and the low-order 64 bits of its length in bits -/
def pad (message : Bytes) : Bytes :=
  message ++ [0x80] ++ List.replicate (zeros message.length) 0 ++ lowFirst 8 (8 * message.length)

def initial : Regs := fun x => [0x67452301, 0xefcdab89, 0x98badcfe, 0x10325476].getD x 0

/-- The digest of a message -/
noncomputable def md5 (message : Bytes) : Bytes :=
  let r := foldBlocks process 64 initial (pad message)
  lowFirst 4 (r A).toNat ++ lowFirst 4 (r B).toNat ++ lowFirst 4 (r C).toNat ++
    lowFirst 4 (r D).toNat

end BookmarkFS.Md5.Rfc
