import BookmarkFS.Md5.Code
import BookmarkFS.Md5.Rfc

/-! # The digest of a message in pieces

Each step of the code is the step of the RFC, with the registers moved on by one
instead of the step. The buffer has what comes after the last whole block of the
message so far.
-/
namespace BookmarkFS.Md5
open Library

/-! ## One block -/

/-- The table has the sines, which are computed up to the angle 64 with an error that
does not matter. -/
theorem t0_eq {i : ℕ} (hi : i < 64) : t0.getD i 0 = Rfc.T (i + 1) := by
  have hall : ∀ i < 64, (t0.getD i 0).toNat * Angle.scale + 4294967296 * (Angle.integer i).e ≤
      4294967296 * (Angle.integer i).s.natAbs ∧
      4294967296 * ((Angle.integer i).s.natAbs + (Angle.integer i).e) <
      ((t0.getD i 0).toNat + 1) * Angle.scale := by
    decide +kernel
  obtain ⟨hlow, hhigh⟩ := hall i hi
  have hfloor := (Angle.integer_near i).floor_sin (by norm_num [Angle.scale]) hlow hhigh
  rw [Rfc.T, hfloor, BitVec.ofNat_toNat, BitVec.setWidth_eq]

def register (i : ℕ) : Fin 4 := ⟨(4 - i % 4) % 4, Nat.mod_lt _ (by decide)⟩

/-- The registers are those of the RFC, from the one on that the next step changes. -/
structure Moved (i : ℕ) (s : State) (r : Rfc.Regs) : Prop where
  s0 : s.s0 = r (register i)
  s1 : s.s1 = r (register i + 1)
  s2 : s.s2 = r (register i + 2)
  s3 : s.s3 = r (register i + 3)

theorem register_succ (i : ℕ) : register (i + 1) = register i + 3 := by
  have h : i % 4 < 4 := Nat.mod_lt _ (by decide)
  apply Fin.ext
  simp only [register, Fin.val_add]
  show (4 - (i + 1) % 4) % 4 = ((4 - i % 4) % 4 + 3) % 4
  omega

theorem rotl32_eq (v : U32) {n : ℕ} (h : n < 32) : rotl32 v n = v.rotateLeft n := by
  rw [rotl32, BitVec.rotateLeft_def, Nat.mod_eq_of_lt h]

/-- The step of the RFC that the code takes for an index. -/
def stepAt (j : ℕ → ℕ) (i : ℕ) : Rfc.Step :=
  ⟨register i, j i, t1.getD (i / 16 * 4 + i % 4) 0, i + 1⟩

theorem md5Op_moved {buf : List U32} {X : ℕ → Rfc.Word} (hbuf : ∀ k < 16, buf.getD k 0 = X k)
    {i : ℕ} (hi : i < 64) {s : State} {r : Rfc.Regs} (h : Moved i s r)
    (f : Rfc.Word → Rfc.Word → Rfc.Word → Rfc.Word) {j : ℕ → ℕ} (hj : j i < 16) :
    Moved (i + 1) (md5Op buf i s (f s.s1 s.s2 s.s3) (j i)) (Rfc.Step.run f X r (stepAt j i)) := by
  have hshift : t1.getD (i / 16 * 4 + i % 4) 0 < 32 := by
    have hall : ∀ n < 16, t1.getD n 0 < 32 := by decide
    exact hall _ (by omega)
  have hne : ∀ n : Fin 4, n ≠ 0 → register i + n ≠ register i := fun n hn h => hn (by simpa using h)
  have hstep : Rfc.Step.run f X r (stepAt j i) = Function.update r (register i)
    (r (register i + 1) +
      rotl32 (f s.s1 s.s2 s.s3 + s.s0 + t0.getD i 0 + buf.getD (j i) 0)
        (t1.getD (i / 16 * 4 + i % 4) 0)) := by
    rw [Rfc.Step.run, stepAt, rotl32_eq _ hshift, h.s0, h.s1, h.s2, h.s3, t0_eq hi, hbuf _ hj]
    congr 3
    ac_rfl
  rw [hstep]
  have h31 : register (i + 1) + 1 = register i := by rw [register_succ, add_assoc]; simp
  have h32 : register (i + 1) + 2 = register i + 1 := by rw [register_succ, add_assoc]; rfl
  have h33 : register (i + 1) + 3 = register i + 2 := by rw [register_succ, add_assoc]; rfl
  refine ⟨?_, ?_, ?_, ?_⟩
  · rw [register_succ, Function.update_of_ne (hne 3 (by decide))]
    exact h.s3
  · rw [h31, Function.update_self, ← h.s1]
    rfl
  · rw [h32, Function.update_of_ne (hne 1 (by decide))]
    exact h.s1
  · rw [h33, Function.update_of_ne (hne 2 (by decide))]
    exact h.s2

theorem round_moved {buf : List U32} {X : ℕ → Rfc.Word} (hbuf : ∀ k < 16, buf.getD k 0 = X k)
    (f : Rfc.Word → Rfc.Word → Rfc.Word → Rfc.Word) (j : ℕ → ℕ) (start n : ℕ)
    (hj : ∀ i, start ≤ i → i < start + n → j i < 16) (hn : start + n ≤ 64) {s : State}
    {r : Rfc.Regs} (h : Moved start s r) :
    Moved (start + n)
    ((List.range' start n).foldl (fun s i => md5Op buf i s (f s.s1 s.s2 s.s3) (j i)) s)
      (((List.range' start n).map (stepAt j)).foldl (Rfc.Step.run f X) r) := by
  induction n generalizing start s r with
  | zero => exact h
  | succ n ih =>
    rw [List.range'_succ, List.map_cons, List.foldl_cons, List.foldl_cons]
    have hnext := ih (start + 1) (fun i hi hlt => hj i (by omega) (by omega)) (by omega)
      (md5Op_moved hbuf (by omega) h f (hj start le_rfl (by omega)))
    rwa [show start + 1 + n = start + (n + 1) by omega] at hnext

theorem le32toh_eq (bytes : Bytes) : le32toh bytes = BitVec.ofNat 32 ((bytes.getD 0 0).toNat +
    2 ^ 8 * (bytes.getD 1 0).toNat + 2 ^ 16 * (bytes.getD 2 0).toNat +
    2 ^ 24 * (bytes.getD 3 0).toNat) := by
  rw [le32toh]
  generalize bytes.getD 0 0 = a
  generalize bytes.getD 1 0 = b
  generalize bytes.getD 2 0 = c
  generalize bytes.getD 3 0 = d
  have ha := a.toNat_lt
  have hb := b.toNat_lt
  have hc := c.toNat_lt
  have hd := d.toNat_lt
  apply BitVec.eq_of_toNat_eq
  simp only [BitVec.toNat_or, BitVec.toNat_shiftLeft, BitVec.toNat_setWidth, UInt8.toNat_toBitVec,
    BitVec.toNat_ofNat]
  have hmod : ∀ (x : UInt8) n, n ≤ 24 → (x.toNat % 2 ^ 32) <<< n % 2 ^ 32 = x.toNat <<< n := by
    intro x n hn
    have hx := x.toNat_lt
    rw [Nat.mod_eq_of_lt (show x.toNat < 2 ^ 32 by omega), Nat.mod_eq_of_lt]
    rw [Nat.shiftLeft_eq]
    calc x.toNat * 2 ^ n < 2 ^ 8 * 2 ^ n := by gcongr
      _ ≤ 2 ^ 8 * 2 ^ 24 := by gcongr; norm_num
      _ = 2 ^ 32 := by norm_num
  rw [hmod b 8 (by norm_num), hmod c 16 (by norm_num), hmod d 24 (by norm_num),
    Nat.mod_eq_of_lt (by omega : a.toNat < 2 ^ 32),
    Nat.or_comm a.toNat, ← Nat.shiftLeft_add_eq_or_of_lt ha,
    Nat.or_comm _ (c.toNat <<< 16),
    ← Nat.shiftLeft_add_eq_or_of_lt (by rw [Nat.shiftLeft_eq]; omega),
    Nat.or_comm _ (d.toNat <<< 24),
    ← Nat.shiftLeft_add_eq_or_of_lt (by rw [Nat.shiftLeft_eq, Nat.shiftLeft_eq]; omega)]
  simp only [Nat.shiftLeft_eq]
  omega

theorem words_eq {block : Bytes} {k : ℕ} (hk : k < 16) :
    ((List.range 16).map fun i => le32toh ((block.drop (4 * i)).take 4)).getD k 0 =
    Rfc.words block k := by
  have hbyte : ∀ m < 4, ((block.drop (4 * k)).take 4).getD m 0 = block.getD (4 * k + m) 0 := by
    intro m hm
    simp only [List.getD_eq_getElem?_getD, List.getElem?_take, hm, if_true, List.getElem?_drop]
  rw [List.getD_eq_getElem?_getD, List.getElem?_map, List.getElem?_range hk, Option.map_some,
    Option.getD_some,
    le32toh_eq, hbyte 0 (by omega), hbyte 1 (by omega), hbyte 2 (by omega), hbyte 3 (by omega)]
  rfl

def State.regs (s : State) : Rfc.Regs := fun x => [s.s0, s.s1, s.s2, s.s3].getD x 0

theorem moved_regs_iff {i : ℕ} (hi : i % 4 = 0) (s : State) (r : Rfc.Regs) : Moved i s r ↔
    r = s.regs := by
  have hregister : register i = 0 := by
    apply Fin.ext
    show (4 - i % 4) % 4 = 0
    omega
  constructor
  · rintro ⟨h0, h1, h2, h3⟩
    rw [hregister] at h0 h1 h2 h3
    funext x
    fin_cases x
    · exact h0.symm
    · exact h1.symm
    · exact h2.symm
    · exact h3.symm
  · rintro rfl
    exact ⟨by rw [hregister]; rfl, by rw [hregister]; rfl, by rw [hregister]; rfl, by
      rw [hregister]; rfl⟩

/-- The code takes a block into the registers as the RFC does. -/
theorem md5UpdateOne_regs (s : State) (block : Bytes) :
    (md5UpdateOne s block).regs = Rfc.process s.regs block := by
  have h0 : Moved 0 s s.regs := (moved_regs_iff rfl s _).mpr rfl
  have hbuf : ∀ k < 16, _ = Rfc.words block k := fun k hk => words_eq hk
  have h1 := round_moved hbuf Rfc.F (fun i => i) 0 16 (fun i _ hi => hi) (by decide) h0
  have h2 := round_moved hbuf Rfc.G (fun i => (i * 5 + 1) % 16) 16 16
    (fun i _ _ => Nat.mod_lt _ (by decide)) (by decide) h1
  have h3 := round_moved hbuf Rfc.H (fun i => (i * 3 + 5) % 16) 32 16
    (fun i _ _ => Nat.mod_lt _ (by decide)) (by decide) h2
  have h4 := round_moved hbuf Rfc.I (fun i => i * 7 % 16) 48 16
    (fun i _ _ => Nat.mod_lt _ (by decide)) (by decide) h3
  have hregs := (moved_regs_iff rfl _ _).mp h4
  funext x
  have hx := congrFun hregs x
  rw [show (List.range' 0 16).map (stepAt fun i => i) = Rfc.round1 by decide,
    show (List.range' 16 16).map (stepAt fun i => (i * 5 + 1) % 16) = Rfc.round2 by decide,
    show (List.range' 32 16).map (stepAt fun i => (i * 3 + 5) % 16) = Rfc.round3 by decide,
    show (List.range' 48 16).map (stepAt fun i => i * 7 % 16) = Rfc.round4 by decide] at hx
  rw [md5UpdateOne]
  show _ = s.regs x + _
  rw [hx]
  fin_cases x <;> rfl

theorem leBytes_eq {n : ℕ} (len : ℕ) (val : BitVec n) :
    leBytes len val = Rfc.lowFirst len val.toNat := by
  rw [leBytes, Rfc.lowFirst]
  refine List.map_congr_left fun i _ => ?_
  apply UInt8.toNat.inj
  simp [Nat.shiftRight_eq_div_pow]

theorem lowFirst_mod (n : ℕ) : Rfc.lowFirst 8 (n % 2 ^ 64) = Rfc.lowFirst 8 n := by
  refine List.map_congr_left fun i hi => ?_
  have hi : i < 8 := List.mem_range.mp hi
  apply UInt8.toNat.inj
  have hsplit : 2 ^ 64 = 2 ^ (8 * i) * (2 ^ 8 * 2 ^ (56 - 8 * i)) := by
    rw [← pow_add, ← pow_add]
    congr 1
    omega
  rw [UInt8.toNat_ofNat', UInt8.toNat_ofNat', hsplit, Nat.mod_mul_right_div_self]
  exact Nat.mod_mul_right_mod ..

/-! ## The buffer -/

theorem Ctx.store_ok (ctx : Ctx) {off : ℕ} {val : Bytes} (h : off + val.length ≤ blockSize) :
    ∃ ctx', ctx.store off val = .ok ctx' ∧ ctx'.state = ctx.state ∧ ctx'.len = ctx.len ∧
    ctx'.off = ctx.off ∧
      ctx'.buf = ctx.buf.take off ++ val ++ ctx.buf.drop (off + val.length) :=
  ⟨_, dif_pos h, rfl, rfl, rfl, rfl⟩

theorem Ctx.store_next (ctx : Ctx) (val : Bytes) {off : ℕ} {kept : Bytes}
    (hkept : ctx.buf.take off = kept)
    (hlen : kept.length = off) (h : off + val.length ≤ blockSize) :
    ∃ ctx', ctx.store off val = .ok ctx' ∧ ctx'.state = ctx.state ∧ ctx'.len = ctx.len ∧
    ctx'.off = ctx.off ∧
      ctx'.buf.take (off + val.length) = kept ++ val := by
  obtain ⟨ctx', hrun, hstate, hlen', hoff, hbuf⟩ := ctx.store_ok h
  refine ⟨ctx', hrun, hstate, hlen', hoff, ?_⟩
  rw [hbuf, hkept, ← hlen, ← List.length_append, List.take_left]

theorem Ctx.zero_next (ctx : Ctx) {off stop : ℕ} {kept : Bytes} (hkept : ctx.buf.take off = kept)
    (hlen : kept.length = off) (hle : off ≤ stop) (hstop : stop ≤ blockSize) :
    ∃ ctx', ctx.zero off stop = .ok ctx' ∧ ctx'.state = ctx.state ∧ ctx'.len = ctx.len ∧
      ctx'.buf.take stop = kept ++ List.replicate (stop - off) 0 := by
  have hsum : off + (List.replicate (stop - off) (0 : UInt8)).length = stop := by
    rw [List.length_replicate, Nat.add_sub_cancel' hle]
  obtain ⟨ctx', hrun, hstate, hlen', -, hbuf⟩ :=
    ctx.store_next (List.replicate (stop - off) 0) hkept hlen
    (by rwa [hsum])
  rw [hsum] at hbuf
  refine ⟨ctx', ?_, hstate, hlen', hbuf⟩
  rw [Ctx.zero, subSize_ok _ hle, ok_bind, hrun]

/-! ## One piece after the other -/

/-- Whole blocks of the input -/
theorem md5UpdateLoop_regs (src : Bytes) {stop : ℕ} (hstop : stop ≤ src.length) (fuel k pos : ℕ)
    (hpos : pos + blockSize * k = stop) (hfuel : k ≤ fuel) (state : State) :
    ∃ state', md5UpdateLoop src stop fuel state pos = .ok state' ∧
      state'.regs = foldBlocks Rfc.process blockSize state.regs
      ((src.drop pos).take (blockSize * k)) := by
  induction k generalizing fuel pos state with
  | zero =>
    refine ⟨state, ?_, ?_⟩
    · cases fuel <;> simp only [md5UpdateLoop, if_neg (show ¬pos < stop by omega)]
    · rw [Nat.mul_zero, List.take_zero, foldBlocks_of_lt (by decide)]
  | succ k ih =>
    obtain ⟨fuel, rfl⟩ :=
      Nat.exists_eq_add_of_le' (Nat.one_le_of_lt (Nat.lt_of_lt_of_le k.lt_succ_self hfuel))
    have hblock : pos + blockSize ≤ src.length := by rw [Nat.mul_succ] at hpos; omega
    obtain ⟨hload, hlength⟩ := loadBytes_ok Fault.outOfBounds hblock
    obtain ⟨state', hrun, hregs⟩ := ih fuel (pos + blockSize) (by rw [Nat.mul_succ] at hpos; omega)
      (by omega) (md5UpdateOne state ((src.drop pos).take blockSize))
    refine ⟨state', ?_, ?_⟩
    · rw [md5UpdateLoop, if_pos (by rw [Nat.mul_succ, blockSize] at hpos; omega), hload,
        ok_bind, hrun]
    · rw [hregs, md5UpdateOne_regs, ← foldBlocks_block (by decide) hlength, Nat.mul_succ,
        Nat.add_comm (blockSize * k) blockSize, List.take_add, List.drop_drop]

theorem md5UpdateBlocks_ok (ctx : Ctx) {src : Bytes} {pos : ℕ} (hpos : pos ≤ src.length) :
    ∃ ctx', md5UpdateBlocks ctx src pos = .ok ctx' ∧ ctx'.len = ctx.len ∧
      ctx'.off = (src.length - pos) % blockSize ∧
      ctx'.state.regs = foldBlocks Rfc.process blockSize ctx.state.regs (src.drop pos) ∧
      ctx'.buf.take ctx'.off = lastBlock blockSize (src.drop pos) := by
  have hdiv := Nat.div_add_mod (src.length - pos) blockSize
  have hlt := Nat.mod_lt (src.length - pos) (show 0 < blockSize by decide)
  have hstop : pos + (src.length - pos) - (src.length - pos) % blockSize =
      pos + blockSize * ((src.length - pos) / blockSize) := by omega
  obtain ⟨state, hloop, hregs⟩ := md5UpdateLoop_regs src
    (show pos + blockSize * ((src.length - pos) / blockSize) ≤ src.length by omega)
      src.length _ pos rfl
    (Nat.div_le_of_le_mul (by rw [blockSize]; omega)) ctx.state
  obtain ⟨hload, hlength⟩ := loadBytes_ok Fault.outOfBounds
    (show pos + blockSize * ((src.length - pos) / blockSize) + (src.length - pos) % blockSize ≤
      src.length by omega)
  have hrest : (src.drop (pos + blockSize * ((src.length - pos) / blockSize))).take
    ((src.length - pos) % blockSize) =
      lastBlock blockSize (src.drop pos) := by
    rw [lastBlock, List.length_drop, List.drop_drop, List.take_of_length_le]
    rw [List.length_drop]
    omega
  rw [hrest] at hload hlength
  obtain ⟨ctx', hrun, hstate, hlen, hoff, hbuf⟩ := Ctx.store_next
    { ctx with state := state, off := (src.length - pos) % blockSize }
      (lastBlock blockSize (src.drop pos))
    (List.take_zero ..) rfl (by rw [hlength]; omega)
  refine ⟨ctx', ?_, hlen, hoff, ?_, ?_⟩
  · rw [md5UpdateBlocks, subSize_ok _ hpos, ok_bind]
    dsimp only
    rw [subSize_ok _ (by omega), ok_bind, hstop, hloop, ok_bind, hload, ok_bind, hrun]
  · rw [hstate]
    show state.regs = _
    rw [hregs, ← foldBlocks_whole (by decide) ctx.state.regs (src.drop pos), List.length_drop]
  · rw [hoff]
    rw [hlength, Nat.zero_add, List.nil_append] at hbuf
    exact hbuf

/-- What is in a context that a message has been fed to -/
structure Fed (ctx : Ctx) (message : Bytes) : Prop where
  len : ctx.len = BitVec.ofNat 64 message.length
  off : ctx.off = message.length % blockSize
  regs : ctx.state.regs = foldBlocks Rfc.process blockSize Rfc.initial message
  kept : ctx.buf.take ctx.off = lastBlock blockSize message

theorem md5Init_fed (ctx : Ctx) : Fed (md5Init ctx) [] := by
  refine ⟨rfl, rfl, ?_, rfl⟩
  funext x
  fin_cases x <;> rfl

theorem Fed.kept_length {ctx : Ctx} {message : Bytes} (h : Fed ctx message) :
    (lastBlock blockSize message).length = ctx.off := lastBlock_length.trans h.off.symm

section Update

variable {ctx : Ctx} {message : Bytes} (h : Fed ctx message) (src : Bytes)

include h

theorem Fed.len_append : ctx.len + BitVec.ofNat 64 src.length = BitVec.ofNat 64
    (message ++ src).length := by
  rw [h.len, List.length_append, BitVec.ofNat_add]

theorem Fed.resume :
    foldBlocks Rfc.process blockSize Rfc.initial (message ++ src) =
        foldBlocks Rfc.process blockSize ctx.state.regs (lastBlock blockSize message ++ src) ∧
      lastBlock blockSize (message ++ src) = lastBlock blockSize
      (lastBlock blockSize message ++ src) := by
  obtain ⟨hfold, hlast⟩ :=
    foldBlocks_resume (f := Rfc.process) (show 0 < blockSize by decide) Rfc.initial message src
  rw [← h.regs] at hfold
  exact ⟨hfold, hlast⟩

theorem md5Update_start (hoff : ctx.off = 0) : ∃ ctx', md5Update ctx src = .ok ctx' ∧
    Fed ctx' (message ++ src) := by
  obtain ⟨hfold, hlast⟩ := h.resume src
  have hkept : lastBlock blockSize message = [] :=
    List.eq_nil_of_length_eq_zero (by rw [h.kept_length, hoff])
  rw [hkept, List.nil_append] at hfold hlast
  obtain ⟨ctx', hrun, hlen', hoff', hregs, hbuf⟩ := md5UpdateBlocks_ok
    { ctx with len := ctx.len + BitVec.ofNat 64 src.length } (Nat.zero_le src.length)
  refine ⟨ctx', ?_, hlen'.trans (h.len_append src), ?_, ?_, ?_⟩
  · rw [md5Update]
    dsimp only
    rw [if_neg (by omega), hrun]
  · rw [hoff', Nat.sub_zero, List.length_append, Nat.add_mod, ← h.off, hoff]
    simp
  · rw [hregs, hfold, List.drop_zero]
  · rw [hbuf, hlast, List.drop_zero]

variable {rem : ℕ} (hrem : ctx.off + rem = blockSize)

include hrem

/-- Where the piece does not complete the block -/
theorem md5Update_short (hshort : src.length < rem) :
    ∃ ctx', (do
      let stored ← Ctx.store { ctx with len := ctx.len + BitVec.ofNat 64 src.length } ctx.off src
      .ok { stored with off := ctx.off + src.length }) = .ok ctx' ∧ Fed ctx' (message ++ src) := by
  obtain ⟨hfold, hlast⟩ := h.resume src
  have hboth : (lastBlock blockSize message ++ src).length < blockSize := by
    rw [List.length_append, h.kept_length]
    omega
  obtain ⟨stored, hstore, hstate, hlen', -, hbuf⟩ := Ctx.store_next
    { ctx with len := ctx.len + BitVec.ofNat 64 src.length } src h.kept h.kept_length
    (by rw [← h.kept_length, ← List.length_append]; exact hboth.le)
  rw [hstore, ok_bind]
  refine ⟨_, rfl, hlen'.trans (h.len_append src), ?_, ?_, ?_⟩
  · rw [List.length_append, Nat.add_mod, ← h.off,
      Nat.mod_eq_of_lt (show src.length < blockSize by omega),
      Nat.mod_eq_of_lt (by omega)]
  · rw [hfold, foldBlocks_of_lt hboth]
    exact congrArg State.regs hstate
  · rw [hlast, lastBlock_of_lt hboth]
    exact hbuf

/-- Where it does, and others may follow -/
theorem md5Update_block (hlong : rem ≤ src.length) :
    ∃ ctx', (do
      let part ← loadBytes Fault.outOfBounds src 0 rem
      let ctx ← Ctx.store { ctx with len := ctx.len + BitVec.ofNat 64 src.length } ctx.off part
      md5UpdateBlocks { ctx with state := md5UpdateOne ctx.state ctx.buf } src rem) = .ok ctx' ∧
      Fed ctx' (message ++ src) := by
  obtain ⟨hfold, hlast⟩ := h.resume src
  obtain ⟨hload, hlength⟩ := loadBytes_ok Fault.outOfBounds (show 0 + rem ≤ src.length by omega)
  rw [List.drop_zero] at hload hlength
  have hblock : (lastBlock blockSize message ++ src.take rem).length = blockSize := by
    rw [List.length_append, h.kept_length, hlength, hrem]
  obtain ⟨stored, hstore, hstate, hlen', -, hbuf⟩ := Ctx.store_next
    { ctx with len := ctx.len + BitVec.ofNat 64 src.length } (src.take rem) h.kept h.kept_length
    (by rw [hlength, hrem])
  rw [hlength, hrem, List.take_of_length_le stored.buf_length.le] at hbuf
  obtain ⟨ctx', hrun, hlen'', hoff', hregs, hbuf'⟩ := md5UpdateBlocks_ok
    { stored with state := md5UpdateOne stored.state stored.buf } hlong
  have hsplit : lastBlock blockSize message ++ src =
      (lastBlock blockSize message ++ src.take rem) ++ src.drop rem := by
    rw [List.append_assoc, List.take_append_drop]
  rw [hload, ok_bind, hstore, ok_bind]
  refine ⟨ctx', hrun, hlen''.trans (hlen'.trans (h.len_append src)), ?_, ?_, ?_⟩
  · rw [hoff', ← List.length_drop, ← lastBlock_length, ← lastBlock_block (by decide)
      hblock, ← hsplit, ← hlast,
      lastBlock_length]
  · rw [hregs, hfold, hsplit, foldBlocks_block (by decide) hblock]
    show foldBlocks _ _ (md5UpdateOne stored.state stored.buf).regs _ = _
    rw [md5UpdateOne_regs, hbuf, hstate]
  · rw [hbuf', hlast, hsplit, lastBlock_block (by decide) hblock]

end Update

theorem md5Update_fed {ctx : Ctx} {message : Bytes} (h : Fed ctx message) (src : Bytes) :
    ∃ ctx', md5Update ctx src = .ok ctx' ∧ Fed ctx' (message ++ src) := by
  have hlt : ctx.off < blockSize := h.off.trans_lt (Nat.mod_lt _ (by decide))
  by_cases hoff : ctx.off = 0
  · exact md5Update_start h src hoff
  obtain ⟨rem, hrem⟩ : ∃ rem, ctx.off + rem = blockSize := ⟨blockSize - ctx.off, by omega⟩
  have hsub : subSize Fault.underflow blockSize ctx.off = .ok rem := by
    rw [subSize_ok _ (by omega)]
    congr 1
    omega
  rw [md5Update]
  dsimp only
  rw [if_pos (Nat.pos_of_ne_zero hoff), hsub, ok_bind]
  split
  next hshort => exact md5Update_short h src hrem hshort
  next hlong => exact md5Update_block h src hrem (not_lt.mp hlong)

/-! ## The end of the message -/

theorem pad_spilled {message : Bytes} (h : lastSize < message.length % blockSize + 1) :
    List.replicate (Rfc.zeros message.length) (0 : UInt8) =
      List.replicate (blockSize - (message.length % blockSize + 1)) 0 ++
      List.replicate lastSize 0 := by
  rw [← List.replicate_add]
  congr 1
  simp only [Rfc.zeros, blockSize, lastSize] at h ⊢
  omega

theorem pad_fits {message : Bytes} (h : ¬lastSize < message.length % blockSize + 1) :
    List.replicate (Rfc.zeros message.length) (0 : UInt8) =
      List.replicate (lastSize - (message.length % blockSize + 1)) 0 := by
  congr 1
  simp only [Rfc.zeros, blockSize, lastSize] at h ⊢
  omega

/-- The last block, from the first of its bytes that are not known yet. -/
theorem finish_ok (ctx : Ctx) (message : Bytes) {off : ℕ} {kept : Bytes}
    (hkept : ctx.buf.take off = kept) (hlength : kept.length = off) (hoff : off ≤ lastSize)
    (hlen : ctx.len = BitVec.ofNat 64 message.length) :
    ∃ zeroed stored, ctx.zero off lastSize = .ok zeroed ∧
      zeroed.store lastSize (leBytes 8 (zeroed.len * 8)) = .ok stored ∧
      (md5UpdateOne stored.state stored.buf).regs = foldBlocks Rfc.process blockSize ctx.state.regs
        (kept ++ List.replicate (lastSize - off) 0 ++ Rfc.lowFirst 8 (8 * message.length)) := by
  obtain ⟨zeroed, hzero, hstate, hlen', hbuf⟩ := ctx.zero_next hkept hlength hoff (by decide)
  have hbytes : leBytes 8 (zeroed.len * 8) = Rfc.lowFirst 8 (8 * message.length) := by
    rw [leBytes_eq, hlen', hlen, ← lowFirst_mod (8 * message.length)]
    congr 1
    rw [BitVec.toNat_mul, BitVec.toNat_ofNat, show (8 : BitVec 64).toNat = 8 from rfl]
    omega
  have hzeroed : (kept ++ List.replicate (lastSize - off) (0 : UInt8)).length = lastSize := by
    rw [List.length_append, List.length_replicate, hlength, Nat.add_sub_cancel' hoff]
  have hnum : (Rfc.lowFirst 8 (8 * message.length)).length = 8 := by simp [Rfc.lowFirst]
  obtain ⟨stored, hstore, hstate', -, -, hbuf'⟩ := zeroed.store_next
    (Rfc.lowFirst 8 (8 * message.length)) hbuf hzeroed (by rw [hnum]; decide)
  refine ⟨zeroed, stored, hzero, by rw [hbytes, hstore], ?_⟩
  rw [hnum, List.take_of_length_le (stored.buf_length.le.trans (by decide))] at hbuf'
  have hblock : (kept ++ List.replicate (lastSize - off) 0 ++ Rfc.lowFirst 8
    (8 * message.length)).length =
      blockSize := by rw [List.length_append, hzeroed, hnum]; rfl
  rw [foldBlocks_one (by decide) hblock, md5UpdateOne_regs, hbuf', hstate', hstate]

theorem md5Digest_fed {ctx : Ctx} {message : Bytes} (h : Fed ctx message) :
    md5Digest ctx = .ok (Rfc.md5 message) := by
  have hlt : ctx.off < blockSize := h.off.trans_lt (Nat.mod_lt _ (by decide))
  obtain ⟨marked, hmark, hstate, hlen, -, hbuf⟩ := ctx.store_next [0x80] h.kept h.kept_length hlt
  replace hbuf : marked.buf.take (ctx.off + 1) = lastBlock blockSize message ++ [0x80] := hbuf
  have hmarked : (lastBlock blockSize message ++ [0x80]).length = ctx.off + 1 := by
    rw [List.length_append, h.kept_length]
    rfl
  have hfold := (foldBlocks_resume (f := Rfc.process) (show 0 < blockSize by decide)
    Rfc.initial message
    ([0x80] ++ List.replicate (Rfc.zeros message.length) 0 ++ Rfc.lowFirst 8
      (8 * message.length))).1
  rw [← h.regs, ← hstate] at hfold
  -- the registers at the end are those of the RFC, and so are the bytes
  have hend : ∀ s : State, s.regs = foldBlocks Rfc.process blockSize Rfc.initial (Rfc.pad message) →
      leBytes 4 s.s0 ++ leBytes 4 s.s1 ++ leBytes 4 s.s2 ++ leBytes 4 s.s3 = Rfc.md5 message := by
    intro s hs
    have hregs : ∀ x, foldBlocks Rfc.process 64 Rfc.initial (Rfc.pad message) x = s.regs x :=
      fun x => (congrFun hs x).symm
    simp only [Rfc.md5, hregs, leBytes_eq]
    rfl
  have hpad : Rfc.pad message = message ++
      ([0x80] ++ List.replicate (Rfc.zeros message.length) 0 ++ Rfc.lowFirst 8
      (8 * message.length)) := by
    simp only [Rfc.pad, List.append_assoc]
  rw [md5Digest]
  dsimp only
  rw [hmark, ok_bind]
  by_cases hspill : lastSize < ctx.off + 1
  · -- the length goes to a block of its own
    obtain ⟨filled, hfill, hstate', hlen', hbuf'⟩ := marked.zero_next hbuf hmarked hlt le_rfl
    rw [List.take_of_length_le filled.buf_length.le] at hbuf'
    have hblock : (lastBlock blockSize message ++ [0x80] ++ List.replicate
      (blockSize - (ctx.off + 1)) 0).length =
        blockSize := by rw [← hbuf', filled.buf_length]
    obtain ⟨zeroed, stored, hzero, hstore, hregs⟩ := finish_ok
      { filled with state := md5UpdateOne filled.state filled.buf } message (List.take_zero ..) rfl
        (Nat.zero_le _)
      (hlen'.trans (hlen.trans h.len))
    rw [if_pos hspill, hfill, ok_bind, ok_bind, hzero, ok_bind, hstore, ok_bind]
    refine congrArg Except.ok (hend (md5UpdateOne stored.state stored.buf) ?_)
    rw [hregs, hpad, hfold, pad_spilled (by rwa [← h.off]), ← h.off]
    simp only [Nat.sub_zero, List.nil_append]
    rw [md5UpdateOne_regs, hstate', hbuf', ← foldBlocks_block (by decide) hblock]
    simp only [List.append_assoc]
  · obtain ⟨zeroed, stored, hzero, hstore, hregs⟩ :=
      finish_ok marked message hbuf hmarked (not_lt.mp hspill)
      (hlen.trans h.len)
    rw [if_neg hspill, ok_bind, hzero, ok_bind, hstore, ok_bind]
    refine congrArg Except.ok (hend (md5UpdateOne stored.state stored.buf) ?_)
    rw [hregs, hpad, hfold, pad_fits (by rwa [← h.off]), ← h.off]
    simp only [List.append_assoc]

theorem md5Updates_fed {ctx : Ctx} {message : Bytes} (h : Fed ctx message) (pieces : List Bytes) :
    ∃ ctx', md5Updates ctx pieces = .ok ctx' ∧ Fed ctx' (message ++ pieces.flatten) := by
  induction pieces generalizing ctx message with
  | nil => exact ⟨ctx, rfl, by simpa using h⟩
  | cons piece pieces ih =>
    obtain ⟨ctx₁, hrun, hfed⟩ := md5Update_fed h piece
    obtain ⟨ctx₂, hrun', hfed'⟩ := ih hfed
    refine ⟨ctx₂, ?_, by rwa [List.flatten_cons, ← List.append_assoc]⟩
    rw [md5Updates, List.foldlM_cons, hrun]
    exact hrun'

/-- Whatever pieces a message comes in, nothing is used outside of the buffer, which always has as
many bytes as there are after the last whole block, and the digest is the one of the RFC. -/
theorem md5_digest (ctx : Ctx) (pieces : List Bytes) :
    ∃ ctx', md5Updates (md5Init ctx) pieces = .ok ctx' ∧ ctx'.off = pieces.flatten.length % 64 ∧
      md5Digest ctx' = .ok (Rfc.md5 pieces.flatten) := by
  obtain ⟨ctx', hrun, hfed⟩ := md5Updates_fed (md5Init_fed ctx) pieces
  exact ⟨ctx', hrun, hfed.off, md5Digest_fed hfed⟩

def anyCtx : Ctx := ⟨⟨1, 2, 3, 4⟩, 5, 6, List.replicate blockSize 7, by decide⟩

/-- The digest of `abc` -/
example : (md5Updates (md5Init anyCtx) [[97, 98], [], [99]] >>= md5Digest) = .ok
    [0x90, 0x01, 0x50, 0x98, 0x3c, 0xd2, 0x4f, 0xb0, 0xd6, 0x96, 0x3f, 0x7d, 0x28, 0xe1,
      0x7f, 0x72] := by
  decide +kernel

end BookmarkFS.Md5
