import BookmarkFS.Library.Memory

/-! # Buffered output of JSON text

The text comes in chunks, which are gathered in a buffer. When it overflows, the
buffer and a part of the chunk are written together, so that what has been written
ends at a block of the file. The system call may write less than it is given, or
be interrupted, at any time.
-/
namespace BookmarkFS.Dump
open Library

inductive Fault where
  /-- Memory is used outside of an array. -/
  | outOfBounds
  /-- A `size_t` would be negative. -/
  | underflow
  /-- A `size_t` would be too large. -/
  | overflow
  | divideByZero
  deriving DecidableEq

/-- The bits of `size_t` -/
def sizeBits : ℕ := 64

def addSize (a b : ℕ) : Except Fault ℕ := if a + b < 2 ^ sizeBits then .ok (a + b)
    else .error .overflow

def modSize (a b : ℕ) : Except Fault ℕ := if b = 0 then .error .divideByZero else .ok (a % b)

/-! ## Writing vectors -/

/-- The result of a call of `writev()`: how many bytes it would write at most, or an error. -/
inductive Writev where
  | wrote (nbytes : ℕ)
  | eintr
  /-- `EIO`, or `EINTEGRITY` where there is one -/
  | eio
  | failed
  deriving DecidableEq

/-- A file descriptor: what has been written to it, and what the next calls will do. -/
structure Fd where
  content : Bytes
  calls : List Writev
  deriving DecidableEq

inductive Status where
  | success
  | failure
  | aborted
  /-- A call of `writev()` has not returned. -/
  | pending
  deriving DecidableEq

/-- `struct iovec` -/
structure Iovec where
  mem : Bytes
  base : ℕ
  len : ℕ
  deriving DecidableEq

/-- What `writev()` reads. -/
def readIov : List Iovec → Except Fault Bytes
  | [] => .ok []
  | v :: iov => do
    let part ← loadBytes .outOfBounds v.mem v.base v.len
    let rest ← readIov iov
    .ok (part ++ rest)

/-- The inner loop of `xwritev()`: the vectors that are left, or `none` when there are none. -/
def advance : ℕ → List Iovec → Except Fault (Option (List Iovec))
  | _, [] => .error .outOfBounds
  | nbytes, v :: iov =>
    if nbytes ≥ v.len then
      if iov = [] then
        .ok none
      else do
        let nbytes ← subSize Fault.underflow nbytes v.len
        advance nbytes iov
    else do
      let len ← subSize Fault.underflow v.len nbytes
      .ok (some ({ v with base := v.base + nbytes, len := len } :: iov))

/-- The outer loop of `xwritev()`, over the calls to come. -/
def xwritevLoop : List Writev → Bytes → List Iovec → Except Fault (Status × Fd)
  | [], content, _ => .ok (.pending, ⟨content, []⟩)
  | .eintr :: calls, content, iov => xwritevLoop calls content iov
  | .eio :: calls, content, _ => .ok (.aborted, ⟨content, calls⟩)
  | .failed :: calls, content, _ => .ok (.failure, ⟨content, calls⟩)
  | .wrote most :: calls, content, iov => do
    let bytes ← readIov iov
    let nbytes := min most bytes.length
    match ← advance nbytes iov with
    | none => .ok (.success, ⟨content ++ bytes.take nbytes, calls⟩)
    | some iov => xwritevLoop calls (content ++ bytes.take nbytes) iov

/-- `xwritev()` -/
def xwritev (fd : Fd) (iov : List Iovec) : Except Fault (Status × Fd) :=
  xwritevLoop fd.calls fd.content iov

/-! ## The buffer -/

/-- `DUMP_BUFSIZE` -/
def dumpBufsize : ℕ := 32 * 1024

/-- A chunk of text, which is in memory beside the buffer. -/
abbrev Chunk := { text : Bytes // text.length + dumpBufsize < 2 ^ sizeBits }

/-- `struct dump_ctx` -/
structure DumpCtx where
  fd : Fd
  blksize : ℕ
  dataLen : ℕ
  buf : Bytes

/-- `dump_cb()` -/
def dumpCb (ctx : DumpCtx) (chunk : Chunk) : Except Fault (Status × DumpCtx) := do
  let buf := chunk.val
  let newLen ← addSize ctx.dataLen buf.length
  if newLen ≤ dumpBufsize then
    let stored ← storeBytes .outOfBounds ctx.buf ctx.dataLen buf
    .ok (.success, { ctx with buf := stored, dataLen := newLen })
  else
    let newLen ← modSize newLen ctx.blksize
    let bufLen ← subSize Fault.underflow buf.length newLen
    match ← xwritev ctx.fd [⟨ctx.buf, 0, ctx.dataLen⟩, ⟨buf, 0, bufLen⟩] with
    | (.success, fd) => do
      let rest ← loadBytes .outOfBounds buf bufLen newLen
      let stored ← storeBytes .outOfBounds ctx.buf 0 rest
      .ok (.success, { ctx with fd := fd, buf := stored, dataLen := newLen })
    | (status, fd) => .ok (status, { ctx with fd := fd })

/-- The calls of `dump_cb()` by `json_dump_callback()`, which ends at the first that does
not succeed. -/
def dumpCbs : DumpCtx → List Chunk → Except Fault (Status × DumpCtx)
  | ctx, [] => .ok (.success, ctx)
  | ctx, chunk :: chunks => do
    match ← dumpCb ctx chunk with
    | (.success, ctx) => dumpCbs ctx chunks
    | (status, ctx) => .ok (status, ctx)

/-- What `json_dumpfd_ex()` finds: the block size that `fstat()` reports if it succeeds, what is in
the memory of the buffer, whether `json_dump_callback()` succeeds where its callback does, and
whether `xfsync()` does. -/
structure Env where
  stBlksize : Option ℕ
  mem : ℕ → UInt8
  encodes : Bool
  synced : Bool

def blockSize (stBlksize : ℕ) : ℕ :=
  if stBlksize = 0 ∨ dumpBufsize % stBlksize ≠ 0 then dumpBufsize else stBlksize

/-- `json_dumpfd_ex()` on a value whose text comes in these chunks. -/
def jsonDumpfdEx (env : Env) (fd : Fd) (chunks : List Chunk) : Except Fault (Status × Fd) := do
  match env.stBlksize with
  | none => .ok (.failure, fd)
  | some stBlksize =>
    let buf := (List.range dumpBufsize).map env.mem
    match ← dumpCbs ⟨fd, blockSize stBlksize, 0, buf⟩ chunks with
    | (.success, ctx) =>
      if env.encodes = false then .ok (.failure, ctx.fd)
      else if 0 < ctx.dataLen then
        match ← xwritev ctx.fd [⟨ctx.buf, 0, ctx.dataLen⟩] with
        | (.success, fd) => .ok (if env.synced then .success else .failure, fd)
        | (status, fd) => .ok (status, fd)
      else .ok (if env.synced then .success else .failure, ctx.fd)
    | (status, ctx) => .ok (status, ctx.fd)

/-! ## What is written -/

theorem addSize_ok {a b : ℕ} (h : a + b < 2 ^ sizeBits) : addSize a b = .ok (a + b) := if_pos h

def Iovec.Valid (v : Iovec) : Prop := v.base + v.len ≤ v.mem.length

def Iovec.bytes (v : Iovec) : Bytes := (v.mem.drop v.base).take v.len

theorem Iovec.Valid.length {v : Iovec} (h : v.Valid) : v.bytes.length = v.len :=
  (loadBytes_ok Fault.outOfBounds h).2

theorem readIov_ok {iov : List Iovec} (h : ∀ v ∈ iov, v.Valid) :
    readIov iov = .ok (iov.flatMap Iovec.bytes) := by
  induction iov with
  | nil => rfl
  | cons v iov ih =>
    obtain ⟨hv, hiov⟩ := List.forall_mem_cons.mp h
    rw [readIov, (loadBytes_ok Fault.outOfBounds hv).1, ok_bind, ih hiov, ok_bind,
      List.flatMap_cons]
    rfl

/-- The vectors that are left have the bytes that are left. -/
theorem advance_ok {iov : List Iovec} (hne : iov ≠ []) (h : ∀ v ∈ iov, v.Valid) {nbytes : ℕ}
    (hle : nbytes ≤ (iov.flatMap Iovec.bytes).length) :
    (advance nbytes iov = .ok none ∧ nbytes = (iov.flatMap Iovec.bytes).length) ∨
      ∃ iov', advance nbytes iov = .ok (some iov') ∧ nbytes < (iov.flatMap Iovec.bytes).length ∧
      iov' ≠ [] ∧
        (∀ v ∈ iov', v.Valid) ∧
        iov'.flatMap Iovec.bytes = (iov.flatMap Iovec.bytes).drop nbytes := by
  induction iov generalizing nbytes with
  | nil => exact absurd rfl hne
  | cons v iov ih =>
    obtain ⟨hv, hiov⟩ := List.forall_mem_cons.mp h
    rw [List.flatMap_cons, List.length_append, hv.length] at hle
    rw [advance, List.flatMap_cons]
    by_cases hall : nbytes ≥ v.len
    · rw [if_pos hall]
      by_cases hlast : iov = []
      · subst hlast
        rw [if_pos rfl]
        refine .inl ⟨rfl, ?_⟩
        rw [List.flatMap_nil, List.length_nil] at hle
        rw [List.flatMap_nil, List.append_nil, hv.length]
        omega
      · rw [if_neg hlast, subSize_ok _ hall, ok_bind]
        have hdrop : (v.bytes ++ iov.flatMap Iovec.bytes).drop nbytes =
            (iov.flatMap Iovec.bytes).drop (nbytes - v.len) := by
          rw [List.drop_append, hv.length, List.drop_of_length_le (hv.length.trans_le hall),
            List.nil_append]
        obtain ⟨hrun, hlen⟩ | ⟨iov', hrun, hlt, hne', hvalid, hbytes⟩ := ih hlast hiov
          (show nbytes - v.len ≤ (iov.flatMap Iovec.bytes).length by omega)
        · refine .inl ⟨hrun, ?_⟩
          rw [List.length_append, hv.length]
          omega
        · refine .inr ⟨iov', hrun, ?_, hne', hvalid, hbytes.trans hdrop.symm⟩
          rw [List.length_append, hv.length]
          omega
    · -- the write has stopped inside this vector
      rw [if_neg hall, subSize_ok _ (by omega), ok_bind]
      refine .inr ⟨_, rfl, ?_, List.cons_ne_nil _ _, ?_, ?_⟩
      · rw [List.length_append, hv.length]
        omega
      · rw [List.forall_mem_cons]
        refine ⟨?_, hiov⟩
        show v.base + nbytes + (v.len - nbytes) ≤ v.mem.length
        have hv : v.base + v.len ≤ v.mem.length := hv
        omega
      · have hrest : Iovec.bytes { v with base := v.base + nbytes, len := v.len - nbytes } =
          v.bytes.drop nbytes := by
          rw [Iovec.bytes, Iovec.bytes, List.drop_take, List.drop_drop]
        rw [List.flatMap_cons, hrest, List.drop_append_of_le_length (by rw [hv.length]; omega)]

/-- The bytes that have been written are the first ones, and all of them in the end. -/
structure Written (bytes content : Bytes) (status : Status) (fd : Fd) : Prop where
  start : ∃ k, fd.content = content ++ bytes.take k
  whole : status = .success → fd.content = content ++ bytes

/-- A call that makes some progress, or may be made again -/
def Writev.Goes : Writev → Prop
  | .wrote most => 0 < most
  | .eintr => True
  | .eio | .failed => False

def Writev.writes : Writev → Bool
  | .wrote _ => true
  | _ => false

/-- None of the next calls fails, and at least `n` of them write. -/
structure Fd.Goes (fd : Fd) (n : ℕ) : Prop where
  goes : ∀ call ∈ fd.calls, call.Goes
  many : n ≤ fd.calls.countP Writev.writes

theorem Fd.Goes.mono {fd : Fd} {m n : ℕ} (h : fd.Goes n) (hle : m ≤ n) : fd.Goes m :=
    ⟨h.goes, hle.trans h.many⟩

theorem xwritevLoop_written {iov : List Iovec} (hne : iov ≠ []) (h : ∀ v ∈ iov, v.Valid)
    (calls : List Writev) (content : Bytes) :
    ∃ status fd, xwritevLoop calls content iov = .ok (status, fd) ∧
      Written (iov.flatMap Iovec.bytes) content status fd ∧
      ∀ n, Fd.Goes ⟨content, calls⟩ ((iov.flatMap Iovec.bytes).length + 1 + n) → status = .success ∧
      fd.Goes n := by
  have hnone : ∀ bytes content : Bytes, ∃ k, content = content ++ bytes.take k :=
    fun _ _ => ⟨0, by simp⟩
  induction calls generalizing content iov with
  | nil =>
    refine ⟨_, _, rfl, ⟨hnone _ _, nofun⟩, fun n hgoes => ?_⟩
    have := hgoes.many
    rw [List.countP_nil] at this
    omega
  | cons call calls ih =>
    cases call with
    | eintr =>
      obtain ⟨status, fd, hloop, hwritten, hsucceeds⟩ := ih hne h content
      refine ⟨status, fd, hloop, hwritten, fun n hgoes => hsucceeds n ⟨fun c hc => ?_, ?_⟩⟩
      · exact hgoes.goes c (List.mem_cons_of_mem _ hc)
      · exact hgoes.many.trans (List.countP_cons_of_neg Bool.false_ne_true).le
    | eio =>
      exact ⟨_, _, rfl, ⟨hnone _ _, nofun⟩, fun n hgoes => (hgoes.goes _ List.mem_cons_self).elim⟩
    | failed =>
      exact ⟨_, _, rfl, ⟨hnone _ _, nofun⟩, fun n hgoes => (hgoes.goes _ List.mem_cons_self).elim⟩
    | wrote most =>
      have hrest : ∀ {m content}, Fd.Goes ⟨content, .wrote most :: calls⟩ (m + 1) → 0 < most ∧
          ∀ content', Fd.Goes ⟨content', calls⟩ m := by
        intro m content hgoes
        refine ⟨hgoes.goes _ List.mem_cons_self,
          fun _ => ⟨fun c hc => hgoes.goes c (List.mem_cons_of_mem _ hc), ?_⟩⟩
        have := hgoes.many
        rw [List.countP_cons_of_pos rfl] at this
        exact Nat.le_of_succ_le_succ this
      rw [xwritevLoop, readIov_ok h, ok_bind]
      obtain ⟨hrun, hlen⟩ | ⟨iov', hrun, hlt, hne', hvalid, hbytes⟩ :=
        advance_ok hne h (min_le_right most (iov.flatMap Iovec.bytes).length)
      · simp only [hrun, ok_bind]
        refine ⟨_, _, rfl, ⟨⟨_, rfl⟩, fun _ => ?_⟩, fun n hgoes => ⟨rfl, ?_⟩⟩
        · show content ++ _ = _
          rw [hlen, List.take_length]
        · exact ((hrest (hgoes.mono (show n + 1 ≤ _ by omega))).2 _)
      · simp only [hrun, ok_bind]
        obtain ⟨status, fd, hloop, ⟨⟨k, hk⟩, hwhole⟩, hsucceeds⟩ := ih hne' hvalid
          (content ++ (iov.flatMap Iovec.bytes).take (min most (iov.flatMap Iovec.bytes).length))
        rw [hbytes] at hk hwhole hsucceeds
        refine ⟨status, fd, hloop, ⟨⟨min most (iov.flatMap Iovec.bytes).length + k, ?_⟩,
          fun hs => ?_⟩,
          fun n hgoes => hsucceeds n ?_⟩
        · rw [hk, List.append_assoc, List.take_add]
        · rw [hwhole hs, List.append_assoc, List.take_append_drop]
        · obtain ⟨hmost, hcalls⟩ := hrest
            (hgoes.mono (show (iov.flatMap Iovec.bytes).length + n + 1 ≤ _ by omega))
          refine (hcalls _).mono ?_
          rw [List.length_drop]
          omega

theorem xwritev_written (fd : Fd) {iov : List Iovec} (hne : iov ≠ []) (h : ∀ v ∈ iov, v.Valid) :
    ∃ status fd', xwritev fd iov = .ok (status, fd') ∧
    Written (iov.flatMap Iovec.bytes) fd.content status fd' ∧
      ∀ n, fd.Goes ((iov.flatMap Iovec.bytes).length + 1 + n) → status = .success ∧ fd'.Goes n :=
  xwritevLoop_written hne h fd.calls fd.content

/-! ## What is buffered -/

/-- The block size divides the size of the buffer, which is never exceeded. -/
structure DumpCtx.Good (ctx : DumpCtx) : Prop where
  buf : ctx.buf.length = dumpBufsize
  dataLen : ctx.dataLen ≤ dumpBufsize
  blksize : ctx.blksize ∣ dumpBufsize

/-- What has been written, and what is still in the buffer -/
def DumpCtx.text (ctx : DumpCtx) : Bytes := ctx.fd.content ++ ctx.buf.take ctx.dataLen

theorem DumpCtx.Good.valid {ctx : DumpCtx} (G : ctx.Good) :
    Iovec.Valid ⟨ctx.buf, 0, ctx.dataLen⟩ := by
  rw [Iovec.Valid, zero_add, G.buf]
  exact G.dataLen

theorem blockSize_dvd (stBlksize : ℕ) : blockSize stBlksize ∣ dumpBufsize := by
  rw [blockSize]
  split_ifs with h
  · exact dvd_rfl
  · push Not at h
    exact Nat.dvd_of_mod_eq_zero h.2

theorem storeBytes_take {block val : Bytes} {off : ℕ} (h : off + val.length ≤ block.length) :
    ∃ block', storeBytes Fault.outOfBounds block off val = .ok block' ∧
    block'.length = block.length ∧
      block'.take (off + val.length) = block.take off ++ val := by
  refine ⟨_, if_pos h, ?_, ?_⟩
  · simp only [List.length_append, List.length_take, List.length_drop]
    omega
  · have hlen : off + val.length = (block.take off ++ val).length := by
      rw [List.length_append, List.length_take, min_eq_left (by omega)]
    rw [hlen, List.take_left]

theorem rest_le {total chunk data blksize : ℕ} (htotal : total = data + chunk)
    (hdata : data ≤ dumpBufsize)
    (hover : dumpBufsize < total) (hdvd : blksize ∣ dumpBufsize) : total % blksize ≤ chunk := by
  have hmod : total % blksize = (total - dumpBufsize) % blksize := by
    obtain ⟨k, hk⟩ := hdvd
    conv_lhs => rw [show total = total - dumpBufsize + blksize * k by omega,
      Nat.add_mul_mod_self_left]
  calc total % blksize = (total - dumpBufsize) % blksize := hmod
    _ ≤ total - dumpBufsize := Nat.mod_le _ _
    _ ≤ chunk := by omega

/-- A chunk is added to the text. -/
theorem dumpCb_text {ctx : DumpCtx} (G : ctx.Good) (chunk : Chunk) :
    ∃ status ctx', dumpCb ctx chunk = .ok (status, ctx') ∧ ctx'.Good ∧
      (status = .success → ctx'.text = ctx.text ++ chunk.val) ∧
      ∀ n, ctx.fd.Goes (ctx.dataLen + chunk.val.length + 1 + n) → status = .success ∧
      ctx'.fd.Goes (ctx'.dataLen + n) := by
  obtain ⟨chunk, hchunk⟩ := chunk
  have hsum : ctx.dataLen + chunk.length < 2 ^ sizeBits := by
    have := G.dataLen
    omega
  rw [dumpCb, addSize_ok hsum, ok_bind]
  dsimp only
  by_cases hfits : ctx.dataLen + chunk.length ≤ dumpBufsize
  · obtain ⟨buf, hstore, hlen, htake⟩ := storeBytes_take (hfits.trans G.buf.ge)
    rw [if_pos hfits, hstore, ok_bind]
    refine ⟨_, _, rfl, ⟨hlen.trans G.buf, hfits, G.blksize⟩, fun _ => ?_, fun n hgoes => ⟨rfl,
      hgoes.mono ?_⟩⟩
    · show ctx.fd.content ++ buf.take _ = _
      rw [htake, DumpCtx.text, List.append_assoc]
    · show ctx.dataLen + chunk.length + n ≤ _
      omega
  · have hpos : ctx.blksize ≠ 0 := (Nat.pos_of_dvd_of_pos G.blksize (by decide)).ne'
    rw [if_neg hfits, modSize, if_neg hpos, ok_bind]
    have hrest : (ctx.dataLen + chunk.length) % ctx.blksize ≤ chunk.length :=
      rest_le rfl G.dataLen (not_le.mp hfits) G.blksize
    have hblock : (ctx.dataLen + chunk.length) % ctx.blksize ≤ dumpBufsize :=
      (Nat.mod_lt _ (Nat.pos_of_ne_zero hpos)).le.trans (Nat.le_of_dvd (by decide) G.blksize)
    generalize (ctx.dataLen + chunk.length) % ctx.blksize = rest at hrest hblock
    rw [subSize_ok _ hrest, ok_bind]
    have hvalid : ∀ v ∈ ([⟨ctx.buf, 0, ctx.dataLen⟩, ⟨chunk, 0, chunk.length - rest⟩] : List Iovec),
      v.Valid := by
      rw [List.forall_mem_cons, List.forall_mem_singleton]
      refine ⟨G.valid, ?_⟩
      show 0 + (chunk.length - rest) ≤ chunk.length
      omega
    obtain ⟨status, fd, hrun, W, hsucceeds⟩ := xwritev_written ctx.fd (List.cons_ne_nil _ _) hvalid
    rw [hrun, ok_bind]
    have hgoes : ∀ n, ctx.fd.Goes (ctx.dataLen + chunk.length + 1 + n) → status = .success ∧
      fd.Goes (rest + n) := by
      refine fun n hgoes => hsucceeds (rest + n) (hgoes.mono ?_)
      have hdata := (hvalid _ List.mem_cons_self).length
      have htext := (hvalid _ (List.mem_cons_of_mem _ List.mem_cons_self)).length
      rw [List.flatMap_cons, List.flatMap_cons, List.flatMap_nil, List.length_append,
        List.length_append, hdata, htext]
      simp only [List.length_nil]
      omega
    cases status with
    | failure => exact ⟨_, _, rfl, ⟨G.buf, G.dataLen, G.blksize⟩,
        nofun, fun n h => absurd (hgoes n h).1 nofun⟩
    | aborted => exact ⟨_, _, rfl, ⟨G.buf, G.dataLen, G.blksize⟩, nofun, fun n h => absurd (hgoes n h).1 nofun⟩
    | pending => exact ⟨_, _, rfl, ⟨G.buf, G.dataLen, G.blksize⟩, nofun, fun n h => absurd (hgoes n h).1 nofun⟩
    | success =>
      have hload : chunk.length - rest + rest ≤ chunk.length := by omega
      obtain ⟨hload, hlen⟩ := loadBytes_ok Fault.outOfBounds hload
      rw [List.take_of_length_le (by rw [List.length_drop]; omega)] at hload hlen
      obtain ⟨buf, hstore, hbuf, htake⟩ := storeBytes_take
        (show 0 + (chunk.drop (chunk.length - rest)).length ≤ ctx.buf.length by rw [hlen, G.buf]; omega)
      rw [hlen, zero_add, List.take_zero, List.nil_append] at htake
      dsimp only
      rw [hload, ok_bind, hstore, ok_bind]
      refine ⟨_, _, rfl, ⟨hbuf.trans G.buf, hblock, G.blksize⟩, fun _ => ?_, hgoes⟩
      show fd.content ++ buf.take rest = _
      have hwritten := W.whole rfl
      simp only [List.flatMap_cons, List.flatMap_nil, List.append_nil, Iovec.bytes,
        List.drop_zero] at hwritten
      rw [hwritten, htake, DumpCtx.text, List.append_assoc, List.append_assoc, List.append_assoc,
        List.take_append_drop]

/-- The calls of `writev()` that will do for the chunks, each of which may write but one byte -/
def callsFor (chunks : List Chunk) : ℕ := (chunks.map fun chunk => chunk.val.length + 1).sum

theorem dumpCbs_text {ctx : DumpCtx} (G : ctx.Good) (chunks : List Chunk) :
    ∃ status ctx', dumpCbs ctx chunks = .ok (status, ctx') ∧ ctx'.Good ∧
      (status = .success → ctx'.text = ctx.text ++ (chunks.map Subtype.val).flatten) ∧
      ∀ n, ctx.fd.Goes (ctx.dataLen + callsFor chunks + n) → status = .success ∧
      ctx'.fd.Goes (ctx'.dataLen + n) := by
  induction chunks generalizing ctx with
  | nil => exact ⟨_, _, rfl, G, fun _ => by simp, fun n hgoes => ⟨rfl, hgoes⟩⟩
  | cons chunk chunks ih =>
    obtain ⟨status, ctx', hrun, G', htext, hsucceeds⟩ := dumpCb_text G chunk
    have hgoes : ∀ n, ctx.fd.Goes (ctx.dataLen + callsFor (chunk :: chunks) + n) →
        status = .success ∧ ctx'.fd.Goes (ctx'.dataLen + (callsFor chunks + n)) := fun n hgoes =>
      hsucceeds (callsFor chunks + n)
        (hgoes.mono (by rw [callsFor, callsFor, List.map_cons, List.sum_cons]; omega))
    rw [dumpCbs, hrun, ok_bind]
    cases status with
    | failure => exact ⟨_, _, rfl, G', nofun, fun n h => absurd (hgoes n h).1 nofun⟩
    | aborted => exact ⟨_, _, rfl, G', nofun, fun n h => absurd (hgoes n h).1 nofun⟩
    | pending => exact ⟨_, _, rfl, G', nofun, fun n h => absurd (hgoes n h).1 nofun⟩
    | success =>
      obtain ⟨status, ctx'', hrun', G'', htext', hsucceeds'⟩ := ih G'
      refine ⟨status, ctx'', hrun', G'', fun hs => ?_, fun n h => hsucceeds' n ?_⟩
      · rw [htext' hs, htext rfl, List.map_cons, List.flatten_cons, List.append_assoc]
      · exact (hgoes n h).2.mono (Nat.add_assoc _ _ _).le

theorem DumpCtx.good_start (env : Env) (fd : Fd) (stBlksize : ℕ) :
    DumpCtx.Good ⟨fd, blockSize stBlksize, 0, (List.range dumpBufsize).map env.mem⟩ :=
  ⟨by simp, Nat.zero_le _, blockSize_dvd stBlksize⟩

theorem xwritev_text {ctx : DumpCtx} (G : ctx.Good) :
    ∃ status fd', xwritev ctx.fd [⟨ctx.buf, 0, ctx.dataLen⟩] = .ok (status, fd') ∧
      (status = .success → fd'.content = ctx.text) ∧
      (ctx.fd.Goes (ctx.dataLen + 1) → status = .success) := by
  have hvalid : ∀ v ∈ ([⟨ctx.buf, 0, ctx.dataLen⟩] : List Iovec), v.Valid :=
    List.forall_mem_singleton.mpr G.valid
  obtain ⟨status, fd', hwrite, W, hsucceeds⟩ := xwritev_written ctx.fd (List.cons_ne_nil _ _) hvalid
  refine ⟨status, fd', hwrite, fun hs => ?_, fun hgoes => (hsucceeds 0 (hgoes.mono ?_)).1⟩
  · rw [W.whole hs, DumpCtx.text]
    simp [Iovec.bytes]
  · rw [List.flatMap_cons, List.flatMap_nil, List.append_nil, G.valid.length]

/-- Nothing but the calls of `writev()` can fail. -/
structure Env.Succeeds (env : Env) : Prop where
  size : env.stBlksize ≠ none
  encodes : env.encodes = true
  synced : env.synced = true

/-- The dump succeeds if the system calls do, and enough of them write something. -/
theorem jsonDumpfdEx_text (env : Env) (fd : Fd) (chunks : List Chunk) :
    ∃ status fd', jsonDumpfdEx env fd chunks = .ok (status, fd') ∧
      (status = .success → fd'.content = fd.content ++ (chunks.map Subtype.val).flatten) ∧
      (env.Succeeds → fd.Goes (callsFor chunks + 1) → status = .success) := by
  rw [jsonDumpfdEx]
  cases hsize : env.stBlksize with
  | none => exact ⟨_, _, rfl, nofun, fun h => absurd hsize h.size⟩
  | some stBlksize =>
    dsimp only
    obtain ⟨status, ctx, hrun, G, htext, hsucceeds⟩ :=
      dumpCbs_text (DumpCtx.good_start env fd stBlksize) chunks
    have hgoes : fd.Goes (callsFor chunks + 1) → status = .success ∧
      ctx.fd.Goes (ctx.dataLen + 1) := fun hgoes =>
      hsucceeds 1 (hgoes.mono (by rw [Nat.zero_add]))
    rw [hrun, ok_bind]
    cases status with
    | failure => exact ⟨_, _, rfl, nofun, fun _ h => absurd (hgoes h).1 nofun⟩
    | aborted => exact ⟨_, _, rfl, nofun, fun _ h => absurd (hgoes h).1 nofun⟩
    | pending => exact ⟨_, _, rfl, nofun, fun _ h => absurd (hgoes h).1 nofun⟩
    | success =>
      replace htext : ctx.text = fd.content ++ (chunks.map Subtype.val).flatten := by
        simpa [DumpCtx.text] using htext rfl
      dsimp only
      by_cases hencodes : env.encodes = false
      · rw [if_pos hencodes]
        exact ⟨_, _, rfl, nofun, fun h => absurd (hencodes.symm.trans h.encodes) Bool.false_ne_true⟩
      rw [if_neg hencodes]
      have hsynced : env.Succeeds → (if env.synced = true then Status.success else .failure) =
        .success := fun h =>
        if_pos h.synced
      by_cases hempty : 0 < ctx.dataLen
      · rw [if_pos hempty]
        obtain ⟨status, fd', hwrite, hwhole, hlast⟩ := xwritev_text G
        rw [hwrite, ok_bind]
        cases status with
        | failure => exact ⟨_, _, rfl, nofun, fun _ h => absurd (hlast (hgoes h).2) nofun⟩
        | aborted => exact ⟨_, _, rfl, nofun, fun _ h => absurd (hlast (hgoes h).2) nofun⟩
        | pending => exact ⟨_, _, rfl, nofun, fun _ h => absurd (hlast (hgoes h).2) nofun⟩
        | success => exact ⟨_, _, rfl, fun _ => (hwhole rfl).trans htext, fun h _ => hsynced h⟩
      · rw [if_neg hempty]
        refine ⟨_, _, rfl, fun _ => ?_, fun h _ => hsynced h⟩
        rw [← htext, DumpCtx.text, show ctx.dataLen = 0 by omega, List.take_zero, List.append_nil]

/-- Where `json_dumpfd_ex()` succeeds, the file has the chunks in order. Whatever the block size,
and whatever the calls of `writev()` return, no length is negative or too large, the buffer is not
exceeded, and the bytes of the vectors are written from the first on, none of them twice. -/
theorem json_dumped (env : Env) (fd : Fd) (chunks : List Chunk) :
    (∃ status fd', jsonDumpfdEx env fd chunks = .ok (status, fd') ∧
      (status = .success → fd'.content = fd.content ++ (chunks.map Subtype.val).flatten)) ∧
    (∀ stBlksize, ∃ status ctx,
      dumpCbs ⟨fd, blockSize stBlksize, 0, (List.range dumpBufsize).map env.mem⟩ chunks =
      .ok (status, ctx) ∧
        ctx.dataLen ≤ dumpBufsize) ∧
    ∀ iov : List Iovec, iov ≠ [] → (∀ v ∈ iov, v.Valid) →
      ∃ status fd', xwritev fd iov = .ok (status, fd') ∧
      Written (iov.flatMap Iovec.bytes) fd.content status fd' := by
  refine ⟨?_, fun stBlksize => ?_, fun iov hne h => ?_⟩
  · obtain ⟨status, fd', hrun, htext, -⟩ := jsonDumpfdEx_text env fd chunks
    exact ⟨status, fd', hrun, htext⟩
  · obtain ⟨status, ctx, hrun, G, -⟩ := dumpCbs_text (DumpCtx.good_start env fd stBlksize) chunks
    exact ⟨status, ctx, hrun, G.dataLen⟩
  · obtain ⟨status, fd', hrun, W, -⟩ := xwritev_written fd hne h
    exact ⟨status, fd', hrun, W⟩

/-- A chunk that is cut by two short writes and an interrupted one -/
example : xwritev ⟨[], [.wrote 1, .eintr, .wrote 3, .wrote 9]⟩ [⟨[1, 2, 9], 0, 2⟩,
  ⟨[9, 3, 4, 5], 1, 3⟩] =
    .ok (.success, ⟨[1, 2, 3, 4, 5], []⟩) := by decide

end BookmarkFS.Dump
