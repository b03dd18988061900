import BookmarkFS.Frontend.FileHandle
import BookmarkFS.Library.Memory
import BookmarkFS.Library.Transition

/-! # The buffer of a file handle

A bookmark that is open is read into a buffer, which all descriptors share, and
written back as a whole. The lengths in a file handle have 32 bits; a length
that does not fit is a fault here, since nothing is meant to come after it.
-/
namespace BookmarkFS.Frontend
open Library
open Chromium (Timespec)

/-- An assignment to a `uint32_t` -/
def toUint32 (n : ℕ) : Except Fault ℕ := if n < 2 ^ 32 then .ok n else .error .wraps

/-- `FH_BUF_RESERVED()` -/
def fhBufReserved (n : ℕ) : ℕ := 512 - n % 512

/-- The space that `bm_read_cb()` asks for. -/
def readLen (m : Mount) (val : Bytes) : ℕ :=
  val.length + if m.readonly then m.eol.toNat else fhBufReserved val.length

def newline : UInt8 := 10

def FileHandle.block (fh : FileHandle) : Bytes := fh.buf.getD []

section Handlers

variable (m : Mount) (fill : ℕ → UInt8)

/-- `bm_open()`, where `trunc` tells of `O_TRUNC` on a descriptor that can be written to. -/
def bmOpen (fh : Option FileHandle) (trunc : Bool) (now : Timespec) : FileHandle :=
  let fh := bmFhNew fh
  if trunc then { fh with dataLen := 0, mtime := now, dirty := true, mtimeSet := true } else fh

/-- The block that `bm_read_cb()` writes to, and its length in the file handle. -/
def readBlock (fh : FileHandle) (val : Bytes) : Except Fault (Bytes × ℕ) :=
  if fh.bufLen < readLen m val then
    (reallocate fill [] (readLen m val), ·) <$> toUint32 (readLen m val)
  else .ok (fh.block, fh.bufLen)

/-- The newline that `bm_read_cb()` adds. -/
def addNewline (block : Bytes) (off : ℕ) : Except Fault Bytes :=
  if m.eol then storeBytes .outOfBounds block off [newline] else .ok block

/-- `bm_read_cb()` -/
def bmReadCb (fh : FileHandle) (val : Bytes) : Except Fault FileHandle := do
  let (block, bufLen) ← readBlock m fill fh val
  let block ← storeBytes .outOfBounds block 0 val
  let block ← addNewline m block val.length
  let dataLen ← toUint32 (val.length + m.eol.toNat)
  .ok { fh with buf := if block = [] then fh.buf else some block, bufLen := bufLen, dataLen := dataLen }

/-- How `bookmark_get()` ends: the callback is given the value, and the cookie is set where there is
one; or the value has not changed since, or it cannot be had. -/
inductive GetAnswer where
  | value (cookie : Cookie)
  | again
  | stale
  | failed (err : Chromium.Errno)

/-- The part of `bm_read()` before `do_read`, for a bookmark with the value `stored`. -/
def bmRefresh (fh : FileHandle) (stored : Bytes) (answer : GetAnswer) :
    Except Fault (Option Errno × FileHandle) :=
  if fh.dirty then .ok (none, fh)
  -- In exclusive mode, ignore server-side changes.
  else if m.exclusive = true ∧ fh.buf ≠ none then .ok (none, fh)
  else
    match answer with
    | .value cookie => do
      let fh ← bmReadCb m fill fh stored
      .ok (none, if m.exclusive then fh else { fh with cookie := some cookie })
    | .again | .stale => .ok (none, fh)
    | .failed err => .ok (some (.backend err), fh)

/-- The part of `bm_read()` at `do_read`. -/
def doRead (fh : FileHandle) (off max : ℕ) : Except Fault Bytes :=
  let off := min off fh.dataLen
  loadBytes .outOfBounds fh.block off (min (fh.dataLen - off) max)

/-- `bm_read()` -/
def bmRead (fh : FileHandle) (stored : Bytes) (answer : GetAnswer) (off max : ℕ) :
    Except Fault (Except Errno Bytes × FileHandle) := do
  let (status, fh) ← bmRefresh m fill fh stored answer
  match status with
  | some err => .ok (.error err, fh)
  | none => .ok (.ok (← doRead fh off max), fh)

/-- `xrealloc()` where the buffer is too small for `len` bytes -/
def growBuf (fh : FileHandle) (len : ℕ) : Except Fault FileHandle :=
  if fh.bufLen < len then do
    let bufLen ← toUint32 (len + fhBufReserved len)
    .ok { fh with buf := some (reallocate fill fh.block bufLen), bufLen := bufLen }
  else .ok fh

/-- `memcpy()` and `memset()` on the buffer -/
def FileHandle.store (fh : FileHandle) (off : ℕ) (val : Bytes) : Except Fault FileHandle :=
  if val = [] then .ok fh
  else do
    let block ← storeBytes .outOfBounds fh.block off val
    .ok { fh with buf := some block }

/-- `bm_write()` -/
def bmWrite (fh : FileHandle) (append : Bool) (val : Bytes) (off : ℕ) (now : Timespec) :
    Except Fault (Except Errno ℕ × FileHandle) := do
  if val = [] then return (.ok 0, fh)
  let off := if append then fh.dataLen else off
  let offMax := val.length + off
  if m.fileMax < offMax then return (.error .fbig, fh)
  let fh ← growBuf fill fh offMax
  let fh ← fh.store off val
  let fh ← fh.store fh.dataLen (List.replicate (off - fh.dataLen) 0)
  let dataLen ← toUint32 (max offMax fh.dataLen)
  .ok (.ok val.length, { fh with dataLen := dataLen, mtime := now, dirty := true, mtimeSet := true })

/-- `bm_setattr()` on the size -/
def bmSetSize (fh : FileHandle) (newLen : ℕ) (now : Timespec) :
    Except Fault (Option Errno × FileHandle) := do
  if m.fileMax < newLen then return (some .fbig, fh)
  let fh ← if fh.dataLen < newLen then do
      let fh ← growBuf fill fh newLen
      fh.store fh.dataLen (List.replicate (newLen - fh.dataLen) 0)
    else .ok fh
  let dataLen ← toUint32 newLen
  .ok (none, { fh with dataLen := dataLen, mtime := now, dirty := true, mtimeSet := true })

/-- The bytes that `bm_do_write()` passes to `bookmark_set()`. -/
def writtenBack (fh : FileHandle) : Except Fault Bytes := do
  if m.eol then
    -- `fh->buf[data_len - 1]`
    if fh.dataLen = 0 then .error .outOfBounds
    else
      let last ← loadBytes .outOfBounds fh.block (fh.dataLen - 1) 1
      loadBytes .outOfBounds fh.block 0 (if last = [newline] then fh.dataLen - 1 else fh.dataLen)
  else loadBytes .outOfBounds fh.block 0 fh.dataLen

/-- What the backend stores for a bookmark. -/
structure Stored where
  value : Bytes
  atime : Timespec
  mtime : Timespec

/-- `bm_do_write()`, where `set` and `setMtime` are the errors of the two calls to
`bookmark_set()`. -/
def bmDoWrite (fh : FileHandle) (stored : Stored) (set setMtime : Option Chromium.Errno) :
    Except Fault (Option Errno × FileHandle × Stored) := do
  if fh.dirty = false then return (none, fh, stored)
  let value ← writtenBack m fh
  if let some err := set then return (some (.backend err), fh, stored)
  let stored := { stored with value := value }
  if fh.mtimeSet then
    if let some err := setMtime then return (some (.backend err), fh, stored)
  .ok (none, { fh with dirty := false, mtimeSet := false },
    if fh.mtimeSet then { stored with mtime := fh.mtime } else stored)

/-- `bm_free()`, which frees the file handle with the last descriptor, and a buffer that is not
read-only with it. -/
def bmFree (fh : FileHandle) (stored : Stored) (set setMtime : Option Chromium.Errno) :
    Except Fault (Option FileHandle × Stored) :=
  if 0 < fh.refcount - 1 then .ok (some { fh with refcount := fh.refcount - 1 }, stored)
  else do
    let (_, _, stored) ← bmDoWrite m fh stored set setMtime
    .ok (none, stored)

/-- Times to be set; what is set without a value is set to the current time. -/
structure SetTimes where
  atime : Option (Option Timespec)
  mtime : Option (Option Timespec)

/-- `bm_setattr()` on times, where `set` is the error of `bookmark_set()`. -/
def bmSetTimes (fh : Option FileHandle) (stored : Stored) (times : SetTimes) (now : Timespec)
    (set : Option Chromium.Errno) : Option Errno × Option FileHandle × Stored :=
  let mtime := if m.ctime then some none else times.mtime
  let fh := if mtime = none then fh else fh.map fun fh => { fh with mtimeSet := false }
  match set with
  | some err => (some (.backend err), fh, stored)
  | none => (none, fh, { stored with
      atime := (times.atime.map (·.getD now)).getD stored.atime
      mtime := (mtime.map (·.getD now)).getD stored.mtime })

/-- `timespec_cmp()` -/
def timespecCmp (t1 t2 : Timespec) : ℤ :=
  if t1.sec < t2.sec then -1
  else if t1.sec > t2.sec then 1
  else if t1.nsec < t2.nsec then -1
  else if t1.nsec > t2.nsec then 1
  else 0

/-- `struct stat` of a file -/
structure FileStat where
  atime : Timespec
  mtime : Timespec
  ctime : Timespec
  size : ℕ

/-- `bm_fillstat()` on a file, with local state if there is a file handle. -/
def bmFillstat (src : Stored) (fh : Option FileHandle) : FileStat :=
  let stat : FileStat := ⟨src.atime, src.mtime, src.mtime, src.value.length + m.eol.toNat⟩
  match fh with
  | none => stat
  | some fh =>
    if fh.mtimeSet = false then stat
    else
      let stat := if m.ctime = false ∨ 0 < timespecCmp fh.mtime stat.mtime then
          { stat with mtime := fh.mtime, ctime := fh.mtime }
        else stat
      { stat with size := fh.dataLen }

end Handlers

/-! ## Requests on one file -/

/-- The file handle of the inode, what the backend stores for the bookmark, and the length of the
value that was read into the buffer last. -/
structure FileState where
  fh : Option FileHandle
  stored : Stored
  loaded : ℕ

inductive FileRequest where
  | open (trunc : Bool) (now : Timespec)
  | read (answer : GetAnswer) (off max : ℕ)
  | write (append : Bool) (val : Bytes) (off : ℕ) (now : Timespec)
  | setSize (newLen : ℕ) (now : Timespec)
  | setTimes (times : SetTimes) (now : Timespec) (set : Option Chromium.Errno)
  | fsync (set setMtime : Option Chromium.Errno)
  | release (set setMtime : Option Chromium.Errno)
  /-- Another program changes the bookmark. -/
  | change (stored : Stored)

/-- Whether `bm_read()` asks the backend for the value, and gets one. -/
def FileHandle.Loads (m : Mount) (fh : FileHandle) (answer : GetAnswer) : Prop :=
  fh.dirty = false ∧ ¬(m.exclusive = true ∧ fh.buf ≠ none) ∧ ∃ cookie, answer = .value cookie

instance (m : Mount) (fh : FileHandle) : (answer : GetAnswer) → Decidable (fh.Loads m answer)
  | .value cookie => decidable_of_iff (fh.dirty = false ∧ ¬(m.exclusive = true ∧ fh.buf ≠ none))
      ⟨fun h => ⟨h.1, h.2, cookie, rfl⟩, fun h => ⟨h.1, h.2.1⟩⟩
  | .again => .isFalse fun h => by obtain ⟨-, -, cookie, h⟩ := h; cases h
  | .stale => .isFalse fun h => by obtain ⟨-, -, cookie, h⟩ := h; cases h
  | .failed _ => .isFalse fun h => by obtain ⟨-, -, cookie, h⟩ := h; cases h

section Requests

variable (m : Mount) (fill : ℕ → UInt8)

/-- A request, which finds no file handle if none is open. -/
def FileState.step (s : FileState) (request : FileRequest) : Except Fault FileState :=
  match request, s.fh with
  | .change stored, _ => .ok { s with stored := stored }
  | .open trunc now, fh => .ok { s with fh := some (bmOpen fh trunc now), loaded := if fh = none then 0 else s.loaded }
  | .setTimes times now set, fh =>
    let (_, fh, stored) := bmSetTimes m fh s.stored times now set
    .ok { s with fh := fh, stored := stored }
  | _, none => .error .nullPointer
  | .read answer off max, some fh => do
    let (_, fh') ← bmRead m fill fh s.stored.value answer off max
    .ok { s with fh := some fh', loaded := if fh.Loads m answer then s.stored.value.length else s.loaded }
  | .write append val off now, some fh => do
    let (_, fh) ← bmWrite m fill fh append val off now
    .ok { s with fh := some fh }
  | .setSize newLen now, some fh => do
    let (_, fh) ← bmSetSize m fill fh newLen now
    .ok { s with fh := some fh }
  | .fsync set setMtime, some fh =>
    if m.readonly then .ok s
    else do
      let (_, fh, stored) ← bmDoWrite m fh s.stored set setMtime
      .ok { s with fh := some fh, stored := stored }
  | .release set setMtime, some fh => do
    let (fh, stored) ← bmFree m fh s.stored set setMtime
    .ok { s with fh := fh, stored := stored }

/-- What the kernel and the backend guarantee: nothing is written on a read-only mount, a
descriptor is open where there has to be one, and a value is the same as before only where one has
been read before. -/
def FileRequest.Legal (s : FileState) : FileRequest → Prop
  | .open trunc _ => m.readonly = true → trunc = false
  | .read answer _ _ => ∃ fh, s.fh = some fh ∧ match answer with
      | .again => m.exclusive = false ∧ fh.cookie ≠ none
      | _ => True
  | .write .. | .setSize .. => s.fh ≠ none ∧ m.readonly = false
  | .setTimes times _ _ => m.readonly = false ∧ (times.atime ≠ none ∨ times.mtime ≠ none)
  | .fsync .. | .release .. => s.fh ≠ none
  | .change _ => True

/-- The request writes the buffer of the file handle back. -/
def FileRequest.WritesBack (fh : FileHandle) : FileRequest → Prop
  | .fsync .. => m.readonly = false ∧ fh.dirty = true
  | .release .. => fh.refcount - 1 = 0 ∧ fh.dirty = true
  | _ => False

/-- The request writes no empty buffer back where a newline is looked for at its end, and reads
nothing that is too long for a buffer. -/
def FileRequest.Safe (s : FileState) (request : FileRequest) : Prop :=
  ∀ fh, s.fh = some fh →
    (request.WritesBack m fh → m.eol = true → 0 < fh.dataLen) ∧
    ∀ answer off max, request = .read answer off max → fh.Loads m answer →
      readLen m s.stored.value < 2 ^ 32

/-- Requests on one file in any order, the value of the bookmark being what it is at first. -/
def file : System FileState FileRequest Fault where
  init s := s.fh = none
  legal s request := request.Legal m s
  step s request := s.step m fill request

/-- Requests that are safe. -/
def safeFile : System FileState FileRequest Fault where
  init := (file m fill).init
  legal s request := (file m fill).legal s request ∧ request.Safe m s
  step := (file m fill).step

end Requests

/-- The buffer is as large as the file handle says, and large enough. -/
structure InBounds (m : Mount) (fh : FileHandle) (loaded : ℕ) : Prop where
  allocated : fh.block.length = fh.bufLen
  uint32 : fh.bufLen < 2 ^ 32
  data_le : fh.dataLen ≤ fh.bufLen
  data_max : fh.dataLen ≤ max m.fileMax (loaded + 1)

section Bounds

variable {m : Mount} {fill : ℕ → UInt8} {fh : FileHandle} {loaded : ℕ}

theorem toUint32_ok {n : ℕ} (h : n < 2 ^ 32) : toUint32 n = .ok n := if_pos h

theorem fhBufReserved_bounds (n : ℕ) : 0 < fhBufReserved n ∧ fhBufReserved n ≤ 512 := by
  rw [fhBufReserved]
  omega

/-- What a step on the buffer alone makes of a file handle. -/
structure Reshaped (fh fh' : FileHandle) : Prop where
  allocated : fh'.block.length = fh'.bufLen
  grows : fh.bufLen ≤ fh'.bufLen
  uint32 : fh'.bufLen < 2 ^ 32
  buf : fh.buf ≠ none → fh'.buf ≠ none
  rest : fh' = { fh with buf := fh'.buf, bufLen := fh'.bufLen }

theorem InBounds.reshaped (h : InBounds m fh loaded) : Reshaped fh fh := ⟨h.allocated, le_rfl, h.uint32, id, rfl⟩

theorem Reshaped.trans {fh fh' fh'' : FileHandle} (h : Reshaped fh fh') (h' : Reshaped fh' fh'') :
    Reshaped fh fh'' where
  allocated := h'.allocated
  grows := h.grows.trans h'.grows
  uint32 := h'.uint32
  buf hbuf := h'.buf (h.buf hbuf)
  rest := by
    have hrest := h'.rest
    rw [h.rest] at hrest
    exact hrest

theorem Reshaped.dataLen {fh fh' : FileHandle} (h : Reshaped fh fh') :
    fh'.dataLen = fh.dataLen := by
  rw [h.rest]

theorem Reshaped.store {fh fh' : FileHandle} (h : Reshaped fh fh') (off : ℕ) (val : Bytes)
    (hoff : off + val.length ≤ fh'.bufLen) : ∃ fh'', fh'.store off val = .ok fh'' ∧
    Reshaped fh' fh'' ∧
      fh''.bufLen = fh'.bufLen ∧ (val ≠ [] → fh''.buf ≠ none) := by
  by_cases hval : val = []
  · exact ⟨fh', if_pos hval, ⟨h.allocated, le_rfl, h.uint32, id, rfl⟩,
      rfl, fun hne => absurd hval hne⟩
  obtain ⟨block, hstore, hlength⟩ := storeBytes_ok Fault.outOfBounds (h.allocated ▸ hoff)
  refine ⟨{ fh' with buf := some block }, ?_, ⟨?_, le_rfl, h.uint32, fun _ => by simp, rfl⟩,
    rfl, by simp⟩
  · rw [FileHandle.store, if_neg hval, hstore]
    rfl
  · exact hlength.trans h.allocated

theorem InBounds.growBuf (fill : ℕ → UInt8) (h : InBounds m fh loaded) {len : ℕ}
    (hlen : len ≤ m.fileMax) :
    ∃ fh', growBuf fill fh len = .ok fh' ∧ Reshaped fh fh' ∧ len ≤ fh'.bufLen := by
  by_cases hgrow : fh.bufLen < len
  · have hreserved := fhBufReserved_bounds len
    have hmax := m.accepted.2
    refine ⟨{ fh with buf := some (reallocate fill fh.block (len + fhBufReserved len))
                      bufLen := len + fhBufReserved len }, ?_, ⟨?_, ?_, ?_, by simp, rfl⟩, ?_⟩
    · rw [Frontend.growBuf, if_pos hgrow, toUint32_ok (by omega)]
      rfl
    · exact reallocate_length _ _ _
    · exact hgrow.le.trans (Nat.le_add_right _ _)
    · show len + fhBufReserved len < 2 ^ 32
      omega
    · exact Nat.le_add_right _ _
  · exact ⟨fh, if_neg hgrow, h.reshaped, not_lt.mp hgrow⟩

/-- Writing keeps within the buffer. -/
theorem bmWrite_spec (fill : ℕ → UInt8) (h : InBounds m fh loaded) (append : Bool) (val : Bytes) (off : ℕ)
    (now : Timespec) : ∃ reply fh', bmWrite m fill fh append val off now = .ok (reply, fh') ∧ InBounds m fh' loaded ∧
      (fh' = fh ∨ fh' = { fh with buf := fh'.buf, bufLen := fh'.bufLen, dataLen := fh'.dataLen, mtime := now,
                                  dirty := true, mtimeSet := true } ∧ fh'.buf ≠ none) := by
  rw [bmWrite]
  by_cases hval : val = []
  · rw [if_pos hval]; exact ⟨_, _, rfl, h, .inl rfl⟩
  rw [if_neg hval]
  dsimp only
  generalize (if append = true then fh.dataLen else off) = off
  by_cases hmax : m.fileMax < val.length + off
  · rw [if_pos hmax]; exact ⟨_, _, rfl, h, .inl rfl⟩
  rw [if_neg hmax]
  obtain ⟨fh₁, hgrow, R₁, hlen⟩ := h.growBuf fill (not_lt.mp hmax)
  obtain ⟨fh₂, hstore, R₂, hbuf₂, hsome⟩ := R₁.store off val (by omega)
  have hdata₁ := R₁.dataLen
  have hdata₂ := R₂.dataLen
  have hle := h.data_le
  have hgrows := R₁.grows
  obtain ⟨fh₃, hfill, R₃, hbuf₃, -⟩ := R₂.store fh₂.dataLen (List.replicate (off - fh₂.dataLen) 0)
    (by rw [List.length_replicate]; omega)
  have hdata₃ := R₃.dataLen
  have huint := R₃.uint32
  have hdmax := h.data_max
  simp only [hgrow, hstore, hfill, ok_bind,
    toUint32_ok (show max (val.length + off) fh₃.dataLen < 2 ^ 32 by omega)]
  refine ⟨_, _, rfl, ⟨R₃.allocated, huint, ?_, ?_⟩, .inr ⟨?_, R₃.buf (hsome hval)⟩⟩
  · show max (val.length + off) fh₃.dataLen ≤ fh₃.bufLen
    omega
  · show max (val.length + off) fh₃.dataLen ≤ max m.fileMax (loaded + 1)
    omega
  · rw [((R₁.trans R₂).trans R₃).rest]

/-- Setting the size keeps within the buffer. -/
theorem bmSetSize_spec (fill : ℕ → UInt8) (h : InBounds m fh loaded) (newLen : ℕ) (now : Timespec) :
    ∃ reply fh', bmSetSize m fill fh newLen now = .ok (reply, fh') ∧ InBounds m fh' loaded ∧
      (fh' = fh ∨ fh' = { fh with buf := fh'.buf, bufLen := fh'.bufLen, dataLen := fh'.dataLen, mtime := now,
                                  dirty := true, mtimeSet := true }) := by
  rw [bmSetSize]
  by_cases hmax : m.fileMax < newLen
  · rw [if_pos hmax]; exact ⟨_, _, rfl, h, .inl rfl⟩
  rw [if_neg hmax]
  have huint : newLen < 2 ^ 32 := by
    have := m.accepted.2
    omega
  by_cases hgrows : fh.dataLen < newLen
  · obtain ⟨fh₁, hgrow, R₁, hlen⟩ := h.growBuf fill (not_lt.mp hmax)
    have hdata₁ := R₁.dataLen
    obtain ⟨fh₂, hfill, R₂, hbuf₂, -⟩ := R₁.store fh₁.dataLen (List.replicate (newLen - fh₁.dataLen) 0)
      (by rw [List.length_replicate]; omega)
    simp only [if_pos hgrows, hgrow, hfill, ok_bind, toUint32_ok huint]
    refine ⟨_, _, rfl, ⟨R₂.allocated, R₂.uint32, ?_, ?_⟩, .inr ?_⟩
    · show newLen ≤ fh₂.bufLen
      omega
    · show newLen ≤ max m.fileMax (loaded + 1)
      omega
    · rw [(R₁.trans R₂).rest]
  · have hle := h.data_le
    simp only [if_neg hgrows, ok_bind, toUint32_ok huint]
    refine ⟨_, _, rfl, ⟨h.allocated, h.uint32, ?_, ?_⟩, .inr rfl⟩
    · show newLen ≤ fh.bufLen
      omega
    · show newLen ≤ max m.fileMax (loaded + 1)
      omega

theorem readLen_le (m : Mount) (val : Bytes) : val.length + m.eol.toNat ≤ readLen m val := by
  rw [readLen]
  split
  · exact le_rfl
  · have := (fhBufReserved_bounds val.length).1
    have : m.eol.toNat ≤ 1 := by cases m.eol <;> decide
    omega

theorem readBlock_ok (fill : ℕ → UInt8) (h : InBounds m fh loaded) {val : Bytes} (hlen : readLen m val < 2 ^ 32) :
    ∃ block bufLen, readBlock m fill fh val = .ok (block, bufLen) ∧ block.length = bufLen ∧ bufLen < 2 ^ 32 ∧
      readLen m val ≤ bufLen ∧ (block = [] → fh.block = []) := by
  by_cases hgrow : fh.bufLen < readLen m val
  · refine ⟨reallocate fill [] (readLen m val), readLen m val, ?_, reallocate_length _ _ _, hlen, le_rfl,
      fun hnil => ?_⟩
    · rw [readBlock, if_pos hgrow, toUint32_ok hlen]
      rfl
    · have := congrArg List.length hnil
      rw [reallocate_length, List.length_nil] at this
      omega
  · exact ⟨fh.block, fh.bufLen, if_neg hgrow, h.allocated, h.uint32, not_lt.mp hgrow, id⟩

/-- A value that is read fits into the buffer, if its length fits into the file handle. -/
theorem bmReadCb_spec (fill : ℕ → UInt8) (h : InBounds m fh loaded) {val : Bytes} (hlen : readLen m val < 2 ^ 32) :
    ∃ buf bufLen, bmReadCb m fill fh val =
        .ok { fh with buf := buf, bufLen := bufLen, dataLen := val.length + m.eol.toNat } ∧
      InBounds m { fh with buf := buf, bufLen := bufLen, dataLen := val.length + m.eol.toNat } val.length := by
  obtain ⟨block, bufLen, hblock, hlength, huint, hread, hnil⟩ := readBlock_ok fill h hlen
  have hle := readLen_le m val
  obtain ⟨block₁, hstore, hlength₁⟩ := storeBytes_ok Fault.outOfBounds
    (show 0 + val.length ≤ block.length by omega)
  obtain ⟨block₂, hnewline, hlength₂⟩ : ∃ block₂, addNewline m block₁ val.length = .ok block₂ ∧
      block₂.length = block₁.length := by
    cases heol : m.eol with
    | false => exact ⟨block₁, by simp [addNewline, heol], rfl⟩
    | true =>
      rw [heol] at hle
      simp only [addNewline, heol, if_true]
      refine storeBytes_ok Fault.outOfBounds ?_
      show val.length + 1 ≤ block₁.length
      have : true.toNat = 1 := rfl
      omega
  have heol : m.eol.toNat ≤ 1 := by cases m.eol <;> decide
  refine ⟨if block₂ = [] then fh.buf else some block₂, bufLen, ?_, ?_, huint, ?_, ?_⟩
  · rw [bmReadCb]
    simp only [hblock, hstore, hnewline, ok_bind,
      toUint32_ok (show val.length + m.eol.toNat < 2 ^ 32 by omega)]
  · show ((if block₂ = [] then fh.buf else some block₂).getD []).length = bufLen
    split
    next hempty =>
      rw [hempty, List.length_nil] at hlength₂
      have hblock : block = [] := List.length_eq_zero_iff.mp (by omega)
      have hnil : fh.buf.getD [] = [] := hnil hblock
      rw [hnil, List.length_nil]
      omega
    · show block₂.length = bufLen
      omega
  · show val.length + m.eol.toNat ≤ bufLen
    omega
  · show val.length + m.eol.toNat ≤ max m.fileMax (val.length + 1)
    omega

theorem bmReadCb_error (h : InBounds m fh loaded) {val : Bytes} (hlen : ¬readLen m val < 2 ^ 32) :
    bmReadCb m fill fh val = .error .wraps := by
  have hgrow : fh.bufLen < readLen m val := by
    have := h.uint32
    omega
  simp only [bmReadCb, readBlock, if_pos hgrow, toUint32, if_neg hlen]
  rfl

theorem doRead_ok (h : InBounds m fh loaded) (off max : ℕ) :
    ∃ val, doRead fh off max = .ok val ∧ val.length = min (fh.dataLen - off) max := by
  have hle := h.data_le
  have hallocated := h.allocated
  obtain ⟨hload, hlength⟩ := loadBytes_ok Fault.outOfBounds
    (show min off fh.dataLen + min (fh.dataLen - min off fh.dataLen) max ≤ fh.block.length by omega)
  exact ⟨_, hload, hlength.trans (by omega)⟩

theorem writtenBack_ok (h : InBounds m fh loaded) (hpos : m.eol = true → 0 < fh.dataLen) :
    ∃ value, writtenBack m fh = .ok value := by
  have hle := h.data_le
  have hallocated := h.allocated
  rw [writtenBack]
  cases heol : m.eol with
  | false =>
    simp only [Bool.false_eq_true, if_false]
    exact ⟨_, (loadBytes_ok Fault.outOfBounds (show 0 + fh.dataLen ≤ fh.block.length by omega)).1⟩
  | true =>
    have hpos := hpos heol
    obtain ⟨hlast, -⟩ := loadBytes_ok Fault.outOfBounds (show fh.dataLen - 1 + 1 ≤ fh.block.length by omega)
    simp only [if_true, if_neg hpos.ne', hlast, ok_bind]
    refine ⟨_, (loadBytes_ok Fault.outOfBounds ?_).1⟩
    split <;> omega

theorem writtenBack_error (heol : m.eol = true) (hzero : fh.dataLen = 0) :
    writtenBack m fh = .error .outOfBounds := by
  rw [writtenBack, if_pos heol, if_pos hzero]

/-- What `bm_do_write()` leaves of a file handle. -/
theorem bmDoWrite_spec (h : InBounds m fh loaded) (stored : Stored) (set setMtime : Option Chromium.Errno)
    (hpos : fh.dirty = true → m.eol = true → 0 < fh.dataLen) :
    ∃ reply fh' stored', bmDoWrite m fh stored set setMtime = .ok (reply, fh', stored') ∧ InBounds m fh' loaded ∧
      (fh' = fh ∨ fh' = { fh with dirty := false, mtimeSet := false }) := by
  rw [bmDoWrite]
  by_cases hdirty : fh.dirty = false
  · rw [if_pos hdirty]; exact ⟨_, _, _, rfl, h, .inl rfl⟩
  rw [if_neg hdirty]
  obtain ⟨value, hvalue⟩ := writtenBack_ok h (hpos (by simpa using hdirty))
  simp only [hvalue, ok_bind]
  have hclean : InBounds m { fh with dirty := false, mtimeSet := false } loaded :=
    ⟨h.allocated, h.uint32, h.data_le, h.data_max⟩
  cases set with
  | some err => exact ⟨_, _, _, rfl, h, .inl rfl⟩
  | none =>
    dsimp only
    split
    · cases setMtime with
      | some err => exact ⟨_, _, _, rfl, h, .inl rfl⟩
      | none => exact ⟨_, _, _, rfl, hclean, .inr rfl⟩
    · exact ⟨_, _, _, rfl, hclean, .inr rfl⟩

theorem bmDoWrite_error (stored : Stored) (set setMtime : Option Chromium.Errno) (hdirty : fh.dirty = true)
    (heol : m.eol = true) (hzero : fh.dataLen = 0) :
    bmDoWrite m fh stored set setMtime = .error .outOfBounds := by
  rw [bmDoWrite, if_neg (by simp [hdirty]), writtenBack_error heol hzero]
  rfl

/-- Reading keeps within the buffer, if the value is not too long. -/
theorem bmRead_spec (fill : ℕ → UInt8) (h : InBounds m fh loaded) (value : Bytes) (answer : GetAnswer) (off max : ℕ)
    (hlen : fh.Loads m answer → readLen m value < 2 ^ 32) :
    ∃ reply fh', bmRead m fill fh value answer off max = .ok (reply, fh') ∧
      InBounds m fh' (if fh.Loads m answer then value.length else loaded) := by
  have hkept : ¬fh.Loads m answer → ∃ status, bmRefresh m fill fh value answer = .ok (status, fh) := by
    intro hload
    rw [bmRefresh.eq_def]
    by_cases hdirty : fh.dirty = true
    · exact ⟨none, if_pos hdirty⟩
    rw [if_neg hdirty]
    by_cases hbuf : m.exclusive = true ∧ fh.buf ≠ none
    · exact ⟨none, if_pos hbuf⟩
    rw [if_neg hbuf]
    cases answer with
    | value cookie => exact absurd ⟨by simpa using hdirty, hbuf, cookie, rfl⟩ hload
    | again => exact ⟨none, rfl⟩
    | stale => exact ⟨none, rfl⟩
    | failed err => exact ⟨some (.backend err), rfl⟩
  have hread : ∀ {fh₁ : FileHandle} {n : ℕ} {status : Option Errno}, InBounds m fh₁ n →
      bmRefresh m fill fh value answer = .ok (status, fh₁) →
      ∃ reply, bmRead m fill fh value answer off max = .ok (reply, fh₁) := by
    intro fh₁ n status h₁ hrefresh
    rw [bmRead, hrefresh, ok_bind]
    cases status with
    | some err => exact ⟨_, rfl⟩
    | none =>
      obtain ⟨val, hval, -⟩ := doRead_ok h₁ off max
      exact ⟨.ok val, by simp [hval]⟩
  by_cases hload : fh.Loads m answer
  · rw [if_pos hload]
    obtain ⟨hdirty, hbuf, cookie, rfl⟩ := hload
    obtain ⟨buf, bufLen, hcb, H⟩ := bmReadCb_spec fill h (hlen ⟨hdirty, hbuf, cookie, rfl⟩)
    have hrefresh : ∃ fh₁, bmRefresh m fill fh value (.value cookie) = .ok (none, fh₁) ∧
        InBounds m fh₁ value.length := by
      rw [bmRefresh.eq_def, if_neg (by simp [hdirty]), if_neg hbuf]
      simp only [hcb, ok_bind]
      split
      · exact ⟨_, rfl, H⟩
      · exact ⟨_, rfl, H.allocated, H.uint32, H.data_le, H.data_max⟩
    obtain ⟨fh₁, hrefresh, H₁⟩ := hrefresh
    obtain ⟨reply, hreply⟩ := hread H₁ hrefresh
    exact ⟨reply, fh₁, hreply, H₁⟩
  · rw [if_neg hload]
    obtain ⟨status, hrefresh⟩ := hkept hload
    obtain ⟨reply, hreply⟩ := hread h hrefresh
    exact ⟨reply, fh, hreply, h⟩

theorem bmRead_error (h : InBounds m fh loaded) {value : Bytes} {answer : GetAnswer} (off max : ℕ)
    (hload : fh.Loads m answer) (hlen : ¬readLen m value < 2 ^ 32) :
    bmRead m fill fh value answer off max = .error .wraps := by
  obtain ⟨hdirty, hbuf, cookie, rfl⟩ := hload
  rw [bmRead, bmRefresh.eq_def, if_neg (by simp [hdirty]), if_neg hbuf]
  simp only [bmReadCb_error h hlen]
  rfl

end Bounds

/-! ## Runs -/

/-- The file handle, if there is one, is as it should be. -/
def FileState.Bounded (m : Mount) (s : FileState) : Prop := ∀ fh, s.fh = some fh → InBounds m fh s.loaded

section Runs

variable {m : Mount} {fill : ℕ → UInt8} {s : FileState} {request : FileRequest}

theorem InBounds.new (m : Mount) (loaded : ℕ) : InBounds m .new loaded :=
  ⟨rfl, by decide, le_rfl, Nat.zero_le _⟩

/-- Setting times changes nothing but a flag of the file handle. -/
theorem bmSetTimes_fh (fh : Option FileHandle) (stored : Stored) (times : SetTimes) (now : Timespec)
    (set : Option Chromium.Errno) : (bmSetTimes m fh stored times now set).2.1 = fh ∨
      (m.ctime = true ∨ times.mtime ≠ none) ∧ ∃ fh₀, fh = some fh₀ ∧
        (bmSetTimes m fh stored times now set).2.1 = some { fh₀ with mtimeSet := false } := by
  have hfh : (bmSetTimes m fh stored times now set).2.1 =
      if (if m.ctime then some none else times.mtime) = none then fh
      else fh.map fun fh => { fh with mtimeSet := false } := by
    cases set <;> rfl
  rw [hfh]
  by_cases hset : (if m.ctime then some none else times.mtime) = none
  · exact .inl (if_pos hset)
  rw [if_neg hset]
  cases fh with
  | none => exact .inl rfl
  | some fh =>
    refine .inr ⟨?_, fh, rfl, rfl⟩
    cases hctime : m.ctime with
    | true => exact .inl rfl
    | false => exact .inr (by simpa [hctime] using hset)

/-- What one request preserves; and it ends in a fault only if it is not safe. -/
theorem step_bounded (fill : ℕ → UInt8) (h : s.Bounded m) (hlegal : request.Legal m s) (hsafe : request.Safe m s) :
    ∃ s', s.step m fill request = .ok s' ∧ s'.Bounded m := by
  obtain ⟨fh, stored, loaded⟩ := s
  cases request with
  | change stored' => exact ⟨_, rfl, h⟩
  | «open» trunc now =>
    refine ⟨_, rfl, fun fh' hfh' => ?_⟩
    obtain rfl := Option.some.inj hfh'
    have hnew : InBounds m (bmFhNew fh) (if fh = none then 0 else loaded) := by
      cases fh with
      | none => exact .new m _
      | some fh =>
        rw [if_neg (Option.some_ne_none fh)]
        exact ⟨(h fh rfl).allocated, (h fh rfl).uint32, (h fh rfl).data_le, (h fh rfl).data_max⟩
    rw [bmOpen]
    split
    · exact ⟨hnew.allocated, hnew.uint32, Nat.zero_le _, Nat.zero_le _⟩
    · exact hnew
  | setTimes times now set =>
    refine ⟨_, rfl, fun fh' hfh' => ?_⟩
    rcases bmSetTimes_fh fh stored times now set with hsame | ⟨-, fh₀, rfl, hclear⟩
    · exact h fh' (hsame ▸ hfh')
    · obtain rfl := Option.some.inj (hclear.symm.trans hfh')
      have := h fh₀ rfl
      exact ⟨this.allocated, this.uint32, this.data_le, this.data_max⟩
  | read answer off max =>
    obtain ⟨fh, rfl, -⟩ := hlegal
    obtain ⟨reply, fh', hread, h'⟩ := bmRead_spec fill (h fh rfl) stored.value answer off max
      fun hload => (hsafe fh rfl).2 answer off max rfl hload
    refine ⟨_, by simp only [FileState.step, hread, ok_bind]; rfl, fun fh'' hfh'' => ?_⟩
    obtain rfl := Option.some.inj hfh''
    exact h'
  | write append val off now =>
    obtain ⟨fh, rfl⟩ := Option.ne_none_iff_exists'.mp hlegal.1
    obtain ⟨reply, fh', hwrite, h', -⟩ := bmWrite_spec fill (h fh rfl) append val off now
    refine ⟨_, by simp only [FileState.step, hwrite, ok_bind]; rfl, fun fh'' hfh'' => ?_⟩
    obtain rfl := Option.some.inj hfh''
    exact h'
  | setSize newLen now =>
    obtain ⟨fh, rfl⟩ := Option.ne_none_iff_exists'.mp hlegal.1
    obtain ⟨reply, fh', hset, h', -⟩ := bmSetSize_spec fill (h fh rfl) newLen now
    refine ⟨_, by simp only [FileState.step, hset, ok_bind]; rfl, fun fh'' hfh'' => ?_⟩
    obtain rfl := Option.some.inj hfh''
    exact h'
  | fsync set setMtime =>
    obtain ⟨fh, rfl⟩ := Option.ne_none_iff_exists'.mp hlegal
    by_cases hreadonly : m.readonly = true
    · exact ⟨_, if_pos hreadonly, h⟩
    obtain ⟨reply, fh', stored', hdo, h', -⟩ := bmDoWrite_spec (h fh rfl) stored set setMtime
      fun hdirty => (hsafe fh rfl).1 ⟨by simpa using hreadonly, hdirty⟩
    refine ⟨_, by simp only [FileState.step, if_neg hreadonly, hdo, ok_bind]; rfl, fun fh'' hfh'' => ?_⟩
    obtain rfl := Option.some.inj hfh''
    exact h'
  | release set setMtime =>
    obtain ⟨fh, rfl⟩ := Option.ne_none_iff_exists'.mp hlegal
    by_cases hlast : 0 < fh.refcount - 1
    · refine ⟨_, by simp only [FileState.step, bmFree, if_pos hlast, ok_bind]; rfl, fun fh'' hfh'' => ?_⟩
      obtain rfl := Option.some.inj hfh''
      exact ⟨(h fh rfl).allocated, (h fh rfl).uint32, (h fh rfl).data_le, (h fh rfl).data_max⟩
    · obtain ⟨reply, fh', stored', hdo, -⟩ := bmDoWrite_spec (h fh rfl) stored set setMtime
        fun hdirty => (hsafe fh rfl).1 ⟨by omega, hdirty⟩
      exact ⟨_, by simp only [FileState.step, bmFree, if_neg hlast, hdo, ok_bind]; rfl, fun _ hnone => by cases hnone⟩

/-- A request that is not safe ends in a fault. -/
theorem step_faults (fill : ℕ → UInt8) (h : s.Bounded m) (hnot : ¬request.Safe m s) :
    ∃ fault, s.step m fill request = .error fault := by
  obtain ⟨fh, stored, loaded⟩ := s
  simp only [FileRequest.Safe, not_forall, not_and_or] at hnot
  obtain ⟨fh, rfl, ⟨hwrites, heol, hzero⟩ | ⟨answer, off, max, rfl, hload, hlen⟩⟩ := hnot
  · have hzero : fh.dataLen = 0 := by omega
    cases request with
    | fsync set setMtime =>
      obtain ⟨hreadonly, hdirty⟩ := hwrites
      exact ⟨_, by simp only [FileState.step, hreadonly, Bool.false_eq_true, if_false,
        bmDoWrite_error stored set setMtime hdirty heol hzero]; rfl⟩
    | release set setMtime =>
      obtain ⟨hlast, hdirty⟩ := hwrites
      exact ⟨_, by simp only [FileState.step, bmFree, hlast, lt_irrefl, if_false,
        bmDoWrite_error stored set setMtime hdirty heol hzero]; rfl⟩
    | _ => exact hwrites.elim
  · exact ⟨_, by simp only [FileState.step, bmRead_error (h fh rfl) off max hload hlen]; rfl⟩

theorem safeFile_bounded (m : Mount) (fill : ℕ → UInt8) :
    (safeFile m fill).Invariant fun s => s.Bounded m where
  init s hinit fh hfh := by
    rw [hinit] at hfh
    cases hfh
  step s request s' h hlegal hstep := by
    obtain ⟨s₁, hok, h₁⟩ := step_bounded fill h hlegal.1 hlegal.2
    obtain rfl := Except.ok.inj (hok.symm.trans hstep)
    exact h₁

/-- A read-write mount with the option `eol`. -/
def withEol : Mount := ⟨false, true, false, true, 32768, accepted_default⟩

/-- A file that has just been opened and truncated. -/
def truncated : FileState := ⟨some (bmOpen none true ⟨0, 0⟩), ⟨[97], ⟨0, 0⟩, ⟨0, 0⟩⟩, 0⟩

theorem truncated_reachable (fill : ℕ → UInt8) : (safeFile withEol fill).Reachable truncated := by
  have hinit : (safeFile withEol fill).Reachable ⟨none, ⟨[97], ⟨0, 0⟩, ⟨0, 0⟩⟩, 0⟩ := .init rfl
  refine .step hinit (show (safeFile withEol fill).legal _ (.open true ⟨0, 0⟩) from ⟨nofun, ?_⟩) rfl
  intro fh hfh
  cases hfh

end Runs

end BookmarkFS.Frontend
