import BookmarkFS.Frontend.FileSize
import BookmarkFS.Library.Contents

/-! # The contents of an open file

A file handle shows the contents of a regular file: those that POSIX says, after
the same requests, of a file that is made of the value in the backend when it is
opened. The buffer is filled by a read only, so that a file which has not been
read from must not be written to in part.
-/
namespace BookmarkFS.Frontend
open Library Contents
open Chromium (Timespec)

variable {m : Mount} {fill : ℕ → UInt8} {fh fh' : FileHandle} {stored : Stored} {loaded : ℕ}

def Mount.served (m : Mount) (value : Bytes) : Bytes := value ++ if m.eol then [newline] else []

def Mount.stripped (m : Mount) (content : Bytes) : Bytes :=
  if m.eol = true ∧ content.getLast? = some newline then content.dropLast else content

def FileHandle.content (fh : FileHandle) : Bytes := fh.block.take fh.dataLen

theorem length_served (m : Mount) (value : Bytes) : (m.served value).length = value.length +
    m.eol.toNat := by
  rw [Mount.served, List.length_append]
  cases m.eol <;> rfl

theorem served_stripped {content : Bytes} (h : m.eol = true → content.getLast? = some newline) :
    m.served (m.stripped content) = content := by
  rw [Mount.stripped, Mount.served]
  cases heol : m.eol with
  | false => simp
  | true =>
    rw [if_pos ⟨rfl, h heol⟩, if_pos rfl]
    exact List.dropLast_append_getLast? newline (h heol)

/-! ## The buffer -/

section Buffer

theorem storeBytes_splice {ε : Type} {fault : ε} {block val : Bytes} {off : ℕ} {block' : Bytes}
    (h : storeBytes fault block off val = .ok block') : block' = splice block off val ∧
    off + val.length ≤ block.length := by
  rw [storeBytes] at h
  split at h
  next hle => exact ⟨(Except.ok.inj h).symm, hle⟩
  · cases h

theorem InBounds.length_content (h : InBounds m fh loaded) : fh.content.length = fh.dataLen := by
  rw [FileHandle.content, List.length_take, h.allocated]
  exact Nat.min_eq_left h.data_le

theorem take_reallocate {block : Bytes} {size len : ℕ} (h : block.length ≤ size)
    (hlen : len ≤ block.length) :
    (reallocate fill block size).take len = block.take len := by
  rw [reallocate, List.take_take, Nat.min_eq_left (hlen.trans h),
    List.take_append_of_le_length hlen]

theorem toUint32_eq {n k : ℕ} (h : toUint32 n = .ok k) : k = n := by
  rw [toUint32] at h
  split at h
  · exact (Except.ok.inj h).symm
  · cases h

theorem growBuf_content (h : InBounds m fh loaded) {len : ℕ}
    (hgrow : growBuf fill fh len = .ok fh') :
    fh'.content = fh.content ∧ fh'.dataLen = fh.dataLen := by
  rw [growBuf] at hgrow
  split at hgrow
  next hlt =>
    obtain ⟨bufLen, hbufLen, hdone⟩ := bind_eq_ok.mp hgrow
    obtain rfl := toUint32_eq hbufLen
    obtain rfl := Except.ok.inj hdone
    have hle := h.data_le
    refine ⟨take_reallocate ?_ ?_, rfl⟩ <;> rw [h.allocated] <;> omega
  · obtain rfl := Except.ok.inj hgrow
    exact ⟨rfl, rfl⟩

theorem store_splice {off : ℕ} {val : Bytes} (hstore : fh.store off val = .ok fh') :
    fh'.block = splice fh.block off val ∧ fh'.dataLen = fh.dataLen ∧
    (val ≠ [] → off + val.length ≤ fh.block.length) := by
  rw [FileHandle.store] at hstore
  split at hstore
  next hval =>
    obtain rfl := Except.ok.inj hstore
    exact ⟨by rw [hval, splice_nil], rfl, fun hne => absurd hval hne⟩
  · obtain ⟨block, hblock, hdone⟩ := bind_eq_ok.mp hstore
    obtain rfl := Except.ok.inj hdone
    obtain ⟨rfl, hle⟩ := storeBytes_splice hblock
    exact ⟨rfl, rfl, fun _ => hle⟩

/-- What `bm_write()` makes of the buffer. -/
theorem bmWrite_content (h : InBounds m fh loaded) {append : Bool} {val : Bytes} {off : ℕ}
    {now : Timespec}
    {reply : Except Errno ℕ} (hwrite : bmWrite m fill fh append val off now = .ok (reply, fh')) :
    (fh' = fh ∧ (val = [] ∨ m.fileMax < val.length + if append then fh.content.length else off)) ∨
      val ≠ [] ∧ ¬m.fileMax < (val.length + if append then fh.content.length else off) ∧
      fh'.dirty = true ∧
        fh'.content = writeAt 0 fh.content (if append then fh.content.length else off) val := by
  rw [bmWrite] at hwrite
  split at hwrite
  next hval =>
    obtain ⟨-, rfl⟩ := Prod.mk.inj (Except.ok.inj hwrite)
    exact .inl ⟨rfl, .inl hval⟩
  next hval =>
  dsimp only at hwrite
  rw [h.length_content]
  generalize (if append = true then fh.dataLen else off) = off at hwrite ⊢
  split at hwrite
  next hmax =>
    obtain ⟨-, rfl⟩ := Prod.mk.inj (Except.ok.inj hwrite)
    exact .inl ⟨rfl, .inr hmax⟩
  next hmax =>
  obtain ⟨fh₁, hgrow, hwrite⟩ := bind_eq_ok.mp hwrite
  obtain ⟨fh₂, hstore, hwrite⟩ := bind_eq_ok.mp hwrite
  obtain ⟨fh₃, hfill, hwrite⟩ := bind_eq_ok.mp hwrite
  obtain ⟨dataLen, hdataLen, hwrite⟩ := bind_eq_ok.mp hwrite
  obtain ⟨-, rfl⟩ := Prod.mk.inj (Except.ok.inj hwrite)
  refine .inr ⟨hval, hmax, rfl, ?_⟩
  obtain ⟨fh₁', hgrow', R, hlen⟩ := h.growBuf fill (not_lt.mp hmax)
  obtain rfl := Except.ok.inj (hgrow'.symm.trans hgrow)
  obtain ⟨hcontent, hdata₁⟩ := growBuf_content h hgrow
  obtain ⟨hblock₂, hdata₂, hfits⟩ := store_splice hstore
  obtain ⟨hblock₃, hdata₃, -⟩ := store_splice hfill
  have hbuf := R.allocated
  have hgrows := R.grows
  have hle := h.data_le
  obtain rfl := toUint32_eq hdataLen
  show fh₃.block.take (max (val.length + off) fh₃.dataLen) = _
  rw [← hcontent, hblock₃, hblock₂, hdata₃, hdata₂, hdata₁, Nat.add_comm val.length off,
    splice_writeAt hval (hfits hval) (by omega), FileHandle.content, hdata₁]

/-- What `bm_setattr()` on the size makes of the buffer. -/
theorem bmSetSize_content (h : InBounds m fh loaded) {newLen : ℕ} {now : Timespec}
    {reply : Option Errno} (hset : bmSetSize m fill fh newLen now = .ok (reply, fh')) :
    (fh' = fh ∧ m.fileMax < newLen) ∨
      ¬m.fileMax < newLen ∧ fh'.dirty = true ∧ fh'.content = resize 0 fh.content newLen := by
  rw [bmSetSize] at hset
  split at hset
  next hmax =>
    obtain ⟨-, rfl⟩ := Prod.mk.inj (Except.ok.inj hset)
    exact .inl ⟨rfl, hmax⟩
  next hmax =>
  refine .inr ⟨hmax, ?_⟩
  dsimp only at hset
  split at hset
  next hlt =>
    obtain ⟨fh₁, hgrow, hset⟩ := bind_eq_ok.mp hset
    obtain ⟨fh₂, hfill, hset⟩ := bind_eq_ok.mp hset
    obtain ⟨dataLen, hdataLen, hset⟩ := bind_eq_ok.mp hset
    obtain ⟨-, rfl⟩ := Prod.mk.inj (Except.ok.inj hset)
    obtain rfl := toUint32_eq hdataLen
    obtain ⟨fh₁', hgrow', R, hlen⟩ := h.growBuf fill (not_lt.mp hmax)
    obtain rfl := Except.ok.inj (hgrow'.symm.trans hgrow)
    obtain ⟨hcontent, hdata⟩ := growBuf_content h hgrow
    have hbuf := R.allocated
    refine ⟨rfl, ?_⟩
    show fh₂.block.take dataLen = _
    rw [(store_splice hfill).1, hdata, splice_resize hlt.le (by omega), ← hcontent,
      FileHandle.content, hdata]
  next hlt =>
    obtain ⟨fh₁, hsame, hset⟩ := bind_eq_ok.mp hset
    obtain rfl := Except.ok.inj hsame
    obtain ⟨dataLen, hdataLen, hset⟩ := bind_eq_ok.mp hset
    obtain ⟨-, rfl⟩ := Prod.mk.inj (Except.ok.inj hset)
    obtain rfl := toUint32_eq hdataLen
    have hlen := h.length_content
    refine ⟨rfl, ?_⟩
    show fh.block.take dataLen = _
    rw [resize_of_le (by omega), FileHandle.content, List.take_take,
      Nat.min_eq_left (not_lt.mp hlt)]

/-- What `bm_read_cb()` leaves in the buffer. -/
theorem bmReadCb_content {val : Bytes} (hread : bmReadCb m fill fh val = .ok fh') :
    fh'.content = m.served val := by
  obtain ⟨⟨block, bufLen⟩, -, hread⟩ := bind_eq_ok.mp hread
  obtain ⟨block₁, hstore, hread⟩ := bind_eq_ok.mp hread
  obtain ⟨block₂, hnewline, hread⟩ := bind_eq_ok.mp hread
  obtain ⟨dataLen, hdataLen, hread⟩ := bind_eq_ok.mp hread
  obtain rfl := Except.ok.inj hread
  obtain ⟨rfl, hfits⟩ := storeBytes_splice hstore
  have hval : (splice block 0 val).take val.length = val := by
    rw [splice, List.take_zero, List.nil_append, List.take_left]
  have hserved : block₂.take (val.length + m.eol.toNat) = m.served val := by
    rw [addNewline] at hnewline
    rw [Mount.served]
    cases heol : m.eol with
    | false =>
      rw [if_neg (by simp [heol])] at hnewline
      obtain rfl := Except.ok.inj hnewline
      rw [if_neg Bool.false_ne_true, List.append_nil]
      exact hval
    | true =>
      rw [if_pos heol] at hnewline
      obtain ⟨rfl, hle⟩ := storeBytes_splice hnewline
      have hend := take_splice_end (splice block 0 val) [newline] (show val.length ≤ _ by omega)
      rw [hval] at hend
      exact hend
  obtain rfl := toUint32_eq hdataLen
  show ((if block₂ = [] then fh.buf else some block₂).getD []).take (val.length + m.eol.toNat) = _
  split
  next hnil =>
    rw [hnil, List.take_nil] at hserved
    rw [← length_served, ← hserved, List.length_nil, List.take_zero]
  · exact hserved

theorem doRead_content {off max : ℕ} {val : Bytes} (hread : doRead fh off max = .ok val) :
    val = readAt fh.content off max := by
  rw [doRead, loadBytes] at hread
  split at hread
  · obtain rfl := Except.ok.inj hread
    rw [readAt, FileHandle.content, List.drop_take, List.take_take]
    rcases le_or_gt off fh.dataLen with hoff | hoff
    · rw [Nat.min_eq_left hoff, Nat.min_comm]
    · rw [Nat.min_eq_right hoff.le, Nat.sub_self, Nat.zero_min, List.take_zero,
        Nat.sub_eq_zero_of_le hoff.le,
        Nat.min_zero, List.take_zero]
  · cases hread

theorem endsInNewline_iff (h : InBounds m fh loaded) : fh.EndsInNewline ↔
    fh.content.getLast? = some newline := by
  have hlen := h.length_content
  rw [FileHandle.EndsInNewline, List.getLast?_eq_getElem?, hlen, FileHandle.content, List.take_one,
    List.head?_drop,
    List.getElem?_take]
  by_cases hpos : 0 < fh.dataLen
  · rw [if_pos (by omega), Option.toList_eq_singleton_iff]
    exact and_iff_right hpos
  · rw [if_neg (by omega)]
    exact iff_of_false (fun h => hpos h.1) (by simp)

/-- What is written back is the value of the file that the buffer holds. -/
theorem writtenBack_content (h : InBounds m fh loaded) {value : Bytes}
    (hvalue : writtenBack m fh = .ok value) :
    value = m.stripped fh.content := by
  have hlen := h.length_content
  have hload : ∀ {len value}, loadBytes Fault.outOfBounds fh.block 0 len = .ok value →
    value = fh.block.take len :=
    fun {len value} hload => by
      rw [loadBytes] at hload
      split at hload
      · exact (Except.ok.inj hload).symm
      · cases hload
  rw [writtenBack] at hvalue
  rw [Mount.stripped]
  split at hvalue
  next heol =>
    split at hvalue
    · cases hvalue
    next hpos =>
    obtain ⟨last, hlast, hvalue⟩ := bind_eq_ok.mp hvalue
    obtain rfl := hload hvalue
    rw [loadBytes] at hlast
    split at hlast
    · obtain rfl := Except.ok.inj hlast
      have hends := endsInNewline_iff h
      rw [FileHandle.EndsInNewline, and_iff_right (Nat.pos_of_ne_zero hpos)] at hends
      rw [if_congr (and_iff_right heol) rfl rfl, ← if_congr hends rfl rfl]
      split
      · rw [List.dropLast_eq_take, hlen, FileHandle.content, List.take_take,
          Nat.min_eq_left (Nat.sub_le _ _)]
      · rfl
    · cases hlast
  next heol =>
    rw [if_neg fun hboth => heol hboth.1]
    exact hload hvalue

end Buffer

/-! ## Requests -/

/-- The buffer is not filled again, whatever the backend has. -/
def FileHandle.Own (m : Mount) (fh : FileHandle) : Prop := m.exclusive = true ∧ fh.buf ≠ none

/-- Only a buffer that is filled is changed in part; and what is written back of a buffer that may
be filled again is a value which the same file is made of. -/
def FileRequest.Filled (m : Mount) (s : FileState) (request : FileRequest) : Prop :=
  ∀ fh, s.fh = some fh → match request with
    | .write _ val _ _ => val ≠ [] → fh.dirty = true ∨ fh.Kept m
    | .setSize newLen _ => newLen ≠ 0 → fh.dirty = true ∨ fh.Kept m
    | .fsync none _ => m.readonly = false → fh.dirty = true → m.eol = true →
        fh.EndsInNewline ∨ fh.Own m
    | _ => True

/-- What a request makes of a regular file with a largest size. -/
def FileRequest.reference (m : Mount) (content : Bytes) : FileRequest → Bytes
  | .open trunc _ => if trunc then [] else content
  | .write append val off _ =>
    let off := if append then content.length else off
    if m.fileMax < val.length + off then content else writeAt 0 content off val
  | .setSize newLen _ => if m.fileMax < newLen then content else resize 0 content newLen
  | _ => content

/-- Requests on a bookmark, and the same requests on a regular file, which is made again of the
value whenever the bookmark is not open. Nobody else changes the bookmark. -/
def filledFile (m : Mount) (fill : ℕ → UInt8) : System (FileState × Bytes) FileRequest Fault where
  init s := s.1.fh = none ∧ s.2 = m.served s.1.stored.value
  legal s request := ((safeFile m fill).legal s.1 request ∧ request.Alone m s.1) ∧
    request.Filled m s.1
  step s request := do
    let s' ← s.1.step m fill request
    .ok (s', if s'.fh.isNone then m.served s'.stored.value else request.reference m s.2)

/-- The file handle stands for a file with these contents: in its buffer, if that is used, and in
the backend, if the buffer may be filled. -/
structure Shows (m : Mount) (fh : FileHandle) (value content : Bytes) : Prop where
  held : fh.dirty = true ∨ fh.Kept m → fh.content = content
  served : fh.dirty = false → ¬fh.Own m → content = m.served value

section Shows

variable {value content : Bytes}

theorem Shows.of_dirty (hdirty : fh.dirty = true) (hcontent : fh.content = content) :
    Shows m fh value content :=
  ⟨fun _ => hcontent, fun hclean => by rw [hdirty] at hclean; cases hclean⟩

theorem Shows.congr (h : Shows m fh value content) (hbuf : fh'.buf = fh.buf)
    (hlen : fh'.dataLen = fh.dataLen)
    (hdirty : fh'.dirty = fh.dirty) (hcookie : fh'.cookie = fh.cookie) :
    Shows m fh' value content := by
  have hcontent : fh'.content = fh.content := by
    rw [FileHandle.content, FileHandle.block, hbuf, hlen]
    rfl
  refine ⟨fun hused => ?_, fun hclean hown => h.served (hdirty ▸ hclean) fun hown' => hown ?_⟩
  · rw [FileHandle.Kept, hbuf, hcookie, hdirty] at hused
    exact hcontent.trans (h.held hused)
  · rw [FileHandle.Own, hbuf]
    exact hown'

/-- What is read is in the buffer, which may have been filled for that. -/
theorem bmRefresh_shows (h : Shows m fh value content) {answer : GetAnswer}
    (hanswer : answer.Unchanged m fh)
    {status : Option Errno} (hrun : bmRefresh m fill fh value answer = .ok (status, fh')) :
    Shows m fh' value content ∧ (status = none → fh'.content = content) := by
  rw [bmRefresh.eq_def] at hrun
  split at hrun
  next hdirty =>
    obtain ⟨rfl, rfl⟩ := Prod.mk.inj (Except.ok.inj hrun)
    exact ⟨h, fun _ => h.held (.inl hdirty)⟩
  next hdirty =>
  have hclean : fh.dirty = false := by simpa using hdirty
  split at hrun
  next hbuf =>
    obtain ⟨rfl, rfl⟩ := Prod.mk.inj (Except.ok.inj hrun)
    exact ⟨h, fun _ => h.held (.inr (by rw [FileHandle.Kept, if_pos hbuf.1]; exact hbuf.2))⟩
  next hown =>
  have hserved := h.served hclean hown
  cases answer with
  | value cookie =>
    obtain ⟨fh₁, hcb, hdone⟩ := bind_eq_ok.mp hrun
    obtain ⟨-, rfl⟩ := Prod.mk.inj (Except.ok.inj hdone)
    have hcontent := bmReadCb_content hcb
    have hfilled : (if m.exclusive then fh₁ else { fh₁ with cookie := some cookie }).content =
      content := by
      rw [hserved, ← hcontent]
      split <;> rfl
    exact ⟨⟨fun _ => hfilled, fun _ _ => hserved⟩, fun _ => hfilled⟩
  | again =>
    obtain ⟨-, rfl⟩ := Prod.mk.inj (Except.ok.inj hrun)
    obtain ⟨hexclusive, hcookie⟩ := hanswer
    exact ⟨h, fun _ => h.held (.inr (by rw [FileHandle.Kept, hexclusive]; exact hcookie))⟩
  | stale => exact hanswer.elim
  | failed err =>
    obtain ⟨rfl, rfl⟩ := Prod.mk.inj (Except.ok.inj hrun)
    exact ⟨h, fun hnone => (by cases hnone)⟩

theorem bmRead_shows (h : Shows m fh value content) {answer : GetAnswer}
    (hanswer : answer.Unchanged m fh) {off max : ℕ} {reply : Except Errno Bytes}
    (hread : bmRead m fill fh value answer off max = .ok (reply, fh')) :
    Shows m fh' value content ∧ ∀ val, reply = .ok val → val = readAt content off max := by
  obtain ⟨⟨status, fh₁⟩, hrefresh, hrest⟩ := bind_eq_ok.mp hread
  obtain ⟨hshows, hcontent⟩ := bmRefresh_shows h hanswer hrefresh
  cases status with
  | some err =>
    obtain ⟨rfl, rfl⟩ := Prod.mk.inj (Except.ok.inj hrest)
    exact ⟨hshows, nofun⟩
  | none =>
    obtain ⟨val, hdo, hdone⟩ := bind_eq_ok.mp hrest
    obtain ⟨rfl, rfl⟩ := Prod.mk.inj (Except.ok.inj hdone)
    refine ⟨hshows, fun val' heq => ?_⟩
    rw [← Except.ok.inj heq, doRead_content hdo, hcontent rfl]

theorem bmOpen_shows {fh : Option FileHandle} (trunc : Bool) (now : Timespec)
    (hnone : fh = none → content = m.served value)
    (hsome : ∀ fh', fh = some fh' → Shows m fh' value content) :
    Shows m (bmOpen fh trunc now) value (if trunc then [] else content) := by
  cases trunc with
  | true => exact .of_dirty rfl (List.take_zero ..)
  | false =>
    cases fh with
    | some fh => exact (hsome fh rfl).congr rfl rfl rfl rfl
    | none =>
      refine ⟨fun hused => ?_, fun _ _ => hnone rfl⟩
      rcases hused with hdirty | hkept
      · cases hdirty
      · have hnew : ¬FileHandle.new.Kept m := by
          rw [FileHandle.Kept]
          split <;> exact fun h => h rfl
        exact absurd hkept hnew

theorem bmWrite_shows (hbounds : InBounds m fh loaded) (h : Shows m fh value content)
    {append : Bool} {val : Bytes} {off : ℕ} {now : Timespec}
    (hfilled : val ≠ [] → fh.dirty = true ∨ fh.Kept m) {reply : Except Errno ℕ}
    (hwrite : bmWrite m fill fh append val off now = .ok (reply, fh')) :
    Shows m fh' value ((FileRequest.write append val off now).reference m content) := by
  rw [FileRequest.reference]
  by_cases hval : val = []
  · have hsame : ∀ off, (if m.fileMax < val.length + off then content
      else writeAt 0 content off val) = content :=
      fun off => by rw [writeAt, if_pos hval, ite_self]
    rw [hsame]
    obtain ⟨rfl, -⟩ | ⟨hne, -⟩ := bmWrite_content hbounds hwrite
    · exact h
    · exact absurd hval hne
  rw [← h.held (hfilled hval)]
  obtain ⟨rfl, hnil | hmax⟩ | ⟨-, hmax, hdirty, hcontent⟩ := bmWrite_content hbounds hwrite
  · exact absurd hnil hval
  · rw [if_pos hmax, h.held (hfilled hval)]
    exact h
  · rw [if_neg hmax]
    exact .of_dirty hdirty hcontent

theorem bmSetSize_shows (hbounds : InBounds m fh loaded) (h : Shows m fh value content) {newLen : ℕ}
    {now : Timespec} (hfilled : newLen ≠ 0 → fh.dirty = true ∨ fh.Kept m) {reply : Option Errno}
    (hset : bmSetSize m fill fh newLen now = .ok (reply, fh')) :
    Shows m fh' value ((FileRequest.setSize newLen now).reference m content) := by
  rw [FileRequest.reference]
  obtain ⟨rfl, hmax⟩ | ⟨hmax, hdirty, hcontent⟩ := bmSetSize_content hbounds hset
  · rw [if_pos hmax]
    exact h
  · rw [if_neg hmax]
    refine .of_dirty hdirty (hcontent.trans ?_)
    by_cases hzero : newLen = 0
    · -- nothing is left of what is not there
      rw [hzero, resize_of_le (Nat.zero_le _), resize_of_le (Nat.zero_le _), List.take_zero,
        List.take_zero]
    · rw [h.held (hfilled hzero)]

theorem bmDoWrite_shows (hbounds : InBounds m fh loaded) (h : Shows m fh stored.value content)
    {set setMtime : Option Chromium.Errno}
    (hends : set = none → fh.dirty = true → m.eol = true → fh.EndsInNewline ∨ fh.Own m)
    {reply : Option Errno}
    {stored' : Stored} (hrun : bmDoWrite m fh stored set setMtime = .ok (reply, fh', stored')) :
    Shows m fh' stored'.value content := by
  obtain ⟨rfl, hsame⟩ | ⟨hdirty, hset, -, hvalue, rfl⟩ := bmDoWrite_cases hrun
  · refine ⟨h.held, fun hclean hown => ?_⟩
    rw [hsame hclean]
    exact h.served hclean hown
  · have hcontent := h.held (.inl hdirty)
    refine ⟨fun _ => hcontent, fun _ hown => ?_⟩
    rw [writtenBack_content hbounds hvalue, hcontent, served_stripped fun heol => ?_]
    exact hcontent ▸ (endsInNewline_iff hbounds).mp ((hends hset hdirty heol).resolve_right hown)

end Shows

/-- The state stands for a file with these contents. -/
structure FileState.Shows (m : Mount) (s : FileState) (content : Bytes) : Prop where
  bounded : s.Bounded m
  closed : s.fh = none → content = m.served s.stored.value
  opened : ∀ fh, s.fh = some fh → Frontend.Shows m fh s.stored.value content

section Runs

variable {s s' : FileState} {content : Bytes} {request : FileRequest}

/-- What one request preserves, while the file stays open. -/
theorem step_shows (h : s.Shows m content) (hlegal : (filledFile m fill).legal (s, content) request)
    (hstep : s.step m fill request = .ok s') :
    s'.Shows m (if s'.fh.isNone then m.served s'.stored.value
      else request.reference m content) := by
  obtain ⟨⟨⟨hlegal, hsafe⟩, halone⟩, hfilled⟩ := hlegal
  obtain ⟨s₁, hok, hbounded⟩ := step_bounded fill h.bounded hlegal hsafe
  obtain rfl := Except.ok.inj (hok.symm.trans hstep)
  refine ⟨hbounded, fun hnone => by rw [hnone]; rfl, fun fh' hfh' => ?_⟩
  rw [hfh', Option.isNone_some, if_neg Bool.false_ne_true]
  have hopened := h.opened
  have hbounds := h.bounded
  obtain ⟨fh, stored, loaded⟩ := s
  cases request with
  | change stored' => exact halone.elim
  | «open» trunc now =>
    obtain rfl := Except.ok.inj hstep
    obtain rfl := Option.some.inj hfh'
    exact bmOpen_shows trunc now h.closed h.opened
  | setTimes times now set =>
    obtain rfl := Except.ok.inj hstep
    have hvalue : (bmSetTimes m fh stored times now set).2.2.value = stored.value := by
      cases set <;> rfl
    show Shows m fh' (bmSetTimes m fh stored times now set).2.2.value content
    rw [hvalue]
    rcases bmSetTimes_fh fh stored times now set with hsame | ⟨-, fh₀, rfl, hclear⟩
    · exact h.opened fh' (hsame ▸ hfh')
    · obtain rfl := Option.some.inj (hclear.symm.trans hfh')
      exact (h.opened fh₀ rfl).congr rfl rfl rfl rfl
  | read answer off max =>
    obtain ⟨fh, rfl, -⟩ := hlegal
    obtain ⟨⟨reply, fh₁⟩, hread, hdone⟩ := bind_eq_ok.mp hstep
    obtain rfl := Except.ok.inj hdone
    obtain rfl := Option.some.inj hfh'
    exact (bmRead_shows (hopened fh rfl) (halone fh rfl) hread).1
  | write append val off now =>
    obtain ⟨fh, rfl⟩ := Option.ne_none_iff_exists'.mp hlegal.1
    obtain ⟨⟨reply, fh₁⟩, hwrite, hdone⟩ := bind_eq_ok.mp hstep
    obtain rfl := Except.ok.inj hdone
    obtain rfl := Option.some.inj hfh'
    exact bmWrite_shows (hbounds fh rfl) (hopened fh rfl) (hfilled fh rfl) hwrite
  | setSize newLen now =>
    obtain ⟨fh, rfl⟩ := Option.ne_none_iff_exists'.mp hlegal.1
    obtain ⟨⟨reply, fh₁⟩, hset, hdone⟩ := bind_eq_ok.mp hstep
    obtain rfl := Except.ok.inj hdone
    obtain rfl := Option.some.inj hfh'
    exact bmSetSize_shows (hbounds fh rfl) (hopened fh rfl) (hfilled fh rfl) hset
  | fsync set setMtime =>
    obtain ⟨fh, rfl⟩ := Option.ne_none_iff_exists'.mp hlegal
    simp only [FileState.step] at hstep
    split at hstep
    · obtain rfl := Except.ok.inj hstep
      exact hopened fh' hfh'
    next hreadonly =>
      obtain ⟨⟨reply, fh₁, stored₁⟩, hdo, hdone⟩ := bind_eq_ok.mp hstep
      obtain rfl := Except.ok.inj hdone
      obtain rfl := Option.some.inj hfh'
      refine bmDoWrite_shows (hbounds fh rfl) (hopened fh rfl) (fun hset hdirty => ?_) hdo
      subst hset
      exact hfilled fh rfl (by simpa using hreadonly) hdirty
  | release set setMtime =>
    obtain ⟨fh, rfl⟩ := Option.ne_none_iff_exists'.mp hlegal
    simp only [FileState.step, bmFree] at hstep
    split at hstep
    · obtain rfl := Except.ok.inj hstep
      obtain rfl := Option.some.inj hfh'
      exact (hopened fh rfl).congr rfl rfl rfl rfl
    · obtain ⟨⟨fh₁, stored₁⟩, hfree, hdone⟩ := bind_eq_ok.mp hstep
      obtain ⟨⟨reply, fh₂, stored₂⟩, -, hnone⟩ := bind_eq_ok.mp hfree
      obtain ⟨rfl, rfl⟩ := Prod.mk.inj (Except.ok.inj hnone)
      obtain rfl := Except.ok.inj hdone
      cases hfh'

theorem filledFile_shows (m : Mount) (fill : ℕ → UInt8) : (filledFile m fill).Invariant fun s =>
    s.1.Shows m s.2 where
  init s hinit := by
    refine ⟨fun fh hfh => ?_, fun _ => hinit.2, fun fh hfh => ?_⟩ <;>
    · rw [hinit.1] at hfh
      cases hfh
  step s request s' h hlegal hstep := by
    obtain ⟨s₁, hrun, hdone⟩ := bind_eq_ok.mp hstep
    obtain rfl := Except.ok.inj hdone
    exact step_shows h hlegal hrun

set_option maxRecDepth 4096 in
theorem holed_reachable : ∃ fh stored loaded, fh.dirty = true ∧
    (filledFile withEol fun _ => 0).Reachable (⟨some fh, stored, loaded⟩, [0, 98]) := by
  have hinit : (filledFile withEol fun _ => 0).Reachable (⟨none, ⟨[97], ⟨0, 0⟩, ⟨0, 0⟩⟩, 0⟩,
    [97, 10]) := .init ⟨rfl, rfl⟩
  have hopen : (filledFile withEol fun _ => 0).Reachable (truncated, []) := by
    refine hinit.step (show (filledFile withEol fun _ => 0).legal _ (.open true ⟨0, 0⟩) from
      ⟨⟨⟨nofun, ?_⟩, trivial⟩, ?_⟩) rfl <;>
    · intro fh hfh
      cases hfh
  have hlegal : (filledFile withEol fun _ => 0).legal (truncated, [])
    (.write false [98] 1 ⟨1, 0⟩) :=
    ⟨⟨⟨⟨Option.some_ne_none _, rfl⟩, fun fh hfh => ⟨fun hback => hback.elim,
      fun _ _ _ heq => by cases heq⟩⟩, trivial⟩, fun fh hfh _ => .inl <| by
      obtain rfl := Option.some.inj hfh
      rfl⟩
  exact ⟨_, _, _, rfl, hopen.step hlegal rfl⟩

end Runs

end BookmarkFS.Frontend
