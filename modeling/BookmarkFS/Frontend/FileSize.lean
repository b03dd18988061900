import BookmarkFS.Frontend.FileBuffer

/-! # The size of an open file

The size that is reported is that of the buffer where `FH_FLAG_MTIME` is set, but
a read is served from the buffer where `FH_FLAG_DIRTY` is set, or where the value
is taken to be the one that is in the buffer already.
-/
namespace BookmarkFS.Frontend
open Library
open Chromium (Timespec)

variable {m : Mount} {fill : ℕ → UInt8} {fh fh' : FileHandle} {stored : Stored} {loaded : ℕ}

/-- What the backend may answer while nobody else changes the bookmark. -/
def GetAnswer.Unchanged (m : Mount) (fh : FileHandle) : GetAnswer → Prop
  | .value _ | .failed _ => True
  | .again => m.exclusive = false ∧ fh.cookie ≠ none
  | .stale => False

section Reading

variable (m fill stored)

/-- Reading from an offset on until the end of the file is at `total`. -/
inductive ReadsTo : FileHandle → ℕ → ℕ → Prop
  | eof {fh fh' : FileHandle} {answer : GetAnswer} {off max : ℕ} : answer.Unchanged m fh → 0 < max →
      bmRead m fill fh stored.value answer off max = .ok (.ok [], fh') → ReadsTo fh off off
  | more {fh fh' : FileHandle} {answer : GetAnswer} {off max : ℕ} {val : Bytes} {total : ℕ} :
      answer.Unchanged m fh → bmRead m fill fh stored.value answer off max = .ok (.ok val, fh') →
        val ≠ [] →
      ReadsTo fh' (off + val.length) total → ReadsTo fh off total

end Reading

/-- The size that is reported is the number of bytes that are read, and they can be read unless the
value is too long for a buffer. -/
def FileState.SizeAgrees (m : Mount) (fill : ℕ → UInt8) (s : FileState) : Prop :=
  ∀ fh, s.fh = some fh →
    (∀ total, ReadsTo m fill s.stored fh 0 total → total = (bmFillstat m s.stored (some fh)).size) ∧
    (readLen m s.stored.value < 2 ^ 32 →
      ReadsTo m fill s.stored fh 0 (bmFillstat m s.stored (some fh)).size)

def FileHandle.Kept (m : Mount) (fh : FileHandle) : Prop :=
  if m.exclusive then fh.buf ≠ none else fh.cookie ≠ none

def FileHandle.EndsInNewline (fh : FileHandle) : Prop :=
  0 < fh.dataLen ∧ (fh.block.drop (fh.dataLen - 1)).take 1 = [newline]

/-- The time of modification is not set under changes that are not written back, and what is written
back, and used again, ends in the newline that is taken away. -/
def FileRequest.Steady (m : Mount) (s : FileState) (request : FileRequest) : Prop :=
  ∀ fh, s.fh = some fh → fh.dirty = true →
    (∀ times now set, request = .setTimes times now set → m.ctime = false ∧ times.mtime = none) ∧
    (request = .fsync none none → m.readonly = false → m.eol = true → fh.EndsInNewline ∨ ¬fh.Kept m)

/-- Nobody else changes the bookmark. -/
def FileRequest.Alone (m : Mount) (s : FileState) : FileRequest → Prop
  | .change _ => False
  | .read answer _ _ => ∀ fh, s.fh = some fh → answer.Unchanged m fh
  | _ => True

/-- Requests on one file while nobody else changes the bookmark. -/
def ownFile (m : Mount) (fill : ℕ → UInt8) : System FileState FileRequest Fault where
  init := (file m fill).init
  legal s request := (file m fill).legal s request ∧ request.Alone m s
  step := (file m fill).step

/-- The same, if all requests are steady. -/
def steadyFile (m : Mount) (fill : ℕ → UInt8) : System FileState FileRequest Fault where
  init := (ownFile m fill).init
  legal s request := (ownFile m fill).legal s request ∧ request.Steady m s
  step := (ownFile m fill).step

/-- A buffer that is used again holds what the backend stores. -/
structure Agrees (m : Mount) (fh : FileHandle) (stored : Stored) : Prop where
  flags : fh.mtimeSet = fh.dirty
  clean : fh.dirty = false → fh.Kept m → fh.dataLen = stored.value.length + m.eol.toNat

theorem Agrees.size (h : Agrees m fh stored) : (bmFillstat m stored (some fh)).size =
    if fh.dirty then fh.dataLen else stored.value.length + m.eol.toNat := by
  simp only [bmFillstat]
  rw [h.flags]
  cases fh.dirty <;> rfl

/-- A read uses the buffer as it is, or fills it with the value. -/
theorem bmRefresh_cases (hbounds : InBounds m fh loaded) {val : Bytes} {answer : GetAnswer}
    (hanswer : answer.Unchanged m fh) {status : Option Errno}
    (hrun : bmRefresh m fill fh val answer = .ok (status, fh')) :
    (fh' = fh ∧ (status = none → fh.dirty = false → fh.Kept m)) ∨
    ∃ buf bufLen cookie, fh.dirty = false ∧
      fh' = { fh with buf := buf, bufLen := bufLen, cookie := cookie, dataLen := val.length +
        m.eol.toNat } ∧
      InBounds m fh' val.length := by
  rw [bmRefresh.eq_def] at hrun
  split at hrun
  next hdirty =>
    obtain ⟨rfl, rfl⟩ := Prod.mk.inj (Except.ok.inj hrun)
    exact .inl ⟨rfl, fun _ hclean => by rw [hdirty] at hclean; cases hclean⟩
  next hdirty =>
  split at hrun
  next hbuf =>
    obtain ⟨rfl, rfl⟩ := Prod.mk.inj (Except.ok.inj hrun)
    exact .inl ⟨rfl, fun _ _ => by rw [FileHandle.Kept, if_pos hbuf.1]; exact hbuf.2⟩
  cases answer with
  | value cookie =>
    by_cases hlen : readLen m val < 2 ^ 32
    · obtain ⟨buf, bufLen, hcb, H⟩ := bmReadCb_spec fill hbounds hlen
      simp only [hcb, ok_bind] at hrun
      obtain ⟨-, rfl⟩ := Prod.mk.inj (Except.ok.inj hrun)
      refine .inr ⟨buf, bufLen, if m.exclusive then fh.cookie
        else some cookie, by simpa using hdirty, ?_⟩
      split
      · exact ⟨rfl, H⟩
      · exact ⟨rfl, H.allocated, H.uint32, H.data_le, H.data_max⟩
    · rw [bmReadCb_error hbounds hlen] at hrun
      cases hrun
  | again =>
    obtain ⟨-, rfl⟩ := Prod.mk.inj (Except.ok.inj hrun)
    obtain ⟨hexclusive, hcookie⟩ := hanswer
    exact .inl ⟨rfl, fun _ _ => by rw [FileHandle.Kept, hexclusive]; exact hcookie⟩
  | stale => exact hanswer.elim
  | failed err =>
    obtain ⟨rfl, rfl⟩ := Prod.mk.inj (Except.ok.inj hrun)
    exact .inl ⟨rfl, fun h => by cases h⟩

/-- What a read preserves. -/
theorem bmRead_agrees (h : Agrees m fh stored) (hbounds : InBounds m fh loaded) {answer : GetAnswer}
    (hanswer : answer.Unchanged m fh) {off max : ℕ} {reply : Except Errno Bytes}
    (hread : bmRead m fill fh stored.value answer off max = .ok (reply, fh')) :
    Agrees m fh' stored ∧ (∃ loaded', InBounds m fh' loaded') ∧
      (bmFillstat m stored (some fh')).size = (bmFillstat m stored (some fh)).size ∧
      ∀ val, reply = .ok val →
      val.length = min ((bmFillstat m stored (some fh)).size - off) max := by
  obtain ⟨⟨status, fh₁⟩, hrefresh, hrest⟩ := bind_eq_ok.mp hread
  -- what is read, if anything, is what the file handle holds afterwards
  obtain ⟨rfl, hval⟩ : fh' = fh₁ ∧ ∀ val, reply = .ok val → status = none ∧
    doRead fh₁ off max = .ok val := by
    cases status with
    | some err =>
      obtain ⟨rfl, rfl⟩ := Prod.mk.inj (Except.ok.inj hrest)
      exact ⟨rfl, nofun⟩
    | none =>
      obtain ⟨val, hdo, hdone⟩ := bind_eq_ok.mp hrest
      obtain ⟨rfl, rfl⟩ := Prod.mk.inj (Except.ok.inj hdone)
      exact ⟨rfl, fun _ heq => ⟨rfl, Except.ok.inj heq ▸ hdo⟩⟩
  have hlength : ∀ {n val}, InBounds m fh' n → reply = .ok val →
      val.length = min (fh'.dataLen - off) max := by
    intro n val hb heq
    obtain ⟨val', hdo, hlen⟩ := doRead_ok hb off max
    obtain rfl := Except.ok.inj (hdo.symm.trans (hval val heq).2)
    exact hlen
  obtain ⟨rfl, hkept⟩ | ⟨buf, bufLen, cookie, hclean, rfl, H⟩ := bmRefresh_cases hbounds hanswer hrefresh
  · refine ⟨h, ⟨loaded, hbounds⟩, rfl, fun val heq => ?_⟩
    rw [hlength hbounds heq, h.size]
    cases hdirty : fh'.dirty with
    | true => rfl
    | false => rw [h.clean hdirty (hkept (hval val heq).1 hdirty)]; rfl
  · have h' : Agrees m
        { fh with buf := buf, bufLen := bufLen, cookie := cookie, dataLen := stored.value.length + m.eol.toNat }
        stored := ⟨h.flags, fun _ _ => rfl⟩
    refine ⟨h', ⟨_, H⟩, by rw [h'.size, h.size, hclean]; rfl, fun val heq => ?_⟩
    rw [hlength H heq, h.size, hclean]
    rfl

theorem readsTo_size {off total : ℕ} (hread : ReadsTo m fill stored fh off total)
    (h : Agrees m fh stored)
    (hbounds : InBounds m fh loaded) (hoff : off ≤ (bmFillstat m stored (some fh)).size) :
    total = (bmFillstat m stored (some fh)).size := by
  induction hread generalizing loaded with
  | eof hanswer hmax hrun =>
    obtain ⟨-, -, -, hlen⟩ := bmRead_agrees h hbounds hanswer hrun
    have := hlen [] rfl
    simp only [List.length_nil] at this
    omega
  | more hanswer hrun hne _ ih =>
    obtain ⟨h', ⟨loaded', hbounds'⟩, hsize, hlen⟩ := bmRead_agrees h hbounds hanswer hrun
    have := hlen _ rfl
    rw [← hsize]
    exact ih h' hbounds' (by rw [hsize]; omega)

/-- A value that is not too long is read. -/
theorem bmRead_value (fill : ℕ → UInt8) (hbounds : InBounds m fh loaded) {val : Bytes}
    (hlen : readLen m val < 2 ^ 32) (cookie : Cookie) (off max : ℕ) :
    ∃ val' fh', bmRead m fill fh val (.value cookie) off max = .ok (.ok val', fh') := by
  obtain ⟨reply, fh', hread, -⟩ :=
    bmRead_spec fill hbounds val (.value cookie) off max fun _ => hlen
  cases reply with
  | ok val' => exact ⟨val', fh', hread⟩
  | error err =>
    obtain ⟨⟨status, fh₁⟩, hrefresh, hrest⟩ := bind_eq_ok.mp hread
    have hstatus : status = none := by
      rw [bmRefresh.eq_def] at hrefresh
      split at hrefresh
      · exact (Prod.mk.inj (Except.ok.inj hrefresh)).1.symm
      split at hrefresh
      · exact (Prod.mk.inj (Except.ok.inj hrefresh)).1.symm
      · obtain ⟨fh₂, -, hdone⟩ := bind_eq_ok.mp hrefresh
        exact (Prod.mk.inj (Except.ok.inj hdone)).1.symm
    subst hstatus
    obtain ⟨val', -, hdone⟩ := bind_eq_ok.mp hrest
    cases hdone

/-- Reading from any offset within the size comes to the end of the file. -/
theorem size_readsTo (fill : ℕ → UInt8) (h : Agrees m fh stored) (hbounds : InBounds m fh loaded)
    (hlen : readLen m stored.value < 2 ^ 32) {off : ℕ}
    (hoff : off ≤ (bmFillstat m stored (some fh)).size) :
    ReadsTo m fill stored fh off (bmFillstat m stored (some fh)).size := by
  have hvalue : ∀ fh : FileHandle, (GetAnswer.value 0).Unchanged m fh := fun _ => trivial
  -- one read gets all there is, and the next one gets nothing
  have hread : ∀ {fh loaded} off, Agrees m fh stored → InBounds m fh loaded →
      ∃ val fh', bmRead m fill fh stored.value (.value 0) off
      ((bmFillstat m stored (some fh)).size + 1) =
          .ok (.ok val, fh') ∧ val.length = (bmFillstat m stored (some fh)).size - off ∧
          Agrees m fh' stored ∧
        (∃ loaded', InBounds m fh' loaded') ∧
        (bmFillstat m stored (some fh')).size = (bmFillstat m stored (some fh)).size := by
    intro fh loaded off h hbounds
    obtain ⟨val, fh', hread⟩ :=
      bmRead_value fill hbounds hlen 0 off ((bmFillstat m stored (some fh)).size + 1)
    obtain ⟨h', hbounds', hsize, hlength⟩ := bmRead_agrees h hbounds (hvalue fh) hread
    exact ⟨val, fh', hread, (hlength val rfl).trans (by omega), h', hbounds', hsize⟩
  have hend : ∀ {fh loaded}, Agrees m fh stored → InBounds m fh loaded →
      ReadsTo m fill stored fh (bmFillstat m stored (some fh)).size
      (bmFillstat m stored (some fh)).size := by
    intro fh loaded h hbounds
    obtain ⟨val, fh', hrun, hlength, -⟩ := hread (bmFillstat m stored (some fh)).size h hbounds
    obtain rfl : val = [] := List.length_eq_zero_iff.mp (hlength.trans (Nat.sub_self _))
    exact .eof (hvalue fh) (Nat.succ_pos _) hrun
  obtain ⟨val, fh', hrun, hlength, h', ⟨loaded', hbounds'⟩, hsize⟩ := hread off h hbounds
  by_cases hval : val = []
  · have hoff : (bmFillstat m stored (some fh)).size = off := by
      rw [hval, List.length_nil] at hlength
      omega
    have := hend h hbounds
    rwa [hoff] at this ⊢
  · refine .more (hvalue fh) hrun hval ?_
    have := hend h' hbounds'
    rw [hsize] at this
    rwa [show off + val.length = (bmFillstat m stored (some fh)).size by omega]

/-- What is written back is as long as the buffer, but for a newline. -/
theorem writtenBack_length (hbounds : InBounds m fh loaded) {value : Bytes}
    (hvalue : writtenBack m fh = .ok value)
    (hends : m.eol = true → fh.EndsInNewline) : fh.dataLen = value.length + m.eol.toNat := by
  have hle := hbounds.data_le
  have hallocated := hbounds.allocated
  rw [writtenBack] at hvalue
  cases heol : m.eol with
  | false =>
    obtain ⟨hload, hlen⟩ :=
      loadBytes_ok Fault.outOfBounds (show 0 + fh.dataLen ≤ fh.block.length by omega)
    rw [if_neg (by simp [heol]), hload] at hvalue
    obtain rfl := Except.ok.inj hvalue
    exact hlen.symm
  | true =>
    obtain ⟨hpos, hlast⟩ := hends heol
    obtain ⟨hload, -⟩ :=
      loadBytes_ok Fault.outOfBounds (show fh.dataLen - 1 + 1 ≤ fh.block.length by omega)
    obtain ⟨hload', hlen⟩ :=
      loadBytes_ok Fault.outOfBounds (show 0 + (fh.dataLen - 1) ≤ fh.block.length by omega)
    rw [if_pos heol, if_neg hpos.ne', hload, ok_bind, if_pos hlast, hload'] at hvalue
    obtain rfl := Except.ok.inj hvalue
    rw [hlen]
    show fh.dataLen = fh.dataLen - 1 + 1
    omega

/-- What `bm_do_write()` leaves: it has failed, or there was nothing to do, or all is
written back. -/
theorem bmDoWrite_cases {set setMtime : Option Chromium.Errno} {reply : Option Errno}
    {stored' : Stored} (hrun : bmDoWrite m fh stored set setMtime = .ok (reply, fh', stored')) :
    (fh' = fh ∧ (fh.dirty = false → stored' = stored)) ∨
      (fh.dirty = true ∧ set = none ∧ (fh.mtimeSet = true → setMtime = none) ∧
        writtenBack m fh = .ok stored'.value ∧
        fh' = { fh with dirty := false, mtimeSet := false }) := by
  rw [bmDoWrite] at hrun
  split at hrun
  next hclean =>
    obtain ⟨-, h⟩ := Prod.mk.inj (Except.ok.inj hrun)
    obtain ⟨rfl, rfl⟩ := Prod.mk.inj h
    exact .inl ⟨rfl, fun _ => rfl⟩
  next hdirty =>
    have hdirty : fh.dirty = true := by simpa using hdirty
    obtain ⟨value, hvalue, hrest⟩ := bind_eq_ok.mp hrun
    cases set with
    | some err =>
      obtain ⟨-, h⟩ := Prod.mk.inj (Except.ok.inj hrest)
      obtain ⟨rfl, rfl⟩ := Prod.mk.inj h
      exact .inl ⟨rfl, fun _ => rfl⟩
    | none =>
      cases hmtime : fh.mtimeSet with
      | false =>
        simp only [hmtime] at hrest
        obtain ⟨-, h⟩ := Prod.mk.inj (Except.ok.inj hrest)
        obtain ⟨rfl, rfl⟩ := Prod.mk.inj h
        exact .inr ⟨hdirty, rfl, fun h => (by cases h), hvalue, rfl⟩
      | true =>
        simp only [hmtime] at hrest
        cases setMtime with
        | some err =>
          obtain ⟨-, h⟩ := Prod.mk.inj (Except.ok.inj hrest)
          obtain ⟨rfl, rfl⟩ := Prod.mk.inj h
          exact .inl ⟨rfl, fun hclean => by rw [hdirty] at hclean; cases hclean⟩
        | none =>
          obtain ⟨-, h⟩ := Prod.mk.inj (Except.ok.inj hrest)
          obtain ⟨rfl, rfl⟩ := Prod.mk.inj h
          exact .inr ⟨hdirty, rfl, fun _ => rfl, hvalue, rfl⟩

theorem Agrees.of_dirty (hdirty : fh.dirty = true) (hmtime : fh.mtimeSet = true) :
    Agrees m fh stored :=
  ⟨hmtime.trans hdirty.symm, fun hclean => by rw [hdirty] at hclean; cases hclean⟩

theorem bmOpen_agrees {fh : Option FileHandle} (h : ∀ fh', fh = some fh' → Agrees m fh' stored)
    (trunc : Bool) (now : Timespec) : Agrees m (bmOpen fh trunc now) stored := by
  have hnew : Agrees m (bmFhNew fh) stored := by
    cases fh with
    | none =>
      refine ⟨rfl, fun _ hkept => ?_⟩
      rw [FileHandle.Kept] at hkept
      split at hkept <;> exact absurd rfl hkept
    | some fh => exact ⟨(h fh rfl).flags, (h fh rfl).clean⟩
  rw [bmOpen]
  split
  · exact .of_dirty rfl rfl
  · exact hnew

/-- The time is no longer written back, which must not be so where the buffer is. -/
theorem bmSetTimes_agrees {fh : Option FileHandle} {times : SetTimes} {now : Timespec}
    {set : Option Chromium.Errno} (h : ∀ fh', fh = some fh' → Agrees m fh' stored)
    (hsteady : ∀ fh', fh = some fh' → fh'.dirty = true → m.ctime = false ∧ times.mtime = none)
    (hfh : (bmSetTimes m fh stored times now set).2.1 = some fh') :
    Agrees m fh' (bmSetTimes m fh stored times now set).2.2 := by
  have hvalue : (bmSetTimes m fh stored times now set).2.2.value = stored.value := by
    cases set <;> rfl
  rcases bmSetTimes_fh fh stored times now set with hsame | ⟨hset, fh₀, hfh₀, hclear⟩
  · have hold := h fh' (hsame ▸ hfh)
    exact ⟨hold.flags, fun hclean hkept => by rw [hvalue]; exact hold.clean hclean hkept⟩
  · obtain rfl := Option.some.inj (hclear.symm.trans hfh)
    have hold := h fh₀ hfh₀
    have hclean : fh₀.dirty = false := by
      cases hdirty : fh₀.dirty with
      | false => rfl
      | true =>
        obtain ⟨hctime, hmtime⟩ := hsteady fh₀ hfh₀ hdirty
        rcases hset with hset | hset
        · rw [hctime] at hset
          cases hset
        · exact absurd hmtime hset
    exact ⟨hclean.symm, fun _ hkept => by rw [hvalue]; exact hold.clean hclean hkept⟩

theorem bmDoWrite_agrees (h : Agrees m fh stored) (hbounds : InBounds m fh loaded)
    {set setMtime : Option Chromium.Errno}
    (hends : fh.dirty = true → set = none ∧ setMtime = none → m.eol = true →
      fh.EndsInNewline ∨ ¬fh.Kept m)
    {reply : Option Errno} {stored' : Stored}
    (hrun : bmDoWrite m fh stored set setMtime = .ok (reply, fh', stored')) :
    Agrees m fh' stored' := by
  obtain ⟨rfl, hsame⟩ | ⟨hdirty, hnone, hset, hvalue, rfl⟩ := bmDoWrite_cases hrun
  · refine ⟨h.flags, fun hclean hkept => ?_⟩
    rw [hsame hclean]
    exact h.clean hclean hkept
  · have hends := hends hdirty ⟨hnone, hset (h.flags.trans hdirty)⟩
    refine ⟨rfl, fun _ hkept => ?_⟩
    exact writtenBack_length hbounds hvalue fun heol => (hends heol).resolve_right fun hnot =>
      hnot hkept

/-- The file handle, if there is one, is as it should be. -/
def FileState.Agreeing (m : Mount) (s : FileState) : Prop :=
  s.Bounded m ∧ ∀ fh, s.fh = some fh → Agrees m fh s.stored

section Runs

variable {s s' : FileState} {request : FileRequest}

theorem step_bounded_of_ok (h : s.Bounded m) (hlegal : request.Legal m s)
    (hstep : s.step m fill request = .ok s') :
    s'.Bounded m := by
  by_cases hsafe : request.Safe m s
  · obtain ⟨s₁, hok, h₁⟩ := step_bounded fill h hlegal hsafe
    obtain rfl := Except.ok.inj (hok.symm.trans hstep)
    exact h₁
  · obtain ⟨fault, hfault⟩ := step_faults fill h hsafe
    rw [hfault] at hstep
    cases hstep

/-- What one request preserves. -/
theorem step_agreeing (h : s.Agreeing m) (hlegal : (steadyFile m fill).legal s request)
    (hstep : s.step m fill request = .ok s') : s'.Agreeing m := by
  obtain ⟨⟨hlegal, halone⟩, hsteady⟩ := hlegal
  refine ⟨step_bounded_of_ok h.1 hlegal hstep, ?_⟩
  obtain ⟨hbounded, hagrees⟩ := h
  obtain ⟨fh, stored, loaded⟩ := s
  cases request with
  | change stored' => exact halone.elim
  | «open» trunc now =>
    obtain rfl := Except.ok.inj hstep
    intro fh' hfh'
    obtain rfl := Option.some.inj hfh'
    exact bmOpen_agrees hagrees trunc now
  | setTimes times now set =>
    obtain rfl := Except.ok.inj hstep
    intro fh' hfh'
    exact bmSetTimes_agrees hagrees (fun fh₀ hfh₀ hdirty => (hsteady fh₀ hfh₀ hdirty).1 times
      now set rfl) hfh'
  | read answer off max =>
    obtain ⟨fh, rfl, -⟩ := hlegal
    obtain ⟨⟨reply, fh₁⟩, hread, hdone⟩ := bind_eq_ok.mp hstep
    obtain rfl := Except.ok.inj hdone
    intro fh' hfh'
    obtain rfl := Option.some.inj hfh'
    exact (bmRead_agrees (hagrees fh rfl) (hbounded fh rfl) (halone fh rfl) hread).1
  | write append val off now =>
    obtain ⟨fh, rfl⟩ := Option.ne_none_iff_exists'.mp hlegal.1
    obtain ⟨reply, fh₁, hwrite, -, hfh₁⟩ := bmWrite_spec fill (hbounded fh rfl) append val off now
    simp only [FileState.step, hwrite, ok_bind] at hstep
    obtain rfl := Except.ok.inj hstep
    intro fh' hfh'
    obtain rfl := Option.some.inj hfh'
    obtain rfl | ⟨hfh₁, -⟩ := hfh₁
    · exact hagrees _ rfl
    · rw [hfh₁]; exact .of_dirty rfl rfl
  | setSize newLen now =>
    obtain ⟨fh, rfl⟩ := Option.ne_none_iff_exists'.mp hlegal.1
    obtain ⟨reply, fh₁, hset, -, hfh₁⟩ := bmSetSize_spec fill (hbounded fh rfl) newLen now
    simp only [FileState.step, hset, ok_bind] at hstep
    obtain rfl := Except.ok.inj hstep
    intro fh' hfh'
    obtain rfl := Option.some.inj hfh'
    obtain rfl | hfh₁ := hfh₁
    · exact hagrees _ rfl
    · rw [hfh₁]; exact .of_dirty rfl rfl
  | fsync set setMtime =>
    obtain ⟨fh, rfl⟩ := Option.ne_none_iff_exists'.mp hlegal
    simp only [FileState.step] at hstep
    split at hstep
    · obtain rfl := Except.ok.inj hstep
      exact hagrees
    next hreadonly =>
      obtain ⟨⟨reply, fh₁, stored₁⟩, hdo, hdone⟩ := bind_eq_ok.mp hstep
      obtain rfl := Except.ok.inj hdone
      intro fh' hfh'
      obtain rfl := Option.some.inj hfh'
      exact bmDoWrite_agrees (hagrees fh rfl) (hbounded fh rfl)
        (fun hdirty hnone => (hsteady fh rfl hdirty).2 (by rw [hnone.1, hnone.2])
          (by simpa using hreadonly)) hdo
  | release set setMtime =>
    obtain ⟨fh, rfl⟩ := Option.ne_none_iff_exists'.mp hlegal
    simp only [FileState.step, bmFree] at hstep
    split at hstep
    · obtain rfl := Except.ok.inj hstep
      intro fh' hfh'
      obtain rfl := Option.some.inj hfh'
      exact ⟨(hagrees fh rfl).flags, (hagrees fh rfl).clean⟩
    · obtain ⟨⟨fh₁, stored₁⟩, hfree, hdone⟩ := bind_eq_ok.mp hstep
      obtain ⟨⟨reply, fh₂, stored₂⟩, -, hnone⟩ := bind_eq_ok.mp hfree
      obtain ⟨rfl, rfl⟩ := Prod.mk.inj (Except.ok.inj hnone)
      obtain rfl := Except.ok.inj hdone
      intro fh' hfh'
      cases hfh'

theorem steadyFile_agreeing (m : Mount) (fill : ℕ → UInt8) :
    (steadyFile m fill).Invariant (·.Agreeing m) where
  init s hinit := by
    refine ⟨(safeFile_bounded m fill).init s hinit, fun fh hfh => ?_⟩
    rw [hinit] at hfh
    cases hfh
  step _ _ _ h hlegal hstep := step_agreeing h hlegal hstep

/-- In every run of requests that are steady, the size reported is what can be read. -/
theorem size_readable (m : Mount) (fill : ℕ → UInt8) {s : FileState}
    (hreach : (steadyFile m fill).Reachable s) :
    s.SizeAgrees m fill := by
  obtain ⟨hbounds, hagrees⟩ := hreach.holds (steadyFile_agreeing m fill)
  exact fun fh hfh => ⟨fun total hread => readsTo_size hread (hagrees fh hfh) (hbounds fh hfh)
    (Nat.zero_le _),
    fun hlen => size_readsTo fill (hagrees fh hfh) (hbounds fh hfh) hlen (Nat.zero_le _)⟩

theorem truncated_steady : (steadyFile withEol fun _ => 0).Reachable truncated := by
  have hinit : (steadyFile withEol fun _ => 0).Reachable ⟨none, ⟨[97], ⟨0, 0⟩, ⟨0, 0⟩⟩, 0⟩ :=
    .init rfl
  refine .step hinit (show (steadyFile withEol fun _ => 0).legal _ (.open true ⟨0, 0⟩) from
    ⟨⟨nofun, trivial⟩, ?_⟩) rfl
  intro fh hfh
  cases hfh

/-- A file that has just been truncated is empty. -/
theorem size_readable_truncated : truncated.SizeAgrees withEol fun _ => 0 :=
  size_readable withEol (fun _ => 0) truncated_steady

/-- Once the time of modification is set on it, the size that is reported is that of the
value before. -/
theorem touched_size_stale : ∃ s, (ownFile withEol fun _ => 0).Reachable s ∧
    ¬s.SizeAgrees withEol fun _ => 0 := by
  have hreach : (ownFile withEol fun _ => 0).Reachable truncated :=
    truncated_steady.of_stricter (fun _ h => h) (fun _ _ h => h.1) rfl
  refine ⟨_, .step hreach (show (ownFile withEol fun _ => 0).legal _
    (.setTimes ⟨none, some (some ⟨9, 0⟩)⟩ ⟨8, 0⟩ none) from ⟨⟨rfl, .inr nofun⟩, trivial⟩) rfl,
      fun hagrees => ?_⟩
  have hvalue : ∀ fh : FileHandle, (GetAnswer.value 0).Unchanged withEol fh := fun _ => trivial
  have hread := (hagrees _ rfl).1 0 (.eof (hvalue _) Nat.one_pos rfl)
  cases hread

end Runs

end BookmarkFS.Frontend
