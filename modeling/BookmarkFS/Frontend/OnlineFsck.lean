import BookmarkFS.Frontend.FileHandle
import BookmarkFS.Library.Transition

/-! # Checking a mounted directory

All descriptors of a directory share one file handle, which remembers in a flag
and a cookie who is in the middle of a scan. A descriptor is known by its cookie,
a piece of memory that the backend allocates and that is freed on release.
-/
namespace BookmarkFS.Frontend
open Library
open Chromium (FsckReport)

/-- The commands of `bm_ioctl()`. -/
inductive IoctlCmd where
  | fsckRewind
  | fsckNext
  | fsckApply
  | permd
  deriving DecidableEq

/-- What the backend returns for a command; no report stands for `BOOKMARKFS_FSCK_RESULT_END`. -/
abbrev CheckReply := Except Chromium.Errno (Option FsckReport)

/-- `bm_ioctl()` on the file handle of the directory. The backend is asked where `check` is looked
at, and `access` is what `has_access()` says. -/
def bmIoctl (m : Mount) (fh : FileHandle) (cookie : Cookie) (access : Bool) (check : CheckReply) :
    IoctlCmd → Except Errno (Option FsckReport) × FileHandle
  | .fsckRewind =>
    match check with
    | .error err => (.error (.backend err), fh)
    | .ok _ => (.ok none, { fh with fsck := false })
  | .fsckNext =>
    if access = false then (.error .acces, fh)
    else if fh.fsck = true ∧ fh.cookie ≠ some cookie then (.error .busy, fh)
    else
      match check with
      | .error err => (.error (.backend err), fh)
      | .ok none => (.ok none, { fh with fsck := false })
      | .ok (some report) => (.ok (some report), { fh with cookie := some cookie, fsck := true })
  | .fsckApply =>
    if m.readonly then (.error .rofs, fh)
    else if access = false then (.error .acces, fh)
    else
      match check with
      | .error err => (.error (.backend err), fh)
      | .ok none => (.ok none, { fh with dirty := true })
      | .ok (some report) => (.ok (some report), fh)
  | .permd =>
    if m.readonly then (.error .rofs, fh)
    else if access = false then (.error .acces, fh)
    else
      match check with
      | .error err => (.error (.backend err), fh)
      | .ok _ => (.ok none, { fh with dirty := true })

/-- `inval_dir()`, where `notified` tells whether the kernel has taken the notice. -/
def invalDir (m : Mount) (fh : FileHandle) (notified : Bool) : FileHandle :=
  if m.readonly = true ∨ m.exclusive = false then fh
  else if fh.dirty = true ∧ notified = true then { fh with dirty := false }
  else fh

/-- `bm_freedir()`; no file handle is left when the last descriptor goes. -/
def bmFreedir (fh : FileHandle) (cookie : Cookie) : Option FileHandle :=
  let fh := if fh.fsck = true ∧ fh.cookie = some cookie then { fh with fsck := false } else fh
  if 0 < fh.refcount - 1 then some { fh with refcount := fh.refcount - 1 } else none

/-- `bm_opendir()` after the backend has given out a cookie. -/
def bmOpendir (fh : Option FileHandle) : FileHandle := { bmFhNew fh with isDir := true }

/-- A request on a directory, through the descriptor with that cookie. -/
inductive DirOp where
  | opendir
  | ioctl (access : Bool) (check : CheckReply) (cmd : IoctlCmd)
  | fsyncdir (notified : Bool)
  | releasedir

structure DirRequest where
  ino : Ino
  cookie : Cookie
  op : DirOp

/-- The file handles, the descriptors that the kernel holds, and those in the middle of a scan: a
report has been returned through them, and neither has the end been reached, nor the scan been taken
back, nor the descriptor been released since. -/
structure Dirs where
  fhMap : Ino → Option FileHandle
  opened : Ino → Finset Cookie
  scanning : Ino → Finset Cookie

/-- The reply to an ioctl tells who is in the middle of a scan. -/
def scansOn (scanning : Finset Cookie) (cookie : Cookie) :
    IoctlCmd → Except Errno (Option FsckReport) → Finset Cookie
  | .fsckNext, .ok (some _) => insert cookie scanning
  | .fsckNext, .ok none => scanning.erase cookie
  | .fsckRewind, .ok _ => scanning.erase cookie
  | _, _ => scanning

def Dirs.step (m : Mount) (s : Dirs) (request : DirRequest) : Except Fault Dirs :=
  let ino := request.ino
  let cookie := request.cookie
  match request.op with
  | .opendir => .ok
    { s with
      fhMap := Function.update s.fhMap ino (some (bmOpendir (s.fhMap ino)))
      opened := Function.update s.opened ino (insert cookie (s.opened ino)) }
  | .ioctl access check cmd =>
    match s.fhMap ino with
    | none => .error .nullPointer
    | some fh =>
      let (reply, fh) := bmIoctl m fh cookie access check cmd
      .ok { s with
        fhMap := Function.update s.fhMap ino (some fh)
        scanning := Function.update s.scanning ino (scansOn (s.scanning ino) cookie cmd reply) }
  | .fsyncdir notified =>
    match s.fhMap ino with
    | none => .error .nullPointer
    | some fh => .ok { s with fhMap := Function.update s.fhMap ino (some (invalDir m fh notified)) }
  | .releasedir =>
    match s.fhMap ino with
    | none => .error .nullPointer
    | some fh => .ok
      { fhMap := Function.update s.fhMap ino (bmFreedir fh cookie)
        opened := Function.update s.opened ino ((s.opened ino).erase cookie)
        scanning := Function.update s.scanning ino ((s.scanning ino).erase cookie) }

/-- What the kernel and the allocator guarantee: a cookie is not that of another descriptor that is
open, and other requests come through open descriptors. -/
def DirRequest.Legal (s : Dirs) (request : DirRequest) : Prop :=
  match request.op with
  | .opendir => ∀ ino, request.cookie ∉ s.opened ino
  | _ => request.cookie ∈ s.opened request.ino

/-- Requests on directories in any order. -/
def dirs (m : Mount) : System Dirs DirRequest Fault where
  init s := s = ⟨fun _ => none, fun _ => ∅, fun _ => ∅⟩
  legal s request := request.Legal s
  step s request := s.step m request

/-- While one descriptor is in the middle of a scan, `BOOKMARKFS_IOC_FSCK_NEXT` through any other is
refused, and otherwise through none. -/
def Dirs.Exclusive (m : Mount) (s : Dirs) : Prop :=
  ∀ ino, ∀ cookie ∈ s.opened ino, ∃ fh, s.fhMap ino = some fh ∧ ∀ check,
    (∀ other ∈ s.scanning ino, other ≠ cookie →
      (bmIoctl m fh cookie true check .fsckNext).1 = .error .busy) ∧
    (s.scanning ino = ∅ → (bmIoctl m fh cookie true check .fsckNext).1 ≠ .error .busy)

def DirRequest.Considerate (s : Dirs) (request : DirRequest) : Prop :=
  ∀ access report, request.op = .ioctl access (.ok report) .fsckRewind →
    ∀ other ∈ s.scanning request.ino, other = request.cookie

/-- Requests on directories that take back no scan of others. -/
def considerateDirs (m : Mount) : System Dirs DirRequest Fault where
  init := (dirs m).init
  legal s request := (dirs m).legal s request ∧ request.Considerate s
  step := (dirs m).step

/-- The file handle of a directory goes with the descriptors, and with the scan on it. -/
structure Owned (fh : FileHandle) (opened scanning : Finset Cookie) : Prop where
  refcount : fh.refcount = opened.card
  nonempty : opened.Nonempty
  free : fh.fsck = false → scanning = ∅
  owner : fh.fsck = true → ∃ cookie ∈ opened, fh.cookie = some cookie ∧ scanning = {cookie}

/-- As `Owned`, where there may be no file handle. -/
def Dirs.OwnedAt (s : Dirs) (ino : Ino) : Prop :=
  match s.fhMap ino with
  | none => s.opened ino = ∅ ∧ s.scanning ino = ∅
  | some fh => Owned fh (s.opened ino) (s.scanning ino)

section Owned

variable {m : Mount} {fh : FileHandle} {opened scanning : Finset Cookie} {cookie : Cookie}

theorem Owned.congr (h : Owned fh opened scanning) {fh' : FileHandle}
    (hrefcount : fh'.refcount = fh.refcount)
    (hfsck : fh'.fsck = fh.fsck) (hcookie : fh'.cookie = fh.cookie) :
    Owned fh' opened scanning where
  refcount := hrefcount.trans h.refcount
  nonempty := h.nonempty
  free hfree := h.free (hfsck ▸ hfree)
  owner hset := hcookie ▸ h.owner (hfsck ▸ hset)

theorem Owned.finish (h : Owned fh opened scanning) (hmine : ∀ other ∈ scanning, other = cookie) :
    Owned { fh with fsck := false } opened (scanning.erase cookie) where
  refcount := h.refcount
  nonempty := h.nonempty
  free _ := Finset.eq_empty_of_forall_notMem fun other hother =>
    (Finset.mem_erase.mp hother).1 (hmine other (Finset.mem_of_mem_erase hother))
  owner := nofun

theorem Owned.mine (h : Owned fh opened scanning)
    (hfree : ¬(fh.fsck = true ∧ fh.cookie ≠ some cookie)) :
    ∀ other ∈ scanning, other = cookie := by
  intro other hother
  cases hfsck : fh.fsck with
  | false => rw [h.free hfsck] at hother; simp at hother
  | true =>
    obtain ⟨owner, -, howner, hscanning⟩ := h.owner hfsck
    have hcookie : fh.cookie = some cookie := by
      by_contra hne
      exact hfree ⟨hfsck, hne⟩
    rw [hscanning, Finset.mem_singleton] at hother
    exact hother.trans (Option.some.inj (howner.symm.trans hcookie))

/-- What one command preserves. -/
theorem bmIoctl_owned (h : Owned fh opened scanning) (hcookie : cookie ∈ opened) {access : Bool}
    {check : CheckReply} {cmd : IoctlCmd}
    (hconsiderate : cmd = .fsckRewind → ∀ report, check = .ok report →
      ∀ other ∈ scanning, other = cookie) :
    Owned (bmIoctl m fh cookie access check cmd).2 opened
      (scansOn scanning cookie cmd (bmIoctl m fh cookie access check cmd).1) := by
  cases cmd with
  | fsckRewind =>
    cases check with
    | error err => exact h
    | ok report => exact h.finish (hconsiderate rfl report rfl)
  | fsckNext =>
    simp only [bmIoctl]
    split
    · exact h
    split
    · exact h
    next hfree =>
      cases check with
      | error err => exact h
      | ok report =>
        cases report with
        | none => exact h.finish (h.mine hfree)
        | some report =>
          refine ⟨h.refcount, h.nonempty, nofun, fun _ => ⟨cookie, hcookie, rfl, ?_⟩⟩
          exact Finset.eq_singleton_iff_unique_mem.mpr ⟨Finset.mem_insert_self _ _,
            fun other hother =>
            (Finset.mem_insert.mp hother).elim id (h.mine hfree other)⟩
  | fsckApply =>
    simp only [bmIoctl]
    split
    · exact h
    split
    · exact h
    · cases check with
      | error err => exact h
      | ok report =>
        cases report with
        | none => exact h.congr rfl rfl rfl
        | some report => exact h
  | permd =>
    simp only [bmIoctl]
    split
    · exact h
    split
    · exact h
    · cases check with
      | error err => exact h
      | ok report => exact h.congr rfl rfl rfl

end Owned

/-- What a release preserves. -/
theorem bmFreedir_owned {fh : FileHandle} {opened scanning : Finset Cookie} {cookie : Cookie}
    (h : Owned fh opened scanning) (hcookie : cookie ∈ opened) : match bmFreedir fh cookie with
      | none => opened.erase cookie = ∅ ∧ scanning.erase cookie = ∅
      | some fh' => Owned fh' (opened.erase cookie) (scanning.erase cookie) := by
  have hcard := Finset.card_erase_of_mem hcookie
  have hsub : scanning ⊆ opened := by
    cases hfsck : fh.fsck with
    | false => rw [h.free hfsck]; exact Finset.empty_subset _
    | true =>
      obtain ⟨owner, howner, -, rfl⟩ := h.owner hfsck
      exact Finset.singleton_subset_iff.mpr howner
  -- the scan ends if it is that of the descriptor released, and goes on otherwise
  obtain ⟨fh', hfh', H⟩ : ∃ fh', (if fh.fsck = true ∧ fh.cookie = some cookie then
      { fh with fsck := false } else fh) = fh' ∧ Owned fh' opened (scanning.erase cookie) := by
    refine ⟨_, rfl, ?_⟩
    split
    next hmine => exact h.finish (h.mine fun hne => hne.2 hmine.2)
    next hother =>
      rw [Finset.erase_eq_of_notMem fun hmem => ?_]
      · exact h
      cases hfsck : fh.fsck with
      | false => rw [h.free hfsck] at hmem; simp at hmem
      | true =>
        obtain ⟨owner, -, howner, rfl⟩ := h.owner hfsck
        rw [Finset.mem_singleton] at hmem
        exact hother ⟨hfsck, hmem ▸ howner⟩
  rw [bmFreedir, hfh']
  by_cases hpos : 0 < fh'.refcount - 1
  · simp only [if_pos hpos]
    rw [H.refcount] at hpos ⊢
    refine ⟨hcard.symm, Finset.card_pos.mp (hcard ▸ hpos), H.free, fun hfsck => ?_⟩
    obtain ⟨owner, howner, hown, hscanning⟩ := H.owner hfsck
    refine ⟨owner, Finset.mem_erase.mpr ⟨fun heq => ?_, howner⟩, hown, hscanning⟩
    have : owner ∈ scanning.erase cookie := hscanning ▸ Finset.mem_singleton_self owner
    exact (Finset.mem_erase.mp this).1 heq
  · simp only [if_neg hpos]
    rw [H.refcount] at hpos
    have hempty : opened.erase cookie = ∅ := Finset.card_eq_zero.mp (by omega)
    exact ⟨hempty, Finset.subset_empty.mp (hempty ▸ Finset.erase_subset_erase cookie hsub)⟩

/-- A request on one directory leaves the others alone. -/
theorem step_other {m : Mount} {s s' : Dirs} {request : DirRequest}
    (hstep : s.step m request = .ok s')
    {ino : Ino} (hino : ino ≠ request.ino) : s'.fhMap ino = s.fhMap ino ∧
      s'.opened ino = s.opened ino ∧ s'.scanning ino = s.scanning ino := by
  obtain ⟨at', cookie, op⟩ := request
  have hino : ino ≠ at' := hino
  cases op with
  | opendir =>
    cases hstep
    exact ⟨Function.update_of_ne hino _ _, Function.update_of_ne hino _ _, rfl⟩
  | ioctl access check cmd =>
    simp only [Dirs.step] at hstep
    split at hstep
    · cases hstep
    · cases hstep
      exact ⟨Function.update_of_ne hino _ _, rfl, Function.update_of_ne hino _ _⟩
  | fsyncdir notified =>
    simp only [Dirs.step] at hstep
    split at hstep
    · cases hstep
    · cases hstep
      exact ⟨Function.update_of_ne hino _ _, rfl, rfl⟩
  | releasedir =>
    simp only [Dirs.step] at hstep
    split at hstep
    · cases hstep
    · cases hstep
      exact ⟨Function.update_of_ne hino _ _, Function.update_of_ne hino _ _,
        Function.update_of_ne hino _ _⟩

/-- What one request preserves. -/
theorem step_owned {m : Mount} {s s' : Dirs} {request : DirRequest} (h : ∀ ino, s.OwnedAt ino)
    (hlegal : request.Legal s) (hconsiderate : request.Considerate s)
    (hstep : s.step m request = .ok s') (ino : Ino) :
    s'.OwnedAt ino := by
  by_cases hino : ino = request.ino
  swap
  · obtain ⟨hmap, hopened, hscanning⟩ := step_other hstep hino
    have := h ino
    rwa [Dirs.OwnedAt, hmap, hopened, hscanning]
  subst hino
  have hat := h request.ino
  obtain ⟨ino, cookie, op⟩ := request
  simp only [Dirs.OwnedAt] at hat ⊢
  cases op with
  | opendir =>
    cases hstep
    have hnew : cookie ∉ s.opened ino := hlegal ino
    simp only [Function.update_self]
    cases hfh : s.fhMap ino with
    | none =>
      rw [hfh] at hat
      obtain ⟨hopened, hscanning⟩ := hat
      simp only [hopened, hscanning]
      exact ⟨rfl, Finset.insert_nonempty _ _, fun _ => rfl, nofun⟩
    | some fh =>
      rw [hfh] at hat
      refine ⟨?_, Finset.insert_nonempty _ _, hat.free, fun hfsck => ?_⟩
      · rw [Finset.card_insert_of_notMem hnew, ← hat.refcount]
        rfl
      · obtain ⟨owner, howner, hcookie⟩ := hat.owner hfsck
        exact ⟨owner, Finset.mem_insert_of_mem howner, hcookie⟩
  | ioctl access check cmd =>
    simp only [Dirs.step] at hstep
    split at hstep
    · cases hstep
    next fh hfh =>
      rw [hfh] at hat
      cases hstep
      simp only [Function.update_self]
      refine bmIoctl_owned hat hlegal fun hcmd report hreport => ?_
      subst hcmd hreport
      exact hconsiderate access report rfl
  | fsyncdir notified =>
    simp only [Dirs.step] at hstep
    split at hstep
    · cases hstep
    next fh hfh =>
      rw [hfh] at hat
      cases hstep
      simp only [Function.update_self, invalDir]
      split
      · exact hat
      split
      · exact hat.congr rfl rfl rfl
      · exact hat
  | releasedir =>
    simp only [Dirs.step] at hstep
    split at hstep
    · cases hstep
    next fh hfh =>
      rw [hfh] at hat
      cases hstep
      simp only [Function.update_self]
      exact bmFreedir_owned hat hlegal

theorem considerateDirs_owned (m : Mount) : (considerateDirs m).Invariant fun s => ∀ ino,
    s.OwnedAt ino where
  init := by
    rintro s rfl ino
    exact ⟨rfl, rfl⟩
  step _ _ _ h hlegal hstep := step_owned h hlegal.1 hlegal.2 hstep

/-- Whoever is in the middle of a scan is the one that the file handle knows. -/
theorem Dirs.exclusive {m : Mount} {s : Dirs} (h : ∀ ino, s.OwnedAt ino) : s.Exclusive m := by
  intro ino cookie hcookie
  have hat := h ino
  rw [Dirs.OwnedAt] at hat
  cases hfh : s.fhMap ino with
  | none =>
    rw [hfh] at hat
    rw [hat.1] at hcookie
    simp at hcookie
  | some fh =>
    rw [hfh] at hat
    refine ⟨fh, rfl, fun check => ⟨fun other hother hne => ?_, fun hnone => ?_⟩⟩
    · have hbusy : fh.fsck = true ∧ fh.cookie ≠ some cookie := by
        by_contra hfree
        exact hne (hat.mine hfree other hother)
      simp only [bmIoctl]
      rw [if_neg (by simp), if_pos hbusy]
    · have hfree : fh.fsck = false := by
        cases hfsck : fh.fsck with
        | false => rfl
        | true =>
          obtain ⟨owner, -, -, hscanning⟩ := hat.owner hfsck
          rw [hnone] at hscanning
          exact absurd hscanning.symm (Finset.singleton_ne_empty owner)
      simp only [bmIoctl]
      rw [if_neg (by simp), if_neg (by simp [hfree])]
      split <;> simp

/-- Unless a scan is taken back by someone else, it keeps all others out until it is over. -/
theorem scans_exclusive (m : Mount) {s : Dirs} (hreach : (considerateDirs m).Reachable s) :
    s.Exclusive m :=
  Dirs.exclusive (hreach.holds (considerateDirs_owned m))

/-- Two descriptors of the directory 1, the first one in the middle of a scan. -/
def scanned : Dirs where
  fhMap := Function.update (fun _ => none) 1
    (some { FileHandle.new with refcount := 2, fsck := true, isDir := true, cookie := some 10 })
  opened := Function.update (fun _ => ∅) 1 {10, 20}
  scanning := Function.update (fun _ => ∅) 1 {10}

/-- The requests that lead there. -/
theorem scanned_reachable (m : Mount) : (considerateDirs m).Reachable scanned := by
  have h₁ : (considerateDirs m).Reachable ⟨Function.update (fun _ => none) 1
    (some (bmOpendir none)),
      Function.update (fun _ => ∅) 1 {10}, fun _ => ∅⟩ :=
    .step (.init rfl) (show (considerateDirs m).legal _ ⟨1, 10, .opendir⟩ from
      ⟨fun ino => Finset.notMem_empty _, nofun⟩) rfl
  have h₂ : (considerateDirs m).Reachable
      ⟨Function.update (fun _ => none) 1 (some (bmOpendir (some (bmOpendir none)))),
        Function.update (fun _ => ∅) 1 {20, 10}, fun _ => ∅⟩ := by
    refine .step h₁ (show (considerateDirs m).legal _ ⟨1, 20, .opendir⟩ from ⟨fun ino => ?_, nofun⟩)
      ?_
    · by_cases hino : ino = 1
      · subst hino; simp
      · simp [hino]
    · simp [considerateDirs, dirs, Dirs.step, Function.update_idem]
  refine .step h₂ (show (considerateDirs m).legal _
    ⟨1, 10, .ioctl true (.ok (some ⟨.nameBadLen, 5, 0, []⟩)) .fsckNext⟩ from
      ⟨by simp [dirs, DirRequest.Legal], fun _ _ h => by cases h⟩) ?_
  simp [considerateDirs, dirs, Dirs.step, Function.update_idem, scanned, bmIoctl,
    bmOpendir, bmFhNew,
    FileHandle.new, scansOn, Finset.pair_comm]

def writable : Mount := ⟨false, true, false, false, 32768, accepted_default⟩

/-- The other descriptor is refused. -/
theorem scans_exclusive_scanned : scanned.Exclusive writable ∧
    ∃ fh, scanned.fhMap 1 = some fh ∧ (bmIoctl writable fh 20 true (.ok none) .fsckNext).1 =
    .error .busy := by
  have h := scans_exclusive writable (scanned_reachable writable)
  obtain ⟨fh, hfh, hcheck⟩ := h 1 20 (by decide)
  exact ⟨h, fh, hfh, (hcheck (.ok none)).1 10 (by decide) (by decide)⟩

/-- A scan is taken back through the other descriptor, which is then not refused any more. -/
theorem scan_taken_back : ∃ s, (dirs writable).Reachable s ∧ 10 ∈ s.scanning 1 ∧
    ¬s.Exclusive writable := by
  have hscanned : (dirs writable).Reachable scanned :=
    (scanned_reachable _).of_stricter (fun _ h => h) (fun _ _ h => h.1) rfl
  refine ⟨_, .step hscanned (show (dirs _).legal _ ⟨1, 20,
    .ioctl true (.ok none) .fsckRewind⟩ from ?_) rfl,
    ?_, fun h => ?_⟩
  · simp [dirs, DirRequest.Legal, scanned]
  · simp [scansOn, scanned]
  · obtain ⟨fh, hfh, hcheck⟩ := h 1 20 (by simp [scanned])
    have hbusy := (hcheck (.ok none)).1 10 (by simp [scansOn, scanned]) (by decide)
    obtain rfl := Option.some.inj hfh
    cases hbusy

end BookmarkFS.Frontend
