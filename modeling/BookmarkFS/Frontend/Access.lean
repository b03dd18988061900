import BookmarkFS.Frontend.OnlineFsck

/-! # Permission of a caller

The kernel does not check the permission of a caller of `ioctl()`, so `bm_ioctl()`
does. The mode of the mount has a bit for each class of callers and each permission,
and a request may need several permissions of the one class that the caller is in.
-/
namespace BookmarkFS.Frontend
open Chromium (FsckReport)

/-- The user and the group of a process, in `struct fuse_ctx` and in that of the mount. -/
structure Ids where
  uid : UInt32
  gid : UInt32
  deriving DecidableEq

/-- The classes of callers that a file mode tells apart. -/
inductive PermClass where
  | owner
  | group
  | other
  deriving DecidableEq

inductive Perm where
  | read
  | write
  | search
  deriving DecidableEq

/-- `R_OK`, `W_OK` and `X_OK`. -/
def Perm.ok : Perm → BitVec 32
  | .read => 4
  | .write => 2
  | .search => 1

/-- `S_IRUSR` and the eight others. -/
def PermClass.mode : PermClass → Perm → BitVec 32
  | .owner, .read => 0o400
  | .owner, .write => 0o200
  | .owner, .search => 0o100
  | .group, .read => 0o040
  | .group, .write => 0o020
  | .group, .search => 0o010
  | .other, .read => 0o004
  | .other, .write => 0o002
  | .other, .search => 0o001

/-- `S_IRUSR | S_IRGRP | S_IROTH`, or those of another permission. -/
def Perm.modes (perm : Perm) : BitVec 32 :=
  PermClass.owner.mode perm ||| PermClass.group.mode perm ||| PermClass.other.mode perm

/-- `S_IRUSR | S_IWUSR | S_IXUSR`, or those of another class. -/
def PermClass.modes (cls : PermClass) : BitVec 32 :=
  cls.mode .read ||| cls.mode .write ||| cls.mode .search

/-- The mode bits that `has_access()` looks at. -/
def reqMode (fctx ctx : Ids) (toCheck : BitVec 32) : BitVec 32 :=
  let reqMode := 0
  let reqMode := if toCheck &&& Perm.read.ok ≠ 0 then reqMode ||| Perm.read.modes else reqMode
  let reqMode := if toCheck &&& Perm.write.ok ≠ 0 then reqMode ||| Perm.write.modes else reqMode
  let reqMode := if toCheck &&& Perm.search.ok ≠ 0 then reqMode ||| Perm.search.modes else reqMode
  let reqMode := if fctx.uid ≠ ctx.uid then reqMode &&& ~~~PermClass.owner.modes else reqMode
  if fctx.gid ≠ ctx.gid then reqMode &&& ~~~PermClass.group.modes else reqMode

/-- `has_access()` for the caller `fctx`, where `accmode` is the bit field of the mount's flags. -/
def hasAccess (fctx ctx : Ids) (accmode : BitVec 9) (toCheck : BitVec 32) : Bool :=
  reqMode fctx ctx toCheck &&& ~~~accmode.zeroExtend 32 != 0

/-- What `bm_ioctl()` asks `has_access()` for. -/
def IoctlCmd.toCheck : IoctlCmd → BitVec 32
  | .fsckRewind => 0
  | .fsckNext => Perm.read.ok
  | .fsckApply => Perm.write.ok ||| Perm.search.ok
  | .permd => Perm.write.ok ||| Perm.search.ok

/-- `bm_ioctl()` of a caller. -/
def bmIoctlBy (m : Mount) (fh : FileHandle) (cookie : Cookie) (fctx ctx : Ids) (accmode : BitVec 9)
    (check : CheckReply) (cmd : IoctlCmd) : Except Errno (Option FsckReport) × FileHandle :=
  bmIoctl m fh cookie (hasAccess fctx ctx accmode cmd.toCheck) check cmd

def Ids.permClass (fctx ctx : Ids) : PermClass :=
  if fctx.uid = ctx.uid then .owner else if fctx.gid = ctx.gid then .group else .other

/-- The classes whose bits `has_access()` looks at: the caller is no other owner, and of no
other group. -/
def Ids.Matches (fctx ctx : Ids) : PermClass → Prop
  | .owner => fctx.uid = ctx.uid
  | .group => fctx.gid = ctx.gid
  | .other => True

def Asks (toCheck : BitVec 32) (perm : Perm) : Prop := toCheck &&& perm.ok ≠ 0

/-- The number of a mode bit. -/
def PermClass.bit : PermClass → Perm → ℕ
  | .owner, .read => 8
  | .owner, .write => 7
  | .owner, .search => 6
  | .group, .read => 5
  | .group, .write => 4
  | .group, .search => 3
  | .other, .read => 2
  | .other, .write => 1
  | .other, .search => 0

def Grants (accmode : BitVec 9) (cls : PermClass) (perm : Perm) : Prop :=
  accmode.getLsbD (cls.bit perm) = true

/-- The mode gives the class everything that the request asks for. -/
def GrantsAll (accmode : BitVec 9) (cls : PermClass) (toCheck : BitVec 32) : Prop :=
  ∀ perm, Asks toCheck perm → Grants accmode cls perm

/-- The request is for the command to be carried out, and it is. -/
def Serves (m : Mount) (fh : FileHandle) (cookie : Cookie) (fctx ctx : Ids) (accmode : BitVec 9)
    (check : CheckReply) (cmd : IoctlCmd) : Prop :=
  (bmIoctlBy m fh cookie fctx ctx accmode check cmd).1 ≠ .error .acces ∧
    (bmIoctlBy m fh cookie fctx ctx accmode check cmd).1 ≠ .error .rofs

instance : ∀ cls, Decidable (Ids.Matches fctx ctx cls)
  | .owner => inferInstanceAs (Decidable (fctx.uid = ctx.uid))
  | .group => inferInstanceAs (Decidable (fctx.gid = ctx.gid))
  | .other => inferInstanceAs (Decidable True)

instance (toCheck : BitVec 32) (perm : Perm) : Decidable (Asks toCheck perm) :=
  inferInstanceAs (Decidable (toCheck &&& perm.ok ≠ 0))

instance (accmode : BitVec 9) (cls : PermClass) (perm : Perm) :
    Decidable (Grants accmode cls perm) :=
  inferInstanceAs (Decidable (accmode.getLsbD (cls.bit perm) = true))

section Bits

variable {fctx ctx : Ids} {accmode : BitVec 9} {toCheck : BitVec 32}

theorem mode_eq_twoPow (cls : PermClass) (perm : Perm) :
    cls.mode perm = BitVec.twoPow 32 (cls.bit perm) := by
  cases cls <;> cases perm <;> rfl

theorem bit_lt (cls : PermClass) (perm : Perm) : cls.bit perm < 9 := by
  cases cls <;> cases perm <;> decide

theorem bit_inj {cls cls' : PermClass} {perm perm' : Perm} :
    cls.bit perm = cls'.bit perm' ↔ cls = cls' ∧ perm = perm' := by
  cases cls <;> cases perm <;> cases cls' <;> cases perm' <;> decide

theorem mode_getLsbD (cls : PermClass) (perm : Perm) (i : ℕ) :
    (cls.mode perm).getLsbD i = decide (cls.bit perm = i) := by
  have hlt : cls.bit perm < 32 := (bit_lt cls perm).trans (by decide)
  rw [mode_eq_twoPow, BitVec.getLsbD_twoPow]
  simp [hlt]

theorem Perm.modes_getLsbD (perm : Perm) (i : ℕ) :
    perm.modes.getLsbD i = true ↔ ∃ cls : PermClass, cls.bit perm = i := by
  simp only [Perm.modes, BitVec.getLsbD_or, mode_getLsbD, Bool.or_eq_true, decide_eq_true_eq]
  constructor
  · rintro ((h | h) | h)
    · exact ⟨.owner, h⟩
    · exact ⟨.group, h⟩
    · exact ⟨.other, h⟩
  · rintro ⟨cls, h⟩
    cases cls
    · exact .inl (.inl h)
    · exact .inl (.inr h)
    · exact .inr h

theorem PermClass.modes_getLsbD (cls : PermClass) (i : ℕ) :
    cls.modes.getLsbD i = true ↔ ∃ perm, cls.bit perm = i := by
  simp only [PermClass.modes, BitVec.getLsbD_or, mode_getLsbD, Bool.or_eq_true, decide_eq_true_eq]
  constructor
  · rintro ((h | h) | h)
    · exact ⟨.read, h⟩
    · exact ⟨.write, h⟩
    · exact ⟨.search, h⟩
  · rintro ⟨perm, h⟩
    cases perm
    · exact .inl (.inl h)
    · exact .inl (.inr h)
    · exact .inr h

theorem getLsbD_ite_or {p : Prop} [Decidable p] (x y : BitVec 32) (i : ℕ) :
    (if p then x ||| y else x).getLsbD i = true ↔ x.getLsbD i = true ∨ p ∧ y.getLsbD i = true := by
  by_cases h : p
  · simp [h]
  · simp [h]

theorem getLsbD_ite_and_not {p : Prop} [Decidable p] (x y : BitVec 32) (i : ℕ) :
    (if p then x &&& ~~~y else x).getLsbD i = true ↔ x.getLsbD i = true ∧
    ¬(p ∧ y.getLsbD i = true) := by
  by_cases h : p
  · have hlt : x.getLsbD i = true → i < 32 := BitVec.lt_of_getLsbD
    simp only [h, if_true, BitVec.getLsbD_and, BitVec.getLsbD_not, Bool.and_eq_true,
      decide_eq_true_eq,
      Bool.not_eq_true', true_and, Bool.not_eq_true]
    exact ⟨fun hx => ⟨hx.1, hx.2.2⟩, fun hx => ⟨hx.1, hlt hx.1, hx.2⟩⟩
  · simp [h]

/-- The bits that remain are those of the permissions asked for, in the classes looked at. -/
theorem reqMode_getLsbD (i : ℕ) :
    (reqMode fctx ctx toCheck).getLsbD i = true ↔
      ∃ cls perm, PermClass.bit cls perm = i ∧ Ids.Matches fctx ctx cls ∧ Asks toCheck perm := by
  simp only [reqMode, getLsbD_ite_and_not, getLsbD_ite_or, Perm.modes_getLsbD,
    PermClass.modes_getLsbD]
  constructor
  · rintro ⟨⟨hasked, howner⟩, hgroup⟩
    obtain ⟨cls, perm, hbit, hasks⟩ : ∃ cls perm, PermClass.bit cls perm = i ∧
      Asks toCheck perm := by
      rcases hasked with ((hzero | ⟨hasks, cls, hbit⟩) | ⟨hasks, cls, hbit⟩) | ⟨hasks, cls, hbit⟩
      · simp at hzero
      all_goals exact ⟨cls, _, hbit, hasks⟩
    refine ⟨cls, perm, hbit, ?_, hasks⟩
    cases cls with
    | owner => exact not_not.mp fun h => howner ⟨h, perm, hbit⟩
    | group => exact not_not.mp fun h => hgroup ⟨h, perm, hbit⟩
    | other => trivial
  · rintro ⟨cls, perm, hbit, hmatches, hasks⟩
    refine ⟨⟨?_, ?_⟩, ?_⟩
    · cases perm
      · exact .inl (.inl (.inr ⟨hasks, cls, hbit⟩))
      · exact .inl (.inr ⟨hasks, cls, hbit⟩)
      · exact .inr ⟨hasks, cls, hbit⟩
    · rintro ⟨howner, perm', hbit'⟩
      obtain ⟨rfl, -⟩ := bit_inj.mp (hbit.trans hbit'.symm)
      exact howner hmatches
    · rintro ⟨hgroup, perm', hbit'⟩
      obtain ⟨rfl, -⟩ := bit_inj.mp (hbit.trans hbit'.symm)
      exact hgroup hmatches

/-- The expression is true when the mode lacks something, in any of the classes looked at. -/
theorem hasAccess_iff :
    hasAccess fctx ctx accmode toCheck = true ↔
      ∃ cls, Ids.Matches fctx ctx cls ∧ ∃ perm, Asks toCheck perm ∧ ¬Grants accmode cls perm := by
  have hbits : reqMode fctx ctx toCheck &&& ~~~accmode.zeroExtend 32 ≠ 0 ↔
      ∃ i < 32, (reqMode fctx ctx toCheck).getLsbD i = true ∧ ¬accmode.getLsbD i = true := by
    rw [Ne, BitVec.eq_of_getLsbD_eq_iff]
    simp only [BitVec.getLsbD_and, BitVec.getLsbD_not, BitVec.truncate_eq_setWidth,
      BitVec.getLsbD_setWidth]
    push Not
    refine exists_congr fun i => and_congr_right fun hi => ?_
    simp [hi]
  rw [hasAccess, bne_iff_ne, hbits]
  simp only [reqMode_getLsbD]
  constructor
  · rintro ⟨i, -, ⟨cls, perm, rfl, hmatches, hasks⟩, hlacks⟩
    exact ⟨cls, hmatches, perm, hasks, hlacks⟩
  · rintro ⟨cls, hmatches, perm, hasks, hlacks⟩
    exact ⟨cls.bit perm, (bit_lt cls perm).trans (by decide), ⟨cls, perm, rfl, hmatches, hasks⟩,
      hlacks⟩

theorem matches_permClass : Ids.Matches fctx ctx (fctx.permClass ctx) := by
  unfold Ids.permClass
  split_ifs with huid hgid
  · exact huid
  · exact hgid
  · trivial

theorem hasAccess_of_lacking (hlacks : ¬GrantsAll accmode (fctx.permClass ctx) toCheck) :
    hasAccess fctx ctx accmode toCheck = true := by
  simp only [GrantsAll, not_forall] at hlacks
  obtain ⟨perm, hasks, hlacks⟩ := hlacks
  exact hasAccess_iff.mpr ⟨_, matches_permClass, perm, hasks, hlacks⟩

/-- The commands that are checked are refused when `has_access()` says no, and those that change
something on a mount that is read-only. -/
theorem serves_iff {m : Mount} {fh : FileHandle} {cookie : Cookie} {check : CheckReply}
    {cmd : IoctlCmd} (hchecked : cmd ≠ .fsckRewind) :
    Serves m fh cookie fctx ctx accmode check cmd ↔
      hasAccess fctx ctx accmode cmd.toCheck = true ∧ (cmd ≠ .fsckNext → m.readonly = false) := by
  unfold Serves bmIoctlBy
  generalize hasAccess fctx ctx accmode cmd.toCheck = access
  cases cmd with
  | fsckRewind => exact absurd rfl hchecked
  | fsckNext =>
    by_cases hbusy : fh.fsck = true ∧ fh.cookie ≠ some cookie
    · cases access <;> simp [bmIoctl, hbusy]
    · rcases check with err | _ | report <;> cases access <;> simp [bmIoctl, hbusy]
  | fsckApply =>
    rcases check with err | _ | report <;> cases access <;> cases hro :
      m.readonly <;> simp [bmIoctl, hro]
  | permd =>
    rcases check with err | _ | report <;> cases access <;> cases hro :
      m.readonly <;> simp [bmIoctl, hro]

end Bits

/-- The permission check is right for the request of the caller: it lets through whom the mode
permits, the commands are carried out for nobody else, those that change something only on a mount
that can be written, and a mode with fewer bits lets nobody through whom this one keeps out. -/
structure AccessChecked (fctx ctx : Ids) (accmode : BitVec 9) (toCheck : BitVec 32) : Prop where
  granted : hasAccess fctx ctx accmode toCheck = true ↔
    GrantsAll accmode (fctx.permClass ctx) toCheck
  served : ∀ m fh cookie check cmd, cmd ≠ .fsckRewind → cmd.toCheck = toCheck →
    Serves m fh cookie fctx ctx accmode check cmd →
      GrantsAll accmode (fctx.permClass ctx) toCheck ∧ (cmd ≠ .fsckNext → m.readonly = false)
  monotone : ∀ fewer : BitVec 9, (∀ cls perm, Grants fewer cls perm → Grants accmode cls perm) →
    hasAccess fctx ctx accmode toCheck = false → hasAccess fctx ctx fewer toCheck = false

/-- The check is right only where it lets through and should: the class of the caller has all
permissions asked for, and another class that is looked at lacks one of them. -/
theorem access_checked (fctx ctx : Ids) (accmode : BitVec 9) (toCheck : BitVec 32) :
    AccessChecked fctx ctx accmode toCheck ↔
      GrantsAll accmode (fctx.permClass ctx) toCheck ∧
        ∃ cls, Ids.Matches fctx ctx cls ∧ ∃ perm, Asks toCheck perm ∧ ¬Grants accmode cls perm := by
  constructor
  · intro h
    have hgrants : GrantsAll accmode (fctx.permClass ctx) toCheck := by
      by_contra hlacks
      exact hlacks (h.granted.mp (hasAccess_of_lacking hlacks))
    exact ⟨hgrants, hasAccess_iff.mp (h.granted.mpr hgrants)⟩
  · rintro ⟨hgrants, hlacking⟩
    have haccess : hasAccess fctx ctx accmode toCheck = true := hasAccess_iff.mpr hlacking
    exact {
      granted := iff_of_true haccess hgrants
      served := fun m fh cookie check cmd hchecked _ hserves =>
        ⟨hgrants, ((serves_iff hchecked).mp hserves).2⟩
      monotone := fun fewer _ hrefused => absurd (haccess.symm.trans hrefused) (by decide) }

/-- With the default mode a stranger, who has no permission at all, has a repair carried out;
with a mode that permits everything the owner may not even scan, but may when the group can no
longer read. -/
theorem access_unchecked :
    (¬AccessChecked ⟨1000, 1000⟩ ⟨0, 0⟩ 0o700 (Perm.write.ok ||| Perm.search.ok) ∧
      ¬Grants 0o700 (Ids.permClass ⟨1000, 1000⟩ ⟨0, 0⟩) .write ∧
      Serves writable (bmOpendir none) 1 ⟨1000, 1000⟩ ⟨0, 0⟩ 0o700 (.ok none) .fsckApply) ∧
    (¬AccessChecked ⟨0, 0⟩ ⟨0, 0⟩ 0o777 Perm.read.ok ∧
      hasAccess ⟨0, 0⟩ ⟨0, 0⟩ 0o777 Perm.read.ok = false ∧
      hasAccess ⟨0, 0⟩ ⟨0, 0⟩ 0o737 Perm.read.ok = true) := by
  have hstranger : hasAccess ⟨1000, 1000⟩ ⟨0, 0⟩ 0o700 (Perm.write.ok ||| Perm.search.ok) =
    true := by decide
  have hlacks : ¬Grants 0o700 (Ids.permClass ⟨1000, 1000⟩ ⟨0, 0⟩) .write := by decide
  have howner : hasAccess ⟨0, 0⟩ ⟨0, 0⟩ 0o777 Perm.read.ok = false := by decide
  have hfewer : hasAccess ⟨0, 0⟩ ⟨0, 0⟩ 0o737 Perm.read.ok = true := by decide
  refine ⟨⟨fun h => hlacks (h.granted.mp hstranger .write (by decide)), hlacks, ?_⟩,
    ⟨fun h => ?_, howner, hfewer⟩⟩
  · exact (serves_iff (by decide)).mpr ⟨hstranger, fun _ => rfl⟩
  · have hlost := h.monotone 0o737 (by intro cls perm; cases cls <;> cases perm <;> decide) howner
    exact Bool.false_ne_true (hlost.symm.trans hfewer)

end BookmarkFS.Frontend
