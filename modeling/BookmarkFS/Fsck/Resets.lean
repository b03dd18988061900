import BookmarkFS.Fsck.Traversal
import BookmarkFS.Library.Transition

/-! # Going back to the start

How far a directory has been checked is kept in two places: the record on the stack
tells by its offset whether its children are still to be checked, and the cookie of the
backend holds the index of the next child. A reset sets only one of them.
-/
namespace BookmarkFS.Fsck
open Library
open Chromium (Errno FsckReport)

/-! ## The cookies of the backend -/

/-- The children that a cookie holds: the array in the store itself, or a copy of it. -/
inductive Held (χ : Type) where
  | live
  | copy (children : List χ)

/-- `struct bookmark_lcookie` -/
structure Lcookie (χ : Type) where
  children : Held χ
  idx : ℕ

/-- The identifier and the name to be tried, in `struct bookmarkfs_fsck_data` -/
structure ApplyData where
  id : ℕ
  name : Bytes

/-- What the functions of the backend that take cookies look up, in a store `σ` whose directories
have children `χ`. -/
structure Store (σ χ : Type) where
  /-- The children, after the checks of `bookmark_check()` -/
  checkDir : σ → ℕ → Except Errno (List χ)
  /-- The children, after the checks of `bookmark_list()` -/
  listDir : σ → ℕ → Except Errno (List χ)
  /-- A turn of the loop in `fsck_next()` -/
  fsckChild : σ → ℕ → χ → Option FsckReport
  fsckApply : σ → ℕ → ApplyData → Except Errno (Option FsckReport) × σ
  parseEntry : σ → ℕ → χ → Option Entry

section Backend

variable {σ χ : Type} (S : Store σ χ)

/-- The loop of `fsck_next()`: the index to go on from, and the reports that the
callback is given. -/
def scanFrom (report : χ → Option FsckReport) (callback : FsckReport → ℤ) : List χ → ℕ →
    ℕ × List FsckReport
  | [], idx => (idx + 1, [])
  | child :: rest, idx =>
    match report child with
    | none => scanFrom report callback rest (idx + 1)
    | some r =>
      if callback r ≠ 0 then (idx + 1, [r])
      else
        let (idx, reports) := scanFrom report callback rest (idx + 1)
        (idx, r :: reports)

def cookieIdx (cookie : Option (Lcookie χ)) : ℕ := (cookie.map (·.idx)).getD 0

/-- The cookie that `bookmark_check()` leaves. -/
def checkCookie (cookie : Option (Lcookie χ)) (idx : ℕ) : Option (Lcookie χ) :=
  some { children := (cookie.map (·.children)).getD .live, idx := idx }

/-- `bookmark_check()` without a callback, which is a rewind -/
def Store.rewind (s : σ) (dir : FsckDir (Lcookie χ)) : Except Errno Unit × FsckDir (Lcookie χ) :=
  match S.checkDir s dir.id with
  | .error err => (.error err, dir)
  | .ok _ => (.ok (), { dir with cookie := checkCookie dir.cookie 0 })

/-- `bookmark_check()` with data to apply -/
def Store.apply (s : σ) (dir : FsckDir (Lcookie χ)) (data : ApplyData) :
    (Except Errno (Option FsckReport) × σ) × FsckDir (Lcookie χ) :=
  match S.checkDir s dir.id with
  | .error err => ((.error err, s), dir)
  | .ok _ => (S.fsckApply s dir.id data,
      { dir with cookie := checkCookie dir.cookie (cookieIdx dir.cookie) })

def entriesFrom (s : σ) (off : ℕ) (children : List χ) : List Entry :=
  ((children.drop off).zipIdx off).filterMap fun (child, idx) => S.parseEntry s (idx + 1) child

/-- The children that `bookmark_list()` goes through, and whether they are looked up anew. -/
def Store.listed (s : σ) (id off : ℕ) (cookie : Option (Lcookie χ)) :
    Except Errno (List χ × Bool) :=
  match cookie, off with
  | some ⟨.copy children, _⟩, _ + 1 => .ok (children, false)
  | some ⟨.live, _⟩, _ + 1 => (S.listDir s id).map (·, false)
  -- `off == 0` implies rewinddir()
  | _, _ => (S.listDir s id).map (·, true)

/-- `bookmark_check()` and `bookmark_list()` of a store that is left as it is. -/
def Store.backend (s : σ) : Backend (Lcookie χ) where
  bookmarkCheck id callback cookie :=
    match S.checkDir s id with
    | .error err => (.error err, cookie)
    | .ok children =>
      let idx := cookieIdx cookie
      let (idx, reports) := scanFrom (S.fsckChild s id) callback (children.drop idx) idx
      (.ok reports, checkCookie cookie idx)
  bookmarkList id off callback cookie :=
    match S.listed s id off cookie with
    | .error err => (.error err, cookie)
    | .ok (children, fresh) =>
      (.ok (given callback (entriesFrom S s off children)),
        if fresh then some ⟨.copy children, cookieIdx cookie⟩ else cookie)

end Backend

/-! ## Requests -/

/-- What a handler may ask for. -/
inductive Request where
  | next
  | apply (data : ApplyData)
  | skip
  | rewind
  | skipChildren
  | reset
  | save

section Requests

variable {σ χ : Type} (S : Store σ χ) (fill : ℕ → FsckDir (Lcookie χ))

/-- `do_fsck()` on the record at a level, without a callback -/
def rewindLevel (s : σ) (ctx : FsckCtx (Lcookie χ)) (idx : ℕ) (off : Option ℤ) :
    Except Fault (Except Errno Unit × FsckCtx (Lcookie χ)) := do
  let some dir := ctx.dirStack[idx]? | .error .outOfBounds
  let (status, dir) := S.rewind s { dir with off := off.getD dir.off }
  .ok (status, { ctx with dirStack := ctx.dirStack.set idx dir })

/-- `reset_top()` -/
def resetTop (s : σ) (ctx : FsckCtx (Lcookie χ)) :
    Except Fault (Except Errno Unit × FsckCtx (Lcookie χ)) := do
  let ctx := { ctx with allDone := false }
  let some dir := ctx.dirStack[0]? | .error .outOfBounds
  if dir.off < 0 then rewindLevel S s ctx 0 none
  else .ok (.ok (), { ctx with dirStack := ctx.dirStack.set 0 { dir with off := -1 } })

/-- `fsck_control()`. What `free_dir()` gives back is not read again. -/
def fsckControl (s : σ) (ctx : FsckCtx (Lcookie χ)) : Request →
    Except Fault (Except Errno Unit × FsckCtx (Lcookie χ))
  | .skip => do
    let some dir := ctx.dirStack[ctx.dirStackTop]? | .error .outOfBounds
    if 0 ≤ dir.off then .ok (.ok (), ctx) else rewindLevel S s ctx ctx.dirStackTop (some 0)
  | .rewind => rewindLevel S s ctx ctx.dirStackTop none
  | .skipChildren =>
    if ctx.dirStackTop = 0 then .ok (.ok (), { ctx with allDone := true })
    else .ok (.ok (), { ctx with dirStackTop := ctx.dirStackTop - 1 })
  | .reset => resetTop S s { ctx with dirStackTop := 0 }
  | _ => .ok (.ok (), ctx)

/-- `fsck_apply()` of the offline operations -/
def fsckApply (s : σ) (ctx : FsckCtx (Lcookie χ)) (data : ApplyData) :
    Except Fault (σ × FsckCtx (Lcookie χ)) := do
  let some dir := ctx.dirStack[ctx.dirStackTop]? | .error .outOfBounds
  let ((_, s), dir) := S.apply s dir data
  .ok (s, { ctx with dirStack := ctx.dirStack.set ctx.dirStackTop dir })

/-- A request; what it replies is left out. -/
def request (fuel : ℕ) (s : σ) (ctx : FsckCtx (Lcookie χ)) : Request →
    Except Fault (σ × FsckCtx (Lcookie χ))
  | .next => do
    let ((_, ctx), _) ← fsckNext (S.backend s) fill fuel ctx
    .ok (s, ctx)
  | .apply data => fsckApply S s ctx data
  | .save => .ok (s, ctx)
  | control => do
    let (_, ctx) ← fsckControl S s ctx control
    .ok (s, ctx)

/-- The state that `fsck_create()` leaves. -/
def fsckCreated (id : ℕ) (recursive : Bool) : FsckCtx (Lcookie χ) where
  dirStack := ⟨id, none, -1⟩ :: (List.range (if recursive then 15 else 0)).map fill
  dirStackSize := if recursive then 16 else 1
  dirStackTop := 0
  recursive := recursive
  allDone := false

/-- All runs of a check of the directory `id`, from a store that may be any. -/
def requests (id : ℕ) (recursive : Bool) : System (σ × FsckCtx (Lcookie χ))
    (ℕ × Request) Fault where
  init s := s.2 = fsckCreated fill id recursive
  legal _ _ := True
  step s r := request S fill r.1 s.1 s.2 r.2

/-- The replies to a number of NEXT requests. -/
def replies (B : Backend (Lcookie χ)) (fuel : ℕ) : ℕ → FsckCtx (Lcookie χ) →
    Except Fault (List Reply)
  | 0, _ => .ok []
  | n + 1, ctx => do
    let ((reply, ctx), _) ← fsckNext B fill fuel ctx
    let rest ← replies B fuel n ctx
    .ok (reply :: rest)

/-- After a RESET that succeeds, NEXT requests are answered as if the check had just begun. -/
def ResetRight (id : ℕ) (recursive : Bool) (s : σ) (ctx : FsckCtx (Lcookie χ)) : Prop :=
  ∀ ctx', fsckControl S s ctx .reset = .ok (.ok (), ctx') → ∀ fuel n,
    replies fill (S.backend s) fuel n ctx' = replies fill (S.backend s) fuel n
    (fsckCreated fill id recursive)

/-- The children of the starting directory are still being checked, or there is nothing wrong with
any that the cookie has left behind. -/
def Rewindable (id : ℕ) (s : σ) (ctx : FsckCtx (Lcookie χ)) : Prop :=
  ∀ dir, ctx.dirStack[0]? = some dir → dir.off < 0 ∨ ∀ children, S.checkDir s id = .ok children →
    (children.take (cookieIdx dir.cookie)).filterMap (S.fsckChild s id) = []

end Requests

/-! ## Checks that go on alike -/

section Scans

variable {χ : Type} (report : χ → Option FsckReport)

/-- A scan stops after the first report, and what is left to report are the others. -/
theorem scanFrom_spec (children : List χ) (idx : ℕ) :
    ∃ k, scanFrom report doFsckCb children idx = (idx + k, (children.filterMap report).take 1) ∧
      (children.drop k).filterMap report = (children.filterMap report).drop 1 := by
  induction children generalizing idx with
  | nil => exact ⟨1, rfl, rfl⟩
  | cons child rest ih =>
    rw [scanFrom]
    cases hreport : report child with
    | none =>
      obtain ⟨k, hscan, hdrop⟩ := ih (idx + 1)
      refine ⟨k + 1, ?_, ?_⟩
      · rw [List.filterMap_cons_none hreport]
        dsimp only
        rw [hscan, Nat.add_assoc, Nat.add_comm 1 k]
      · rw [List.drop_succ_cons, List.filterMap_cons_none hreport, hdrop]
    | some r =>
      refine ⟨1, ?_, ?_⟩
      · rw [List.filterMap_cons_some hreport]
        rfl
      · rw [List.filterMap_cons_some hreport]
        rfl

end Scans

section Alike

variable {σ χ : Type} (S : Store σ χ) (s : σ)

/-- Records from which a check goes on alike: with the same reports left, while the children are
checked, and with the same list, once it is being gone through. -/
structure SameDir (d d' : FsckDir (Lcookie χ)) : Prop where
  id : d.id = d'.id
  checking : d.off < 0 ↔ d'.off < 0
  off : d.off.toNat = d'.off.toNat
  scan : d.off < 0 → ∀ children, S.checkDir s d.id = .ok children →
    (children.drop (cookieIdx d.cookie)).filterMap (S.fsckChild s d.id) =
      (children.drop (cookieIdx d'.cookie)).filterMap (S.fsckChild s d.id)
  held : 0 < d.off.toNat → d.cookie.map (·.children) = d'.cookie.map (·.children)

def SameStack (idx : ℕ) (stack stack' : List (FsckDir (Lcookie χ))) : Prop :=
  ∀ i ≤ idx, ∃ d d', stack[i]? = some d ∧ stack'[i]? = some d' ∧ SameDir S s d d'

def RootedAt (id : ℕ) (stack : List (FsckDir (Lcookie χ))) : Prop :=
  ∃ d, stack[0]? = some d ∧ d.id = id

/-- There is a record, and where subdirectories are entered, the memory can be enlarged. -/
structure Room (ctx : FsckCtx (Lcookie χ)) : Prop where
  allocated : ctx.dirStack.length = ctx.dirStackSize
  two_le : ctx.recursive = true → 2 ≤ ctx.dirStackSize

/-- Checks of one directory that go on alike from a level. -/
structure Alike (id : ℕ) (recursive : Bool) (idx : ℕ) (ctx ctx' : FsckCtx (Lcookie χ)) : Prop where
  room : Room ctx
  room' : Room ctx'
  mode : ctx.recursive = recursive
  mode' : ctx'.recursive = recursive
  running : ctx.allDone = ctx'.allDone
  root : RootedAt id ctx.dirStack
  stack : SameStack S s idx ctx.dirStack ctx'.dirStack

variable {S s} {id idx : ℕ} {recursive : Bool} {d d' : FsckDir (Lcookie χ)}
  {stack stack' : List (FsckDir (Lcookie χ))} {ctx ctx' : FsckCtx (Lcookie χ)}

theorem SameDir.refl (d : FsckDir (Lcookie χ)) : SameDir S s d d :=
    ⟨rfl, Iff.rfl, rfl, fun _ _ _ => rfl, fun _ => rfl⟩

theorem SameDir.checked (h : SameDir S s d d') : SameDir S s { d with off := 0 }
    { d' with off := 0 } :=
  ⟨h.id, Iff.rfl, rfl, fun hneg => absurd hneg (lt_irrefl _), fun hpos => absurd hpos (lt_irrefl _)⟩

theorem SameDir.doFsck (h : SameDir S s d d') (hoff : d.off < 0) :
    ∃ r e e', doFsck (S.backend s) d = (r, e) ∧
    doFsck (S.backend s) d' = (r, e') ∧ e.id = d.id ∧ SameDir S s e e' := by
  obtain ⟨i, cookie, off⟩ := d
  obtain ⟨i', cookie', off'⟩ := d'
  obtain rfl : i = i' := h.id
  simp only [Fsck.doFsck, Store.backend]
  cases hdir : S.checkDir s i with
  | error err => exact ⟨_, _, _, rfl, rfl, rfl, h⟩
  | ok children =>
    obtain ⟨k, hscan, hdrop⟩ := scanFrom_spec (S.fsckChild s i) (children.drop (cookieIdx cookie))
      (cookieIdx cookie)
    obtain ⟨k', hscan', hdrop'⟩ :=
      scanFrom_spec (S.fsckChild s i) (children.drop (cookieIdx cookie')) (cookieIdx cookie')
    have hsame := h.scan hoff children hdir
    dsimp only at hsame
    simp only [hscan, hscan', hsame]
    refine ⟨_, _, _, rfl, rfl, rfl, rfl, h.checking, h.off, fun _ children' hdir' => ?_,
      fun hpos => ?_⟩
    · obtain rfl := Except.ok.inj (hdir.symm.trans hdir')
      dsimp only [checkCookie, cookieIdx, Option.map_some, Option.getD_some]
      rw [← List.drop_drop, ← List.drop_drop]
      exact hdrop.trans ((congrArg (List.drop 1) hsame).trans hdrop'.symm)
    · dsimp only at hoff hpos
      omega

theorem listed_zero (id : ℕ) (cookie : Option (Lcookie χ)) :
    S.listed s id 0 cookie = (S.listDir s id).map (·, true) := by
  rcases cookie with _ | ⟨children, idx⟩
  · rfl
  · cases children <;> rfl

theorem listed_congr {cookie cookie' : Option (Lcookie χ)}
    (h : cookie.map (·.children) = cookie'.map (·.children))
    (id off : ℕ) : S.listed s id off cookie = S.listed s id off cookie' := by
  cases off with
  | zero => rw [listed_zero, listed_zero]
  | succ off =>
    rcases cookie with _ | ⟨children, idx⟩ <;> rcases cookie' with _ | ⟨children', idx'⟩ <;> cases h
    · rfl
    · cases children <;> rfl

theorem SameDir.listed (h : SameDir S s d d') :
    S.listed s d.id d.off.toNat d.cookie = S.listed s d'.id d'.off.toNat d'.cookie := by
  rw [← h.id, ← h.off]
  rcases Nat.eq_zero_or_pos d.off.toNat with hzero | hpos
  · rw [hzero, listed_zero, listed_zero]
  · exact listed_congr (h.held hpos) _ _

theorem listed_off {id off : ℕ} {cookie : Option (Lcookie χ)} {children : List χ}
    (h : S.listed s id off cookie = .ok (children, false)) : 0 < off := by
  cases off with
  | zero =>
    rw [listed_zero] at h
    cases hdir : S.listDir s id <;> rw [hdir] at h <;> cases h
  | succ off => exact Nat.succ_pos off

theorem SameDir.doList (h : SameDir S s d d') : ∃ r e e', doList (S.backend s) d = (r, e) ∧
    doList (S.backend s) d' = (r, e') ∧ e.id = d.id ∧ SameDir S s e e' := by
  have hlisted := h.listed
  simp only [Fsck.doList, Store.backend, ← hlisted]
  cases hfound : S.listed s d.id d.off.toNat d.cookie with
  | error err => exact ⟨_, _, _, rfl, rfl, rfl, h⟩
  | ok found =>
    obtain ⟨children, fresh⟩ := found
    -- The cookies hold the same list afterwards, and the index for the next check stays.
    have hcookie : ∀ (c : Option (Lcookie χ)),
      cookieIdx (if fresh then some ⟨.copy children, cookieIdx c⟩ else c) =
        cookieIdx c := by
      intro c
      cases fresh <;> rfl
    have hheld : (if fresh then some ⟨.copy children, cookieIdx d.cookie⟩
      else d.cookie).map (·.children) =
        (if fresh then some ⟨.copy children, cookieIdx d'.cookie⟩
        else d'.cookie).map (·.children) := by
      cases fresh with
      | true => rfl
      | false => exact h.held (listed_off hfound)
    dsimp only
    rw [← h.off]
    split
    · refine ⟨_, _, _, rfl, rfl, rfl, h.id, h.checking, h.off, fun hneg children' hdir => ?_,
        fun _ => hheld⟩
      simp only [hcookie]
      exact h.scan hneg children' hdir
    · exact ⟨_, _, _, rfl, rfl, rfl, h.id, Iff.rfl,
        rfl, fun hneg => absurd hneg (Int.natCast_nonneg _).not_gt,
        fun _ => hheld⟩

theorem SameStack.mono (h : SameStack S s idx stack stack') {i : ℕ} (hi : i ≤ idx) :
    SameStack S s i stack stack' :=
  fun j hj => h j (hj.trans hi)

theorem SameStack.set (h : SameStack S s idx stack stack') {i : ℕ} (hi : i < stack.length)
    (hi' : i < stack'.length)
    (hdir : SameDir S s d d') : SameStack S s idx (stack.set i d) (stack'.set i d') := by
  intro j hj
  by_cases hij : i = j
  · subst hij
    exact ⟨d, d', List.getElem?_set_self hi, List.getElem?_set_self hi', hdir⟩
  · rw [List.getElem?_set_ne hij, List.getElem?_set_ne hij]
    exact h j hj

theorem RootedAt.set (h : RootedAt id stack) {i : ℕ} (hd : stack[i]? = some d) (he : d'.id = d.id) :
    RootedAt id (stack.set i d') := by
  obtain ⟨d₀, h₀, rfl⟩ := h
  cases i with
  | zero =>
    obtain rfl := Option.some.inj (h₀.symm.trans hd)
    exact ⟨d', List.getElem?_set_self (List.getElem?_eq_some_iff.mp h₀).1, he⟩
  | succ i => exact ⟨d₀, (List.getElem?_set_ne (Nat.succ_ne_zero i)).trans h₀, rfl⟩

theorem listLevel_alike (h : SameStack S s idx stack stack') (hroot : RootedAt id stack) {i : ℕ}
    (hi : i ≤ idx) :
    ∃ r st st', listLevel (S.backend s) stack i = .ok (r, st) ∧
    listLevel (S.backend s) stack' i = .ok (r, st') ∧
      (st.length = stack.length ∧ st'.length = stack'.length) ∧ RootedAt id st ∧
      SameStack S s idx st st' := by
  obtain ⟨d, d', hd, hd', hdir⟩ := h i hi
  obtain ⟨r, e, e', hrun, hrun', hid, hdir'⟩ := hdir.doList
  refine ⟨r, stack.set i e, stack'.set i e', ?_, ?_, ⟨List.length_set .., List.length_set ..⟩,
    hroot.set hd hid,
    h.set (List.getElem?_eq_some_iff.mp hd).1 (List.getElem?_eq_some_iff.mp hd').1 hdir'⟩
  · simp only [listLevel, hd, hrun]
  · simp only [listLevel, hd', hrun']

/-- The levels below are gone through alike. -/
theorem listDown_alike (h : SameStack S s idx stack stack') (hroot : RootedAt id stack) {i : ℕ}
    (hi : i ≤ idx) :
    ∃ r st st' j, listDown (S.backend s) stack i = .ok (r, st, j) ∧
      listDown (S.backend s) stack' i = .ok (r, st', j) ∧
      (st.length = stack.length ∧ st'.length = stack'.length) ∧
      j ≤ i ∧ RootedAt id st ∧ SameStack S s idx st st' := by
  induction i generalizing stack stack' with
  | zero =>
    obtain ⟨r, st, st', hrun, hrun', hlength, hroot', h'⟩ := listLevel_alike h hroot hi
    refine ⟨r, st, st', 0, ?_, ?_, hlength, le_rfl, hroot', h'⟩
    · rw [listDown, hrun, ok_bind]
    · rw [listDown, hrun', ok_bind]
  | succ i ih =>
    obtain ⟨r, st, st', hrun, hrun', ⟨hlength, hlength'⟩, hroot', h'⟩ := listLevel_alike h hroot hi
    rw [listDown, hrun, ok_bind, listDown, hrun', ok_bind]
    cases r with
    | error err => exact ⟨_, st, st', i + 1, rfl, rfl, ⟨hlength, hlength'⟩, le_rfl, hroot', h'⟩
    | ok found =>
      dsimp only
      split
      · obtain ⟨r, st₂, st₂', j, hdown, hdown', ⟨hlength₂, hlength₂'⟩, hj, hroot₂, h₂⟩ :=
          ih h' hroot' (Nat.le_of_succ_le hi)
        exact ⟨r, st₂, st₂', j, hdown, hdown', ⟨hlength₂.trans hlength, hlength₂'.trans hlength'⟩,
          hj.trans (Nat.le_succ i), hroot₂, h₂⟩
      · exact ⟨_, st, st', i + 1, rfl, rfl, ⟨hlength, hlength'⟩, le_rfl, hroot', h'⟩

theorem SameStack.lt (h : SameStack S s idx stack stack') : idx < stack.length ∧
    idx < stack'.length := by
  obtain ⟨d, d', hd, hd', -⟩ := h idx le_rfl
  exact ⟨(List.getElem?_eq_some_iff.mp hd).1, (List.getElem?_eq_some_iff.mp hd').1⟩

/-- A part of a turn is the same in both, and leaves them alike. -/
theorem enterDir_alike (fill : ℕ → FsckDir (Lcookie χ)) (h : Alike S s id recursive idx ctx ctx') :
    ∃ r c c' j, enterDir (S.backend s) fill ctx idx = .ok (r, c, j) ∧
      enterDir (S.backend s) fill ctx' idx = .ok (r, c', j) ∧ Alike S s id recursive j c c' := by
  by_cases hflat : ctx.recursive = false
  · refine ⟨some (.ok none), ctx, ctx', idx, ?_, ?_, h⟩
    · rw [enterDir, if_pos hflat]
      rfl
    · rw [enterDir, if_pos (h.mode'.trans (h.mode.symm.trans hflat))]
      rfl
  have hmode : ctx'.recursive = ctx.recursive := h.mode'.trans h.mode.symm
  have hflat' : ¬ctx'.recursive = false := hmode ▸ hflat
  have hrecursive : ctx.recursive = true := by simpa using hflat
  obtain ⟨r, st, st', j, hdown, hdown', ⟨hlength, hlength'⟩, hj, hroot, hstack⟩ :=
    listDown_alike h.stack h.root le_rfl
  have hroom : Room { ctx with dirStack := st } := ⟨hlength.trans h.room.allocated, h.room.two_le⟩
  have hroom' : Room { ctx' with dirStack := st' } :=
    ⟨hlength'.trans h.room'.allocated, h.room'.two_le⟩
  have hlisted : Alike S s id recursive j { ctx with dirStack := st }
    { ctx' with dirStack := st' } :=
    ⟨hroom, hroom', h.mode, h.mode', h.running, hroot, hstack.mono hj⟩
  simp only [enterDir, if_neg hflat, if_neg hflat', hdown, hdown', ok_bind]
  cases r with
  | error err => exact ⟨_, _, _, j, rfl, rfl, hlisted⟩
  | ok found =>
    dsimp only
    by_cases hnone : found = noId
    · simp only [if_pos hnone]
      exact ⟨_, _, _, j, rfl, rfl, hlisted⟩
    · obtain ⟨hlt, hlt'⟩ := hlisted.stack.lt
      obtain ⟨c, hpush, ⟨hc, hctwo⟩, ⟨hrec, hdone⟩, hbelow, htop⟩ :=
        pushDir_spec fill hroom.allocated (hroom.two_le hrecursive) (hroom.allocated ▸ hlt) found
      obtain ⟨c', hpush', ⟨hc', hctwo'⟩, ⟨hrec', hdone'⟩, hbelow', htop'⟩ :=
        pushDir_spec fill hroom'.allocated (hroom'.two_le (hmode.trans hrecursive))
          (hroom'.allocated ▸ hlt') found
      simp only [if_neg hnone, hpush, hpush', ok_bind]
      refine ⟨_, c, c', j + 1, rfl, rfl, ⟨hc, fun _ => hctwo⟩, ⟨hc', fun _ => hctwo'⟩, hrec.trans h.mode, hrec'.trans h.mode',
        hdone.trans (h.running.trans hdone'.symm), ?_, fun i hi => ?_⟩
      · obtain ⟨d₀, h₀, hid⟩ := hroot
        exact ⟨d₀, (hbelow 0 (Nat.succ_pos j)).trans h₀, hid⟩
      · rcases Nat.lt_or_eq_of_le hi with hlow | rfl
        · rw [hbelow i hlow, hbelow' i hlow]
          exact hlisted.stack i (Nat.le_of_lt_succ hlow)
        · exact ⟨_, _, htop, htop', .refl _⟩

theorem Alike.set (h : Alike S s id recursive idx ctx ctx') {i : ℕ} (hi : i ≤ idx)
    {e e' : FsckDir (Lcookie χ)}
    (hd : ctx.dirStack[i]? = some d) (he : e.id = d.id) (hdir : SameDir S s e e') :
    Alike S s id recursive idx { ctx with dirStack := ctx.dirStack.set i e }
      { ctx' with dirStack := ctx'.dirStack.set i e' } :=
  ⟨⟨(List.length_set ..).trans h.room.allocated, h.room.two_le⟩,
    ⟨(List.length_set ..).trans h.room'.allocated, h.room'.two_le⟩, h.mode, h.mode', h.running,
    h.root.set hd he,
    h.stack.set (hi.trans_lt h.stack.lt.1) (hi.trans_lt h.stack.lt.2) hdir⟩

theorem turn_alike (fill : ℕ → FsckDir (Lcookie χ)) (h : Alike S s id recursive idx ctx ctx') :
    ∃ r c c' j checked, turn (S.backend s) fill ctx idx = .ok ((r, c, j), checked) ∧
      turn (S.backend s) fill ctx' idx = .ok ((r, c', j), checked) ∧
      Alike S s id recursive j c c' := by
  obtain ⟨d, d', hd, hd', hdir⟩ := h.stack idx le_rfl
  by_cases hoff : d.off < 0
  · obtain ⟨r, e, e', hrun, hrun', hid, hdir'⟩ := hdir.doFsck hoff
    simp only [turn, hd, hd', if_pos hoff, if_pos (hdir.checking.mp hoff), hrun, hrun']
    rcases r with err | entry
    · exact ⟨_, _, _, idx, _, rfl, rfl, h.set le_rfl hd hid hdir'⟩
    · cases entry with
      | some entry => exact ⟨_, _, _, idx, _, rfl, rfl, h.set le_rfl hd hid hdir'⟩
      | none =>
        have hchecked :=
          h.set le_rfl hd (show ({ e with off := 0 } : FsckDir (Lcookie χ)).id = d.id from hid)
          hdir'.checked
        obtain ⟨r, c, c', j, henter, henter', halike⟩ := enterDir_alike fill hchecked
        dsimp only
        rw [henter, henter', hdir'.id]
        exact ⟨r, c, c', j, _, rfl, rfl, halike⟩
  · obtain ⟨r, c, c', j, henter, henter', halike⟩ := enterDir_alike fill h
    simp only [turn, hd, hd', if_neg hoff, if_neg (fun hneg => hoff (hdir.checking.mpr hneg)),
      henter, henter']
    exact ⟨r, c, c', j, _, rfl, rfl, halike⟩

theorem turns_alike (fill : ℕ → FsckDir (Lcookie χ)) (fuel : ℕ)
    (h : Alike S s id recursive idx ctx ctx') :
    (turns (S.backend s) fill fuel ctx idx = .error .outOfFuel ∧
        turns (S.backend s) fill fuel ctx' idx = .error .outOfFuel) ∨
      ∃ r c c' j checked, turns (S.backend s) fill fuel ctx idx =
      .ok ((r, { c with dirStackTop := j }), checked) ∧
        turns (S.backend s) fill fuel ctx' idx = .ok ((r, { c' with dirStackTop := j }), checked) ∧
        Alike S s id recursive j c c' := by
  induction fuel generalizing ctx ctx' idx with
  | zero => exact .inl ⟨rfl, rfl⟩
  | succ fuel ih =>
    obtain ⟨r, c, c', j, checked, hturn, hturn', halike⟩ := turn_alike fill h
    rw [turns, hturn, ok_bind, turns, hturn', ok_bind]
    cases r with
    | some r => exact .inr ⟨r, c, c', j, checked, rfl, rfl, halike⟩
    | none =>
      dsimp only
      obtain ⟨hrun, hrun'⟩ | ⟨r, c₂, c₂', j₂, more, hrun, hrun', halike₂⟩ := ih halike
      · rw [hrun, hrun']
        exact .inl ⟨rfl, rfl⟩
      · rw [hrun, hrun']
        exact .inr ⟨r, c₂, c₂', j₂, checked ++ more, rfl, rfl, halike₂⟩

theorem Alike.top (h : Alike S s id recursive idx ctx ctx') (j : ℕ) :
    Alike S s id recursive idx { ctx with dirStackTop := j } { ctx' with dirStackTop := j } :=
  ⟨⟨h.room.allocated, h.room.two_le⟩, ⟨h.room'.allocated, h.room'.two_le⟩, h.mode, h.mode',
    h.running, h.root, h.stack⟩

theorem fsckNext_alike (fill : ℕ → FsckDir (Lcookie χ)) (fuel : ℕ)
    (h : Alike S s id recursive ctx.dirStackTop ctx ctx')
    (htop : ctx.dirStackTop = ctx'.dirStackTop) :
    (fsckNext (S.backend s) fill fuel ctx = .error .outOfFuel ∧
        fsckNext (S.backend s) fill fuel ctx' = .error .outOfFuel) ∨
      ∃ r c c' checked, fsckNext (S.backend s) fill fuel ctx = .ok ((r, c), checked) ∧
        fsckNext (S.backend s) fill fuel ctx' = .ok ((r, c'), checked) ∧
        Alike S s id recursive c.dirStackTop c c' ∧
        c.dirStackTop = c'.dirStackTop := by
  rw [fsckNext, fsckNext, ← h.running, ← htop]
  split
  · exact .inr ⟨_, ctx, ctx', _, rfl, rfl, h, htop⟩
  · obtain hfuel | ⟨r, c, c', j, checked, hrun, hrun', halike⟩ := turns_alike fill fuel h
    · exact .inl hfuel
    · exact .inr ⟨r, _, _, checked, hrun, hrun', halike.top j, rfl⟩

theorem replies_alike (fill : ℕ → FsckDir (Lcookie χ)) (fuel n : ℕ)
    (h : Alike S s id recursive ctx.dirStackTop ctx ctx')
    (htop : ctx.dirStackTop = ctx'.dirStackTop) :
    replies fill (S.backend s) fuel n ctx = replies fill (S.backend s) fuel n ctx' := by
  induction n generalizing ctx ctx' with
  | zero => rfl
  | succ n ih =>
    rw [replies, replies]
    obtain ⟨hrun, hrun'⟩ | ⟨r, c, c', checked, hrun, hrun', halike, htop'⟩ :=
      fsckNext_alike fill fuel h htop
    · rw [hrun, hrun']
    · rw [hrun, hrun', ok_bind, ok_bind]
      dsimp only
      rw [ih halike htop']

end Alike

/-! ## Runs -/

section Runs

variable {σ χ : Type} {S : Store σ χ} {s : σ} {fill : ℕ → FsckDir (Lcookie χ)} {id : ℕ}
  {recursive : Bool} {ctx ctx' : FsckCtx (Lcookie χ)} {d d' : FsckDir (Lcookie χ)}

/-- The stack of a check of a directory, which has memory for the record on top. -/
structure Sound (id : ℕ) (recursive : Bool) (ctx : FsckCtx (Lcookie χ)) : Prop where
  room : Room ctx
  mode : ctx.recursive = recursive
  root : RootedAt id ctx.dirStack
  top : ctx.dirStackTop < ctx.dirStack.length

theorem Sound.alike (h : Sound id recursive ctx) (S : Store σ χ) (s : σ) :
    Alike S s id recursive ctx.dirStackTop ctx ctx :=
  ⟨h.room, h.room, h.mode, h.mode, rfl, h.root, fun _ hi =>
    ⟨_, _, List.getElem?_eq_getElem (hi.trans_lt h.top),
      List.getElem?_eq_getElem (hi.trans_lt h.top), .refl _⟩⟩

theorem Sound.set (h : Sound id recursive ctx) {i : ℕ} (hd : ctx.dirStack[i]? = some d)
    (he : d'.id = d.id) :
    Sound id recursive { ctx with dirStack := ctx.dirStack.set i d' } :=
  ⟨⟨(List.length_set ..).trans h.room.allocated, h.room.two_le⟩, h.mode, h.root.set hd he,
    (List.length_set ..).symm ▸ h.top⟩

theorem Sound.lower (h : Sound id recursive ctx) {i : ℕ} (hi : i ≤ ctx.dirStackTop)
    (allDone : Bool) :
    Sound id recursive { ctx with dirStackTop := i, allDone := allDone } :=
  ⟨⟨h.room.allocated, h.room.two_le⟩, h.mode, h.root, hi.trans_lt h.top⟩

theorem fsckCreated_sound (fill : ℕ → FsckDir (Lcookie χ)) (id : ℕ) (recursive : Bool) :
    Sound id recursive (fsckCreated fill id recursive) := by
  refine ⟨⟨?_, ?_⟩, rfl, ⟨_, rfl, rfl⟩, ?_⟩ <;> cases recursive <;> simp [fsckCreated]

theorem rewind_id (dir : FsckDir (Lcookie χ)) : (S.rewind s dir).2.id = dir.id := by
  rw [Store.rewind]
  split <;> rfl

theorem rewindLevel_sound (h : Sound id recursive ctx) {i : ℕ} {off : Option ℤ}
    {r : Except Errno Unit}
    (hrun : rewindLevel S s ctx i off = .ok (r, ctx')) : Sound id recursive ctx' := by
  rw [rewindLevel] at hrun
  split at hrun
  next dir hdir =>
    cases hrun
    exact h.set hdir (rewind_id _)
  · cases hrun

theorem resetTop_sound (h : Sound id recursive ctx) {r : Except Errno Unit}
    (hrun : resetTop S s ctx = .ok (r, ctx')) : Sound id recursive ctx' := by
  have h' : Sound id recursive { ctx with allDone := false } := h.lower le_rfl false
  rw [resetTop] at hrun
  split at hrun
  next dir hdir =>
    split at hrun
    · exact rewindLevel_sound h' hrun
    · cases hrun
      exact h'.set hdir rfl
  · cases hrun

theorem Alike.sound {ctx ctx' : FsckCtx (Lcookie χ)}
    (h : Alike S s id recursive ctx.dirStackTop ctx ctx') :
    Sound id recursive ctx :=
  ⟨h.room, h.mode, h.root, h.stack.lt.1⟩

theorem fsckNext_sound (h : Sound id recursive ctx) {fuel : ℕ} {r : Reply} {checked : List ℕ}
    (hrun : fsckNext (S.backend s) fill fuel ctx = .ok ((r, ctx'), checked)) :
    Sound id recursive ctx' := by
  obtain ⟨hfuel, -⟩ | ⟨r', c, c', checked', hrun', -, halike, -⟩ :=
    fsckNext_alike fill fuel (h.alike S s) rfl
  · rw [hfuel] at hrun
    cases hrun
  · rw [hrun'] at hrun
    cases hrun
    exact halike.sound

theorem fsckControl_sound (h : Sound id recursive ctx) {control : Request} {r : Except Errno Unit}
    (hrun : fsckControl S s ctx control = .ok (r, ctx')) : Sound id recursive ctx' := by
  cases control with
  | skip =>
    rw [fsckControl] at hrun
    split at hrun
    · split at hrun
      · cases hrun
        exact h
      · exact rewindLevel_sound h hrun
    · cases hrun
  | rewind => exact rewindLevel_sound h hrun
  | skipChildren =>
    rw [fsckControl] at hrun
    split at hrun
    · cases hrun
      exact h.lower le_rfl true
    · cases hrun
      exact h.lower (Nat.sub_le _ _) _
  | reset => exact resetTop_sound (h.lower (Nat.zero_le _) _) hrun
  | next | apply data | save =>
    cases hrun
    exact h

theorem fsckApply_sound (h : Sound id recursive ctx) {s' : σ} {data : ApplyData}
    (hrun : fsckApply S s ctx data = .ok (s', ctx')) : Sound id recursive ctx' := by
  rw [fsckApply] at hrun
  split at hrun
  next dir hdir =>
    have hid : (S.apply s dir data).2.id = dir.id := by
      rw [Store.apply]
      split <;> rfl
    cases hrun
    exact h.set hdir hid
  · cases hrun

theorem requests_sound (S : Store σ χ) (fill : ℕ → FsckDir (Lcookie χ)) (id : ℕ)
    (recursive : Bool) :
    (requests S fill id recursive).Invariant fun s => Sound id recursive s.2 where
  init s h := h.symm ▸ fsckCreated_sound fill id recursive
  step s r s' h _ hrun := by
    obtain ⟨s, ctx⟩ := s
    obtain ⟨s', ctx'⟩ := s'
    obtain ⟨fuel, r⟩ := r
    have hcontrol : ∀ control, (do
        let (_, ctx) ← fsckControl S s ctx control
        .ok (s, ctx)) = Except.ok (s', ctx') → Sound id recursive ctx' := by
      intro control hrun
      obtain ⟨⟨status, c⟩, hstep, hrun⟩ := bind_eq_ok.mp hrun
      cases hrun
      exact fsckControl_sound h hstep
    cases r with
    | next =>
      obtain ⟨⟨⟨reply, c⟩, checked⟩, hnext, hrun⟩ := bind_eq_ok.mp hrun
      cases hrun
      exact fsckNext_sound h hnext
    | apply data => exact fsckApply_sound h hrun
    | save =>
      cases hrun
      exact h
    | skip => exact hcontrol _ hrun
    | rewind => exact hcontrol _ hrun
    | skipChildren => exact hcontrol _ hrun
    | reset => exact hcontrol _ hrun

theorem resetTop_top {r : Except Errno Unit} (hrun : resetTop S s ctx = .ok (r, ctx')) :
    ctx'.dirStackTop = ctx.dirStackTop := by
  rw [resetTop] at hrun
  split at hrun
  · split at hrun
    · rw [rewindLevel] at hrun
      split at hrun <;> cases hrun
      rfl
    · cases hrun
      rfl
  · cases hrun

/-- A record that has all reports left is as good as a new one. -/
theorem fresh_alike (h : Sound id recursive ctx) (hrunning : ctx.allDone = false)
    (hd : ctx.dirStack[0]? = some d)
    (hoff : d.off < 0) (hscan : ∀ children, S.checkDir s id = .ok children →
      (children.drop (cookieIdx d.cookie)).filterMap (S.fsckChild s id) = children.filterMap
      (S.fsckChild s id)) :
    Alike S s id recursive 0 ctx (fsckCreated fill id recursive) := by
  have hnew := fsckCreated_sound fill id recursive
  obtain ⟨d₀, h₀, hid⟩ := h.root
  obtain rfl := Option.some.inj (h₀.symm.trans hd)
  refine ⟨h.room, hnew.room, h.mode, rfl, hrunning, h.root, fun i hi => ?_⟩
  obtain rfl := Nat.le_zero.mp hi
  have hzero : d₀.off.toNat = 0 := Int.toNat_of_nonpos hoff.le
  refine ⟨d₀, ⟨id, none, -1⟩, hd, rfl, hid, iff_of_true hoff (show (-1 : ℤ) < 0 by decide), hzero,
    ?_, fun hpos => ?_⟩
  · rw [hid]
    exact fun _ => hscan
  · omega

/-- The record of the starting directory after a reset, which has all reports left. -/
theorem resetTop_alike (h : Sound id recursive ctx) (hrewind : Rewindable S id s ctx)
    (hrun : resetTop S s ctx = .ok (.ok (), ctx')) :
    Alike S s id recursive 0 ctx' (fsckCreated fill id recursive) := by
  have hsound := resetTop_sound h hrun
  obtain ⟨d, hd, hid⟩ := h.root
  have hlt := (List.getElem?_eq_some_iff.mp hd).1
  rw [resetTop] at hrun
  simp only [hd] at hrun
  split at hrun
  next hoff =>
    rw [rewindLevel] at hrun
    simp only [hd, Store.rewind, Option.getD_none] at hrun
    split at hrun
    · cases hrun
    · cases hrun
      exact fresh_alike hsound rfl (List.getElem?_set_self hlt) hoff fun _ _ => rfl
  next hoff =>
    cases hrun
    refine fresh_alike hsound rfl (List.getElem?_set_self hlt) (show (-1 : ℤ) < 0 by decide)
      fun children hdir => ?_
    have hnone := ((hrewind d hd).resolve_left hoff) children hdir
    conv_rhs => rw [← List.take_append_drop (cookieIdx d.cookie) children,
      List.filterMap_append, hnone]
    rfl

end Runs

/-- In every run, a RESET takes a check back to its start if the children of the starting directory
are still being checked, or there is nothing wrong with those that have been. -/
theorem reset_right {σ χ : Type} (S : Store σ χ) (fill : ℕ → FsckDir (Lcookie χ)) (id : ℕ)
    (recursive : Bool)
    {s : σ} {ctx : FsckCtx (Lcookie χ)} (hreach : (requests S fill id recursive).Reachable (s, ctx))
    (hrewind : Rewindable S id s ctx) : ResetRight S fill id recursive s ctx := by
  intro ctx' hreset fuel n
  have hsound : Sound id recursive ctx := hreach.holds (requests_sound S fill id recursive)
  have halike : Alike S s id recursive 0 ctx' (fsckCreated fill id recursive) :=
    resetTop_alike (hsound.lower (Nat.zero_le _) _) hrewind hreset
  have htop : ctx'.dirStackTop = 0 := resetTop_top hreset
  exact replies_alike fill fuel n (htop ▸ halike) htop

/-- A directory with one child, whose name is too long -/
def oneBad : Store Unit Unit where
  checkDir _ _ := .ok [()]
  listDir _ _ := .ok [()]
  fsckChild _ id _ := some (badFile id)
  fsckApply _ _ _ := (.ok none, ())
  parseEntry _ _ _ := none

/-- The record of the directory, after a number of requests -/
def atIndex (idx : ℕ) (off : ℤ) : FsckCtx (Lcookie Unit) :=
  ⟨[⟨1, some ⟨.live, idx⟩, off⟩], 1, 0, false, false⟩

theorem oneBad_next : (requests oneBad (fun _ => ⟨0, none, 0⟩) 1 false).Reachable
    ((), atIndex 1 (-1)) := by
  have hnew : (requests oneBad (fun _ => ⟨0, none, 0⟩) 1 false).Reachable
      ((), fsckCreated (fun _ => ⟨0, none, 0⟩) 1 false) := .init rfl
  exact .step (l := (1, .next)) hnew trivial rfl

/-- Once the child has been returned, a RESET takes the check back to it. -/
theorem reset_right_checking : ResetRight oneBad (fun _ => ⟨0, none, 0⟩) 1 false ()
    (atIndex 1 (-1)) := by
  refine reset_right oneBad (fun _ => ⟨0, none, 0⟩) 1 false oneBad_next fun dir hdir => ?_
  obtain rfl := Option.some.inj hdir
  exact .inl (show (-1 : ℤ) < 0 by decide)

/-- Once there is no other, it does not. -/
theorem reset_not_right : (requests oneBad (fun _ => ⟨0, none, 0⟩) 1 false).Reachable
    ((), atIndex 2 0) ∧
    ¬ResetRight oneBad (fun _ => ⟨0, none, 0⟩) 1 false () (atIndex 2 0) := by
  refine ⟨.step (l := (1, .next)) oneBad_next trivial rfl, fun right => ?_⟩
  have hreplies := right (atIndex 2 (-1)) rfl 1 1
  revert hreplies
  decide

end BookmarkFS.Fsck
