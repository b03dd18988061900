import BookmarkFS.Fsck.Offline
import BookmarkFS.Library.Memory

/-! # What a recursive walk visits

The records on the stack stand for the levels of a preorder traversal. The record
on top is first one whose children are checked, and then one more level.
-/
namespace BookmarkFS.Fsck
open Library
open Chromium (Errno FsckReport)

/-- No less than `BOOKMARKFS_MAX_ID`; what matters is that it is less than `UINT64_MAX`. -/
def maxId : ℕ := 2 ^ 62 - 1

/-- A directory, with what is wrong with its children. -/
structure Directory where
  id : ℕ
  bad : List FsckReport
  id_le : id ≤ maxId

/-- What the handler is to be given for some directories. -/
def entriesOf (dirs : List Directory) : List HandlerEntry :=
  dirs.flatMap fun d => d.bad.map (⟨d.id, ·⟩)

def given {α : Type} (callback : α → ℤ) : List α → List α
  | [] => []
  | x :: xs => if callback x = 0 then x :: given callback xs else [x]

/-- The offset to go on from after some entries. -/
def offsetAfter (entries : List Entry) : ℕ := (entries.getLast?.map (·.off)).getD 0

section Contract

variable {κ : Type} (B : Backend κ)

/-- From a cookie on, each call reports one bad child, and the last one none; it leaves a cookie
that is valid. -/
def Checks (id : ℕ) (valid : Option κ → Prop) : List FsckReport → Option κ → Prop
  | [], cookie => ∃ cookie', B.bookmarkCheck id doFsckCb cookie = (.ok [], cookie') ∧ valid cookie'
  | r :: rs, cookie => ∃ cookie', B.bookmarkCheck id doFsckCb cookie = (.ok [r], cookie') ∧
      Checks id valid rs cookie'

/-- With a valid cookie, the entries of a directory can be listed from any of them on. -/
def Pages (id : ℕ) (entries : List Entry) (valid : Option κ → Prop) : Prop :=
  ∀ (callback : Entry → ℤ) {l₁ l₂ cookie}, entries = l₁ ++ l₂ → valid cookie →
    ∃ cookie', B.bookmarkList id (offsetAfter l₁) callback cookie = (.ok (given callback l₂),
    cookie') ∧ valid cookie'

def Subdirs (entries : List Entry) (ts : List (Rose Directory)) : Prop :=
  (entries.filter fun entry => decide (entry.valueLen < 0)).map (·.id) = ts.map (·.label.id)

/-- The backend holds this tree of directories. -/
inductive Serves : Rose Directory → Prop
  | node {d : Directory} {ts : List (Rose Directory)} {entries : List Entry}
  {valid : Option κ → Prop} :
      Checks B d.id valid d.bad none → Pages B d.id entries valid → Subdirs entries ts →
      (∀ t ∈ ts, Serves t) → Serves (.node d ts)

/-- The record of a directory whose subdirectories `ts` are still to be entered. -/
def Listing (dir : FsckDir κ) (ts : List (Rose Directory)) : Prop :=
  ∃ l₁ l₂ valid, Pages B dir.id (l₁ ++ l₂) valid ∧ valid dir.cookie ∧ dir.off = offsetAfter l₁ ∧
    Subdirs l₂ ts ∧ ∀ t ∈ ts, Serves B t

/-- The records from the bottom of the stack on, for the levels of a walk. -/
def Levels (stack : List (FsckDir κ)) : List (List (Rose Directory)) → Prop
  | [] => True
  | ts :: todo => (∃ dir, stack[todo.length]? = some dir ∧ Listing B dir ts) ∧ Levels stack todo

/-- The record of a directory whose children are still to be checked, above the levels of a walk. -/
inductive Checking (stack : List (FsckDir κ)) : ℕ → List Directory → Prop
  | intro {d : Directory} {ts : List (Rose Directory)} {todo : List (List (Rose Directory))}
  {dir : FsckDir κ}
      {entries : List Entry} {valid : Option κ → Prop} : stack[todo.length]? = some dir →
        dir.id = d.id →
      dir.off < 0 → Checks B dir.id valid d.bad dir.cookie → Pages B dir.id entries valid →
      Subdirs entries ts →
      (∀ t ∈ ts, Serves B t) → Levels B stack todo →
      Checking stack todo.length (d :: Rose.left (ts :: todo))

/-- The stack, up to an index, and the directories that are still to be visited, or are
being visited. -/
inductive Stands (stack : List (FsckDir κ)) : ℕ → List Directory → Prop
  | checking {idx : ℕ} {dirs : List Directory} : Checking B stack idx dirs → Stands stack idx dirs
  | listing {ts : List (Rose Directory)} {todo : List (List (Rose Directory))} :
      Levels B stack (ts :: todo) →
      Stands stack todo.length (Rose.left (ts :: todo))

end Contract

/-- The stack has as many records as it is said to have, and can grow. -/
structure Sized {κ : Type} (ctx : FsckCtx κ) : Prop where
  allocated : ctx.dirStack.length = ctx.dirStackSize
  two_le : 2 ≤ ctx.dirStackSize
  recursive : ctx.recursive = true
  running : ctx.allDone = false

section Lists

variable {α : Type} {callback : α → ℤ}

/-- A callback that is never content is given everything; otherwise what it is given ends
where it is. -/
theorem given_cases (callback : α → ℤ) (xs : List α) :
    (given callback xs = xs ∧ ∀ x ∈ xs, callback x = 0) ∨
    ∃ l x r, xs = l ++ x :: r ∧ (∀ y ∈ l, callback y = 0) ∧ callback x ≠ 0 ∧
    given callback xs = l ++ [x] := by
  induction xs with
  | nil => exact .inl ⟨rfl, fun x hx => by cases hx⟩
  | cons x xs ih =>
    by_cases hx : callback x = 0
    · simp only [given, if_pos hx]
      obtain ⟨hgiven, hall⟩ | ⟨l, y, r, rfl, hl, hy, hgiven⟩ := ih
      · exact .inl ⟨by rw [hgiven], List.forall_mem_cons.mpr ⟨hx, hall⟩⟩
      · exact .inr ⟨x :: l, y, r, rfl, List.forall_mem_cons.mpr ⟨hx, hl⟩, hy, by rw [hgiven]; rfl⟩
    · exact .inr ⟨[], x, xs, rfl, fun _ h => (by cases h), hx, by simp only [given, if_neg hx]; rfl⟩

theorem doListCb_eq_zero {entry : Entry} : doListCb entry = 0 ↔ ¬entry.valueLen < 0 := by
  simp [doListCb]

theorem filter_files {l : List Entry} (h : ∀ entry ∈ l, doListCb entry = 0) :
    l.filter (fun entry => decide (entry.valueLen < 0)) = [] :=
  List.filter_eq_nil_iff.mpr fun entry hentry => by simpa using doListCb_eq_zero.mp (h entry hentry)

end Lists

section Steps

variable {κ : Type} {B : Backend κ} {dir : FsckDir κ} {stack stack' : List (FsckDir κ)}
  {t : Rose Directory} {ts : List (Rose Directory)} {todo : List (List (Rose Directory))}

theorem noId_of_directory (d : Directory) : d.id ≠ noId := by
  have := d.id_le
  rw [maxId] at this
  rw [noId]
  omega

theorem Listing.nil (h : Listing B dir []) : ∃ dir', doList B dir = (.ok noId, dir') ∧
    Listing B dir' [] := by
  obtain ⟨l₁, l₂, valid, hpages, hvalid, hoff, hsub, hserves⟩ := h
  obtain ⟨cookie', hlist, hvalid'⟩ := hpages doListCb rfl hvalid
  have hfiles : l₂.filter (fun entry => decide (entry.valueLen < 0)) = [] :=
    List.map_eq_nil_iff.mp hsub
  have hnone : (given doListCb l₂).filter (fun entry => decide (entry.valueLen < 0)) = [] := by
    obtain ⟨hgiven, -⟩ | ⟨l, x, r, rfl, -, hx, -⟩ := given_cases doListCb l₂
    · rw [hgiven]; exact hfiles
    · have := List.filter_eq_nil_iff.mp hfiles x (by simp)
      exact absurd (doListCb_eq_zero.mpr (by simpa using this)) hx
  refine ⟨{ dir with cookie := cookie' }, ?_, l₁, l₂, valid, hpages, hvalid', hoff, hsub, hserves⟩
  simp only [doList, hoff, Int.toNat_natCast, hlist, hnone, List.getLast?_nil]

/-- The next subdirectory is found. -/
theorem Listing.cons (h : Listing B dir (t :: ts)) :
    ∃ dir', doList B dir = (.ok t.label.id, dir') ∧ Listing B dir' ts := by
  obtain ⟨l₁, l₂, valid, hpages, hvalid, hoff, hsub, hserves⟩ := h
  obtain ⟨cookie', hlist, hvalid'⟩ := hpages doListCb rfl hvalid
  obtain ⟨-, hall⟩ | ⟨l, x, r, rfl, hl, hx, hgiven⟩ := given_cases doListCb l₂
  · rw [Subdirs, filter_files hall] at hsub
    cases hsub
  have hdir : x.valueLen < 0 := by
    by_contra hfile
    exact hx (doListCb_eq_zero.mpr hfile)
  have hfound : (given doListCb (l ++ x :: r)).filter (fun entry => decide (entry.valueLen < 0)) =
    [x] := by
    rw [hgiven, List.filter_append, filter_files hl]
    simp [hdir]
  rw [Subdirs, List.filter_append, filter_files hl, List.nil_append,
    List.filter_cons_of_pos (by simpa using hdir)] at hsub
  obtain ⟨hid, hrest⟩ := List.cons.inj hsub
  have hlast : x.off = offsetAfter (l₁ ++ (l ++ [x])) := by
    rw [offsetAfter, ← List.append_assoc, List.getLast?_concat]
    rfl
  refine ⟨{ dir with cookie := cookie', off := x.off }, ?_, l₁ ++ (l ++ [x]), r, valid, ?_,
    hvalid', ?_, hrest,
    fun t ht => hserves t (List.mem_cons_of_mem _ ht)⟩
  · simp only [doList, hoff, Int.toNat_natCast, hlist, hfound, List.getLast?_singleton, hid]
  · simpa using hpages
  · exact congrArg Nat.cast hlast

theorem Levels.congr (h : Levels B stack todo) (hsame : ∀ i < todo.length, stack'[i]? = stack[i]?) :
    Levels B stack' todo := by
  induction todo with
  | nil => trivial
  | cons ts todo ih =>
    obtain ⟨⟨dir, hat, hlisting⟩, hrest⟩ := h
    refine ⟨⟨dir, ?_, hlisting⟩,
      ih hrest fun i hi => hsame i (by simp only [List.length_cons]; omega)⟩
    rw [hsame _ (by simp), hat]

theorem Levels.set (h : Levels B stack todo) {idx : ℕ} (hidx : todo.length ≤ idx)
    (dir : FsckDir κ) :
    Levels B (stack.set idx dir) todo :=
  h.congr fun i hi => List.getElem?_set_ne (by omega)

theorem getElem?_set_self' {idx : ℕ} (h : stack[idx]? = some dir) (dir' : FsckDir κ) :
    (stack.set idx dir')[idx]? = some dir' :=
  List.getElem?_set_self (List.getElem?_eq_some_iff.mp h).1

/-- What the loop over `do_list()` finds. -/
theorem listDown_spec (h : Levels B stack (ts :: todo)) :
    ∃ stack', stack'.length = stack.length ∧
      ((Rose.advance (ts :: todo) = none ∧
        listDown B stack todo.length = .ok (.ok noId, stack', 0) ∧
          Levels B stack' [[]]) ∨
        ∃ t ts' todo', Rose.advance (ts :: todo) = some (t, ts' :: todo') ∧ Serves B t ∧
          listDown B stack todo.length = .ok (.ok t.label.id, stack', todo'.length) ∧
          Levels B stack' (ts' :: todo')) := by
  induction todo generalizing ts stack with
  | nil =>
    obtain ⟨⟨dir, hat, hlisting⟩, -⟩ := h
    rw [List.length_nil] at hat
    cases ts with
    | nil =>
      obtain ⟨dir', hlist, hlisting'⟩ := hlisting.nil
      refine ⟨stack.set 0 dir', List.length_set ..,
        .inl ⟨rfl, ?_, ⟨dir', getElem?_set_self' hat dir', hlisting'⟩, trivial⟩⟩
      simp only [List.length_nil, listDown, listLevel, hat, hlist, ok_bind]
    | cons t ts =>
      obtain ⟨dir', hlist, hlisting'⟩ := hlisting.cons
      have hserves : Serves B t := by
        obtain ⟨-, -, -, -, -, -, -, hserves⟩ := hlisting
        exact hserves t List.mem_cons_self
      refine ⟨stack.set 0 dir', List.length_set .., .inr ⟨t, ts, [], rfl, hserves, ?_,
        ⟨dir', getElem?_set_self' hat dir', hlisting'⟩, trivial⟩⟩
      simp only [List.length_nil, listDown, listLevel, hat, hlist, ok_bind]
  | cons ts₁ todo ih =>
    obtain ⟨⟨dir, hat, hlisting⟩, hrest⟩ := h
    rw [List.length_cons] at hat
    cases ts with
    | nil =>
      obtain ⟨dir', hlist, -⟩ := hlisting.nil
      obtain ⟨stack', hlength, hfound⟩ :=
        ih (hrest.set (show (ts₁ :: todo).length ≤ todo.length + 1 from le_rfl) dir')
      refine ⟨stack', hlength.trans (List.length_set ..), ?_⟩
      have hdown : listDown B stack (todo.length + 1) =
        listDown B (stack.set (todo.length + 1) dir') todo.length := by
        simp only [listDown, listLevel, hat, hlist, ok_bind, if_true]
      rw [List.length_cons, hdown]
      exact hfound
    | cons t ts =>
      obtain ⟨dir', hlist, hlisting'⟩ := hlisting.cons
      have hserves : Serves B t := by
        obtain ⟨-, -, -, -, -, -, -, hserves⟩ := hlisting
        exact hserves t List.mem_cons_self
      refine ⟨stack.set (todo.length + 1) dir', List.length_set ..,
        .inr ⟨t, ts, ts₁ :: todo, rfl, hserves, ?_,
        ⟨dir', getElem?_set_self' hat dir', hlisting'⟩, hrest.set (by simp) dir'⟩⟩
      simp only [List.length_cons, listDown, listLevel, hat, hlist, ok_bind,
        if_neg (noId_of_directory t.label)]

/-- A stack that is enlarged keeps its records. -/
theorem growStack_spec (fill : ℕ → FsckDir κ) {ctx : FsckCtx κ}
    (hallocated : ctx.dirStack.length = ctx.dirStackSize) (htwo : 2 ≤ ctx.dirStackSize) :
    (growStack fill ctx).dirStack.length = (growStack fill ctx).dirStackSize ∧
      ctx.dirStackSize < (growStack fill ctx).dirStackSize ∧
      ∀ i < ctx.dirStackSize, (growStack fill ctx).dirStack[i]? = ctx.dirStack[i]? := by
  have hlt : ctx.dirStackSize < ctx.dirStackSize + ctx.dirStackSize / 2 := by omega
  exact ⟨reallocate_length _ _ _, hlt,
    fun i hi => reallocate_getElem? fill (hallocated ▸ hi) (hi.trans hlt)⟩

/-- A record is put on top of those below it, in memory that is enlarged where it has to be. -/
theorem pushDir_spec (fill : ℕ → FsckDir κ) {ctx : FsckCtx κ}
    (hallocated : ctx.dirStack.length = ctx.dirStackSize) (htwo : 2 ≤ ctx.dirStackSize) {idx : ℕ}
    (hidx : idx ≤ ctx.dirStackSize) (id : ℕ) :
    ∃ ctx', pushDir fill ctx idx id = .ok (ctx', idx) ∧
      (ctx'.dirStack.length = ctx'.dirStackSize ∧ 2 ≤ ctx'.dirStackSize) ∧
      (ctx'.recursive = ctx.recursive ∧ ctx'.allDone = ctx.allDone) ∧
      (∀ i < idx, ctx'.dirStack[i]? = ctx.dirStack[i]?) ∧
      ctx'.dirStack[idx]? = some ⟨id, none, -1⟩ := by
  by_cases hfull : ctx.dirStackSize ≤ idx
  · obtain rfl : ctx.dirStackSize = idx := le_antisymm hfull hidx
    obtain ⟨hgrown, hlt, hsame⟩ := growStack_spec fill hallocated htwo
    refine ⟨{ growStack fill ctx with
        dirStack := (growStack fill ctx).dirStack.set ctx.dirStackSize ⟨id, none, -1⟩ }, ?_,
      ⟨(List.length_set ..).trans hgrown, htwo.trans hlt.le⟩, ⟨rfl, rfl⟩, fun i hi => ?_,
      List.getElem?_set_self (hgrown ▸ hlt)⟩
    · simp only [pushDir, le_refl, if_true, if_pos (hgrown ▸ hlt)]
    · rw [List.getElem?_set_ne hi.ne', hsame i hi]
  · have hlt : idx < ctx.dirStack.length := hallocated ▸ not_le.mp hfull
    refine ⟨{ ctx with dirStack := ctx.dirStack.set idx ⟨id, none, -1⟩ }, ?_,
      ⟨(List.length_set ..).trans hallocated, htwo⟩, ⟨rfl, rfl⟩,
      fun i hi => List.getElem?_set_ne hi.ne', List.getElem?_set_self hlt⟩
    simp only [pushDir, if_neg hfull, if_pos hlt]

theorem Sized.set {ctx : FsckCtx κ} (h : Sized ctx) (idx : ℕ) (dir : FsckDir κ) :
    Sized { ctx with dirStack := ctx.dirStack.set idx dir } :=
  ⟨(List.length_set ..).trans h.allocated, h.two_le, h.recursive, h.running⟩

/-- A subdirectory is entered, or the walk is at its end. -/
theorem enterDir_spec (fill : ℕ → FsckDir κ) {ctx : FsckCtx κ} (hsized : Sized ctx)
    (h : Levels B ctx.dirStack (ts :: todo)) :
    ∃ ctx', Sized ctx' ∧
      ((enterDir B fill ctx todo.length = .ok (some (.ok none), ctx', 0) ∧
        Rose.left (ts :: todo) = [] ∧
          Stands B ctx'.dirStack 0 []) ∨
        ∃ idx, enterDir B fill ctx todo.length = .ok (none, ctx', idx) ∧
          Checking B ctx'.dirStack idx (Rose.left (ts :: todo))) := by
  obtain ⟨stack', hlength, hfound⟩ := listDown_spec h
  have hsized' : Sized { ctx with dirStack := stack' } :=
    ⟨hlength.trans hsized.allocated, hsized.two_le, hsized.recursive, hsized.running⟩
  have hrecursive : ¬ctx.recursive = false := by simp [hsized.recursive]
  obtain ⟨hnone, hdown, hlevels⟩ | ⟨t, ts', todo', hadvance, hserves, hdown, hlevels⟩ := hfound
  · refine ⟨_, hsized', .inl ⟨?_, Rose.left_of_advance_none hnone, .listing hlevels⟩⟩
    simp only [enterDir, if_neg hrecursive, hdown, ok_bind, if_true]
    rfl
  · have hle : (ts' :: todo').length ≤ ctx.dirStackSize := by
      obtain ⟨⟨dir, hat, -⟩, -⟩ := hlevels
      have := (List.getElem?_eq_some_iff.mp hat).1
      rw [hlength, hsized.allocated] at this
      exact this
    obtain ⟨ctx', hpush, ⟨hallocated, htwo⟩, ⟨hrec, hdone⟩, hbelow, hat⟩ :=
      pushDir_spec fill hsized'.allocated hsized'.two_le hle t.label.id
    have hlevels' : Levels B ctx'.dirStack (ts' :: todo') := hlevels.congr hbelow
    refine ⟨ctx', ⟨hallocated, htwo, hrec.trans hsized.recursive, hdone.trans hsized.running⟩, .inr ⟨(ts' :: todo').length, ?_, ?_⟩⟩
    · rw [List.length_cons] at hpush
      simp only [enterDir, if_neg hrecursive, hdown, ok_bind, if_neg (noId_of_directory t.label),
        hpush,
        List.length_cons]
    · rw [Rose.left_of_advance hadvance]
      obtain ⟨hchecks, hpages, hsub, hall⟩ := hserves
      exact .intro hat rfl (show (-1 : ℤ) < 0 by decide) hchecks hpages hsub hall hlevels'

variable {idx : ℕ} {d : Directory} {dirs : List Directory}

/-- A turn at a directory with a bad child left returns with it. -/
theorem turn_bad (fill : ℕ → FsckDir κ) {ctx : FsckCtx κ} (hsized : Sized ctx)
    (h : Checking B ctx.dirStack idx (d :: dirs)) {r : FsckReport} {rs : List FsckReport}
    (hbad : d.bad = r :: rs) :
    ∃ ctx', turn B fill ctx idx = .ok ((some (.ok (some ⟨d.id, r⟩)), ctx', idx), []) ∧ Sized ctx' ∧
      Checking B ctx'.dirStack idx ({ d with bad := rs } :: dirs) := by
  generalize hdirs : d :: dirs = dirs' at h
  obtain ⟨hat, hid, hoff, hchecks, hpages, hsub, hserves, hlevels⟩ := h
  rename_i d' ts todo dir entries valid
  obtain ⟨rfl, rfl⟩ := List.cons.inj hdirs
  rw [hbad] at hchecks
  obtain ⟨cookie', hcheck, hchecks'⟩ := hchecks
  refine ⟨{ ctx with dirStack := ctx.dirStack.set todo.length { dir with cookie := cookie' } }, ?_,
    ⟨(List.length_set ..).trans hsized.allocated, hsized.two_le, hsized.recursive, hsized.running⟩,
    .intro (d := { d with bad := rs }) (getElem?_set_self' hat _) hid hoff hchecks'
    hpages hsub hserves
      (hlevels.set le_rfl _)⟩
  rw [← hid]
  simp only [turn, hat, if_pos hoff, doFsck, hcheck, List.getLast?_singleton, Option.map_some]

/-- A turn at a directory with no bad child left goes on to its subdirectories. -/
theorem turn_good (fill : ℕ → FsckDir κ) {ctx : FsckCtx κ} (hsized : Sized ctx)
    (h : Checking B ctx.dirStack idx (d :: dirs)) (hbad : d.bad = []) :
    ∃ ctx', Sized ctx' ∧
      ((turn B fill ctx idx = .ok ((some (.ok none), ctx', 0), [d.id]) ∧ dirs = [] ∧
        Stands B ctx'.dirStack 0 []) ∨
        ∃ idx', turn B fill ctx idx = .ok ((none, ctx', idx'), [d.id]) ∧ Checking B ctx'.dirStack idx' dirs) := by
  generalize hdirs : d :: dirs = dirs' at h
  obtain ⟨hat, hid, hoff, hchecks, hpages, hsub, hserves, hlevels⟩ := h
  rename_i d' ts todo dir entries valid
  obtain ⟨rfl, rfl⟩ := List.cons.inj hdirs
  rw [hbad] at hchecks
  obtain ⟨cookie', hcheck, hvalid⟩ := hchecks
  have hsized' : Sized
      { ctx with dirStack := ctx.dirStack.set todo.length { dir with cookie := cookie', off := 0 } } :=
    ⟨(List.length_set ..).trans hsized.allocated, hsized.two_le, hsized.recursive, hsized.running⟩
  have hlevels' : Levels B (ctx.dirStack.set todo.length { dir with cookie := cookie', off := 0 })
    (ts :: todo) :=
    ⟨⟨_, getElem?_set_self' hat _, [], entries, valid, hpages, hvalid, rfl, hsub, hserves⟩,
      hlevels.set le_rfl _⟩
  have hturn : turn B fill ctx todo.length = (·, [d.id]) <$> enterDir B fill
      { ctx with dirStack := ctx.dirStack.set todo.length { dir with cookie := cookie', off := 0 } }
        todo.length := by
    rw [← hid]
    simp only [turn, hat, if_pos hoff, doFsck, hcheck, List.getLast?_nil, Option.map_none]
  obtain ⟨ctx', hctx', ⟨henter, hleft, hstands⟩ | ⟨idx', henter, hchecking⟩⟩ :=
    enterDir_spec fill hsized' hlevels'
  · exact ⟨ctx', hctx', .inl ⟨by rw [hturn, henter]; rfl, hleft, hstands⟩⟩
  · exact ⟨ctx', hctx', .inr ⟨idx', by rw [hturn, henter]; rfl, hchecking⟩⟩

/-- What is left once a call has returned with an entry, or at the end. -/
inductive Returns (B : Backend κ) (dirs : List Directory) : Reply × FsckCtx κ → List ℕ → Prop
  | entry {ctx : FsckCtx κ} {e : HandlerEntry} {dirs' : List Directory}
  {checked : List ℕ} : Sized ctx →
      Stands B ctx.dirStack ctx.dirStackTop dirs' → entriesOf dirs = e :: entriesOf dirs' →
      dirs.map (·.id) = checked ++ dirs'.map (·.id) → Returns B dirs (.ok (some e), ctx) checked
  | done {ctx : FsckCtx κ} {checked : List ℕ} : entriesOf dirs = [] → dirs.map (·.id) = checked →
      Returns B dirs (.ok none, ctx) checked

/-- The loop, from a directory whose children are still to be checked. -/
theorem turns_checking (fill : ℕ → FsckDir κ) {fuel : ℕ} {ctx : FsckCtx κ} (hsized : Sized ctx)
    (h : Checking B ctx.dirStack idx dirs) (hfuel : dirs.length ≤ fuel) :
    ∃ result checked, turns B fill fuel ctx idx = .ok (result, checked) ∧
    Returns B dirs result checked := by
  induction dirs generalizing fuel ctx idx with
  | nil => cases h
  | cons d dirs ih =>
    obtain ⟨fuel, rfl⟩ : ∃ n, fuel = n + 1 :=
      Nat.exists_eq_add_of_le' ((by simp : 1 ≤ (d :: dirs).length).trans hfuel)
    cases hbad : d.bad with
    | cons r rs =>
      obtain ⟨ctx', hturn, hsized', hchecking⟩ := turn_bad fill hsized h hbad
      refine ⟨(.ok (some ⟨d.id, r⟩), { ctx' with dirStackTop := idx }),
        [], by simp only [turns, hturn, ok_bind],
        .entry ⟨hsized'.allocated, hsized'.two_le, hsized'.recursive, hsized'.running⟩
        (.checking hchecking) ?_ rfl⟩
      simp only [entriesOf, List.flatMap_cons, hbad, List.map_cons, List.cons_append]
    | nil =>
      have hentries : entriesOf (d :: dirs) = entriesOf dirs := by
        simp only [entriesOf, List.flatMap_cons, hbad, List.map_nil, List.nil_append]
      obtain ⟨ctx', hsized', ⟨hturn, rfl, -⟩ | ⟨idx', hturn, hchecking⟩⟩ :=
        turn_good fill hsized h hbad
      · exact ⟨_, _, by simp only [turns, hturn, ok_bind]; rfl, .done hentries rfl⟩
      · obtain ⟨result, checked, hturns, hreturns⟩ :=
          ih hsized' hchecking (Nat.le_of_succ_le_succ hfuel)
        refine ⟨result, d.id :: checked,
          by simp only [turns, hturn, hturns, ok_bind, List.cons_append, List.nil_append], ?_⟩
        cases hreturns with
        | entry hs hstands he hids =>
          exact .entry hs hstands (hentries.trans he)
            (by rw [List.map_cons, hids, List.cons_append])
        | done he hids => exact .done (hentries.trans he) (by rw [List.map_cons, hids])

/-- `fsck_next()`, wherever the call before it has returned from. -/
theorem fsckNext_spec (fill : ℕ → FsckDir κ) {fuel : ℕ} {ctx : FsckCtx κ} (hsized : Sized ctx)
    (h : Stands B ctx.dirStack ctx.dirStackTop dirs) (hfuel : dirs.length < fuel) :
    ∃ result checked, fsckNext B fill fuel ctx = .ok (result, checked) ∧
    Returns B dirs result checked := by
  rw [fsckNext, if_neg (by simp [hsized.running])]
  generalize htop : ctx.dirStackTop = top at h
  cases h with
  | checking h => exact turns_checking fill hsized h hfuel.le
  | @listing ts todo h =>
    obtain ⟨⟨dir, hat, hlisting⟩, -⟩ := id h
    have hoff : ¬dir.off < 0 := by
      obtain ⟨l₁, -, -, -, -, hoff, -⟩ := hlisting
      rw [hoff]
      exact (Int.natCast_nonneg _).not_gt
    obtain ⟨fuel, rfl⟩ : ∃ n, fuel = n + 1 := Nat.exists_eq_add_of_le' (Nat.one_le_of_lt hfuel)
    have hturn : turn B fill ctx todo.length = (·, []) <$> enterDir B fill ctx todo.length := by
      simp only [turn, hat, if_neg hoff]
    obtain ⟨ctx', hsized', ⟨henter, hleft, -⟩ | ⟨idx', henter, hchecking⟩⟩ :=
      enterDir_spec fill hsized h
    · refine ⟨_, _, by simp only [turns, hturn, henter]; rfl, .done ?_ ?_⟩ <;> rw [hleft] <;> rfl
    · obtain ⟨result, checked, hturns, hreturns⟩ := turns_checking fill hsized' hchecking (Nat.le_of_lt_succ hfuel)
      rw [henter] at hturn
      exact ⟨result, checked, by rw [turns, hturn]; simp only [Functor.map, Except.map, ok_bind, hturns]; rfl, hreturns⟩

/-- All calls, up to the one that returns END. -/
theorem nextOnly_spec (fill : ℕ → FsckDir κ) {fuel n : ℕ} {ctx : FsckCtx κ} (hsized : Sized ctx)
    (h : Stands B ctx.dirStack ctx.dirStackTop dirs) (hfuel : dirs.length < fuel)
    (hn : (entriesOf dirs).length < n) :
    nextOnly B fill fuel n ctx = .ok (.ok (entriesOf dirs), dirs.map (·.id)) := by
  induction n generalizing ctx dirs with
  | zero => cases hn
  | succ n ih =>
    obtain ⟨⟨reply, ctx'⟩, checked, hnext, hreturns⟩ := fsckNext_spec fill hsized h hfuel
    cases hreturns with
    | done he hids => simp only [nextOnly, hnext, ok_bind, he, hids]
    | @entry _ e dirs' _ hsized' hstands he hids =>
      have hlength := congrArg List.length hids
      simp only [List.length_map, List.length_append] at hlength
      rw [he, List.length_cons] at hn
      have hrest := ih hsized' hstands (by omega) (by omega)
      simp only [nextOnly, hnext, ok_bind, hrest, he, hids]
      rfl

theorem checking_created (fill : ℕ → FsckDir κ) (h : Serves B t) :
    Checking B (fsckCreate fill t.label.id).dirStack 0 t.preorder := by
  cases h with
  | @node d ts entries valid hchecks hpages hsub hserves =>
    have hpreorder : (Rose.node d ts).preorder = d :: Rose.left (ts :: []) := by
      rw [Rose.preorder_eq, Rose.left_cons, Rose.left_nil, List.append_nil]
      rfl
    have hlevels : Levels B (fsckCreate fill d.id).dirStack [] := trivial
    rw [hpreorder]
    exact .intro rfl rfl (show (-1 : ℤ) < 0 by decide) hchecks hpages hsub hserves hlevels

/-- A recursive check visits the directory and all directories below it in preorder, and returns
what is wrong with the children of each before it goes on to its subdirectories. -/
theorem walk_preorder (B : Backend κ) (fill : ℕ → FsckDir κ) {t : Rose Directory} (h : Serves B t)
    {fuel n : ℕ} (hfuel : t.preorder.length < fuel) (hn : (entriesOf t.preorder).length < n) :
    nextOnly B fill fuel n (fsckCreate fill t.label.id) =
      .ok (.ok (entriesOf t.preorder), t.preorder.map (·.id)) := by
  have hsized : Sized (fsckCreate fill t.label.id) :=
    ⟨by simp [fsckCreate], show 2 ≤ 16 by decide, rfl, rfl⟩
  exact nextOnly_spec fill hsized (.checking (checking_created fill h)) hfuel hn

end Steps

section Example

/-- Where each entry has its place as its offset, the offset is the number of entries
to leave out. -/
theorem drop_offsetAfter {entries l₁ l₂ : List Entry}
    (hplace : ∀ i e, entries[i]? = some e → e.off = i + 1)
    (hsplit : entries = l₁ ++ l₂) : entries.drop (offsetAfter l₁) = l₂ := by
  have hoff : offsetAfter l₁ = l₁.length := by
    rcases l₁.eq_nil_or_concat' with rfl | ⟨front, e, rfl⟩
    · rfl
    · have hlast := hplace front.length e (by rw [hsplit]; simp)
      simpa [offsetAfter] using hlast
  rw [hoff, hsplit, List.drop_left]

def badFile (parentId : ℕ) : FsckReport := ⟨.nameBadLen, parentId + 10, 300, [97]⟩

/-- What `bookmark_list()` offers of two directories, one in the other, with such a file in each. -/
def shownIn (id : ℕ) : List Entry := if id = 1 then [⟨1, 11, 5⟩, ⟨2, 2, -1⟩] else [⟨1, 12, 5⟩]

/-- A backend that keeps the index of the next child in the cookie. -/
def twoDirs : Backend ℕ where
  bookmarkCheck id callback cookie :=
    let reports := given callback ([badFile id].drop (cookie.getD 0))
    (.ok reports, some (cookie.getD 0 + reports.length))
  bookmarkList id off callback cookie := (.ok (given callback ((shownIn id).drop off)), cookie)

theorem twoDirs_pages (id : ℕ) : Pages twoDirs id (shownIn id) fun _ => True := by
  intro callback l₁ l₂ cookie hsplit _
  refine ⟨cookie, ?_, trivial⟩
  have hplace : ∀ i e, (shownIn id)[i]? = some e → e.off = i + 1 := by
    intro i e hat
    rw [shownIn] at hat
    split at hat
    · match i, hat with
      | 0, hat => obtain rfl := Option.some.inj hat; rfl
      | 1, hat => obtain rfl := Option.some.inj hat; rfl
    · match i, hat with
      | 0, hat => obtain rfl := Option.some.inj hat; rfl
  simp only [twoDirs, drop_offsetAfter hplace hsplit]

def nested : Rose Directory :=
  .node ⟨1, [badFile 1], by decide⟩ [.node ⟨2, [badFile 2], by decide⟩ []]

theorem nested_served : Serves twoDirs nested := by
  have hchecks : ∀ id, Checks twoDirs id (fun _ => True) [badFile id] none := fun id =>
    ⟨some 1, rfl, some 1, rfl, trivial⟩
  refine .node (hchecks 1) (twoDirs_pages 1) rfl fun t ht => ?_
  obtain rfl := List.mem_singleton.mp ht
  exact .node (hchecks 2) (twoDirs_pages 2) rfl fun t ht => by cases ht

theorem walk_preorder_nested : nextOnly twoDirs (fun _ => ⟨0, none, 0⟩) 3 3
    (fsckCreate (fun _ => ⟨0, none, 0⟩) 1) =
    .ok (.ok [⟨1, badFile 1⟩, ⟨2, badFile 2⟩], [1, 2]) :=
  walk_preorder twoDirs _ nested_served (show 2 < 3 by decide) (show 2 < 3 by decide)

end Example

end BookmarkFS.Fsck
