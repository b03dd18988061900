import BookmarkFS.Chromium.Context
import BookmarkFS.Library.Checked
import BookmarkFS.Library.Transition

/-! # The watcher of the bookmark file

A worker thread holds the mutex while it waits for events on the file, and gives
it up once there has been one, until the main thread has marked the file anew.
The main thread never waits for the mutex. Other processes may change the file
between any two steps.
-/
namespace BookmarkFS.Watcher
open Library
open Chromium (DirtyLevel Errno)

/-- Where the worker is in `worker_loop()`. -/
inductive Worker where
  | absent
  | starting
  /-- In `impl_watch()`: in `poll()`, or about to read, and then to remove the mark, and then to
  drain the queue. -/
  | watching
  | unmarking
  | draining
  /-- In `pthread_cond_wait()`. -/
  | waiting (signalled : Bool)
  | dead
  deriving DecidableEq

/-- Where the main thread is: in no call, about to open the file in `store_load()`, with the file
open, or about to call `watcher_poll()` in `store_save()`. -/
inductive Main where
  | ready
  | opening
  | reading
  | saved
  deriving DecidableEq

structure State where
  /-- The file that has the name of the bookmark file. -/
  current : Option ℕ
  /-- The files with a mark. -/
  marked : List ℕ
  /-- The events that have not been read. -/
  unread : ℕ
  worker : Worker
  /-- `WATCHER_IDLE` -/
  idle : Bool
  main : Main
  /-- Whether `ctx->store` is not NULL. -/
  loaded : Bool
  dirty : DirtyLevel
  /-- Whether the file has been marked since the worker has last left `impl_watch()`. -/
  rearmed : Bool
  /-- Whether another process has changed the file since it was opened to be loaded, or saved. -/
  changed : Bool

/-- What another process does: it modifies a file, removes the bookmark file, by moving it away or
not, or puts a file in its place. -/
inductive Change where
  | modify (file : ℕ)
  | remove (moved : Bool)
  | replace (file : ℕ)

/-- Steps of the worker, of the main thread, and of other processes. -/
inductive Step where
  | start (fails : Bool)
  | read (count : ℕ)
  | unmark
  | drain
  | wake
  | fail
  | load (fails : Bool)
  | openFile
  | finish (ok : Bool)
  | edit (level : DirtyLevel)
  | save (file : Option ℕ)
  | savePoll (fails : Bool)
  | change (c : Change)

/-- The thread cannot take the step where it is. -/
inductive Blocked where
  | blocked
  deriving DecidableEq

def State.notify (s : State) (file : ℕ) : State :=
  if file ∈ s.marked then { s with unread := s.unread + 1 } else s

def State.unlink (s : State) : Option ℕ → State
  | none => s
  | some file => { s.notify file with marked := s.marked.filter (· ≠ file) }

/-- `impl_rearm()` -/
def State.implRearm (s : State) (fails : Bool) : Option Errno × State :=
  if s.worker = .dead ∨ fails = true then (some .io, s)
  else match s.current with
    | none => (some .noent, s)
    | some file => (none, { s with marked := file :: s.marked, rearmed := true })

/-- Whether the worker holds the mutex, or the flags tell the same as if it did. -/
def Worker.Locks : Worker → Prop
  | .starting | .watching | .unmarking | .draining => True
  | .absent | .waiting _ | .dead => False

instance : (w : Worker) → Decidable w.Locks
  | .starting | .watching | .unmarking | .draining => .isTrue trivial
  | .absent | .waiting _ | .dead => .isFalse id

/-- `pthread_cond_signal()` -/
def Worker.signal : Worker → Worker
  | .waiting _ => .waiting true
  | w => w

/-- `watcher_poll()` -/
def State.watcherPoll (s : State) (fails : Bool) : Option Errno × State :=
  if s.worker.Locks ∨ s.idle = false then (some .again, s)
  else match s.implRearm fails with
    | (some err, s) => (some err, s)
    | (none, s) => (none, { s with idle := false, worker := s.worker.signal })

/-- `store_load()` up to `do_load`, where there is a watcher -/
def State.pollLoad (s : State) (fails : Bool) : State :=
  if s.dirty ≠ .none then s
  else match s.watcherPoll fails with
    | (some .again, s) => if s.loaded then s else { s with main := .opening }
    | (some _, s) => s
    | (none, s) => { s with loaded := false, main := .opening }

/-- What another process does to the files. -/
def State.change (s : State) : Change → Except Blocked State
  | .modify file =>
    .ok { s.notify file with changed := s.changed || decide (s.current = some file) }
  | .remove moved =>
    match s.current with
    | none => .error .blocked
    | some file =>
      .ok { (if moved then s.notify file else s.unlink (some file)) with current := none, changed := true }
  | .replace file =>
    if s.current = some file then .error .blocked
    else .ok { (s.unlink s.current).notify file with current := some file, changed := true }

def State.step (s : State) : Step → Except Blocked State
  | .start fails =>
    if s.worker ≠ .starting then .error .blocked
    else match s.implRearm fails with
      | (none, s) => .ok { s with worker := .watching }
      | (some .noent, s) => .ok { s with worker := .waiting false, idle := true }
      | (some _, s) => .ok { s with worker := .dead, idle := true }
  | .read count =>
    if s.worker = .watching ∧ 0 < count ∧ count ≤ s.unread then
      .ok { s with worker := .unmarking, unread := s.unread - count }
    else .error .blocked
  | .unmark =>
    if s.worker = .unmarking then
      .ok { s with worker := .draining, marked := s.marked.filter fun file => s.current ≠ some file }
    else .error .blocked
  | .drain =>
    if s.worker = .draining then
      .ok { s with worker := .waiting false, unread := 0, idle := true, rearmed := false }
    else .error .blocked
  | .wake =>
    match s.worker with
    | .waiting _ => .ok { s with worker := .watching }
    | _ => .error .blocked
  | .fail =>
    if s.worker = .watching ∨ s.worker = .unmarking then .ok { s with worker := .dead, idle := true }
    else .error .blocked
  | .load fails =>
    if s.main ≠ .ready then .error .blocked
    else if s.worker = .absent then
      .ok (if fails then s else { s with worker := .starting, main := .opening })
    else .ok (s.pollLoad fails)
  | .openFile =>
    if s.main ≠ .opening then .error .blocked
    else if s.current = none then .ok { s with main := .ready }
    else .ok { s with main := .reading, changed := false }
  | .finish ok =>
    if s.main ≠ .reading then .error .blocked else .ok { s with main := .ready, loaded := ok }
  | .edit level =>
    if s.main = .ready ∧ s.loaded = true ∧ level ≠ .none then .ok { s with dirty := level } else .error .blocked
  | .save file =>
    if s.main = .ready ∧ s.loaded = true ∧ s.dirty ≠ .none then
      match file with
      | none => .ok s
      | some file =>
        -- The file that is written is a new one.
        if file ∈ s.marked ∨ s.current = some file then .error .blocked
        else .ok { s.unlink s.current with current := some file, changed := false, main := .saved }
    else .error .blocked
  | .savePoll fails =>
    if s.main ≠ .saved then .error .blocked
    else .ok { (s.watcherPoll fails).2 with dirty := .none, main := .ready }
  | .change c => s.change c

def State.created (file : ℕ) : State := ⟨some file, [], 0, .absent, false, .ready, false, .none, false, false⟩

/-- The two threads and other processes, in any order. -/
def system : System State Step Blocked where
  init s := ∃ file, s = .created file
  legal _ _ := True
  step := State.step

/-! ## What is to hold -/

/-- The worker is in `impl_watch()`. -/
def Worker.Watches (w : Worker) : Prop := w = .watching ∨ w = .unmarking ∨ w = .draining

/-- There is an event that the main thread has not been told of, or the flag tells of one. -/
def State.Pending (s : State) : Prop :=
  0 < s.unread ∨ s.worker = .unmarking ∨ s.worker = .draining ∨ s.idle = true

def Step.OfWorker : Step → Prop
  | .start _ | .read _ | .unmark | .drain | .wake => True
  | _ => False

def WorkerRun : State → State → Prop :=
  Relation.ReflTransGen fun s s' => ∃ a : Step, a.OfWorker ∧ s.step a = .ok s'

/-- Nothing that another process has done is lost. -/
structure State.Delivers (s : State) : Prop where
  armed : s.worker.Watches → s.rearmed = true
  pending : s.dirty = .none → s.loaded = true → s.changed = true → s.Pending
  polled : s.dirty = .none → s.loaded = true → s.changed = true →
    ∃ s', WorkerRun s s' ∧ (s'.watcherPoll false).1 = if s.current = none then some .noent else none

/-- The file is in memory as it was when it was opened, or saved. -/
def State.Held (s : State) : Prop :=
  s.main = .reading ∨ s.main = .saved ∨ s.main = .ready ∧ s.loaded = true ∧ s.dirty = .none

def Change.Touches (s : State) : Change → Prop
  | .modify file => s.current = some file
  | .remove _ | .replace _ => True

/-- A step after which nothing is lost. -/
def Step.Considerate (s : State) : Step → Prop
  | .wake => s.worker ≠ .waiting false
  | .change c => s.worker = .starting → s.Held → ¬c.Touches s
  | .savePoll fails => s.worker = .waiting false → fails = false → s.current ≠ none → s.changed = false
  | _ => True

/-- The same threads and processes, if all steps are considerate. -/
def considerate : System State Step Blocked where
  init := system.init
  legal s a := a.Considerate s
  step := system.step

/-! ## Runs -/

/-- What holds between any two steps, if all are considerate. -/
structure State.Kept (s : State) : Prop where
  idle : s.idle = true → s.worker = .waiting false ∨ s.worker = .dead
  told : s.worker = .waiting false ∨ s.worker = .dead → s.idle = true
  rearmed : s.worker.Watches ∨ s.worker = .waiting true → s.rearmed = true
  armed : s.worker = .watching ∨ s.worker = .waiting true →
    0 < s.unread ∨ ∃ file, s.current = some file ∧ file ∈ s.marked
  absent : s.worker = .absent → s.main = .ready ∧ s.loaded = false
  opening : s.main = .opening → s.loaded = false
  starting : s.worker = .starting → s.Held → s.changed = false
  pending : s.Held → s.changed = true → s.Pending

section Steps

variable {s s' : State} {file : ℕ}

theorem notify_eq (s : State) (file : ℕ) : s.notify file = { s with unread := (s.notify file).unread } := by
  rw [State.notify]
  split <;> rfl

theorem unread_le_notify (s : State) (file : ℕ) : s.unread ≤ (s.notify file).unread := by
  rw [State.notify]
  split
  · exact Nat.le_succ _
  · exact le_rfl

theorem notify_of_mem (h : file ∈ s.marked) : 0 < (s.notify file).unread := by
  rw [State.notify, if_pos h]
  exact Nat.succ_pos _

theorem unlink_eq (s : State) (old : Option ℕ) :
    s.unlink old = { s with unread := (s.unlink old).unread, marked := (s.unlink old).marked } := by
  cases old with
  | none => rfl
  | some file => rw [State.unlink, notify_eq]

theorem unread_le_unlink (s : State) (old : Option ℕ) : s.unread ≤ (s.unlink old).unread := by
  cases old with
  | none => exact le_rfl
  | some file => exact unread_le_notify s file

theorem unlink_of_armed (h : 0 < s.unread ∨ ∃ file, s.current = some file ∧ file ∈ s.marked) :
    0 < (s.unlink s.current).unread := by
  obtain h | ⟨file, hfile, hmem⟩ := h
  · exact h.trans_le (unread_le_unlink s _)
  · rw [hfile]
    exact notify_of_mem hmem

theorem pending_of_worker (htold : s.worker = .waiting false ∨ s.worker = .dead → s.idle = true)
    (hunread : s.worker = .watching ∨ s.worker = .waiting true → 0 < s.unread) (habsent : s.worker ≠ .absent)
    (hstarting : s.worker ≠ .starting) : s.Pending := by
  rw [State.Pending]
  cases hworker : s.worker with
  | absent => exact absurd hworker habsent
  | starting => exact absurd hworker hstarting
  | watching => exact .inl (hunread (.inl hworker))
  | unmarking => exact .inr (.inl rfl)
  | draining => exact .inr (.inr (.inl rfl))
  | waiting signalled =>
    cases signalled with
    | false => exact .inr (.inr (.inr (htold (.inl hworker))))
    | true => exact .inl (hunread (.inr hworker))
  | dead => exact .inr (.inr (.inr (htold (.inr hworker))))

theorem State.Kept.worker_ne_absent (h : s.Kept) (hheld : s.Held) : s.worker ≠ .absent := by
  intro habsent
  obtain ⟨hready, hloaded⟩ := h.absent habsent
  rcases hheld with hheld | hheld | ⟨-, hheld, -⟩
  · rw [hready] at hheld; cases hheld
  · rw [hready] at hheld; cases hheld
  · rw [hloaded] at hheld; cases hheld

theorem State.Kept.moved (h : s.Kept) {unread : ℕ} {marked : List ℕ} {current : Option ℕ}
    (hunread : (0 < s.unread ∨ ∃ file, s.current = some file ∧ file ∈ s.marked) → 0 < unread)
    (hstarting : s.worker = .starting → ¬s.Held) :
    State.Kept { s with unread := unread, marked := marked, current := current, changed := true } where
  idle := h.idle
  told := h.told
  rearmed := h.rearmed
  armed hworker := .inl (hunread (h.armed hworker))
  absent := h.absent
  opening := h.opening
  starting hworker hheld := absurd hheld (hstarting hworker)
  pending hheld _ := pending_of_worker h.told (fun hworker => hunread (h.armed hworker)) (h.worker_ne_absent hheld)
    fun hworker => hstarting hworker hheld

/-- What another process does is not lost. -/
theorem change_kept (h : s.Kept) {c : Change} (hlegal : (Step.change c).Considerate s) (hstep : s.change c = .ok s') :
    s'.Kept := by
  cases c with
  | modify file =>
    obtain rfl := Except.ok.inj hstep
    have hle := unread_le_notify s file
    rw [notify_eq]
    by_cases hfile : s.current = some file
    · have hunread : (0 < s.unread ∨ ∃ file, s.current = some file ∧ file ∈ s.marked) →
          0 < (s.notify file).unread := by
        rintro (hpos | ⟨file', hfile', hmem⟩)
        · exact hpos.trans_le hle
        · obtain rfl := Option.some.inj (hfile.symm.trans hfile')
          exact notify_of_mem hmem
      simpa [hfile] using h.moved hunread fun hworker hheld => hlegal hworker hheld hfile
    · simp only [decide_eq_false hfile, Bool.or_false]
      refine ⟨h.idle, h.told, h.rearmed, fun hworker => ?_, h.absent, h.opening, h.starting,
        fun hheld hchanged => ?_⟩
      · exact (h.armed hworker).imp_left fun hpos => hpos.trans_le hle
      · exact (h.pending hheld hchanged).imp_left fun hpos => hpos.trans_le hle
  | remove moved =>
    simp only [State.change] at hstep
    split at hstep
    · cases hstep
    next file hfile =>
    obtain rfl := Except.ok.inj hstep
    have hstarting : s.worker = .starting → ¬s.Held := fun hworker hheld => hlegal hworker hheld trivial
    cases moved with
    | true =>
      rw [if_pos rfl, notify_eq]
      refine h.moved ?_ hstarting
      rintro (hpos | ⟨file', hfile', hmem⟩)
      · exact hpos.trans_le (unread_le_notify s file)
      · obtain rfl := Option.some.inj (hfile.symm.trans hfile')
        exact notify_of_mem hmem
    | false =>
      rw [if_neg Bool.false_ne_true, ← hfile, unlink_eq]
      exact h.moved unlink_of_armed hstarting
  | replace file =>
    simp only [State.change] at hstep
    split at hstep
    · cases hstep
    obtain rfl := Except.ok.inj hstep
    rw [notify_eq, unlink_eq]
    refine h.moved (fun harmed => ?_) fun hworker hheld => hlegal hworker hheld trivial
    have hunlinked := unlink_of_armed harmed
    rw [unlink_eq] at hunlinked
    exact hunlinked.trans_le (unread_le_notify _ file)

/-- `impl_rearm()` fails, or marks the file. -/
theorem implRearm_cases (s : State) (fails : Bool) : (∃ err, s.implRearm fails = (some err, s)) ∨
    ∃ file, s.current = some file ∧ s.worker ≠ .dead ∧ fails = false ∧
      s.implRearm fails = (none, { s with marked := file :: s.marked, rearmed := true }) := by
  rw [State.implRearm]
  by_cases hdead : s.worker = .dead ∨ fails = true
  · exact .inl ⟨_, if_pos hdead⟩
  rw [if_neg hdead]
  obtain ⟨hdead, hfails⟩ := not_or.mp hdead
  cases hfile : s.current with
  | none => exact .inl ⟨_, rfl⟩
  | some file => exact .inr ⟨file, rfl, hdead, by simpa using hfails, rfl⟩

/-- `watcher_poll()` fails, or marks the file and wakes the worker. -/
theorem watcherPoll_cases (h : s.Kept) (fails : Bool) : (∃ err, s.watcherPoll fails = (some err, s)) ∨
    ∃ file, s.current = some file ∧ s.worker = .waiting false ∧ fails = false ∧ s.watcherPoll fails =
      (none, { s with marked := file :: s.marked, rearmed := true, idle := false, worker := .waiting true }) := by
  rw [State.watcherPoll]
  by_cases hbusy : s.worker.Locks ∨ s.idle = false
  · exact .inl ⟨_, if_pos hbusy⟩
  rw [if_neg hbusy]
  obtain ⟨err, hrearm⟩ | ⟨file, hfile, hdead, hfails, hrearm⟩ := implRearm_cases s fails
  · rw [hrearm]
    exact .inl ⟨err, rfl⟩
  · have hidle : s.idle = true := by simpa using (not_or.mp hbusy).2
    have hworker : s.worker = .waiting false := (h.idle hidle).resolve_right hdead
    refine .inr ⟨file, hfile, hworker, hfails, ?_⟩
    rw [hrearm]
    simp only [hworker, Worker.signal]

/-- The worker has been woken after the file was marked; nothing has been changed that
is in memory. -/
theorem kept_of_woken (hfile : s.current = some file) {main : Main} {loaded : Bool} {dirty : DirtyLevel}
    (hopening : main = .opening → loaded = false)
    (hchanged : main = .reading ∨ main = .saved ∨ main = .ready ∧ loaded = true ∧ dirty = .none → s.changed = false) :
    State.Kept { s with
      marked := file :: s.marked, rearmed := true, idle := false, worker := .waiting true
      main := main, loaded := loaded, dirty := dirty } where
  idle hidle := nomatch hidle
  told hworker := by rcases hworker with hworker | hworker <;> cases hworker
  rearmed _ := rfl
  armed _ := .inr ⟨file, hfile, List.mem_cons_self⟩
  absent hworker := nomatch hworker
  opening := hopening
  starting hworker := nomatch hworker
  pending hheld hc := absurd (hchanged hheld) (by rw [show s.changed = true from hc]; decide)

/-- What `store_load()` does before the file is opened. -/
theorem pollLoad_kept (h : s.Kept) (hworker : s.worker ≠ .absent) (fails : Bool) : (s.pollLoad fails).Kept := by
  rw [State.pollLoad]
  split
  · exact h
  obtain ⟨err, hpoll⟩ | ⟨file, hfile, -, -, hpoll⟩ := watcherPoll_cases h fails
  · rw [hpoll]
    have hopen : s.loaded = false → State.Kept { s with main := .opening } := by
      intro hloaded
      refine ⟨h.idle, h.told, h.rearmed, h.armed, fun habsent => absurd habsent hworker, fun _ => hloaded, ?_, ?_⟩
      · rintro - (hheld | hheld | ⟨hheld, -⟩) <;> cases hheld
      · rintro (hheld | hheld | ⟨hheld, -⟩) <;> cases hheld
    cases err with
    | again =>
      show State.Kept (if s.loaded = true then s else { s with main := .opening })
      split
      next => exact h
      next hloaded => exact hopen (by simpa using hloaded)
    | _ => exact h
  · rw [hpoll]
    refine kept_of_woken hfile (fun _ => rfl) ?_
    rintro (hheld | hheld | ⟨hheld, -⟩) <;> cases hheld

theorem State.Kept.idled (h : s.Kept) {worker : Worker} {unread : ℕ} {rearmed : Bool}
    (hworker : worker = .waiting false ∨ worker = .dead) :
    State.Kept { s with worker := worker, idle := true, unread := unread, rearmed := rearmed } where
  idle _ := hworker
  told _ := rfl
  rearmed := by
    rintro ((hw | hw | hw) | hw) <;> rcases hworker with rfl | rfl <;> cases hw
  armed := by
    rintro (hw | hw) <;> rcases hworker with rfl | rfl <;> cases hw
  absent hw := by rcases hworker with rfl | rfl <;> cases hw
  opening := h.opening
  starting hw := by rcases hworker with rfl | rfl <;> cases hw
  pending _ _ := .inr (.inr (.inr rfl))

theorem start_kept (h : s.Kept) (fails : Bool) (hstep : s.step (.start fails) = .ok s') : s'.Kept := by
  simp only [State.step] at hstep
  split at hstep
  · cases hstep
  next hnot =>
  have hworker : s.worker = .starting := not_not.mp hnot
  obtain ⟨err, hrearm⟩ | ⟨file, hfile, -, -, hrearm⟩ := implRearm_cases s fails
  · rw [hrearm] at hstep
    cases err with
    | noent =>
      obtain rfl := Except.ok.inj hstep
      exact h.idled (.inl rfl)
    | _ =>
      obtain rfl := Except.ok.inj hstep
      exact h.idled (.inr rfl)
  · rw [hrearm] at hstep
    obtain rfl := Except.ok.inj hstep
    have hnone : s.Held → s.changed = true → False := fun hheld hchanged => by
      rw [h.starting hworker hheld] at hchanged
      cases hchanged
    refine ⟨fun hidle => ?_, ?_, fun _ => rfl, fun _ => .inr ⟨file, hfile, List.mem_cons_self⟩, nofun, h.opening,
      nofun, fun hheld hchanged => (hnone hheld hchanged).elim⟩
    · rcases h.idle hidle with hw | hw <;> cases hworker.symm.trans hw
    · rintro (hw | hw) <;> cases hw

/-- What the worker does in `worker_loop()` and `impl_watch()` preserves. -/
theorem worker_kept (h : s.Kept) {a : Step} (ha : a.OfWorker ∨ a = .fail) (hlegal : a.Considerate s)
    (hstep : s.step a = .ok s') : s'.Kept := by
  cases a with
  | start fails => exact start_kept h fails hstep
  | read count =>
    simp only [State.step] at hstep
    split at hstep
    next hread =>
      obtain rfl := Except.ok.inj hstep
      refine ⟨fun hidle => ?_, ?_, fun _ => h.rearmed (.inl (.inl hread.1)), ?_, nofun, h.opening, nofun,
        fun _ _ => .inr (.inl rfl)⟩
      · rcases h.idle hidle with hw | hw <;> cases hread.1.symm.trans hw
      · rintro (hw | hw) <;> cases hw
      · rintro (hw | hw) <;> cases hw
    · cases hstep
  | unmark =>
    simp only [State.step] at hstep
    split at hstep
    next hworker =>
      obtain rfl := Except.ok.inj hstep
      refine ⟨fun hidle => ?_, ?_, fun _ => h.rearmed (.inl (.inr (.inl hworker))), ?_, nofun, h.opening, nofun,
        fun _ _ => .inr (.inr (.inl rfl))⟩
      · rcases h.idle hidle with hw | hw <;> cases hworker.symm.trans hw
      · rintro (hw | hw) <;> cases hw
      · rintro (hw | hw) <;> cases hw
    · cases hstep
  | drain =>
    simp only [State.step] at hstep
    split at hstep
    · obtain rfl := Except.ok.inj hstep
      exact h.idled (.inl rfl)
    · cases hstep
  | wake =>
    simp only [State.step] at hstep
    split at hstep
    next signalled hworker =>
      obtain rfl := Except.ok.inj hstep
      cases signalled with
      | false => exact absurd hworker hlegal
      | true =>
        have hidle : s.idle = true → False := fun hidle => by
          rcases h.idle hidle with hw | hw <;> cases hworker.symm.trans hw
        refine ⟨fun hi => (hidle hi).elim, ?_, fun _ => h.rearmed (.inr hworker), fun _ => h.armed (.inr hworker),
          nofun, h.opening, nofun, fun hheld hchanged => ?_⟩
        · rintro (hw | hw) <;> cases hw
        · rcases h.pending hheld hchanged with hp | hp | hp | hp
          · exact .inl hp
          · cases hworker.symm.trans hp
          · cases hworker.symm.trans hp
          · exact (hidle hp).elim
    · cases hstep
  | fail =>
    simp only [State.step] at hstep
    split at hstep
    · obtain rfl := Except.ok.inj hstep
      exact h.idled (.inr rfl)
    · cases hstep
  | _ => rcases ha with ha | ha <;> cases ha

theorem State.Kept.not_held (h : s.Kept) {main : Main} {loaded : Bool} {dirty : DirtyLevel}
    (habsent : s.worker ≠ .absent) (hopening : main = .opening → loaded = false)
    (hheld : ¬(main = .reading ∨ main = .saved ∨ main = .ready ∧ loaded = true ∧ dirty = .none)) :
    State.Kept { s with main := main, loaded := loaded, dirty := dirty } where
  idle := h.idle
  told := h.told
  rearmed := h.rearmed
  armed := h.armed
  absent hw := absurd hw habsent
  opening := hopening
  starting _ hh := absurd hh hheld
  pending hh := absurd hh hheld

theorem State.Kept.still_held (h : s.Kept) {main : Main} {loaded : Bool} {dirty : DirtyLevel}
    (hheld : s.Held) (hopening : main ≠ .opening) :
    State.Kept { s with main := main, loaded := loaded, dirty := dirty } where
  idle := h.idle
  told := h.told
  rearmed := h.rearmed
  armed := h.armed
  absent hw := absurd hw (h.worker_ne_absent hheld)
  opening hm := absurd hm hopening
  starting hw _ := h.starting hw hheld
  pending _ := h.pending hheld

/-- What the main thread does in `store_load()` preserves. -/
theorem load_kept (h : s.Kept) {a : Step} (ha : (∃ fails, a = .load fails) ∨ a = .openFile ∨ ∃ ok, a = .finish ok)
    (hstep : s.step a = .ok s') : s'.Kept := by
  obtain ⟨fails, rfl⟩ | rfl | ⟨ok, rfl⟩ := ha
  · simp only [State.step] at hstep
    split at hstep
    · cases hstep
    split at hstep
    next habsent =>
      obtain rfl := Except.ok.inj hstep
      cases fails with
      | true => exact h
      | false =>
        have hloaded := (h.absent habsent).2
        refine ⟨fun hidle => ?_, ?_, ?_, ?_, nofun, fun _ => hloaded, ?_, ?_⟩
        · rcases h.idle hidle with hw | hw <;> cases habsent.symm.trans hw
        · rintro (hw | hw) <;> cases hw
        · rintro ((hw | hw | hw) | hw) <;> cases hw
        · rintro (hw | hw) <;> cases hw
        · rintro - (hheld | hheld | ⟨hheld, -⟩) <;> cases hheld
        · rintro (hheld | hheld | ⟨hheld, -⟩) <;> cases hheld
    next hworker =>
      obtain rfl := Except.ok.inj hstep
      exact pollLoad_kept h hworker fails
  · simp only [State.step] at hstep
    split at hstep
    · cases hstep
    next hmain =>
    have hopening : s.main = .opening := not_not.mp hmain
    have habsent : s.worker ≠ .absent := fun hw => by cases hopening.symm.trans (h.absent hw).1
    split at hstep
    · obtain rfl := Except.ok.inj hstep
      have hloaded := h.opening hopening
      refine h.not_held habsent nofun ?_
      rintro (hheld | hheld | ⟨-, hheld, -⟩)
      · cases hheld
      · cases hheld
      · cases hloaded.symm.trans hheld
    · obtain rfl := Except.ok.inj hstep
      exact ⟨h.idle, h.told, h.rearmed, h.armed, fun hw => absurd hw habsent, nofun, fun _ _ => rfl,
        fun _ hc => nomatch hc⟩
  · simp only [State.step] at hstep
    split at hstep
    · cases hstep
    next hmain =>
    obtain rfl := Except.ok.inj hstep
    exact h.still_held (.inl (not_not.mp hmain)) nofun

/-- What the main thread does in `store_save()`, and before, preserves. -/
theorem save_kept (h : s.Kept) {a : Step}
    (ha : (∃ level, a = .edit level) ∨ (∃ file, a = .save file) ∨ ∃ fails, a = .savePoll fails)
    (hlegal : a.Considerate s) (hstep : s.step a = .ok s') : s'.Kept := by
  obtain ⟨level, rfl⟩ | ⟨file, rfl⟩ | ⟨fails, rfl⟩ := ha
  · simp only [State.step] at hstep
    split at hstep
    next hedit =>
      obtain rfl := Except.ok.inj hstep
      have habsent : s.worker ≠ .absent := fun hw => by cases hedit.2.1.symm.trans (h.absent hw).2
      refine h.not_held habsent (fun hm => by cases hedit.1.symm.trans hm) ?_
      rintro (hheld | hheld | ⟨-, -, hheld⟩)
      · cases hedit.1.symm.trans hheld
      · cases hedit.1.symm.trans hheld
      · exact hedit.2.2 hheld
    · cases hstep
  · simp only [State.step] at hstep
    split at hstep
    next hsave =>
      have habsent : s.worker ≠ .absent := fun hw => by cases hsave.2.1.symm.trans (h.absent hw).2
      cases file with
      | none =>
        obtain rfl := Except.ok.inj hstep
        exact h
      | some file =>
        dsimp only at hstep
        split at hstep
        · cases hstep
        obtain rfl := Except.ok.inj hstep
        rw [unlink_eq]
        exact ⟨h.idle, h.told, h.rearmed, fun hw => .inl (unlink_of_armed (h.armed hw)), fun hw => absurd hw habsent,
          nofun, fun _ _ => rfl, fun _ hc => nomatch hc⟩
    · cases hstep
  · simp only [State.step] at hstep
    split at hstep
    · cases hstep
    next hmain =>
    obtain rfl := Except.ok.inj hstep
    have hheld : s.Held := .inr (.inl (not_not.mp hmain))
    obtain ⟨err, hpoll⟩ | ⟨file, hfile, hworker, rfl, hpoll⟩ := watcherPoll_cases h fails
    · rw [hpoll]
      exact h.still_held hheld nofun
    · rw [hpoll]
      exact kept_of_woken hfile nofun fun _ => hlegal hworker rfl (by rw [hfile]; nofun)

theorem step_kept (h : s.Kept) {a : Step} (hlegal : a.Considerate s) (hstep : s.step a = .ok s') : s'.Kept := by
  cases a with
  | change c => exact change_kept h hlegal hstep
  | start fails => exact worker_kept (a := .start fails) h (.inl trivial) hlegal hstep
  | read count => exact worker_kept (a := .read count) h (.inl trivial) hlegal hstep
  | unmark => exact worker_kept (a := .unmark) h (.inl trivial) hlegal hstep
  | drain => exact worker_kept (a := .drain) h (.inl trivial) hlegal hstep
  | wake => exact worker_kept (a := .wake) h (.inl trivial) hlegal hstep
  | fail => exact worker_kept h (.inr rfl) hlegal hstep
  | load fails => exact load_kept h (.inl ⟨fails, rfl⟩) hstep
  | openFile => exact load_kept h (.inr (.inl rfl)) hstep
  | finish ok => exact load_kept h (.inr (.inr ⟨ok, rfl⟩)) hstep
  | edit level => exact save_kept h (.inl ⟨level, rfl⟩) hlegal hstep
  | save file => exact save_kept h (.inr (.inl ⟨file, rfl⟩)) hlegal hstep
  | savePoll fails => exact save_kept h (.inr (.inr ⟨fails, rfl⟩)) hlegal hstep

theorem considerate_kept : considerate.Invariant State.Kept where
  init := by
    rintro s ⟨file, rfl⟩
    refine ⟨nofun, ?_, ?_, ?_, fun _ => ⟨rfl, rfl⟩, nofun, nofun, fun _ hc => nomatch hc⟩
    · rintro (hw | hw) <;> cases hw
    · rintro ((hw | hw | hw) | hw) <;> cases hw
    · rintro (hw | hw) <;> cases hw
  step _ _ _ h hlegal hstep := step_kept h hlegal hstep

/-- Once an event is pending, the worker gets to wait on its own, with the flag set. -/
theorem idle_of_pending (h : s.Kept) (halive : s.worker ≠ .dead) (hstarting : s.worker ≠ .starting)
    (habsent : s.worker ≠ .absent) (hpending : s.Pending) :
    ∃ s', WorkerRun s s' ∧ s'.worker = .waiting false ∧ s'.idle = true ∧ s'.current = s.current := by
  have hdrain : ∀ s : State, s.worker = .draining →
      ∃ s', WorkerRun s s' ∧ s'.worker = .waiting false ∧ s'.idle = true ∧ s'.current = s.current :=
      fun s hw =>
    ⟨_, .single ⟨.drain, trivial, if_pos hw⟩, rfl, rfl, rfl⟩
  have hunmark : ∀ s : State, s.worker = .unmarking →
      ∃ s', WorkerRun s s' ∧ s'.worker = .waiting false ∧ s'.idle = true ∧ s'.current = s.current :=
      fun s hw => by
    obtain ⟨s', hrun, hs'⟩ := hdrain
      { s with worker := .draining, marked := s.marked.filter fun file => s.current ≠ some file } rfl
    exact ⟨s', .head ⟨.unmark, trivial, if_pos hw⟩ hrun, hs'⟩
  have hread : ∀ s : State, s.worker = .watching → 0 < s.unread →
      ∃ s', WorkerRun s s' ∧ s'.worker = .waiting false ∧ s'.idle = true ∧ s'.current = s.current :=
      fun s hw hpos => by
    obtain ⟨s', hrun, hs'⟩ :=
      hunmark { s with worker := .unmarking, unread := s.unread - s.unread } rfl
    exact ⟨s', .head ⟨.read s.unread, trivial, if_pos ⟨hw, hpos, le_rfl⟩⟩ hrun, hs'⟩
  have hbusy : s.worker = .watching ∨ s.worker = .waiting true → 0 < s.unread := by
    intro hw
    rcases hpending with hp | hp | hp | hp
    · exact hp
    · rcases hw with hw | hw <;> cases hw.symm.trans hp
    · rcases hw with hw | hw <;> cases hw.symm.trans hp
    · rcases h.idle hp with hp | hp <;> rcases hw with hw | hw <;> cases hw.symm.trans hp
  cases hworker : s.worker with
  | absent => exact absurd hworker habsent
  | starting => exact absurd hworker hstarting
  | watching => exact hread s hworker (hbusy (.inl hworker))
  | unmarking => exact hunmark s hworker
  | draining => exact hdrain s hworker
  | waiting signalled =>
    cases signalled with
    | false => exact ⟨s, .refl, hworker, h.told (.inl hworker), rfl⟩
    | true =>
      obtain ⟨s', hrun, hs'⟩ := hread { s with worker := .watching } rfl (hbusy (.inr hworker))
      refine ⟨s', .head ⟨.wake, trivial, ?_⟩ hrun, hs'⟩
      simp only [State.step, hworker]
  | dead => exact absurd hworker halive

/-- In every run of considerate steps, no change is lost while the worker is alive. -/
theorem no_change_lost {s : State} (hreach : considerate.Reachable s) (halive : s.worker ≠ .dead) :
    s.Delivers := by
  have h := hreach.holds considerate_kept
  have hheld : s.dirty = .none → s.loaded = true → s.main = .ready ∨ s.main = .reading ∨
    s.main = .saved → s.Held := by
    rintro hdirty hloaded (hmain | hmain | hmain)
    · exact .inr (.inr ⟨hmain, hloaded, hdirty⟩)
    · exact .inl hmain
    · exact .inr (.inl hmain)
  have hmain : s.loaded = true → s.main = .ready ∨ s.main = .reading ∨ s.main = .saved := by
    intro hloaded
    cases hmain : s.main with
    | opening => cases hloaded.symm.trans (h.opening hmain)
    | _ => simp
  refine ⟨fun hw => h.rearmed (.inl hw), fun hdirty hloaded => h.pending
    (hheld hdirty hloaded (hmain hloaded)),
    fun hdirty hloaded hchanged => ?_⟩
  have hheld := hheld hdirty hloaded (hmain hloaded)
  have hstarting : s.worker ≠ .starting :=
    fun hw => by cases hchanged.symm.trans (h.starting hw hheld)
  obtain ⟨s', hrun, hworker, hidle, hcurrent⟩ :=
    idle_of_pending h halive hstarting (h.worker_ne_absent hheld) (h.pending hheld hchanged)
  refine ⟨s', hrun, ?_⟩
  have hlocks : ¬(s'.worker.Locks ∨ s'.idle = false) := by
    rw [hworker, hidle]
    rintro (hw | hi)
    · exact hw
    · cases hi
  rw [State.watcherPoll, if_neg hlocks, State.implRearm, if_neg (by simp [hworker]), hcurrent]
  cases s.current with
  | none => rfl
  | some file => rfl

def State.run (s : State) (steps : List Step) : Except Blocked State := steps.foldlM State.step s

theorem run_reachable {steps : List Step} (h : system.Reachable s) (hrun : s.run steps = .ok s') :
    system.Reachable s' := by
  induction steps generalizing s with
  | nil =>
    obtain rfl := Except.ok.inj hrun
    exact h
  | cons a steps ih =>
    obtain ⟨s₁, hstep, hrun⟩ := bind_eq_ok.mp hrun
    exact ih (.step h trivial hstep) hrun

/-- The file has been loaded, and then modified. -/
def modified : State := ⟨some 1, [1], 1, .watching, false, .ready, true, .none, true, true⟩

theorem modified_reachable : considerate.Reachable modified := by
  have h₀ : considerate.Reachable (.created 1) := .init ⟨1, rfl⟩
  have h₁ := h₀.step (show considerate.legal _ (.load false) from trivial) rfl
  have h₂ := h₁.step (show considerate.legal _ (.start false) from trivial) rfl
  have h₃ := h₂.step (show considerate.legal _ .openFile from trivial) rfl
  have h₄ := h₃.step (show considerate.legal _ (.finish true) from trivial) rfl
  exact h₄.step (show considerate.legal _ (.change (.modify 1)) from nofun) rfl

theorem no_change_lost_modified : modified.Delivers := no_change_lost modified_reachable nofun

/-- A thread that returns from `pthread_cond_wait()` without having been signalled watches a file
that is not marked. -/
theorem watches_unmarked : ∃ s, system.Reachable s ∧ s.worker ≠ .dead ∧ s.current = some 1 ∧ s.marked = [] ∧
    ¬s.Delivers := by
  have h : system.Reachable modified :=
    modified_reachable.of_stricter (fun _ h => h) (fun _ _ _ => trivial) rfl
  have hrun : modified.run [.read 1, .unmark, .drain, .wake] =
      .ok ⟨some 1, [], 0, .watching, true, .ready, true, .none, false, true⟩ := rfl
  refine ⟨_, run_reachable h hrun, nofun, rfl, rfl, fun hdelivers => ?_⟩
  cases hdelivers.armed (.inl rfl)

end Steps

end BookmarkFS.Watcher
