import BookmarkFS.Fsck.Handler

/-! # Dialogues

In the interactive mode the program passes what the operations report on to the
handler, and what the handler asks for on to the operations or to the user. The
handler and the program share a union, and the handler keeps flags for what it waits
for. Nothing is assumed of what the operations answer, nor of what the user types.
-/
namespace BookmarkFS.Fsck.Dialogue
open Library
open Chromium (FsckResult)

/-- What a pointer to a string points to: the prompt, a line that `readline()` has allocated, or
memory that has been given back. -/
inductive Str where
  | prompt
  | line (s : Bytes)
  | freed

/-- The first bytes of the union: `entry.parent_id` and `str` are in the same place. -/
inductive Head where
  | unset
  | parentId (id : ℕ)
  | str (s : Str)

/-- `union bookmarkfs_fsck_handler_data` -/
structure HandlerData where
  head : Head
  data : FsckData

/-- What would be undefined behaviour, or a failed assertion. -/
inductive Fault where
  | wrongMember
  | badPointer
  | outOfBounds

/-- What a handler asks for. -/
inductive Control where
  | next
  | apply
  | userInput
  | save
  | stop
  | rewind
  | skip
  | skipChildren
  | reset
  deriving DecidableEq

structure Options where
  interactive : Bool
  readonly : Bool
  translit : UInt8

/-- `struct handler_ctx` -/
structure Handler where
  opts : Options
  ctx : HandlerCtx
  expectInput : Bool
  hasEntry : Bool
  inhibitNext : Bool
  dataBuf : FsckData

def HandlerData.parentId (d : HandlerData) : Except Fault ℕ :=
  match d.head with
  | .parentId id => .ok id
  | _ => .error .wrongMember

/-- The line that `str` points to -/
def HandlerData.line (d : HandlerData) : Except Fault Bytes :=
  match d.head with
  | .str (.line s) => .ok s
  | .str _ => .error .badPointer
  | _ => .error .wrongMember

/-- `free()` of the line that has been handled. Where `str` still points to it, there is
nothing any more. -/
def HandlerData.free (d : HandlerData) : HandlerData :=
  match d.head with
  | .str (.line _) => { d with head := .str .freed }
  | _ => d

/-- A character of a string, whose NUL is the last one -/
def charAt (s : Bytes) (i : ℕ) : Except Fault UInt8 :=
  if i ≤ s.length then .ok (s.getD i 0) else .error .outOfBounds

/-- A delimiter of `strtok()` here -/
def isBlank (c : UInt8) : Bool := c = 32 || c = 9

def firstWord (s : Bytes) : Bytes := (s.dropWhile isBlank).takeWhile fun c => !isBlank c

/-- What the first call of `strtok()` makes of a line, and the token -/
def strtok (s : Bytes) : Bytes × Option Bytes :=
  let cut := match (s.dropWhile isBlank).dropWhile fun c => !isBlank c with
    | [] => s
    | _ :: rest => s.takeWhile isBlank ++ firstWord s ++ 0 :: rest
  (cut, if firstWord s = [] then none else some (firstWord s))

/-- `expect_input()` -/
def Handler.expect (h : Handler) (d : HandlerData) : Control × Handler × HandlerData :=
  (.userInput, { h with expectInput := true }, { d with head := .str .prompt })

/-- `expect_next()` -/
def Handler.expectNext (h : Handler) (control : Control) (d : HandlerData) :
    Except Fault (Control × Handler × HandlerData) := do
  let line ← d.line
  let c ← charAt line 1
  if c = '-'.toUInt8 then
    .ok (control, { h with inhibitNext := true, hasEntry := false, expectInput := false }, d)
  else if c = 0 then .ok (control, { h with hasEntry := false, expectInput := false }, d)
  else .ok (h.expect d)

/-- `handle_input()` from the label of `a` on -/
def Handler.applyEntry (h : Handler) (d : HandlerData) :
    Except Fault (Control × Handler × HandlerData) :=
  if h.opts.readonly then .ok (h.expect d)
  else if h.hasEntry = false then .ok (h.expect d)
  else h.expectNext .apply { d with data := h.dataBuf }

/-- The commands of `handle_input()`. What is printed is left out. -/
def Handler.command (h : Handler) (c : UInt8) (next : Option Bytes) (d : HandlerData) :
    Except Fault (Control × Handler × HandlerData) :=
  if c = 'p'.toUInt8 then .ok (h.expect d)
  else if c = 'e'.toUInt8 then
    match next with
    | none => .ok (h.expect d)
    | some name => Handler.applyEntry { h with dataBuf := { h.dataBuf with name := copyName name } }
        d
  else if c = 'a'.toUInt8 then h.applyEntry d
  else if c = 'c'.toUInt8 then h.expectNext .next d
  else if c = 's'.toUInt8 then h.expectNext .skip d
  else if c = 'S'.toUInt8 then h.expectNext .skipChildren d
  else if c = 'r'.toUInt8 then h.expectNext .rewind d
  else if c = 'R'.toUInt8 then h.expectNext .reset d
  else if c = 'w'.toUInt8 then h.expectNext .save d
  else if c = 'q'.toUInt8 then .ok (.stop, h, d)
  else .ok (h.expect d)

/-- `handle_input()` -/
def Handler.handleInput (h : Handler) (d : HandlerData) :
    Except Fault (Control × Handler × HandlerData) := do
  let input ← d.line
  let (input, next) := strtok input
  let c ← charAt input 0
  let (control, h, d) ← h.command c next { d with head := .str (.line input) }
  .ok (control, h, d.free)

/-- `handle_entry()` -/
def Handler.handleEntry (h : Handler) (why : FsckResult) (d : HandlerData) :
    Except Fault (Control × Handler × HandlerData) := do
  let parentId ← d.parentId
  let ctx := if parentId ≠ h.ctx.parentId then { h.ctx with parentId := parentId, counter := 0 }
    else h.ctx
  let (ctx, data) := if h.opts.readonly then (ctx, d.data) else fixEntry ctx why d.data
  if h.opts.interactive then
    .ok (Handler.expect { h with ctx := ctx, dataBuf := data, hasEntry := true }
      { d with data := data })
  else
    .ok (if h.opts.readonly then .next else .apply, { h with ctx := ctx, hasEntry := true },
      { d with data := data })

/-- `fsck_handler_run()`; no reason stands for a number that is not positive. -/
def Handler.run (h : Handler) (why : Option FsckResult) (d : HandlerData) :
    Except Fault (Control × Handler × HandlerData) :=
  match why with
  | some why => h.handleEntry why d
  | none =>
    if h.expectInput then h.handleInput d
    else if h.inhibitNext then .ok (Handler.expect { h with inhibitNext := false } d)
    else .ok (.next, h, d)

/-- `fsck_handler_create()` -/
def handlerCreated (opts : Options) : Handler :=
  ⟨opts, handlerCreate opts.translit, false, false, false, ⟨0, 0, copyName []⟩⟩

/-- Without the interactive mode, it is the handler that asks for each fix to be applied. -/
theorem handleEntry_automatic {h : Handler} (hinteractive : h.opts.interactive = false)
    (hwritable : h.opts.readonly = false) (why : FsckResult) (id : ℕ) (data : FsckData) :
    h.handleEntry why ⟨.parentId id, data⟩ =
      let (ctx, data) := Fsck.handleEntry h.ctx id why data
      .ok (.apply, { h with ctx := ctx, hasEntry := true }, ⟨.parentId id, data⟩) := by
  simp only [Handler.handleEntry, HandlerData.parentId, ok_bind, hinteractive, hwritable,
    Bool.false_eq_true, if_false,
    Fsck.handleEntry]

/-! ## The program -/

/-- What the operations answer to the requests for the next entry, and to apply a fix. -/
inductive Outcome where
  | failed
  | done
  | found (why : FsckResult) (parentId : ℕ) (data : FsckData)

/-- What the program has asked for, and the answers -/
inductive Event where
  | next (reply : Outcome)
  | apply (data : FsckData) (reply : Outcome)
  | control (control : Control) (accepted : Bool)
  | line (s : Bytes)

/-- Where `do_fsck()` is: about to ask for the next entry, about to run the handler,
or at its end. -/
inductive Loc where
  | next
  | run (why : Option FsckResult)
  | ended

structure Program where
  loc : Loc
  handler : Handler
  data : HandlerData
  log : List Event

/-- What the program gets to know next, of which it takes what it asks for. -/
structure Answer where
  outcome : Outcome
  accepted : Bool
  line : Option CString

/-- What the program does with an answer of the operations -/
def Program.answered (p : Program) (done : Loc) : Outcome → Program
  | .failed => { p with loc := .ended }
  | .done => { p with loc := done }
  | .found why parentId data => { p with loc := .run (some why), data := ⟨.parentId parentId, data⟩ }

/-- The part of `do_fsck()` after the handler has been run -/
def Program.handled (p : Program) (a : Answer) : Control → Except Fault Program
  | .next => .ok { p with loc := .next, data := { p.data with head := .unset } }
  | .stop => .ok { p with loc := .ended }
  | .apply => .ok (Program.answered { p with log := p.log ++ [.apply p.data.data a.outcome] }
      (.run none) a.outcome)
  | .userInput =>
    match p.data.head with
    | .str .prompt =>
      match a.line with
      | none => .ok { p with loc := .ended }
      | some line => .ok { p with
          loc := .run none, data := { p.data with head := .str (.line line.val) }, log :=
            p.log ++ [.line line.val] }
    | _ => .error .badPointer
  | control => .ok { p with
      loc := if a.accepted then .run none else .ended, log :=
        p.log ++ [.control control a.accepted] }

/-- `do_fsck()` of the program, from one label to the next -/
def Program.step (p : Program) (a : Answer) : Except Fault Program :=
  match p.loc with
  | .ended => .ok p
  | .next => .ok (Program.answered { p with log := p.log ++ [.next a.outcome] } .ended a.outcome)
  | .run why => do
    let (control, h, d) ← p.handler.run why p.data
    Program.handled { p with handler := h, data := d } a control

/-- All dialogues, with any operations and any user -/
def dialogue (opts : Options) : System Program Answer Fault where
  init p := p.loc = .next ∧ p.handler = handlerCreated opts ∧ p.log = []
  legal _ _ := True
  step := Program.step

/-! ## What is proposed -/

/-- What the operations have answered -/
def Event.outcome : Event → Option Outcome
  | .next reply => some reply
  | .apply _ reply => some reply
  | _ => none

/-- A request other than for the next entry has been granted, and nothing has been found. -/
def Event.accepted : Event → Bool
  | .apply _ .done => true
  | .control _ accepted => accepted
  | _ => false

/-- The user has a part in it. -/
def Event.ofUser : Event → Bool
  | .line _ => true
  | .control _ _ => true
  | _ => false

/-- The command `e` proposes the first word of its line, which is the command itself. -/
def edit (line : Bytes) (data : FsckData) : FsckData :=
  if line.getD 0 0 = 'e'.toUInt8 then { data with name := copyName (firstWord line) } else data

/-- After these events, this is what is to be applied: the fix to what the operations have reported
last, edited by the lines that the user has typed since. -/
def Proposed (translit : UInt8) (log : List Event) (data : FsckData) : Prop :=
  ∃ (before : List Event) (report : Event) (lines : List Bytes) (why : FsckResult)
    (reported : FsckData)
    (h : HandlerCtx), log = before ++ report :: lines.map .line ∧
      report.outcome = some (.found why h.parentId reported) ∧ h.translit = translit ∧
      data = lines.foldl (fun data line => edit line data) (fixEntry h why reported).2

theorem Proposed.line {translit : UInt8} {log : List Event} {data : FsckData}
    (h : Proposed translit log data)
    (line : Bytes) : Proposed translit (log ++ [.line line]) (edit line data) := by
  obtain ⟨before, report, lines, why, reported, ctx, rfl, hreport, htranslit, rfl⟩ := h
  refine ⟨before, report, lines ++ [line], why, reported, ctx, ?_, hreport, htranslit, ?_⟩
  · rw [List.map_append, List.append_assoc, List.cons_append]
    rfl
  · rw [List.foldl_append]
    rfl

theorem fixEntry_ctx (h : HandlerCtx) (why : FsckResult) (data : FsckData) :
    (fixEntry h why data).1.translit = h.translit := by
  cases why with
  | nameBadLen =>
    rw [fixEntry]
    split <;> rfl
  | _ => rfl

/-! ## Lines -/

/-- What `strtok()` makes of what follows the first character of a word -/
def cutRest (s : Bytes) : Bytes :=
  match s.dropWhile fun c => !isBlank c with
  | [] => s
  | _ :: rest => (s.takeWhile fun c => !isBlank c) ++ 0 :: rest

theorem strtok_word {c : UInt8} {s : Bytes} (hc : isBlank c = false) :
    strtok (c :: s) = (c :: cutRest s, some (firstWord (c :: s))) := by
  have hfirst : firstWord (c :: s) = c :: s.takeWhile fun c => !isBlank c := by
    simp only [firstWord, List.dropWhile_cons, hc, Bool.false_eq_true, if_false,
      List.takeWhile_cons, Bool.not_false,
      if_true]
  simp only [strtok, hfirst, List.dropWhile_cons, List.takeWhile_cons, hc, Bool.false_eq_true,
    if_false, Bool.not_false,
    if_true, reduceCtorEq, List.nil_append, cutRest]
  cases s.dropWhile fun c => !isBlank c <;> rfl

theorem cutRest_dash {s : Bytes} (h : s.getD 0 0 = '-'.toUInt8) :
    (cutRest s).getD 0 0 = '-'.toUInt8 := by
  cases s with
  | nil => exact h
  | cons c s =>
    obtain rfl : c = '-'.toUInt8 := h
    rw [cutRest, List.dropWhile_cons_of_pos (by decide), List.takeWhile_cons_of_pos (by decide)]
    cases s.dropWhile fun c => !isBlank c <;> rfl

theorem strtok_blank {s : Bytes} (h : ∀ c, s.head? = some c → isBlank c = true) :
    charAt (strtok s).1 0 = .ok (s.getD 0 0) := by
  cases s with
  | nil => rfl
  | cons c s =>
    rw [strtok, List.takeWhile_cons_of_pos (h c rfl)]
    cases ((c :: s).dropWhile isBlank).dropWhile fun c => !isBlank c <;> rfl

/-- What a handler does with a line. -/
inductive Reacts (h : Handler) (line : Bytes) : Control → Handler → HandlerData → Prop
  | asks {h' : Handler} {d' : HandlerData} : h'.opts = h.opts → h'.ctx = h.ctx →
  h'.dataBuf = edit line h.dataBuf →
      h'.expectInput = true → h'.hasEntry = h.hasEntry → d'.head = .str .prompt →
      Reacts h line .userInput h' d'
  | requests {control : Control} {h' : Handler} {d' : HandlerData} : control ≠ .userInput →
      control ≠ .stop →
      h'.opts = h.opts → h'.ctx = h.ctx → h'.expectInput = false → h'.hasEntry = false →
      (line.getD 1 0 = '-'.toUInt8 → h'.inhibitNext = true) →
      (control = .apply → h.opts.readonly = false ∧ h.hasEntry = true ∧
      d'.data = edit line h.dataBuf) →
      Reacts h line control h' d'
  | stops {d' : HandlerData} : Reacts h line .stop h d'

/-- What a handler does with a line before the line is given back. -/
def Handles (h : Handler) (line : Bytes) (r : Except Fault (Control × Handler × HandlerData)) :
    Prop :=
  ∃ control h' d', r = .ok (control, h', d') ∧ Reacts h line control h' d'.free

section Line

variable {h : Handler} {d : HandlerData} {line : Bytes}

theorem handles_ite {p : Prop} [Decidable p] {r r' : Except Fault (Control × Handler × HandlerData)}
    (hpos : p → Handles h line r) (hneg : ¬p → Handles h line r') :
    Handles h line (if p then r else r') := by
  split
  next hp => exact hpos hp
  next hp => exact hneg hp

theorem handles_expect (h' : Handler) (hopts : h'.opts = h.opts) (hctx : h'.ctx = h.ctx)
    (hbuf : h'.dataBuf = edit line h.dataBuf) (hentry : h'.hasEntry = h.hasEntry) :
    Handles h line (.ok (h'.expect d)) :=
  ⟨_, _, _, rfl, .asks hopts hctx hbuf rfl hentry rfl⟩

/-- The second character is the suffix, or there is none. -/
theorem handles_expectNext {c : UInt8} {rest : Bytes} (h' : Handler) (control : Control)
    (hhead : d.head = .str (.line (c :: rest))) (hcontrol : control ≠ .userInput ∧ control ≠ .stop)
    (hdash : line.getD 1 0 = '-'.toUInt8 → rest.getD 0 0 = '-'.toUInt8) (hopts : h'.opts = h.opts)
    (hctx : h'.ctx = h.ctx) (hbuf : h'.dataBuf = edit line h.dataBuf)
    (hentry : h'.hasEntry = h.hasEntry)
    (happly : control = .apply → h.opts.readonly = false ∧ h.hasEntry = true ∧
      d.data = edit line h.dataBuf) :
    Handles h line (h'.expectNext control d) := by
  have hline : d.line = .ok (c :: rest) := by rw [HandlerData.line, hhead]
  have hchar : charAt (c :: rest) 1 = .ok (rest.getD 0 0) := by
    rw [charAt, if_pos (by simp)]
    rfl
  have hdata : d.free.data = d.data := by rw [HandlerData.free, hhead]
  have hdone : ∀ inhibit, (line.getD 1 0 = '-'.toUInt8 → inhibit = true) → Reacts h line control
      { h' with inhibitNext := inhibit, hasEntry := false, expectInput := false } d.free :=
    fun inhibit hinhibit => .requests hcontrol.1 hcontrol.2 hopts hctx rfl rfl hinhibit
      (hdata ▸ happly)
  simp only [Handler.expectNext, hline, hchar, ok_bind]
  by_cases hsuffix : rest.getD 0 0 = '-'.toUInt8
  · rw [if_pos hsuffix]
    exact ⟨_, _, _, rfl, hdone true fun _ => rfl⟩
  · rw [if_neg hsuffix]
    by_cases hnul : rest.getD 0 0 = 0
    · rw [if_pos hnul]
      exact ⟨_, _, _, rfl, hdone h'.inhibitNext fun hline => absurd (hdash hline) hsuffix⟩
    · rw [if_neg hnul]
      exact handles_expect h' hopts hctx hbuf hentry

theorem handles_applyEntry {c : UInt8} {rest : Bytes} (h' : Handler)
    (hhead : d.head = .str (.line (c :: rest)))
    (hdash : line.getD 1 0 = '-'.toUInt8 → rest.getD 0 0 = '-'.toUInt8) (hopts : h'.opts = h.opts)
    (hctx : h'.ctx = h.ctx) (hbuf : h'.dataBuf = edit line h.dataBuf)
    (hentry : h'.hasEntry = h.hasEntry) :
    Handles h line (h'.applyEntry d) := by
  rw [Handler.applyEntry]
  by_cases hreadonly : h'.opts.readonly = true
  · rw [if_pos hreadonly]
    exact handles_expect h' hopts hctx hbuf hentry
  · rw [if_neg hreadonly]
    by_cases hnone : h'.hasEntry = false
    · rw [if_pos hnone]
      exact handles_expect h' hopts hctx hbuf hentry
    · rw [if_neg hnone]
      refine handles_expectNext h' .apply hhead ⟨by decide, by decide⟩ hdash hopts hctx hbuf
        hentry fun _ => ?_
      rw [Bool.not_eq_true] at hreadonly
      rw [Bool.not_eq_false] at hnone
      exact ⟨hopts ▸ hreadonly, hentry ▸ hnone, hbuf⟩

/-- A line that begins with no word is no command. -/
theorem handles_blank (hblank : ∀ c, line.head? = some c → isBlank c = true) (next : Option Bytes) :
    Handles h line (h.command (line.getD 0 0) next d) := by
  have hnot : ∀ c : UInt8, isBlank c = false → c ≠ 0 → line.getD 0 0 ≠ c := by
    rintro c hc hne rfl
    cases line with
    | nil => exact hne rfl
    | cons c rest => exact absurd ((hblank c rfl).symm.trans hc) (by decide)
  unfold Handler.command
  rw [if_neg (hnot 'p'.toUInt8 (by decide) (by decide)),
    if_neg (hnot 'e'.toUInt8 (by decide) (by decide)),
    if_neg (hnot 'a'.toUInt8 (by decide) (by decide)),
    if_neg (hnot 'c'.toUInt8 (by decide) (by decide)),
    if_neg (hnot 's'.toUInt8 (by decide) (by decide)),
    if_neg (hnot 'S'.toUInt8 (by decide) (by decide)),
    if_neg (hnot 'r'.toUInt8 (by decide) (by decide)),
    if_neg (hnot 'R'.toUInt8 (by decide) (by decide)),
    if_neg (hnot 'w'.toUInt8 (by decide) (by decide)),
    if_neg (hnot 'q'.toUInt8 (by decide) (by decide))]
  exact handles_expect h rfl rfl (if_neg (hnot _ (by decide) (by decide))).symm rfl

theorem handles_command {c : UInt8} {rest : Bytes} :
    Handles h (c :: rest)
    (h.command c (some (firstWord (c :: rest))) ⟨.str (.line (c :: cutRest rest)), d.data⟩) := by
  have hdash : (c :: rest).getD 1 0 = '-'.toUInt8 → (cutRest rest).getD 0 0 = '-'.toUInt8 :=
    cutRest_dash
  have hedit : c ≠ 'e'.toUInt8 → h.dataBuf = edit (c :: rest) h.dataBuf :=
    fun hne => (if_neg hne).symm
  -- What is neither `a` nor `e` is a request by itself.
  have hrequest : ∀ control, control ≠ .userInput ∧ control ≠ .stop → control ≠ .apply →
    c ≠ 'e'.toUInt8 →
      Handles h (c :: rest) (h.expectNext control ⟨.str (.line (c :: cutRest rest)), d.data⟩) :=
    fun control hcontrol hnot hne => handles_expectNext h control rfl hcontrol hdash rfl rfl
      (hedit hne) rfl
      fun happly => absurd happly hnot
  unfold Handler.command
  refine handles_ite (fun hp => handles_expect h rfl rfl (hedit (hp ▸ by decide)) rfl) fun _ => ?_
  refine handles_ite (fun he => handles_applyEntry _ rfl hdash rfl rfl (if_pos he).symm rfl)
    fun he => ?_
  refine handles_ite (fun _ => handles_applyEntry h rfl hdash rfl rfl (hedit he) rfl) fun _ => ?_
  refine handles_ite (fun _ => hrequest .next ⟨by decide, by decide⟩ (by decide) he) fun _ => ?_
  refine handles_ite (fun _ => hrequest .skip ⟨by decide, by decide⟩ (by decide) he) fun _ => ?_
  refine handles_ite (fun _ => hrequest .skipChildren ⟨by decide, by decide⟩ (by decide)
    he) fun _ => ?_
  refine handles_ite (fun _ => hrequest .rewind ⟨by decide, by decide⟩ (by decide) he) fun _ => ?_
  refine handles_ite (fun _ => hrequest .reset ⟨by decide, by decide⟩ (by decide) he) fun _ => ?_
  refine handles_ite (fun _ => hrequest .save ⟨by decide, by decide⟩ (by decide) he) fun _ => ?_
  exact handles_ite (fun _ => ⟨_, _, _, rfl, .stops⟩) fun _ =>
    handles_expect h rfl rfl (hedit he) rfl

/-- A handler that waits for a line gets it from `str`, and gives it back once. -/
theorem handleInput_spec (hhead : d.head = .str (.line line)) : ∃ control h' d',
    h.handleInput d = .ok (control, h', d') ∧ Reacts h line control h' d' := by
  have hline : d.line = .ok line := by rw [HandlerData.line, hhead]
  by_cases hblank : ∀ c, line.head? = some c → isBlank c = true
  · obtain ⟨control, h', d', hrun, hreacts⟩ :=
      handles_blank (h := h) (d := ⟨.str (.line (strtok line).1), d.data⟩) hblank (strtok line).2
    refine ⟨control, h', d'.free, ?_, hreacts⟩
    simp only [Handler.handleInput, hline, strtok_blank hblank, ok_bind, hrun]
  · obtain ⟨c, hc, hword⟩ : ∃ c, line.head? = some c ∧ isBlank c = false := by
      simpa only [not_forall, Bool.not_eq_true, exists_prop] using hblank
    obtain ⟨rest, rfl⟩ := List.head?_eq_some_iff.mp hc
    have hchar : charAt (c :: cutRest rest) 0 = .ok c := rfl
    have hcommand : Handles h (c :: rest) (h.command c (some (firstWord (c :: rest)))
      ⟨.str (.line (c :: cutRest rest)), d.data⟩) := handles_command
    obtain ⟨control, h', d', hrun, hreacts⟩ := hcommand
    refine ⟨control, h', d'.free, ?_, hreacts⟩
    simp only [Handler.handleInput, hline, strtok_word hword, hchar, ok_bind, hrun]

end Line

/-! ## Logs -/

/-- A command with the suffix has been granted, and nothing has happened since. -/
def Pending (log : List Event) : Prop :=
  ∃ line ev, [.line line, ev] <:+ log ∧ line.getD 1 0 = '-'.toUInt8 ∧ ev.accepted = true

/-- Only what has been proposed is applied, and the program waits for the user where it should. -/
structure Right (opts : Options) (log : List Event) : Prop where
  applied : ∀ before data reply, before ++ [.apply data reply] <+: log →
    opts.readonly = false ∧ Proposed opts.translit before data
  waits : ∀ line ev ev', [.line line, ev, ev'] <:+: log → line.getD 1 0 = '-'.toUInt8 →
    ev.accepted = true →
    ∃ line', ev' = .line line'
  quiet : opts.interactive = false → ∀ ev ∈ log, ev.ofUser = false

theorem Pending.last {log : List Event} {ev : Event} (h : Pending (log ++ [ev])) :
    ev.accepted = true ∧ ∃ before line, log = before ++ [.line line] ∧
    line.getD 1 0 = '-'.toUInt8 := by
  obtain ⟨line, ev', ⟨before, hlog⟩, hdash, haccepted⟩ := h
  rw [List.append_cons] at hlog
  obtain ⟨rfl, hev⟩ := List.append_inj' hlog rfl
  obtain rfl : ev' = ev := List.head_eq_of_cons_eq hev
  exact ⟨haccepted, before, line, rfl, hdash⟩

section Log

variable {opts : Options} {log : List Event} {ev : Event}

theorem Right.snoc (h : Right opts log)
    (happly : ∀ data reply, ev = .apply data reply → opts.readonly = false ∧
      Proposed opts.translit log data)
    (hwaits : Pending log → ∃ line, ev = .line line)
    (hquiet : opts.interactive = false → ev.ofUser = false) :
    Right opts (log ++ [ev]) where
  applied before data reply hbefore := by
    obtain hsame | hbefore := List.prefix_concat_iff.mp hbefore
    · obtain ⟨rfl, hev⟩ := List.append_inj' hsame rfl
      exact happly data reply (List.head_eq_of_cons_eq hev).symm
    · exact h.applied before data reply hbefore
  waits line ev₁ ev₂ hinfix hdash haccepted := by
    obtain hsuffix | hinfix := List.infix_concat_iff.mp hinfix
    · obtain ⟨before, hlog⟩ := hsuffix
      change before ++ ([.line line, ev₁] ++ [ev₂]) = log ++ [ev] at hlog
      rw [← List.append_assoc] at hlog
      obtain ⟨rfl, hev⟩ := List.append_inj' hlog rfl
      obtain ⟨line', rfl⟩ := hwaits ⟨line, ev₁, ⟨before, rfl⟩, hdash, haccepted⟩
      exact ⟨line', List.head_eq_of_cons_eq hev⟩
    · exact h.waits line ev₁ ev₂ hinfix hdash haccepted
  quiet hopts ev' hmem := by
    obtain hmem | hmem := List.mem_append.mp hmem
    · exact h.quiet hopts ev' hmem
    · rw [List.mem_singleton.mp hmem]
      exact hquiet hopts

theorem not_pending_found {before : List Event} {why : FsckResult} {id : ℕ} {data : FsckData}
    (h : ev.outcome = some (.found why id data)) : ¬Pending (before ++ [ev]) := by
  intro hpending
  have haccepted := hpending.last.1
  cases ev with
  | next reply => cases haccepted
  | apply data' reply =>
    obtain rfl := Option.some.inj h
    cases haccepted
  | control control accepted => cases h
  | line line => cases h

theorem not_pending_line {before : List Event} {line : Bytes} :
    ¬Pending (before ++ [.line line]) := by
  intro hpending
  cases hpending.last.1

end Log

/-! ## Runs -/

/-- What the program and its handler agree on, wherever the program is. -/
inductive Program.Awaits (opts : Options) (p : Program) : Prop
  | ended : p.loc = .ended → Awaits opts p
  | next : p.loc = .next → p.handler.expectInput = false → ¬Pending p.log → Awaits opts p
  | entry {why : FsckResult} {id : ℕ} {before : List Event} {report : Event} :
      p.loc = .run (some why) →
      p.handler.expectInput = false → p.data.head = .parentId id → p.log = before ++ [report] →
      report.outcome = some (.found why id p.data.data) → Awaits opts p
  | line {line : Bytes} {before : List Event} : p.loc = .run none → p.handler.expectInput = true →
      p.data.head = .str (.line line) → p.log = before ++ [.line line] →
      (opts.readonly = false → p.handler.hasEntry = true →
      Proposed opts.translit before p.handler.dataBuf) →
      Awaits opts p
  | idle : p.loc = .run none → p.handler.expectInput = false →
      (opts.interactive = true → p.handler.hasEntry = false) →
      (Pending p.log → p.handler.inhibitNext = true) →
      Awaits opts p

/-- A handler that has been made with these options -/
structure Handler.Sound (opts : Options) (h : Handler) : Prop where
  same : h.opts = opts
  translit : h.ctx.translit = opts.translit
  quiet : opts.interactive = false → h.expectInput = false ∧ h.inhibitNext = false

/-- A dialogue that nothing has gone wrong with -/
structure Program.Sound (opts : Options) (p : Program) : Prop where
  handler : p.handler.Sound opts
  log : Right opts p.log
  awaits : p.Awaits opts

section Step

variable {opts : Options} {p : Program} {a : Answer}

theorem sound_answered {ev : Event} {done : Loc} (hhandler : p.handler.Sound opts)
    (hexpect : p.handler.expectInput = false) (hev : ev.outcome = some a.outcome)
    (hlog : Right opts (p.log ++ [ev]))
    (hdone : a.outcome = .done →
      Program.Awaits opts { p with log := p.log ++ [ev], loc := done }) :
    (Program.answered { p with log := p.log ++ [ev] } done a.outcome).Sound opts := by
  cases houtcome : a.outcome with
  | failed => exact ⟨hhandler, hlog, .ended rfl⟩
  | done => exact ⟨hhandler, hlog, hdone houtcome⟩
  | found why id data =>
    exact ⟨hhandler, hlog, .entry rfl hexpect rfl rfl (hev.trans (congrArg some houtcome))⟩

theorem sound_asks (hhandler : p.handler.Sound opts) (hinteractive : opts.interactive = true)
    (hlog : Right opts p.log) (hexpect : p.handler.expectInput = true) (hhead : p.data.head = .str .prompt)
    (hproposed : opts.readonly = false → p.handler.hasEntry = true →
      Proposed opts.translit p.log p.handler.dataBuf) :
    ∃ p', p.handled a .userInput = .ok p' ∧ p'.Sound opts := by
  rw [Program.handled, hhead]
  cases hline : a.line with
  | none => exact ⟨_, rfl, hhandler, hlog, .ended rfl⟩
  | some line =>
    refine ⟨_, rfl, hhandler, ?_, .line rfl hexpect rfl rfl hproposed⟩
    refine hlog.snoc (fun data reply h => (by cases h)) (fun _ => ⟨_, rfl⟩) fun hnot => ?_
    rw [hinteractive] at hnot
    cases hnot

/-- A request to the operations is granted, or the program ends. -/
theorem sound_requests {control : Control} {line : Bytes} {before : List Event}
    (hcontrol : control ≠ .userInput) (hstop : control ≠ .stop) (hhandler : p.handler.Sound opts)
    (hinteractive : opts.interactive = true) (hright : Right opts p.log)
    (hexpect : p.handler.expectInput = false) (hentry : p.handler.hasEntry = false)
    (hlog : p.log = before ++ [.line line])
    (hdash : line.getD 1 0 = '-'.toUInt8 → p.handler.inhibitNext = true)
    (happly : control = .apply → opts.readonly = false ∧ Proposed opts.translit p.log p.data.data) :
    ∃ p', p.handled a control = .ok p' ∧ p'.Sound opts := by
  have hpending : ¬Pending p.log := hlog ▸ not_pending_line
  -- What is granted is pending if the line has the suffix.
  have hidle : ∀ ev : Event, Pending (p.log ++ [ev]) → p.handler.inhibitNext = true := by
    intro ev h
    obtain ⟨-, before', line', hsame, hdash'⟩ := h.last
    obtain ⟨-, hline⟩ := List.append_inj' (hlog.symm.trans hsame) rfl
    obtain rfl := Event.line.inj (List.head_eq_of_cons_eq hline)
    exact hdash hdash'
  have hnot : opts.interactive ≠ false := by rw [hinteractive]; decide
  have hgranted : ∀ accepted, (∀ data reply, Event.control control accepted ≠ .apply data reply) →
      Program.Sound opts { p with
        loc := if accepted then .run none else .ended, log :=
          p.log ++ [.control control accepted] } := by
    intro accepted hne
    refine ⟨hhandler, hright.snoc (fun data reply h => absurd h (hne data reply))
      (fun h => absurd h hpending) fun h => absurd h hnot, ?_⟩
    cases accepted with
    | false => exact .ended rfl
    | true => exact .idle rfl hexpect (fun _ => hentry) (hidle _)
  cases control with
  | next => exact ⟨_, rfl, hhandler, hright, .next rfl hexpect hpending⟩
  | apply =>
    refine ⟨_, rfl, sound_answered hhandler hexpect rfl
      (hright.snoc ?_ (fun h => absurd h hpending) fun _ => rfl)
      fun _ => .idle rfl hexpect (fun _ => hentry) (hidle _)⟩
    rintro data reply h
    obtain ⟨rfl, -⟩ := Event.apply.inj h
    exact happly rfl
  | userInput => exact absurd rfl hcontrol
  | stop => exact absurd rfl hstop
  | save | rewind | skip | skipChildren | reset =>
      exact ⟨_, rfl, hgranted a.accepted fun _ _ h => (by cases h)⟩

/-- The handler proposes a fix for what has been reported, or just passes on. -/
theorem sound_entry (h : p.Sound opts) {why : FsckResult} {id : ℕ} {before : List Event}
    {report : Event} (hloc : p.loc = .run (some why)) (hexpect : p.handler.expectInput = false)
    (hhead : p.data.head = .parentId id) (hlog : p.log = before ++ [report])
    (hreport : report.outcome = some (.found why id p.data.data)) :
    ∃ p', p.step a = .ok p' ∧ p'.Sound opts := by
  obtain rfl : p.handler.opts = opts := h.handler.same
  obtain ⟨ctx, hctx⟩ : ∃ ctx : HandlerCtx, ctx = if id ≠ p.handler.ctx.parentId then
      { p.handler.ctx with parentId := id, counter := 0 } else p.handler.ctx := ⟨_, rfl⟩
  have hsame : ctx.parentId = id ∧ ctx.translit = p.handler.opts.translit := by
    rw [hctx]
    split_ifs with hne
    · exact ⟨rfl, h.handler.translit⟩
    · exact ⟨(not_not.mp hne).symm, h.handler.translit⟩
  obtain ⟨r, hr⟩ : ∃ r, r = if p.handler.opts.readonly then (ctx, p.data.data)
    else fixEntry ctx why p.data.data :=
    ⟨_, rfl⟩
  have htranslit : r.1.translit = p.handler.opts.translit := by
    rw [hr]
    split_ifs
    · exact hsame.2
    · exact (fixEntry_ctx ctx why _).trans hsame.2
  have hproposed : p.handler.opts.readonly = false → Proposed p.handler.opts.translit p.log r.2 := fun hwritable => by
    refine ⟨before, report, [], why, p.data.data, ctx, hlog, hsame.1.symm ▸ hreport, hsame.2, ?_⟩
    rw [hr, hwritable]
    rfl
  have hpending : ¬Pending p.log := hlog ▸ not_pending_found hreport
  have hid : p.data.parentId = .ok id := by rw [HandlerData.parentId, hhead]
  rw [Program.step, hloc]
  dsimp only
  rw [Handler.run, Handler.handleEntry, hid, ok_bind, ← hctx]
  dsimp only
  rw [← hr]
  cases hinteractive : p.handler.opts.interactive with
  | true =>
    exact sound_asks (p := ⟨_, { p.handler with ctx := r.1, expectInput := true, hasEntry := true, dataBuf := r.2 },
      ⟨.str .prompt, r.2⟩, p.log⟩) ⟨h.handler.same,
      htranslit, fun hnot => (by rw [hinteractive] at hnot; cases hnot)⟩
      hinteractive h.log rfl rfl fun hwritable _ => hproposed hwritable
  | false =>
    have hhandler : Handler.Sound p.handler.opts { p.handler with ctx := r.1, hasEntry := true } :=
      ⟨h.handler.same, htranslit, h.handler.quiet⟩
    cases hreadonly : p.handler.opts.readonly with
    | true => exact ⟨_, rfl, hhandler, h.log, .next rfl hexpect hpending⟩
    | false =>
      refine ⟨_, rfl, sound_answered (p := ⟨_, { p.handler with ctx := r.1, hasEntry := true }, _,
        p.log⟩) hhandler
        hexpect rfl (h.log.snoc ?_ (fun h => absurd h hpending) fun _ => rfl) fun _ => ?_⟩
      · rintro data reply hsame
        obtain ⟨rfl, -⟩ := Event.apply.inj hsame
        exact ⟨hreadonly, hproposed hreadonly⟩
      · refine .idle rfl hexpect (fun hnot => ?_) fun h => ?_
        · rw [hinteractive] at hnot
          cases hnot
        · -- What comes before it is no line.
          obtain ⟨-, before', line, hsame, -⟩ := h.last
          obtain ⟨-, hline⟩ := List.append_inj' (hlog.symm.trans hsame) rfl
          obtain rfl : report = .line line := List.head_eq_of_cons_eq hline
          cases hreport

/-- The handler takes a line. -/
theorem sound_line (h : p.Sound opts) {line : Bytes} {before : List Event}
    (hloc : p.loc = .run none) (hexpect : p.handler.expectInput = true)
    (hhead : p.data.head = .str (.line line)) (hlog : p.log = before ++ [.line line])
    (hproposed : opts.readonly = false → p.handler.hasEntry = true →
      Proposed opts.translit before p.handler.dataBuf) : ∃ p', p.step a = .ok p' ∧
      p'.Sound opts := by
  have hinteractive : opts.interactive = true := by
    by_contra hnot
    rw [(h.handler.quiet (Bool.not_eq_true _ ▸ hnot)).1] at hexpect
    cases hexpect
  have hquiet : ∀ {P : Prop}, opts.interactive = false → P := fun hnot => by
    rw [hinteractive] at hnot
    cases hnot
  obtain ⟨control, h', d', hrun, hreacts⟩ := handleInput_spec (h := p.handler) hhead
  rw [Program.step, hloc]
  dsimp only
  rw [Handler.run, hexpect, if_pos rfl, hrun, ok_bind]
  cases hreacts with
  | asks hsame hctx hbuf hexpect' hentry hprompt =>
    refine sound_asks (p := ⟨_, h', d', p.log⟩)
      ⟨hsame.trans h.handler.same, (congrArg _ hctx).trans h.handler.translit, hquiet⟩ hinteractive
        h.log hexpect'
      hprompt fun hwritable hhas => ?_
    rw [hbuf, hlog]
    exact (hproposed hwritable (hentry.symm.trans hhas)).line line
  | requests hcontrol hstop hsame hctx hexpect' hentry hdash happly =>
    refine sound_requests (p := ⟨_, h', d', p.log⟩) hcontrol hstop
      ⟨hsame.trans h.handler.same, (congrArg _ hctx).trans h.handler.translit, hquiet⟩ hinteractive
        h.log hexpect'
      hentry hlog hdash fun hsame => ?_
    obtain ⟨hwritable, hhas, hdata⟩ := happly hsame
    rw [h.handler.same] at hwritable
    refine ⟨hwritable, ?_⟩
    rw [hdata, hlog]
    exact (hproposed hwritable hhas).line line
  | stops => exact ⟨_, rfl, h.handler, h.log, .ended rfl⟩

/-- Nothing goes wrong with the next step, either. -/
theorem step_sound (a : Answer) (h : p.Sound opts) : ∃ p', p.step a = .ok p' ∧ p'.Sound opts := by
  cases h.awaits with
  | ended hloc =>
    rw [Program.step, hloc]
    exact ⟨p, rfl, h⟩
  | next hloc hexpect hpending =>
    rw [Program.step, hloc]
    exact ⟨_, rfl, sound_answered h.handler hexpect rfl
      (h.log.snoc (fun data reply h => (by cases h))
      (fun h => absurd h hpending) fun _ => rfl) fun _ => .ended rfl⟩
  | entry hloc hexpect hhead hlog hreport => exact sound_entry h hloc hexpect hhead hlog hreport
  | line hloc hexpect hhead hlog hproposed => exact sound_line h hloc hexpect hhead hlog hproposed
  | idle hloc hexpect hentry hinhibit =>
    rw [Program.step, hloc]
    dsimp only
    rw [Handler.run, hexpect]
    cases hnext : p.handler.inhibitNext with
    | false =>
      refine ⟨_, rfl, h.handler, h.log, .next rfl hexpect fun hpending => ?_⟩
      rw [hinhibit hpending] at hnext
      cases hnext
    | true =>
      have hinteractive : opts.interactive = true := by
        by_contra hnot
        rw [(h.handler.quiet (Bool.not_eq_true _ ▸ hnot)).2] at hnext
        cases hnext
      refine sound_asks (p := ⟨_, { p.handler with inhibitNext := false, expectInput := true },
        ⟨.str .prompt, p.data.data⟩, p.log⟩) ⟨h.handler.same, h.handler.translit, fun hnot => ?_⟩
        hinteractive h.log
        rfl rfl fun _ hhas => ?_
      · rw [hinteractive] at hnot
        cases hnot
      · dsimp only at hhas
        rw [hentry hinteractive] at hhas
        cases hhas

end Step

theorem dialogue_sound (opts : Options) : (dialogue opts).Invariant (Program.Sound opts) where
  init p := by
    rintro ⟨hloc, hhandler, hlog⟩
    have hnone : ∀ log' : List Event, log' ≠ [] → ¬log' <:+: p.log := fun log' hne h =>
      hne (List.infix_nil.mp (hlog ▸ h))
    refine ⟨by rw [hhandler]; exact ⟨rfl, rfl, fun _ => ⟨rfl, rfl⟩⟩, ⟨fun before data reply h => ?_,
      fun line ev ev' h => absurd h (hnone _ (List.cons_ne_nil _ _)), fun _ ev h => ?_⟩,
      .next hloc (by rw [hhandler]; rfl) ?_⟩
    · exact absurd h.isInfix (hnone _ (by simp))
    · rw [hlog] at h
      cases h
    · rintro ⟨line, ev, h, -⟩
      exact hnone _ (List.cons_ne_nil _ _) h.isInfix
  step p a p' h _ hstep := by
    obtain ⟨p'', hstep', hsound⟩ := step_sound a h
    obtain rfl := Except.ok.inj (hstep.symm.trans hstep')
    exact hsound

/-- What is applied has the identifier of what has been reported. -/
theorem Proposed.reported {translit : UInt8} {log : List Event} {data : FsckData}
    (h : Proposed translit log data) :
    ∃ (before : List Event) (report : Event) (lines : List Bytes) (why : FsckResult) (id : ℕ)
    (reported : FsckData),
      log = before ++ report :: lines.map .line ∧
        report.outcome = some (.found why id reported) ∧ data.id = reported.id := by
  obtain ⟨before, report, lines, why, reported, ctx, rfl, hreport, -, rfl⟩ := h
  refine ⟨before, report, lines, why, _, reported, rfl, hreport, ?_⟩
  have hedit : ∀ data : FsckData, (lines.foldl (fun data line => edit line data) data).id =
    data.id := by
    induction lines with
    | nil => exact fun _ => rfl
    | cons line lines ih =>
      intro data
      rw [List.foldl_cons, ih, edit]
      split_ifs <;> rfl
  rw [hedit]
  cases why with
  | nameBadLen =>
    rw [fixEntry]
    split_ifs <;> rfl
  | _ => rfl

def asked : Options := ⟨true, false, 95⟩

/-- A file of the name `A` that has to get another name -/
def secondA : Outcome := .found .nameDuplicate 1 ⟨3, 2, copyName [65]⟩

def begun : Program := ⟨.next, handlerCreated asked, ⟨.unset, ⟨0, 0, []⟩⟩, []⟩

theorem editing_reachable : ∃ (p : Program) (data : FsckData), (dialogue asked).Reachable p ∧
    p.log = [.next secondA, .line [101, 45, 32, 66], .apply data .done, .line [113]] ∧
      bufferStr data.name = ⟨[101, 45], by decide⟩ := by
  have h₀ : (dialogue asked).Reachable begun := .init ⟨rfl, rfl, rfl⟩
  have h₁ := h₀.step (l := ⟨secondA, true, none⟩) trivial rfl
  have h₂ := h₁.step (l := ⟨.failed, true, some ⟨[101, 45, 32, 66], by decide⟩⟩) trivial rfl
  have h₃ := h₂.step (l := ⟨.done, true, none⟩) trivial rfl
  have h₄ := h₃.step (l := ⟨.failed, true, some ⟨[113], by decide⟩⟩) trivial rfl
  exact ⟨_, _, h₄, rfl, by decide⟩

/-- Whatever the operations answer and the user types, the handler and the program never take one
member of the union for another, nor a line that has been given back. What is applied is what has
been proposed on the last report, and never in the read-only mode; without the interactive mode,
nobody is asked. -/
theorem dialogue_safe {opts : Options} {p : Program} (h : (dialogue opts).Reachable p) :
    (∀ a, ∃ p', p.step a = .ok p') ∧
      (∀ before data reply, before ++ [.apply data reply] <+: p.log →
        opts.readonly = false ∧ Proposed opts.translit before data) ∧
      (opts.interactive = false → ∀ ev ∈ p.log, ev.ofUser = false) := by
  have hsound := h.holds (dialogue_sound opts)
  refine ⟨fun a => ?_, hsound.log.applied, hsound.log.quiet⟩
  obtain ⟨p', hstep, -⟩ := step_sound a hsound
  exact ⟨p', hstep⟩

theorem dialogue_safe_editing : ∃ (p : Program) (data : FsckData), bufferStr data.name = ⟨[101, 45], by decide⟩ ∧
    p.log = [.next secondA, .line [101, 45, 32, 66], .apply data .done, .line [113]] ∧
      (∀ a, ∃ p', p.step a = .ok p') ∧
        (∀ before data reply, before ++ [.apply data reply] <+: p.log →
          asked.readonly = false ∧ Proposed asked.translit before data) ∧
        (asked.interactive = false → ∀ ev ∈ p.log, ev.ofUser = false) := by
  obtain ⟨p, data, h, hlog, hname⟩ := editing_reachable
  exact ⟨p, data, hname, hlog, dialogue_safe h⟩

/-- After a command with the suffix has been granted, the user is asked before the check goes on. -/
theorem dialogue_waits {opts : Options} {p : Program} (h : (dialogue opts).Reachable p)
    {line : Bytes} {ev ev' : Event} (hlog : [.line line, ev, ev'] <:+: p.log)
    (hdash : line.getD 1 0 = '-'.toUInt8) (hev : ev.accepted = true) :
    ∃ line', ev' = .line line' :=
  (h.holds (dialogue_sound opts)).log.waits line ev ev' hlog hdash hev

theorem dialogue_waits_editing : ∃ (p : Program) (data : FsckData), (dialogue asked).Reachable p ∧
    [.line [101, 45, 32, 66], .apply data .done, .line [113]] <:+: p.log ∧
      ∃ line, Event.line [113] = .line line := by
  obtain ⟨p, data, h, hlog, -⟩ := editing_reachable
  have hinfix : [.line [101, 45, 32, 66], .apply data .done, .line [113]] <:+: p.log :=
    ⟨[.next secondA], [], hlog.symm⟩
  exact ⟨p, data, h, hinfix, dialogue_waits h hinfix rfl rfl⟩

end BookmarkFS.Fsck.Dialogue
