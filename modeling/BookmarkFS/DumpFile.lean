import BookmarkFS.Dump
import BookmarkFS.Library.Directory
import BookmarkFS.Library.Retry

/-! # The temporary file

A file is replaced by one that has been written under a temporary name, which is the
name of the file, a random number and a suffix. What is too long of it is to be cut
off at the front, where the pointer is moved the other way.
-/
namespace BookmarkFS.Dump
open Library

/-- `NAME_MAX` -/
def nameMax : ℕ := 255

/-- `TMPNAME_MAX` -/
def tmpnameMax : ℕ := nameMax + 21

/-- A hexadecimal digit of `printf()` -/
def hexDigit (n : ℕ) : UInt8 := if n < 10 then UInt8.ofNat (48 + n) else UInt8.ofNat (87 + n)

/-- `"%016" PRIx64` -/
def hex16 (v : UInt64) : Bytes :=
  (List.range 16).map fun i => hexDigit (v.toNat / 16 ^ (15 - i) % 16)

/-- What follows the name: `".%016" PRIx64 ".tmp"` -/
def randomPart (random : UInt64) : Bytes := 46 :: hex16 random ++ [46, 116, 109, 112]

/-- `snprintf()` of a text: the buffer afterwards, and what is returned -/
def snprintf (buf : Bytes) (size : ℕ) (text : Bytes) : Except Fault (Bytes × ℤ) :=
  if 2 ^ 31 ≤ text.length then .ok (buf, -1)
  else do
    let buf ← storeBytes .outOfBounds buf 0 (text.take (size - 1) ++ [0])
    .ok (buf, text.length)

/-- The string that a pointer into an array points to -/
def stringAt (buf : Bytes) : ℤ → Except Fault Bytes
  | .ofNat off => if 0 ∈ buf.drop off then .ok (cString (buf.drop off)) else .error .outOfBounds
  | .negSucc _ => .error .outOfBounds

/-- `buf` and `tmp_name`, as an offset from `buf`, or `none` for `ENAMETOOLONG` -/
def tmpName (mem : ℕ → UInt8) (name : Bytes) (random : UInt64) :
    Except Fault (Option (Bytes × ℤ)) := do
  let (buf, nameLen) ← snprintf ((List.range (tmpnameMax + 1)).map mem) (tmpnameMax + 1)
    (name ++ randomPart random)
  if nameLen > tmpnameMax ∨ nameLen < 0 then .ok none
  else .ok (some (buf, if nameLen > nameMax then nameMax - nameLen else 0))

/-- What `json_dump_file_at()` finds: what is in the memory of `buf`, the random numbers, whether
`openat()` fails for a reason other than `EEXIST`, what happens as the text is written, and whether
`renameat()`, `xfsync()` and `unlinkat()` succeed. -/
structure FileEnv where
  mem : ℕ → UInt8
  random : ℕ → UInt64
  denied : ℕ → Bool
  dump : Env
  calls : List Writev
  renamed : Bool
  synced : Bool
  unlinked : Bool

section DumpFile

variable (env : FileEnv) (name : Bytes) (chunks : List Chunk) (dir : Dir Bytes Bytes)

/-- `fail:` -/
def failed (tmp : Bytes) (dir : Dir Bytes Bytes) : Except Fault (Status × Dir Bytes Bytes) :=
  .ok (.failure, if env.unlinked then dir.unlink tmp else dir)

/-- What follows `openat()` -/
def writeTmp (tmp : Bytes) : Except Fault (Status × Dir Bytes Bytes) := do
  let created := dir.create tmp []
  let (status, fd) ← jsonDumpfdEx env.dump ⟨[], env.calls⟩ chunks
  let written := created.write dir.next fd.content
  match status with
  | .success =>
    match if env.renamed then written.rename tmp name else none with
    | none => failed env tmp written
    | some dir => if env.synced then .ok (.success, dir) else failed env tmp dir
  | .failure => failed env tmp written
  | status => .ok (status, written)

/-- What follows `again:`, with the number of attempts before -/
def dumpFileAttempt (n : ℕ) : ℕ ⊕ Except Fault (Status × Dir Bytes Bytes) :=
  match tmpName env.mem name (env.random n) with
  | .error fault => .inr (.error fault)
  | .ok none => .inr (.ok (.failure, dir))
  | .ok (some (buf, tmp)) =>
    match stringAt buf tmp with
    | .error fault => .inr (.error fault)
    | .ok tmp =>
      if env.denied n then .inr (.ok (.failure, dir))
      else if dir.entries tmp ≠ none then .inl (n + 1)
      else .inr (writeTmp env name chunks dir tmp)

/-- `json_dump_file_at()`; `none` if it has not returned after so many attempts -/
def jsonDumpFileAt (fuel : ℕ) : Option (Except Fault (Status × Dir Bytes Bytes)) :=
  retry (dumpFileAttempt env name chunks dir) fuel 0

end DumpFile

/-! ## The name -/

theorem hexDigit_ne_zero {n : ℕ} (h : n < 16) : hexDigit n ≠ 0 := by
  interval_cases n <;> decide

theorem hex16_length (v : UInt64) : (hex16 v).length = 16 := by simp [hex16]

theorem zero_notMem_hex16 (v : UInt64) : 0 ∉ hex16 v := by
  rw [hex16, List.mem_map]
  rintro ⟨i, -, h⟩
  exact hexDigit_ne_zero (Nat.mod_lt _ (by decide)) h

theorem randomPart_length (random : UInt64) : (randomPart random).length = 21 := by
  simp [randomPart, hex16_length]

theorem zero_notMem_randomPart (random : UInt64) : 0 ∉ randomPart random := by
  simp [randomPart, zero_notMem_hex16]

theorem cString_append_zero {s : Bytes} (h : 0 ∉ s) (t : Bytes) : cString (s ++ 0 :: t) = s := by
  have hs : ∀ c ∈ s, (decide (c ≠ 0)) = true := fun c hc => decide_eq_true fun h0 => h (h0 ▸ hc)
  rw [cString, List.takeWhile_append_of_pos hs, List.takeWhile_cons_of_neg (by decide),
    List.append_nil]

theorem stringAt_zero {s : Bytes} (h : 0 ∉ s) (t : Bytes) : stringAt (s ++ 0 :: t) 0 = .ok s := by
  show (if 0 ∈ s ++ 0 :: t then Except.ok (cString (s ++ 0 :: t)) else _) = _
  rw [if_pos (by simp), cString_append_zero h]

theorem stringAt_neg (buf : Bytes) {off : ℤ} (h : off < 0) :
    stringAt buf off = .error .outOfBounds := by
  obtain ⟨n, rfl⟩ := Int.eq_negSucc_of_lt_zero h
  rfl

theorem snprintf_fits {buf text : Bytes} (h : text.length < buf.length)
    (hint : text.length < 2 ^ 31) :
    ∃ rest, snprintf buf buf.length text = .ok (text ++ 0 :: rest, (text.length : ℤ)) := by
  have hlen : 0 + (text ++ [0]).length ≤ buf.length := by
    rw [List.length_append, List.length_singleton]
    omega
  refine ⟨buf.drop (0 + (text ++ [0]).length), ?_⟩
  rw [snprintf, if_neg (by omega), List.take_of_length_le (by omega), storeBytes,
    if_pos hlen, ok_bind]
  simp

/-- The whole name is in the buffer. The pointer is before it if the name is too long for a file. -/
theorem tmpName_spec (mem : ℕ → UInt8) {name : Bytes} (hlen : name.length ≤ nameMax)
    (random : UInt64) :
    ∃ rest, tmpName mem name random = .ok (some (name ++ randomPart random ++ 0 :: rest,
      if 234 < name.length then 234 - (name.length : ℤ) else 0)) := by
  have htext : (name ++ randomPart random).length = name.length + 21 := by
    rw [List.length_append, randomPart_length]
  have hbuf : ((List.range (tmpnameMax + 1)).map mem).length = tmpnameMax + 1 := by simp
  have hmax : tmpnameMax = nameMax + 21 := rfl
  have hname : nameMax = 255 := rfl
  have hfits : (name ++ randomPart random).length <
    ((List.range (tmpnameMax + 1)).map mem).length := by omega
  obtain ⟨rest, hrun⟩ := snprintf_fits hfits (by omega)
  rw [hbuf] at hrun
  refine ⟨rest, ?_⟩
  rw [tmpName, hrun, ok_bind]
  dsimp only
  rw [if_neg (by omega), htext]
  congr 3
  split_ifs <;> omega

/-- The pointer is into the buffer, and the string there is the end of the whole name, with the
random part. It is short enough for a file, and another name. -/
structure RightTmpName (name : Bytes) (random : UInt64) (buf : Bytes) (tmp : ℤ) : Prop where
  inside : 0 ≤ tmp ∧ tmp < buf.length
  string : ∃ s, stringAt buf tmp = .ok s ∧ s <:+ name ++ randomPart random ∧
    randomPart random <:+ s ∧
    s.length ≤ nameMax ∧ s ≠ name

theorem append_randomPart_ne (name : Bytes) (random : UInt64) :
    name ++ randomPart random ≠ name := by
  intro h
  have hlen := congrArg List.length h
  rw [List.length_append, randomPart_length] at hlen
  omega

section Name

variable {name : Bytes} (hnul : 0 ∉ name)

include hnul

theorem zero_notMem_tmpName (random : UInt64) : 0 ∉ name ++ randomPart random := by
  rw [List.mem_append]
  exact not_or.mpr ⟨hnul, zero_notMem_randomPart random⟩

theorem tmpName_right (hlen : name.length ≤ nameMax) (mem : ℕ → UInt8) (random : UInt64) :
    (∃ buf tmp, tmpName mem name random = .ok (some (buf, tmp)) ∧
      RightTmpName name random buf tmp) ↔
      name.length ≤ 234 := by
  obtain ⟨rest, hrun⟩ := tmpName_spec mem hlen random
  rw [hrun]
  constructor
  · rintro ⟨buf, tmp, heq, hright⟩
    cases heq
    have hinside := hright.inside.1
    split_ifs at hinside <;> omega
  · intro h
    rw [if_neg (by omega)]
    refine ⟨_, _, rfl, ⟨le_rfl, Int.natCast_pos.mpr (by simp)⟩, name ++ randomPart random, ?_,
      List.suffix_rfl, List.suffix_append _ _, ?_,
      append_randomPart_ne name random⟩
    · exact stringAt_zero (zero_notMem_tmpName hnul random) rest
    · rw [List.length_append, randomPart_length, nameMax]
      omega

/-! ## The file -/

variable (env : FileEnv) (chunks : List Chunk) (dir : Dir Bytes Bytes) (n : ℕ)

theorem dumpFileAttempt_short (h : name.length ≤ 234) :
    dumpFileAttempt env name chunks dir n =
      if env.denied n then .inr (.ok (.failure, dir))
      else if dir.entries (name ++ randomPart (env.random n)) ≠ none then .inl (n + 1)
      else .inr (writeTmp env name chunks dir (name ++ randomPart (env.random n))) := by
  obtain ⟨rest, hrun⟩ := tmpName_spec env.mem (h.trans (by decide)) (env.random n)
  rw [if_neg (by omega)] at hrun
  rw [dumpFileAttempt, hrun]
  dsimp only
  rw [stringAt_zero (zero_notMem_tmpName hnul _)]

omit hnul in
theorem dumpFileAttempt_long (hlong : 234 < name.length) (hlen : name.length ≤ nameMax) :
    dumpFileAttempt env name chunks dir n = .inr (.error .outOfBounds) := by
  obtain ⟨rest, hrun⟩ := tmpName_spec env.mem hlen (env.random n)
  rw [if_pos hlong] at hrun
  rw [dumpFileAttempt, hrun]
  dsimp only
  rw [stringAt_neg _ (by omega)]

end Name

section Replace

variable {env : FileEnv} {name tmp : Bytes} {chunks : List Chunk} {dir : Dir Bytes Bytes}

def textOf (chunks : List Chunk) : Bytes := (chunks.map Subtype.val).flatten

/-- What has been done when `json_dump_file_at()` returns: where it succeeds, the name stands for a
new file with the whole text. -/
structure Saved (dir : Dir Bytes Bytes) (name text : Bytes) (status : Status)
    (dir' : Dir Bytes Bytes) : Prop where
  replaces : dir.Replaces name text dir'
  success : status = .success → dir'.entries name = some dir.next ∧ dir'.contents dir.next = text

/-- At `fail:`, the new file still has its temporary name. -/
theorem failed_saved (hne : tmp ≠ name) (hfree : dir.entries tmp = none) (content text : Bytes) :
    ∃ status dir', failed env tmp (dir.create tmp content) = .ok (status, dir') ∧
    Saved dir name text status dir' := by
  rw [failed]
  split_ifs
  · exact ⟨_, _, rfl, Dir.replaces_create_unlink hfree, nofun⟩
  · exact ⟨_, _, rfl, Dir.replaces_create hne hfree, nofun⟩

theorem writeTmp_saved (hne : tmp ≠ name) (hfree : dir.entries tmp = none) :
    ∃ status dir', writeTmp env name chunks dir tmp = .ok (status, dir') ∧
      Saved dir name (textOf chunks) status dir' := by
  obtain ⟨status, fd, hrun, htext, -⟩ := jsonDumpfdEx_text env.dump ⟨[], env.calls⟩ chunks
  rw [writeTmp]
  dsimp only
  rw [hrun, ok_bind]
  dsimp only
  rw [Dir.create_write]
  cases status with
  | failure => exact failed_saved hne hfree _ _
  | aborted => exact ⟨_, _, rfl, Dir.replaces_create hne hfree, nofun⟩
  | pending => exact ⟨_, _, rfl, Dir.replaces_create hne hfree, nofun⟩
  | success =>
    have hcontent : fd.content = textOf chunks := (htext rfl).trans (List.nil_append _)
    dsimp only
    rw [hcontent]
    by_cases hrenamed : env.renamed = true
    · obtain ⟨dir', hrename, -⟩ := Dir.create_rename hne hfree (textOf chunks)
      obtain ⟨hreplaces, hentry, hwhole, hgone⟩ := Dir.replaces_rename hne hfree hrename
      rw [if_pos hrenamed, hrename]
      dsimp only
      split_ifs
      · exact ⟨_, _, rfl, hreplaces, fun _ => ⟨hentry, hwhole⟩⟩
      · -- the temporary name is gone, so that nothing is removed
        rw [failed, Dir.unlink_of_free hgone, ite_self]
        exact ⟨_, _, rfl, hreplaces, nofun⟩
    · rw [if_neg hrenamed]
      exact failed_saved hne hfree _ _

theorem jsonDumpFileAt_saved (hnul : 0 ∉ name) (h : name.length ≤ 234) {fuel : ℕ}
    {res : Except Fault (Status × Dir Bytes Bytes)}
    (hres : jsonDumpFileAt env name chunks dir fuel = some res) :
    ∃ status dir', res = .ok (status, dir') ∧ Saved dir name (textOf chunks) status dir' := by
  obtain ⟨n, hattempt⟩ := of_retry hres
  rw [dumpFileAttempt_short hnul env chunks dir n h] at hattempt
  split_ifs at hattempt with hdenied htaken
  · obtain rfl := Sum.inr.inj hattempt
    exact ⟨_, _, rfl, Dir.replaces_refl, nofun⟩
  · rw [← Sum.inr.inj hattempt]
    exact writeTmp_saved (append_randomPart_ne name _) (not_not.mp htaken)

end Replace

/-- The temporary name is right if and only if the name of the file has at most 234 bytes.
Then only the file that has been made is renamed or removed. For longer names, the pointer is
before the buffer. -/
theorem tmp_name_right (name : CString) (hlen : name.val.length ≤ nameMax) :
    (∀ mem random, (∃ buf tmp, tmpName mem name.val random = .ok (some (buf, tmp)) ∧
      RightTmpName name.val random buf tmp) ↔ name.val.length ≤ 234) ∧
    (name.val.length ≤ 234 → ∀ env chunks dir fuel res,
      jsonDumpFileAt env name.val chunks dir fuel = some res →
      ∃ status dir', res = .ok (status, dir') ∧ Saved dir name.val (textOf chunks) status dir') ∧
    (234 < name.val.length → ∀ env chunks dir fuel, 0 < fuel →
      jsonDumpFileAt env name.val chunks dir fuel = some (.error .outOfBounds)) := by
  refine ⟨fun mem random => tmpName_right name.property hlen mem random,
    fun h env chunks dir fuel res hres => ?_,
    fun hlong env chunks dir fuel hfuel => ?_⟩
  · exact jsonDumpFileAt_saved name.property h hres
  · exact retry_done (dumpFileAttempt_long env chunks dir 0 hlong hlen) hfuel

/-- The name `Bookmarks` -/
def bookmarks : CString := ⟨[66, 111, 111, 107, 109, 97, 114, 107, 115], by decide⟩

theorem tmp_name_right_bookmarks : ∃ buf tmp, tmpName (fun _ => 0) bookmarks.val 0 =
    .ok (some (buf, tmp)) ∧
    RightTmpName bookmarks.val 0 buf tmp :=
  ((tmp_name_right bookmarks (by decide)).1 (fun _ => 0) 0).mpr (by decide)

/-- A name of 235 bytes, which is a name that a file can have -/
theorem tmp_name_before_buffer : (List.replicate 235 (97 : UInt8)).length ≤ nameMax ∧
    (∃ buf, tmpName (fun _ => 0) (List.replicate 235 97) 0 = .ok (some (buf, -1))) ∧
    ¬∃ buf tmp, tmpName (fun _ => 0) (List.replicate 235 97) 0 = .ok (some (buf, tmp)) ∧
      RightTmpName (List.replicate 235 97) 0 buf tmp := by
  have hlength : (List.replicate 235 (97 : UInt8)).length = 235 := List.length_replicate
  have hlen : (List.replicate 235 (97 : UInt8)).length ≤ nameMax := hlength.trans_le (by decide)
  have hnul : (0 : UInt8) ∉ List.replicate 235 (97 : UInt8) :=
    fun h => nomatch List.eq_of_mem_replicate h
  obtain ⟨rest, hrun⟩ := tmpName_spec (fun _ => 0) hlen 0
  refine ⟨hlen, ⟨_, hrun.trans (by rw [hlength]; rfl)⟩, fun h => ?_⟩
  have hshort := (tmpName_right hnul hlen (fun _ => 0) 0).mp h
  omega

end BookmarkFS.Dump
