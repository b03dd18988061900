import BookmarkFS.Fsck.Handler

/-! # What the handler proposes

Each name that the backend takes exception to is followed by another one. Slashes
are replaced one by one, a name that is too long is cut once, and what cannot be
mended gives way to a name made of the identifier. A name that is taken gets a
number, so among as many proposals as there are siblings one is free.
-/
namespace BookmarkFS.Fsck
open Library Chromium

/-! ## The buffer -/

def FsckData.str (data : FsckData) : Bytes := (bufferStr data.name).val

theorem copyName_length (name : Bytes) : (copyName name).length = nameSize := by
  rw [copyName, List.length_take, List.length_append, List.length_replicate]
  omega

theorem bufferStr_eq {buf : Bytes} (hlen : buf.length = nameSize) :
    (bufferStr buf).val = buf.takeWhile (· ≠ 0) := by
  show (buf.take nameSize).takeWhile (· ≠ 0) = _
  rw [List.take_of_length_le hlen.le]

theorem bufferStr_length (buf : Bytes) : (bufferStr buf).val.length ≤ nameSize :=
  (List.takeWhile_sublist _).length_le.trans (List.length_take_le _ _)

theorem bufferStr_append {s rest : Bytes} (hs : (0 : UInt8) ∉ s)
    (hlen : (s ++ 0 :: rest).length = nameSize) :
    (bufferStr (s ++ 0 :: rest)).val = s := by
  rw [bufferStr_eq hlen, List.takeWhile_append_of_pos fun c hc => by
    simpa using fun h : c = 0 => hs (h ▸ hc)]
  simp

theorem take_of_le_str {buf : Bytes} (hlen : buf.length = nameSize) {off : ℕ}
    (hoff : off ≤ (bufferStr buf).val.length) : buf.take off = (bufferStr buf).val.take off := by
  rw [bufferStr_eq hlen] at hoff ⊢
  obtain ⟨rest, hrest⟩ := List.takeWhile_prefix (l := buf) (· ≠ 0)
  conv_lhs => rw [← hrest]
  exact List.take_append_of_le_length hoff

theorem printName_length {buf : Bytes} (hlen : buf.length = nameSize) (off : ℕ) (s : Bytes) :
    (printName buf off s).length = nameSize := by
  rw [printName]
  split
  · exact hlen
  · simp only [List.length_append, List.length_take, List.length_drop, List.length_singleton, hlen]
    omega

/-- What is printed comes after what is kept, as far as there is room. -/
theorem printName_str {buf : Bytes} (hlen : buf.length = nameSize) {off : ℕ} {s : Bytes}
    (hoff : off ≤ (bufferStr buf).val.length) (hroom : off < nameSize) (hs : (0 : UInt8) ∉ s) :
    (bufferStr (printName buf off s)).val = (bufferStr buf).val.take off ++
    s.take (nameMax - off) := by
  have hsize : nameSize - off - 1 = nameMax - off := by
    rw [nameSize]
    omega
  have hprint : printName buf off s = ((bufferStr buf).val.take off ++ s.take (nameMax - off)) ++
      0 :: buf.drop (off + (s.take (nameMax - off) ++ [0]).length) := by
    rw [printName, if_neg hroom.not_ge, hsize, take_of_le_str hlen hoff]
    simp
  have hlen' := printName_length hlen off s
  rw [hprint] at hlen' ⊢
  refine bufferStr_append (fun h => ?_) hlen'
  obtain h | h := List.mem_append.mp h
  · exact (bufferStr buf).2 (List.mem_of_mem_take h)
  · exact hs (List.mem_of_mem_take h)

theorem bufferStr_full {s : Bytes} (hs : (0 : UInt8) ∉ s) (hlen : s.length = nameSize) :
    (bufferStr s).val = s := by
  rw [bufferStr_eq hlen]
  exact List.takeWhile_eq_self_iff.mpr fun c hc => by simpa using fun h : c = 0 => hs (h ▸ hc)

theorem buffer_cases {buf : Bytes} (hlen : buf.length = nameSize) :
    ∃ s, (bufferStr buf).val = s ∧ (0 : UInt8) ∉ s ∧ (buf = s ∨ ∃ rest, buf = s ++ 0 :: rest) := by
  refine ⟨_, rfl, (bufferStr buf).2, ?_⟩
  have hbuf := List.takeWhile_append_dropWhile (p := (· ≠ 0)) (l := buf)
  rw [bufferStr_eq hlen]
  cases hrest : buf.dropWhile (· ≠ 0) with
  | nil =>
    rw [hrest, List.append_nil] at hbuf
    exact .inl hbuf.symm
  | cons c rest =>
    have hc : c = 0 := by
      have := List.head?_dropWhile_not (· ≠ 0) buf
      rw [hrest] at this
      simpa using this
    rw [hrest, hc] at hbuf
    exact .inr ⟨rest, hbuf.symm⟩

theorem set_str {buf : Bytes} (hlen : buf.length = nameSize) {i : ℕ}
    (hi : i < (bufferStr buf).val.length)
    {c : UInt8} (hc : c ≠ 0) : (bufferStr (buf.set i c)).val = (bufferStr buf).val.set i c := by
  have hlen' : (buf.set i c).length = nameSize := by rw [List.length_set, hlen]
  obtain ⟨s, hstr, hs, hbuf⟩ := buffer_cases hlen
  rw [hstr] at hi ⊢
  have hs' : (0 : UInt8) ∉ s.set i c :=
    fun h => (List.mem_or_eq_of_mem_set h).elim hs fun h => hc h.symm
  obtain rfl | ⟨rest, rfl⟩ := hbuf
  · exact bufferStr_full hs' hlen'
  · rw [List.set_append_left _ _ hi] at hlen' ⊢
    exact bufferStr_append hs' hlen'

theorem cut_str {buf : Bytes} (hlen : buf.length = nameSize)
    (hfull : (bufferStr buf).val.length = nameSize) :
    (bufferStr (buf.set (nameSize - 1) 0)).val = (bufferStr buf).val.take nameMax := by
  obtain ⟨s, hstr, hs, hbuf⟩ := buffer_cases hlen
  rw [hstr] at hfull ⊢
  obtain rfl | ⟨rest, rfl⟩ := hbuf
  · have hcut : buf.set (nameSize - 1) 0 = buf.take nameMax ++ 0 :: [] := by
      rw [List.set_eq_take_append_cons_drop, if_pos (by rw [hlen]; decide),
        List.drop_eq_nil_of_le (by rw [hlen]; decide)]
      rfl
    rw [hcut]
    exact bufferStr_append (fun h => hs (List.mem_of_mem_take h)) (by simp [hlen, nameSize])
  · rw [List.length_append, List.length_cons, hfull] at hlen
    omega

/-! ## The fixes -/

/-- The number that is put behind a name that is taken. -/
def suffix (counter : ℕ) : Bytes := 95 :: decimal counter

/-- A name with a number, cut where there is no room for both. -/
def numbered (counter : ℕ) (name : Bytes) : Bytes :=
  name.take (nameMax - (suffix counter).length) ++ suffix counter

theorem suffix_length {counter : ℕ} (h : counter < 2 ^ 32) : (suffix counter).length ≤ 11 := by
  have := decimal_length_le (k := 9) (h.trans (by decide))
  rw [suffix, List.length_cons]
  omega

theorem nul_notMem_suffix (counter : ℕ) : (0 : UInt8) ∉ suffix counter := by
  intro h
  obtain h | h := List.mem_cons.mp h
  · exact absurd h (by decide)
  · exact (of_isDigit (isDigit_of_mem_decimal h)).2.2.2 rfl

theorem fixNameDup_spec {h : HandlerCtx} (hcounter : h.counter < 2 ^ 32) (data : FsckData)
    (hlen : data.name.length = nameSize) (hstr : data.str.length ≤ nameMax) :
    ∃ name, fixNameDup h data =
    ({ h with counter := (h.counter + 1) % 2 ^ 32 }, { data with name := name }) ∧
      name.length = nameSize ∧ (bufferStr name).val = numbered h.counter data.str := by
  have hsuffix := suffix_length hcounter
  have hnul := nul_notMem_suffix h.counter
  have hlen' := printName_length hlen data.str.length (suffix h.counter)
  have hfirst : (bufferStr (printName data.name data.str.length (suffix h.counter))).val =
      data.str ++ (suffix h.counter).take (nameMax - data.str.length) := by
    refine (printName_str hlen (le_refl data.str.length) (hstr.trans_lt (Nat.lt_succ_self _))
      hnul).trans ?_
    rw [show (bufferStr data.name).val = data.str from rfl, List.take_length]
  rw [fixNameDup]
  by_cases hroom : data.str.length + (suffix h.counter).length < nameSize
  · refine ⟨_, by rw [← FsckData.str, ← suffix, if_pos hroom], hlen', hfirst.trans ?_⟩
    have hsize : nameSize = nameMax + 1 := rfl
    rw [numbered, List.take_of_length_le (by omega), List.take_of_length_le (by omega)]
  · refine ⟨_, by rw [← FsckData.str, ← suffix, if_neg hroom], printName_length hlen' _ _, ?_⟩
    have hsize : nameSize = nameMax + 1 := rfl
    have hoff : nameSize - (suffix h.counter).length - 1 = nameMax - (suffix h.counter).length := by
      omega
    have hmax : nameMax = 255 := rfl
    rw [hoff, printName_str hlen' (by rw [hfirst, List.length_append]; omega) (by omega) hnul,
      hfirst, numbered,
      List.take_append_of_le_length (by omega), List.take_of_length_le (l := suffix _) (by omega)]

theorem fallback_str {buf : Bytes} (hlen : buf.length = nameSize) {id : ℕ}
    (hid : id ≤ maxBookmarkId) :
    (bufferStr (printName buf 0 (fallbackName id))).val = fallbackName id := by
  have hdecimal : (decimal id).length ≤ 19 := decimal_length_le (k := 18) (hid.trans_lt (by decide))
  rw [printName_str hlen (Nat.zero_le _) (by decide), List.take_zero, List.nil_append,
    List.take_of_length_le]
  · simp only [fallbackName, List.length_append, List.length_cons, List.length_nil, nameMax]
    omega
  · intro h
    obtain h | h := List.mem_append.mp h
    · exact absurd h (by decide)
    · exact (of_isDigit (isDigit_of_mem_decimal h)).2.2.2 rfl

/-! ## Names -/

theorem validateFilename_eq_none {s : Bytes} : validateFilename s = none ↔
    (s ≠ [dot] ∧ s ≠ [dot, dot]) ∧ (0 < s.length ∧ s.length ≤ nameMax) ∧ slash ∉ s := by
  rw [validateFilename]
  split_ifs with hdots hlen hslash <;> simp only [false_iff, true_iff] <;> grind

/-- Neither a digit nor the character before the number makes a name invalid. -/
theorem numbered_valid {counter : ℕ} (hcounter : counter < 2 ^ 32) {s : Bytes}
    (h : validateFilename s = none) :
    validateFilename (numbered counter s) = none := by
  obtain ⟨-, -, hslash⟩ := validateFilename_eq_none.mp h
  have hsuffix := suffix_length hcounter
  have hmem : (95 : UInt8) ∈ numbered counter s := List.mem_append_right _ List.mem_cons_self
  refine validateFilename_eq_none.mpr ⟨⟨fun h => ?_, fun h => ?_⟩, ⟨?_, ?_⟩, fun h => ?_⟩
  · rw [h] at hmem
    exact absurd hmem (by decide)
  · rw [h] at hmem
    exact absurd hmem (by decide)
  · exact List.length_pos_of_mem hmem
  · rw [numbered, List.length_append, List.length_take, nameMax]
    omega
  · obtain h | h := List.mem_append.mp h
    · exact hslash (List.mem_of_mem_take h)
    · obtain h | h := List.mem_cons.mp h
      · exact absurd h (by decide)
      · exact absurd (isDigit_of_mem_decimal h) (by decide)

theorem suffix_inj {s t : Bytes} {c d : ℕ} (h : s ++ suffix c = t ++ suffix d) : c = d := by
  have hnumber : ∀ (s : Bytes) (c : ℕ), (s ++ suffix c).reverse.takeWhile (· ≠ 95) =
    (decimal c).reverse := by
    intro s c
    rw [suffix, List.append_cons, List.reverse_append, List.takeWhile_append_of_pos,
      List.reverse_append]
    · simp
    · intro x hx
      have := isDigit_of_mem_decimal (List.mem_reverse.mp hx)
      simpa using fun h : x = 95 => absurd (h ▸ this) (by decide)
  have hsame := (hnumber s c).symm.trans ((congrArg (fun l => l.reverse.takeWhile (· ≠ 95)) h).trans
    (hnumber t d))
  rw [← digitsValue_decimal c, ← digitsValue_decimal d, List.reverse_injective hsame]

theorem fallbackName_ascii (id : ℕ) : ∀ c ∈ fallbackName id, c.toNat < 0x80 := by
  intro c hc
  obtain hc | hc := List.mem_append.mp hc
  · simp only [List.mem_cons, List.not_mem_nil, or_false] at hc
    obtain rfl | rfl | rfl | rfl | rfl := hc <;> decide
  · have := isDigit_of_mem_decimal hc
    simp only [isDigit, Bool.and_eq_true, decide_eq_true_eq] at this
    omega

theorem fallbackName_valid {id : ℕ} (hid : id ≤ maxBookmarkId) :
    validateFilename (fallbackName id) = none := by
  have hdecimal : (decimal id).length ≤ 19 := decimal_length_le (k := 18) (hid.trans_lt (by decide))
  refine validateFilename_eq_none.mpr ⟨⟨by simp [fallbackName], by simp [fallbackName]⟩,
    ⟨by simp [fallbackName], ?_⟩,
    fun h => ?_⟩
  · simp only [fallbackName, List.length_append, List.length_cons, List.length_nil, nameMax]
    omega
  · obtain h | h := List.mem_append.mp h
    · exact absurd h (by decide)
    · exact absurd (isDigit_of_mem_decimal h) (by decide)

theorem numbered_ascii (counter : ℕ) {s : Bytes} (h : ∀ c ∈ s, c.toNat < 0x80) :
    ∀ c ∈ numbered counter s, c.toNat < 0x80 := by
  intro c hc
  obtain hc | hc := List.mem_append.mp hc
  · exact h c (List.mem_of_mem_take hc)
  · obtain rfl | hc := List.mem_cons.mp hc
    · decide
    · have := isDigit_of_mem_decimal hc
      simp only [isDigit, Bool.and_eq_true, decide_eq_true_eq] at this
      omega

/-! ## Proposals -/

section Proposes

variable (taken : Bytes → Prop) (parentId : ℕ)

/-- What the backend objects to in a name for the bookmark `id`. -/
inductive Objects (id : ℕ) (name : Bytes) : FsckResult → ℕ → Prop
  | invalid {why : FsckResult} {extra : ℕ} : validateFilenameFsck name = some (why, extra) →
  Objects id name why extra
  | duplicate : validateFilename name = none → taken name → Objects id name .nameDuplicate id
  | notUtf8 : validateFilename name = none → ¬taken name → validUtf8 name = false →
      Objects id name .nameInvalid 256

/-- The names that are proposed from the one in the buffer on, up to the one that is accepted, and
the handler afterwards. -/
inductive Proposes : HandlerCtx → FsckData → List Bytes → HandlerCtx → Bytes → Prop
  | accepted {h : HandlerCtx} {data : FsckData} : validateFilename data.str = none →
  ¬taken data.str →
    validUtf8 data.str = true → Proposes h data [data.str] h data.str
  | again {h h' : HandlerCtx} {data : FsckData} {why : FsckResult} {extra : ℕ} {names : List Bytes}
      {name : Bytes} :
    Objects taken data.id data.str why extra →
    Proposes (handleEntry h parentId why { data with extra := extra }).1
      (handleEntry h parentId why { data with extra := extra }).2 names h' name →
    Proposes h data (data.str :: names) h' name

/-- A handler that is at work in a directory -/
structure HandlerCtx.Ready (h : HandlerCtx) : Prop where
  parent : h.parentId = parentId
  counter : h.counter < 2 ^ 32
  translit : h.translit ≠ 0 ∧ h.translit ≠ slash

/-- One of the first `k` proposals is accepted. -/
def Within (k : ℕ) (h : HandlerCtx) (data : FsckData) : Prop :=
  ∃ names h' name, Proposes taken parentId h data names h' name ∧ names.length ≤ k ∧
    h'.Ready parentId

end Proposes

section Termination

variable {taken : Bytes → Prop} {parentId k : ℕ} {h : HandlerCtx} {data : FsckData}

theorem handleEntry_ready (hready : h.Ready parentId) (why : FsckResult) (data : FsckData) :
    handleEntry h parentId why data = fixEntry h why data := by
  rw [handleEntry, if_neg (not_not.mpr hready.parent.symm)]

theorem Within.mono {l : ℕ} (hwithin : Within taken parentId k h data) (hkl : k ≤ l) :
    Within taken parentId l h data := by
  obtain ⟨names, h', name, hproposes, hlen, hready⟩ := hwithin
  exact ⟨names, h', name, hproposes, hlen.trans hkl, hready⟩

theorem Within.again (hready : h.Ready parentId) {why : FsckResult} {extra : ℕ}
    (hobjects : Objects taken data.id data.str why extra) {h' : HandlerCtx} {data' : FsckData}
    (hfix : fixEntry h why { data with extra := extra } = (h', data'))
    (hwithin : Within taken parentId k h' data') : Within taken parentId (k + 1) h data := by
  obtain ⟨names, h'', name, hproposes, hlen, hready'⟩ := hwithin
  refine ⟨data.str :: names, h'', name, .again hobjects ?_, Nat.succ_le_succ hlen, hready'⟩
  rw [handleEntry_ready hready, hfix]
  exact hproposes

theorem Within.duplicate (hready : h.Ready parentId) (hlen : data.name.length = nameSize)
    (hvalid : validateFilename data.str = none) (htaken : taken data.str)
    (hnext : ∀ h' data', h'.Ready parentId → h'.counter = (h.counter + 1) % 2 ^ 32 →
      data'.id = data.id →
      data'.name.length = nameSize → data'.str = numbered h.counter data.str →
      Within taken parentId k h' data') :
    Within taken parentId (k + 1) h data := by
  obtain ⟨name, hfix, hlen', hstr⟩ :=
    fixNameDup_spec hready.counter { data with extra := data.id } hlen
      (validateFilename_eq_none.mp hvalid).2.1.2
  refine .again hready (.duplicate hvalid htaken) hfix (hnext _ _ ⟨hready.parent, ?_,
    hready.translit⟩ rfl rfl hlen' hstr)
  exact Nat.mod_lt _ (by decide)

theorem Within.fallback (hready : h.Ready parentId) (hlen : data.name.length = nameSize)
    (hid : data.id ≤ maxBookmarkId)
    {why : FsckResult} {extra : ℕ} (hobjects : Objects taken data.id data.str why extra)
    (hfix : fixEntry h why { data with extra := extra } =
      (h, { data with extra := extra, name := printName data.name 0 (fallbackName data.id) }))
    (hnext : ∀ data', data'.id = data.id → data'.name.length = nameSize →
      data'.str = fallbackName data.id →
      Within taken parentId k h data') : Within taken parentId (k + 1) h data :=
  .again hready hobjects hfix
    (hnext _ rfl (printName_length hlen 0 (fallbackName data.id)) (fallback_str hlen hid))

/-- The names that a duplicate gets one after the other -/
def numberedFrom : ℕ → Bytes → ℕ → Bytes
  | counter, name, 0 => numbered counter name
  | counter, name, i + 1 => numberedFrom ((counter + 1) % 2 ^ 32) (numbered counter name) i

theorem numberedFrom_suffix {counter : ℕ} (hcounter : counter < 2 ^ 32) (name : Bytes) (i : ℕ) :
    ∃ s, numberedFrom counter name i = s ++ suffix ((counter + i) % 2 ^ 32) := by
  induction i generalizing counter name with
  | zero => exact ⟨_, by rw [numberedFrom, numbered, Nat.add_zero, Nat.mod_eq_of_lt hcounter]⟩
  | succ i ih =>
    obtain ⟨s, hs⟩ := ih (Nat.mod_lt (counter + 1) (by decide)) (numbered counter name)
    refine ⟨s, ?_⟩
    rw [numberedFrom, hs, Nat.mod_add_mod]
    congr 3
    omega

theorem exists_numbered_free {T : Finset Bytes} (hT : ∀ name, taken name → name ∈ T)
    (hcard : T.card < 2 ^ 32) {counter : ℕ} (hcounter : counter < 2 ^ 32) (name : Bytes) :
    ∃ i ≤ T.card, ¬taken (numberedFrom counter name i) := by
  have hinj : Set.InjOn (numberedFrom counter name) (Finset.range (T.card + 1)) := by
    intro i hi j hj hsame
    obtain ⟨s, hs⟩ := numberedFrom_suffix hcounter name i
    obtain ⟨t, ht⟩ := numberedFrom_suffix hcounter name j
    have hmod := suffix_inj (hs.symm.trans (hsame.trans ht))
    simp only [Finset.coe_range, Set.mem_Iio] at hi hj
    omega
  have hmany : T.card < ((Finset.range (T.card + 1)).image (numberedFrom counter name)).card := by
    rw [Finset.card_image_of_injOn hinj, Finset.card_range]
    exact Nat.lt_succ_self _
  obtain ⟨x, hx, hfree⟩ := Finset.exists_mem_notMem_of_card_lt_card hmany
  obtain ⟨i, hi, rfl⟩ := Finset.mem_image.mp hx
  exact ⟨i, Nat.lt_succ_iff.mp (Finset.mem_range.mp hi), fun htaken => hfree (hT _ htaken)⟩

theorem within_free (hready : h.Ready parentId) (hlen : data.name.length = nameSize)
    (hid : data.id ≤ maxBookmarkId)
    (hvalid : validateFilename data.str = none) (hfree : ¬taken data.str)
    (hrecovers : validUtf8 data.str = true ∨ ∀ data', data'.id = data.id →
      data'.name.length = nameSize →
      data'.str = fallbackName data.id → Within taken parentId k h data') :
      Within taken parentId (k + 1) h data := by
  by_cases hutf8 : validUtf8 data.str = true
  · exact ⟨_, _, _, .accepted hvalid hfree hutf8, Nat.succ_le_succ (Nat.zero_le k), hready⟩
  · exact .fallback hready hlen hid (.notUtf8 hvalid hfree (by simpa using hutf8)) rfl
      (hrecovers.resolve_left hutf8)

/-- Names that are ASCII, or else the name made of the identifier is accepted in `k` proposals. -/
def Recovers (taken : Bytes → Prop) (parentId k id : ℕ) (name : Bytes) : Prop :=
  (∀ c ∈ name, c.toNat < 0x80) ∨ ∀ h data, h.Ready parentId → data.id = id →
    data.name.length = nameSize →
    data.str = fallbackName id → Within taken parentId k h data

theorem Recovers.within_free (hrecovers : Recovers taken parentId k data.id data.str)
    (hready : h.Ready parentId) (hlen : data.name.length = nameSize) (hid : data.id ≤ maxBookmarkId)
    (hvalid : validateFilename data.str = none) (hfree : ¬taken data.str) :
    Within taken parentId (k + 1) h data := by
  refine Fsck.within_free hready hlen hid hvalid hfree (hrecovers.imp validUtf8_of_ascii ?_)
  exact fun hfall data' hid' hlen' hstr' => hfall h data' hready hid' hlen' hstr'

/-- By induction on the number of names until one is free -/
theorem within_numbered (i : ℕ) {counter : ℕ} {name : Bytes}
    (hfree : ¬taken (numberedFrom counter name i)) (hcounter : counter < 2 ^ 32)
    (hvalid : validateFilename name = none) {h : HandlerCtx} {data : FsckData}
    (hid : data.id ≤ maxBookmarkId) (hrecovers : Recovers taken parentId k data.id name)
    (hready : h.Ready parentId) (hnext : h.counter = (counter + 1) % 2 ^ 32)
    (hlen : data.name.length = nameSize) (hstr : data.str = numbered counter name) :
    Within taken parentId (k + i + 1) h data := by
  induction i generalizing counter name h data with
  | zero =>
    refine Recovers.within_free ?_ hready hlen hid (hstr ▸ numbered_valid hcounter hvalid)
      (hstr ▸ hfree)
    rw [hstr]
    exact hrecovers.imp_left (numbered_ascii counter)
  | succ i ih =>
    have hvalid' := numbered_valid hcounter hvalid
    have hrecovers' : Recovers taken parentId k data.id (numbered counter name) :=
      hrecovers.imp_left (numbered_ascii counter)
    by_cases htaken : taken data.str
    · refine .duplicate hready hlen (hstr ▸ hvalid')
        htaken fun h' data' hready' hcounter' hid' hlen' hstr' => ?_
      rw [hstr, hnext] at hstr'
      exact ih hfree (Nat.mod_lt _ (by decide)) hvalid' (hid' ▸ hid) (hid' ▸ hrecovers') hready'
        (hnext ▸ hcounter')
        hlen' hstr'
    · have hrecovers' : Recovers taken parentId k data.id data.str := hstr ▸ hrecovers'
      exact (hrecovers'.within_free hready hlen hid (hstr ▸ hvalid') htaken).mono (by omega)

/-- What there is to be mended in the string of the buffer: its slashes, and that it has no end. -/
def toMend (s : Bytes) : ℕ := s.count slash + if s.length = nameSize then 1 else 0

theorem toMend_take {s : Bytes} (h : s.length = nameSize) : toMend (s.take nameMax) < toMend s := by
  have hcount := (List.take_sublist nameMax s).count_le slash
  have hne : ¬(s.take nameMax).length = nameSize := by
    rw [List.length_take, h]
    decide
  rw [toMend, toMend, if_pos h, if_neg hne]
  omega

theorem toMend_set {s : Bytes} (h : slash ∈ s) {c : UInt8} (hc : c ≠ slash) :
    toMend (s.set (s.idxOf slash) c) < toMend s := by
  have hidx := List.idxOf_lt_length_of_mem h
  have hpos : 0 < s.count slash := List.count_pos_iff.mpr h
  rw [toMend, toMend, List.length_set, List.count_set hidx, List.getElem_idxOf]
  simp only [beq_self_eq_true, if_true, beq_iff_eq, if_neg hc]
  omega

theorem validateFilename_badLen {s : Bytes} (h : validateFilename s = some .badLen) :
    s.length = 0 ∨ nameMax < s.length := by
  rw [validateFilename] at h
  by_contra hlen
  rw [if_neg hlen] at h
  split_ifs at h <;> cases h

theorem validateFilename_badChar {s : Bytes} (h : validateFilename s = some .badChar) :
    slash ∈ s := by
  rw [validateFilename] at h
  by_contra hslash
  rw [if_neg hslash] at h
  split_ifs at h <;> cases h

section Siblings

variable {T : Finset Bytes} (hT : ∀ name, taken name → name ∈ T) (hcard : T.card < 2 ^ 32)

include hT hcard

theorem within_valid (hready : h.Ready parentId) (hlen : data.name.length = nameSize)
    (hid : data.id ≤ maxBookmarkId) (hvalid : validateFilename data.str = none)
    (hrecovers : Recovers taken parentId k data.id data.str) :
    Within taken parentId (k + T.card + 2) h data := by
  by_cases htaken : taken data.str
  · obtain ⟨i, hi, hfree⟩ := exists_numbered_free hT hcard hready.counter data.str
    refine .duplicate hready hlen hvalid htaken fun h' data' hready' hcounter' hid' hlen' hstr' =>
      ?_
    exact (within_numbered i hfree hready.counter hvalid (hid' ▸ hid) (hid' ▸ hrecovers)
      hready' hcounter' hlen'
      hstr').mono (by omega)
  · exact (hrecovers.within_free hready hlen hid hvalid htaken).mono (by omega)

theorem within_fallback (hready : h.Ready parentId) (hlen : data.name.length = nameSize)
    (hid : data.id ≤ maxBookmarkId)
    (hstr : data.str = fallbackName data.id) : Within taken parentId (T.card + 2) h data := by
  refine (within_valid (k := 0) hT hcard hready hlen hid (hstr ▸ fallbackName_valid hid)
    (.inl ?_)).mono (by omega)
  rw [hstr]
  exact fallbackName_ascii data.id

/-- By induction on what there is to be mended -/
theorem within_buffer (hready : h.Ready parentId) (hlen : data.name.length = nameSize)
    (hid : data.id ≤ maxBookmarkId) :
    Within taken parentId (toMend data.str + 2 * T.card + 5) h data := by
  generalize hmend : toMend data.str = m
  induction m using Nat.strong_induction_on generalizing data with
  | _ m ih =>
    have hfallback : ∀ {why extra}, Objects taken data.id data.str why extra →
        fixEntry h why { data with extra := extra } =
          (h, { data with extra := extra, name := printName data.name 0 (fallbackName data.id) }) →
        Within taken parentId (m + 2 * T.card + 5) h data := fun hobjects hfix =>
      (Within.fallback hready hlen hid hobjects hfix fun data' hid' hlen' hstr' =>
        within_fallback hT hcard hready hlen' (hid' ▸ hid) (hid' ▸ hstr')).mono (by omega)
    cases hvalid : validateFilename data.str with
    | none =>
      refine (within_valid hT hcard hready hlen hid hvalid (.inr ?_)).mono
        (show T.card + 2 + T.card + 2 ≤ m + 2 * T.card + 5 by omega)
      exact fun h' data' hready' hid' hlen' hstr' =>
        within_fallback hT hcard hready' hlen' (hid' ▸ hid) (hid' ▸ hstr')
    | some err =>
    cases err with
    | dotDot => exact hfallback (.invalid (by rw [validateFilenameFsck, hvalid]; rfl)) rfl
    | badLen =>
      have hobjects : Objects taken data.id data.str .nameBadLen data.str.length :=
        .invalid (by rw [validateFilenameFsck, hvalid]; rfl)
      by_cases hzero : 0 < data.str.length
      · -- the name fills the buffer, and is cut
        have hfull : data.str.length = nameSize :=
          le_antisymm (bufferStr_length _) ((validateFilename_badLen hvalid).resolve_left hzero.ne')
        have hcut : FsckData.str ⟨data.id, data.str.length, data.name.set (nameSize - 1) 0⟩ =
          data.str.take nameMax :=
          cut_str hlen hfull
        have hless := hmend ▸ hcut ▸ toMend_take hfull
        exact (Within.again hready hobjects (if_pos hzero)
          (ih _ hless (by simpa using hlen) hid rfl)).mono (by omega)
      · exact hfallback hobjects (if_neg hzero)
    | badChar =>
      have hslash := validateFilename_badChar hvalid
      have hidx := List.idxOf_lt_length_of_mem hslash
      have hset : FsckData.str ⟨data.id, data.str.idxOf slash,
        data.name.set (data.str.idxOf slash) h.translit⟩ =
          data.str.set (data.str.idxOf slash) h.translit := set_str hlen hidx hready.translit.1
      have hfix : fixEntry h .nameBadChar { data with extra := data.str.idxOf slash } =
          (h, ⟨data.id, data.str.idxOf slash, data.name.set (data.str.idxOf slash)
          h.translit⟩) := by
        rw [fixEntry]
        simp only [if_neg (hidx.trans_le (bufferStr_length _)).not_ge]
      have hless := hmend ▸ hset ▸ toMend_set hslash hready.translit.2
      exact (Within.again hready (.invalid (by rw [validateFilenameFsck, hvalid]; rfl)) hfix
        (ih _ hless (by simpa using hlen) hid rfl)).mono (by omega)

end Siblings

theorem toMend_le (data : FsckData) : toMend data.str ≤ nameSize + 1 := by
  have hcount := (List.count_le_length (a := slash) (l := data.str)).trans
    (bufferStr_length data.name)
  rw [toMend]
  split <;> omega

/-- What a handler needs to start with: a number of 32 bits, and a character that may be
in a filename. -/
structure HandlerCtx.Fit (h : HandlerCtx) : Prop where
  counter : h.counter < 2 ^ 32
  translit : h.translit ≠ 0 ∧ h.translit ≠ slash

theorem HandlerCtx.Ready.fit (hready : h.Ready parentId) : h.Fit :=
    ⟨hready.counter, hready.translit⟩

theorem fixEntry_kept (hfit : h.Fit) (hparent : h.parentId = parentId) (why : FsckResult)
    (hlen : data.name.length = nameSize) :
    (fixEntry h why data).1.Ready parentId ∧ (fixEntry h why data).2.id = data.id ∧
      (fixEntry h why data).2.name.length = nameSize := by
  have hready : h.Ready parentId := ⟨hparent, hfit.counter, hfit.translit⟩
  cases why with
  | nameBadChar => exact ⟨hready, rfl, (List.length_set ..).trans hlen⟩
  | nameDuplicate =>
    refine ⟨⟨hparent, Nat.mod_lt _ (by decide), hfit.translit⟩, rfl, ?_⟩
    simp only [fixEntry, fixNameDup]
    split
    · exact printName_length hlen _ _
    · exact printName_length (printName_length hlen _ _) _ _
  | nameBadLen =>
    simp only [fixEntry]
    split
    · exact ⟨hready, rfl, (List.length_set ..).trans hlen⟩
    · exact ⟨hready, rfl, printName_length hlen 0 (fallbackName data.id)⟩
  | nameDotDot => exact ⟨hready, rfl, printName_length hlen 0 (fallbackName data.id)⟩
  | nameInvalid => exact ⟨hready, rfl, printName_length hlen 0 (fallbackName data.id)⟩

theorem handleEntry_kept (hfit : h.Fit) (parentId : ℕ) (why : FsckResult)
    (hlen : data.name.length = nameSize) :
    (handleEntry h parentId why data).1.Ready parentId ∧
    (handleEntry h parentId why data).2.id = data.id ∧
      (handleEntry h parentId why data).2.name.length = nameSize := by
  rw [handleEntry]
  split
  · exact fixEntry_kept (h := ⟨parentId, 0, h.translit⟩) ⟨Nat.two_pow_pos 32,
      hfit.translit⟩ rfl why hlen
  next hparent => exact fixEntry_kept hfit (not_not.mp hparent).symm why hlen

theorem fixEntry_id (h : HandlerCtx) (why : FsckResult) (data : FsckData) :
    (fixEntry h why data).2.id = data.id := by
  cases why with
  | nameBadLen =>
    rw [fixEntry]
    split <;> rfl
  | nameBadChar | nameDuplicate | nameDotDot | nameInvalid => rfl

theorem handleEntry_id (h : HandlerCtx) (parentId : ℕ) (why : FsckResult) (data : FsckData) :
    (handleEntry h parentId why data).2.id = data.id := fixEntry_id _ why data

variable (parentId data) in
theorem within_handled {T : Finset Bytes} (hT : ∀ name, taken name → name ∈ T)
    (hcard : T.card < 2 ^ 32) (hfit : h.Fit)
    (why : FsckResult) (hlen : data.name.length = nameSize) (hid : data.id ≤ maxBookmarkId) :
    Within taken parentId (2 * T.card + (nameSize + 6)) (handleEntry h parentId why data).1
      (handleEntry h parentId why data).2 := by
  obtain ⟨hready, hid', hlen'⟩ := handleEntry_kept hfit parentId why hlen
  refine (within_buffer hT hcard hready hlen' (hid' ▸ hid)).mono ?_
  have := toMend_le (handleEntry h parentId why data).2
  omega

end Termination

section Determined

variable {taken taken' : Bytes → Prop} {parentId : ℕ} {h h' h'' : HandlerCtx} {data : FsckData} {names names' : List Bytes}
  {name name' : Bytes}

theorem Objects.not_accepted {id extra : ℕ} {why : FsckResult} (h : Objects taken id name why extra)
    (hvalid : validateFilename name = none) (hfree : ¬taken name) : validUtf8 name = false := by
  cases h with
  | invalid h => simp [validateFilenameFsck, hvalid] at h
  | duplicate _ htaken => exact absurd htaken hfree
  | notUtf8 _ _ hutf8 => exact hutf8

theorem Objects.unique {id extra extra' : ℕ} {why why' : FsckResult} (h : Objects taken id name why extra)
    (h' : Objects taken id name why' extra') : why = why' ∧ extra = extra' := by
  cases h with
  | invalid h =>
    cases h' with
    | invalid h' => exact Prod.mk.inj (Option.some.inj (h.symm.trans h'))
    | duplicate hvalid | notUtf8 hvalid => simp [validateFilenameFsck, hvalid] at h
  | duplicate hvalid htaken =>
    cases h' with
    | invalid h' => simp [validateFilenameFsck, hvalid] at h'
    | duplicate => exact ⟨rfl, rfl⟩
    | notUtf8 _ hfree => exact absurd htaken hfree
  | notUtf8 hvalid hfree =>
    cases h' with
    | invalid h' => simp [validateFilenameFsck, hvalid] at h'
    | duplicate _ htaken => exact absurd htaken hfree
    | notUtf8 => exact ⟨rfl, rfl⟩

theorem Proposes.unique (hproposes : Proposes taken parentId h data names h' name)
    (hproposes' : Proposes taken parentId h data names' h'' name') : h' = h'' ∧ name = name' := by
  induction hproposes generalizing names' with
  | accepted hvalid hfree hutf8 =>
    cases hproposes' with
    | accepted => exact ⟨rfl, rfl⟩
    | again hobjects => exact absurd (hobjects.not_accepted hvalid hfree) (by simp [hutf8])
  | again hobjects _ ih =>
    cases hproposes' with
    | accepted hvalid hfree hutf8 => exact absurd (hobjects.not_accepted hvalid hfree) (by simp [hutf8])
    | again hobjects' hrest =>
      obtain ⟨rfl, rfl⟩ := hobjects.unique hobjects'
      exact ih hrest

theorem Objects.congr {id extra : ℕ} {why : FsckResult} (h : Objects taken id name why extra)
    (hsame : validateFilename name = none → (taken' name ↔ taken name)) :
    Objects taken' id name why extra := by
  cases h with
  | invalid h => exact .invalid h
  | duplicate hvalid htaken => exact .duplicate hvalid ((hsame hvalid).mpr htaken)
  | notUtf8 hvalid hfree hutf8 => exact .notUtf8 hvalid (fun h => hfree ((hsame hvalid).mp h)) hutf8

theorem Proposes.congr (hproposes : Proposes taken parentId h data names h' name)
    (hsame : ∀ n ∈ names, validateFilename n = none → (taken' n ↔ taken n)) :
    Proposes taken' parentId h data names h' name := by
  induction hproposes with
  | accepted hvalid hfree hutf8 =>
    exact .accepted hvalid (fun h => hfree ((hsame _ List.mem_cons_self hvalid).mp h)) hutf8
  | again hobjects _ ih =>
    exact .again (hobjects.congr (hsame _ List.mem_cons_self))
      (ih fun n hn => hsame n (List.mem_cons_of_mem _ hn))

theorem Proposes.name_mem (hproposes : Proposes taken parentId h data names h' name) :
    name ∈ names := by
  induction hproposes with
  | accepted => exact List.mem_cons_self
  | again _ _ ih => exact List.mem_cons_of_mem _ ih

theorem Proposes.good (hproposes : Proposes taken parentId h data names h' name) :
    validateFilename name = none ∧ ¬taken name ∧ validUtf8 name = true := by
  induction hproposes with
  | accepted hvalid hfree hutf8 => exact ⟨hvalid, hfree, hutf8⟩
  | again _ _ ih => exact ih

theorem Proposes.exists_str (hproposes : Proposes taken parentId h data names h' name) :
    ∃ str : CString, str.val = name := by
  induction hproposes with
  | @accepted h data => exact ⟨bufferStr data.name, rfl⟩
  | again _ _ ih => exact ih

theorem Proposes.extra {id extra : ℕ} {buf : Bytes}
    (hproposes : Proposes taken parentId h ⟨id, extra, buf⟩ names h' name)
    (extra' : ℕ) : Proposes taken parentId h ⟨id, extra', buf⟩ names h' name := by
  generalize hdata : (⟨id, extra, buf⟩ : FsckData) = data at hproposes
  cases hproposes with
  | accepted hvalid hfree hutf8 =>
    subst hdata
    exact .accepted hvalid hfree hutf8
  | again hobjects hrest =>
    subst hdata
    exact .again hobjects hrest

/-- What the backend says about a duplicate makes no difference to the handler. -/
theorem Proposes.of_report {report report' : FsckReport} (hid : report'.id = report.id)
    (hresult : report'.result = report.result) (hname : report'.name = report.name)
    (hextra : report.result ≠ .nameDuplicate → report'.extra = report.extra)
    (hproposes : Proposes taken parentId
      (handleEntry h parentId report.result ⟨report.id, report.extra, copyName report.name⟩).1
      (handleEntry h parentId report.result ⟨report.id, report.extra, copyName report.name⟩).2
      names h' name) :
    Proposes taken parentId
      (handleEntry h parentId report'.result ⟨report'.id, report'.extra, copyName report'.name⟩).1
      (handleEntry h parentId report'.result ⟨report'.id, report'.extra, copyName report'.name⟩).2
      names h' name := by
  by_cases hdup : report.result = .nameDuplicate
  · rw [hid, hresult, hname]
    rw [hdup] at hproposes ⊢
    exact hproposes.extra report'.extra
  · rw [hid, hresult, hname, hextra hdup]
    exact hproposes

end Determined

/-- What is proposed for all bookmarks that are reported on, with their identifiers. A name is
taken once it has been accepted. -/
inductive ProposesAll (parentId : ℕ) : HandlerCtx → (Bytes → Prop) → List FsckReport →
    List (ℕ × Bytes) → Prop
  | nil {h : HandlerCtx} {taken : Bytes → Prop} : ProposesAll parentId h taken [] []
  | cons {h h' : HandlerCtx} {taken : Bytes → Prop} {report : FsckReport} {rest : List FsckReport}
      {names : List Bytes}
    {name : Bytes} {proposals : List (ℕ × Bytes)} :
    Proposes taken parentId
      (handleEntry h parentId report.result ⟨report.id, report.extra, copyName report.name⟩).1
      (handleEntry h parentId report.result ⟨report.id, report.extra, copyName report.name⟩).2
        names h' name →
    ProposesAll parentId h' (fun n => taken n ∨ n = name) rest proposals →
    ProposesAll parentId h taken (report :: rest) (names.map (report.id, ·) ++ proposals)

/-- There is always a name to propose, as long as there are fewer than 2^32 of them in
the directory. -/
theorem exists_proposesAll {parentId : ℕ} {h : HandlerCtx} {taken : Bytes → Prop} {T : Finset Bytes}
    {reports : List FsckReport} (hT : ∀ name, taken name → name ∈ T)
    (hfew : T.card + reports.length < 2 ^ 32)
    (hfit : h.Fit) (hids : ∀ r ∈ reports, r.id ≤ maxBookmarkId) :
    ∃ proposals, ProposesAll parentId h taken reports proposals := by
  induction reports generalizing h taken T with
  | nil => exact ⟨[], .nil⟩
  | cons report reports ih =>
    rw [List.length_cons] at hfew
    obtain ⟨names, h', name, hproposes, -, hready⟩ := within_handled parentId
      ⟨report.id, report.extra, copyName report.name⟩ hT (lt_of_le_of_lt (Nat.le_add_right _ _) hfew)
      hfit report.result (copyName_length _) (hids report List.mem_cons_self)
    have hcard : (insert name T).card ≤ T.card + 1 := Finset.card_insert_le name T
    have hT' : ∀ n, taken n ∨ n = name → n ∈ insert name T := fun n hn =>
      Finset.mem_insert.mpr (hn.symm.imp id (hT n))
    obtain ⟨proposals, hall⟩ :=
      ih hT' (by omega) hready.fit fun r hr => hids r (List.mem_cons_of_mem _ hr)
    exact ⟨_, .cons hproposes hall⟩

end BookmarkFS.Fsck
