import BookmarkFS.Firefox.Places
import BookmarkFS.Library.Alphabet

/-! # The hash of a URL

Firefox looks a URL up by a hash of 48 bits, 16 of which are of what comes before the
colon. The backend computes both parts in one pass, from characters where Firefox takes
bytes: where characters are signed, a byte from 128 on is extended with ones.
-/
namespace BookmarkFS.Firefox
open Library

/-- `ROTL32(v, 5)` -/
def rotl32 (v : UInt32) : UInt32 := v <<< 5 ||| v >>> (32 - 5)

/-- What the hash becomes with another character -/
def hashStep (hash ch : UInt32) : UInt32 := (rotl32 hash ^^^ ch) * 0x9e3779b9

/-! ## The code -/

/-- `uint32_t ch = *url`; plain characters are signed, or not. -/
def charValue (signed : Bool) (c : UInt8) : UInt32 :=
  if signed then c.toInt8.toInt32.toUInt32 else c.toUInt32

/-- `UINT64_MAX`, which stands for a prefix that is not known -/
def noPrefix : UInt64 := 0xffffffffffffffff

/-- `prefix_hash` and `str_hash` in the loop of `mozplace_url_hash()` -/
structure UrlHashes where
  prefixHash : UInt64
  strHash : UInt32

/-- The body of the loop -/
def UrlHashes.next (signed : Bool) (s : UrlHashes) (c : UInt8) : UrlHashes :=
  let ch := charValue signed c
  { prefixHash := if s.prefixHash = noPrefix ∧ ch = 58 then s.strHash.toUInt64 else s.prefixHash
    strHash := hashStep s.strHash ch }

/-- `MAX_URL_HASH_LEN` -/
def maxUrlHashLen : ℕ := 1500

/-- `mozplace_url_hash()` on a platform with signed characters, or with unsigned ones -/
def mozplaceUrlHashOn (signed : Bool) (url : Bytes) : Int64 :=
  let urlLen := if url.length > maxUrlHashLen then maxUrlHashLen else url.length
  let s := (url.take urlLen).foldl (UrlHashes.next signed) ⟨noPrefix, 0⟩
  ((s.prefixHash &&& 0xffff) <<< 32 ||| s.strHash.toUInt64).toInt64

/-! ## What Firefox computes -/

def hashBytes (s : Bytes) : UInt32 := s.foldl (fun hash c => hashStep hash c.toUInt32) 0

/-- `HashURL()` -/
def firefoxUrlHash (url : Bytes) : ℤ :=
  ((hashBytes (url.takeWhile (· ≠ colon))).toNat % 2 ^ 16 * 2 ^ 32 +
    (hashBytes (url.take 1500)).toNat : ℕ)

/-! ## One pass -/

def hashChars (signed : Bool) (hash : UInt32) (s : Bytes) : UInt32 :=
  s.foldl (fun hash c => hashStep hash (charValue signed c)) hash

theorem hashChars_cons (signed : Bool) (hash : UInt32) (c : UInt8) (s : Bytes) :
    hashChars signed hash (c :: s) = hashChars signed (hashStep hash (charValue signed c)) s := rfl

theorem hashChars_append (signed : Bool) (hash : UInt32) (s t : Bytes) :
    hashChars signed hash (s ++ t) = hashChars signed (hashChars signed hash s) t :=
    List.foldl_append

theorem charValue_eq_colon (signed : Bool) : ∀ c, charValue signed c = 58 ↔ c = colon := by
  cases signed <;> exact forall_byte (by decide +kernel)

theorem charValue_signed : ∀ c, charValue true c = c.toUInt32 ↔ c < 128 :=
    forall_byte (by decide +kernel)

theorem toUInt64_ne_noPrefix (hash : UInt32) : hash.toUInt64 ≠ noPrefix := by
  intro h
  have := congrArg UInt64.toNat h
  rw [UInt32.toNat_toUInt64] at this
  have hlt := hash.toNat_lt
  rw [this] at hlt
  exact absurd hlt (by decide)

theorem foldl_known (signed : Bool) (url : Bytes) {prefixHash : UInt64} (h : prefixHash ≠ noPrefix)
    (hash : UInt32) : url.foldl (UrlHashes.next signed) ⟨prefixHash, hash⟩ =
    ⟨prefixHash, hashChars signed hash url⟩ := by
  induction url generalizing hash with
  | nil => rfl
  | cons c url ih =>
    rw [List.foldl_cons, UrlHashes.next]
    dsimp only
    rw [if_neg fun hp => h hp.1, ih]
    rfl

/-- The sentinel is replaced at the first colon, by the hash of what comes before. -/
theorem foldl_colon (signed : Bool) {url : Bytes} (h : colon ∈ url) (hash : UInt32) :
    url.foldl (UrlHashes.next signed) ⟨noPrefix, hash⟩ =
      ⟨(hashChars signed hash (url.takeWhile (· ≠ colon))).toUInt64,
        hashChars signed hash url⟩ := by
  induction url generalizing hash with
  | nil => cases h
  | cons c url ih =>
    rw [List.foldl_cons, UrlHashes.next]
    dsimp only
    by_cases hc : c = colon
    · rw [if_pos ⟨rfl, (charValue_eq_colon signed c).mpr hc⟩,
        foldl_known _ _ (toUInt64_ne_noPrefix hash),
        List.takeWhile_cons_of_neg (by simpa using hc)]
      rfl
    · rw [if_neg fun hp => hc ((charValue_eq_colon signed c).mp hp.2),
        ih ((List.mem_cons.mp h).resolve_left (Ne.symm hc)),
        List.takeWhile_cons_of_pos (by simpa using hc)]
      rfl

theorem takeWhile_take {url : Bytes} (h : colon ∈ url.take 1500) :
    (url.take 1500).takeWhile (· ≠ colon) = url.takeWhile (· ≠ colon) := by
  have hlt : ((url.take 1500).takeWhile (· ≠ colon)).length ≠ (url.take 1500).length :=
    fun hlen => by
    have hall := List.takeWhile_eq_self_iff.mp ((List.takeWhile_prefix _).eq_of_length hlen)
    simpa using hall colon h
  conv_rhs => rw [← List.take_append_drop 1500 url, List.takeWhile_append, if_neg hlt]

/-- The two parts do not overlap. -/
theorem packed_toInt (prefixHash : UInt64) (strHash : UInt32) :
    ((prefixHash &&& 0xffff) <<< 32 ||| strHash.toUInt64).toInt64.toInt =
      (prefixHash.toNat % 2 ^ 16 * 2 ^ 32 + strHash.toNat : ℕ) := by
  have hmask : (prefixHash &&& 0xffff).toNat = prefixHash.toNat % 2 ^ 16 := by
    rw [UInt64.toNat_and]
    exact Nat.and_two_pow_sub_one_eq_mod _ 16
  have hnat : ((prefixHash &&& 0xffff) <<< 32 ||| strHash.toUInt64).toNat =
      prefixHash.toNat % 2 ^ 16 * 2 ^ 32 + strHash.toNat := by
    rw [UInt64.toNat_or, UInt64.toNat_shiftLeft, hmask, UInt32.toNat_toUInt64, Nat.mod_eq_of_lt]
    · exact shiftLeft_or strHash.toNat_lt
    · show (prefixHash.toNat % 2 ^ 16) <<< 32 < 2 ^ 64
      rw [Nat.shiftLeft_eq]
      omega
  have hlt := strHash.toNat_lt
  rw [← Int64.toInt_toBitVec, UInt64.toBitVec_toInt64, BitVec.toInt_eq_toNat_of_lt,
    UInt64.toNat_toBitVec, hnat]
  rw [UInt64.toNat_toBitVec, hnat]
  omega

theorem take_urlLen (url : Bytes) :
    url.take (if url.length > maxUrlHashLen then maxUrlHashLen else url.length) =
    url.take 1500 := by
  split_ifs with h
  · rfl
  · rw [List.take_length, List.take_of_length_le (show url.length ≤ 1500 from not_lt.mp h)]

theorem mozplaceUrlHashOn_colon (signed : Bool) {url : Bytes} (h : colon ∈ url.take 1500) :
    (mozplaceUrlHashOn signed url).toInt =
    ((hashChars signed 0 (url.takeWhile (· ≠ colon))).toNat % 2 ^ 16 * 2 ^ 32 +
      (hashChars signed 0 (url.take 1500)).toNat : ℕ) := by
  rw [mozplaceUrlHashOn, take_urlLen, foldl_colon signed h, takeWhile_take h]
  dsimp only
  rw [packed_toInt, UInt32.toNat_toUInt64]

/-! ## The other definition for signed characters -/

def sentinel : Option UInt32 → UInt64
  | none => noPrefix
  | some hash => hash.toUInt64

theorem sentinel_eq_noPrefix {before : Option UInt32} : sentinel before = noPrefix ↔
    before = none := by
  cases before with
  | none => simp [sentinel]
  | some hash => simp [sentinel, toUInt64_ne_noPrefix]

theorem urlHashLoop_cons (c : UInt8) (url : Bytes) : urlHashLoop (c :: url) = fun before hash =>
    urlHashLoop url (if before = none ∧ c = colon then some hash else before)
      ((((hash <<< 5) ||| (hash >>> 27)) ^^^ hashedChar c) * 0x9e3779b9) := rfl

theorem foldl_urlHashLoop (url : Bytes) (before : Option UInt32) (hash : UInt32) :
    url.foldl (UrlHashes.next true) ⟨sentinel before, hash⟩ =
      ⟨sentinel (urlHashLoop url before hash).1, (urlHashLoop url before hash).2⟩ := by
  induction url generalizing before hash with
  | nil => rfl
  | cons c url ih =>
    have hchar : hashedChar c = charValue true c := by
      revert c
      exact forall_byte (by decide +kernel)
    have hnext : UrlHashes.next true ⟨sentinel before, hash⟩ c =
        ⟨sentinel (if before = none ∧ c = colon then some hash else before),
        hashStep hash (charValue true c)⟩ := by
      simp only [UrlHashes.next, sentinel_eq_noPrefix, charValue_eq_colon]
      split_ifs <;> rfl
    rw [List.foldl_cons, urlHashLoop_cons, hchar, hnext, ih]
    rfl

theorem mozplaceUrlHashOn_signed (url : Bytes) : (mozplaceUrlHashOn true url).toInt =
    mozplaceUrlHash url := by
  rw [mozplaceUrlHashOn, take_urlLen, show noPrefix = sentinel none from rfl,
    foldl_urlHashLoop, packed_toInt,
    mozplaceUrlHash]
  obtain ⟨before, hash⟩ := urlHashLoop (url.take 1500) none 0
  have hbefore : (sentinel before).toNat % 2 ^ 16 = (before.getD 0xffffffff).toNat % 2 ^ 16 := by
    cases before with
    | none => decide +kernel
    | some hash => rw [sentinel, UInt32.toNat_toUInt64, Option.getD_some]
  dsimp only
  rw [hbefore]

/-! ## Bytes that are extended -/

theorem rotl32_toNat (v : UInt32) : (rotl32 v).toNat = v.toNat % 2 ^ 27 * 2 ^ 5 +
    v.toNat / 2 ^ 27 := by
  have hv := v.toNat_lt
  have hleft : (v <<< 5).toNat = (v.toNat % 2 ^ 27) <<< 5 := by
    rw [UInt32.toNat_shiftLeft]
    show v.toNat <<< 5 % 2 ^ 32 = _
    rw [Nat.shiftLeft_eq, Nat.shiftLeft_eq]
    omega
  have hright : (v >>> (32 - 5)).toNat = v.toNat / 2 ^ 27 := by
    rw [UInt32.toNat_shiftRight]
    exact Nat.shiftRight_eq_div_pow _ _
  rw [rotl32, UInt32.toNat_or, hleft, hright, shiftLeft_or (by omega)]

theorem rotl32_inj {v v' : UInt32} (h : rotl32 v = rotl32 v') : v = v' := by
  have h := congrArg UInt32.toNat h
  rw [rotl32_toNat, rotl32_toNat] at h
  have hsmall : ∀ v : UInt32, v.toNat / 2 ^ 27 < 2 ^ 5 := fun v => Nat.div_lt_of_lt_mul v.toNat_lt
  have hupper : v.toNat / 2 ^ 27 = v'.toNat / 2 ^ 27 := by
    have hmod := congrArg (· % 2 ^ 5) h
    simpa only [Nat.mul_add_mod', Nat.mod_eq_of_lt (hsmall _)] using hmod
  have hlower : v.toNat % 2 ^ 27 = v'.toNat % 2 ^ 27 :=
    Nat.eq_of_mul_eq_mul_right (by decide) (Nat.add_right_cancel (hupper ▸ h))
  rw [← UInt32.toNat_inj, ← Nat.div_add_mod v.toNat (2 ^ 27), hupper, hlower, Nat.div_add_mod]

theorem mul_factor_inj {v v' : UInt32} (h : v * 0x9e3779b9 = v' * 0x9e3779b9) : v = v' := by
  have hinv : (0x9e3779b9 : UInt32) * 0x144cbc89 = 1 := by decide
  have h := congrArg (· * 0x144cbc89) h
  simpa only [UInt32.mul_assoc, hinv, UInt32.mul_one] using h

theorem hashStep_inj_left {hash hash' ch : UInt32} (h : hashStep hash ch = hashStep hash' ch) :
    hash = hash' :=
  rotl32_inj ((UInt32.xor_left_inj ch).mp (mul_factor_inj h))

theorem hashStep_inj_right {hash ch ch' : UInt32} (h : hashStep hash ch = hashStep hash ch') :
    ch = ch' :=
  (UInt32.xor_right_inj _).mp (mul_factor_inj h)

theorem hashChars_inj {signed : Bool} {s : Bytes} {hash hash' : UInt32}
    (h : hashChars signed hash s = hashChars signed hash' s) : hash = hash' := by
  induction s generalizing hash hash' with
  | nil => exact h
  | cons c s ih =>
    rw [hashChars_cons, hashChars_cons] at h
    exact hashStep_inj_left (ih h)

theorem hashChars_ascii {s : Bytes} (h : ∀ c ∈ s, c < 128) (hash : UInt32) :
    hashChars true hash s = hashChars false hash s := by
  induction s generalizing hash with
  | nil => rw [hashChars, hashChars, List.foldl_nil, List.foldl_nil]
  | cons c s ih =>
    obtain ⟨hc, hs⟩ := List.forall_mem_cons.mp h
    rw [hashChars_cons, hashChars_cons, (charValue_signed c).mpr hc, ih hs]
    rfl

theorem hashChars_ne {s t : Bytes} {c : UInt8} (hs : ∀ c ∈ s, c < 128) (hc : ¬c < 128)
    (ht : ∀ c ∈ t, c < 128)
    (hash : UInt32) : hashChars true hash (s ++ c :: t) ≠ hashChars false hash (s ++ c :: t) := by
  intro h
  rw [hashChars_append, hashChars_append, hashChars_cons, hashChars_cons, hashChars_ascii hs,
    hashChars_ascii ht] at h
  exact hc ((charValue_signed c).mp (hashStep_inj_right (hashChars_inj h)))

theorem firefoxUrlHash_eq (url : Bytes) :
    firefoxUrlHash url = ((hashChars false 0 (url.takeWhile (· ≠ colon))).toNat % 2 ^ 16 * 2 ^ 32 +
      (hashChars false 0 (url.take 1500)).toNat : ℕ) := rfl

theorem takeWhile_subset {url : Bytes} (h : colon ∈ url.take 1500) :
    ∀ c ∈ url.takeWhile (· ≠ colon), c ∈ url.take 1500 := by
  rw [← takeWhile_take h]
  exact fun c hc => (List.takeWhile_prefix _).subset hc

theorem urlHash_ascii {signed : Bool} {url : Bytes} (hcolon : colon ∈ url.take 1500)
    (h : signed = false ∨ ∀ c ∈ url.take 1500, c < 128) :
    (mozplaceUrlHashOn signed url).toInt = firefoxUrlHash url := by
  rw [mozplaceUrlHashOn_colon signed hcolon, firefoxUrlHash_eq]
  cases signed with
  | false => rfl
  | true =>
    have h := h.resolve_left (by decide)
    rw [hashChars_ascii h, hashChars_ascii fun c hc => h c (takeWhile_subset hcolon c hc)]

theorem urlHash_ne {url : Bytes} (hcolon : colon ∈ url.take 1500)
    (h : hashChars true 0 (url.take 1500) ≠ hashChars false 0 (url.take 1500)) :
    (mozplaceUrlHashOn true url).toInt ≠ firefoxUrlHash url := by
  rw [mozplaceUrlHashOn_colon true hcolon, firefoxUrlHash_eq]
  intro heq
  have hlt := (hashChars true 0 (url.take 1500)).toNat_lt
  have hlt' := (hashChars false 0 (url.take 1500)).toNat_lt
  have heq := Int.ofNat.inj heq
  exact h (UInt32.toNat_inj.mp (by omega))

theorem exists_single {s : Bytes} (h : s.countP (¬· < 128) ≤ 1) (hall : ¬∀ c ∈ s, c < 128) :
    ∃ a c b, s = a ++ c :: b ∧ (∀ x ∈ a, x < 128) ∧ ¬c < 128 ∧ ∀ x ∈ b, x < 128 := by
  push Not at hall
  obtain ⟨c, hc, hlarge⟩ := hall
  obtain ⟨a, b, rfl⟩ := List.append_of_mem hc
  rw [List.countP_append, List.countP_cons_of_pos (by simpa using hlarge)] at h
  have ha : a.countP (¬· < 128) = 0 := by omega
  have hb : b.countP (¬· < 128) = 0 := by omega
  rw [List.countP_eq_zero] at ha hb
  exact ⟨a, c, b, rfl, fun x hx => by simpa using ha x hx,
    hlarge, fun x hx => by simpa using hb x hx⟩

theorem urlHash_single {signed : Bool} {url : Bytes} (hcolon : colon ∈ url.take 1500)
    (hsingle : (url.take 1500).countP (¬· < 128) ≤ 1) :
    (mozplaceUrlHashOn signed url).toInt = firefoxUrlHash url ↔ signed = false ∨
    ∀ c ∈ url.take 1500, c < 128 := by
  refine ⟨fun h => ?_, urlHash_ascii hcolon⟩
  by_contra hnot
  push Not at hnot
  obtain ⟨hsigned, hlarge⟩ := hnot
  obtain rfl : signed = true := by simpa using hsigned
  obtain ⟨a, c, b, heq, ha, hc, hb⟩ := exists_single hsingle (by push Not; exact hlarge)
  exact urlHash_ne hcolon (by rw [heq]; exact hashChars_ne ha hc hb 0) h

/-- The hash is that of Firefox for every URL if and only if characters are unsigned. Where they
are signed, it is so for URLs in ASCII, and for no URL with a single byte that is not. -/
theorem url_hash_right (signed : Bool) :
    (∀ url, colon ∈ url.take 1500 → (signed = false ∨ ∀ c ∈ url.take 1500, c < 128) →
      (mozplaceUrlHashOn signed url).toInt = firefoxUrlHash url) ∧
    (∀ url, colon ∈ url.take 1500 → (url.take 1500).countP (¬· < 128) ≤ 1 →
      ((mozplaceUrlHashOn signed url).toInt = firefoxUrlHash url ↔
        signed = false ∨ ∀ c ∈ url.take 1500, c < 128)) ∧
    ((∀ url, colon ∈ url.take 1500 → (mozplaceUrlHashOn signed url).toInt = firefoxUrlHash url) ↔
      signed = false) := by
  refine ⟨fun _ hcolon => urlHash_ascii hcolon, fun _ hcolon => urlHash_single hcolon,
    fun h => ?_, ?_⟩
  · have hcolon : colon ∈ List.take 1500 [colon, 128] := by decide
    have hsingle : signed = false ∨ ∀ c ∈ List.take 1500 [colon, 128], c < 128 :=
      (urlHash_single hcolon (by decide +kernel)).mp (h [colon, 128] hcolon)
    exact hsingle.resolve_right (by decide +kernel)
  · rintro rfl url hcolon
    exact urlHash_ascii hcolon (.inl rfl)

/-- The URL `x:a` -/
theorem url_hash_right_ascii : (mozplaceUrlHashOn true [120, 58, 97]).toInt =
    firefoxUrlHash [120, 58, 97] :=
  (url_hash_right true).1 [120, 58, 97] (by decide) (.inr (by decide +kernel))

/-- The URL `x:` with a character that takes two bytes -/
theorem url_hash_differs : colon ∈ List.take 1500 [120, 58, 0xc3, 0xa9] ∧
    (mozplaceUrlHashOn true [120, 58, 0xc3, 0xa9]).toInt ≠
    firefoxUrlHash [120, 58, 0xc3, 0xa9] := by
  decide +kernel

/-- With more than one byte from 128 on, the hashes may be the same by chance. -/
example : (mozplaceUrlHashOn true [120, 58, 247, 96, 85, 123, 42, 128]).toInt =
    firefoxUrlHash [120, 58, 247, 96, 85, 123, 42, 128] := by
  decide +kernel

end BookmarkFS.Firefox
