import BookmarkFS.Firefox.Places

/-! # The host of a URL

Places are grouped by the scheme and the host of their URL. The host ends at a slash
for `parse_mozurl()`, and starts after the first `@`, wherever that is, while in a URL
it may also end at a `?` or a `#`, and the user comes before the host.
-/
namespace BookmarkFS.Firefox
open Library
open Chromium (Errno)

def atSign : UInt8 := 64

/-- The bytes that end the authority of a URL: `/`, `?` and `#` -/
def endsAuthority (c : UInt8) : Bool := c = Chromium.slash || c = 63 || c = 35

/-- What is after the first `@`, if there is one -/
def afterAt (text : Bytes) : Bytes :=
  match text.dropWhile (· ≠ atSign) with
  | [] => text
  | _ :: host => host

def authority (text : Bytes) : Bytes := text.takeWhile fun c => !endsAuthority c

def afterAuthority (text : Bytes) : Bytes := text.dropWhile fun c => !endsAuthority c

/-- The prefix and the host of a URL, of which the scheme ends at the first colon -/
def splitUrl (url : Bytes) : Bytes × Bytes :=
  let scheme := url.takeWhile (· ≠ colon)
  match (url.dropWhile (· ≠ colon)).drop 1 with
  | 47 :: 47 :: rest => (scheme ++ [colon, 47, 47], afterAt (authority rest))
  | _ => (scheme ++ [colon], [])

/-- The database with the column `rev_host` of `moz_places`, which no statement reads. -/
structure Places where
  db : Db
  revHost : ℤ → Option Bytes

/-- The loop of `mozplace_addref()` that turns the host round, and the dot at its end -/
def reverseHost (host : Bytes) : Bytes :=
  (List.range host.length).map (fun idx => host.getD (host.length - idx - 1) 0) ++ [46]

/-- `mozplace_addref()` with the column `rev_host` of a new place -/
def mozplaceAddrefRev (s : Places) (url : Bytes) : Except Errno ((ℤ × Option ℤ) × Places) :=
  match parseMozurl url, mozplaceAddref s.db url with
  | some (_, host), .ok ((id, none), db) =>
    .ok ((id, none), ⟨db, Function.update s.revHost id (some (reverseHost host))⟩)
  | _, .ok (r, db) => .ok (r, ⟨db, s.revHost⟩)
  | _, .error err => .error err

/-- What is asked of the split of a URL: the prefix and the host are right and lie inside the URL,
and a new place gets the host turned round and the one origin that has them, which is made where
there is none. -/
structure UrlSplit (url : Bytes) : Prop where
  parsed : parseMozurl url = some (splitUrl url)
  inside : ∀ r, parseMozurl url = some r → r.1 <+: url ∧ r.2 <:+: url
  stored : ∀ s : Places, (∀ mp ∈ s.db.places, ¬(mp.urlHash = mozplaceUrlHash url ∧ mp.url = url)) →
    ∃ id s', mozplaceAddrefRev s url = .ok ((id, none), s') ∧
      s'.revHost id = some ((splitUrl url).2.reverse ++ [46]) ∧
      ∃ mp ∈ s'.db.places, mp.id = id ∧ mp.url = url ∧
        ∃ mo ∈ s'.db.origins, mo.id = mp.originId ∧ (mo.originPrefix, mo.host) = splitUrl url ∧
          (mo ∈ s.db.origins ∨ ∀ mo' ∈ s.db.origins, (mo'.originPrefix, mo'.host) ≠ splitUrl url)

/-- What comes after the authority starts with a slash, if there is anything, and has no `@`
unless the authority has one; or what is between that `@` and the slash after it happens to be
the authority. -/
def PlainHost (url : Bytes) : Prop :=
  ∀ rest, (url.dropWhile (· ≠ colon)).drop 1 = 47 :: 47 :: rest →
    (atSign ∈ authority rest ∨ atSign ∉ afterAuthority rest →
      afterAuthority rest = [] ∨ (afterAuthority rest).head? = some Chromium.slash) ∧
    (atSign ∉ authority rest → atSign ∈ afterAuthority rest →
      (afterAt (afterAuthority rest)).takeWhile (· ≠ Chromium.slash) = authority rest)

section Text

variable {xs ys : Bytes}

theorem authority_append (text : Bytes) : authority text ++ afterAuthority text = text :=
  List.takeWhile_append_dropWhile

theorem slash_notMem_authority (text : Bytes) : Chromium.slash ∉ authority text := by
  intro h
  have := List.mem_takeWhile_imp h
  simp [endsAuthority] at this

theorem afterAt_first {user : Bytes} (h : atSign ∉ user) (host : Bytes) :
    afterAt (user ++ atSign :: host) = host := by
  have huser : ∀ c ∈ user, decide (c ≠ atSign) = true :=
    fun c hc => decide_eq_true fun he => h (he ▸ hc)
  rw [afterAt, List.dropWhile_append_of_pos huser, List.dropWhile_cons_of_neg (by simp)]

theorem afterAt_of_notMem (h : atSign ∉ xs) : afterAt xs = xs := by
  have hall : ∀ c ∈ xs, decide (c ≠ atSign) = true :=
    fun c hc => decide_eq_true fun he => h (he ▸ hc)
  rw [afterAt, List.dropWhile_eq_nil_iff.mpr hall]

theorem afterAt_append_of_mem (h : atSign ∈ xs) : afterAt (xs ++ ys) = afterAt xs ++ ys := by
  obtain ⟨user, host, rfl, huser⟩ := List.eq_append_cons_of_mem h
  rw [List.append_assoc, List.cons_append, afterAt_first huser, afterAt_first huser]

theorem afterAt_append_of_notMem (h : atSign ∉ xs) (hys : atSign ∈ ys) :
    afterAt (xs ++ ys) = afterAt ys := by
  obtain ⟨user, host, rfl, huser⟩ := List.eq_append_cons_of_mem hys
  rw [← List.append_assoc, afterAt_first huser, afterAt_first]
  rw [List.mem_append]
  exact not_or.mpr ⟨h, huser⟩

theorem afterAt_suffix (xs : Bytes) : afterAt xs <:+ xs := by
  by_cases h : atSign ∈ xs
  · obtain ⟨user, host, rfl, huser⟩ := List.eq_append_cons_of_mem h
    rw [afterAt_first huser]
    exact ⟨user ++ [atSign], by simp⟩
  · rw [afterAt_of_notMem h]

theorem takeWhile_slash_eq (h : Chromium.slash ∉ xs) :
    (xs ++ ys).takeWhile (· ≠ Chromium.slash) = xs ↔ ys = [] ∨ ys.head? = some Chromium.slash := by
  have hall : ∀ c ∈ xs, decide (c ≠ Chromium.slash) = true :=
    fun c hc => decide_eq_true fun he => h (he ▸ hc)
  rw [List.takeWhile_append_of_pos hall]
  cases ys with
  | nil => simp
  | cons c ys =>
    by_cases hc : c = Chromium.slash
    · simp [hc]
    · simp [hc]

/-- The host that the code finds is that of the URL. -/
theorem host_eq_iff (rest : Bytes) :
    (afterAt rest).takeWhile (· ≠ Chromium.slash) = afterAt (authority rest) ↔
      (atSign ∈ authority rest ∨ atSign ∉ afterAuthority rest →
        afterAuthority rest = [] ∨ (afterAuthority rest).head? = some Chromium.slash) ∧
      (atSign ∉ authority rest → atSign ∈ afterAuthority rest →
        (afterAt (afterAuthority rest)).takeWhile (· ≠ Chromium.slash) = authority rest) := by
  have hslash := slash_notMem_authority rest
  conv_lhs => rw [← authority_append rest]
  conv in authority (authority rest ++ afterAuthority rest) => rw [authority_append]
  by_cases hmem : atSign ∈ authority rest
  · rw [afterAt_append_of_mem hmem, takeWhile_slash_eq fun h => hslash
      ((afterAt_suffix _).subset h)]
    simp [hmem]
  by_cases hafter : atSign ∈ afterAuthority rest
  · rw [afterAt_append_of_notMem hmem hafter, afterAt_of_notMem hmem]
    simp [hmem, hafter]
  · have hnone : atSign ∉ authority rest ++ afterAuthority rest := by
      rw [List.mem_append]
      exact not_or.mpr ⟨hmem, hafter⟩
    rw [afterAt_of_notMem hnone, afterAt_of_notMem hmem, takeWhile_slash_eq hslash]
    simp [hmem, hafter]

end Text

section Split

variable {url : Bytes}

theorem scheme_append (h : colon ∈ url) :
    url.takeWhile (· ≠ colon) ++ colon :: (url.dropWhile (· ≠ colon)).drop 1 = url ∧
      ∃ part, url.dropWhile (· ≠ colon) = colon :: part := by
  obtain ⟨scheme, part, rfl, hscheme⟩ := List.eq_append_cons_of_mem h
  have hall : ∀ c ∈ scheme, decide (c ≠ colon) = true := fun c hc => decide_eq_true fun he =>
    hscheme (he ▸ hc)
  rw [List.takeWhile_append_of_pos hall, List.dropWhile_append_of_pos hall,
    List.takeWhile_cons_of_neg (by simp),
    List.dropWhile_cons_of_neg (by simp)]
  simp

/-- The prefix is always right. -/
theorem parseMozurl_eq (h : colon ∈ url) : parseMozurl url = some ((splitUrl url).1,
    match (url.dropWhile (· ≠ colon)).drop 1 with
    | 47 :: 47 :: rest => (afterAt rest).takeWhile (· ≠ Chromium.slash)
    | _ => []) := by
  obtain ⟨hurl, part, hpart⟩ := scheme_append h
  rw [hpart, List.drop_one, List.tail_cons] at hurl
  have htake : ∀ xs ys : Bytes, xs ++ ys = url → url.take (url.length - ys.length) = xs := by
    rintro xs ys rfl
    simp
  rw [parseMozurl, splitUrl, hpart]
  dsimp only [List.drop_one, List.tail_cons]
  split
  · rename_i rest
    rw [htake (url.takeWhile (· ≠ colon) ++ [colon, 47, 47]) rest (by simpa using hurl)]
    rfl
  · rw [htake (url.takeWhile (· ≠ colon) ++ [colon]) part (by simpa using hurl)]
    split
    · rename_i hne _ rest hrest
      exact absurd hrest (hne rest)
    · rfl

theorem parsed_iff (h : colon ∈ url) : parseMozurl url = some (splitUrl url) ↔ PlainHost url := by
  rw [parseMozurl_eq h, Option.some_inj, Prod.ext_iff, PlainHost, splitUrl]
  split
  · rename_i rest hrest
    simp only [hrest, true_and, List.cons.injEq, forall_eq']
    exact host_eq_iff rest
  · rename_i hne
    simp only [true_and, true_iff]
    exact fun rest hrest => absurd hrest (hne rest)

theorem parseMozurl_inside (h : colon ∈ url) {r : Bytes × Bytes} (hr : parseMozurl url = some r) :
    r.1 <+: url ∧ r.2 <:+: url := by
  obtain ⟨hurl, -⟩ := scheme_append h
  rw [parseMozurl_eq h, Option.some_inj] at hr
  subst hr
  rw [splitUrl]
  split
  · rename_i rest hrest
    rw [hrest] at hurl
    refine ⟨⟨rest, by simpa using hurl⟩, ?_⟩
    have hrest : rest <:+ url := ⟨url.takeWhile (· ≠ colon) ++ [colon, 47, 47], by simpa using hurl⟩
    exact (List.takeWhile_prefix _).isInfix.trans ((afterAt_suffix rest).trans hrest).isInfix
  · exact ⟨⟨_, by simpa using hurl⟩, List.nil_infix⟩

theorem reverseHost_eq (host : Bytes) : reverseHost host = host.reverse ++ [46] := by
  rw [reverseHost]
  congr 1
  apply List.ext_getElem
  · simp
  · intro i hi _
    have hi : i < host.length := by simpa using hi
    simp only [List.getElem_map, List.getElem_range, List.getElem_reverse]
    rw [List.getD_eq_getElem?_getD, List.getElem?_eq_getElem (by omega), Option.getD_some]
    congr 1
    omega

/-- The origin that is found, or made. -/
theorem mozorigin_spec (db : Db) (originPrefix host : Bytes) :
    (mozorigin db originPrefix host).2.places = db.places ∧
      ∃ mo ∈ (mozorigin db originPrefix host).2.origins,
      mo.id = (mozorigin db originPrefix host).1 ∧
        (mo.originPrefix, mo.host) = (originPrefix, host) ∧
        (mo ∈ db.origins ∨ ∀ mo' ∈ db.origins, (mo'.originPrefix, mo'.host) ≠
          (originPrefix, host)) := by
  rw [mozorigin]
  cases hfind : db.origins.find? fun mo => mo.originPrefix = originPrefix ∧ mo.host = host with
  | some mo =>
    have hmo := List.find?_some hfind
    rw [decide_eq_true_eq] at hmo
    exact ⟨rfl, mo, List.mem_of_find?_eq_some hfind, rfl, Prod.ext hmo.1 hmo.2,
      .inl (List.mem_of_find?_eq_some hfind)⟩
  | none =>
    refine ⟨rfl, _, List.mem_append_right _ (List.mem_singleton.mpr rfl), rfl, rfl,
      .inr fun mo' hmo' hsame => ?_⟩
    have := List.find?_eq_none.mp hfind mo' hmo'
    rw [decide_eq_true_eq] at this
    exact this (Prod.ext_iff.mp hsame)

/-- A new place has the origin and the host that the code finds. -/
theorem mozplaceAddrefRev_new {originPrefix host : Bytes}
    (hparse : parseMozurl url = some (originPrefix, host))
    (s : Places) (hnew : ∀ mp ∈ s.db.places, ¬(mp.urlHash = mozplaceUrlHash url ∧ mp.url = url)) :
    ∃ id s', mozplaceAddrefRev s url = .ok ((id, none), s') ∧
    s'.revHost id = some (host.reverse ++ [46]) ∧
      ∃ mp ∈ s'.db.places, mp.id = id ∧ mp.url = url ∧
        ∃ mo ∈ s'.db.origins, mo.id = mp.originId ∧
        (mo.originPrefix, mo.host) = (originPrefix, host) ∧
          (mo ∈ s.db.origins ∨ ∀ mo' ∈ s.db.origins, (mo'.originPrefix, mo'.host) ≠
            (originPrefix, host)) := by
  have hnone : s.db.places.find? (fun mp => mp.urlHash = mozplaceUrlHash url && mp.url = url) =
    none := by
    rw [List.find?_eq_none]
    intro mp hmp
    simpa using hnew mp hmp
  obtain ⟨hplaces, mo, hmo, hid, hsame, hfresh⟩ := mozorigin_spec s.db originPrefix host
  obtain ⟨db, hrun, hdb, horigins⟩ : ∃ db,
      mozplaceAddref s.db url = .ok ((newRowid (s.db.places.map (·.id)), none), db) ∧
      db.places = s.db.places ++ [⟨newRowid (s.db.places.map (·.id)), url, none, none, 1,
      mozplaceUrlHash url,
        (mozorigin s.db originPrefix host).1⟩] ∧
        db.origins = (mozorigin s.db originPrefix host).2.origins := by
    rw [mozplaceAddref, hparse]
    dsimp only
    rw [hnone]
    dsimp only
    rw [hplaces]
    exact ⟨_, rfl, rfl, rfl⟩
  refine ⟨_, _, by rw [mozplaceAddrefRev, hparse, hrun], ?_, ?_⟩
  · exact (Function.update_self ..).trans (congrArg some (reverseHost_eq host))
  · refine ⟨_, hdb ▸ List.mem_append_right _ (List.mem_singleton.mpr rfl), rfl, rfl, mo, ?_, hid,
      hsame, hfresh⟩
    exact horigins ▸ hmo

end Split

/-- A URL with a colon is split right if and only if its host is followed by a slash or by nothing,
and there is no `@` after it that is taken for the one after the user. -/
theorem url_split (url : Bytes) (h : colon ∈ url) : UrlSplit url ↔ PlainHost url := by
  constructor
  · exact fun split => (parsed_iff h).mp split.parsed
  · intro hplain
    have hparse := (parsed_iff h).mpr hplain
    exact {
      parsed := hparse
      inside := fun r hr => parseMozurl_inside h hr
      stored := fun s hnew => mozplaceAddrefRev_new hparse s hnew }

/-- `http://u@a/b` is split right: the host is `a`. -/
theorem url_split_user : UrlSplit [104, 116, 116, 112, 58, 47, 47, 117, 64, 97, 47, 98] := by
  rw [url_split _ (by decide)]
  rintro rest hrest
  obtain rfl : [117, 64, 97, 47, 98] = rest := by simpa [colon] using hrest
  exact ⟨fun _ => by decide, fun h => absurd (by decide) h⟩

/-- In `http://a/@b` the host is taken to be `b`. -/
theorem url_split_path : ¬∀ url : Bytes, colon ∈ url → UrlSplit url := by
  intro h
  have := (h [104, 116, 116, 112, 58, 47, 47, 97, 47, 64, 98] (by decide)).parsed
  revert this
  decide

end BookmarkFS.Firefox
