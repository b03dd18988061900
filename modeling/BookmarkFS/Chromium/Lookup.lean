import BookmarkFS.Chromium.Calls

/-! # What lookups answer

In a store with the invariant, a lookup is determined by the entries and their
names: it finds the entry of that name in a directory that is visible, or tells
what is missing. How the maps are laid out plays no part.
-/
namespace BookmarkFS.Chromium
open Library Hopscotch

variable {w : WordSize} {tb : Tables w} {ctx : Ctx w} {env : Env} {S : Finset EntryRef}

/-- The entry of the directory `id`. -/
def Directory (ctx : Ctx w) (S : Finset EntryRef) (id : ℕ) (p : EntryRef) : Prop :=
  p ∈ S ∧ (ctx.ents p).id = id ∧ (ctx.ents p).name ≠ none ∧ (ctx.ents p).children ≠ none

/-- What `bookmark_lookup()` makes of a name. -/
def Answers (ctx : Ctx w) (S : Finset EntryRef) (id : ℕ) (name : Bytes) :
    Except Errno EntryRef → Prop
  | .ok e => (∃ p, Directory ctx S id p) ∧ Named ctx S id name e
  | .error err =>
    (err = .stale ∧ ∀ p ∈ S, (ctx.ents p).id = id → (ctx.ents p).name = none) ∨
    (err = .notdir ∧ ∃ p ∈ S, (ctx.ents p).id = id ∧ (ctx.ents p).name ≠ none ∧
      (ctx.ents p).children = none) ∨
    (err = .noent ∧ (∃ p, Directory ctx S id p) ∧ ∀ e, ¬Named ctx S id name e)

section Answers

variable (I : Inv tb ctx S)

include I

theorem Answers.unique {id : ℕ} {name : Bytes} {r r' : Except Errno EntryRef}
    (h : Answers ctx S id name r) (h' : Answers ctx S id name r') : r = r' := by
  have hdir : ∀ p, Directory ctx S id p → ∀ q ∈ S, (ctx.ents q).id = id → q = p :=
    fun p hp q hq hid => I.forest.id_inj q hq p hp.1 (hid.trans hp.2.1.symm)
  have hmissing : ∀ err, Answers ctx S id name (.error err) →
    ∀ e, ¬Answers ctx S id name (.ok e) := by
    rintro err herr e ⟨⟨p, hp⟩, he⟩
    obtain ⟨-, hstale⟩ | ⟨-, q, hq, hid, -, hfile⟩ | ⟨-, -, hnone⟩ := herr
    · exact hp.2.2.1 (hstale p hp.1 hp.2.1)
    · exact hp.2.2.2 (hdir p hp q hq hid ▸ hfile)
    · exact hnone e he
  cases r with
  | ok e =>
    cases r' with
    | ok e' =>
      have := I.indexed.names e h.2.1 e' h'.2.1 (h.2.2.1.trans h'.2.2.1.symm)
        (h.2.2.2.trans h'.2.2.2.symm)
      rw [this]
    | error err => exact absurd h (hmissing err h' e)
  | error err =>
    cases r' with
    | ok e => exact absurd h' (hmissing err h e)
    | error err' =>
      obtain ⟨rfl, hstale⟩ | ⟨rfl, q, hq, hid, hname, hfile⟩ | ⟨rfl, ⟨p, hp⟩, -⟩ := h <;>
        obtain ⟨rfl, hstale'⟩ | ⟨rfl, q', hq', hid', hname', hfile'⟩ | ⟨rfl, ⟨p', hp'⟩, -⟩ := h'
      · rfl
      · exact absurd (hstale q' hq' hid') hname'
      · exact absurd (hstale p' hp'.1 hp'.2.1) hp'.2.2.1
      · exact absurd (hstale' q hq hid) hname
      · rfl
      · exact absurd (hdir p' hp' q hq hid ▸ hfile) hp'.2.2.2
      · exact absurd (hstale' p hp.1 hp.2.1) hp.2.2.1
      · exact absurd (hdir p hp q' hq' hid' ▸ hfile') hp.2.2.2
      · rfl

theorem lookupEntry_spec (hflag : ctx.flags.filenameGuid = false) (id : ℕ) (name : CString) :
    ∃ r, lookupEntry tb ctx id (some name) = .ok r ∧ Answers ctx S id name r := by
  obtain ⟨r, hrun, hlook⟩ := I.lookupId_spec id
  rw [lookupEntry, hrun, ok_bind]
  cases r with
  | none =>
    refine ⟨_, rfl, .inl ⟨rfl, fun p hp hid => ?_⟩⟩
    cases (hlook p).mpr ⟨hp, hid⟩
  | some p =>
    obtain ⟨hp, hid⟩ := (hlook p).mp rfl
    have hself : ∀ q ∈ S, (ctx.ents q).id = id → q = p :=
      fun q hq hqid => I.forest.id_inj q hq p hp (hqid.trans hid.symm)
    dsimp only
    by_cases hname : (ctx.ents p).name = none
    · rw [if_pos hname]
      exact ⟨_, rfl, .inl ⟨rfl, fun q hq hqid => hself q hq hqid ▸ hname⟩⟩
    rw [if_neg hname]
    by_cases hfile : (ctx.ents p).children = none
    · rw [if_pos hfile]
      exact ⟨_, rfl, .inr (.inl ⟨rfl, p, hp, hid, hname, hfile⟩)⟩
    rw [if_neg hfile]
    obtain ⟨q, hlookup, ⟨e, eid, rfl, he, hparent, hename, -⟩ | ⟨rfl, hfree⟩⟩ :=
      I.lookupName_spec hflag id name
    · simp only [hlookup, ok_bind]
      exact ⟨_, rfl, ⟨p, hp, hid, hname, hfile⟩, he, hparent, hename⟩
    · simp only [hlookup, ok_bind]
      exact ⟨_, rfl, .inr (.inr ⟨rfl, ⟨p, hp, hid, hname, hfile⟩,
        fun e he => hfree e he.1 he.2.1 he.2.2⟩)⟩

theorem lookupEntry_iff (hflag : ctx.flags.filenameGuid = false) {id : ℕ} {name : CString}
    {r : Except Errno EntryRef} :
    lookupEntry tb ctx id (some name) = .ok r ↔ Answers ctx S id name r := by
  obtain ⟨r', hrun, h⟩ := lookupEntry_spec I hflag id name
  rw [hrun, Except.ok.injEq]
  constructor
  · rintro rfl; exact h
  · exact h.unique I

end Answers

/-- The attributes of an entry, as a lookup reports them. -/
def Ctx.attributes (ctx : Ctx w) (e : EntryRef) : Except Errno Stat :=
  match parseStats ctx.json (ctx.ents e) (ctx.ents e).id with
  | none => .error .io
  | some stat => .ok stat

/-- `bookmark_lookup()` reports the entry that it finds. -/
theorem bookmarkLookup_eq (I : Inv tb ctx S) (hflag : ctx.flags.filenameGuid = false)
    (hload : storeLoad tb ctx env = .ok (none, ctx)) {id : ℕ} {name : CString}
    {r : Except Errno EntryRef} (h : Answers ctx S id name r) :
    bookmarkLookup tb ctx env id (some name) = .ok (r >>= ctx.attributes, ctx) := by
  have hrun := (lookupEntry_iff I hflag).mpr h
  simp only [bookmarkLookup, hload, hrun, ok_bind]
  cases r with
  | error err => rfl
  | ok e =>
    obtain ⟨heS, hroot, -⟩ := mem_named.mp h.2.1
    have hid := (I.forest.describes e heS hroot).id
    simp only [lookupStat, reduceCtorEq, if_false, hid, ok_bind]
    rfl

end BookmarkFS.Chromium
