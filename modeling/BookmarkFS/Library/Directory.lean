import Mathlib.Logic.Function.Basic
import Mathlib.Tactic

/-! # Replacing a file in a directory

A new file is written under another name, and renamed when it is complete. Files are
known by numbers, which are not used again, so that a file stays the same when its
name changes. As long as the other name is not taken, nobody sees a part of the file.
-/
namespace BookmarkFS.Library

/-- Names stand for files. Those that calls of `rename` and `unlink` have found by name are kept. -/
structure Dir (ν γ : Type) where
  entries : ν → Option ℕ
  contents : ℕ → γ
  next : ℕ
  acted : List ℕ
  entries_lt : ∀ name file, entries name = some file → file < next

namespace Dir

variable {ν γ : Type} [DecidableEq ν]

/-- A name that is not taken stands for a new file. -/
def create (d : Dir ν γ) (name : ν) (content : γ) : Dir ν γ where
  entries := Function.update d.entries name (some d.next)
  contents := Function.update d.contents d.next content
  next := d.next + 1
  acted := d.acted
  entries_lt other file h := by
    rw [Function.update_apply] at h
    split_ifs at h
    · obtain rfl := Option.some.inj h
      exact d.next.lt_succ_self
    · exact (d.entries_lt other file h).trans d.next.lt_succ_self

def write (d : Dir ν γ) (file : ℕ) (content : γ) : Dir ν γ :=
  { d with contents := Function.update d.contents file content }

/-- `unlinkat()`, which does nothing if there is no such name -/
def unlink (d : Dir ν γ) (name : ν) : Dir ν γ where
  entries := Function.update d.entries name none
  contents := d.contents
  next := d.next
  acted := (d.entries name).toList ++ d.acted
  entries_lt other file h := by
    rw [Function.update_apply] at h
    split_ifs at h
    exact d.entries_lt other file h

/-- The old name goes, and the new one stands for the file. -/
def move (d : Dir ν γ) (old new : ν) : Dir ν γ where
  entries := Function.update (d.unlink old).entries new (d.entries old)
  contents := d.contents
  next := d.next
  acted := (d.entries old).toList ++ d.acted
  entries_lt other file h := by
    rw [Function.update_apply] at h
    split_ifs at h
    · exact d.entries_lt old file h
    · exact (d.unlink old).entries_lt other file h

/-- `renameat()`, which fails if there is no old name, and does nothing if both stand for
the same file -/
def rename (d : Dir ν γ) (old new : ν) : Option (Dir ν γ) :=
  if d.entries old = none then none
  else if d.entries old = d.entries new then
    some { d with acted := (d.entries old).toList ++ d.acted }
  else some (d.move old new)

/-! ## What becomes of the other files -/

/-- At most one name has another file than before, which is new and has the whole content. Further
names are free, or stand for the new file. -/
structure Replaces (d : Dir ν γ) (name : ν) (whole : γ) (d' : Dir ν γ) : Prop where
  others : ∀ n, n ≠ name → d'.entries n = d.entries n ∨ d.entries n = none ∧
    d'.entries n = some d.next
  contents : ∀ file < d.next, d'.contents file = d.contents file
  entry : d'.entries name = d.entries name ∨ d'.entries name = some d.next ∧
    d'.contents d.next = whole
  acted : ∀ file ∈ d'.acted, file ∈ d.acted ∨ file = d.next

section Replace

variable {d : Dir ν γ} {name tmp : ν} {content whole : γ}

@[simp] theorem create_write : (d.create name content).write d.next whole =
    d.create name whole := by
  simp only [create, write, Function.update_idem]

theorem create_entries_self : (d.create name content).entries name = some d.next :=
    Function.update_self _ _ _

theorem create_entries_of_ne {n : ν} (h : n ≠ name) : (d.create name content).entries n =
    d.entries n :=
  Function.update_of_ne h _ _

theorem create_contents_self : (d.create name content).contents d.next = content :=
    Function.update_self _ _ _

theorem create_contents_of_lt {file : ℕ} (h : file < d.next) :
    (d.create name content).contents file = d.contents file := Function.update_of_ne h.ne _ _

omit [DecidableEq ν] in
theorem entries_ne_next (n : ν) : d.entries n ≠ some d.next :=
    fun h => (d.entries_lt n d.next h).false

omit [DecidableEq ν] in
theorem replaces_refl : d.Replaces name whole d where
  others _ _ := .inl rfl
  contents _ _ := rfl
  entry := .inl rfl
  acted _ h := .inl h

theorem replaces_create (hne : tmp ≠ name) (hfree : d.entries tmp = none) :
    d.Replaces name whole (d.create tmp content) where
  others n hn := by
    by_cases h : n = tmp
    · subst h
      exact .inr ⟨hfree, create_entries_self⟩
    · exact .inl (create_entries_of_ne h)
  contents _ h := create_contents_of_lt h
  entry := .inl (create_entries_of_ne hne.symm)
  acted _ h := .inl h

theorem replaces_create_unlink (hfree : d.entries tmp = none) :
    d.Replaces name whole ((d.create tmp content).unlink tmp) := by
  have hentries : ((d.create tmp content).unlink tmp).entries = d.entries := by
    show Function.update (Function.update d.entries tmp (some d.next)) tmp none = d.entries
    rw [Function.update_idem, ← hfree, Function.update_eq_self]
  have hacted : ((d.create tmp content).unlink tmp).acted = d.next :: d.acted := by
    show ((d.create tmp content).entries tmp).toList ++ d.acted = _
    rw [create_entries_self]
    rfl
  refine ⟨fun n _ => .inl (by rw [hentries]), fun file hlt => ?_, .inl (by rw [hentries]),
    fun file hfile => ?_⟩
  · show (d.create tmp content).contents file = _
    exact create_contents_of_lt hlt
  · rw [hacted, List.mem_cons] at hfile
    exact hfile.symm

theorem create_rename (hne : tmp ≠ name) (hfree : d.entries tmp = none) (whole : γ) :
    ∃ d', (d.create tmp whole).rename tmp name = some d' ∧
    d'.entries = Function.update d.entries name (some d.next) ∧
      d'.contents = (d.create tmp whole).contents ∧ d'.acted = d.next :: d.acted := by
  refine ⟨(d.create tmp whole).move tmp name, ?_, ?_, rfl, ?_⟩
  · rw [rename, create_entries_self, if_neg nofun, create_entries_of_ne hne.symm,
      if_neg (entries_ne_next name).symm]
  · show Function.update (Function.update (Function.update d.entries tmp _) tmp none) name
      ((d.create tmp whole).entries tmp) = _
    rw [Function.update_idem, ← hfree, Function.update_eq_self, create_entries_self]
  · show ((d.create tmp whole).entries tmp).toList ++ d.acted = _
    rw [create_entries_self]
    rfl

theorem replaces_rename (hne : tmp ≠ name) (hfree : d.entries tmp = none) {d' : Dir ν γ}
    (h : (d.create tmp whole).rename tmp name = some d') :
    d.Replaces name whole d' ∧ d'.entries name = some d.next ∧ d'.contents d.next = whole ∧
    d'.entries tmp = none := by
  obtain ⟨d'', hrename, hentries, hcontents, hacted⟩ := create_rename hne hfree whole
  obtain rfl : d'' = d' := Option.some.inj (hrename.symm.trans h)
  have hname : d''.entries name = some d.next := by rw [hentries, Function.update_self]
  have hothers : ∀ n, n ≠ name → d''.entries n = d.entries n := fun n hn => by
    rw [hentries, Function.update_of_ne hn]
  have hwhole : d''.contents d.next = whole := by rw [hcontents, create_contents_self]
  refine ⟨⟨fun n hn => .inl (hothers n hn), fun file hlt => ?_, .inr ⟨hname, hwhole⟩,
    fun file hfile => ?_⟩, hname,
    hwhole, (hothers tmp hne).trans hfree⟩
  · rw [hcontents, create_contents_of_lt hlt]
  · rw [hacted, List.mem_cons] at hfile
    exact hfile.symm

theorem unlink_of_free (h : d.entries name = none) : d.unlink name = d := by
  have hentries : Function.update d.entries name none = d.entries := by
    rw [← h, Function.update_eq_self]
  simp only [unlink, hentries, h, Option.toList_none, List.nil_append]

end Replace

end Dir

end BookmarkFS.Library
