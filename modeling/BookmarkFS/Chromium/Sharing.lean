import BookmarkFS.Chromium.Queries
import BookmarkFS.Library.Interference

/-! # A cookie that is shared

A listing and a scan on the same cookie: the one keeps the children there, the
other its position. Neither touches what belongs to the other, but for a cookie
that the scan has created, where a listing that starts over replaces the
children.
-/
namespace BookmarkFS.Chromium
open Library Hopscotch

variable {w : WordSize}

/-- `bookmark_check()` without data, with the cookie at `cookie_ptr`: the status, the reports made,
and the cookie afterwards. No callback stands for `fsck_rewind`. -/
def bookmarkCheck (tb : Tables w) (ctx : Ctx w) (env : Env) (parentId : ℕ)
    (callback : Option (FsckReport → ℤ)) (cookie : Option ListCookie) :
    Except Fault ((Except Errno (ℤ × List FsckReport) × Option ListCookie) × Ctx w) := do
  let (dir, ctx) ← checkDir tb ctx env parentId
  match dir with
  | .error err => .ok ((.error err, cookie), ctx)
  | .ok children =>
    let idx := (cookie.map (·.idx)).getD 0
    let (status, idx, reports) ← match callback with
      | none => .ok (0, 0, [])
      | some callback => fsckNext tb ctx parentId callback ((ctx.json.elems children).drop idx) idx
    .ok ((.ok (status, reports),
      some { children := (cookie.map (·.children)).getD (.live children), idx := idx }), ctx)

/-- A call on an open directory. -/
inductive DirCall where
  /-- A page of a listing, which starts over or goes on behind the last entry accepted. -/
  | list (restart withStat : Bool) (callback : ListCallback)
  | next (callback : FsckReport → ℤ)
  | rewind

def DirCall.isList : DirCall → Bool
  | .list .. => true
  | _ => false

def DirCall.isCheck (call : DirCall) : Bool := !call.isList

structure DirState (w : WordSize) where
  ctx : Ctx w
  cookie : Option ListCookie
  /-- Where the reader of the listing goes on. -/
  off : ℕ

inductive DirReply where
  | list (reply : Except Fault (Except Errno (ℤ × List Dirent)))
  | check (reply : Except Fault (Except Errno (ℤ × List FsckReport)))

def DirState.opened (ctx : Ctx w) : DirState w := ⟨ctx, none, 0⟩

def resume (off : ℕ) : Except Errno (ℤ × List Dirent) → ℕ
  | .error _ => off
  | .ok (_, accepted) => (accepted.getLast?.map (·.off)).getD off

def DirCall.run (tb : Tables w) (env : Env) (id : ℕ) (s : DirState w) : DirCall →
    DirReply × DirState w
  | .list restart withStat callback =>
    let off := if restart then 0 else s.off
    match bookmarkList tb s.ctx env id off withStat (some callback) s.cookie with
    | .error fault => (.list (.error fault), { s with off := off })
    | .ok ((reply, cookie), ctx) => (.list (.ok reply), ⟨ctx, cookie, resume off reply⟩)
  | .next callback =>
    match bookmarkCheck tb s.ctx env id (some callback) s.cookie with
    | .error fault => (.check (.error fault), s)
    | .ok ((reply, cookie), ctx) => (.check (.ok reply), ⟨ctx, cookie, s.off⟩)
  | .rewind =>
    match bookmarkCheck tb s.ctx env id none s.cookie with
    | .error fault => (.check (.error fault), s)
    | .ok ((reply, cookie), ctx) => (.check (.ok reply), ⟨ctx, cookie, s.off⟩)

section Calls

variable {tb : Tables w} {ctx : Ctx w} {env : Env} (hload : storeLoad tb ctx env = .ok (none, ctx))
  (id : ℕ)

include hload

/-- A listing that starts over does not look at the cookie. -/
theorem bookmarkList_zero (withStat : Bool) (callback : ListCallback) :
    ∃ result : Except Fault (Except Errno ((ℤ × List Dirent) × List NodeRef)), ∀ cookie,
      bookmarkList tb ctx env id 0 withStat (some callback) cookie = match result with
        | .error fault => .error fault
        | .ok (.error err) => .ok ((.error err, cookie), ctx)
        | .ok (.ok (reply, nodes)) =>
          .ok ((.ok reply, some ⟨.copy nodes, (cookie.map (·.idx)).getD 0⟩), ctx) := by
  have hdir : ∀ cookie, listDir tb ctx id 0 cookie = listDir tb ctx id 0 none := by
    intro cookie
    cases cookie <;> rfl
  simp only [bookmarkList, hload, ok_bind, hdir]
  cases hnone : listDir tb ctx id 0 none with
  | error fault => exact ⟨.error fault, fun _ => rfl⟩
  | ok dir =>
    cases dir with
    | error err => exact ⟨.ok (.error err), fun _ => rfl⟩
    | ok dir =>
      obtain ⟨children, fresh⟩ := dir
      have hfresh : fresh = true := by
        rw [listDir] at hnone
        · obtain ⟨r, -, hnone⟩ := bind_eq_ok.mp hnone
          cases r with
          | none => cases hnone
          | some e =>
            dsimp only at hnone
            split at hnone
            · cases hnone
            · split at hnone
              · exact (Prod.mk.inj (Except.ok.inj (Except.ok.inj hnone))).2.symm
              · cases hnone
        · nofun
      subst hfresh
      simp only [ok_bind]
      cases hlist : listChildren tb ctx withStat callback (List.drop 0 (children.nodes ctx.json))
        0 [] with
      | error fault => exact ⟨.error fault, fun _ => rfl⟩
      | ok reply => exact ⟨.ok (.ok (reply, children.nodes ctx.json)), fun _ => rfl⟩

theorem bookmarkList_succ (off : ℕ) (withStat : Bool) (callback : ListCallback)
    (children : Children) :
    ∃ result : Except Fault (ℤ × List Dirent), ∀ idx,
      bookmarkList tb ctx env id (off + 1) withStat (some callback) (some ⟨children, idx⟩) =
        match result with
        | .error fault => .error fault
        | .ok reply => .ok ((.ok reply, some ⟨children, idx⟩), ctx) := by
  simp only [bookmarkList, hload, ok_bind, listDir]
  cases hlist : listChildren tb ctx withStat callback ((children.nodes ctx.json).drop (off + 1))
      (off + 1) [] with
  | error fault => exact ⟨.error fault, fun _ => rfl⟩
  | ok reply => exact ⟨.ok reply, fun _ => rfl⟩

/-- A scan looks at the position in the cookie, and leaves the children there. -/
theorem bookmarkCheck_idx (callback : Option (FsckReport → ℤ)) (idx : ℕ) :
    ∃ (result : Except Fault (Except Errno (ℤ × ℕ × List FsckReport))) (children : Children),
      ∀ cookie : Option ListCookie, (cookie.map (·.idx)).getD 0 = idx →
        bookmarkCheck tb ctx env id callback cookie = match result with
          | .error fault => .error fault
          | .ok (.error err) => .ok ((.error err, cookie), ctx)
          | .ok (.ok (status, next, reports)) =>
            .ok ((.ok (status, reports), some ⟨(cookie.map (·.children)).getD children, next⟩),
              ctx) := by
  simp only [bookmarkCheck]
  cases hdir : checkDir tb ctx env id with
  | error fault => exact ⟨.error fault, .copy [], fun _ _ => rfl⟩
  | ok r =>
    obtain ⟨dir, ctx'⟩ := r
    obtain rfl : ctx' = ctx := (checkDir_kept hload id).of_ok hdir
    cases dir with
    | error err => exact ⟨.ok (.error err), .copy [], fun _ _ => rfl⟩
    | ok children =>
      simp only [ok_bind]
      cases callback with
      | none => exact ⟨.ok (.ok (0, 0, [])), .live children, fun _ _ => rfl⟩
      | some callback =>
        cases hnext : fsckNext tb ctx' id callback ((ctx'.json.elems children).drop idx) idx with
        | error fault =>
          refine ⟨.error fault, .live children, fun cookie hidx => ?_⟩
          simp only [hidx, hnext]
          rfl
        | ok result =>
          refine ⟨.ok (.ok result), .live children, fun cookie hidx => ?_⟩
          simp only [hidx, hnext]
          rfl

end Calls

/-- The store is as it was, and whoever has got an entry has a cookie. -/
def DirState.Kept (ctx : Ctx w) (s : DirState w) : Prop :=
  s.ctx = ctx ∧ (s.off ≠ 0 → ∃ cookie, s.cookie = some cookie)

def DirState.listView (s : DirState w) : ℕ × Option Children :=
  (s.off, if s.off = 0 then none else s.cookie.map (·.children))

def DirState.checkView (s : DirState w) : ℕ := (s.cookie.map (·.idx)).getD 0

section Separation

variable {tb : Tables w} {ctx : Ctx w} {env : Env} (hload : storeLoad tb ctx env = .ok (none, ctx))
  (id : ℕ) {s t : DirState w}

include hload

/-- A page of a listing: its reply and what it leaves for the next depend on the view of listings,
and the view of scans is left. -/
theorem list_run (restart withStat : Bool) (callback : ListCallback) (hs : s.Kept ctx)
    (ht : t.Kept ctx) (hview : s.listView = t.listView) :
    let step (s : DirState w) := (DirCall.list restart withStat callback).run tb env id s
    (step s).1 = (step t).1 ∧ (step s).2.listView = (step t).2.listView ∧ (step s).2.Kept ctx ∧
      (step s).2.checkView = s.checkView := by
  obtain ⟨rfl, hscookie⟩ := hs
  obtain ⟨htctx, htcookie⟩ := ht
  obtain ⟨hoff, hchildren⟩ := Prod.mk.inj hview
  dsimp only at hoff hchildren ⊢
  simp only [DirCall.run, ← hoff, htctx]
  cases hstart : (if restart then 0 else s.off) with
  | zero =>
    obtain ⟨result, hresult⟩ := bookmarkList_zero hload id withStat callback
    rw [hresult, hresult]
    cases result with
    | error fault => exact ⟨rfl, rfl, ⟨rfl, fun h => absurd rfl h⟩, rfl⟩
    | ok result =>
      cases result with
      | error err => exact ⟨rfl, rfl, ⟨rfl, fun h => absurd rfl h⟩, rfl⟩
      | ok result => exact ⟨rfl, rfl, ⟨rfl, fun _ => ⟨_, rfl⟩⟩, rfl⟩
  | succ off =>
    have hne : s.off ≠ 0 := by
      intro h
      rw [h, ite_self] at hstart
      cases hstart
    obtain ⟨⟨children, idx⟩, hs⟩ := hscookie hne
    obtain ⟨⟨children', idx'⟩, ht⟩ := htcookie (hoff ▸ hne)
    rw [if_neg hne, if_neg (hoff ▸ hne), hs, ht] at hchildren
    obtain rfl : children = children' := Option.some.inj hchildren
    obtain ⟨result, hresult⟩ := bookmarkList_succ hload id off withStat callback children
    rw [hs, ht, hresult, hresult]
    cases result with
    | error fault =>
      exact ⟨rfl, by simp [DirState.listView],
        ⟨rfl, fun _ => ⟨_, rfl⟩⟩, by simp [DirState.checkView, hs]⟩
    | ok reply => exact ⟨rfl, rfl, ⟨rfl, fun _ => ⟨_, rfl⟩⟩, by rw [DirState.checkView,
        DirState.checkView, hs]⟩

/-- The converse for `bookmark_check()` -/
theorem check_run {call : DirCall} (hcall : call.isList = false) (hs : s.Kept ctx) (ht : t.Kept ctx)
    (hview : s.checkView = t.checkView) :
    (call.run tb env id s).1 = (call.run tb env id t).1 ∧
      (call.run tb env id s).2.checkView = (call.run tb env id t).2.checkView ∧
      (call.run tb env id s).2.Kept ctx ∧ (call.run tb env id s).2.listView = s.listView := by
  obtain ⟨sctx, scookie, soff⟩ := s
  obtain ⟨tctx, tcookie, toff⟩ := t
  obtain ⟨rfl, hscookie⟩ := hs
  obtain ⟨rfl, htcookie⟩ := ht
  have hrun : ∀ callback, ∃ (result : Except Fault (Except Errno (ℤ × ℕ × List FsckReport)))
      (children : Children), ∀ cookie ∈ [scookie, tcookie],
        bookmarkCheck tb tctx env id callback cookie = match result with
          | .error fault => .error fault
          | .ok (.error err) => .ok ((.error err, cookie), tctx)
          | .ok (.ok (status, next, reports)) => .ok ((.ok (status, reports),
              some ⟨(cookie.map (·.children)).getD children, next⟩), tctx) := by
    intro callback
    obtain ⟨result, children, hresult⟩ :=
      bookmarkCheck_idx hload id callback ((scookie.map (·.idx)).getD 0)
    refine ⟨result, children, fun cookie hcookie => hresult cookie ?_⟩
    simp only [List.mem_cons, List.not_mem_nil, or_false] at hcookie
    obtain rfl | rfl := hcookie
    · rfl
    · exact hview.symm
  have hchildren : ∀ children next, DirState.listView (w := w)
      ⟨tctx, some ⟨(scookie.map (·.children)).getD children, next⟩, soff⟩ =
        DirState.listView ⟨tctx, scookie, soff⟩ := by
    intro children next
    rw [DirState.listView, DirState.listView]
    by_cases h : soff = 0
    · rw [if_pos h, if_pos h]
    · rw [if_neg h, if_neg h]
      obtain ⟨cookie, rfl⟩ := hscookie h
      rfl
  cases call with
  | list => cases hcall
  | next callback =>
    obtain ⟨result, children, hresult⟩ := hrun (some callback)
    simp only [DirCall.run, hresult scookie (by simp), hresult tcookie (by simp)]
    cases result with
    | error fault => exact ⟨rfl, hview, ⟨rfl, hscookie⟩, rfl⟩
    | ok result =>
      cases result with
      | error err => exact ⟨rfl, hview, ⟨rfl, hscookie⟩, rfl⟩
      | ok reply => exact ⟨rfl, rfl, ⟨rfl, fun _ => ⟨_, rfl⟩⟩, hchildren _ _⟩
  | rewind =>
    obtain ⟨result, children, hresult⟩ := hrun none
    simp only [DirCall.run, hresult scookie (by simp), hresult tcookie (by simp)]
    cases result with
    | error fault => exact ⟨rfl, hview, ⟨rfl, hscookie⟩, rfl⟩
    | ok result =>
      cases result with
      | error err => exact ⟨rfl, hview, ⟨rfl, hscookie⟩, rfl⟩
      | ok reply => exact ⟨rfl, rfl, ⟨rfl, fun _ => ⟨_, rfl⟩⟩, hchildren _ _⟩

theorem kept_run (call : DirCall) (hs : s.Kept ctx) : (call.run tb env id s).2.Kept ctx := by
  cases call with
  | list restart withStat callback =>
      exact (list_run hload id restart withStat callback hs hs rfl).2.2.1
  | next callback =>
      exact (check_run hload id (show (DirCall.next callback).isList = false from rfl)
      hs hs rfl).2.2.1
  | rewind => exact (check_run hload id (show DirCall.rewind.isList = false from rfl)
      hs hs rfl).2.2.1

theorem lists_separate : Apart (fun s call => DirCall.run tb env id s call) (DirState.Kept ctx)
    DirCall.isList DirState.listView where
  inv call hs := kept_run hload id call hs
  own {s t call} hmine hs ht hview := by
    cases call with
    | list restart withStat callback =>
      obtain ⟨hreply, hview, -⟩ := list_run hload id restart withStat callback hs ht hview
      exact ⟨hreply, hview⟩
    | next => cases hmine
    | rewind => cases hmine
  other hmine hs := (check_run hload id hmine hs hs rfl).2.2.2

theorem checks_separate : Apart (fun s call => DirCall.run tb env id s call) (DirState.Kept ctx)
    DirCall.isCheck DirState.checkView where
  inv call hs := kept_run hload id call hs
  own {s t call} hmine hs ht hview := by
    have hcall : call.isList = false := by simpa [DirCall.isCheck] using hmine
    obtain ⟨hreply, hview, -⟩ := check_run hload id hcall hs ht hview
    exact ⟨hreply, hview⟩
  other {s call} hmine hs := by
    cases call with
    | list restart withStat callback =>
        exact (list_run hload id restart withStat callback hs hs rfl).2.2.2
    | next => cases hmine
    | rewind => cases hmine

theorem listings_and_scans_undisturbed :
    Undisturbed (fun s call => DirCall.run tb env id s call) DirCall.isList (.opened ctx) ∧
      Undisturbed (fun s call => DirCall.run tb env id s call) DirCall.isCheck (.opened ctx) :=
  ⟨(lists_separate hload id).undisturbed ⟨rfl, fun h => absurd rfl h⟩,
    (checks_separate hload id).undisturbed ⟨rfl, fun h => absurd rfl h⟩⟩

end Separation

end BookmarkFS.Chromium
