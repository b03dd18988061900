import BookmarkFS.Chromium.Replies
import BookmarkFS.Firefox.Replies

/-! # Creations and lookups

What a creation replies is kept by the kernel, as if a lookup had said so.
-/
namespace BookmarkFS
open Library

/-- The reply of a creation that succeeds, or finds that the name is taken, is that of the lookups
which follow: always in the store for Chromium; in that for Firefox where the name is taken, and
for a folder, unless it is hidden. -/
theorem create_replies {w : Hopscotch.WordSize} (digest : Bytes → Hopscotch.Word w) (name : CString)
    (isDir : Bool) :
    (∀ {s s' : Firefox.GuidDb} {ctx : Firefox.Ctx} {env : Firefox.Env} {byGuid : Bool}
      {random : ℕ → Bytes} {fuel : ℕ}
      {parentId id : ℤ} {type : Firefox.BookmarkType} {reply : Except Chromium.Errno Firefox.Stat},
      s.db.KeysUnique → (s.db.places.map (·.id)).Nodup → 0 ≤ parentId → env.now.Valid →
      type = .bookmark ∨ (type = .tag ∧ isDir = true ∧ parentId = ctx.tagsRootId) →
      (∃ stat, reply = .ok stat) ∨ reply = .error .exist →
      s.bookmarkCreate env ctx byGuid random fuel parentId name type isDir id = some (reply, s') →
      ((∃ stat, s.createStat ctx byGuid parentId name.val reply = some stat ∧
        ∀ validate, s'.LooksUp ctx byGuid parentId name.val type validate stat) ↔
          s.ReplyRight ctx byGuid parentId name.val isDir)) ∧
    ∀ {ctx ctx' : Chromium.Ctx w} {env : Chromium.Env} {parentId : ℕ}
    {reply : Except Chromium.Errno Chromium.Stat},
      env.WellFormed → ctx.Consistent (.real digest) →
      (∃ stat, reply = .ok stat) ∨ reply = .error .exist →
      Chromium.bookmarkCreate (.real digest) ctx env parentId name isDir = .ok (reply, ctx') →
      ∃ stat, Chromium.createStat (.real digest) ctx' parentId name reply = .ok (some stat) ∧
        ctx'.LooksUp (.real digest) parentId name stat :=
  ⟨fun hkeys hplaces hparent hnow htype hreply hrun =>
      Firefox.create_reply_iff hkeys hplaces hparent hnow htype hreply hrun,
    fun henv C hreply hrun => Chromium.create_looksUp (Chromium.Tables.real_faithful digest)
    henv C hreply hrun⟩

theorem zero_notMem_nameC : (0 : UInt8) ∉ [99] := by decide

def nameC : CString := ⟨[99], zero_notMem_nameC⟩

/-- A folder in a folder -/
theorem create_replies_folder :
    (∃ stat s', Firefox.foldered.bookmarkCreate ⟨⟨0, 0⟩, 0⟩ ⟨1, 9, false, true⟩ false
      (fun _ => List.replicate 12 67) 1
        3 nameC .bookmark true 0 = some (.ok stat, s') ∧
      ∀ validate, s'.LooksUp ⟨1, 9, false, true⟩ false 3 nameC.val .bookmark validate stat) ∧
    ∃ stat ctx', Chromium.bookmarkCreate Chromium.colliding (.created ⟨false, false, false⟩)
    Chromium.twoFolders 1 nameC
        true = .ok (.ok stat, ctx') ∧ ctx'.LooksUp Chromium.colliding 1 nameC stat := by
  obtain ⟨hfirefox, hchromium⟩ := create_replies (fun _ => (0 : Hopscotch.Word .w64)) nameC true
  constructor
  · have hcreate : (Firefox.foldered.bookmarkCreate ⟨⟨0, 0⟩, 0⟩ ⟨1, 9, false, true⟩ false
        (fun _ => List.replicate 12 67) 1 3 nameC .bookmark true 0).map (·.1) =
          some (.ok ⟨5, -1, some ⟨0, 0⟩, ⟨0, 0⟩⟩) := by
      decide +kernel
    obtain ⟨⟨reply, s'⟩, hrun, rfl⟩ := Option.map_eq_some_iff.mp hcreate
    obtain ⟨stat, hstat, hlooks⟩ :=
      (hfirefox (by unfold Firefox.Db.KeysUnique; decide +kernel) (by decide +kernel)
      (by decide) ⟨rfl, by decide, by decide⟩ (.inl rfl) (.inl ⟨_, rfl⟩) hrun).mpr
        (.inr ⟨rfl, by decide +kernel, by decide +kernel⟩)
    exact ⟨_, s', hrun, Option.some.inj hstat ▸ hlooks⟩
  · have hcreate : Yields (fun _ => False)
      (Chromium.bookmarkCreate Chromium.colliding (.created ⟨false, false, false⟩)
        Chromium.twoFolders 1 nameC true) fun r => r.1.toOption ≠ none := by decide +kernel
    obtain ⟨⟨reply, ctx'⟩, hrun, hreply⟩ := hcreate.exists_ok
    cases reply with
    | error err => exact absurd rfl hreply
    | ok stat =>
    have hwf : Chromium.twoFolders.WellFormed := Chromium.Env.written_wellFormed (by decide +kernel)
    have C : (Chromium.Ctx.created ⟨false, false, false⟩ :
      Chromium.Ctx .w64).Consistent Chromium.colliding :=
      ⟨nofun, fun h => absurd rfl h⟩
    obtain ⟨found, hfound, hlooks⟩ := hchromium hwf C (.inl ⟨stat, rfl⟩) hrun
    cases hfound
    exact ⟨stat, ctx', hrun, hlooks⟩

/-- A bookmark there has a size of 0 and no time of access at first; for lookups it has that of
"about:blank". -/
theorem create_reply_blank : Firefox.foldered.db.KeysUnique ∧
    (Firefox.foldered.db.places.map (·.id)).Nodup ∧
    ∃ stat s', Firefox.foldered.bookmarkCreate ⟨⟨0, 0⟩, 0⟩ ⟨1, 9, false, true⟩ false
    (fun _ => List.replicate 12 67) 1
        3 nameC .bookmark false 0 = some (.ok stat, s') ∧
      ¬∀ validate, s'.LooksUp ⟨1, 9, false, true⟩ false 3 nameC.val .bookmark validate stat := by
  refine ⟨by unfold Firefox.Db.KeysUnique; decide +kernel, by decide +kernel, ?_⟩
  have hcreate : (Firefox.foldered.bookmarkCreate ⟨⟨0, 0⟩, 0⟩ ⟨1, 9, false, true⟩ false
      (fun _ => List.replicate 12 67) 1 3 nameC .bookmark false 0).map (fun r =>
        (r.1, r.2.bookmarkDoLookup ⟨1, 9, false, true⟩ false 3 (some nameC.val) .bookmark true)) =
      some (.ok ⟨5, 0, none, ⟨0, 0⟩⟩, .ok ⟨5, 11, some ⟨0, 0⟩, ⟨0, 0⟩⟩) := by decide +kernel
  obtain ⟨⟨reply, s'⟩, hrun, heq⟩ := Option.map_eq_some_iff.mp hcreate
  obtain ⟨rfl, hfound⟩ := Prod.mk.inj heq
  refine ⟨_, s', hrun, fun hlooks => ?_⟩
  obtain ⟨found, hfound', hsame⟩ := (hlooks true).named
  rw [hfound] at hfound'
  cases hfound'
  cases hsame.valueLen

end BookmarkFS
