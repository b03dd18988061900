import BookmarkFS.Hopscotch.Table
import BookmarkFS.Hopscotch.Layout
import BookmarkFS.Hopscotch.Displacement
import BookmarkFS.Hopscotch.Operations
import BookmarkFS.Hopscotch.Crowding
import BookmarkFS.Hopscotch.Refinement
import BookmarkFS.Hopscotch.Replacement
import BookmarkFS.Chromium.Changes
import BookmarkFS.Chromium.Agreement
import BookmarkFS.Chromium.Written
import BookmarkFS.Chromium.Guarded
import BookmarkFS.Chromium.Fsck
import BookmarkFS.Chromium.GuidMode
import BookmarkFS.Firefox.Permutation
import BookmarkFS.Chromium.Sharing
import BookmarkFS.Firefox.Views
import BookmarkFS.Firefox.Sharing
import BookmarkFS.Firefox.Urls
import BookmarkFS.Firefox.Repairs
import BookmarkFS.Firefox.Values
import BookmarkFS.Firefox.KeywordRenames
import BookmarkFS.Firefox.Guids
import BookmarkFS.Firefox.GuidCounts
import BookmarkFS.Chromium.Failures
import BookmarkFS.Times
import BookmarkFS.Replies
import BookmarkFS.Frontend.OnlineFsck
import BookmarkFS.Frontend.Access
import BookmarkFS.Frontend.FileSize
import BookmarkFS.Fsck.Traversal
import BookmarkFS.Chromium.Scanning
import BookmarkFS.Chromium.Saving
import BookmarkFS.Chromium.GuidRenames
import BookmarkFS.Fsck.Resets
import BookmarkFS.Fsck.Dialogue
import BookmarkFS.Watcher
import BookmarkFS.Md5.Digest
import BookmarkFS.Dump
import BookmarkFS.Chromium.FreshGuids
import BookmarkFS.Firefox.UrlHash
import BookmarkFS.DumpFile
import BookmarkFS.Frontend.FileContents
import BookmarkFS.Fsck.OnlineTraversal
import BookmarkFS.Chromium.Reloading
import BookmarkFS.Chromium.TreeCheck
import BookmarkFS.Fsck.Mounted
import BookmarkFS.Fsck.AutoRepair
