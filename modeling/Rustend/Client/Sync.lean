import Rustend.Client.Repository

/-!
# Synchronisation

A sync pushes the pending revisions, records what became of each, then pulls the
objects that others changed and applies the updates one after the other.

## Main definitions

* `pushPending`, `pullUpdates`, `sync` — the functions of `sync.rs`.
* `Repository.sync` — a sync from the stored cursor.
-/

namespace Rustend

open Interleave

/-- What a sync reports. -/
structure SyncResult where
  pushed : ℕ
  pulled : ℕ
  conflicted : ℕ
  rejected : List RejectedRevision
  deriving DecidableEq

/-- What is left of a response: its body, if the status is a success. -/
def HttpResponse.json {α : Type} (resp : HttpResponse α) (failed : String) : Browser α :=
  if !resp.ok then .fail (.network (failed ++ toString resp.status))
  else
    match resp.body with
    | .ok a => pure a
    | .error msg => .fail (.network msg)

/-- `push_pending`: send what is pending, and record what has become of it. -/
def pushPending : Browser (ℕ × List RejectedRevision) := do
  let pending ← idb .getPendingRevisions
  if pending.isEmpty then return (0, [])
  else
    let revisions := pending.map (·.revision)
    let resp ← .perform (S := browser) (.postChanges ⟨revisions⟩)
    let pushResp ← resp.json "push failed: "
    .forEach (fun revId => idb (.markRevisionSynced revId)) pushResp.accepted
    .forEach (fun rejected => idb (.markRevisionError rejected.revisionId rejected.reason))
      pushResp.rejected
    return (pushResp.accepted.length, pushResp.rejected)

/-- A local head that a `Replace` neither delivers nor supersedes by a direct child. -/
def hasDiverged (existing : List HeadRecord) (heads : List Revision) : Bool :=
  existing.any fun h =>
    decide (h.revisionId ∉ heads.map (·.id)) && decide (h.revisionId ∉ heads.flatMap (·.parents))

/-- Apply one object update, and say whether it counts as conflicted. -/
def applyUpdate (update : ObjectUpdate) : Browser Bool := do
  .forEach (fun rev => idb (.putRevision (.fromRevision rev .synced))) update.heads
  match update.action with
  | .replace =>
      let existing ← idb (.getHeads update.objectId)
      if hasDiverged existing update.heads then
        idb (.addHeads update.heads)
        return true
      else
        idb (.replaceHeads update.objectId update.heads)
        return false
  | .conflict =>
      idb (.addHeads update.heads)
      return true

/-- The loop over the updates, with the counts of heads and of conflicts so far. -/
def applyUpdates : List ObjectUpdate → ℕ × ℕ → Browser (ℕ × ℕ)
  | [], counts => pure counts
  | update :: updates, (pulled, conflicted) => do
      let conflict ← applyUpdate update
      applyUpdates updates
        (pulled + update.heads.length, if conflict then conflicted + 1 else conflicted)

/-- `pull_updates`: fetch what has changed, apply it, and then move the cursor. -/
def pullUpdates (pullParams : PullRequest) : Browser (ℕ × ℕ) := do
  let resp ← .perform (S := browser) (.postChangesQuery pullParams)
  let pullResp ← resp.json "pull failed: "
  let counts ← applyUpdates pullResp.objectUpdates (0, 0)
  let (clientId, userId, _) ← idb .readSyncState
  match clientId, userId with
  | some cid, some uid => idb (.writeSyncState cid uid (some pullResp.upToTransaction))
  | _, _ => pure ()
  return counts

/-- `sync`. -/
def sync (pullParams : PullRequest) : Browser SyncResult := do
  let (pushed, rejected) ← pushPending
  let (pulled, conflicted) ← pullUpdates pullParams
  return ⟨pushed, pulled, conflicted, rejected⟩

/-- `Repository::sync`: without a cursor of its own, the stored one is used. -/
def Repository.sync (pullParams : PullRequest) : Browser SyncResult :=
  match pullParams.since with
  | none => do
      let (_, _, lastTxn) ← idb .readSyncState
      Rustend.sync { pullParams with since := lastTxn }
  | some _ => Rustend.sync pullParams

end Rustend
