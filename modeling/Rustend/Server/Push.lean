import Rustend.Server.Database

/-!
# Pushing revisions

`push_revisions` and the database functions it calls, as programs over the SQL
statements.  The batch is checked entry by entry against the committed tables and
the entries accepted so far; what was accepted is then written in one transaction.

A transaction that is dropped on an early return is rolled back: `inTransaction`
issues the `ROLLBACK` that dropping it causes.

## Main definitions

* `insertRevision`, `updateHeads`, `createTransaction` — the writes.
* `checkRevision`, `validate` — the checks.
* `pushRevisions` — the whole call.
-/

namespace Rustend

open Interleave

/-! ### Revisions -/

/-- The columns `deleted` and `data` of a content. -/
def Content.columns : Content → Bool × Option Json
  | .active v => (false, some v)
  | .deleted => (true, none)

/-- The row of `revisions` that `insert_revision` binds. -/
def Revision.row (rev : Revision) : RevisionRow where
  id := rev.id
  objectId := rev.objectId
  objectType := rev.objectType
  deleted := rev.content.columns.1
  data := rev.content.columns.2
  createdAt := rev.createdAt
  createdBy := rev.createdBy

/-- `pos as i16`. -/
def asI16 (pos : ℕ) : ℤ := Int.bmod pos (2 ^ 16)

/-- The rows of `revision_parents` that `insert_revision` binds. -/
def Revision.parentRows (rev : Revision) : List ParentRow :=
  rev.parents.zipIdx.map fun x => ⟨rev.id, x.1, asI16 x.2⟩

/-- `revision_exists`. -/
def revisionExists (id : RevisionId) : Sql Bool := .perform (S := sql) (.selectRevisionExists id)

/-- `get_revision_object_id`. -/
def getRevisionObjectId (id : RevisionId) : Sql (Option ObjectId) :=
  .perform (S := sql) (.selectRevisionObjectId id)

/-- `insert_revision`: the row, and one row for each parent. -/
def insertRevision (rev : Revision) : Sql Unit := do
  .perform (S := sql) (.insertRevision rev.row)
  .forEach (fun row => .perform (S := sql) (.insertRevisionParent row)) rev.parentRows

/-! ### Heads and transactions -/

/-- `update_heads`: the parents are no longer heads, and the revision is one. -/
def updateHeads (objectId : ObjectId) (parentIds : List RevisionId)
    (newRevisionId : RevisionId) : Sql Unit := do
  if !parentIds.isEmpty then
    .perform (S := sql) (.deleteHeads objectId parentIds)
  .perform (S := sql) (.insertHead ⟨objectId, newRevisionId⟩)

/-- `create_transaction`: a new id, and the list of its revisions. -/
def createTransaction (client : ClientId) (revisionIds : List RevisionId) :
    Sql TransactionId := do
  let txnId ← .perform (S := sql) (.insertTransaction client)
  .forEach (fun id => .perform (S := sql) (.insertTransactionRevision ⟨txnId, id⟩)) revisionIds
  return ⟨txnId⟩

/-- Run `body` in a transaction: commit it when the body succeeds, roll it back
when it returns early. -/
def inTransaction {α : Type} (body : Sql α) : Sql α := do
  .perform (S := sql) .begin
  let a ← body.orElse (.perform (S := sql) .rollback)
  .perform (S := sql) .commit
  return a

/-! ### Checking a batch -/

/-- What `push_revisions` collects while it checks the batch. -/
structure PushState where
  accepted : List RevisionId := []
  rejected : List RejectedRevision := []
  acceptedIds : List RevisionId := []
  acceptedObjects : RevisionId → Option ObjectId := fun _ => none

/-- The state after rejecting an entry. -/
def PushState.reject (st : PushState) (rev : Revision) (reason : RejectionReason) : PushState :=
  { st with rejected := st.rejected ++ [⟨rev.id, reason⟩] }

/-- The state after accepting an entry. -/
def PushState.accept (st : PushState) (rev : Revision) : PushState :=
  { st with
    accepted := st.accepted ++ [rev.id]
    acceptedIds := rev.id :: st.acceptedIds
    acceptedObjects := Function.update st.acceptedObjects rev.id (some rev.objectId) }

/-- The object of a parent: of an entry accepted earlier in the batch, or else of a
stored revision. -/
def parentObjectId (st : PushState) (parent : RevisionId) : Sql (Option ObjectId) :=
  match st.acceptedObjects parent with
  | some oid => pure (some oid)
  | none => getRevisionObjectId parent

/-- The loop over the parents of an entry: the reason to reject it, if there is one. -/
def checkParents (st : PushState) (rev : Revision) :
    List RevisionId → Sql (Option RejectionReason)
  | [] => pure none
  | parent :: rest => do
      match ← parentObjectId st parent with
      | none => return some .unknownParent
      | some oid =>
          if oid ≠ rev.objectId then return some .malformedData
          else checkParents st rev rest

/-- The checks of one entry of the batch. -/
def checkRevision (client : ClientId) (st : PushState) (rev : Revision) :
    Sql (Option RejectionReason) :=
  if rev.createdBy ≠ client then pure (some .malformedData)
  else do
    if ← revisionExists rev.id then return some .duplicateRevisionId
    else if rev.parents.dedup.length ≠ rev.parents.length then return some .malformedData
    else checkParents st rev rev.parents

/-- The loop over the batch. -/
def validate (client : ClientId) : PushState → List Revision → Sql PushState
  | st, [] => pure st
  | st, rev :: revisions => do
      match ← checkRevision client st rev with
      | some reason => validate client (st.reject rev reason) revisions
      | none => validate client (st.accept rev) revisions

/-! ### The call -/

/-- Write revisions in order: each with its parents, then the heads it changes. -/
def writeRevisions (revisions : List Revision) : Sql Unit :=
  .forEach (fun rev => do
    insertRevision rev
    updateHeads rev.objectId rev.parents rev.id) revisions

/-- `push_revisions`. -/
def pushRevisions (client : ClientId) (revisions : List Revision) : Sql PushResponse := do
  let st ← validate client {} revisions
  let acceptedRevisions := revisions.filter fun r => r.id ∈ st.acceptedIds
  if acceptedRevisions.isEmpty then
    return ⟨⟨0⟩, st.accepted, st.rejected⟩
  else
    let transactionId ← inTransaction do
      writeRevisions acceptedRevisions
      createTransaction client st.accepted
    return ⟨transactionId, st.accepted, st.rejected⟩

end Rustend
