import Rustend.Core.Revision

/-!
# The sync protocol

The requests and responses that travel between client and server, and the filter
language of a pull.

## Main definitions

* `CreatedAtFilter`, `FilterOperator`, `FilterCondition` — the filters.
* `PushRequest`, `PushResponse`, `RejectedRevision`, `RejectionReason` — a push.
* `PullRequest`, `PullResponse`, `ObjectUpdate`, `HeadAction` — a pull.
* `WhoAmIResponse` — who the client is.
-/

namespace Rustend

/-! ### Filters -/

/-- A bound on the creation time of a revision. -/
inductive CreatedAtFilter where
  | gt (t : DateTime)
  | gte (t : DateTime)
  | lt (t : DateTime)
  | lte (t : DateTime)
  deriving DecidableEq

/-- A test on the value found at a path. -/
inductive FilterOperator where
  | exists
  | isNull
  | eq (v : Json)
  | ne (v : Json)
  | gt (v : Json)
  | gte (v : Json)
  | lt (v : Json)
  | lte (v : Json)
  | contains (v : Json)
  | startsWith (s : String)
  deriving DecidableEq

/-- A test on the value at one path of the payload. -/
structure FilterCondition where
  path : String
  operator : FilterOperator
  deriving DecidableEq

/-! ### Push -/

/-- Why a revision was not accepted. -/
inductive RejectionReason where
  | duplicateRevisionId
  | unknownParent
  | malformedData
  deriving DecidableEq

/-- A revision that was not accepted. -/
structure RejectedRevision where
  revisionId : RevisionId
  reason : RejectionReason
  deriving DecidableEq

/-- The revisions that a client sends. -/
structure PushRequest where
  revisions : List Revision

/-- What has become of each revision of a push; the transaction is zero if none was
accepted. -/
structure PushResponse where
  transactionId : TransactionId
  accepted : List RevisionId
  rejected : List RejectedRevision
  deriving DecidableEq

/-! ### Pull -/

/-- What a client should do with the heads of an object. -/
inductive HeadAction where
  /-- There is a single head; it replaces what the client had. -/
  | replace
  /-- There are several concurrent heads. -/
  | conflict
  deriving DecidableEq

/-- A pull: what has changed after `since`, among the objects that pass the filters. -/
structure PullRequest where
  since : Option TransactionId
  objectTypes : Option (List String)
  createdAt : Option (List CreatedAtFilter)
  /-- Alternatives of conjunctions. -/
  filter : Option (List (List FilterCondition))

/-- The current heads of one object. -/
structure ObjectUpdate where
  objectId : ObjectId
  action : HeadAction
  heads : List Revision
  deriving DecidableEq

/-- The changed objects, and the transaction up to which they were looked for. -/
structure PullResponse where
  upToTransaction : TransactionId
  objectUpdates : List ObjectUpdate
  deriving DecidableEq

/-! ### Identity -/

/-- The answer to `GET /whoami`. -/
structure WhoAmIResponse where
  clientId : ClientId
  userId : UserId
  roles : List String
  deriving DecidableEq

end Rustend
