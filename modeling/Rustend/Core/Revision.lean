import Rustend.Core.Json
import Mathlib.Data.List.Basic

/-!
# Identifiers and revisions

The shared data types of `rustend-core`: every identifier is a UUID under a name
of its own, and a revision is one immutable version of an object, with its parent
revisions in its lineage.

## Main definitions

* `Uuid`, `ObjectId`, `RevisionId`, `ClientId`, `UserId`, `TransactionId`.
* `Lineage`, `Lineage.parents` — the declared parents of a revision.
* `Content` — a payload or a tombstone.
* `Revision`.
-/

namespace Rustend

/-- A UUID, by its 128 bits. -/
structure Uuid where
  bits : BitVec 128
  deriving DecidableEq, Inhabited

/-- The id of an object, which all its versions share. -/
structure ObjectId where
  uuid : Uuid
  deriving DecidableEq, Inhabited

/-- The id of one version of an object. -/
structure RevisionId where
  uuid : Uuid
  deriving DecidableEq, Inhabited

/-- The id of a client, which is one device of a user. -/
structure ClientId where
  uuid : Uuid
  deriving DecidableEq, Inhabited

/-- The id of a user. -/
structure UserId where
  uuid : Uuid
  deriving DecidableEq, Inhabited

/-- A transaction id, a `u64`. -/
structure TransactionId where
  val : ℕ
  deriving DecidableEq, Inhabited

/-- A UTC time, in nanoseconds since the Unix epoch. -/
abbrev DateTime := ℤ

/-- How a revision came about. -/
inductive Lineage where
  /-- The first revision of an object. -/
  | root
  /-- An edit on top of one parent. -/
  | update (p : RevisionId)
  /-- A unification of two or more heads. -/
  | merge (a b : RevisionId) (rest : List RevisionId)
  deriving DecidableEq

/-- The declared parents, in order. -/
def Lineage.parents : Lineage → List RevisionId
  | .root => []
  | .update p => [p]
  | .merge a b rest => a :: b :: rest

@[simp] theorem Lineage.parents_root : Lineage.root.parents = [] := rfl

@[simp] theorem Lineage.parents_update (p : RevisionId) : (Lineage.update p).parents = [p] := rfl

@[simp] theorem Lineage.parents_merge (a b : RevisionId) (rest : List RevisionId) :
    (Lineage.merge a b rest).parents = a :: b :: rest := rfl

/-- What a revision says about its object. -/
inductive Content where
  /-- The object has this JSON value. -/
  | active (data : Json)
  /-- The object is deleted. -/
  | deleted
  deriving DecidableEq

/-- One immutable version of an object. -/
structure Revision where
  id : RevisionId
  objectId : ObjectId
  objectType : String
  lineage : Lineage
  createdAt : DateTime
  createdBy : ClientId
  content : Content
  deriving DecidableEq

/-- The declared parents of a revision. -/
abbrev Revision.parents (rev : Revision) : List RevisionId := rev.lineage.parents

end Rustend
