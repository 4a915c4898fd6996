import Rustend.Client.Idb

/-!
# The repository

The calls of an application that change an object: `save`, `update`, `delete` and
`resolve_conflict`.  Each of them puts a new revision into the `revisions` store and
makes it the head of its object, in two transactions, after the heads of the object
have been read in a transaction of its own.

What a call draws at random, and the time it reads, are arguments; so is what
`serde_json::to_value` makes of the value that the application passes.

## Main definitions

* `Repository`, `Draw`, `VersionContent`.
* `save`, `update`, `delete`, `resolveConflict`.
* `Call` — the calls as data.
* `Call.CreatesFrom` — what a call creates, given the heads it has read.

## Main results

* `Call.shape` — **a call reads the heads of its object at most, and then writes or gives
  up.**
-/

namespace Rustend

open Interleave

/-- An opened repository, with the identity under which it writes. -/
structure Repository where
  clientId : ClientId
  userId : UserId
  deriving DecidableEq

/-- The ids a call draws, and the time it reads. -/
structure Draw where
  objectId : ObjectId
  revisionId : RevisionId
  createdAt : DateTime
  deriving DecidableEq

/-- A resolved version, as the application passes it. -/
inductive VersionContent (T : Type) where
  | active (v : T)
  | deleted
  deriving DecidableEq

/-- `serde_json::to_value(value)?`. -/
def toValue : Except String Json → Browser Json
  | .ok v => pure v
  | .error msg => .fail (.serialisation msg)

/-- `check_parents_are_heads`. -/
def checkParentsAreHeads (heads : List HeadRecord) (parents : List RevisionId) : Browser Unit :=
  if parents.all fun p => decide (p ∈ heads.map (·.revisionId)) then pure ()
  else .fail .staleParent

/-- The type of the object, from its first head. -/
def objectTypeOf (heads : List HeadRecord) : Browser String :=
  match heads.head? with
  | some head => pure head.objectType
  | none => .fail .notCached

/-- The content of a resolved version. -/
def resolvedContent : VersionContent (Except String Json) → Browser Content
  | .active v => do return .active (← toValue v)
  | .deleted => pure .deleted

/-- Put a new revision, and make it the head of its object. -/
def writeRevision (rev : Revision) : Browser RevisionId := do
  idb (.putRevision (.fromRevision rev .pending))
  idb (.replaceHeads rev.objectId [rev])
  return rev.id

namespace Repository

variable (repo : Repository)

/-- `save`: the first revision of a new object. -/
def save (objectType : String) (value : Except String Json) (draw : Draw) :
    Browser (ObjectId × RevisionId) := do
  let data ← toValue value
  let revisionId ← writeRevision
    { id := draw.revisionId
      objectId := draw.objectId
      objectType := objectType
      lineage := .root
      createdAt := draw.createdAt
      createdBy := repo.clientId
      content := .active data }
  return (draw.objectId, revisionId)

/-- The part that `update` and `delete` share: a revision on top of the only head. -/
def edit (objectId : ObjectId) (parent : RevisionId) (content : Content) (draw : Draw) :
    Browser RevisionId := do
  let heads ← idb (.getHeads objectId)
  if heads.length > 1 then .fail .conflictExists
  else
    checkParentsAreHeads heads [parent]
    let objectType ← objectTypeOf heads
    writeRevision
      { id := draw.revisionId
        objectId := objectId
        objectType := objectType
        lineage := .update parent
        createdAt := draw.createdAt
        createdBy := repo.clientId
        content := content }

/-- `update`: a new value on top of a head. -/
def update (objectId : ObjectId) (parent : RevisionId) (value : Except String Json) (draw : Draw) :
    Browser RevisionId := do
  let data ← toValue value
  repo.edit objectId parent (.active data) draw

/-- `delete`: a tombstone on top of a head. -/
def delete (objectId : ObjectId) (parent : RevisionId) (draw : Draw) : Browser RevisionId :=
  repo.edit objectId parent .deleted draw

/-- `resolve_conflict`: a merge on top of two heads or more. -/
def resolveConflict (objectId : ObjectId) (parents : List RevisionId)
    (resolved : VersionContent (Except String Json)) (draw : Draw) : Browser RevisionId :=
  match parents with
  | a :: b :: rest => do
      let heads ← idb (.getHeads objectId)
      checkParentsAreHeads heads parents
      let objectType ← objectTypeOf heads
      let content ← resolvedContent resolved
      writeRevision
        { id := draw.revisionId
          objectId := objectId
          objectType := objectType
          lineage := .merge a b rest
          createdAt := draw.createdAt
          createdBy := repo.clientId
          content := content }
  | _ => .fail (.indexedDb "resolve_conflict requires at least 2 parent revisions")

end Repository

/-- A call that writes, with its arguments. -/
inductive Call where
  | save (objectType : String) (value : Except String Json)
  | update (objectId : ObjectId) (parent : RevisionId) (value : Except String Json)
  | delete (objectId : ObjectId) (parent : RevisionId)
  | resolveConflict (objectId : ObjectId) (parents : List RevisionId)
      (resolved : VersionContent (Except String Json))

/-- The program of a call; it answers the id of the revision it created. -/
def Call.program (repo : Repository) (draw : Draw) : Call → Browser RevisionId
  | .save objectType value => do return (← repo.save objectType value draw).2
  | .update objectId parent value => repo.update objectId parent value draw
  | .delete objectId parent => repo.delete objectId parent draw
  | .resolveConflict objectId parents resolved =>
      repo.resolveConflict objectId parents resolved draw

/-! ### The shape of a call -/

/-- The object a call writes. -/
def Call.objectId (draw : Draw) : Call → ObjectId
  | .save .. => draw.objectId
  | .update o _ _ => o
  | .delete o _ => o
  | .resolveConflict o _ _ => o

/-- The parents a call names. -/
def Call.parents : Call → List RevisionId
  | .save .. => []
  | .update _ p _ => [p]
  | .delete _ p => [p]
  | .resolveConflict _ ps _ => ps

/-- What a call creates, given the heads it has read. -/
structure Call.CreatesFrom (repo : Repository) (draw : Draw) (heads : List HeadRecord) (call : Call)
    (rev : Revision) : Prop where
  id : rev.id = draw.revisionId
  createdAt : rev.createdAt = draw.createdAt
  createdBy : rev.createdBy = repo.clientId
  objectId : rev.objectId = call.objectId draw
  parents : rev.parents = call.parents
  /-- The parents are among the heads. -/
  among : ∀ p ∈ call.parents, p ∈ heads.map (·.revisionId)
  /-- An edit is made on top of the only head. -/
  single : ∀ p, call.parents = [p] → heads.map (·.revisionId) = [p]

section Shape

variable {repo : Repository} {draw : Draw}

/-- Checking the parents, and then the type of the object, issues no request. -/
theorem checked_cases (heads : List HeadRecord) (parents : List RevisionId)
    (f : String → Browser RevisionId) :
    (∃ e, (do checkParentsAreHeads heads parents; f (← objectTypeOf heads)) = Program.fail e) ∨
      (∀ p ∈ parents, p ∈ heads.map (·.revisionId)) ∧ ∃ objectType,
        (do checkParentsAreHeads heads parents; f (← objectTypeOf heads)) = f objectType := by
  unfold checkParentsAreHeads objectTypeOf
  split
  · next h =>
    cases heads.head? with
    | none => exact .inl ⟨_, rfl⟩
    | some head =>
      refine .inr ⟨fun p hp => ?_, head.objectType, rfl⟩
      exact of_decide_eq_true (List.all_eq_true.mp h p hp)
  · exact .inl ⟨_, rfl⟩

theorem edit_shape (repo : Repository) (draw : Draw) (o : ObjectId) (p : RevisionId)
    (content : Content) :
    ∃ f, repo.edit o p content draw = idb (.getHeads o) >>= f ∧ ∀ heads,
      (∃ e, f heads = .fail e) ∨ ∃ rev, (rev.id = draw.revisionId ∧ rev.createdAt = draw.createdAt ∧
        rev.createdBy = repo.clientId ∧ rev.objectId = o ∧ rev.parents = [p] ∧
        heads.map (·.revisionId) = [p]) ∧ f heads = writeRevision rev := by
  refine ⟨_, rfl, fun heads => ?_⟩
  split
  · exact .inl ⟨_, rfl⟩
  · next hlen =>
    rcases checked_cases heads [p] fun objectType => writeRevision
      { id := draw.revisionId
        objectId := o
        objectType := objectType
        lineage := .update p
        createdAt := draw.createdAt
        createdBy := repo.clientId
        content := content } with hfail | ⟨hp, objectType, hwrite⟩
    · exact .inl hfail
    · -- at most one head, and the parent is among them
      have hone : heads.map (·.revisionId) = [p] := by
        have hmem := hp p (List.mem_singleton_self p)
        rcases heads with _ | ⟨a, _ | ⟨b, l⟩⟩
        · cases hmem
        · simp only [List.map_cons, List.map_nil, List.mem_singleton] at hmem ⊢
          rw [hmem]
        · simp at hlen
      exact .inr ⟨_, ⟨rfl, rfl, rfl, rfl, rfl, hone⟩, hwrite⟩

/-- A save reads no heads. -/
theorem save_shape (repo : Repository) (draw : Draw) (objectType : String)
    (value : Except String Json) :
    (∃ e, (Call.save objectType value).program repo draw = .fail e) ∨
      ∃ rev, (Call.save objectType value).CreatesFrom repo draw [] rev ∧
        (Call.save objectType value).program repo draw = writeRevision rev := by
  cases value with
  | error msg => exact .inl ⟨_, rfl⟩
  | ok data =>
    refine .inr ⟨{
      id := draw.revisionId
      objectId := draw.objectId
      objectType := objectType
      lineage := .root
      createdAt := draw.createdAt
      createdBy := repo.clientId
      content := .active data }, ⟨rfl, rfl, rfl, rfl, rfl, nofun, nofun⟩, ?_⟩
    exact (Program.bind_assoc (writeRevision _) (fun id => pure (draw.objectId, id))
      (fun x => pure x.2)).trans (Program.bind_pure _)

/-- **A call reads the heads of its object at most, and then writes or gives up.** -/
theorem Call.shape (call : Call) (repo : Repository) (draw : Draw) :
    (∃ e, call.program repo draw = .fail e) ∨
      (∃ rev, call.CreatesFrom repo draw [] rev ∧ call.program repo draw = writeRevision rev) ∨
      ∃ f, call.program repo draw = idb (.getHeads (call.objectId draw)) >>= f ∧ ∀ heads,
        (∃ e, f heads = .fail e) ∨
          ∃ rev, call.CreatesFrom repo draw heads rev ∧ f heads = writeRevision rev := by
  -- an edit is on top of the one parent that it names
  have hedit : ∀ {o : ObjectId} {p : RevisionId} {content : Content} {call : Call},
      call.objectId draw = o → call.parents = [p] → ∃ f, repo.edit o p content draw =
        idb (.getHeads o) >>= f ∧ ∀ heads, (∃ e, f heads = .fail e) ∨
          ∃ rev, call.CreatesFrom repo draw heads rev ∧ f heads = writeRevision rev := by
    intro o p content call ho hps
    obtain ⟨f, hf, hall⟩ := edit_shape repo draw o p content
    refine ⟨f, hf, fun heads => ?_⟩
    rcases hall heads with hfail | ⟨rev, ⟨hid, hat, hby, hobj, hpar, hone⟩, hwrite⟩
    · exact .inl hfail
    · refine .inr ⟨rev, ⟨hid, hat, hby, hobj.trans ho.symm, hpar.trans hps.symm, ?_, ?_⟩, hwrite⟩
      · intro q hq
        rwa [hone, ← hps]
      · intro q hq
        rw [hone, ← hps, hq]
  cases call with
  | save objectType value =>
    rcases save_shape repo draw objectType value with hfail | hwrite
    · exact .inl hfail
    · exact .inr (.inl hwrite)
  | update o p value =>
    cases value with
    | error msg => exact .inl ⟨_, rfl⟩
    | ok data => exact .inr (.inr (hedit rfl rfl))
  | delete o p => exact .inr (.inr (hedit rfl rfl))
  | resolveConflict o parents resolved =>
    match parents with
    | [] => exact .inl ⟨_, rfl⟩
    | [_] => exact .inl ⟨_, rfl⟩
    | a :: b :: rest =>
      refine .inr (.inr ⟨_, rfl, fun heads => ?_⟩)
      rcases checked_cases heads (a :: b :: rest) fun objectType => do
          writeRevision
            { id := draw.revisionId
              objectId := o
              objectType := objectType
              lineage := .merge a b rest
              createdAt := draw.createdAt
              createdBy := repo.clientId
              content := ← resolvedContent resolved } with hfail | ⟨hp, objectType, hwrite⟩
      · exact .inl hfail
      · have hcontent : (∃ e, resolvedContent resolved = .fail e) ∨
            ∃ content, resolvedContent resolved = pure content := by
          cases resolved with
          | deleted => exact .inr ⟨_, rfl⟩
          | active v =>
            cases v with
            | ok data => exact .inr ⟨_, rfl⟩
            | error msg => exact .inl ⟨_, rfl⟩
        rcases hcontent with ⟨e, he⟩ | ⟨content, hc⟩
        · refine .inl ⟨e, hwrite.trans ?_⟩
          rw [he]
          rfl
        · refine .inr ⟨{
            id := draw.revisionId
            objectId := o
            objectType := objectType
            lineage := .merge a b rest
            createdAt := draw.createdAt
            createdBy := repo.clientId
            content := content }, ⟨rfl, rfl, rfl, rfl, rfl, hp, nofun⟩, hwrite.trans ?_⟩
          rw [hc]
          rfl

end Shape

end Rustend
