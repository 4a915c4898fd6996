import Rustend.Server.Push
import Mathlib.Data.List.Infix

/-!
# Pulling changes

`fetch_object_updates`, the filters it applies, and the handlers that read: five
queries, joined by hand.  The heads of an object are taken out of the map of
revision rows as they are used, and an object is returned with all of its heads as
soon as one of them passes the filters.

## Main definitions

* `evaluateCondition`, `applyContentFilter`, `applyCreatedAtFilters` — the filters.
* `headPasses` — the three filters on one head.
* `assembleUpdates` — the loop over the changed objects.
* `fetchObjectUpdates`, `pullChanges`, `getObject`.
-/

namespace Rustend

open Interleave

/-! ### Filters -/

/-- `resolve_path`: follow the keys between the dots. -/
def resolvePath (data : Json) (path : String) : Option Json :=
  ((stripRoot path.toList).splitOn '.').foldl
    (fun current key => current.bind (·.get (String.ofList key))) (some data)

/-- `compare`: two numbers by their doubles, two strings by their characters. -/
def compare : Json → Json → Option ℤ
  | .number x, .number y =>
      some (if x.asF64 < y.asF64 then -1 else if x.asF64 = y.asF64 then 0 else 1)
  | .string x, .string y => some (if x < y then -1 else if x = y then 0 else 1)
  | _, _ => none

/-- `json_contains`: an element of an array, or a part of a string. -/
def jsonContains (data needle : Json) : Bool :=
  match data with
  | .array arr => decide (needle ∈ arr)
  | .string s => (needle.asStr.map fun n => decide (n.toList <:+: s.toList)).getD false
  | _ => false

/-- `evaluate_condition`. -/
def evaluateCondition (data : Json) (cond : FilterCondition) : Bool :=
  let value := resolvePath data cond.path
  match cond.operator with
  | .exists => value.isSome
  | .isNull => (value.map fun v => decide (v = .null)).getD false
  | .eq v => (value.map fun d => decide (d = v)).getD false
  | .ne v => (value.map fun d => decide (d ≠ v)).getD true
  | .gt v => ((value.bind fun d => compare d v).map fun o => decide (o > 0)).getD false
  | .gte v => ((value.bind fun d => compare d v).map fun o => decide (o ≥ 0)).getD false
  | .lt v => ((value.bind fun d => compare d v).map fun o => decide (o < 0)).getD false
  | .lte v => ((value.bind fun d => compare d v).map fun o => decide (o ≤ 0)).getD false
  | .contains v => (value.map fun d => jsonContains d v).getD false
  | .startsWith s =>
      ((value.bind (·.asStr)).map fun s2 => s.toList.isPrefixOf s2.toList).getD false

/-- `apply_content_filter`: some group holds as a whole. -/
def applyContentFilter (data : Json) (filter : List (List FilterCondition)) : Bool :=
  filter.any fun andGroup => andGroup.all fun cond => evaluateCondition data cond

/-- `apply_created_at_filters`: every bound holds. -/
def applyCreatedAtFilters (createdAt : DateTime) (filters : List CreatedAtFilter) : Bool :=
  filters.all fun
    | .gt t => decide (createdAt > t)
    | .gte t => decide (createdAt ≥ t)
    | .lt t => decide (createdAt < t)
    | .lte t => decide (createdAt ≤ t)

/-- The three filters of a pull on one head. -/
def headPasses (objectTypes : Option (List String))
    (createdAtFilters : Option (List CreatedAtFilter))
    (contentFilter : Option (List (List FilterCondition))) (row : RevisionRow) : Bool :=
  (match objectTypes with
    | some types => decide (row.objectType ∈ types)
    | none => true) &&
  (match createdAtFilters with
    | some filters => applyCreatedAtFilters row.createdAt filters
    | none => true) &&
  (match row.data, contentFilter with
    | some data, some f => applyContentFilter data f
    | none, some _ => true
    | _, _ => true)

/-! ### Maps built from rows -/

/-- `map.entry(key).or_default().push(value)`, for each row in order. -/
def groupRows {α κ ν : Type} [DecidableEq κ] (key : α → κ) (value : α → ν) (rows : List α) :
    κ → Option (List ν) :=
  rows.foldl (fun m row => Function.update m (key row)
    (some ((m (key row)).getD [] ++ [value row])))
    fun _ => none

/-- The map from ids to revision rows. -/
def rowsMap (rows : List RevisionRow) : RevisionId → Option RevisionRow :=
  rows.foldl (fun m row => Function.update m row.id (some row)) fun _ => none

/-! ### Reading revisions back -/

/-- `row_to_revision_sync`. -/
def rowToRevisionSync (row : RevisionRow) (parents : List RevisionId) : Revision where
  id := row.id
  objectId := row.objectId
  objectType := row.objectType
  lineage :=
    match parents with
    | [] => .root
    | [p] => .update p
    | a :: b :: rest => .merge a b rest
  createdAt := row.createdAt
  createdBy := row.createdBy
  content := if row.deleted then .deleted else .active (row.data.getD .null)

/-- `get_revision_rows_by_ids`. -/
def getRevisionRowsByIds (ids : List RevisionId) : Sql (List RevisionRow) :=
  .perform (S := sql) (.selectRevisionRows ids)

/-- `get_parents`. -/
def getParents (id : RevisionId) : Sql (List RevisionId) := .perform (S := sql) (.selectParents id)

/-- `get_parents_batch`: the parents of many revisions, as a map. -/
def getParentsBatch (ids : List RevisionId) : Sql (RevisionId → Option (List RevisionId)) :=
  if ids.isEmpty then pure fun _ => none
  else do
    let rows ← .perform (S := sql) (.selectParentsBatch ids)
    return groupRows (·.revisionId) (·.parentId) rows

/-! ### Assembling the updates -/

/-- The state of the loop over the changed objects: the revision rows not used yet,
and the updates so far. -/
structure Assembly where
  rowsById : RevisionId → Option RevisionRow
  updates : List ObjectUpdate

/-- The state of the loop over the heads of one object. -/
structure HeadLoop where
  rowsById : RevisionId → Option RevisionRow
  headRevisions : List Revision
  passesFilter : Bool

/-- One head: its row is taken out of the map. -/
def takeHead (passes : RevisionRow → Bool) (parents : RevisionId → Option (List RevisionId))
    (st : HeadLoop) (headId : RevisionId) : HeadLoop :=
  match st.rowsById headId with
  | none => st
  | some row =>
      { rowsById := Function.update st.rowsById headId none
        headRevisions := st.headRevisions ++ [rowToRevisionSync row ((parents row.id).getD [])]
        passesFilter := st.passesFilter || passes row }

/-- `Replace` for a single head, `Conflict` otherwise. -/
def headAction (heads : List Revision) : HeadAction :=
  if heads.length = 1 then .replace else .conflict

/-- One changed object. -/
def takeObject (passes : RevisionRow → Bool) (parents : RevisionId → Option (List RevisionId))
    (headsByObject : ObjectId → Option (List RevisionId)) (st : Assembly) (objectId : ObjectId) :
    Assembly :=
  match headsByObject objectId with
  | none => st
  | some headIds =>
      let loop := headIds.foldl (takeHead passes parents) ⟨st.rowsById, [], false⟩
      if !loop.passesFilter || loop.headRevisions.isEmpty then
        { st with rowsById := loop.rowsById }
      else
        { rowsById := loop.rowsById
          updates := st.updates ++
            [⟨objectId, headAction loop.headRevisions, loop.headRevisions⟩] }

/-- The loop over the changed objects. -/
def assembleUpdates (passes : RevisionRow → Bool) (changedObjects : List ObjectId)
    (headRows : List HeadRow) (revisionRows : List RevisionRow)
    (parents : RevisionId → Option (List RevisionId)) : List ObjectUpdate :=
  (changedObjects.foldl (takeObject passes parents
    (groupRows (·.objectId) (·.revisionId) headRows)) ⟨rowsMap revisionRows, []⟩).updates

/-! ### The calls -/

/-- `as i64`. -/
def asI64 (n : ℕ) : ℤ := Int.bmod n (2 ^ 64)

/-- `fetch_object_updates`: the objects with changes in the window, with their heads. -/
def fetchObjectUpdates (client : ClientId) (since : Option TransactionId) (upTo : TransactionId)
    (objectTypes : Option (List String)) (createdAtFilters : Option (List CreatedAtFilter))
    (contentFilter : Option (List (List FilterCondition))) : Sql (List ObjectUpdate) :=
  let sinceId : ℤ := (since.map fun t => asI64 t.val).getD 0
  if i64Max < upTo.val then
    .fail (.database (.protocol "up_to transaction ID out of range"))
  else do
    let changedObjects ← .perform (S := sql) (.selectChangedObjects sinceId upTo.val client)
    if changedObjects.isEmpty then return []
    else
      let headRows ← .perform (S := sql) (.selectHeadsOfObjects changedObjects)
      let allHeadIds := headRows.map (·.revisionId)
      let revisionRows ← getRevisionRowsByIds allHeadIds
      let parents ← getParentsBatch allHeadIds
      return assembleUpdates (headPasses objectTypes createdAtFilters contentFilter)
        changedObjects headRows revisionRows parents

/-- `latest_transaction_id`. -/
def latestTransactionId : Sql TransactionId := do
  let maxId ← .perform (S := sql) .selectMaxTransactionId
  return ⟨maxId⟩

/-- `pull_changes`. -/
def pullChanges (client : ClientId) (req : PullRequest) : Sql PullResponse :=
  if (req.since.map fun since => decide (i64Max < since.val)).getD false then
    .fail (.malformedData "since transaction ID out of range")
  else do
    let upTo ← latestTransactionId
    let objectUpdates ←
      fetchObjectUpdates client req.since upTo req.objectTypes req.createdAt req.filter
    return ⟨upTo, objectUpdates⟩

/-- `get_object`. -/
def getObject (objectId : ObjectId) : Sql ObjectUpdate := do
  let headIds ← inTransaction (.perform (S := sql) (.selectHeads objectId))
  if headIds.isEmpty then .fail .notFound
  else
    let revisionRows ← getRevisionRowsByIds headIds
    let parents ← getParentsBatch (revisionRows.map (·.id))
    let heads := revisionRows.map fun row => rowToRevisionSync row ((parents row.id).getD [])
    return ⟨objectId, headAction heads, heads⟩

end Rustend
