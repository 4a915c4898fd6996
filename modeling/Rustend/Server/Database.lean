import Rustend.Lib.Interleaving
import Rustend.Core.Protocol
import Mathlib.Data.List.Dedup
import Mathlib.Data.List.Sort

/-!
# The server's database

The tables of the migrations, the statements the server issues, and PostgreSQL's
part in answering them.

A statement outside a transaction reads or writes the committed tables.  An open
transaction keeps its own `Writes`; its statements see the committed tables as
they are at that moment with its own writes on top (READ COMMITTED), and nobody
else sees the writes before the commit applies them.  An insert that meets an
uncommitted row with its key, or a delete that meets a row another transaction
has deleted, waits until that transaction has ended.  The sequence behind
`transactions.id` is advanced at once and never rolled back.

A statement fails when it violates a primary key, a foreign key or the check of
`revisions`, or when a value does not fit its column; and any statement may fail
for reasons outside the program.

## Main definitions

* `Tables`, `Writes`, `Tables.view` — committed rows and a transaction's view.
* `Stmt`, `sql` — the statements and the signature they make.
* `Conn`, `Stmt.eval` — one connection with nobody else around.
* `Db`, `postgres` — many sessions, as a `Machine`.
-/

namespace Rustend

open Interleave

/-! ### Rows -/

/-- A row of `revisions`. -/
structure RevisionRow where
  id : RevisionId
  objectId : ObjectId
  objectType : String
  deleted : Bool
  data : Option Json
  createdAt : DateTime
  createdBy : ClientId
  deriving DecidableEq

/-- A row of `revision_parents`; the position is a `SMALLINT`. -/
structure ParentRow where
  revisionId : RevisionId
  parentId : RevisionId
  position : ℤ
  deriving DecidableEq

/-- A row of `transactions`, without its time stamp. -/
structure TransactionRow where
  id : ℕ
  clientId : ClientId
  deriving DecidableEq

/-- A row of `transaction_revisions`. -/
structure TransactionRevisionRow where
  transactionId : ℕ
  revisionId : RevisionId
  deriving DecidableEq

/-- A row of `object_heads`. -/
structure HeadRow where
  objectId : ObjectId
  revisionId : RevisionId
  deriving DecidableEq

/-- The tables of the migrations that pushes and pulls use. -/
structure Tables where
  clients : List ClientId := []
  revisions : List RevisionRow := []
  revisionParents : List ParentRow := []
  transactions : List TransactionRow := []
  transactionRevisions : List TransactionRevisionRow := []
  objectHeads : List HeadRow := []

/-- The uncommitted changes of an open transaction. -/
structure Writes where
  revisions : List RevisionRow := []
  revisionParents : List ParentRow := []
  transactions : List TransactionRow := []
  transactionRevisions : List TransactionRevisionRow := []
  insertedHeads : List HeadRow := []
  deletedHeads : List HeadRow := []

/-- The tables as the transaction with the writes `w` sees them, and as its commit
leaves them. -/
def Tables.view (t : Tables) (w : Writes) : Tables where
  clients := t.clients
  revisions := t.revisions ++ w.revisions
  revisionParents := t.revisionParents ++ w.revisionParents
  transactions := t.transactions ++ w.transactions
  transactionRevisions := t.transactionRevisions ++ w.transactionRevisions
  objectHeads := t.objectHeads.filter (· ∉ w.deletedHeads) ++ w.insertedHeads

/-! ### Errors -/

/-- Why a statement failed. -/
inductive DbError where
  | uniqueViolation
  | foreignKeyViolation
  | checkViolation
  /-- The value does not fit the type of its column. -/
  | cannotStore
  /-- `nextval` has reached the end of the sequence. -/
  | sequenceExhausted
  | noTransaction
  /-- sqlx's protocol error, with its text. -/
  | protocol (msg : String)
  /-- A failure of the connection or of the database server. -/
  | connection
  deriving DecidableEq

/-- The errors of the server's handlers. -/
inductive ServerError where
  | database (e : DbError)
  | duplicateRevision
  | unknownParent (msg : String)
  | malformedData (msg : String)
  | notFound
  deriving DecidableEq

/-! ### Column types -/

/-- 2000-01-01, the epoch of PostgreSQL's time stamps. -/
def pgEpoch : DateTime := 946684800 * 1000000000

/-- A time in whole microseconds since 2000-01-01, as sqlx sends it. -/
def pgMicros (t : DateTime) : ℤ := (t - pgEpoch).tdiv 1000

/-- The time a `TIMESTAMPTZ` column gives back. -/
def storedTime (t : DateTime) : DateTime := pgEpoch + pgMicros t * 1000

/-- The values of `TIMESTAMPTZ`, from 4713 BC to 294276 AD. -/
def timeStorable (t : DateTime) : Bool :=
  decide (-211813488000000000 ≤ pgMicros t) && decide (pgMicros t < 9223371331200000000)

/-- Every value of the row fits its column: `TEXT` and `JSONB` cannot hold U+0000. -/
def RevisionRow.storable (row : RevisionRow) : Bool :=
  !Json.strHasNul row.objectType && !(row.data.elim false Json.hasNul) && timeStorable row.createdAt

/-- The check `active_has_data`. -/
def RevisionRow.activeHasData (row : RevisionRow) : Bool :=
  (!row.deleted && row.data.isSome) || (row.deleted && row.data.isNone)

/-- The row as the table keeps it. -/
def RevisionRow.stored (row : RevisionRow) : RevisionRow :=
  { row with createdAt := storedTime row.createdAt }

/-- The largest `BIGINT`. -/
def i64Max : ℕ := 2 ^ 63 - 1

/-! ### Statements -/

/-- The SQL statements the server issues. -/
inductive Stmt where
  /-- `INSERT INTO clients … ON CONFLICT (id) DO UPDATE`. -/
  | upsertClient (id : ClientId)
  /-- `SELECT 1 AS one FROM revisions WHERE id = $1`. -/
  | selectRevisionExists (id : RevisionId)
  /-- `SELECT object_id FROM revisions WHERE id = $1`. -/
  | selectRevisionObjectId (id : RevisionId)
  | begin
  | commit
  | rollback
  /-- `INSERT INTO revisions …`. -/
  | insertRevision (row : RevisionRow)
  /-- `INSERT INTO revision_parents …`. -/
  | insertRevisionParent (row : ParentRow)
  /-- `DELETE FROM object_heads WHERE object_id = $1 AND revision_id = ANY($2)`. -/
  | deleteHeads (objectId : ObjectId) (revisionIds : List RevisionId)
  /-- `INSERT INTO object_heads … ON CONFLICT DO NOTHING`. -/
  | insertHead (row : HeadRow)
  /-- `INSERT INTO transactions … RETURNING id`. -/
  | insertTransaction (clientId : ClientId)
  /-- `INSERT INTO transaction_revisions …`. -/
  | insertTransactionRevision (row : TransactionRevisionRow)
  /-- `SELECT COALESCE(MAX(id), 0) AS max_id FROM transactions`. -/
  | selectMaxTransactionId
  /-- The `SELECT DISTINCT r.object_id` over the transactions in a window. -/
  | selectChangedObjects (since upTo : ℤ) (clientId : ClientId)
  /-- `SELECT object_id, revision_id FROM object_heads WHERE object_id = ANY($1)`. -/
  | selectHeadsOfObjects (objectIds : List ObjectId)
  /-- `SELECT revision_id FROM object_heads WHERE object_id = $1`, in a transaction. -/
  | selectHeads (objectId : ObjectId)
  /-- `SELECT … FROM revisions WHERE id = ANY($1)`. -/
  | selectRevisionRows (ids : List RevisionId)
  /-- `SELECT parent_id FROM revision_parents WHERE revision_id = $1 ORDER BY position`. -/
  | selectParents (id : RevisionId)
  /-- `SELECT revision_id, parent_id FROM revision_parents
  WHERE revision_id = ANY($1) ORDER BY revision_id, position`. -/
  | selectParentsBatch (ids : List RevisionId)
  deriving DecidableEq

/-- What a statement answers. -/
abbrev Stmt.Res : Stmt → Type
  | .selectRevisionExists _ => Bool
  | .selectRevisionObjectId _ => Option ObjectId
  | .insertTransaction _ => ℕ
  | .selectMaxTransactionId => ℕ
  | .selectChangedObjects .. => List ObjectId
  | .selectHeadsOfObjects _ => List HeadRow
  | .selectHeads _ => List RevisionId
  | .selectRevisionRows _ => List RevisionRow
  | .selectParents _ => List RevisionId
  | .selectParentsBatch _ => List ParentRow
  | _ => Unit

/-- The statements as requests of a program. -/
abbrev sql : Signature where
  Op := Stmt
  Res := Stmt.Res

/-- A server function. -/
abbrev Sql := Program sql ServerError

/-! ### Queries -/

namespace Tables

/-- The object ids a pull window selects, each once. -/
def changedObjects (t : Tables) (since upTo : ℤ) (client : ClientId) : List ObjectId :=
  (t.revisions.flatMap fun r =>
    (t.transactionRevisions.filter fun tr => tr.revisionId = r.id).flatMap fun tr =>
      (t.transactions.filter fun x => x.id = tr.transactionId).filterMap fun x =>
        if since < x.id ∧ (x.id : ℤ) ≤ upTo ∧ r.createdBy ≠ client then some r.objectId
        else none).dedup

/-- The largest transaction id, zero if there is none. -/
def maxTransactionId (t : Tables) : ℕ := (t.transactions.map (·.id)).foldl max 0

/-- The parent rows of the given revisions, by revision and then by position. -/
def parentsBatch (t : Tables) (ids : List RevisionId) : List ParentRow :=
  (t.revisionParents.filter fun e => e.revisionId ∈ ids).insertionSort fun a b =>
    a.revisionId.uuid.bits < b.revisionId.uuid.bits ∨
      (a.revisionId = b.revisionId ∧ a.position ≤ b.position)

/-- The parents of one revision, by position. -/
def parentsOf (t : Tables) (id : RevisionId) : List RevisionId :=
  ((t.revisionParents.filter fun e => e.revisionId = id).insertionSort fun a b =>
    a.position ≤ b.position).map (·.parentId)

end Tables

/-! ### One connection -/

/-- The committed tables, the next value of the sequence, and the transaction open
on this connection. -/
structure Conn where
  tables : Tables
  nextval : ℕ
  tx : Option Writes

/-- A statement that writes within the open transaction. -/
def Conn.write (c : Conn) (f : Writes → Except DbError Writes) : Except ServerError Unit × Conn :=
  match c.tx with
  | none => (.error (.database .noTransaction), c)
  | some w =>
      match f w with
      | .ok w' => (.ok (), { c with tx := some w' })
      | .error e => (.error (.database e), c)

/-- `INSERT INTO revisions`. -/
def Tables.insertRevision (t : Tables) (row : RevisionRow) (w : Writes) : Except DbError Writes :=
  if !row.storable then .error .cannotStore
  else if !row.activeHasData then .error .checkViolation
  else if (t.view w).revisions.any (·.id = row.id) then .error .uniqueViolation
  else if row.createdBy ∉ t.clients then .error .foreignKeyViolation
  else .ok { w with revisions := w.revisions ++ [row.stored] }

/-- `INSERT INTO revision_parents`. -/
def Tables.insertRevisionParent (t : Tables) (row : ParentRow) (w : Writes) :
    Except DbError Writes :=
  let v := t.view w
  if v.revisionParents.any fun e => e.revisionId = row.revisionId ∧ e.parentId = row.parentId then
    .error .uniqueViolation
  else if !(v.revisions.any (·.id = row.revisionId)) ||
    !(v.revisions.any (·.id = row.parentId)) then
    .error .foreignKeyViolation
  else .ok { w with revisionParents := w.revisionParents ++ [row] }

/-- `DELETE FROM object_heads`. -/
def Tables.deleteHeads (t : Tables) (objectId : ObjectId) (revisionIds : List RevisionId)
    (w : Writes) : Writes :=
  { w with
    deletedHeads := w.deletedHeads ++
      t.objectHeads.filter fun h => h.objectId = objectId ∧ h.revisionId ∈ revisionIds
    insertedHeads :=
      w.insertedHeads.filter fun h => ¬(h.objectId = objectId ∧ h.revisionId ∈ revisionIds) }

/-- `INSERT INTO object_heads … ON CONFLICT DO NOTHING`. -/
def Tables.insertHead (t : Tables) (row : HeadRow) (w : Writes) : Except DbError Writes :=
  let v := t.view w
  if row ∈ v.objectHeads then .ok w
  else if !(v.revisions.any (·.id = row.revisionId)) then .error .foreignKeyViolation
  else .ok { w with insertedHeads := w.insertedHeads ++ [row] }

/-- `INSERT INTO transaction_revisions`. -/
def Tables.insertTransactionRevision (t : Tables) (row : TransactionRevisionRow) (w : Writes) :
    Except DbError Writes :=
  let v := t.view w
  if row ∈ v.transactionRevisions then .error .uniqueViolation
  else if !(v.transactions.any (·.id = row.transactionId)) ||
      !(v.revisions.any (·.id = row.revisionId)) then .error .foreignKeyViolation
  else .ok { w with transactionRevisions := w.transactionRevisions ++ [row] }

/-- `INSERT INTO transactions … RETURNING id`. -/
def Conn.insertTransaction (c : Conn) (client : ClientId) : Except ServerError ℕ × Conn :=
  match c.tx with
  | none => (.error (.database .noTransaction), c)
  | some w =>
      if i64Max < c.nextval then (.error (.database .sequenceExhausted), c)
      else if client ∉ c.tables.clients then
        (.error (.database .foreignKeyViolation), { c with nextval := c.nextval + 1 })
      else
        (.ok c.nextval,
          { c with
            nextval := c.nextval + 1
            tx := some { w with transactions := w.transactions ++ [⟨c.nextval, client⟩] } })

/-- What a statement answers on a connection, and what it leaves.  Rows are read with the values
that they hold: that each value of a JSONB column is decoded, and as what was inserted, is the
assumption `Carriage.faithful`. -/
def Stmt.eval : (op : Stmt) → Conn → Except ServerError op.Res × Conn
  | .upsertClient id, c =>
      if id ∈ c.tables.clients then (.ok (), c)
      else (.ok (), { c with tables := { c.tables with clients := c.tables.clients ++ [id] } })
  | .selectRevisionExists id, c => (.ok (c.tables.revisions.any (·.id = id)), c)
  | .selectRevisionObjectId id, c =>
      (.ok ((c.tables.revisions.find? (·.id = id)).map (·.objectId)), c)
  | .begin, c => (.ok (), { c with tx := some {} })
  | .commit, c =>
      match c.tx with
      | none => (.error (.database .noTransaction), c)
      | some w => (.ok (), { c with tables := c.tables.view w, tx := none })
  | .rollback, c => (.ok (), { c with tx := none })
  | .insertRevision row, c => c.write (c.tables.insertRevision row)
  | .insertRevisionParent row, c => c.write (c.tables.insertRevisionParent row)
  | .deleteHeads o ids, c => c.write fun w => .ok (c.tables.deleteHeads o ids w)
  | .insertHead row, c => c.write (c.tables.insertHead row)
  | .insertTransaction client, c => c.insertTransaction client
  | .insertTransactionRevision row, c => c.write (c.tables.insertTransactionRevision row)
  | .selectMaxTransactionId, c => (.ok c.tables.maxTransactionId, c)
  | .selectChangedObjects since upTo client,
    c => (.ok (c.tables.changedObjects since upTo client), c)
  | .selectHeadsOfObjects ids, c => (.ok (c.tables.objectHeads.filter (·.objectId ∈ ids)), c)
  | .selectHeads o, c =>
      match c.tx with
      | none => (.error (.database .noTransaction), c)
      | some w =>
          (.ok (((c.tables.view w).objectHeads.filter (·.objectId = o)).map (·.revisionId)), c)
  | .selectRevisionRows ids, c => (.ok (c.tables.revisions.filter (·.id ∈ ids)), c)
  | .selectParents id, c => (.ok (c.tables.parentsOf id), c)
  | .selectParentsBatch ids, c => (.ok (c.tables.parentsBatch ids), c)

/-! ### Many sessions -/

/-- The committed tables, the sequence, and the transaction each session has open;
sessions from `sessions` on have none. -/
structure Db where
  tables : Tables
  nextval : ℕ
  opened : ℕ → Option Writes
  sessions : ℕ

/-- A statement of another transaction has to wait for one with the writes `w`. -/
def Stmt.waitsFor (w : Writes) : Stmt → Bool
  | .insertRevision row => w.revisions.any (·.id = row.id)
  | .insertRevisionParent row =>
      w.revisionParents.any fun e => e.revisionId = row.revisionId ∧ e.parentId = row.parentId
  | .insertHead row => row ∈ w.insertedHeads
  | .insertTransactionRevision row => row ∈ w.transactionRevisions
  | .deleteHeads o ids => w.deletedHeads.any fun h => h.objectId = o ∧ h.revisionId ∈ ids
  | _ => false

/-- Session `i` has to wait before `op` can be answered. -/
def Db.waits (d : Db) (i : ℕ) (op : Stmt) : Bool :=
  (List.range d.sessions).any fun j => j ≠ i && (d.opened j).elim false (op.waitsFor ·)

/-- The database as session `i` finds it. -/
def Db.conn (d : Db) (i : ℕ) : Conn := ⟨d.tables, d.nextval, d.opened i⟩

/-- The database after session `i` left its connection as `c`. -/
def Db.withConn (d : Db) (i : ℕ) (c : Conn) : Db where
  tables := c.tables
  nextval := c.nextval
  opened := Function.update d.opened i c.tx
  sessions := max d.sessions (i + 1)

/-- How the answer to a statement comes out. -/
inductive Outcome where
  /-- The statement is executed. -/
  | proceed
  /-- The statement fails; a transaction it was to commit is rolled back. -/
  | fail
  /-- A statement that commits takes effect, but the session is told that it failed. -/
  | lost
  deriving DecidableEq

/-- The statement may change the committed tables: it is `COMMIT`, or writes outside of a
transaction. -/
def Stmt.commits : Stmt → Bool
  | .upsertClient _ | .commit => true
  | _ => false

/-- What a statement of session `i` does to the database, for each way its answer
can come out. -/
def Db.exec (d : Db) (i : ℕ) (op : Stmt) : Outcome → Option (Except ServerError op.Res × Db)
  | .proceed =>
      if d.waits i op then none
      else some ((op.eval (d.conn i)).1, d.withConn i (op.eval (d.conn i)).2)
  | .fail =>
      if op = .rollback ∨ op = .commit then
        some (.error (.database .connection), d.withConn i { d.conn i with tx := none })
      else some (.error (.database .connection), d)
  | .lost =>
      if op.commits then
        some (.error (.database .connection), d.withConn i (op.eval (d.conn i)).2)
      else none

/-- PostgreSQL, answering the statements of many sessions. -/
def postgres : Machine sql ServerError ℕ Outcome Db where
  exec i ch op d := d.exec i op ch

/-- The empty database. -/
def Db.empty : Db := ⟨{}, 1, fun _ => none, 0⟩

end Rustend
