import Rustend.Lib.KeyedStore
import Rustend.Lib.Program
import Rustend.Core.Protocol
import Mathlib.Data.Char
import Mathlib.Data.List.Lex
import Mathlib.Data.Prod.Lex

/-!
# The client's database

The object stores of the client in IndexedDB.  A store hands out its records in the
order of their keys: a UUID is stored as its text, strings compare by their
characters, and an array key compares element by element.  A head is stored under
its object and its revision, so the heads of one object are a range of keys.

Each function of the `idb` modules is one IndexedDB transaction, and so one request
of a client program; the other requests are the two HTTP calls of a sync.

## Main definitions

* `Uuid.text` — a UUID as the stores see it.
* `RevisionRecord`, `HeadRecord`, `ClientDb` — the stores.
* `IdbOp`, `IdbOp.eval` — the transactions.
* `ClientOp`, `browser`, `Browser` — the requests of the client's programs.

## Main results

* `Uuid.text_injective`, `Uuid.nil_le_text`, `Uuid.text_le_max`.
* `mem_getHeadsInStore` — **the scan over a range of keys finds the heads of one
  object.**
-/

namespace Rustend

open Interleave

/-! ### UUIDs as text -/

/-- A lower-case hexadecimal digit. -/
def hexDigit (n : ℕ) : Char := if n < 10 then Char.ofNat (48 + n) else Char.ofNat (87 + n)

namespace Uuid

/-- The `k`-th of the 32 digits. -/
def digit (u : Uuid) (k : ℕ) : ℕ := u.bits.toNat / 16 ^ (31 - k) % 16

/-- The text of a UUID: 32 digits, with hyphens before some of them. -/
def text (u : Uuid) : List Char :=
  (List.range 32).flatMap fun k =>
    if k ∈ [8, 12, 16, 20] then ['-', hexDigit (u.digit k)] else [hexDigit (u.digit k)]

/-- The UUID whose bits are all zero. -/
def nil : Uuid := ⟨0⟩

/-- The UUID whose bits are all one. -/
def max : Uuid := ⟨BitVec.allOnes 128⟩

example : (⟨0x67e5504410b1426f9247bb680e5fe0c8⟩ : Uuid).text =
    "67e55044-10b1-426f-9247-bb680e5fe0c8".toList := by decide +kernel

end Uuid

theorem hexDigit_injective : ∀ m < 16, ∀ n < 16, hexDigit m = hexDigit n → m = n := by decide

theorem hexDigit_ne_hyphen : ∀ n < 16, hexDigit n ≠ '-' := by decide

theorem hexDigit_range : ∀ n < 16, hexDigit 0 ≤ hexDigit n ∧ hexDigit n ≤ hexDigit 15 := by decide

/-- A number is determined by its digits. -/
theorem mod_pow_eq_of_digits {a b : ℕ} : ∀ m, (∀ k < m, a / 16 ^ k % 16 = b / 16 ^ k % 16) →
    a % 16 ^ m = b % 16 ^ m
  | 0, _ => by simp [Nat.mod_one]
  | m + 1, h => by
    rw [Nat.mod_pow_succ, Nat.mod_pow_succ, h m (Nat.lt_succ_self m),
      mod_pow_eq_of_digits m fun k hk => h k (hk.trans (Nat.lt_succ_self m))]

namespace Uuid

theorem digit_lt (u : Uuid) (k : ℕ) : u.digit k < 16 := Nat.mod_lt _ (by decide)

theorem ext_digits {u v : Uuid} (h : ∀ k < 32, u.digit k = v.digit k) : u = v := by
  have hmod : u.bits.toNat % 16 ^ 32 = v.bits.toNat % 16 ^ 32 := by
    refine mod_pow_eq_of_digits 32 fun k hk => ?_
    have hd := h (31 - k) (by omega)
    rwa [digit, digit, show 31 - (31 - k) = k by omega] at hd
  have hlt : ∀ w : Uuid, w.bits.toNat < 16 ^ 32 := fun w => w.bits.isLt
  rw [Nat.mod_eq_of_lt (hlt u), Nat.mod_eq_of_lt (hlt v)] at hmod
  cases u
  cases v
  exact congrArg _ (BitVec.eq_of_toNat_eq hmod)

theorem text_filter (u : Uuid) : u.text.filter (· ≠ '-') =
    (List.range 32).map fun k => hexDigit (u.digit k) := by
  have hpiece : ∀ k, (if k ∈ [8, 12, 16, 20] then ['-', hexDigit (u.digit k)]
      else [hexDigit (u.digit k)]).filter (· ≠ '-') = [hexDigit (u.digit k)] := by
    intro k
    have hne := hexDigit_ne_hyphen _ (u.digit_lt k)
    split <;> simp [hne]
  rw [text, List.filter_flatMap]
  simp only [hpiece]
  rfl

/-- Different UUIDs have different texts. -/
theorem text_injective : Function.Injective text := by
  intro u v h
  have hfilter := congrArg (List.filter (· ≠ '-')) h
  rw [text_filter, text_filter] at hfilter
  refine ext_digits fun k hk => ?_
  have hk' := List.map_inj_left.mp hfilter k (List.mem_range.mpr hk)
  exact hexDigit_injective _ (u.digit_lt k) _ (v.digit_lt k) hk'

@[simp] theorem text_inj {u v : Uuid} : u.text = v.text ↔ u = v := text_injective.eq_iff

/-- Texts whose digits are in order are in order. -/
theorem text_le_text {u v : Uuid} (h : ∀ k, hexDigit (u.digit k) ≤ hexDigit (v.digit k)) :
    u.text ≤ v.text := by
  have hlex : ∀ {l l' : List Char}, List.Forall₂ (· ≤ ·) l l' → l ≤ l' := by
    intro l l' hl
    induction hl with
    | nil => exact le_rfl
    | cons hab _ ih =>
      rcases hab.lt_or_eq with hab | rfl
      · exact le_of_lt (.rel hab)
      · exact List.cons_le_cons _ ih
  have hall : ∀ ks : List ℕ, List.Forall₂ (· ≤ ·)
      (ks.flatMap fun k => if k ∈ [8, 12, 16, 20] then ['-', hexDigit (u.digit k)]
        else [hexDigit (u.digit k)])
      (ks.flatMap fun k => if k ∈ [8, 12, 16, 20] then ['-', hexDigit (v.digit k)]
        else [hexDigit (v.digit k)]) := by
    intro ks
    induction ks with
    | nil => exact .nil
    | cons k ks ih =>
      simp only [List.flatMap_cons]
      split
      · exact .cons le_rfl (.cons (h k) ih)
      · exact .cons (h k) ih
  exact hlex (hall _)

theorem nil_digit (k : ℕ) : nil.digit k = 0 := by simp [digit, nil]

/-- The text of the nil UUID is the least. -/
theorem nil_le_text (u : Uuid) : nil.text ≤ u.text :=
  text_le_text fun k => by
    rw [nil_digit]
    exact (hexDigit_range _ (u.digit_lt k)).1

/-- The text of the max UUID is the greatest. -/
theorem text_le_max (u : Uuid) : u.text ≤ max.text := by
  have hones : ∀ j < 32, (BitVec.allOnes 128).toNat / 16 ^ j % 16 = 15 := by decide +kernel
  have hmax : ∀ k, max.digit k = 15 := fun k => hones (31 - k) (by omega)
  refine text_le_text fun k => ?_
  rw [hmax]
  exact (hexDigit_range _ (u.digit_lt k)).2

end Uuid

/-! ### Records -/

/-- How far a local revision has come. -/
inductive SyncStatus where
  | pending
  | synced
  | syncError (reason : RejectionReason)
  deriving DecidableEq

/-- A record of the `revisions` store: a revision and its status. -/
structure RevisionRecord extends Revision where
  syncStatus : SyncStatus
  deriving DecidableEq

/-- `from_revision`. -/
def RevisionRecord.fromRevision (rev : Revision) (syncStatus : SyncStatus) : RevisionRecord :=
  ⟨rev, syncStatus⟩

/-- `revision`: the record without its status. -/
def RevisionRecord.revision (record : RevisionRecord) : Revision := record.toRevision

/-- A record of the `object_heads` store. -/
structure HeadRecord where
  objectId : ObjectId
  revisionId : RevisionId
  objectType : String
  content : Content
  lineage : Lineage
  data : Option Json
  deriving DecidableEq

/-- `head_record_from_revision`. -/
def headRecordFromRevision (objectId : ObjectId) (rev : Revision) : HeadRecord where
  objectId := objectId
  revisionId := rev.id
  objectType := rev.objectType
  content := rev.content
  lineage := rev.lineage
  data :=
    match rev.content with
    | .active v => some v
    | .deleted => none

/-- The record of the `sync_state` store. -/
structure SyncStateRecord where
  clientId : Option ClientId
  userId : Option UserId
  lastServerTxnId : Option TransactionId
  deriving DecidableEq

/-- The key of a revision. -/
def RevisionId.key (id : RevisionId) : List Char := id.uuid.text

/-- The key of a head: the array of its object and its revision. -/
def headKey (objectId : ObjectId) (revision : Uuid) : List Char ×ₗ List Char :=
  toLex (objectId.uuid.text, revision.text)

/-- The key path of `object_heads`. -/
def HeadRecord.key (head : HeadRecord) : List Char ×ₗ List Char :=
  headKey head.objectId head.revisionId.uuid

/-- The object stores, apart from that of the files. -/
structure ClientDb where
  revisions : KeyedStore fun record : RevisionRecord => record.id.key
  objectHeads : KeyedStore HeadRecord.key
  syncState : Option SyncStateRecord

theorem RevisionId.key_injective : Function.Injective RevisionId.key := by
  rintro ⟨u⟩ ⟨v⟩ h
  exact congrArg _ (Uuid.text_injective h)

@[simp] theorem RevisionId.key_inj {r s : RevisionId} : r.key = s.key ↔ r = s :=
  RevisionId.key_injective.eq_iff

@[simp] theorem headKey_inj {o o' : ObjectId} {r r' : Uuid} :
    headKey o r = headKey o' r' ↔ o = o' ∧ r = r' := by
  obtain ⟨u⟩ := o
  obtain ⟨u'⟩ := o'
  simp [headKey]

/-! ### Transactions -/

/-- `get_heads_in_store`: the scan from the nil to the max revision of the object. -/
def getHeadsInStore (store : KeyedStore HeadRecord.key) (objectId : ObjectId) : List HeadRecord :=
  store.between (headKey objectId Uuid.nil) (headKey objectId Uuid.max)

/-- The functions of the `idb` modules that the repository and the sync use. -/
inductive IdbOp where
  | putRevision (record : RevisionRecord)
  | getPendingRevisions
  | markRevisionSynced (revisionId : RevisionId)
  | markRevisionError (revisionId : RevisionId) (reason : RejectionReason)
  | replaceHeads (objectId : ObjectId) (heads : List Revision)
  | addHeads (heads : List Revision)
  | getHeads (objectId : ObjectId)
  | readSyncState
  | writeSyncState (clientId : ClientId) (userId : UserId) (lastTxn : Option TransactionId)
  deriving DecidableEq

/-- What a transaction answers. -/
abbrev IdbOp.Res : IdbOp → Type
  | .getPendingRevisions => List RevisionRecord
  | .getHeads _ => List HeadRecord
  | .readSyncState => Option ClientId × Option UserId × Option TransactionId
  | _ => Unit

/-- Set the status of a revision that is there. -/
def ClientDb.markRevision (db : ClientDb) (revisionId : RevisionId)
    (status : SyncStatus) : ClientDb :=
  match db.revisions.get? revisionId.key with
  | some record =>
      { db with revisions := db.revisions.put { record with syncStatus := status } }
  | none => db

/-- What a transaction answers, and the stores it leaves.  That `to_js` converts every value, and
that `from_js` gives it back, is the assumption `Carriage.faithful`.  Without it, an integer
beyond 2^53 - 1 is refused, and the `data` of a head with the payload `null` is read as absent. -/
def IdbOp.eval : (op : IdbOp) → ClientDb → op.Res × ClientDb
  | .putRevision record, db => ((), { db with revisions := db.revisions.put record })
  -- the index `by_sync_status` orders the records of one status by their primary key
  | .getPendingRevisions, db =>
      (db.revisions.records.filter fun record => record.syncStatus = .pending, db)
  | .markRevisionSynced id, db => ((), db.markRevision id .synced)
  | .markRevisionError id reason, db => ((), db.markRevision id (.syncError reason))
  | .replaceHeads o heads, db =>
      let existing := getHeadsInStore db.objectHeads o
      let cleared := db.objectHeads.deleteAll
        (existing.map fun head => headKey o head.revisionId.uuid)
      ((), { db with objectHeads := cleared.putAll (heads.map (headRecordFromRevision o)) })
  | .addHeads heads, db =>
      ((), { db with
        objectHeads :=
          db.objectHeads.putAll (heads.map fun rev => headRecordFromRevision rev.objectId rev) })
  | .getHeads o, db => (getHeadsInStore db.objectHeads o, db)
  | .readSyncState, db =>
      match db.syncState with
      | some record => ((record.clientId, record.userId, record.lastServerTxnId), db)
      | none => ((none, none, none), db)
  | .writeSyncState client user lastTxn, db =>
      ((), { db with syncState := some ⟨some client, some user, lastTxn⟩ })

/-- **The scan finds the heads of its object**, and nothing else. -/
@[simp] theorem mem_getHeadsInStore {store : KeyedStore HeadRecord.key} {o : ObjectId}
    {head : HeadRecord} : head ∈ getHeadsInStore store o ↔ head ∈ store ∧ head.objectId = o := by
  rw [getHeadsInStore, KeyedStore.mem_between]
  refine and_congr_right fun _ => ?_
  simp only [HeadRecord.key, headKey, Prod.Lex.toLex_le_toLex]
  constructor
  · rintro ⟨hlo, hhi⟩
    -- the object's text is neither above nor below the head's
    have heq : o.uuid.text = head.objectId.uuid.text := by
      rcases hlo with hlo | ⟨hlo, -⟩
      · rcases hhi with hhi | ⟨hhi, -⟩
        · exact absurd hhi (lt_asymm hlo)
        · exact hhi.symm
      · exact hlo
    obtain ⟨u⟩ := o
    exact congrArg ObjectId.mk (Uuid.text_injective heq.symm)
  · rintro rfl
    exact ⟨.inr ⟨rfl, Uuid.nil_le_text _⟩, .inr ⟨rfl, Uuid.text_le_max _⟩⟩

/-! ### Requests of the client -/

/-- The errors of the client. -/
inductive ClientError where
  | indexedDb (msg : String)
  | serialisation (msg : String)
  | network (msg : String)
  | unauthenticated (msg : String)
  | rejected (reason : RejectionReason)
  | notCached
  | staleParent
  | conflictExists
  deriving DecidableEq

/-- What a server answers to an HTTP request: the status, and the body as the client
parses it.  That a body is read as what was written is the assumption `Carriage.faithful`. -/
structure HttpResponse (α : Type) where
  status : ℕ
  body : Except String α

/-- `Response::ok`. -/
def HttpResponse.ok {α : Type} (resp : HttpResponse α) : Bool :=
  200 ≤ resp.status && resp.status ≤ 299

/-- An IndexedDB transaction, or a call to the server. -/
inductive ClientOp where
  | idb (op : IdbOp)
  /-- `POST /changes`. -/
  | postChanges (req : PushRequest)
  /-- `POST /changes/query`. -/
  | postChangesQuery (req : PullRequest)

/-- What a request answers. -/
abbrev ClientOp.Res : ClientOp → Type
  | .idb op => op.Res
  | .postChanges _ => HttpResponse PushResponse
  | .postChangesQuery _ => HttpResponse PullResponse

/-- The requests of the client's programs. -/
abbrev browser : Signature where
  Op := ClientOp
  Res := ClientOp.Res

/-- A function of the client. -/
abbrev Browser := Program browser ClientError

/-- One IndexedDB transaction. -/
def idb (op : IdbOp) : Browser op.Res := .perform (S := browser) (.idb op)

end Rustend
