import Rustend.Client.Sync
import Mathlib.Data.Set.Insert

/-!
# Client calls run alone

What the calls of the repository and a sync do to the object stores when nothing
comes in between and no transaction fails.  The server is whatever answers the two
HTTP requests.

## Main definitions

* `Net`, `answer` — the answers to the requests of a client that runs alone.
* `ClientDb.headsOf`, `ClientDb.pending` — the heads of an object, and what is pending.
* `Call.Creates`, `ClientDb.written` — what a call writes.
* `ClientDb.marked`, `ClientDb.applied`, `ClientDb.pulled` — what a sync writes.

## Main results

* `Call.run_program` — **a call writes the revision it creates, or nothing.**
* `run_pushPending`, `run_pullUpdates` — a sync in terms of the responses.
* `headsOf_written`, `headsOf_applied` — what becomes of the heads.
-/

namespace Rustend

open Interleave

/-! ### Answers -/

/-- A server with the state `σ`, as its HTTP interface shows it to a client. -/
structure Net (σ : Type) where
  changes : PushRequest → σ → Except ClientError (HttpResponse PushResponse) × σ
  changesQuery : PullRequest → σ → Except ClientError (HttpResponse PullResponse) × σ

/-- The answers to a client that runs alone: its transactions succeed. -/
def answer {σ : Type} (net : Net σ) :
    (op : ClientOp) → ClientDb × σ → Except ClientError op.Res × (ClientDb × σ)
  | .idb op, (db, s) => (.ok (op.eval db).1, ((op.eval db).2, s))
  | .postChanges req, (db, s) => ((net.changes req s).1, (db, (net.changes req s).2))
  | .postChangesQuery req, (db, s) => ((net.changesQuery req s).1, (db, (net.changesQuery req s).2))

/-! ### What the stores hold -/

namespace ClientDb

variable {db : ClientDb}

/-- The heads of an object, by their revisions. -/
def headsOf (db : ClientDb) (o : ObjectId) : Set RevisionId :=
  {r | ∃ head ∈ db.objectHeads, head.objectId = o ∧ head.revisionId = r}

/-- The pending records, in key order. -/
def pending (db : ClientDb) : List RevisionRecord :=
  db.revisions.records.filter fun record => record.syncStatus = .pending

theorem mem_pending {record : RevisionRecord} :
    record ∈ db.pending ↔ record ∈ db.revisions ∧ record.syncStatus = .pending := by
  simp [pending, KeyedStore.mem_def]

theorem mem_headsOf {o : ObjectId} {r : RevisionId} :
    r ∈ db.headsOf o ↔ ∃ head ∈ db.objectHeads, head.objectId = o ∧ head.revisionId = r := Iff.rfl

/-- The heads as pairs of an object and a revision, in key order. -/
def headList (db : ClientDb) : List (ObjectId × RevisionId) :=
  db.objectHeads.records.map fun head => (head.objectId, head.revisionId)

theorem mem_headList {o : ObjectId} {r : RevisionId} : (o, r) ∈ db.headList ↔ r ∈ db.headsOf o := by
  simp only [headList, List.mem_map, Prod.mk.injEq, mem_headsOf, KeyedStore.mem_def]

/-- What a scan of the heads returns. -/
theorem mem_map_getHeadsInStore {o : ObjectId} {r : RevisionId} :
    r ∈ (getHeadsInStore db.objectHeads o).map (·.revisionId) ↔ r ∈ db.headsOf o := by
  simp only [List.mem_map, mem_getHeadsInStore, mem_headsOf, and_assoc]

end ClientDb

@[simp] theorem headRecordFromRevision_objectId (o : ObjectId) (rev : Revision) :
    (headRecordFromRevision o rev).objectId = o := rfl

@[simp] theorem headRecordFromRevision_revisionId (o : ObjectId) (rev : Revision) :
    (headRecordFromRevision o rev).revisionId = rev.id := rfl

@[simp] theorem headRecordFromRevision_lineage (o : ObjectId) (rev : Revision) :
    (headRecordFromRevision o rev).lineage = rev.lineage := rfl

section Stores

variable {db : ClientDb} {o : ObjectId} {heads : List Revision} {head : HeadRecord}

@[simp] theorem replaceHeads_revisions :
    ((IdbOp.replaceHeads o heads).eval db).2.revisions = db.revisions := rfl

@[simp] theorem replaceHeads_syncState :
    ((IdbOp.replaceHeads o heads).eval db).2.syncState = db.syncState := rfl

@[simp] theorem addHeads_revisions :
    ((IdbOp.addHeads heads).eval db).2.revisions = db.revisions := rfl

@[simp] theorem addHeads_syncState :
    ((IdbOp.addHeads heads).eval db).2.syncState = db.syncState := rfl

/-- The store without the heads of an object. -/
theorem mem_clearedHeads : head ∈ db.objectHeads.deleteAll
      ((getHeadsInStore db.objectHeads o).map fun h => headKey o h.revisionId.uuid) ↔
    head ∈ db.objectHeads ∧ head.objectId ≠ o := by
  rw [KeyedStore.mem_deleteAll]
  refine and_congr_right fun hm => not_congr ?_
  rw [List.mem_map]
  constructor
  · rintro ⟨h, -, hkey⟩
    exact (headKey_inj.mp hkey).1.symm
  · rintro rfl
    exact ⟨head, mem_getHeadsInStore.mpr ⟨hm, rfl⟩, rfl⟩

theorem mem_replaceHeads (h : head ∈ ((IdbOp.replaceHeads o heads).eval db).2.objectHeads) :
    (∃ rev ∈ heads, head = headRecordFromRevision o rev) ∨
      head ∈ db.objectHeads ∧ head.objectId ≠ o := by
  rcases KeyedStore.mem_putAll h with h | ⟨h, -⟩
  · obtain ⟨rev, hrev, rfl⟩ := List.mem_map.mp h
    exact .inl ⟨rev, hrev, rfl⟩
  · exact .inr (mem_clearedHeads.mp h)

/-- The heads of other objects are left alone. -/
theorem mem_replaceHeads_of_ne (hne : head.objectId ≠ o) :
    head ∈ ((IdbOp.replaceHeads o heads).eval db).2.objectHeads ↔ head ∈ db.objectHeads := by
  refine (KeyedStore.mem_putAll_of_notMem ?_).trans (mem_clearedHeads.trans (and_iff_left hne))
  intro v hv hkey
  obtain ⟨rev, -, rfl⟩ := List.mem_map.mp hv
  exact hne (headKey_inj.mp hkey).1.symm

theorem headsOf_replaceHeads (o' : ObjectId) :
    ((IdbOp.replaceHeads o heads).eval db).2.headsOf o' =
      if o' = o then {r | ∃ rev ∈ heads, rev.id = r} else db.headsOf o' := by
  ext r
  split
  · next ho =>
    subst ho
    constructor
    · rintro ⟨head, hm, hobj, rfl⟩
      rcases mem_replaceHeads hm with ⟨rev, hrev, rfl⟩ | ⟨-, hne⟩
      · exact ⟨rev, hrev, rfl⟩
      · exact absurd hobj hne
    · rintro ⟨rev, hrev, rfl⟩
      obtain ⟨x, hx, hkey, hm⟩ := KeyedStore.exists_mem_putAll
        (List.mem_map_of_mem (f := headRecordFromRevision o') hrev)
        (s := db.objectHeads.deleteAll
          ((getHeadsInStore db.objectHeads o').map fun h => headKey o' h.revisionId.uuid))
      obtain ⟨rev', -, rfl⟩ := List.mem_map.mp hx
      have hid := (headKey_inj.mp hkey).2
      exact ⟨_, hm, rfl, congrArg RevisionId.mk hid⟩
  · next ho =>
    constructor
    · rintro ⟨head, hm, rfl, rfl⟩
      exact ⟨head, (mem_replaceHeads_of_ne ho).mp hm, rfl, rfl⟩
    · rintro ⟨head, hm, rfl, rfl⟩
      exact ⟨head, (mem_replaceHeads_of_ne ho).mpr hm, rfl, rfl⟩

theorem mem_addHeads (h : head ∈ ((IdbOp.addHeads heads).eval db).2.objectHeads) :
    (∃ rev ∈ heads, head = headRecordFromRevision rev.objectId rev) ∨
      head ∈ db.objectHeads ∧ ∀ rev ∈ heads, ¬(rev.objectId = head.objectId ∧
        rev.id = head.revisionId) := by
  rcases KeyedStore.mem_putAll h with h | ⟨h, hne⟩
  · obtain ⟨rev, hrev, rfl⟩ := List.mem_map.mp h
    exact .inl ⟨rev, hrev, rfl⟩
  · refine .inr ⟨h, fun rev hrev heq => hne _ (List.mem_map_of_mem hrev) ?_⟩
    exact headKey_inj.mpr ⟨heq.1, congrArg RevisionId.uuid heq.2⟩

theorem headsOf_addHeads (o' : ObjectId) :
    ((IdbOp.addHeads heads).eval db).2.headsOf o' =
      db.headsOf o' ∪ {r | ∃ rev ∈ heads, rev.objectId = o' ∧ rev.id = r} := by
  ext r
  constructor
  · rintro ⟨head, hm, rfl, rfl⟩
    rcases mem_addHeads hm with ⟨rev, hrev, rfl⟩ | ⟨hm, -⟩
    · exact .inr ⟨rev, hrev, rfl, rfl⟩
    · exact .inl ⟨head, hm, rfl, rfl⟩
  · intro hr
    by_cases hnew : ∃ rev ∈ heads, rev.objectId = o' ∧ rev.id = r
    · obtain ⟨rev, hrev, rfl, rfl⟩ := hnew
      obtain ⟨x, hx, hkey, hm⟩ := KeyedStore.exists_mem_putAll
        (List.mem_map_of_mem (f := fun rev => headRecordFromRevision rev.objectId rev) hrev)
        (s := db.objectHeads)
      obtain ⟨rev', -, rfl⟩ := List.mem_map.mp hx
      obtain ⟨hobj, hid⟩ := headKey_inj.mp hkey
      exact ⟨_, hm, hobj, congrArg RevisionId.mk hid⟩
    · rcases hr with ⟨head, hm, rfl, rfl⟩ | hr
      · refine ⟨head, (KeyedStore.mem_putAll_of_notMem ?_).mpr hm, rfl, rfl⟩
        intro v hv hkey
        obtain ⟨rev, hrev, rfl⟩ := List.mem_map.mp hv
        obtain ⟨hobj, hid⟩ := headKey_inj.mp hkey
        exact hnew ⟨rev, hrev, hobj, congrArg RevisionId.mk hid⟩
      · exact absurd hr hnew

end Stores

/-! ### Writing a revision -/

/-- The stores after `writeRevision`. -/
def ClientDb.written (db : ClientDb) (rev : Revision) : ClientDb :=
  ((IdbOp.replaceHeads rev.objectId [rev]).eval
    ((IdbOp.putRevision (.fromRevision rev .pending)).eval db).2).2

section Written

variable {db : ClientDb} {rev : Revision}

theorem mem_revisions_written {record : RevisionRecord} :
    record ∈ (db.written rev).revisions ↔ record = .fromRevision rev .pending ∨
      record ∈ db.revisions ∧ record.id ≠ rev.id := by
  refine KeyedStore.mem_put.trans (or_congr_right (and_congr_right fun _ => ?_))
  exact not_congr RevisionId.key_inj

@[simp] theorem written_syncState : (db.written rev).syncState = db.syncState := rfl

theorem mem_objectHeads_written {head : HeadRecord}
    (h : head ∈ (db.written rev).objectHeads) :
    head = headRecordFromRevision rev.objectId rev ∨
      head ∈ db.objectHeads ∧ head.objectId ≠ rev.objectId := by
  rcases mem_replaceHeads h with ⟨_, hrev, rfl⟩ | h
  · rw [List.mem_singleton.mp hrev]; exact .inl rfl
  · exact .inr h

theorem headsOf_written (o : ObjectId) :
    (db.written rev).headsOf o = if o = rev.objectId then {rev.id} else db.headsOf o := by
  rw [ClientDb.written, headsOf_replaceHeads]
  split
  · ext r
    constructor
    · rintro ⟨_, hrev, rfl⟩
      rw [List.mem_singleton.mp hrev]
      rfl
    · rintro rfl
      exact ⟨rev, List.mem_singleton_self rev, rfl⟩
  · rfl

end Written

section Run

variable {σ : Type} {net : Net σ} {db : ClientDb} {s : σ}

@[simp] theorem run_idb (op : IdbOp) :
    (idb op).run (answer net) (db, s) = (.ok (op.eval db).1, ((op.eval db).2, s)) := rfl

/-- A loop over transactions. -/
theorem run_forEach {δ : Type} {body : δ → Browser Unit} {f : ClientDb → δ → ClientDb}
    (h : ∀ x db, (body x).run (answer net) (db, s) = (.ok (), (f db x, s))) :
    ∀ (xs : List δ) (db : ClientDb),
      (Program.forEach body xs).run (answer net) (db, s) = (.ok (), (xs.foldl f db, s))
  | [], db => rfl
  | x :: xs, db => by
    rw [Program.forEach, Program.run_bind_ok _ _ (h x db)]
    exact run_forEach h xs (f db x)

end Run

/-! ### Calls -/

/-- What a successful call creates, in terms of the stores before it. -/
structure Call.Creates (repo : Repository) (draw : Draw) (db : ClientDb) (call : Call)
    (rev : Revision) : Prop where
  id : rev.id = draw.revisionId
  createdAt : rev.createdAt = draw.createdAt
  createdBy : rev.createdBy = repo.clientId
  objectId : rev.objectId = call.objectId draw
  parents : rev.parents = call.parents
  /-- The parents are heads of the object. -/
  heads : ∀ p ∈ call.parents, p ∈ db.headsOf rev.objectId
  /-- An edit is made on top of the only head. -/
  single : ∀ p, call.parents = [p] → db.headsOf rev.objectId = {p}

section Call

variable {σ : Type} {net : Net σ} {db : ClientDb} {s : σ} {repo : Repository} {draw : Draw}

/-- A program that writes one revision, with `C`, or fails and writes nothing. -/
def WritesOne (net : Net σ) (db : ClientDb) (s : σ) (C : Revision → Prop)
    (p : Browser RevisionId) : Prop :=
  (∃ e, p.run (answer net) (db, s) = (.error e, (db, s))) ∨
    ∃ rev, C rev ∧ p.run (answer net) (db, s) = (.ok rev.id, (db.written rev, s))

/-- What a call creates from the heads that are there. -/
theorem Call.CreatesFrom.creates {call : Call} {rev : Revision}
    (h : call.CreatesFrom repo draw (getHeadsInStore db.objectHeads (call.objectId draw)) rev) :
    call.Creates repo draw db rev where
  id := h.id
  createdAt := h.createdAt
  createdBy := h.createdBy
  objectId := h.objectId
  parents := h.parents
  heads p hp := by
    rw [h.objectId]
    exact ClientDb.mem_map_getHeadsInStore.mp (h.among p hp)
  single p hp := by
    ext r
    rw [h.objectId, ← ClientDb.mem_map_getHeadsInStore, h.single p hp, List.mem_singleton]
    rfl

/-- **A call writes the revision it creates, or nothing.** -/
theorem Call.run_program (call : Call) (net : Net σ) (db : ClientDb) (s : σ) (repo : Repository)
    (draw : Draw) :
    WritesOne net db s (call.Creates repo draw db) (call.program repo draw) := by
  unfold WritesOne
  rcases call.shape repo draw with ⟨e, he⟩ | ⟨rev, hrev, hwrite⟩ | ⟨f, hf, hall⟩
  · rw [he]
    exact .inl ⟨e, rfl⟩
  · rw [hwrite]
    refine .inr ⟨rev, ?_, rfl⟩
    -- a call that reads no heads names no parents
    have hnone : call.parents = [] := by
      rw [List.eq_nil_iff_forall_not_mem]
      intro p hp
      cases hrev.among p hp
    exact ⟨hrev.id, hrev.createdAt, hrev.createdBy, hrev.objectId, hrev.parents,
      fun p hp => (by rw [hnone] at hp; cases hp), fun p hp => (by rw [hnone] at hp; cases hp)⟩
  · have hread : (idb (.getHeads (call.objectId draw))).run (answer net) (db, s) =
        (.ok (getHeadsInStore db.objectHeads (call.objectId draw)), (db, s)) := rfl
    rw [hf, Program.run_bind_ok _ _ hread]
    rcases hall (getHeadsInStore db.objectHeads (call.objectId draw)) with
      ⟨e, he⟩ | ⟨rev, hrev, hwrite⟩
    · rw [he]
      exact .inl ⟨e, rfl⟩
    · rw [hwrite]
      exact .inr ⟨rev, hrev.creates, rfl⟩

/-- A call that succeeds has written the revision that it creates. -/
theorem Call.run_ok {call : Call} {id : RevisionId} {db' : ClientDb} {s' : σ}
    (h : (call.program repo draw).run (answer net) (db, s) = (.ok id, (db', s'))) :
    ∃ rev, call.Creates repo draw db rev ∧ id = rev.id ∧ db' = db.written rev ∧ s' = s := by
  rcases call.run_program net db s repo draw with
    ⟨e, herr⟩ | ⟨rev, hcreates, hok⟩
  · rw [h] at herr
    cases herr
  · rw [h] at hok
    simp only [Prod.mk.injEq, Except.ok.injEq] at hok
    exact ⟨rev, hcreates, hok.1, hok.2.1, hok.2.2⟩

end Call

/-! ### Recording what became of a push -/

section Marks

variable {db : ClientDb}

/-- The stores after the responses to a push have been recorded. -/
def ClientDb.marked (db : ClientDb) (marks : List (RevisionId × SyncStatus)) : ClientDb :=
  marks.foldl (fun db mark => db.markRevision mark.1 mark.2) db

/-- The statuses that a response reports, in the order they are recorded. -/
def PushResponse.marks (resp : PushResponse) : List (RevisionId × SyncStatus) :=
  resp.accepted.map (·, .synced) ++
    resp.rejected.map fun rejected => (rejected.revisionId, .syncError rejected.reason)

@[simp] theorem markRevision_objectHeads (id : RevisionId) (status : SyncStatus) :
    (db.markRevision id status).objectHeads = db.objectHeads := by
  rw [ClientDb.markRevision]
  split <;> rfl

@[simp] theorem markRevision_syncState (id : RevisionId) (status : SyncStatus) :
    (db.markRevision id status).syncState = db.syncState := by
  rw [ClientDb.markRevision]
  split <;> rfl

theorem mem_markRevision {id : RevisionId} {status : SyncStatus} {record : RevisionRecord} :
    record ∈ (db.markRevision id status).revisions ↔ ∃ old ∈ db.revisions,
      record = if old.id = id then { old with syncStatus := status } else old := by
  rw [ClientDb.markRevision]
  split
  · next found hfound =>
    obtain ⟨hm, hkey⟩ := KeyedStore.get?_eq_some.mp hfound
    obtain rfl : found.id = id := RevisionId.key_inj.mp hkey
    rw [KeyedStore.mem_put]
    constructor
    · rintro (rfl | ⟨hrec, hne⟩)
      · exact ⟨found, hm, (if_pos rfl).symm⟩
      · exact ⟨record, hrec, (if_neg fun h => hne (congrArg RevisionId.key h)).symm⟩
    · rintro ⟨old, hold, rfl⟩
      split
      · next heq =>
        rw [KeyedStore.key_inj hold hm (congrArg RevisionId.key heq)]
        exact .inl rfl
      · next hne => exact .inr ⟨hold, fun h => hne (RevisionId.key_inj.mp h)⟩
  · next hnone =>
    rw [KeyedStore.get?_eq_none] at hnone
    have hne : ∀ old ∈ db.revisions, old.id ≠ id := fun old hold h =>
      hnone old hold (congrArg RevisionId.key h)
    constructor
    · exact fun h => ⟨record, h, (if_neg (hne record h)).symm⟩
    · rintro ⟨old, hold, rfl⟩
      rwa [if_neg (hne old hold)]

@[simp] theorem marked_objectHeads (marks : List (RevisionId × SyncStatus)) :
    (db.marked marks).objectHeads = db.objectHeads := by
  induction marks generalizing db with
  | nil => rfl
  | cons mark marks ih =>
    rw [ClientDb.marked, List.foldl_cons, ← ClientDb.marked, ih, markRevision_objectHeads]

@[simp] theorem marked_syncState (marks : List (RevisionId × SyncStatus)) :
    (db.marked marks).syncState = db.syncState := by
  induction marks generalizing db with
  | nil => rfl
  | cons mark marks ih =>
    rw [ClientDb.marked, List.foldl_cons, ← ClientDb.marked, ih, markRevision_syncState]

theorem headsOf_marked (marks : List (RevisionId × SyncStatus)) (o : ObjectId) :
    (db.marked marks).headsOf o = db.headsOf o := by
  rw [ClientDb.headsOf, marked_objectHeads, ClientDb.headsOf]

/-- Records keep everything but their status. -/
theorem mem_marked {marks : List (RevisionId × SyncStatus)} {record : RevisionRecord} :
    record ∈ (db.marked marks).revisions ↔ ∃ old ∈ db.revisions,
      record = { old with
        syncStatus := marks.foldl (fun status mark => if old.id = mark.1 then mark.2 else status)
          old.syncStatus } := by
  induction marks generalizing db with
  | nil => exact ⟨fun h => ⟨record, h, rfl⟩, fun ⟨old, hold, h⟩ => h ▸ hold⟩
  | cons mark marks ih =>
    rw [ClientDb.marked, List.foldl_cons, ← ClientDb.marked, ih]
    constructor
    · rintro ⟨mid, hmid, rfl⟩
      obtain ⟨old, hold, rfl⟩ := mem_markRevision.mp hmid
      refine ⟨old, hold, ?_⟩
      rw [List.foldl_cons]
      split <;> rfl
    · rintro ⟨old, hold, rfl⟩
      refine ⟨_, mem_markRevision.mpr ⟨old, hold, rfl⟩, ?_⟩
      rw [List.foldl_cons]
      split <;> rfl

/-- What is not reported keeps its status. -/
theorem foldl_marks_of_notMem {marks : List (RevisionId × SyncStatus)} {id : RevisionId}
    (h : ∀ mark ∈ marks, mark.1 ≠ id) : ∀ status : SyncStatus,
    marks.foldl (fun status mark => if id = mark.1 then mark.2 else status) status = status := by
  induction marks with
  | nil => exact fun _ => rfl
  | cons mark marks ih =>
    intro status
    obtain ⟨hm, hms⟩ := List.forall_mem_cons.mp h
    rw [List.foldl_cons, if_neg (Ne.symm hm), ih hms]

/-- What is reported gets one of the statuses reported for it. -/
theorem foldl_marks_mem {marks : List (RevisionId × SyncStatus)} {id : RevisionId}
    (h : ∃ mark ∈ marks, mark.1 = id) (status : SyncStatus) :
    (id, marks.foldl (fun status mark => if id = mark.1 then mark.2 else status) status) ∈
      marks := by
  induction marks generalizing status with
  | nil => obtain ⟨_, h, -⟩ := h; cases h
  | cons mark marks ih =>
    rw [List.foldl_cons]
    by_cases hrest : ∃ mark ∈ marks, mark.1 = id
    · exact List.mem_cons_of_mem _ (ih hrest _)
    · push Not at hrest
      obtain ⟨m, hm, hid⟩ := h
      rw [foldl_marks_of_notMem hrest]
      rcases List.mem_cons.mp hm with rfl | hm
      · rw [if_pos hid.symm, ← hid]
        exact List.mem_cons_self
      · exact absurd hid (hrest m hm)

end Marks

/-! ### Applying an update -/

/-- The update replaces the heads of its object. -/
def ClientDb.Clears (db : ClientDb) (update : ObjectUpdate) : Prop :=
  update.action = .replace ∧ ∀ r ∈ db.headsOf update.objectId,
    r ∈ update.heads.map (·.id) ∨ ∃ rev ∈ update.heads, r ∈ rev.parents

theorem hasDiverged_eq_false_iff {existing : List HeadRecord} {heads : List Revision} :
    hasDiverged existing heads = false ↔ ∀ r ∈ existing.map (·.revisionId),
      r ∈ heads.map (·.id) ∨ ∃ rev ∈ heads, r ∈ rev.parents := by
  have hor : ∀ r, (decide (r ∉ heads.map (·.id)) &&
      decide (r ∉ heads.flatMap (·.parents))) = false ↔
      r ∈ heads.map (·.id) ∨ ∃ rev ∈ heads, r ∈ rev.parents := by
    intro r
    rw [Bool.and_eq_false_iff, decide_eq_false_iff_not, decide_eq_false_iff_not, not_not, not_not,
      List.mem_flatMap]
  rw [hasDiverged, List.any_eq_false, List.forall_mem_map]
  refine forall₂_congr fun head _ => ?_
  rw [← hor, Bool.not_eq_true]

theorem hasDiverged_eq_false {db : ClientDb} {o : ObjectId} {heads : List Revision} :
    hasDiverged (getHeadsInStore db.objectHeads o) heads = false ↔ ∀ r ∈ db.headsOf o,
      r ∈ heads.map (·.id) ∨ ∃ rev ∈ heads, r ∈ rev.parents := by
  rw [hasDiverged_eq_false_iff]
  exact forall_congr' fun r => by rw [ClientDb.mem_map_getHeadsInStore]

/-- The stores after the revisions of an update have been put. -/
def ClientDb.received (db : ClientDb) (heads : List Revision) : ClientDb :=
  heads.foldl (fun db rev => ((IdbOp.putRevision (.fromRevision rev .synced)).eval db).2) db

/-- The stores after an update has been applied. -/
def ClientDb.applied (db : ClientDb) (update : ObjectUpdate) : ClientDb :=
  if update.action = .replace ∧
      hasDiverged (getHeadsInStore db.objectHeads update.objectId) update.heads = false then
    ((IdbOp.replaceHeads update.objectId update.heads).eval (db.received update.heads)).2
  else ((IdbOp.addHeads update.heads).eval (db.received update.heads)).2

section Applied

variable {db : ClientDb} {update : ObjectUpdate}

/-- What is received is put with the revisions, and nowhere else. -/
theorem received_eq (heads : List Revision) : db.received heads =
    { db with revisions :=
        db.revisions.putAll (heads.map fun rev => .fromRevision rev .synced) } := by
  induction heads generalizing db with
  | nil => rfl
  | cons rev heads ih =>
    rw [ClientDb.received, List.foldl_cons, ← ClientDb.received, ih]
    rfl

@[simp] theorem received_objectHeads (heads : List Revision) :
    (db.received heads).objectHeads = db.objectHeads := by rw [received_eq]

@[simp] theorem received_syncState (heads : List Revision) :
    (db.received heads).syncState = db.syncState := by rw [received_eq]

theorem received_revisions (heads : List Revision) :
    (db.received heads).revisions =
      db.revisions.putAll (heads.map fun rev => .fromRevision rev .synced) := by rw [received_eq]

theorem headsOf_received (heads : List Revision) (o : ObjectId) :
    (db.received heads).headsOf o = db.headsOf o := by
  rw [ClientDb.headsOf, received_objectHeads, ClientDb.headsOf]

theorem applied_of_clears (h : db.Clears update) : db.applied update =
    ((IdbOp.replaceHeads update.objectId update.heads).eval (db.received update.heads)).2 :=
  if_pos ⟨h.1, hasDiverged_eq_false.mpr h.2⟩

theorem applied_of_not_clears (h : ¬ db.Clears update) :
    db.applied update = ((IdbOp.addHeads update.heads).eval (db.received update.heads)).2 :=
  if_neg fun h' => h ⟨h'.1, hasDiverged_eq_false.mp h'.2⟩

@[simp] theorem applied_syncState : (db.applied update).syncState = db.syncState := by
  rw [ClientDb.applied]
  split <;> simp

theorem applied_revisions : (db.applied update).revisions =
    db.revisions.putAll (update.heads.map fun rev => .fromRevision rev .synced) := by
  rw [ClientDb.applied, ← received_revisions]
  split <;> rfl

theorem headsOf_applied_clears (h : db.Clears update) (o : ObjectId) :
    (db.applied update).headsOf o = if o = update.objectId then
      {r | ∃ rev ∈ update.heads, rev.id = r} else db.headsOf o := by
  rw [applied_of_clears h, headsOf_replaceHeads, headsOf_received]

theorem headsOf_applied_not_clears (h : ¬ db.Clears update) (o : ObjectId) :
    (db.applied update).headsOf o =
      db.headsOf o ∪ {r | ∃ rev ∈ update.heads, rev.objectId = o ∧ rev.id = r} := by
  rw [applied_of_not_clears h, headsOf_addHeads, headsOf_received]

/-- An update leaves the heads of other objects alone. -/
theorem headsOf_applied_of_ne (hobj : ∀ rev ∈ update.heads, rev.objectId = update.objectId)
    {o : ObjectId} (ho : o ≠ update.objectId) : (db.applied update).headsOf o = db.headsOf o := by
  by_cases h : db.Clears update
  · rw [headsOf_applied_clears h, if_neg ho]
  · rw [headsOf_applied_not_clears h]
    refine Set.union_eq_self_of_subset_right ?_
    rintro r ⟨rev, hrev, hro, -⟩
    exact absurd (hro.symm.trans (hobj rev hrev)) ho

end Applied

/-! ### A sync -/

/-- What a client gets out of an HTTP exchange. -/
def parsed {α : Type} : Except ClientError (HttpResponse α) → Option α
  | .ok resp => if resp.ok then resp.body.toOption else none
  | .error _ => none

/-- The stores after all updates of a response have been applied. -/
def ClientDb.pulled (db : ClientDb) (updates : List ObjectUpdate) : ClientDb :=
  updates.foldl ClientDb.applied db

/-- The stores after the cursor has been moved, if there is an identity. -/
def ClientDb.advanced (db : ClientDb) (upTo : TransactionId) : ClientDb :=
  match db.syncState with
  | some ⟨some cid, some uid, _⟩ => { db with syncState := some ⟨some cid, some uid, some upTo⟩ }
  | _ => db

theorem advanced_syncState {db : ClientDb} {cid : ClientId} {uid : UserId}
    {last : Option TransactionId} (h : db.syncState = some ⟨some cid, some uid, last⟩)
    (upTo : TransactionId) :
    (db.advanced upTo).syncState = some ⟨some cid, some uid, some upTo⟩ := by
  rw [ClientDb.advanced, h]

@[simp] theorem advanced_revisions (db : ClientDb) (upTo : TransactionId) :
    (db.advanced upTo).revisions = db.revisions := by
  rw [ClientDb.advanced]
  split <;> rfl

@[simp] theorem advanced_objectHeads (db : ClientDb) (upTo : TransactionId) :
    (db.advanced upTo).objectHeads = db.objectHeads := by
  rw [ClientDb.advanced]
  split <;> rfl

@[simp] theorem pulled_nil (db : ClientDb) : db.pulled [] = db := rfl

@[simp] theorem pulled_cons (db : ClientDb) (update : ObjectUpdate) (updates : List ObjectUpdate) :
    db.pulled (update :: updates) = (db.applied update).pulled updates := rfl

@[simp] theorem pulled_syncState (db : ClientDb) (updates : List ObjectUpdate) :
    (db.pulled updates).syncState = db.syncState := by
  induction updates generalizing db with
  | nil => rfl
  | cons update updates ih => rw [pulled_cons, ih, applied_syncState]

section Sync

variable {σ : Type} {net : Net σ} {db : ClientDb} {s : σ}

/-- What is left of a response is what a client gets out of it. -/
theorem json_cases {α : Type} (resp : HttpResponse α) (failed : String) :
    (∃ e, resp.json failed = .fail e ∧ parsed (.ok resp) = none) ∨
      ∃ a, resp.json failed = pure a ∧ parsed (.ok resp) = some a := by
  rw [HttpResponse.json, parsed]
  split
  · next h => exact .inl ⟨_, rfl, if_neg (by simpa using h)⟩
  · next h =>
    have hok : resp.ok = true := by simpa using h
    rw [if_pos hok]
    split
    · next a hbody => exact .inr ⟨a, rfl, by rw [hbody]; rfl⟩
    · next msg hbody => exact .inl ⟨_, rfl, by rw [hbody]; rfl⟩

theorem run_json {α : Type} (net : Net σ) (db : ClientDb) (s : σ) (resp : HttpResponse α)
    (failed : String) :
    (∃ e, (resp.json failed).run (answer net) (db, s) = (.error e, (db, s)) ∧
        parsed (.ok resp) = none) ∨
      ∃ a, (resp.json failed).run (answer net) (db, s) = (.ok a, (db, s)) ∧
        parsed (.ok resp) = some a := by
  rcases json_cases resp failed with ⟨e, he, hnone⟩ | ⟨a, ha, hsome⟩
  · rw [he]
    exact .inl ⟨e, rfl, hnone⟩
  · rw [ha]
    exact .inr ⟨a, rfl, hsome⟩

/-- The reply to a request whose response comes through. -/
theorem exists_reply {α : Type} {post : Browser (HttpResponse α)}
    {x : Except ClientError (HttpResponse α)} {a : α} {s' : σ}
    (hpost : post.run (answer net) (db, s) = (x, (db, s'))) (hparsed : parsed x = some a)
    (failed : String) : ∃ reply, post.run (answer net) (db, s) = (.ok reply, (db, s')) ∧
      (reply.json failed).run (answer net) (db, s') = (.ok a, (db, s')) := by
  cases x with
  | error e => cases hparsed
  | ok reply =>
    refine ⟨reply, hpost, ?_⟩
    rcases run_json net db s' reply failed with ⟨e, -, hnone⟩ | ⟨a', ha', hsome⟩
    · rw [hparsed] at hnone
      cases hnone
    · rw [hparsed] at hsome
      cases hsome
      exact ha'

/-- **A push in terms of its response**: nothing is pending and nothing is sent, or no
response comes through and the stores stay, or the response is recorded. -/
theorem run_pushPending (net : Net σ) (db : ClientDb) (s : σ) :
    (db.pending = [] ∧ pushPending.run (answer net) (db, s) = (.ok (0, []), (db, s))) ∨
      db.pending ≠ [] ∧ ∀ x s', net.changes ⟨db.pending.map (·.revision)⟩ s = (x, s') →
        (parsed x = none ∧ ∃ e, pushPending.run (answer net) (db, s) = (.error e, (db, s'))) ∨
        ∃ resp, parsed x = some resp ∧ pushPending.run (answer net) (db, s) =
          (.ok (resp.accepted.length, resp.rejected), (db.marked resp.marks, s')) := by
  have hpend : (idb .getPendingRevisions).run (answer net) (db, s) =
      (.ok db.pending, (db, s)) := rfl
  rw [pushPending, Program.run_bind_ok _ _ hpend]
  by_cases hemp : db.pending = []
  · exact .inl ⟨hemp, by rw [hemp]; rfl⟩
  refine .inr ⟨hemp, fun x s' hx => ?_⟩
  rw [if_neg (by simpa using hemp)]
  have hpost : (Program.perform (S := browser) (.postChanges ⟨db.pending.map (·.revision)⟩)).run
      (answer net) (db, s) = (x, (db, s')) := by
    rw [Program.run_perform, answer, hx]
  cases x with
  | error e => exact .inl ⟨rfl, e, Program.run_bind_error _ _ hpost⟩
  | ok resp =>
    rw [Program.run_bind_ok _ _ hpost]
    rcases run_json net db s' resp "push failed: " with
      ⟨e, he, hnone⟩ | ⟨a, ha, hsome⟩
    · exact .inl ⟨hnone, e, Program.run_bind_error _ _ he⟩
    · refine .inr ⟨a, hsome, ?_⟩
      have hsynced : ∀ db : ClientDb, (Program.forEach (fun revId =>
          idb (.markRevisionSynced revId)) a.accepted).run (answer net) (db, s') =
          (.ok (), (a.accepted.foldl (fun db id => db.markRevision id .synced) db, s')) :=
        run_forEach (fun _ _ => rfl) a.accepted
      have herror : ∀ db : ClientDb, (Program.forEach (fun rejected =>
          idb (.markRevisionError rejected.revisionId rejected.reason)) a.rejected).run
          (answer net) (db, s') = (.ok (), (a.rejected.foldl (fun db rejected =>
            db.markRevision rejected.revisionId (.syncError rejected.reason)) db, s')) :=
        run_forEach (fun _ _ => rfl) a.rejected
      rw [Program.run_bind_ok _ _ ha, Program.run_bind_ok _ _ (hsynced db),
        Program.run_bind_ok _ _ (herror _), Program.run_pure, PushResponse.marks, ClientDb.marked,
        List.foldl_append, List.foldl_map, List.foldl_map]

theorem run_applyUpdate (update : ObjectUpdate) :
    (applyUpdate update).run (answer net) (db, s) =
      (.ok (decide ¬(update.action = .replace ∧
          hasDiverged (getHeadsInStore db.objectHeads update.objectId) update.heads = false)),
        (db.applied update, s)) := by
  have hput : ∀ db : ClientDb, (Program.forEach (fun rev =>
      idb (.putRevision (.fromRevision rev .synced))) update.heads).run (answer net) (db, s) =
      (.ok (), (db.received update.heads, s)) :=
    run_forEach (fun _ _ => rfl) update.heads
  rw [applyUpdate, Program.run_bind_ok _ _ (hput db), ClientDb.applied]
  cases haction : update.action with
  | conflict => rfl
  | replace =>
    have hget : (idb (.getHeads update.objectId)).run (answer net) (db.received update.heads, s) =
        (.ok (getHeadsInStore db.objectHeads update.objectId), (db.received update.heads, s)) := by
      rw [run_idb]
      simp only [IdbOp.eval, received_objectHeads]
    simp only [true_and]
    rw [Program.run_bind_ok _ _ hget]
    cases hdiv : hasDiverged (getHeadsInStore db.objectHeads update.objectId) update.heads <;> rfl

theorem run_applyUpdates (net : Net σ) (s : σ) :
    ∀ (updates : List ObjectUpdate) (db : ClientDb) (counts : ℕ × ℕ), ∃ counts',
      (applyUpdates updates counts).run (answer net) (db, s) =
        (.ok counts', (db.pulled updates, s))
  | [], db, counts => ⟨counts, rfl⟩
  | update :: updates, db, (pulled, conflicted) => by
    rw [applyUpdates, Program.run_bind_ok _ _ (run_applyUpdate update)]
    exact run_applyUpdates net s updates (db.applied update) _

/-- **A pull in terms of its response**: no response comes through and the stores stay,
or its updates are applied and the cursor is moved. -/
theorem run_pullUpdates (db : ClientDb) {pullParams : PullRequest}
    {x : Except ClientError (HttpResponse PullResponse)} {s' : σ}
    (hx : net.changesQuery pullParams s = (x, s')) :
    (parsed x = none ∧
        ∃ e, (pullUpdates pullParams).run (answer net) (db, s) = (.error e, (db, s'))) ∨
      ∃ resp counts, parsed x = some resp ∧ (pullUpdates pullParams).run (answer net) (db, s) =
        (.ok counts, ((db.pulled resp.objectUpdates).advanced resp.upToTransaction, s')) := by
  have hpost : (Program.perform (S := browser) (.postChangesQuery pullParams)).run
      (answer net) (db, s) = (x, (db, s')) := by
    rw [Program.run_perform, answer, hx]
  rw [pullUpdates]
  cases x with
  | error e => exact .inl ⟨rfl, e, Program.run_bind_error _ _ hpost⟩
  | ok resp =>
    rw [Program.run_bind_ok _ _ hpost]
    rcases run_json net db s' resp "pull failed: " with
      ⟨e, he, hnone⟩ | ⟨a, ha, hsome⟩
    · exact .inl ⟨hnone, e, Program.run_bind_error _ _ he⟩
    · obtain ⟨counts, hcounts⟩ := run_applyUpdates net s' a.objectUpdates db (0, 0)
      refine .inr ⟨a, counts, hsome, ?_⟩
      rw [Program.run_bind_ok _ _ ha, Program.run_bind_ok _ _ hcounts,
        Program.run_bind_ok _ _ (run_idb .readSyncState), ClientDb.advanced]
      rcases h : (db.pulled a.objectUpdates).syncState with _ | ⟨_ | cid, _ | uid, last⟩ <;>
        simp only [IdbOp.eval, h] <;> rfl

/-- A sync that completes has pushed and pulled. -/
theorem run_sync_ok {pullParams : PullRequest} {result : SyncResult} {db' : ClientDb} {s' : σ}
    (h : (sync pullParams).run (answer net) (db, s) = (.ok result, (db', s'))) :
    ∃ pushed db₁ s₁ counts, pushPending.run (answer net) (db, s) =
        (.ok (pushed, result.rejected), (db₁, s₁)) ∧
      (pullUpdates pullParams).run (answer net) (db₁, s₁) = (.ok counts, (db', s')) := by
  obtain ⟨⟨pushed, rejected⟩, ⟨db₁, s₁⟩, hpush, h⟩ := Program.bind_run_ok _ h
  obtain ⟨counts, ⟨db₂, s₂⟩, hpull, h⟩ := Program.bind_run_ok _ h
  simp only [Program.run_pure, Prod.mk.injEq, Except.ok.injEq] at h
  obtain ⟨rfl, rfl, rfl⟩ := h
  exact ⟨pushed, db₁, s₁, counts, hpush, hpull⟩

end Sync

end Rustend
