import Rustend.Client.Offline
import Rustend.Lib.Interleaving

/-!
# Heads and their revisions

A head is a copy of a revision that lies in a store of its own, and nothing in IndexedDB ties the
two.  Every operation puts a revision before it makes it a head, and no operation takes a revision
away, so the copy and the revision are there together between any two transactions.

The operations run at the same time, and each of them may come to an end at any request: a
transaction that fails ends it, and one that is never answered again has been stopped.

## Main definitions

* `Activity`, `boundary` — the operations, and the stores with all that can become of a request.
* `Genuine` — requests after which an id stands for one revision.
* `Backed` — every head is a copy of a revision that is held.

## Main results

* `triple_writes`, `triple_backedPull`, `triple_backedPush` — an operation leaves the heads backed
  at each of its transactions.
* `heads_backed` — **every head is backed, at every transaction boundary.**
-/

namespace Rustend

open Interleave

/-! ### The operations -/

/-- An operation on the stores. -/
inductive Activity where
  | call (repo : Repository) (call : Call) (draw : Draw)
  | push
  | pull (params : PullRequest)
  | sync (params : PullRequest)

/-- The program of an operation, without what it returns. -/
def Activity.program : Activity → Browser Unit
  | .call repo c draw => do let _ ← c.program repo draw
  | .push => do let _ ← pushPending
  | .pull params => do let _ ← pullUpdates params
  | .sync params => do let _ ← Repository.sync params

/-- What becomes of a request. -/
inductive Turn where
  /-- The transaction takes effect. -/
  | done
  /-- The transaction fails. -/
  | failed (e : ClientError)
  /-- The transaction takes effect, but the operation is told that it failed. -/
  | lost (e : ClientError)
  | pushReply (reply : Except ClientError (HttpResponse PushResponse))
  | pullReply (reply : Except ClientError (HttpResponse PullResponse))

/-- The stores, one transaction at a time; what the server answers is a choice. -/
def boundary : Machine browser ClientError ℕ Turn ClientDb where
  exec _ ch op db :=
    match op, ch with
    | .idb op, .done => some (.ok (op.eval db).1, (op.eval db).2)
    | .idb _, .failed e => some (.error e, db)
    | .idb op, .lost e => some (.error e, (op.eval db).2)
    | .postChanges _, .pushReply reply => some (reply, db)
    | .postChangesQuery _, .pullReply reply => some (reply, db)
    | _, _ => none

/-- The sessions of one client, with its database at a transaction boundary. -/
abbrev BoundaryConfig := Config browser ClientError ℕ Activity Unit ClientDb

/-! ### One revision for each id -/

/-- What a revision is, apart from who made it and when. -/
structure RevisionFields where
  objectId : ObjectId
  objectType : String
  lineage : Lineage
  content : Content
  deriving DecidableEq

/-- These fields of a revision. -/
def Revision.fields (rev : Revision) : RevisionFields :=
  ⟨rev.objectId, rev.objectType, rev.lineage, rev.content⟩

/-- These fields, as a head repeats them. -/
def HeadRecord.fields (head : HeadRecord) : RevisionFields :=
  ⟨head.objectId, head.objectType, head.lineage, head.content⟩

/-- The object updates that a reply carries. -/
def updatesOf (reply : Except ClientError (HttpResponse PullResponse)) : List ObjectUpdate :=
  match parsed reply with
  | some resp => resp.objectUpdates
  | none => []

/-- A request after which an id still stands for one revision: what is put has the fields that its
id was created with, and so has what arrives, under the object that it is delivered for. -/
def Genuine (origin : RevisionId → RevisionFields) : ClientOp → Turn → Prop
  | .idb (.putRevision record), _ => record.revision.fields = origin record.id
  | .postChangesQuery _, .pullReply reply => ∀ u ∈ updatesOf reply, ∀ rev ∈ u.heads,
      rev.objectId = u.objectId ∧ rev.fields = origin rev.id
  | _, _ => True

/-- The step is genuine. -/
def GenuineStep (origin : RevisionId → RevisionFields) (c : BoundaryConfig) :
    Label ℕ Turn Activity → Prop
  | .start .. => True
  | .step i ch => ∀ op, c.pending i = some op → Genuine origin op ch

/-! ### Backed heads -/

/-- The revision is held. -/
def ClientDb.Contains (db : ClientDb) (r : RevisionId) : Prop :=
  ∃ record ∈ db.revisions, record.id = r

/-- Every head is a copy of a revision that is held, and the data of a head are its content. -/
structure Backed (db : ClientDb) : Prop where
  record : ∀ head ∈ db.objectHeads, ∃ record ∈ db.revisions, record.id = head.revisionId ∧
    record.objectId = head.objectId ∧ record.objectType = head.objectType ∧
    record.lineage = head.lineage ∧ record.content = head.content
  data : ∀ head ∈ db.objectHeads, ∀ v, head.data = some v ↔ head.content = .active v

/-- The heads are backed, and every record has the fields of its id. -/
structure Sound (origin : RevisionId → RevisionFields) (db : ClientDb) : Prop where
  backed : Backed db
  records : ∀ record ∈ db.revisions, record.revision.fields = origin record.id

/-- What a transaction may do to the stores: they stay sound, and nothing that is held is given
up. -/
structure KeepsSound (origin : RevisionId → RevisionFields) (db db' : ClientDb) : Prop where
  sound : Sound origin db'
  contains : ∀ r, db.Contains r → db'.Contains r

theorem headRecordFromRevision_data (o : ObjectId) (rev : Revision) (v : Json) :
    (headRecordFromRevision o rev).data = some v ↔
      (headRecordFromRevision o rev).content = .active v := by
  unfold headRecordFromRevision
  cases rev.content <;> simp

section Sound

variable {origin : RevisionId → RevisionFields} {db db' : ClientDb}

theorem Sound.refl (h : Sound origin db) : KeepsSound origin db db := ⟨h, fun _ hr => hr⟩

/-- The fields of a head are those of its id. -/
theorem Sound.fields (h : Sound origin db) {head : HeadRecord} (hhead : head ∈ db.objectHeads) :
    head.fields = origin head.revisionId := by
  obtain ⟨record, hrecord, hid, ho, ht, hl, hc⟩ := h.backed.record head hhead
  rw [← hid, ← h.records record hrecord]
  unfold HeadRecord.fields Revision.fields RevisionRecord.revision
  rw [ho, ht, hl, hc]

/-- Heads whose revisions are held, with the fields of their ids, are backed. -/
theorem backed_of_fields
    (hrecords : ∀ record ∈ db.revisions, record.revision.fields = origin record.id)
    (hheads : ∀ head ∈ db.objectHeads, head.fields = origin head.revisionId ∧
      db.Contains head.revisionId ∧ ∀ v, head.data = some v ↔ head.content = .active v) :
    Backed db where
  record head hhead := by
    obtain ⟨hfields, ⟨record, hrecord, hid⟩, -⟩ := hheads head hhead
    have hsame : record.revision.fields = head.fields := by
      rw [hrecords record hrecord, hfields, hid]
    unfold Revision.fields HeadRecord.fields at hsame
    obtain ⟨ho, ht, hl, hc⟩ := RevisionFields.mk.inj hsame
    exact ⟨record, hrecord, hid, ho, ht, hl, hc⟩
  data head hhead := (hheads head hhead).2.2

/-- A transaction that leaves the heads alone. -/
theorem Sound.of_records (h : Sound origin db) (hheads : db'.objectHeads = db.objectHeads)
    (hrecords : ∀ record ∈ db'.revisions, record.revision.fields = origin record.id)
    (hcontains : ∀ r, db.Contains r → db'.Contains r) : KeepsSound origin db db' := by
  refine ⟨⟨backed_of_fields hrecords fun head hhead => ?_, hrecords⟩, hcontains⟩
  rw [hheads] at hhead
  obtain ⟨record, hrecord, hid, -⟩ := h.backed.record head hhead
  exact ⟨h.fields hhead, hcontains _ ⟨record, hrecord, hid⟩, h.backed.data head hhead⟩

/-- A transaction that leaves the records alone, and makes heads of revisions that are held. -/
theorem Sound.of_heads (h : Sound origin db) (hrevisions : db'.revisions = db.revisions)
    (hheads : ∀ head ∈ db'.objectHeads, head ∈ db.objectHeads ∨
      ∃ rev, head = headRecordFromRevision rev.objectId rev ∧ rev.fields = origin rev.id ∧
        db.Contains rev.id) : KeepsSound origin db db' := by
  have hcontains : ∀ r, db'.Contains r ↔ db.Contains r := fun r => by
    unfold ClientDb.Contains
    rw [hrevisions]
  have hrecords : ∀ record ∈ db'.revisions, record.revision.fields = origin record.id := by
    rw [hrevisions]
    exact h.records
  refine ⟨⟨backed_of_fields hrecords fun head hhead => ?_, hrecords⟩, fun r => (hcontains r).mpr⟩
  rw [hcontains]
  rcases hheads head hhead with hold | ⟨rev, rfl, hfields, hrev⟩
  · obtain ⟨record, hrecord, hid, -⟩ := h.backed.record head hold
    exact ⟨h.fields hold, ⟨record, hrecord, hid⟩, h.backed.data head hold⟩
  · exact ⟨hfields, hrev, headRecordFromRevision_data _ _⟩

theorem Sound.putRevision (h : Sound origin db) {record : RevisionRecord}
    (hrecord : record.revision.fields = origin record.id) :
    KeepsSound origin db ((IdbOp.putRevision record).eval db).2 := by
  refine h.of_records rfl (fun x hx => ?_) fun r ⟨x, hx, hid⟩ => ?_
  · rcases KeyedStore.mem_put.mp hx with rfl | ⟨hold, -⟩
    · exact hrecord
    · exact h.records x hold
  · by_cases hsame : x.id = record.id
    · exact ⟨record, KeyedStore.mem_put.mpr (.inl rfl), hsame.symm.trans hid⟩
    · refine ⟨x, KeyedStore.mem_put.mpr (.inr ⟨hx, fun hkey => hsame ?_⟩), hid⟩
      exact RevisionId.key_inj.mp hkey

theorem Sound.markRevision (h : Sound origin db) (id : RevisionId) (status : SyncStatus) :
    KeepsSound origin db (db.markRevision id status) := by
  refine h.of_records (markRevision_objectHeads ..) (fun x hx => ?_) fun r ⟨x, hx, hid⟩ => ?_
  · obtain ⟨old, hold, rfl⟩ := mem_markRevision.mp hx
    have := h.records old hold
    split <;> exact this
  · refine ⟨_, mem_markRevision.mpr ⟨x, hx, rfl⟩, ?_⟩
    split <;> exact hid

theorem Sound.replaceHeads (h : Sound origin db) {o : ObjectId} {heads : List Revision}
    (hheads : ∀ rev ∈ heads, rev.objectId = o ∧ rev.fields = origin rev.id ∧ db.Contains rev.id) :
    KeepsSound origin db ((IdbOp.replaceHeads o heads).eval db).2 := by
  refine h.of_heads rfl fun head hhead => ?_
  rcases mem_replaceHeads hhead with ⟨rev, hrev, rfl⟩ | ⟨hold, -⟩
  · obtain ⟨rfl, hfields, hcontains⟩ := hheads rev hrev
    exact .inr ⟨rev, rfl, hfields, hcontains⟩
  · exact .inl hold

theorem Sound.addHeads (h : Sound origin db) {heads : List Revision}
    (hheads : ∀ rev ∈ heads, rev.fields = origin rev.id ∧ db.Contains rev.id) :
    KeepsSound origin db ((IdbOp.addHeads heads).eval db).2 := by
  refine h.of_heads rfl fun head hhead => ?_
  rcases mem_addHeads hhead with ⟨rev, hrev, rfl⟩ | ⟨hold, -⟩
  · exact .inr ⟨rev, rfl, hheads rev hrev⟩
  · exact .inl hold

end Sound

/-! ### One operation -/

/-- An operation among others. -/
def boundaryEnv (origin : RevisionId → RevisionFields) : Env browser ClientError ClientDb where
  exec op db r db' := ∃ i ch, Genuine origin op ch ∧ boundary.exec i ch op db = some (r, db')
  rely db db' := Sound origin db → KeepsSound origin db db'
  guar db db' := Sound origin db → KeepsSound origin db db'
  rely_refl _ h := h.refl
  rely_trans _ _ _ h h' hs :=
    ⟨(h' (h hs).sound).sound, fun r hr => (h' (h hs).sound).contains r ((h hs).contains r hr)⟩

/-- What an operation knows: the revisions that it has put are held. -/
structure Knowing (origin : RevisionId → RevisionFields) (held : List RevisionId) (db : ClientDb) :
    Prop where
  sound : Sound origin db
  held : ∀ r ∈ held, db.Contains r

section Triples

variable {origin : RevisionId → RevisionFields} {held held' : List RevisionId}

theorem stable_knowing : Stable (boundaryEnv origin) (Knowing origin held) := fun _ _ hrely h =>
  ⟨(hrely h.sound).sound, fun r hr => (hrely h.sound).contains r (h.held r hr)⟩

theorem stable_trivial : Stable (boundaryEnv origin) fun _ => True := fun _ _ _ h => h

/-- **A transaction**, by what it does where it takes effect. -/
theorem triple_boundary {op : IdbOp} {P : Prop}
    (hstep : ∀ db, Knowing origin held db → (∃ ch, Genuine origin (.idb op) ch) →
      KeepsSound origin db (op.eval db).2 ∧ (∀ r ∈ held', (op.eval db).2.Contains r) ∧ P) :
    Triple (boundaryEnv origin) (Knowing origin held) (idb op)
      (Ends (fun _ db => Knowing origin held' db ∧ P) fun _ _ => True) := by
  refine Triple.perform stable_knowing (fun r => ?_) ?_
  · cases r with
    | ok _ => exact fun db db' hrely h => ⟨stable_knowing db db' hrely h.1, h.2⟩
    | error e => exact stable_trivial
  · rintro db r db' hknow ⟨i, ch, hgenuine, hexec⟩
    obtain ⟨hkeeps, hheld, hp⟩ := hstep db hknow ⟨ch, hgenuine⟩
    cases ch with
    | done =>
      cases hexec
      exact ⟨fun _ => hkeeps, ⟨hkeeps.sound, hheld⟩, hp⟩
    | failed e =>
      cases hexec
      exact ⟨Sound.refl, trivial⟩
    | lost e =>
      cases hexec
      exact ⟨fun _ => hkeeps, trivial⟩
    | pushReply reply => cases hexec
    | pullReply reply => cases hexec

/-- A transaction that keeps what is known. -/
theorem triple_keeps {op : IdbOp} (hop : ∀ db, Knowing origin held db →
      KeepsSound origin db (op.eval db).2) :
    Triple (boundaryEnv origin) (Knowing origin held) (idb op)
      (Ends (fun _ => Knowing origin held) fun _ _ => True) := by
  have hstep : Triple (boundaryEnv origin) (Knowing origin held) (idb op)
      (Ends (fun _ db => Knowing origin held db ∧ True) fun _ _ => True) :=
    triple_boundary fun db hknow _ =>
      ⟨hop db hknow, fun r hr => (hop db hknow).contains r (hknow.held r hr), trivial⟩
  exact hstep.weaken (fun _ _ h => h.1) fun _ _ h => h

/-- A transaction that leaves the revisions and the heads alone. -/
theorem triple_beside {op : IdbOp} (hop : ∀ db, (op.eval db).2.revisions = db.revisions ∧
      (op.eval db).2.objectHeads = db.objectHeads) :
    Triple (boundaryEnv origin) (Knowing origin held) (idb op)
      (Ends (fun _ => Knowing origin held) fun _ _ => True) := by
  refine triple_keeps fun db hknow => ?_
  obtain ⟨hrevisions, hheads⟩ := hop db
  exact hknow.sound.of_heads hrevisions fun head hhead => .inl (hheads ▸ hhead)

/-- A revision that is put is held from then on, and has the fields of its id. -/
theorem triple_put (rev : Revision) (status : SyncStatus) :
    Triple (boundaryEnv origin) (Knowing origin held)
      (idb (.putRevision (.fromRevision rev status)))
      (Ends (fun _ db => Knowing origin (rev.id :: held) db ∧ rev.fields = origin rev.id)
        fun _ _ => True) := by
  refine triple_boundary fun db hknow ⟨_, hrev⟩ => ?_
  have hkeeps := hknow.sound.putRevision hrev
  refine ⟨hkeeps, List.forall_mem_cons.mpr ⟨?_, fun r hr => hkeeps.contains r (hknow.held r hr)⟩,
    hrev⟩
  exact ⟨_, KeyedStore.mem_put.mpr (.inl rfl), rfl⟩

/-- Making heads of revisions that are held. -/
theorem triple_setHeads {op : IdbOp} {heads : List Revision}
    (hheads : ∀ rev ∈ heads, rev.fields = origin rev.id ∧ rev.id ∈ held)
    (hop : op = .addHeads heads ∨
      ∃ o, op = .replaceHeads o heads ∧ ∀ rev ∈ heads, rev.objectId = o) :
    Triple (boundaryEnv origin) (Knowing origin held) (idb op)
      (Ends (fun _ => Knowing origin held) fun _ _ => True) := by
  refine triple_keeps fun db hknow => ?_
  rcases hop with rfl | ⟨o, rfl, ho⟩
  · refine hknow.sound.addHeads fun rev hrev => ?_
    obtain ⟨hfields, hheld⟩ := hheads rev hrev
    exact ⟨hfields, hknow.held _ hheld⟩
  · refine hknow.sound.replaceHeads fun rev hrev => ?_
    obtain ⟨hfields, hheld⟩ := hheads rev hrev
    exact ⟨ho rev hrev, hfields, hknow.held _ hheld⟩

theorem triple_stop {α : Type} {P : ClientDb → Prop} {Q : α → ClientDb → Prop} (e : ClientError) :
    Triple (boundaryEnv origin) P (.fail e) (Ends Q fun _ _ => True) :=
  fun _ _ _ _ => trivial

/-! ### Calls -/

/-- **A revision is put before it is made a head.** -/
theorem triple_written (rev : Revision) :
    Triple (boundaryEnv origin) (Knowing origin held) (writeRevision rev)
      (Ends (fun _ _ => True) fun _ _ => True) := by
  unfold writeRevision
  refine Triple.seq (triple_put rev .pending) (fun _ => ?_) (fun _ => stable_trivial) fun _ _ h => h
  rintro db ⟨hknow, hfields⟩
  have hheads : Triple (boundaryEnv origin) (Knowing origin (rev.id :: held))
      (idb (.replaceHeads rev.objectId [rev]))
      (Ends (fun _ => Knowing origin (rev.id :: held)) fun _ _ => True) :=
    triple_setHeads (List.forall_mem_singleton.mpr ⟨hfields, List.mem_cons_self⟩)
      (.inr ⟨_, rfl, List.forall_mem_singleton.mpr rfl⟩)
  refine Triple.seq hheads (fun _ => ?_) (fun _ => stable_trivial) (fun _ _ h => h) db hknow
  exact Triple.done stable_knowing fun _ _ => trivial

theorem triple_writes (repo : Repository) (call : Call) (draw : Draw) :
    Triple (boundaryEnv origin) (Knowing origin held) (call.program repo draw)
      (Ends (fun _ _ => True) fun _ _ => True) := by
  rcases call.shape repo draw with ⟨e, he⟩ | ⟨rev, -, hwrite⟩ | ⟨f, hf, hall⟩
  · rw [he]
    exact triple_stop e
  · rw [hwrite]
    exact triple_written rev
  · rw [hf]
    have hread : Triple (boundaryEnv origin) (Knowing origin held)
        (idb (.getHeads (call.objectId draw)))
        (Ends (fun _ => Knowing origin held) fun _ _ => True) :=
      triple_beside fun _ => ⟨rfl, rfl⟩
    refine Triple.seq hread (fun heads => ?_) (fun _ => stable_trivial) fun _ _ h => h
    rcases hall heads with ⟨e, he⟩ | ⟨rev, -, hwrite⟩
    · rw [he]
      exact triple_stop e
    · rw [hwrite]
      exact triple_written rev

/-! ### Pushes -/

/-- A transaction that sets the status of a revision. -/
theorem triple_mark {op : IdbOp} {id : RevisionId} {status : SyncStatus}
    (hop : ∀ db, (op.eval db).2 = db.markRevision id status) :
    Triple (boundaryEnv origin) (Knowing origin held) (idb op)
      (Ends (fun _ => Knowing origin held) fun _ _ => True) := by
  refine triple_keeps fun db hknow => ?_
  rw [hop]
  exact hknow.sound.markRevision id status

/-- A loop, where each round knows as much afterwards as it did before. -/
theorem triple_loop {α : Type} {body : α → Browser Unit} (xs : List α)
    (hbody : ∀ x, Triple (boundaryEnv origin) (Knowing origin held) (body x)
      (Ends (fun _ => Knowing origin held) fun _ _ => True)) :
    Triple (boundaryEnv origin) (Knowing origin held) (.forEach body xs)
      (Ends (fun _ => Knowing origin held) fun _ _ => True) :=
  Triple.forEach (fun _ => stable_knowing) (fun _ => stable_trivial) (fun _ x _ _ => hbody x) xs []
    rfl

/-- The server answers, and the stores are as they were. -/
theorem triple_postPush (req : PushRequest) :
    Triple (boundaryEnv origin) (Knowing origin held)
      (.perform (S := browser) (.postChanges req))
      (Ends (fun _ => Knowing origin held) fun _ _ => True) := by
  refine Triple.perform stable_knowing (fun r => ?_) ?_
  · cases r with
    | ok _ => exact stable_knowing
    | error e => exact stable_trivial
  · rintro db r db' hknow ⟨i, ch, -, hexec⟩
    cases ch with
    | pushReply reply =>
      cases hexec
      refine ⟨Sound.refl, ?_⟩
      cases r with
      | ok _ => exact hknow
      | error e => trivial
    | done | failed e | lost e | pullReply reply => cases hexec

/-- **A push sets the status of revisions**, and leaves them where they are. -/
theorem triple_backedPush : Triple (boundaryEnv origin) (Knowing origin held) pushPending
    (Ends (fun _ => Knowing origin held) fun _ _ => True) := by
  have hread : Triple (boundaryEnv origin) (Knowing origin held) (idb .getPendingRevisions)
      (Ends (fun _ => Knowing origin held) fun _ _ => True) := triple_beside fun _ => ⟨rfl, rfl⟩
  unfold pushPending
  refine Triple.seq hread (fun pending => ?_) (fun _ => stable_trivial) fun _ _ h => h
  split
  · exact Triple.done stable_knowing fun _ h => h
  refine Triple.seq (triple_postPush _) (fun reply => ?_) (fun _ => stable_trivial) fun _ _ h => h
  rcases json_cases reply "push failed: " with ⟨e, he, -⟩ | ⟨resp, hresp, -⟩
  · rw [he]
    exact triple_stop e
  rw [hresp]
  show Triple (boundaryEnv origin) (Knowing origin held) (do
    .forEach (fun revId => idb (.markRevisionSynced revId)) resp.accepted
    .forEach (fun rejected => idb (.markRevisionError rejected.revisionId rejected.reason))
      resp.rejected
    return (resp.accepted.length, resp.rejected)) _
  refine Triple.seq (triple_loop resp.accepted fun id => triple_mark fun _ => rfl) (fun _ => ?_)
    (fun _ => stable_trivial) fun _ _ h => h
  refine Triple.seq (triple_loop resp.rejected fun x => triple_mark fun _ => rfl) (fun _ => ?_)
    (fun _ => stable_trivial) fun _ _ h => h
  exact Triple.done stable_knowing fun _ h => h

/-! ### Pulls -/

/-- What the server answers has the fields of its ids, under the objects that it is for. -/
theorem triple_postPull (params : PullRequest) :
    Triple (boundaryEnv origin) (Knowing origin held)
      (.perform (S := browser) (.postChangesQuery params))
      (Ends (fun reply db => Knowing origin held db ∧ ∀ u ∈ updatesOf (.ok reply), ∀ rev ∈ u.heads,
        rev.objectId = u.objectId ∧ rev.fields = origin rev.id) fun _ _ => True) := by
  refine Triple.perform stable_knowing (fun r => ?_) ?_
  · cases r with
    | ok _ => exact fun db db' hrely h => ⟨stable_knowing db db' hrely h.1, h.2⟩
    | error e => exact stable_trivial
  · rintro db r db' hknow ⟨i, ch, hgenuine, hexec⟩
    cases ch with
    | pullReply reply =>
      cases hexec
      refine ⟨Sound.refl, ?_⟩
      cases r with
      | ok _ => exact ⟨hknow, hgenuine⟩
      | error e => trivial
    | done | failed e | lost e | pushReply reply => cases hexec

/-- The heads of an update are put one after the other, and are all held then. -/
theorem triple_puts (heads : List Revision) :
    Triple (boundaryEnv origin) (Knowing origin [])
      (.forEach (fun rev => idb (.putRevision (.fromRevision rev .synced))) heads)
      (Ends (fun _ => Knowing origin (heads.map (·.id))) fun _ _ => True) := by
  refine Triple.forEach (I := fun xs => Knowing origin (xs.map (·.id))) (fun _ => stable_knowing)
    (fun _ => stable_trivial) (fun xs x rest _ => ?_) heads [] rfl
  refine (triple_put x .synced).weaken (fun _ db h => ⟨h.1.sound, fun r hr => h.1.held r ?_⟩)
    fun _ _ h => h
  rw [List.map_append, List.mem_append, List.map_singleton, List.mem_singleton] at hr
  exact List.mem_cons.mpr hr.symm

/-- **The heads of an update are held before they are made heads.** -/
theorem triple_apply {u : ObjectUpdate}
    (hu : ∀ rev ∈ u.heads, rev.objectId = u.objectId ∧ rev.fields = origin rev.id) :
    Triple (boundaryEnv origin) (Knowing origin []) (applyUpdate u)
      (Ends (fun _ => Knowing origin []) fun _ _ => True) := by
  have hheld : ∀ rev ∈ u.heads, rev.fields = origin rev.id ∧ rev.id ∈ u.heads.map (·.id) :=
    fun rev hrev => ⟨(hu rev hrev).2, List.mem_map_of_mem hrev⟩
  have hset : ∀ {op : IdbOp} (b : Bool), (op = .addHeads u.heads ∨
      ∃ o, op = .replaceHeads o u.heads ∧ ∀ rev ∈ u.heads, rev.objectId = o) →
      Triple (boundaryEnv origin) (Knowing origin (u.heads.map (·.id)))
        (do let _ ← idb op; return b) (Ends (fun _ => Knowing origin []) fun _ _ => True) := by
    intro op b hop
    refine Triple.seq (triple_setHeads hheld hop) (fun _ => ?_) (fun _ => stable_trivial)
      fun _ _ h => h
    exact Triple.done stable_knowing fun db h => ⟨h.sound, List.forall_mem_nil _⟩
  unfold applyUpdate
  refine Triple.seq (triple_puts u.heads) (fun _ => ?_) (fun _ => stable_trivial) fun _ _ h => h
  cases u.action with
  | conflict => exact hset true (.inl rfl)
  | replace =>
    have hread : Triple (boundaryEnv origin) (Knowing origin (u.heads.map (·.id)))
        (idb (.getHeads u.objectId))
        (Ends (fun _ => Knowing origin (u.heads.map (·.id))) fun _ _ => True) :=
      triple_beside fun _ => ⟨rfl, rfl⟩
    refine Triple.seq hread (fun existing => ?_) (fun _ => stable_trivial) fun _ _ h => h
    split
    · exact hset true (.inl rfl)
    · exact hset false (.inr ⟨_, rfl, fun rev hrev => (hu rev hrev).1⟩)

theorem triple_applyAll : ∀ {updates : List ObjectUpdate} (counts : ℕ × ℕ),
    (∀ u ∈ updates, ∀ rev ∈ u.heads, rev.objectId = u.objectId ∧ rev.fields = origin rev.id) →
    Triple (boundaryEnv origin) (Knowing origin []) (applyUpdates updates counts)
      (Ends (fun _ => Knowing origin []) fun _ _ => True)
  | [], _, _ => Triple.done stable_knowing fun _ h => h
  | u :: updates, (pulled, conflicted), hall => by
    obtain ⟨hu, hall⟩ := List.forall_mem_cons.mp hall
    unfold applyUpdates
    exact Triple.seq (triple_apply hu) (fun _ => triple_applyAll _ hall) (fun _ => stable_trivial)
      fun _ _ h => h

theorem triple_readState : Triple (boundaryEnv origin) (Knowing origin held) (idb .readSyncState)
    (Ends (fun _ => Knowing origin held) fun _ _ => True) := by
  refine triple_beside fun db => ?_
  simp only [IdbOp.eval]
  split <;> exact ⟨rfl, rfl⟩

/-- **A pull puts revisions before it makes them heads.** -/
theorem triple_backedPull (params : PullRequest) :
    Triple (boundaryEnv origin) (Knowing origin []) (pullUpdates params)
      (Ends (fun _ => Knowing origin []) fun _ _ => True) := by
  unfold pullUpdates
  refine Triple.seq (triple_postPull params) (fun reply => ?_) (fun _ => stable_trivial)
    fun _ _ h => h
  rintro db ⟨hknow, hgenuine⟩
  rcases json_cases reply "pull failed: " with ⟨e, he, -⟩ | ⟨resp, hresp, hparsed⟩
  · rw [he]
    exact triple_stop e db hknow
  have hupdates : updatesOf (.ok reply) = resp.objectUpdates := by
    unfold updatesOf
    rw [hparsed]
  rw [hupdates] at hgenuine
  rw [hresp]
  refine Triple.seq (triple_applyAll _ hgenuine) (fun counts => ?_) (fun _ => stable_trivial)
    (fun _ _ h => h) db hknow
  refine Triple.seq triple_readState (fun state => ?_) (fun _ => stable_trivial) fun _ _ h => h
  have hdone : Triple (boundaryEnv origin) (Knowing origin []) (pure counts)
      (Ends (fun _ => Knowing origin []) fun _ _ => True) := Triple.done stable_knowing fun _ h => h
  obtain ⟨client, user, last⟩ := state
  cases client with
  | none => exact hdone
  | some cid =>
    cases user with
    | none => exact hdone
    | some uid =>
      have hwrite : Triple (boundaryEnv origin) (Knowing origin [])
          (idb (.writeSyncState cid uid (some resp.upToTransaction)))
          (Ends (fun _ => Knowing origin []) fun _ _ => True) :=
        triple_beside fun _ => ⟨rfl, rfl⟩
      exact Triple.seq hwrite (fun _ => hdone) (fun _ => stable_trivial) fun _ _ h => h

theorem triple_backedSync (params : PullRequest) :
    Triple (boundaryEnv origin) (Knowing origin []) (Repository.sync params)
      (Ends (fun _ _ => True) fun _ _ => True) := by
  have hboth : ∀ params, Triple (boundaryEnv origin) (Knowing origin []) (sync params)
      (Ends (fun _ _ => True) fun _ _ => True) := by
    intro params
    unfold sync
    refine Triple.seq triple_backedPush (fun pushed => ?_) (fun _ => stable_trivial) fun _ _ h => h
    refine Triple.seq (triple_backedPull params) (fun pulled => ?_) (fun _ => stable_trivial)
      fun _ _ h => h
    exact Triple.done stable_knowing fun _ _ => trivial
  unfold Repository.sync
  split
  · exact Triple.seq triple_readState (fun _ => hboth _) (fun _ => stable_trivial) fun _ _ h => h
  · exact hboth params

/-- Whatever an operation is, it leaves the heads backed at each of its transactions. -/
theorem triple_activity (activity : Activity) :
    Triple (boundaryEnv origin) (Sound origin) activity.program fun _ _ => True := by
  have hignore : ∀ {α : Type} {p : Browser α} {Q : α → ClientDb → Prop},
      Triple (boundaryEnv origin) (Knowing origin []) p (Ends Q fun _ _ => True) →
      Triple (boundaryEnv origin) (Sound origin) (do let _ ← p) fun _ _ => True := by
    intro α p Q hp db hdb
    have hquiet : Triple (boundaryEnv origin) (Knowing origin []) p
        (Ends (fun _ _ => True) fun _ _ => True) := hp.weaken (fun _ _ _ => trivial) fun _ _ h => h
    have hseq : Triple (boundaryEnv origin) (Knowing origin []) (do let _ ← p)
        (Ends (fun _ _ => True) fun _ _ => True) :=
      Triple.seq hquiet (fun _ => Triple.done stable_trivial fun _ h => h)
        (fun _ => stable_trivial) fun _ _ h => h
    exact (hseq db ⟨hdb, List.forall_mem_nil _⟩).mono fun _ _ _ => trivial
  cases activity with
  | call repo c draw => exact hignore (triple_writes repo c draw)
  | push => exact hignore triple_backedPush
  | pull params => exact hignore (triple_backedPull params)
  | sync params => exact hignore (triple_backedSync params)

end Triples

/-! ### All of them -/

section Together

variable {origin : RevisionId → RevisionFields}

theorem compatible_boundary : Compatible boundary Activity.program (GenuineStep origin)
    (fun _ _ => boundaryEnv origin) (Sound origin) (fun _ _ => True) fun _ _ _ _ => True where
  exec _ _ ch _ op _ _ _ hl hp hx := ⟨_, ch, hl op (Config.pending_eq hp), hx⟩
  guar_rely _ _ _ _ _ _ _ h := h
  guar_inv _ _ _ _ h hs := (h hs).sound
  guar_idle _ _ _ _ _ _ _ _ _ := trivial
  start c _ req _ hs _ := triple_activity req c.shared hs

/-- **Every head is backed, at every transaction boundary**: however the operations on one
database interleave, and whichever of them are stopped. -/
theorem heads_backed {db : ClientDb} (hbacked : Backed db)
    (hrecords : ∀ record ∈ db.revisions, record.revision.fields = origin record.id)
    {c : BoundaryConfig} (hc : Reachable boundary Activity.program (GenuineStep origin) db c) :
    Backed c.shared :=
  (hc.safe compatible_boundary ⟨hbacked, hrecords⟩ fun _ => trivial).inv.backed

end Together

/-! ### A save and a pull -/

/-- Revision 1 is the save of object 10, revision 2 that of object 20 by another client. -/
def savedOrigin (r : RevisionId) : RevisionFields :=
  ⟨if r = ⟨⟨2⟩⟩ then ⟨⟨20⟩⟩ else ⟨⟨10⟩⟩, "trip", .root, .active .null⟩

/-- The update of object 20. -/
def deliveredUpdate : ObjectUpdate :=
  ⟨⟨⟨20⟩⟩, .replace, [⟨⟨⟨2⟩⟩, ⟨⟨20⟩⟩, "trip", .root, 0, ⟨⟨8⟩⟩, .active .null⟩]⟩

/-- The save is stopped between its two transactions for the time that the pull takes. -/
def stoppedLabels : List (Label ℕ Turn Activity) :=
  [.start 0 (.call ⟨⟨⟨7⟩⟩, ⟨⟨1⟩⟩⟩ (.save "trip" (.ok .null)) ⟨⟨⟨10⟩⟩, ⟨⟨1⟩⟩, 0⟩), .step 0 .done,
    .start 1 (.pull ⟨none, none, none, none⟩),
    .step 1 (.pullReply (.ok ⟨200, .ok ⟨⟨3⟩, [deliveredUpdate]⟩⟩)), .step 1 .done, .step 1 .done,
    .step 1 .done, .step 1 (.failed (.indexedDb "aborted")), .step 0 .done]

/-- The step is consistent with `savedOrigin`. -/
def genuineSaved (c : BoundaryConfig) : Label ℕ Turn Activity → Bool
  | .start .. => true
  | .step i ch =>
      match c.pending i, ch with
      | some (.idb (.putRevision record)), _ =>
          decide (record.revision.fields = savedOrigin record.id)
      | some (.postChangesQuery _), .pullReply reply => (updatesOf reply).all fun u =>
          u.heads.all fun rev =>
            decide (rev.objectId = u.objectId ∧ rev.fields = savedOrigin rev.id)
      | _, _ => true

theorem genuineSaved_sound {c : BoundaryConfig} {l : Label ℕ Turn Activity}
    (h : genuineSaved c l = true) : GenuineStep savedOrigin c l := by
  cases l with
  | start i req => trivial
  | step i ch =>
    intro op hpending
    simp only [genuineSaved, hpending] at h
    cases op with
    | postChanges req => trivial
    | postChangesQuery params =>
      cases ch with
      | pullReply reply =>
        intro u hu rev hrev
        exact of_decide_eq_true (List.all_eq_true.mp (List.all_eq_true.mp h u hu) rev hrev)
      | _ => trivial
    | idb op =>
      cases op with
      | putRevision record =>
        have hsame : record.revision.fields = savedOrigin record.id := of_decide_eq_true h
        exact hsame
      | _ => trivial

/-- Two heads, after a pull that has failed between the two transactions of a save. -/
theorem heads_backed_stopped : ∃ c : BoundaryConfig,
    c.shared.headList = [(⟨⟨10⟩⟩, ⟨⟨1⟩⟩), (⟨⟨20⟩⟩, ⟨⟨2⟩⟩)] ∧ Backed c.shared := by
  have hrun : ((Config.init (.opened ⟨⟨7⟩⟩ ⟨⟨1⟩⟩)).runChecked boundary Activity.program
      genuineSaved stoppedLabels).map (·.shared.headList) =
      some [(⟨⟨10⟩⟩, ⟨⟨1⟩⟩), (⟨⟨20⟩⟩, ⟨⟨2⟩⟩)] := by
    decide +kernel
  obtain ⟨c, hc, hheads⟩ := Option.map_eq_some_iff.mp hrun
  have hreach : Reachable boundary Activity.program (GenuineStep savedOrigin)
      (.opened ⟨⟨7⟩⟩ ⟨⟨1⟩⟩) c :=
    Reachable.runChecked (fun _ _ => genuineSaved_sound) .init hc
  have hbacked : Backed (.opened ⟨⟨7⟩⟩ ⟨⟨1⟩⟩) := ⟨nofun, nofun⟩
  have hrecords : ∀ record ∈ (ClientDb.opened ⟨⟨7⟩⟩ ⟨⟨1⟩⟩).revisions,
      record.revision.fields = savedOrigin record.id := nofun
  exact ⟨c, hheads, heads_backed hbacked hrecords hreach⟩

end Rustend
