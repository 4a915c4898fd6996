import Rustend.Client.Carriage
import Rustend.Client.Retry
import Rustend.Client.Updates
import Rustend.Server.ReadBack

/-!
# Any number of clients on one server

Clients work on stores of their own and meet on the server.  Each of them runs any number
of calls and syncs at the same time, as sessions that come together one IndexedDB
transaction or one HTTP request at a time.  A transaction may abort, and a request or its
response may get lost.  Payloads take the ways of a `Carriage`.  Every call draws an id of
its own and asks for a payload that is kept on these ways.

## Main definitions

* `Job`, `Fleet`, `fleet` — the sessions, and the stores of all clients with the server.
* `FleetRun` — the reachable configurations.
* `Revision.SameAs` — the same revision, up to the time that a column can hold.
* `Accounted` — what the stores and the server hold has been created by a session.

## Main results

* `FleetRun.fitting`, `FleetRun.of_fitting` — fresh ids are as good as ids that are known
  beforehand.
* `Accounted.create`, `Accounted.mark`, `Accounted.push` — what a step does to the accounts.
-/

namespace Rustend

open Interleave

/-! ### The sessions -/

/-- Session `n` of a client. -/
abbrev SessionId := ClientId × ℕ

/-- What a session runs. -/
inductive Job where
  | call (repo : Repository) (call : Call) (draw : Draw)
  | sync (params : PullRequest)

/-- What a session returns. -/
inductive JobReply where
  | wrote (id : RevisionId)
  | synced (result : SyncResult)

/-- The program of a session. -/
def Job.program : Job → Browser JobReply
  | .call repo c draw => do return .wrote (← c.program repo draw)
  | .sync params => do return .synced (← Repository.sync params)

/-- The content that a call asks for. -/
def Call.Asks : Call → Content → Prop
  | .save _ value, content => ∃ v, value = .ok v ∧ content = .active v
  | .update _ _ value, content => ∃ v, value = .ok v ∧ content = .active v
  | .delete .., content => content = .deleted
  | .resolveConflict _ _ (.active value), content => ∃ v, value = .ok v ∧ content = .active v
  | .resolveConflict _ _ .deleted, content => content = .deleted

/-- The payload that a call asks for, if it asks for one that can be serialized. -/
def Call.payload : Call → Option Json
  | .save _ value | .update _ _ value | .resolveConflict _ _ (.active value) => value.toOption
  | .delete .. | .resolveConflict _ _ .deleted => none

theorem Call.Asks.within {K : Json → Prop} {call : Call} {content : Content}
    (h : call.Asks content) (hkept : ∀ v ∈ call.payload, K v) : content.Within K := by
  cases call with
  | save objectType value =>
    obtain ⟨v, rfl, rfl⟩ := h
    exact hkept v rfl
  | update o p value =>
    obtain ⟨v, rfl, rfl⟩ := h
    exact hkept v rfl
  | delete o p =>
    cases h
    trivial
  | resolveConflict o parents resolved =>
    cases resolved with
    | active value =>
      obtain ⟨v, rfl, rfl⟩ := h
      exact hkept v rfl
    | deleted =>
      cases h
      trivial

/-- What a job may create: a call one revision, with the content that it asks for and on top of
the heads that it has read, and a sync none. -/
def Job.Creates : Job → Revision → Prop
  | .call repo c draw, rev => (∃ heads, c.CreatesFrom repo draw heads rev) ∧ c.Asks rev.content
  | .sync _, _ => False

/-- A request that puts nothing but revisions with a content of `P`. -/
def Puts (P : Content → Prop) (op : browser.Op) : Prop :=
  ∀ record, op = .idb (.putRevision record) → P record.revision.content

theorem issues_writeRevision {P : Content → Prop} {rev : Revision} :
    (writeRevision rev).Issues (Puts P) ↔ P rev.content := by
  constructor
  · exact fun h => h.1 _ rfl
  · intro h
    refine .bind (.perform ?_) fun _ => .bind (.perform nofun) fun _ => trivial
    rintro _ ⟨rfl⟩
    exact h

theorem issues_toValue {α : Type} {P : Content → Prop} (value : Except String Json)
    {f : Json → Browser α} (h : ∀ v, value = .ok v → (f v).Issues (Puts P)) :
    (toValue value >>= f).Issues (Puts P) := by
  cases value with
  | ok v => exact h v rfl
  | error msg => trivial

/-- Reading the heads and checking the parents puts nothing. -/
theorem issues_checked {P : Content → Prop} (heads : List HeadRecord) (parents : List RevisionId)
    {f : String → Browser RevisionId} (h : ∀ objectType, (f objectType).Issues (Puts P)) :
    (do checkParentsAreHeads heads parents; f (← objectTypeOf heads)).Issues (Puts P) := by
  refine .bind ?_ fun _ => .bind ?_ h
  · unfold checkParentsAreHeads
    split <;> trivial
  · unfold objectTypeOf
    split <;> trivial

theorem issues_edit {P : Content → Prop} {repo : Repository} {draw : Draw} {o : ObjectId}
    {p : RevisionId} {content : Content} (h : P content) :
    (repo.edit o p content draw).Issues (Puts P) := by
  refine .bind (.perform nofun) fun heads => ?_
  split
  · trivial
  · exact issues_checked heads [p] fun _ => issues_writeRevision.mpr h

/-- **A call puts nothing but the content that it asks for.** -/
theorem Call.issues_asks (call : Call) (repo : Repository) (draw : Draw) :
    (call.program repo draw).Issues (Puts call.Asks) := by
  cases call with
  | save objectType value =>
    refine .bind (issues_toValue value fun v hv => ?_) fun _ => trivial
    exact .bind (issues_writeRevision.mpr ⟨v, hv, rfl⟩) fun _ => trivial
  | update o p value => exact issues_toValue value fun v hv => issues_edit ⟨v, hv, rfl⟩
  | delete o p => exact issues_edit rfl
  | resolveConflict o parents resolved =>
    match parents with
    | [] => trivial
    | [_] => trivial
    | a :: b :: rest =>
      refine .bind (.perform nofun) fun heads => issues_checked heads _ fun objectType => ?_
      cases resolved with
      | deleted => exact issues_writeRevision.mpr rfl
      | active value =>
        cases value with
        | ok v => exact issues_writeRevision.mpr ⟨v, rfl, rfl⟩
        | error msg => trivial

/-- What becomes of a request of a session. -/
inductive Fate where
  | commits
  | aborts (msg : String)
  | delivered (d : Delivery)
  deriving DecidableEq

/-- The stores of every client, and the server. -/
structure Fleet where
  stores : ClientId → ClientDb
  server : Conn
  /-- The revision that a session has put into the stores as a pending one. -/
  made : SessionId → Option Revision

namespace Fleet

/-- The first revisions have yet to be created. -/
def start (users : ClientId → UserId) : Fleet :=
  ⟨fun a => .opened a (users a), Db.empty.conn 0, fun _ => none⟩

/-- After a transaction of session `i`. -/
def after (s : Fleet) (i : SessionId) (op : IdbOp) : Fleet where
  stores := Function.update s.stores i.1 (op.eval (s.stores i.1)).2
  server := s.server
  made :=
    match op with
    | .putRevision record =>
        if record.syncStatus = .pending then Function.update s.made i (some record.revision)
        else s.made
    | _ => s.made

@[simp] theorem after_server (s : Fleet) (i : SessionId) (op : IdbOp) :
    (s.after i op).server = s.server := rfl

@[simp] theorem after_stores_self (s : Fleet) (i : SessionId) (op : IdbOp) :
    (s.after i op).stores i.1 = (op.eval (s.stores i.1)).2 := Function.update_self ..

theorem after_stores_of_ne (s : Fleet) {i : SessionId} (op : IdbOp) {a : ClientId} (h : a ≠ i.1) :
    (s.after i op).stores a = s.stores a := Function.update_of_ne h ..

end Fleet

/-- A transaction of session `i`.  A value is converted before it is put: the transaction commits
with what has been put before a value that cannot be converted. -/
def Fleet.transact (carriage : Carriage) (s : Fleet) (i : SessionId) :
    (op : IdbOp) → Except ClientError op.Res × Fleet
  | .putRevision record =>
      match carriage.stored record.revision with
      | .ok rev => (.ok (), s.after i (.putRevision (.fromRevision rev record.syncStatus)))
      | .error msg => (.error (.indexedDb msg), s)
  | .replaceHeads o heads =>
      ((carriage.storedAll heads).2.mapError .indexedDb,
        s.after i (.replaceHeads o (carriage.storedAll heads).1))
  | .addHeads heads =>
      ((carriage.storedAll heads).2.mapError .indexedDb,
        s.after i (.addHeads (carriage.storedAll heads).1))
  | op => (.ok (op.eval (s.stores i.1)).1, s.after i op)

/-- The stores, one transaction at a time, and the server, one request at a time. -/
def fleet (carriage : Carriage) : Machine browser ClientError SessionId Fate Fleet where
  exec i ch op s :=
    match op, ch with
    | .idb op, .commits => some (s.transact carriage i op)
    | .idb _, .aborts msg => some (.error (.indexedDb msg), s)
    | .postChanges req, .delivered d =>
        let x := d.deliver ((carriage.server i.1).changes req) s.server
        some (x.1, { s with server := x.2 })
    | .postChangesQuery req, .delivered d =>
        let x := d.deliver ((carriage.server i.1).changesQuery req) s.server
        some (x.1, { s with server := x.2 })
    | _, _ => none

/-- The revisions whose payloads a transaction puts. -/
def IdbOp.revisions : IdbOp → List Revision
  | .putRevision record => [record.revision]
  | .replaceHeads _ heads | .addHeads heads => heads
  | _ => []

/-- A transaction that puts kept payloads does what it does. -/
theorem Carriage.Keeps.transact {carriage : Carriage} {K : Json → Prop} (h : carriage.Keeps K)
    {op : IdbOp} (hop : ∀ rev ∈ op.revisions, rev.content.Within K) (s : Fleet) (i : SessionId) :
    s.transact carriage i op = (.ok (op.eval (s.stores i.1)).1, s.after i op) := by
  cases op with
  | putRevision record =>
    simp only [Fleet.transact, h.stored (hop _ List.mem_cons_self)]
    rfl
  | replaceHeads o heads =>
    have hheads : carriage.storedAll heads = (heads, .ok ()) := h.storedAll hop
    simp only [Fleet.transact, hheads]
    rfl
  | addHeads heads =>
    have hheads : carriage.storedAll heads = (heads, .ok ()) := h.storedAll hop
    simp only [Fleet.transact, hheads]
    rfl
  | _ => rfl

/-- The sessions of all clients. -/
abbrev FleetConfig := Config browser ClientError SessionId Job JobReply Fleet

/-- A call is made under the identity of its client, asks for a payload of `K`, and draws an id
that no call has drawn. -/
def Fresh (K : Json → Prop) (c : FleetConfig) : Label SessionId Fate Job → Prop
  | .start i (.call repo call draw) => repo.clientId = i.1 ∧ (∀ v ∈ call.payload, K v) ∧
      ∀ j repo' call' draw' p,
        c.procs j = some (.call repo' call' draw', p) → draw'.revisionId ≠ draw.revisionId
  | _ => True

/-- The configurations that any interleaving reaches. -/
abbrev FleetRun (carriage : Carriage) (K : Json → Prop) (users : ClientId → UserId)
    (c : FleetConfig) : Prop :=
  Reachable (fleet carriage) Job.program (Fresh K) (Fleet.start users) c

/-! ### The drawn ids -/

/-- The ids of the sessions that draw one. -/
abbrev DrawnIds := SessionId → Option RevisionId

/-- No id belongs to two sessions. -/
def Distinct (ids : DrawnIds) : Prop :=
  ∀ i j r, ids i = some r → ids j = some r → i = j

/-- A call draws the id of its session, and asks for a payload of `K`. -/
def Job.Fits (K : Json → Prop) (ids : DrawnIds) (i : SessionId) : Job → Prop
  | .call repo c draw =>
      repo.clientId = i.1 ∧ (∀ v ∈ c.payload, K v) ∧ ids i = some draw.revisionId
  | .sync _ => True

/-- Sessions start with what fits them; everything else may happen. -/
def Fitting (K : Json → Prop) (ids : DrawnIds) : Label SessionId Fate Job → Prop
  | .start i job => job.Fits K ids i
  | .step .. => True

/-- The id that a job draws. -/
def Job.drawn : Job → Option RevisionId
  | .call _ _ draw => some draw.revisionId
  | .sync _ => none

/-- The id that session `i` has drawn. -/
def drawn (c : FleetConfig) (i : SessionId) : Option RevisionId :=
  (c.procs i).bind fun x => x.1.drawn

instance (K : Json → Prop) [DecidablePred K] (ids : DrawnIds) (i : SessionId) :
    DecidablePred (Job.Fits K ids i)
  | .call .. => inferInstanceAs (Decidable (_ ∧ _ ∧ _))
  | .sync _ => inferInstanceAs (Decidable True)

instance (K : Json → Prop) [DecidablePred K] (ids : DrawnIds) : DecidablePred (Fitting K ids)
  | .start i job => inferInstanceAs (Decidable (job.Fits K ids i))
  | .step .. => inferInstanceAs (Decidable True)

section Drawn

variable {carriage : Carriage} {K : Json → Prop} {ids : DrawnIds} {users : ClientId → UserId}
  {c : FleetConfig}

/-- The sessions that have started fit. -/
theorem fits_of_fitting
    (hc : Reachable (fleet carriage) Job.program (fun _ l => Fitting K ids l)
      (Fleet.start users) c) :
    ∀ i job p, c.procs i = some (job, p) → job.Fits K ids i := by
  induction hc with
  | init =>
    intro i job p hp
    cases hp
  | next _ hl hn ih =>
    intro i job p hp
    rcases Config.next_cases hn with ⟨j, job', rfl, -, -, hp'⟩ |
      ⟨j, ch, job', op, next, r, -, hj, -, hp'⟩ <;>
      rw [hp', Function.update_apply] at hp <;> split at hp
    · next hij =>
      cases hp
      exact hij ▸ hl
    · exact ih i job p hp
    · next hij =>
      cases hp
      exact hij ▸ ih j job _ hj
    · exact ih i job p hp

/-- **Ids that are known beforehand are fresh** when they are drawn. -/
theorem FleetRun.of_fitting (hids : Distinct ids)
    (hc : Reachable (fleet carriage) Job.program (fun _ l => Fitting K ids l)
      (Fleet.start users) c) :
    FleetRun carriage K users c := by
  induction hc with
  | init => exact .init
  | @next c c' l hc hl hn ih =>
    refine ih.next ?_ hn
    rcases Config.next_cases hn with ⟨i, job, rfl, hi, -⟩ | ⟨i, ch, _, _, _, _, rfl, -⟩
    · cases job with
      | sync params => trivial
      | call repo call draw =>
        refine ⟨hl.1, hl.2.1, fun j repo' call' draw' p hj heq => ?_⟩
        -- the other session would be the one that starts
        have hdrawn : ids j = some draw.revisionId := heq ▸ (fits_of_fitting hc j _ p hj).2.2
        rw [hids j i _ hdrawn hl.2.2, hi] at hj
        cases hj
    · trivial

theorem drawn_next {c c' : FleetConfig} {l : Label SessionId Fate Job}
    (hn : c.next (fleet carriage) Job.program l = some c') :
    (∃ i job, l = .start i job ∧ drawn c i = none ∧
      drawn c' = Function.update (drawn c) i job.drawn) ∨
      (∃ i ch, l = .step i ch) ∧ drawn c' = drawn c := by
  rcases Config.next_cases hn with ⟨i, job, rfl, hi, -, hp⟩ |
    ⟨i, ch, job, op, next, r, rfl, hi, -, hp⟩
  · refine .inl ⟨i, job, rfl, by rw [drawn, hi]; rfl, funext fun j => ?_⟩
    rw [drawn, hp, Function.update_apply, Function.update_apply]
    split
    · rfl
    · rfl
  · refine .inr ⟨⟨i, ch, rfl⟩, funext fun j => ?_⟩
    rw [drawn, drawn, hp, Function.update_apply]
    split
    · next hj => rw [hj, hi]; rfl
    · rfl

/-- What a call draws, no session has drawn. -/
theorem Fresh.drawn {i : SessionId} {job : Job} (h : Fresh K c (.start i job)) {r : RevisionId}
    (hr : job.drawn = some r) (j : SessionId) : drawn c j ≠ some r := by
  intro hj
  obtain ⟨⟨job', p⟩, hp, hj⟩ := Option.bind_eq_some_iff.mp hj
  cases job with
  | sync params => cases hr
  | call repo call draw =>
    cases job' with
    | sync params => cases hj
    | call repo' call' draw' =>
      exact h.2.2 j repo' call' draw' p hp (Option.some.inj (hj.trans hr.symm))

theorem FleetRun.distinct (hc : FleetRun carriage K users c) : Distinct (drawn c) := by
  induction hc with
  | init => exact fun i j r hi => by cases hi
  | next _ hl hn ih =>
    rcases drawn_next hn with ⟨i, job, rfl, -, hdrawn⟩ | ⟨-, hdrawn⟩ <;> rw [hdrawn]
    · intro j k r hj hk
      rw [Function.update_apply] at hj hk
      split at hj <;> split at hk
      · next hji hki => exact hji.trans hki.symm
      · exact absurd hk (hl.drawn hj k)
      · exact absurd hj (hl.drawn hk j)
      · exact ih j k r hj hk
    · exact ih

/-- **Fresh ids could have been known beforehand.** -/
theorem FleetRun.fitting (hc : FleetRun carriage K users c) : ∀ {ids : DrawnIds},
    (∀ i r, drawn c i = some r → ids i = some r) →
    Reachable (fleet carriage) Job.program (fun _ l => Fitting K ids l) (Fleet.start users) c := by
  induction hc with
  | init => exact fun _ => .init
  | next _ hl hn ih =>
    intro ids hall
    rcases drawn_next hn with ⟨i, job, rfl, hi, hdrawn⟩ | ⟨⟨i, ch, rfl⟩, hdrawn⟩ <;>
      rw [hdrawn] at hall
    · refine (ih fun j r hj => hall j r ?_).next ?_ hn
      · have hji : j ≠ i := fun hji => by rw [hji, hi] at hj; cases hj
        rwa [Function.update_of_ne hji]
      · cases job with
        | sync params => trivial
        | call repo call draw =>
          exact ⟨hl.1, hl.2.1, hall i _ (by rw [Function.update_self]; rfl)⟩
    · refine (ih hall).next ?_ hn
      trivial

end Drawn

/-! ### The same revision -/

/-- A time that a column has held is kept as it is. -/
theorem storedTime_storedTime (t : DateTime) : storedTime (storedTime t) = storedTime t := by
  have hmicros : pgMicros (storedTime t) = pgMicros t := by
    unfold pgMicros storedTime
    rw [add_sub_cancel_left, Int.mul_tdiv_cancel _ (by decide)]
    rfl
  rw [storedTime, hmicros, ← storedTime]

/-- Two copies of one revision: equal, up to the time that a column can hold and the order of
the parents. -/
structure Revision.SameAs (rev other : Revision) : Prop where
  row : rev.row.stored = other.row.stored
  parents : ∀ p, p ∈ rev.parents ↔ p ∈ other.parents

namespace Revision.SameAs

variable {rev other third : Revision}

theorem refl (rev : Revision) : rev.SameAs rev := ⟨rfl, fun _ => Iff.rfl⟩

theorem symm (h : rev.SameAs other) : other.SameAs rev :=
  ⟨h.row.symm, fun p => (h.parents p).symm⟩

theorem trans (h : rev.SameAs other) (h' : other.SameAs third) : rev.SameAs third :=
  ⟨h.row.trans h'.row, fun p => (h.parents p).trans (h'.parents p)⟩

theorem id (h : rev.SameAs other) : rev.id = other.id := congrArg (·.id) h.row

theorem objectId (h : rev.SameAs other) : rev.objectId = other.objectId :=
  congrArg (·.objectId) h.row

theorem objectType (h : rev.SameAs other) : rev.objectType = other.objectType :=
  congrArg (·.objectType) h.row

theorem createdBy (h : rev.SameAs other) : rev.createdBy = other.createdBy :=
  congrArg (·.createdBy) h.row

theorem content (h : rev.SameAs other) : rev.content = other.content := by
  have hdeleted : rev.content.columns.1 = other.content.columns.1 := congrArg (·.deleted) h.row
  have hdata : rev.content.columns.2 = other.content.columns.2 := congrArg (·.data) h.row
  generalize rev.content = x at hdeleted hdata
  generalize other.content = y at hdeleted hdata
  cases x <;> cases y <;> simp_all [Content.columns]

/-- What is rebuilt from the columns and the parents is the same revision. -/
theorem rebuilt {parents : List RevisionId} (hp : ∀ p, p ∈ parents ↔ p ∈ rev.parents) :
    (rowToRevisionSync rev.row.stored parents).SameAs rev := by
  refine ⟨?_, fun p => ?_⟩
  · have htime := storedTime_storedTime rev.createdAt
    obtain ⟨id, objectId, objectType, lineage, createdAt, createdBy, content⟩ := rev
    cases content <;>
      simp only [rowToRevisionSync, Revision.row, RevisionRow.stored, Content.columns,
        Bool.false_eq_true, if_true, if_false, Option.getD_some, htime]
  · exact (rowToRevisionSync_parents rev.row.stored parents).symm ▸ hp p

end Revision.SameAs

/-! ### The accounts -/

namespace Fleet

variable {s s' : Fleet} {rev : Revision}

/-- A session has created the revision, which this is a copy of. -/
def Knows (s : Fleet) (rev : Revision) : Prop := ∃ i m, s.made i = some m ∧ rev.SameAs m

/-- What a record in the stores of `a` says is so. -/
structure Vouches (s : Fleet) (a : ClientId) (record : RevisionRecord) : Prop where
  made : ∃ i m, s.made i = some m ∧ record.revision.SameAs m ∧
    (record.syncStatus ≠ .synced → i.1 = a)
  pending : record.syncStatus = .pending →
    ∃ i : SessionId, i.1 = a ∧ s.made i = some record.revision
  stored : record.syncStatus = .synced ∨ record.syncStatus = .syncError .duplicateRevisionId →
    s.server.tables.Stored record.id

/-- What a head shows is a revision that a session has created. -/
def Shows (s : Fleet) (head : HeadRecord) : Prop :=
  ∃ rev, s.Knows rev ∧ head = headRecordFromRevision rev.objectId rev

/-- Nothing is forgotten: not what has been created, nor what is stored. -/
structure Extends (s s' : Fleet) : Prop where
  made : ∀ i m, s.made i = some m → s'.made i = some m
  stored : ∀ r, s.server.tables.Stored r → s'.server.tables.Stored r

theorem Extends.refl (s : Fleet) : s.Extends s := ⟨fun _ _ h => h, fun _ h => h⟩

theorem Knows.mono (h : s.Knows rev) (hs : s.Extends s') : s'.Knows rev := by
  obtain ⟨i, m, hm, hsame⟩ := h
  exact ⟨i, m, hs.made i m hm, hsame⟩

theorem Shows.mono {head : HeadRecord} (h : s.Shows head) (hs : s.Extends s') : s'.Shows head := by
  obtain ⟨rev, hrev, rfl⟩ := h
  exact ⟨rev, hrev.mono hs, rfl⟩

theorem Vouches.mono {a : ClientId} {record : RevisionRecord} (h : s.Vouches a record)
    (hs : s.Extends s') : s'.Vouches a record where
  made := by
    obtain ⟨i, m, hm, hsame⟩ := h.made
    exact ⟨i, m, hs.made i m hm, hsame⟩
  pending hp := by
    obtain ⟨i, hi, hm⟩ := h.pending hp
    exact ⟨i, hi, hs.made i _ hm⟩
  stored hst := hs.stored _ (h.stored hst)

end Fleet

/-- **Whatever the stores and the server hold has been created by a session**, and what the
records say of it is so. -/
structure Accounted (K : Json → Prop) (ids : DrawnIds) (s : Fleet) : Prop where
  server : ConnInv s.server
  made : ∀ i m, s.made i = some m → ids i = some m.id ∧ m.createdBy = i.1
  kept : ∀ i m, s.made i = some m → m.content.Within K
  held : ∀ i m, s.made i = some m → ∃ record ∈ (s.stores i.1).revisions, record.id = m.id
  rows : ∀ row ∈ s.server.tables.revisions, ∃ i m, s.made i = some m ∧ row = m.row.stored ∧
    ∀ p, s.server.tables.Parent p m.id ↔ p ∈ m.parents
  records : ∀ a, ∀ record ∈ (s.stores a).revisions, s.Vouches a record
  heads : ∀ a, ∀ head ∈ (s.stores a).objectHeads, s.Shows head

/-! ### What a step does to the accounts -/

/-- What a step of session `i` does. -/
structure FleetStep (K : Json → Prop) (ids : DrawnIds) (i : SessionId) (creates : Revision → Prop)
    (s s' : Fleet) : Prop where
  accounted : Accounted K ids s'
  grows : s.Extends s'
  own : ∀ j m, s'.made j = some m → s.made j = some m ∨ j = i ∧ creates m

section Steps

variable {K : Json → Prop} {ids : DrawnIds} {s s' : Fleet} {i : SessionId}
  {creates : Revision → Prop}
  {rev : Revision}

/-- A step that touches the stores of one client only. -/
theorem Accounted.locally (h : Accounted K ids s) (hserver : s'.server = s.server)
    (hothers : ∀ a, a ≠ i.1 → s'.stores a = s.stores a)
    (hgrows : ∀ j m, s.made j = some m → s'.made j = some m)
    (hmade : ∀ j m, s'.made j = some m → s.made j = some m ∨ j = i ∧ ids i = some m.id ∧
      m.createdBy = i.1 ∧ m.content.Within K ∧
      ∃ record ∈ (s'.stores i.1).revisions, record.id = m.id)
    (hto : ∀ record ∈ (s.stores i.1).revisions, ∃ record' ∈ (s'.stores i.1).revisions,
      record'.id = record.id)
    (hfrom : ∀ record ∈ (s'.stores i.1).revisions,
      record ∈ (s.stores i.1).revisions ∨ s'.Vouches i.1 record)
    (hheads : ∀ head ∈ (s'.stores i.1).objectHeads,
      head ∈ (s.stores i.1).objectHeads ∨ s'.Shows head) : Accounted K ids s' := by
  have hext : s.Extends s' := ⟨hgrows, fun _ hr => hserver ▸ hr⟩
  refine ⟨hserver ▸ h.server, fun j m hm => ?_, fun j m hm => ?_, fun j m hm => ?_,
    fun row hrow => ?_, fun a record hrecord => ?_, fun a head hhead => ?_⟩
  · rcases hmade j m hm with hold | ⟨rfl, hid, hby, -⟩
    · exact h.made j m hold
    · exact ⟨hid, hby⟩
  · rcases hmade j m hm with hold | ⟨rfl, -, -, hkept, -⟩
    · exact h.kept j m hold
    · exact hkept
  · rcases hmade j m hm with hold | ⟨rfl, -, -, -, hheld⟩
    · obtain ⟨record, hrecord, hid⟩ := h.held j m hold
      by_cases hj : j.1 = i.1
      · rw [hj] at hrecord ⊢
        obtain ⟨record', hrecord', hid'⟩ := hto record hrecord
        exact ⟨record', hrecord', hid'.trans hid⟩
      · rw [hothers j.1 hj]
        exact ⟨record, hrecord, hid⟩
    · exact hheld
  · rw [hserver] at hrow ⊢
    obtain ⟨j, m, hm, hrest⟩ := h.rows row hrow
    exact ⟨j, m, hgrows j m hm, hrest⟩
  · by_cases ha : a = i.1
    · subst ha
      exact (hfrom record hrecord).elim (fun hold => (h.records _ record hold).mono hext) id
    · rw [hothers a ha] at hrecord
      exact (h.records a record hrecord).mono hext
  · by_cases ha : a = i.1
    · subst ha
      exact (hheads head hhead).elim (fun hold => (h.heads _ head hold).mono hext) id
    · rw [hothers a ha] at hhead
      exact (h.heads a head hhead).mono hext

/-- A transaction that creates nothing. -/
theorem Accounted.transaction (h : Accounted K ids s) {op : IdbOp}
    (hmade : (s.after i op).made = s.made)
    (hto : ∀ record ∈ (s.stores i.1).revisions,
      ∃ record' ∈ (op.eval (s.stores i.1)).2.revisions, record'.id = record.id)
    (hfrom : ∀ record ∈ (op.eval (s.stores i.1)).2.revisions,
      record ∈ (s.stores i.1).revisions ∨ s.Vouches i.1 record)
    (hheads : ∀ head ∈ (op.eval (s.stores i.1)).2.objectHeads,
      head ∈ (s.stores i.1).objectHeads ∨ s.Shows head) :
    FleetStep K ids i creates s (s.after i op) := by
  have hext : s.Extends (s.after i op) := ⟨fun j m hm => by rwa [hmade], fun _ hr => hr⟩
  have hmade' : ∀ j m, (s.after i op).made j = some m → s.made j = some m :=
    fun j m hm => by rwa [hmade] at hm
  refine ⟨h.locally rfl (fun a ha => s.after_stores_of_ne op ha) hext.made
    (fun j m hm => .inl (hmade' j m hm)) ?_ ?_ ?_, hext, fun j m hm => .inl (hmade' j m hm)⟩
  all_goals rw [Fleet.after_stores_self]
  · exact hto
  · exact fun record hrecord => (hfrom record hrecord).imp_right (·.mono hext)
  · exact fun head hhead => (hheads head hhead).imp_right (·.mono hext)

/-- A transaction that leaves the records and the heads alone. -/
theorem Accounted.quiet (h : Accounted K ids s) {op : IdbOp} (hmade : (s.after i op).made = s.made)
    (hrevisions : (op.eval (s.stores i.1)).2.revisions = (s.stores i.1).revisions)
    (hheads : (op.eval (s.stores i.1)).2.objectHeads = (s.stores i.1).objectHeads) :
    FleetStep K ids i creates s (s.after i op) := by
  refine h.transaction hmade (fun record hrecord => ⟨record, by rwa [hrevisions], rfl⟩)
    (fun record hrecord => .inl ?_) fun head hhead => .inl ?_
  · rwa [hrevisions] at hrecord
  · rwa [hheads] at hhead

/-- What a put leaves. -/
theorem exists_record_put {db : ClientDb} {new : RevisionRecord} {record : RevisionRecord}
    (hrecord : record ∈ db.revisions) :
    ∃ record' ∈ ((IdbOp.putRevision new).eval db).2.revisions, record'.id = record.id := by
  by_cases hid : record.id = new.id
  · exact ⟨new, KeyedStore.mem_put.mpr (.inl rfl), hid.symm⟩
  · exact ⟨record, KeyedStore.mem_put.mpr (.inr ⟨hrecord, fun hkey =>
      hid (RevisionId.key_inj.mp hkey)⟩), rfl⟩

/-- **A session creates its revision.** -/
theorem Accounted.create (h : Accounted K ids s) (hnone : s.made i = none)
    (hid : ids i = some rev.id)
    (hby : rev.createdBy = i.1) (hkept : rev.content.Within K) (hcreates : creates rev) :
    FleetStep K ids i creates s (s.after i (.putRevision (.fromRevision rev .pending))) ∧
      (s.after i (.putRevision (.fromRevision rev .pending))).made i = some rev := by
  have hself : (s.after i (.putRevision (.fromRevision rev .pending))).made i = some rev :=
    Function.update_self ..
  have hcases : ∀ j m, (s.after i (.putRevision (.fromRevision rev .pending))).made j = some m →
      s.made j = some m ∨ j = i ∧ m = rev := by
    intro j m hm
    by_cases hj : j = i
    · subst hj
      exact .inr ⟨rfl, Option.some.inj (hm.symm.trans hself)⟩
    · left
      rwa [← show (s.after i (.putRevision (.fromRevision rev .pending))).made j = s.made j from
        Function.update_of_ne hj ..]
  have hgrows : ∀ j m, s.made j = some m →
      (s.after i (.putRevision (.fromRevision rev .pending))).made j = some m := by
    intro j m hm
    have hj : j ≠ i := fun hj => by rw [hj, hnone] at hm; cases hm
    exact (Function.update_of_ne hj ..).trans hm
  refine ⟨⟨h.locally rfl (fun a ha => s.after_stores_of_ne _ ha) hgrows (fun j m hm => ?_) ?_ ?_ ?_,
    ⟨hgrows, fun _ hr => hr⟩, fun j m hm => (hcases j m hm).imp_right ?_⟩, hself⟩
  · refine (hcases j m hm).imp_right ?_
    rintro ⟨rfl, rfl⟩
    refine ⟨rfl, hid, hby, hkept, ?_⟩
    rw [Fleet.after_stores_self]
    exact ⟨_, KeyedStore.mem_put.mpr (.inl rfl), rfl⟩
  · rw [Fleet.after_stores_self]
    exact fun record hrecord => exists_record_put hrecord
  · rw [Fleet.after_stores_self]
    intro record hrecord
    rcases KeyedStore.mem_put.mp hrecord with rfl | ⟨hold, -⟩
    · refine .inr ⟨⟨i, rev, hself, .refl rev, fun _ => rfl⟩, fun _ => ⟨i, rfl, hself⟩, ?_⟩
      rintro (hstatus | hstatus) <;> cases hstatus
    · exact .inl hold
  · rw [Fleet.after_stores_self]
    exact fun head hhead => .inl hhead
  · rintro ⟨rfl, rfl⟩
    exact ⟨rfl, hcreates⟩

/-- A revision that the server has sent is recorded as a synced one. -/
theorem Accounted.receive (h : Accounted K ids s) (hknows : s.Knows rev)
    (hstored : s.server.tables.Stored rev.id) :
    FleetStep K ids i creates s (s.after i (.putRevision (.fromRevision rev .synced))) := by
  refine h.transaction rfl (fun record hrecord => exists_record_put hrecord)
    (fun record hrecord => ?_) fun head hhead => .inl hhead
  rcases KeyedStore.mem_put.mp hrecord with rfl | ⟨hold, -⟩
  · obtain ⟨j, m, hm, hsame⟩ := hknows
    exact .inr ⟨⟨j, m, hm, hsame, fun hne => absurd rfl hne⟩, nofun, fun _ => hstored⟩
  · exact .inl hold

/-- **What the server has said of a revision of this client is recorded.** -/
theorem Accounted.mark (hids : Distinct ids) (h : Accounted K ids s) {op : IdbOp}
    {id : RevisionId} {status : SyncStatus} (hmade : (s.after i op).made = s.made)
    (hop : (op.eval (s.stores i.1)).2 = (s.stores i.1).markRevision id status)
    (hpending : status ≠ .pending) (hown : ∃ j m, s.made j = some m ∧ m.id = id ∧ j.1 = i.1)
    (hstored : status = .synced ∨ status = .syncError .duplicateRevisionId →
      s.server.tables.Stored id) :
    FleetStep K ids i creates s (s.after i op) := by
  have hrevisions : ∀ record, record ∈ (op.eval (s.stores i.1)).2.revisions ↔
      ∃ old ∈ (s.stores i.1).revisions,
        record = if old.id = id then { old with syncStatus := status } else old := by
    intro record
    rw [hop]
    exact mem_markRevision
  have hheads : (op.eval (s.stores i.1)).2.objectHeads = (s.stores i.1).objectHeads := by
    rw [hop, ClientDb.markRevision]
    split <;> rfl
  refine h.transaction hmade (fun record hrecord => ?_) (fun record hrecord => ?_)
    fun head hhead => .inl (by rwa [hheads] at hhead)
  · refine ⟨_, (hrevisions _).mpr ⟨record, hrecord, rfl⟩, ?_⟩
    split <;> rfl
  · obtain ⟨old, hold, rfl⟩ := (hrevisions record).mp hrecord
    split
    · next hid =>
      -- the record is a copy of what this client has created
      obtain ⟨j, m, hm, hmid, hj⟩ := hown
      obtain ⟨k, m', hm', hsame, -⟩ := (h.records i.1 old hold).made
      have hsameId : m'.id = m.id := hsame.id.symm.trans (hid.trans hmid.symm)
      have hk : k = j := hids k j m.id (hsameId ▸ (h.made k m' hm').1) (h.made j m hm).1
      refine .inr ⟨⟨k, m', hm', hsame, fun _ => hk ▸ hj⟩, fun hp => absurd hp hpending,
        fun hst => ?_⟩
      exact hid ▸ hstored hst
    · exact .inl hold

/-- **The server commits what sessions have created.** -/
theorem Accounted.push (hids : Distinct ids) (h : Accounted K ids s) {c' : Conn}
    {client : ClientId} {n : ℕ} {batch : List Revision} (hconn : ConnInv c')
    (hc : Commits s.server.tables c'.tables client n batch)
    (hbatch : ∀ rev ∈ batch, ∃ j, s.made j = some rev) :
    FleetStep K ids i creates s { s with server := c' } := by
  have hext : s.Extends { s with server := c' } :=
    ⟨fun _ _ hm => hm, fun r hr => hc.stored_iff.mpr (.inl hr)⟩
  refine ⟨⟨hconn, h.made, h.kept, h.held, fun row hrow => ?_, fun a record hrecord =>
    (h.records a record hrecord).mono hext, fun a head hhead => (h.heads a head hhead).mono hext⟩,
    hext, fun j m hm => .inl hm⟩
  change row ∈ c'.tables.revisions at hrow
  rw [hc.revisions_eq, List.mem_append] at hrow
  rcases hrow with hrow | hrow
  · obtain ⟨j, m, hm, rfl, hparents⟩ := h.rows row hrow
    refine ⟨j, m, hm, rfl, fun p => ?_⟩
    rw [← hparents p]
    refine hc.parent_iff.trans (or_iff_left ?_)
    rintro ⟨rev, hrev, hid, -⟩
    exact hc.fresh rev hrev ⟨_, hrow, hid.symm⟩
  · obtain ⟨rev, hrev, rfl⟩ := List.mem_map.mp hrow
    obtain ⟨j, hm⟩ := hbatch rev hrev
    refine ⟨j, rev, hm, rfl, fun p => hc.parent_iff.trans ?_⟩
    constructor
    · rintro (hold | ⟨other, hother, hid, hp⟩)
      · obtain ⟨o, -, hstored⟩ := h.server.tables.parent_stored hold
        exact absurd hstored.stored (hc.fresh rev hrev)
      · -- an id is drawn for one revision only
        obtain ⟨k, hk⟩ := hbatch other hother
        have hkj : k = j := hids k j rev.id (hid ▸ (h.made k other hk).1) (h.made j rev hm).1
        rw [hkj, hm] at hk
        cases hk
        exact hp
    · exact fun hp => .inr ⟨rev, hrev, rfl, hp⟩

/-- Registering a client commits nothing. -/
theorem Accounted.register (hids : Distinct ids) (h : Accounted K ids s)
    (clients : List ClientId) :
    FleetStep K ids i creates s { s with server := s.server.withClients clients } :=
  h.push hids (h.server.withClients clients) (.nothing s.server.tables clients default 0)
    (List.forall_mem_nil _)

theorem Accounted.idle (h : Accounted K ids s) : FleetStep K ids i creates s s :=
  ⟨h, .refl s, fun _ _ hm => .inl hm⟩

/-- What the server knows of a row, a session has created. -/
theorem Accounted.knows_row (h : Accounted K ids s) {row : RevisionRow}
    (hrow : row ∈ s.server.tables.revisions) {parents : List RevisionId}
    (hp : ∀ p, p ∈ parents ↔ s.server.tables.Parent p row.id) :
    s.Knows (rowToRevisionSync row parents) := by
  obtain ⟨j, m, hm, rfl, hparents⟩ := h.rows row hrow
  exact ⟨j, m, hm, .rebuilt fun p => (hp p).trans (hparents p)⟩

/-- What is known is kept. -/
theorem Accounted.within (h : Accounted K ids s) (hknows : s.Knows rev) :
    rev.content.Within K := by
  obtain ⟨j, m, hm, hsame⟩ := hknows
  exact hsame.content ▸ h.kept j m hm

/-- The server holds kept payloads. -/
theorem Accounted.tables_within (h : Accounted K ids s) : s.server.tables.Within K := by
  intro row hrow
  obtain ⟨j, m, hm, rfl, -⟩ := h.rows row hrow
  have hkept := h.kept j m hm
  obtain ⟨id, objectId, objectType, lineage, createdAt, createdBy, content⟩ := m
  cases content with
  | active v => exact hkept
  | deleted => rfl

end Steps

end Rustend
