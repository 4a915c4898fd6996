import Rustend.Client.Backed

/-!
# Who the client is

Every open asks the server who the client is, writes the answer to the `sync_state` store if that
holds another, and falls back on what is stored when there is no network.  A call creates
revisions in the name of the repository that was opened last, and the server accepts those of the
client that sends them only.  What is pending stays as it is when the stored client changes.

## Main definitions

* `fetchWhoami`, `Repository.open` — an open.
* `Device`, `Deed`, `Life` — a device, and what is done with it from the beginning on.
* `Owned` — what is pending has been created by the stored client.
* `Moment.KeepsOwner` — an open that changes the stored client finds nothing pending.

## Main results

* `runAlone_open` — what an open does.
* `keepsWork_call`, `keepsWork_sync` — calls and syncs keep the identity, and add revisions of the
  repository only.
* `Life.owned_iff` — **when the pending revisions are those of the stored client.**
-/

namespace Rustend

open Interleave

/-! ### Opening a repository -/

/-- `fetch_whoami`. -/
def fetchWhoami : Except String (HttpResponse WhoAmIResponse) → Except ClientError WhoAmIResponse
  | .error msg => .error (.network msg)
  | .ok resp =>
      if !resp.ok then .error (.unauthenticated ("whoami returned HTTP " ++ toString resp.status))
      else
        match resp.body with
        | .ok whoami => .ok whoami
        | .error msg => .error (.network msg)

/-- `Repository::open`, after `open_database` has ended with `database`; `sent` is what becomes of
the request to the server. -/
def Repository.open (database : Except ClientError Unit)
    (sent : Except String (HttpResponse WhoAmIResponse)) : Browser Repository := do
  .done database
  let (storedClient, storedUser, existingTxn) ← idb .readSyncState
  match fetchWhoami sent with
  | .ok whoami => do
      if storedClient ≠ some whoami.clientId ∨ storedUser ≠ some whoami.userId then
        idb (.writeSyncState whoami.clientId whoami.userId existingTxn)
      return ⟨whoami.clientId, whoami.userId⟩
  | .error (.network _) =>
      -- the network is unavailable
      match storedClient, storedUser with
      | some cid, some uid => return ⟨cid, uid⟩
      | _, _ => .fail (.network "whoami failed and no cached identity found")
  | .error e => .fail e

/-! ### Devices -/

/-- The stored client. -/
def ClientDb.clientId (db : ClientDb) : Option ClientId := db.syncState.bind (·.clientId)

/-- A device: its stores, and the repository that was opened last. -/
structure Device where
  db : ClientDb
  repo : Option Repository

/-- No database yet. -/
def Device.fresh : Device := ⟨⟨.empty, .empty, none⟩, none⟩

/-- What is done with a device. -/
inductive Deed where
  | opened (database : Except ClientError Unit) (sent : Except String (HttpResponse WhoAmIResponse))
  | called (call : Call) (draw : Draw)
  | synced (params : PullRequest)

/-- A transaction that fails has no effect. -/
def Turn.Atomic : Turn → Prop
  | .lost _ => False
  | _ => True

/-- The device after a deed, when its requests take these turns.  An open that fails leaves the
repository that was opened before. -/
def Device.after (device : Device) (turns : List Turn) : Deed → Option Device
  | .opened database sent =>
      (boundary.runAlone 0 (Repository.open database sent) turns device.db).map fun x =>
        ⟨x.2, x.1.toOption.or device.repo⟩
  | .called call draw => do
      let repo ← device.repo
      let x ← boundary.runAlone 0 (call.program repo draw) turns device.db
      return ⟨x.2, repo⟩
  | .synced params => do
      let repo ← device.repo
      let x ← boundary.runAlone 0 (Repository.sync params) turns device.db
      return ⟨x.2, repo⟩

/-- A deed, with the device before and after it. -/
structure Moment where
  deed : Deed
  turns : List Turn
  before : Device
  after : Device

/-- What has been done with a device, the last deed first. -/
inductive Life : List Moment → Device → Prop
  | fresh : Life [] .fresh
  | next {moments : List Moment} {device device' : Device} {deed : Deed} {turns : List Turn}
      (h : Life moments device) (hatomic : ∀ turn ∈ turns, turn.Atomic)
      (hafter : device.after turns deed = some device') :
      Life (⟨deed, turns, device, device'⟩ :: moments) device'

/-! ### Ownership -/

/-- The server refuses the revision before it looks at anything but its author. -/
def RefusesAuthor (client : ClientId) (rev : Revision) : Prop :=
  ∀ st, checkRevision client st rev = pure (some .malformedData)

/-- What is pending has been created by the stored client, in whose name it is not refused for
its author. -/
structure Owned (db : ClientDb) : Prop where
  createdBy : ∀ record ∈ db.pending, db.clientId = some record.createdBy
  passes : ∀ record ∈ db.pending, ∀ client, db.clientId = some client →
    ¬ RefusesAuthor client record.revision

/-- An open that gets an answer, and none of whose transactions fails, finds nothing pending, or
is answered with the stored client. -/
def Moment.KeepsOwner (moment : Moment) : Prop :=
  match moment.deed with
  | .opened database sent => database = .ok () → (∀ turn ∈ moment.turns, turn = .done) →
      ∀ whoami, fetchWhoami sent = .ok whoami →
        moment.before.db.pending = [] ∨ moment.before.db.clientId = some whoami.clientId
  | _ => True

/-- The server refuses those that another client has created. -/
theorem refusesAuthor_iff {client : ClientId} {rev : Revision} :
    RefusesAuthor client rev ↔ rev.createdBy ≠ client := by
  constructor
  · intro h heq
    have hfirst := h {}
    unfold checkRevision at hfirst
    rw [if_neg (not_not_intro heq)] at hfirst
    -- the first thing that is looked up is whether the id is taken
    cases hfirst
  · intro hne st
    unfold checkRevision
    exact if_pos hne

theorem owned_iff_createdBy {db : ClientDb} :
    Owned db ↔ ∀ record ∈ db.pending, db.clientId = some record.createdBy := by
  refine ⟨fun h => h.createdBy, fun h => ⟨h, fun record hrecord client hclient => ?_⟩⟩
  have hsame : client = record.createdBy := Option.some.inj (hclient.symm.trans (h record hrecord))
  rw [refusesAuthor_iff]
  exact not_not_intro hsame.symm

/-! ### Running alone -/

/-- An operation with no other, whose requests take some of these turns; a transaction that fails
has no effect. -/
def turnsEnv (turns : List Turn) : Env browser ClientError ClientDb where
  exec op db r db' := ∃ turn ∈ turns, turn.Atomic ∧ boundary.exec 0 turn op db = some (r, db')
  rely db db' := db' = db
  guar _ _ := True
  rely_refl _ := rfl
  rely_trans _ _ _ h h' := h'.trans h

section Alone

variable {turns : List Turn}

theorem stable_turns (P : ClientDb → Prop) : Stable (turnsEnv turns) P := by
  intro db db' hsame h
  obtain rfl : db' = db := hsame
  exact h

/-- A transaction, by what it does where it takes effect and where it fails. -/
theorem triple_turns {op : IdbOp} {P : ClientDb → Prop} {Q : op.Res → ClientDb → Prop}
    {F : ClientError → ClientDb → Prop} (hdone : ∀ db, P db → Q (op.eval db).1 (op.eval db).2)
    (hfailed : ∀ db, P db → ∀ e, .failed e ∈ turns → F e db) :
    Triple (turnsEnv turns) P (idb op) (Ends Q F) := by
  refine Triple.perform (stable_turns P) (fun r => stable_turns _) ?_
  rintro db r db' hdb ⟨turn, hturn, hatomic, hexec⟩
  refine ⟨trivial, ?_⟩
  cases turn with
  | done =>
    cases hexec
    exact hdone db hdb
  | failed e =>
    cases hexec
    exact hfailed db hdb e hturn
  | lost e => exact absurd hatomic id
  | pushReply reply => cases hexec
  | pullReply reply => cases hexec

theorem runTurns_post {α : Type} {p : Browser α} {post : Except ClientError α → ClientDb → Prop}
    {P : ClientDb → Prop} {db db' : ClientDb} {r : Except ClientError α}
    (hatomic : ∀ turn ∈ turns, turn.Atomic) (h : Triple (turnsEnv turns) P p post) (hdb : P db)
    (hrun : boundary.runAlone 0 p turns db = some (r, db')) : post r db' := by
  refine Safe.runAlone ?_ (h db hdb) hrun
  exact fun turn hturn _ _ _ _ hexec => ⟨turn, hturn, hatomic turn hturn, hexec⟩

end Alone

/-! ### What an open does -/

/-- The stores with another identity. -/
def ClientDb.identified (db : ClientDb) (client : ClientId) (user : UserId) : ClientDb :=
  { db with syncState := some ⟨some client, some user, db.lastTxn⟩ }

/-- How an open ends, and the stores it leaves. -/
inductive Opens (database : Except ClientError Unit)
    (sent : Except String (HttpResponse WhoAmIResponse)) (turns : List Turn) (db : ClientDb) :
    Except ClientError Repository → ClientDb → Prop
  | answered {whoami : WhoAmIResponse} (h : fetchWhoami sent = .ok whoami)
      (hopened : database = .ok ()) (hdone : ∀ turn ∈ turns, turn = .done) :
      Opens database sent turns db (.ok ⟨whoami.clientId, whoami.userId⟩)
        (db.identified whoami.clientId whoami.userId)
  | cached {cid : ClientId} {uid : UserId} (h : ∀ whoami, fetchWhoami sent ≠ .ok whoami)
      (hstored : db.identified cid uid = db) : Opens database sent turns db (.ok ⟨cid, uid⟩) db
  | failed (e : ClientError) (h : database = .ok () → (∀ turn ∈ turns, turn = .done) →
      ∀ whoami, fetchWhoami sent ≠ .ok whoami) : Opens database sent turns db (.error e) db

/-- The answer of `read_sync_state`. -/
theorem eval_readSyncState (db : ClientDb) : IdbOp.readSyncState.eval db =
    ((db.clientId, db.syncState.bind (·.userId), db.lastTxn), db) := by
  unfold ClientDb.clientId ClientDb.lastTxn
  rcases hstate : db.syncState with _ | record <;> simp only [IdbOp.eval, hstate] <;> rfl

/-- Writing the identity that is stored changes nothing. -/
theorem identified_self {db : ClientDb} {client : ClientId} {user : UserId}
    (hclient : db.clientId = some client) (huser : db.syncState.bind (·.userId) = some user) :
    db.identified client user = db := by
  obtain ⟨revisions, heads, state⟩ := db
  unfold ClientDb.identified ClientDb.lastTxn
  cases state with
  | none => cases hclient
  | some record =>
    obtain ⟨cid, uid, last⟩ := record
    obtain rfl : cid = some client := hclient
    obtain rfl : uid = some user := huser
    rfl

/-- A program that begins with a transaction. -/
theorem runAlone_idb {α : Type} {op : IdbOp} {f : op.Res → Browser α} {turns : List Turn}
    {db db' : ClientDb} {r : Except ClientError α} (hatomic : ∀ turn ∈ turns, turn.Atomic)
    (hrun : boundary.runAlone 0 (idb op >>= f) turns db = some (r, db')) :
    (∃ rest, turns = .done :: rest ∧
        boundary.runAlone 0 (f (op.eval db).1) rest (op.eval db).2 = some (r, db')) ∨
      (∃ e, turns = [.failed e] ∧ r = .error e) ∧ db' = db := by
  rcases turns with _ | ⟨turn, rest⟩
  · cases hrun
  obtain ⟨⟨x, db₁⟩, hexec, hrest⟩ := Option.bind_eq_some_iff.mp hrun
  cases turn with
  | done =>
    cases hexec
    exact .inl ⟨rest, rfl, hrest⟩
  | failed e =>
    cases hexec
    cases rest with
    | nil =>
      cases hrest
      exact .inr ⟨⟨e, rfl, rfl⟩, rfl⟩
    | cons turn rest => cases hrest
  | lost e => exact absurd (hatomic _ List.mem_cons_self) id
  | pushReply reply => cases hexec
  | pullReply reply => cases hexec

/-- A program that has finished takes no turns. -/
theorem runAlone_done {α : Type} {x r : Except ClientError α} {turns : List Turn}
    {db db' : ClientDb} (hrun : boundary.runAlone 0 (.done x) turns db = some (r, db')) :
    turns = [] ∧ r = x ∧ db' = db := by
  cases turns with
  | nil =>
    cases hrun
    exact ⟨rfl, rfl, rfl⟩
  | cons turn rest => cases hrun

/-- **What an open does**: it stores the identity that the server answers, or takes the stored
one, or fails and changes nothing. -/
theorem runAlone_open {database : Except ClientError Unit}
    {sent : Except String (HttpResponse WhoAmIResponse)} {turns : List Turn} {db db' : ClientDb}
    {r : Except ClientError Repository} (hatomic : ∀ turn ∈ turns, turn.Atomic)
    (hrun : boundary.runAlone 0 (Repository.open database sent) turns db = some (r, db')) :
    Opens database sent turns db r db' := by
  -- a transaction that fails ends the open
  have hfailed : ∀ e, Turn.failed e ∈ turns → Opens database sent turns db (.error e) db :=
    fun e hturn => .failed e fun _ hall => nomatch hall _ hturn
  cases database with
  | error e =>
    obtain ⟨-, rfl, rfl⟩ := runAlone_done hrun
    exact .failed e nofun
  | ok _ =>
    have hread : boundary.runAlone 0 (idb .readSyncState >>= _) turns db = some (r, db') := hrun
    rcases runAlone_idb hatomic hread with
      ⟨rest, rfl, hrest⟩ | ⟨⟨e, rfl, rfl⟩, rfl⟩
    swap
    · exact hfailed e List.mem_cons_self
    rw [eval_readSyncState] at hrest
    cases hsent : fetchWhoami sent with
    | ok whoami =>
      simp only [hsent] at hrest
      -- the answer is written, or is what is stored
      split at hrest
      · have hatomic' : ∀ turn ∈ rest, turn.Atomic := (List.forall_mem_cons.mp hatomic).2
        rcases runAlone_idb hatomic' hrest with ⟨rest, rfl, hrest⟩ | ⟨⟨e, rfl, rfl⟩, rfl⟩
        · obtain ⟨rfl, rfl, rfl⟩ := runAlone_done hrest
          exact .answered hsent rfl (by simp)
        · exact hfailed e (by simp)
      · next hstored =>
        rw [not_or, not_not, not_not] at hstored
        obtain ⟨rfl, rfl, rfl⟩ := runAlone_done hrest
        have hsame := identified_self hstored.1 hstored.2
        have hanswered : Opens (.ok ()) sent [.done] db' _ _ := .answered hsent rfl (by simp)
        rwa [hsame] at hanswered
    | error e =>
      have hnone : ∀ whoami, fetchWhoami sent ≠ .ok whoami := by
        rw [hsent]
        exact fun _ => nofun
      cases e with
      | network msg =>
        simp only [hsent] at hrest
        -- without a network, the stored identity is taken if there is one
        split at hrest
        · next cid uid hcid huid =>
          obtain ⟨rfl, rfl, rfl⟩ := runAlone_done hrest
          exact .cached hnone (identified_self hcid huid)
        · obtain ⟨rfl, rfl, rfl⟩ := runAlone_done hrest
          exact .failed _ fun _ _ => hnone
      | _ =>
        simp only [hsent] at hrest
        obtain ⟨rfl, rfl, rfl⟩ := runAlone_done hrest
        exact .failed _ fun _ _ => hnone

/-! ### What calls and syncs do -/

/-- The stores hold the identity of the repository, and what is pending has been so before, or is
the work of this repository. -/
structure Works (repo : Repository) (before db : ClientDb) : Prop where
  identity : ∃ last, db.syncState = some ⟨some repo.clientId, some repo.userId, last⟩
  pending : ∀ record ∈ db.pending, record ∈ before.pending ∨ record.createdBy = repo.clientId

section Works

variable {repo : Repository} {before db db' : ClientDb} {turns : List Turn}

/-- A transaction that leaves the identity alone, and adds nothing to what is pending but work of
the repository. -/
theorem Works.of_pending (h : Works repo before db) (hstate : db'.syncState = db.syncState)
    (hpending : ∀ record ∈ db'.pending, record ∈ db.pending ∨ record.createdBy = repo.clientId) :
    Works repo before db' := by
  refine ⟨hstate ▸ h.identity, fun record hrecord => ?_⟩
  rcases hpending record hrecord with hold | hown
  · exact h.pending record hold
  · exact .inr hown

theorem Works.putRevision (h : Works repo before db) {rev : Revision} {status : SyncStatus}
    (hown : status = .pending → rev.createdBy = repo.clientId) :
    Works repo before ((IdbOp.putRevision (.fromRevision rev status)).eval db).2 := by
  refine h.of_pending rfl fun record hrecord => ?_
  obtain ⟨hmem, hstatus⟩ := ClientDb.mem_pending.mp hrecord
  rcases KeyedStore.mem_put.mp hmem with rfl | ⟨hold, -⟩
  · exact .inr (hown hstatus)
  · exact .inl (ClientDb.mem_pending.mpr ⟨hold, hstatus⟩)

theorem Works.markRevision (h : Works repo before db) (id : RevisionId) {status : SyncStatus}
    (hstatus : status ≠ .pending) : Works repo before (db.markRevision id status) := by
  refine h.of_pending (markRevision_syncState ..) fun record hrecord => ?_
  obtain ⟨hmem, hpending⟩ := ClientDb.mem_pending.mp hrecord
  obtain ⟨old, hold, rfl⟩ := mem_markRevision.mp hmem
  split at hpending
  · exact absurd hpending hstatus
  · next hne =>
    rw [if_neg hne]
    exact .inl (ClientDb.mem_pending.mpr ⟨hold, hpending⟩)

/-- The loop, the transaction or the whole call leaves work of the repository only. -/
abbrev KeepsWork (repo : Repository) (before : ClientDb) (turns : List Turn) {α : Type}
    (p : Browser α) : Prop :=
  Keeps (turnsEnv turns) (Works repo before) p

theorem keepsWork_done {α : Type} (r : Except ClientError α) :
    KeepsWork repo before turns (.done r) := Keeps.done (stable_turns _) r

theorem KeepsWork.bind {α β : Type} {p : Browser α} {f : α → Browser β}
    (hp : KeepsWork repo before turns p) (hf : ∀ a, KeepsWork repo before turns (f a)) :
    KeepsWork repo before turns (p >>= f) := Keeps.bind (stable_turns _) hp hf

theorem KeepsWork.forEach {α : Type} {body : α → Browser Unit}
    (hbody : ∀ x, KeepsWork repo before turns (body x)) (xs : List α) :
    KeepsWork repo before turns (.forEach body xs) := Keeps.forEach (stable_turns _) hbody xs

theorem keepsWork_idb {op : IdbOp}
    (hop : ∀ db, Works repo before db → Works repo before (op.eval db).2) :
    KeepsWork repo before turns (idb op) := triple_turns hop fun _ h _ _ => h

/-- Reading the stores. -/
theorem keepsWork_read {op : IdbOp} (hop : ∀ db, (op.eval db).2 = db) :
    KeepsWork repo before turns (idb op) := keepsWork_idb fun db h => by rwa [hop]

/-- Only the heads change. -/
theorem keepsWork_heads {op : IdbOp} (hstate : ∀ db, (op.eval db).2.syncState = db.syncState)
    (hrevisions : ∀ db, (op.eval db).2.revisions = db.revisions) :
    KeepsWork repo before turns (idb op) := by
  refine keepsWork_idb fun db h => h.of_pending (hstate db) fun record hrecord => .inl ?_
  rw [ClientDb.mem_pending] at hrecord ⊢
  rwa [hrevisions] at hrecord

/-- **A call adds work of its repository.** -/
theorem keepsWork_call (call : Call) (draw : Draw) :
    KeepsWork repo before turns (call.program repo draw) := by
  have hwrite : ∀ {heads : List HeadRecord} {rev : Revision},
      call.CreatesFrom repo draw heads rev → KeepsWork repo before turns (writeRevision rev) := by
    intro heads rev hcreates
    refine (keepsWork_idb fun db h => h.putRevision fun _ => hcreates.createdBy).bind fun _ => ?_
    exact (keepsWork_heads (fun _ => rfl) fun _ => rfl).bind fun _ => keepsWork_done _
  rcases call.shape repo draw with ⟨e, he⟩ | ⟨rev, hcreates, hrev⟩ | ⟨f, hf, hall⟩
  · rw [he]
    exact keepsWork_done _
  · rw [hrev]
    exact hwrite hcreates
  · rw [hf]
    refine (keepsWork_read fun _ => rfl).bind fun heads => ?_
    rcases hall heads with ⟨e, he⟩ | ⟨rev, hcreates, hrev⟩
    · rw [he]
      exact keepsWork_done _
    · rw [hrev]
      exact hwrite hcreates

/-- What the server answers does not touch the stores. -/
theorem keepsWork_perform {op : ClientOp} (hop : ∀ op', op ≠ .idb op') :
    KeepsWork repo before turns (.perform (S := browser) op) := by
  refine Keeps.perform (stable_turns _) ?_
  rintro db r db' h ⟨turn, -, -, hexec⟩
  refine ⟨trivial, ?_⟩
  cases op with
  | idb op => exact absurd rfl (hop op)
  | postChanges req | postChangesQuery req =>
    cases turn <;> cases hexec
    exact h

theorem keepsWork_json {α : Type} (resp : HttpResponse α) (failed : String) :
    KeepsWork repo before turns (resp.json failed) := by
  rcases json_cases resp failed with ⟨e, he, -⟩ | ⟨a, ha, -⟩
  · rw [he]
    exact keepsWork_done _
  · rw [ha]
    exact keepsWork_done _

/-- A push takes revisions out of what is pending. -/
theorem keepsWork_push : KeepsWork repo before turns pushPending := by
  unfold pushPending
  refine (keepsWork_read fun _ => rfl).bind fun pending => ?_
  split
  · exact keepsWork_done _
  refine KeepsWork.bind (keepsWork_perform (by nofun)) fun resp => ?_
  refine (keepsWork_json resp _).bind fun pushResp => ?_
  refine KeepsWork.bind (KeepsWork.forEach (fun id => ?_) _) fun _ => ?_
  · exact keepsWork_idb fun db h => h.markRevision id (by decide)
  refine KeepsWork.bind (KeepsWork.forEach (fun rejected => ?_) _) fun _ => keepsWork_done _
  exact keepsWork_idb fun db h => h.markRevision _ nofun

/-- What is delivered is not pending. -/
theorem keepsWork_apply (update : ObjectUpdate) :
    KeepsWork repo before turns (applyUpdate update) := by
  have hheads : ∀ {op : IdbOp} (b : Bool), (op = .addHeads update.heads ∨
      op = .replaceHeads update.objectId update.heads) →
      KeepsWork repo before turns (do let _ ← idb op; return b) := by
    rintro op b (rfl | rfl)
    · exact (keepsWork_heads (fun _ => rfl) fun _ => rfl).bind fun _ => keepsWork_done _
    · exact (keepsWork_heads (fun _ => rfl) fun _ => rfl).bind fun _ => keepsWork_done _
  unfold applyUpdate
  refine KeepsWork.bind (KeepsWork.forEach (fun rev => ?_) _) fun _ => ?_
  · exact keepsWork_idb fun db h => h.putRevision nofun
  cases update.action with
  | conflict => exact hheads true (.inl rfl)
  | replace =>
    refine (keepsWork_read fun _ => rfl).bind fun existing => ?_
    split
    · exact hheads true (.inl rfl)
    · exact hheads false (.inr rfl)

theorem keepsWork_applyAll : ∀ (updates : List ObjectUpdate) (counts : ℕ × ℕ),
    KeepsWork repo before turns (applyUpdates updates counts)
  | [], _ => keepsWork_done _
  | update :: updates, (_, _) => (keepsWork_apply update).bind fun _ => keepsWork_applyAll updates _

/-- A pull writes back the identity that it has read. -/
theorem keepsWork_advance {α : Type} (a : α) (upTo : TransactionId) :
    KeepsWork repo before turns (do
      let (clientId, userId, _) ← idb .readSyncState
      match clientId, userId with
      | some cid, some uid => idb (.writeSyncState cid uid (some upTo))
      | _, _ => pure ()
      return a) := by
  have hread : Triple (turnsEnv turns) (Works repo before) (idb .readSyncState)
      (Ends (fun state db => Works repo before db ∧ state.1 = some repo.clientId ∧
        state.2.1 = some repo.userId) fun _ => Works repo before) := by
    refine triple_turns (fun db h => ?_) fun db h _ _ => h
    obtain ⟨last, hstate⟩ := h.identity
    rw [eval_readSyncState, ClientDb.clientId, hstate]
    exact ⟨h, rfl, rfl⟩
  refine Triple.bind hread (fun state => ?_) fun e => keepsWork_done (.error e)
  obtain ⟨client, user, last⟩ := state
  rintro db ⟨h, rfl, rfl⟩
  refine KeepsWork.bind (keepsWork_idb fun db h => ?_) (fun _ => keepsWork_done _) db h
  exact ⟨⟨_, rfl⟩, h.pending⟩

/-- **A sync adds no work**, and keeps the identity. -/
theorem keepsWork_sync (params : PullRequest) :
    KeepsWork repo before turns (Repository.sync params) := by
  have hpull : ∀ params, KeepsWork repo before turns (pullUpdates params) := by
    intro params
    unfold pullUpdates
    refine KeepsWork.bind (keepsWork_perform (by nofun)) fun resp => ?_
    refine (keepsWork_json resp _).bind fun pullResp => ?_
    refine (keepsWork_applyAll _ _).bind fun counts => ?_
    exact keepsWork_advance counts _
  have hboth : ∀ params, KeepsWork repo before turns (sync params) := by
    intro params
    unfold sync
    refine keepsWork_push.bind fun pushed => ?_
    exact (hpull params).bind fun pulled => keepsWork_done _
  unfold Repository.sync
  split
  · refine KeepsWork.bind (keepsWork_read fun db => ?_) fun state => hboth _
    rw [eval_readSyncState]
  · exact hboth params

end Works

/-! ### A whole life -/

/-- The stored identity is that of the repository that was opened last, and nothing is pending
before the first open. -/
structure Device.Settled (device : Device) : Prop where
  identity : ∀ repo, device.repo = some repo →
    ∃ last, device.db.syncState = some ⟨some repo.clientId, some repo.userId, last⟩
  unopened : device.repo = none → device.db.pending = []

theorem Device.Settled.clientId {device : Device} (h : device.Settled) {repo : Repository}
    (hrepo : device.repo = some repo) : device.db.clientId = some repo.clientId := by
  obtain ⟨last, hstate⟩ := h.identity repo hrepo
  rw [ClientDb.clientId, hstate]
  rfl

section Deeds

variable {device device' : Device} {turns : List Turn} {deed : Deed}

/-- **What a deed does**: it opens a repository, or it works through the one that was opened
last. -/
theorem after_cases (hatomic : ∀ turn ∈ turns, turn.Atomic)
    (h : device.after turns deed = some device') :
    (∃ database sent r, deed = .opened database sent ∧
        Opens database sent turns device.db r device'.db ∧
        device'.repo = r.toOption.or device.repo) ∨
      (∀ database sent, deed ≠ .opened database sent) ∧
        ∃ repo, device.repo = some repo ∧ device'.repo = some repo ∧
          ∀ before, Works repo before device.db → Works repo before device'.db := by
  cases deed with
  | opened database sent =>
    obtain ⟨⟨r, db'⟩, hrun, rfl⟩ := Option.map_eq_some_iff.mp h
    exact .inl ⟨database, sent, r, rfl, runAlone_open hatomic hrun, rfl⟩
  | called call draw =>
    obtain ⟨repo, hrepo, h⟩ := Option.bind_eq_some_iff.mp h
    obtain ⟨⟨r, db'⟩, hrun, h⟩ := Option.bind_eq_some_iff.mp h
    cases h
    refine .inr ⟨nofun, repo, hrepo, rfl, fun before hworks => ?_⟩
    exact ends_same.mp (runTurns_post hatomic (keepsWork_call call draw) hworks hrun)
  | synced params =>
    obtain ⟨repo, hrepo, h⟩ := Option.bind_eq_some_iff.mp h
    obtain ⟨⟨r, db'⟩, hrun, h⟩ := Option.bind_eq_some_iff.mp h
    cases h
    refine .inr ⟨nofun, repo, hrepo, rfl, fun before hworks => ?_⟩
    exact ends_same.mp (runTurns_post hatomic (keepsWork_sync params) hworks hrun)

theorem Device.Settled.after (hsettled : device.Settled) (hatomic : ∀ turn ∈ turns, turn.Atomic)
    (h : device.after turns deed = some device') : device'.Settled := by
  rcases after_cases hatomic h with ⟨database, sent, r, -, hopens, hrepo⟩ |
    ⟨-, repo, hrepo, hrepo', hworks⟩
  · obtain ⟨db', repo'⟩ := device'
    dsimp only at hopens hrepo
    subst hrepo
    cases hopens with
    | answered _ _ _ =>
      refine ⟨fun repo hrepo => ?_, nofun⟩
      cases hrepo
      exact ⟨_, rfl⟩
    | cached _ hstored =>
      refine ⟨fun repo hrepo => ?_, nofun⟩
      cases hrepo
      exact ⟨_, (congrArg ClientDb.syncState hstored).symm⟩
    | failed e _ => exact hsettled
  · have hw := hworks device.db ⟨hsettled.identity repo hrepo, fun _ h => .inl h⟩
    refine ⟨fun other hother => ?_, fun hnone => ?_⟩
    · rw [hrepo'] at hother
      cases hother
      exact hw.identity
    · rw [hrepo'] at hnone
      cases hnone

/-- **What is pending stays that of the stored client**, unless an open changes the client while
something is pending. -/
theorem owned_after_iff (hsettled : device.Settled) (hatomic : ∀ turn ∈ turns, turn.Atomic)
    (h : device.after turns deed = some device') (howned : Owned device.db) :
    Owned device'.db ↔ Moment.KeepsOwner ⟨deed, turns, device, device'⟩ := by
  rw [owned_iff_createdBy] at howned ⊢
  rcases after_cases hatomic h with ⟨database, sent, r, rfl, hopens, -⟩ |
    ⟨hother, repo, hrepo, -, hworks⟩
  · obtain ⟨db', repo'⟩ := device'
    dsimp only at hopens ⊢
    cases hopens with
    | @answered whoami hsent hopened hdone =>
      have hclient : (device.db.identified whoami.clientId whoami.userId).clientId =
          some whoami.clientId := rfl
      constructor
      · intro hafter _ _ whoami' hsent'
        obtain rfl : whoami = whoami' := Except.ok.inj (hsent.symm.trans hsent')
        rcases hpending : device.db.pending with _ | ⟨record, rest⟩
        · exact .inl rfl
        · -- the author of what is pending is the client before and after
          have hmem : record ∈ device.db.pending := by simp [hpending]
          have hsame := hafter record hmem
          rw [hclient] at hsame
          exact .inr ((howned record hmem).trans hsame.symm)
      · -- with the same client, or nothing pending, nothing changes hands
        intro hkeeps record hrecord
        have hmem : record ∈ device.db.pending := hrecord
        rcases hkeeps hopened hdone whoami hsent with hnone | hsame
        · rw [hnone] at hmem
          cases hmem
        · rw [hclient, ← hsame]
          exact howned record hmem
    | cached hnone _ =>
      exact iff_of_true howned fun _ _ whoami hsent => absurd hsent (hnone whoami)
    | failed e hfailed =>
      exact iff_of_true howned fun hopened hdone whoami hsent =>
        absurd hsent (hfailed hopened hdone whoami)
  · have hkeeps : Moment.KeepsOwner ⟨deed, turns, device, device'⟩ := by
      cases deed with
      | opened database sent => exact absurd rfl (hother database sent)
      | called call draw => trivial
      | synced params => trivial
    -- what a call or a sync adds is the work of the stored client
    refine iff_of_true (fun record hrecord => ?_) hkeeps
    have hclient := hsettled.clientId hrepo
    have hw := hworks device.db ⟨hsettled.identity repo hrepo, fun _ h => .inl h⟩
    obtain ⟨last, hstate⟩ := hw.identity
    rw [ClientDb.clientId, hstate]
    show some repo.clientId = some record.createdBy
    rcases hw.pending record hrecord with hold | hown
    · rw [← hclient]
      exact howned record hold
    · rw [hown]

end Deeds

namespace Life

variable {moments : List Moment} {device : Device}

theorem settled (h : Life moments device) : device.Settled := by
  induction h with
  | fresh => exact ⟨nofun, fun _ => rfl⟩
  | next _ hatomic hafter ih => exact ih.after hatomic hafter

/-- Where all that was has been owned, so is what is now. -/
theorem owned_now (h : Life moments device) (hall : ∀ m ∈ moments, Owned m.after.db) :
    Owned device.db := by
  cases h with
  | fresh => exact owned_iff_createdBy.mpr (List.forall_mem_nil _)
  | next _ _ _ => exact (List.forall_mem_cons.mp hall).1

/-- **When the pending revisions are those of the stored client**, in every state of a life: when
each open that changes the stored client finds nothing pending.  The stored client is always that
of the repository that was opened last. -/
theorem owned_iff (h : Life moments device) :
    (∀ repo, device.repo = some repo → device.db.clientId = some repo.clientId) ∧
      ((∀ m ∈ moments, Owned m.after.db) ↔ ∀ m ∈ moments, m.KeepsOwner) := by
  refine ⟨fun repo hrepo => h.settled.clientId hrepo, ?_⟩
  induction h with
  | fresh => exact iff_of_true (List.forall_mem_nil _) (List.forall_mem_nil _)
  | @next moments device device' deed turns h hatomic hafter ih =>
    rw [List.forall_mem_cons, List.forall_mem_cons, ih]
    refine and_congr_left fun hkeeps => ?_
    have howned := h.owned_now (ih.mpr hkeeps)
    exact owned_after_iff h.settled hatomic hafter howned

end Life

/-! ### Reopening with something pending

An application saves a value as the client 7 and is opened again. -/

/-- An open to which the server answers with this client. -/
def openedAs (client : ClientId) : Deed :=
  .opened (.ok ()) (.ok ⟨200, .ok ⟨client, ⟨⟨1⟩⟩, ["writer"]⟩⟩)

/-- What the application saves. -/
def queuedTrip : Revision := ⟨⟨⟨1⟩⟩, ⟨⟨10⟩⟩, "trip", .root, 0, ⟨⟨7⟩⟩, .active .null⟩

/-- The device after the first open, and after the save. -/
def openedDevice : Device := ⟨.opened ⟨⟨7⟩⟩ ⟨⟨1⟩⟩, some exampleRepository⟩

/-- The device with one saved revision. -/
def savedDevice : Device :=
  ⟨(ClientDb.opened ⟨⟨7⟩⟩ ⟨⟨1⟩⟩).written queuedTrip, some exampleRepository⟩

/-- The device that has been opened as the client 8 after the save. -/
def reopenedDevice : Device := ⟨savedDevice.db.identified ⟨⟨8⟩⟩ ⟨⟨1⟩⟩, some ⟨⟨⟨8⟩⟩, ⟨⟨1⟩⟩⟩⟩

/-- The first open and the save. -/
def savedMoments : List Moment :=
  [⟨.called (.save "trip" (.ok .null)) ⟨⟨⟨10⟩⟩, ⟨⟨1⟩⟩, 0⟩, [.done, .done], openedDevice,
      savedDevice⟩,
    ⟨openedAs ⟨⟨7⟩⟩, [.done, .done], .fresh, openedDevice⟩]

theorem life_saved : Life savedMoments savedDevice := by
  have hatomic : ∀ turn ∈ [Turn.done, Turn.done], turn.Atomic := by simp [Turn.Atomic]
  have hopened : Life [⟨openedAs ⟨⟨7⟩⟩, [.done, .done], .fresh, openedDevice⟩] openedDevice :=
    .next .fresh hatomic rfl
  exact .next hopened hatomic rfl

/-- Opened as the same client, and then without a network, with a revision pending. -/
theorem Life.owned_iff_reopened : savedDevice.db.pending.map (·.id) = [⟨⟨1⟩⟩] ∧
    ∃ moments, Life moments savedDevice ∧ moments.length = 4 ∧ ∀ m ∈ moments, Owned m.after.db := by
  have hatomic : ∀ turn ∈ [Turn.done], turn.Atomic := by simp [Turn.Atomic]
  have hsame : Life (⟨openedAs ⟨⟨7⟩⟩, [.done], savedDevice, savedDevice⟩ :: savedMoments)
      savedDevice := .next life_saved hatomic rfl
  have hoffline : Life (⟨.opened (.ok ()) (.error "offline"), [.done], savedDevice, savedDevice⟩ ::
      ⟨openedAs ⟨⟨7⟩⟩, [.done], savedDevice, savedDevice⟩ :: savedMoments) savedDevice :=
    .next hsame hatomic rfl
  refine ⟨by decide +kernel, _, hoffline, rfl, (Life.owned_iff hoffline).2.mpr ?_⟩
  have hfirst : Moment.KeepsOwner ⟨openedAs ⟨⟨7⟩⟩, [.done, .done], .fresh, openedDevice⟩ :=
    fun _ _ _ _ => .inl rfl
  have hagain : Moment.KeepsOwner ⟨openedAs ⟨⟨7⟩⟩, [.done], savedDevice, savedDevice⟩ := by
    rintro - - whoami hwhoami
    cases hwhoami
    exact .inr rfl
  have hsaved : ∀ m ∈ savedMoments, m.KeepsOwner :=
    List.forall_mem_cons.mpr ⟨trivial, List.forall_mem_singleton.mpr hfirst⟩
  have hoff : Moment.KeepsOwner ⟨.opened (.ok ()) (.error "offline"), [.done], savedDevice,
      savedDevice⟩ := fun _ _ _ hwhoami => nomatch hwhoami
  exact List.forall_mem_cons.mpr ⟨hoff, List.forall_mem_cons.mpr ⟨hagain, hsaved⟩⟩

/-- Opened as another client, with the revision pending: the server refuses it. -/
theorem Life.reopened_refused : ∃ moments, Life moments reopenedDevice ∧
    ¬ Owned reopenedDevice.db ∧ reopenedDevice.db.clientId = some ⟨⟨8⟩⟩ ∧
    (pushPending.run (answer (httpServer ⟨⟨8⟩⟩)) (reopenedDevice.db, ⟨{}, 1, none⟩)).1 =
      .ok (0, [⟨⟨⟨1⟩⟩, .malformedData⟩]) := by
  have hatomic : ∀ turn ∈ [Turn.done, Turn.done], turn.Atomic := by simp [Turn.Atomic]
  have hother : Life (⟨openedAs ⟨⟨8⟩⟩, [.done, .done], savedDevice, reopenedDevice⟩ :: savedMoments)
      reopenedDevice := .next life_saved hatomic rfl
  refine ⟨_, hother, fun howned => ?_, rfl, by decide +kernel⟩
  have hauthors : reopenedDevice.db.pending.map (·.createdBy) = [⟨⟨7⟩⟩] := by decide +kernel
  have hsaved : (⟨⟨7⟩⟩ : ClientId) ∈ reopenedDevice.db.pending.map (·.createdBy) := by
    simp [hauthors]
  obtain ⟨record, hrecord, hby⟩ := List.mem_map.mp hsaved
  have hclient := howned.createdBy record hrecord
  rw [hby] at hclient
  cases hclient

end Rustend
