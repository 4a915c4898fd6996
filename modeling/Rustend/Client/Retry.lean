import Rustend.Client.World
import Rustend.Server.Batch

/-!
# Retrying a push

Pushes and syncs of one client, as tasks that run at the same time on its stores.  A
request, or the response to it, may get lost: the call then ends with an error, and another
may retry.  A call that is never answered again has been stopped.

A retry sends what is pending, and the server refuses what it has stored already.  That
is recorded as an error, whether or not the refused revision is the one that was sent before.

## Main definitions

* `Delivery`, `Linked`, `linked` — requests that may get lost, and the stores with the server.
* `Truthful` — what is recorded as synced is stored, and what is recorded as an error is not.
* `Accountable` — the steps at which a retry does no harm.

## Main results

* `triple_pushPending`, `triple_repositorySync` — a call records what is so.
* `push_retry` — **no stored revision is recorded as an error, and none leaves `synced`.**
-/

namespace Rustend

open Interleave Relation

/-! ### A client and its server -/

/-- What becomes of a request. -/
inductive Delivery where
  | arrives
  | requestLost (msg : String)
  | responseLost (msg : String)
  deriving DecidableEq

/-- What the client gets to see of a request, and what the server makes of it. -/
def Delivery.deliver {α : Type} (serve : Conn → Except ClientError (HttpResponse α) × Conn)
    (c : Conn) : Delivery → Except ClientError (HttpResponse α) × Conn
  | .arrives => serve c
  | .requestLost msg => (.error (.network msg), c)
  | .responseLost msg => (.error (.network msg), (serve c).2)

/-- The stores of a client and the server. -/
structure Linked where
  db : ClientDb
  server : Conn
  /-- What the response to a session has rejected, and the session has not recorded yet. -/
  told : List (ℕ × RevisionId)

namespace Linked

/-- The server has stored the revision. -/
def Stored (s : Linked) (r : RevisionId) : Prop := s.server.tables.Stored r

/-- Before any session has started. -/
def start (db : ClientDb) (server : Conn) : Linked := ⟨db, server, []⟩

/-- After a transaction of session `i`. -/
def after (s : Linked) (i : ℕ) (op : IdbOp) : Linked where
  db := (op.eval s.db).2
  server := s.server
  told :=
    match op with
    | .markRevisionError id _ => s.told.erase (i, id)
    | _ => s.told

/-- What session `i` has been told is rejected. -/
def toldTo (s : Linked) (i : ℕ) : List RevisionId :=
  (s.told.filter fun e => e.1 = i).map (·.2)

variable {s : Linked} {i j : ℕ}

theorem mem_toldTo {r : RevisionId} : r ∈ s.toldTo i ↔ (i, r) ∈ s.told := by
  simp only [toldTo, List.mem_map, List.mem_filter, decide_eq_true_eq]
  constructor
  · rintro ⟨⟨i, r⟩, ⟨he, rfl⟩, rfl⟩
    exact he
  · intro h
    exact ⟨(i, r), ⟨h, rfl⟩, rfl⟩

/-- A session is told what it is told, and the others are not. -/
theorem toldTo_append (db : ClientDb) (server : Conn) (told : List RevisionId) :
    (⟨db, server, s.told ++ told.map (i, ·)⟩ : Linked).toldTo j =
      s.toldTo j ++ if j = i then told else [] := by
  rw [toldTo, toldTo, List.filter_append, List.map_append]
  congr 1
  split
  · next h =>
    subst h
    rw [List.filter_eq_self.mpr (by simp), List.map_map]
    exact List.map_id told
  · next h => rw [List.filter_eq_nil_iff.mpr (by simp [Ne.symm h]), List.map_nil]

theorem toldTo_mark_of_ne (op : IdbOp) (h : j ≠ i) : (s.after i op).toldTo j = s.toldTo j := by
  cases op with
  | markRevisionError id reason =>
    -- what is crossed out is not among what the other session has been told
    have hnot : (i, id) ∉ s.told.filter fun e => e.1 = j := by
      rw [List.mem_filter, decide_eq_true_iff]
      exact fun hmem => h hmem.2.symm
    show ((s.told.erase (i, id)).filter _).map _ = _
    rw [← List.erase_filter, List.erase_of_not_mem hnot, toldTo]
  | _ => rfl

/-- Erasing one of the pairs of session `i`. -/
theorem map_snd_erase {told : List (ℕ × RevisionId)} (h : ∀ e ∈ told, e.1 = i) (id : RevisionId) :
    (told.erase (i, id)).map (·.2) = (told.map (·.2)).erase id := by
  induction told with
  | nil => rfl
  | cons e told ih =>
    obtain ⟨he, htold⟩ := List.forall_mem_cons.mp h
    obtain ⟨j, r⟩ := e
    obtain rfl : j = i := he
    by_cases hr : r = id
    · subst hr
      simp
    · rw [List.erase_cons_tail (by simp [hr]), List.map_cons, List.map_cons, ih htold,
        List.erase_cons_tail (by simpa using hr)]

/-- A rejection that is recorded is crossed out. -/
theorem toldTo_mark (id : RevisionId) (reason : RejectionReason) :
    (s.after i (.markRevisionError id reason)).toldTo i = (s.toldTo i).erase id := by
  show ((s.told.erase (i, id)).filter _).map _ = _
  rw [← List.erase_filter, toldTo]
  exact map_snd_erase (fun e he => of_decide_eq_true (List.mem_filter.mp he).2) id

end Linked

/-- The rejected revisions of a response. -/
def rejections (x : Except ClientError (HttpResponse PushResponse)) : List RevisionId :=
  match parsed x with
  | some resp => resp.rejected.map (·.revisionId)
  | none => []

/-- The stores of `client`, one transaction at a time, and the server, one request at a time. -/
def linked (client : ClientId) : Machine browser ClientError ℕ Delivery Linked where
  exec i ch op s :=
    match op with
    | .idb op => some (.ok (op.eval s.db).1, s.after i op)
    | .postChanges req =>
        let x := ch.deliver ((httpServer client).changes req) s.server
        some (x.1, { s with
          server := x.2
          told := s.told ++ (rejections x.1).map (i, ·) })
    | .postChangesQuery req =>
        let x := ch.deliver ((httpServer client).changesQuery req) s.server
        some (x.1, { s with server := x.2 })

/-- What a session runs. -/
inductive SyncCall where
  | push
  | sync (params : PullRequest)

/-- The program of a session, with what it returns. -/
def SyncCall.program : SyncCall → Browser ((ℕ × List RejectedRevision) ⊕ SyncResult)
  | .push => do return .inl (← pushPending)
  | .sync params => do return .inr (← Repository.sync params)

/-- The sessions of one client, with its stores and the server. -/
abbrev LinkedConfig :=
  Config browser ClientError ℕ SyncCall ((ℕ × List RejectedRevision) ⊕ SyncResult) Linked

/-! ### What records say -/

/-- What a record says of its revision is so. -/
def Linked.Right (s : Linked) (record : RevisionRecord) : Prop :=
  (record.syncStatus = .synced → s.Stored record.id) ∧
    ∀ reason, record.syncStatus = .syncError reason → ¬ s.Stored record.id

/-- The server is in order, and what every record says is so. -/
structure Truthful (s : Linked) : Prop where
  server : ConnInv s.server
  records : ∀ record ∈ s.db.revisions, s.Right record

/-- The server answers a batch entry by entry: what it chooses to write can be written. -/
def Answerable (c : Conn) (client : ClientId) (revisions : List Revision) : Prop :=
  chosen c.tables client revisions = [] ∨
    ((chosen c.tables client revisions).map (·.id)).Nodup ∧
      (∀ rev ∈ chosen c.tables client revisions, rev.row.storable = true) ∧ c.nextval ≤ i64Max

/-- A delivery that does no harm: if the response arrives, nothing of the batch had been
stored before, and nothing that the server lets through has been given up as rejected. -/
structure Harmless (client : ClientId) (i : ℕ) (ch : Delivery) (revisions : List Revision)
    (s : Linked) : Prop where
  fresh : ch = .arrives → ∀ rev ∈ revisions, ¬ s.Stored rev.id
  pending : (∀ msg, ch ≠ .requestLost msg) → ∀ rev ∈ (sieve s.server.tables client revisions).1,
    (∀ record ∈ s.db.revisions, record.id = rev.id →
      ∀ reason, record.syncStatus ≠ .syncError reason) ∧ ∀ e ∈ s.told, e.2 = rev.id → e.1 = i

/-- Every batch that the server answers is delivered without harm. -/
def Accountable (client : ClientId) (c : LinkedConfig) : Label ℕ Delivery SyncCall → Prop
  | .start .. => True
  | .step i ch => ∀ revisions, c.pending i = some (.postChanges ⟨revisions⟩) →
      Answerable c.shared.server client revisions → Harmless client i ch revisions c.shared

/-! ### The server -/

/-- The server has answered a batch entry by entry. -/
structure Replied (client : ClientId) (revisions : List Revision) (c c' : Conn)
    (resp : PushResponse) : Prop where
  answerable : Answerable c client revisions
  stored : ∀ r, c'.tables.Stored r ↔
    c.tables.Stored r ∨ ∃ rev ∈ (sieve c.tables client revisions).1, rev.id = r
  accepted : ∀ r ∈ resp.accepted, c'.tables.Stored r
  rejected : ∀ r ∈ resp.rejected.map (·.revisionId),
    (∃ rev ∈ revisions, rev.id = r) ∧ (c'.tables.Stored r → c.tables.Stored r)

/-- **A push request is answered entry by entry**, or it changes nothing. -/
theorem ConnInv.changes_replied {c : Conn} (h : ConnInv c) (client : ClientId)
    (revisions : List Revision) : ∃ x c',
    (httpServer client).changes ⟨revisions⟩ c = (x, c') ∧ ConnInv c' ∧
      ((∃ resp, parsed x = some resp ∧ Replied client revisions c c' resp) ∨
        parsed x = none ∧ ∀ r, c'.tables.Stored r ↔ c.tables.Stored r) := by
  obtain ⟨clients, -, hrun⟩ :=
    run_authenticated client (Rustend.pushRevisions client revisions) c
  have hconn := h.withClients clients
  have hpush := ConnInv.pushRevisions hconn client revisions
  refine ⟨_, _, rfl, ?_⟩
  simp only [hrun, parsed_respond]
  rcases hy : (Rustend.pushRevisions client revisions).run Stmt.eval (c.withClients clients) with
    ⟨e | resp, c'⟩
  · rw [hy] at hpush ⊢
    refine ⟨hpush.1, .inr ⟨rfl, fun r => ?_⟩⟩
    have htables : c'.tables = (c.withClients clients).tables := hpush.2.1
    rw [htables]
    exact Iff.rfl
  · rw [hy] at hpush ⊢
    refine ⟨hpush.1, .inl ⟨resp, rfl, ?_⟩⟩
    have hs := hconn.sieved hy
    have hchosen := hconn.chosen_writable hy
    have hsieve : sieve (c.withClients clients).tables client revisions =
        sieve c.tables client revisions := sieve_withClients c.tables clients client revisions
    rw [chosen, hsieve, ← chosen] at hchosen
    rw [hsieve] at hs
    -- what is stored afterwards
    have hstored : ∀ r, c'.tables.Stored r ↔
        c.tables.Stored r ∨ ∃ rev ∈ (sieve c.tables client revisions).1, rev.id = r := by
      intro r
      rcases hs.written with ⟨hnil, ht, -⟩ | ⟨-, happ, -⟩
      · rw [hnil, ht]
        simp [Conn.withClients, Tables.Stored]
      · exact happ.stored_iff
    refine ⟨hchosen, hstored, fun r hr => ?_, fun r hr => ?_⟩
    · rw [hs.accepted] at hr
      obtain ⟨rev, hrev, rfl⟩ := List.mem_map.mp hr
      exact (hstored rev.id).mpr (.inr ⟨rev, hrev, rfl⟩)
    · rw [hs.rejected] at hr
      obtain ⟨rev, hrev, rfl⟩ := List.mem_map.mp hr
      refine ⟨⟨rev, hs.refused_sublist.subset hrev, rfl⟩, fun hnow => ?_⟩
      rcases (hstored rev.id).mp hnow with hold | ⟨acc, hacc, hid⟩
      · exact hold
      · exact absurd hid (hs.apart acc hacc rev hrev)

/-! ### The sessions -/

/-- What a step of session `i` does: whatever it records is so, it stores nothing that another
session has been told is rejected, and what was synced stays so. -/
structure LinkStep (i : ℕ) (s s' : Linked) : Prop where
  truthful : Truthful s'
  told : ∀ j, j ≠ i → s'.toldTo j = s.toldTo j
  stored : ∀ r, s.Stored r → s'.Stored r
  apart : ∀ j, j ≠ i → ∀ r ∈ s.toldTo j, s'.Stored r → s.Stored r
  synced : ∀ record ∈ s.db.revisions, record.syncStatus = .synced →
    ∃ record' ∈ s'.db.revisions, record'.id = record.id ∧ record'.syncStatus = .synced

/-- What session `i` relies on the others for. -/
structure LinkRely (i : ℕ) (s s' : Linked) : Prop where
  truthful : Truthful s'
  told : s'.toldTo i = s.toldTo i
  stored : ∀ r, s.Stored r → s'.Stored r
  apart : ∀ r ∈ s.toldTo i, s'.Stored r → s.Stored r

/-- Session `i` among others. -/
def linkEnv (client : ClientId) (i : ℕ) : Env browser ClientError Linked where
  exec op s r s' := ∃ ch, (∀ revisions, op = .postChanges ⟨revisions⟩ →
      Answerable s.server client revisions → Harmless client i ch revisions s) ∧
    (linked client).exec i ch op s = some (r, s')
  rely s s' := Truthful s → LinkRely i s s'
  guar s s' := Truthful s → LinkStep i s s'
  rely_refl _ h := ⟨h, rfl, fun _ hr => hr, fun _ _ hr => hr⟩
  rely_trans _ _ _ h h' hs := by
    have h₁ := h hs
    have h₂ := h' h₁.truthful
    refine ⟨h₂.truthful, h₂.told.trans h₁.told, fun r hr => h₂.stored r (h₁.stored r hr), ?_⟩
    intro r hr hnow
    exact h₁.apart r hr (h₂.apart r (h₁.told ▸ hr) hnow)

/-- What a session knows: what it has been told is rejected is not stored, and other
revisions are. -/
structure Hears (i : ℕ) (refused held : List RevisionId) (s : Linked) : Prop where
  truthful : Truthful s
  told : s.toldTo i = refused
  unstored : ∀ r ∈ refused, ¬ s.Stored r
  stored : ∀ r ∈ held, s.Stored r

section Requests

variable {client : ClientId} {i : ℕ} {refused held : List RevisionId} {s : Linked}

theorem stable_linked {P : Prop} : Stable (linkEnv client i) fun _ => P := fun _ _ _ h => h

theorem stable_hears : Stable (linkEnv client i) (Hears i refused held) := by
  intro s s' hrely h
  have hr := hrely h.truthful
  refine ⟨hr.truthful, hr.told.trans h.told, fun r hrefused hnow => ?_, fun r hs => ?_⟩
  · exact h.unstored r hrefused (hr.apart r (h.told ▸ hrefused) hnow)
  · exact hr.stored r (h.stored r hs)

theorem Hears.weaken {held' : List RevisionId} (h : Hears i refused held s)
    (hsub : held' ⊆ held) : Hears i refused held' s :=
  ⟨h.truthful, h.told, h.unstored, fun r hr => h.stored r (hsub hr)⟩

/-- A transaction that leaves every record as it was, or says of it what is so. -/
theorem Truthful.transaction (h : Truthful s) (i : ℕ) {op : IdbOp}
    (hfrom : ∀ record ∈ (op.eval s.db).2.revisions, record ∈ s.db.revisions ∨ s.Right record)
    (hto : ∀ record ∈ s.db.revisions, ∃ record' ∈ (op.eval s.db).2.revisions,
      record'.id = record.id ∧
        (record' = record ∨ record'.syncStatus ≠ .pending ∧ s.Right record')) :
    LinkStep i s (s.after i op) := by
  refine ⟨⟨h.server, fun record hrecord => ?_⟩, fun j hj => Linked.toldTo_mark_of_ne op hj,
    fun _ hr => hr, fun _ _ _ _ hr => hr, fun record hrecord hsynced => ?_⟩
  · exact (hfrom record hrecord).elim (h.records record) id
  · obtain ⟨record', hrecord', hid, hcase⟩ := hto record hrecord
    refine ⟨record', hrecord', hid, ?_⟩
    rcases hcase with rfl | ⟨hnot, hright⟩
    · exact hsynced
    · -- its revision is stored, so it is not recorded as an error
      have hstored : s.Stored record'.id := hid ▸ (h.records record hrecord).1 hsynced
      cases hstatus : record'.syncStatus with
      | synced => rfl
      | pending => exact absurd hstatus hnot
      | syncError reason => exact absurd hstored (hright.2 reason hstatus)

/-- A transaction that leaves the records alone. -/
theorem Truthful.quiet (h : Truthful s) (i : ℕ) {op : IdbOp}
    (hop : (op.eval s.db).2.revisions = s.db.revisions) : LinkStep i s (s.after i op) := by
  refine h.transaction i (fun record hrecord => .inl ?_) fun record hrecord =>
    ⟨record, ?_, rfl, .inl rfl⟩
  · rwa [hop] at hrecord
  · rwa [hop]

/-- Setting the status of a revision to one that is so. -/
theorem Truthful.mark (h : Truthful s) (i : ℕ) {op : IdbOp} {id : RevisionId} {status : SyncStatus}
    (hop : (op.eval s.db).2 = s.db.markRevision id status) (hnot : status ≠ .pending)
    (hsynced : status = .synced → s.Stored id)
    (herror : ∀ reason, status = .syncError reason → ¬ s.Stored id) :
    LinkStep i s (s.after i op) := by
  have hright : ∀ old : RevisionRecord, old.id = id →
      s.Right { old with syncStatus := status } := by
    rintro old rfl
    exact ⟨hsynced, herror⟩
  refine h.transaction i (fun record hrecord => ?_) fun record hrecord => ?_
  · rw [hop, mem_markRevision] at hrecord
    obtain ⟨old, hold, rfl⟩ := hrecord
    split
    · next hid => exact .inr (hright old hid)
    · exact .inl hold
  · refine ⟨_, by rw [hop]; exact mem_markRevision.mpr ⟨record, hrecord, rfl⟩, ?_⟩
    split
    · next hid => exact ⟨rfl, .inr ⟨hnot, hright record hid⟩⟩
    · exact ⟨rfl, .inl rfl⟩

/-- Putting a revision that is stored as one that is synced. -/
theorem Truthful.put (h : Truthful s) (i : ℕ) {rev : Revision} (hrev : s.Stored rev.id) :
    LinkStep i s (s.after i (.putRevision (.fromRevision rev .synced))) := by
  have hright : s.Right (.fromRevision rev .synced) := ⟨fun _ => hrev, nofun⟩
  refine h.transaction i (fun record hrecord => ?_) fun record hrecord => ?_
  · rcases KeyedStore.mem_put.mp hrecord with rfl | ⟨hold, -⟩
    · exact .inr hright
    · exact .inl hold
  · by_cases hid : record.id = rev.id
    · exact ⟨_, KeyedStore.mem_put.mpr (.inl rfl), hid.symm, .inr ⟨nofun, hright⟩⟩
    · refine ⟨record, KeyedStore.mem_put.mpr (.inr ⟨hrecord, ?_⟩), rfl, .inl rfl⟩
      exact fun hkey => hid (RevisionId.key_inj.mp hkey)

/-- **A transaction of a session**, by what it does to the stores. -/
theorem triple_transaction {op : IdbOp} {refused' : List RevisionId}
    (hstep : ∀ s, Hears i refused held s → LinkStep i s (s.after i op))
    (htold : ∀ s : Linked, s.toldTo i = refused → (s.after i op).toldTo i = refused')
    (hsub : refused' ⊆ refused) :
    Triple (linkEnv client i) (Hears i refused held) (idb op)
      (Ends (fun _ => Hears i refused' held) fun _ _ => False) := by
  refine Triple.perform stable_hears (fun r => ?_) ?_
  · cases r with
    | ok _ => exact stable_hears
    | error e => exact stable_linked
  · rintro s r s' hs ⟨ch, -, hexec⟩
    cases hexec
    have hlink := hstep s hs
    refine ⟨fun _ => hlink, hlink.truthful, htold s hs.told, fun r hr => ?_, hs.stored⟩
    exact hs.unstored r (hsub hr)

theorem triple_quietTransaction (op : IdbOp)
    (hop : ∀ db, (op.eval db).2.revisions = db.revisions)
    (htold : ∀ s : Linked, (s.after i op).toldTo i = s.toldTo i) :
    Triple (linkEnv client i) (Hears i refused held) (idb op)
      (Ends (fun _ => Hears i refused held) fun _ _ => False) := by
  refine triple_transaction (fun s hs => ?_) (fun s hs => ?_) (List.Subset.refl _)
  · exact hs.truthful.quiet i (hop s.db)
  · exact (htold s).trans hs

/-! ### Pushing -/

/-- **What a push is answered is so**: the accepted revisions are stored, and the rejected
ones are not. -/
theorem triple_postChanges (revisions : List Revision) :
    Triple (linkEnv client i) (Hears i [] []) (.perform (S := browser) (.postChanges ⟨revisions⟩))
      (Ends (fun reply s => ∀ resp, parsed (.ok reply) = some resp →
        Hears i (resp.rejected.map (·.revisionId)) resp.accepted s) fun _ _ => True) := by
  refine Triple.perform stable_hears (fun r => ?_) ?_
  · cases r with
    | ok reply => exact fun s s' hrely h resp hresp => stable_hears s s' hrely (h resp hresp)
    | error e => exact stable_linked
  rintro s r s' hs ⟨ch, hch, hexec⟩
  cases hexec
  have hallowed := hch revisions rfl
  obtain ⟨x, c', hx, hconn, hserved⟩ := hs.truthful.server.changes_replied client revisions
  have htold : ∀ (c' : Conn) (t : List RevisionId) (j : ℕ),
      (⟨s.db, c', s.told ++ t.map (i, ·)⟩ : Linked).toldTo j =
        s.toldTo j ++ if j = i then t else [] := fun c' t j => Linked.toldTo_append s.db c' t
  have hother : ∀ (c' : Conn) (t : List RevisionId) (j : ℕ), j ≠ i →
      (⟨s.db, c', s.told ++ t.map (i, ·)⟩ : Linked).toldTo j = s.toldTo j := by
    intro c' t j hj
    rw [htold, if_neg hj, List.append_nil]
  -- whether or not the response arrives, the server has done what it does
  have hstep : ∀ t : List RevisionId, (∀ msg, ch ≠ .requestLost msg) →
      LinkStep i s { s with server := c', told := s.told ++ t.map (i, ·) } := by
    intro t hsent
    rcases hserved with ⟨resp, -, hreplied⟩ | ⟨-, hsame⟩
    · have hpending := (hallowed hreplied.answerable).pending hsent
      refine ⟨⟨hconn, fun record hrecord => ⟨fun hsynced => ?_, fun reason herror hnow => ?_⟩⟩,
        fun j hj => hother c' t j hj, fun r hr => (hreplied.stored r).mpr (.inl hr),
        fun j hj r hr hnow => ?_, fun record hrecord hsynced => ⟨record, hrecord, rfl, hsynced⟩⟩
      · exact (hreplied.stored _).mpr (.inl ((hs.truthful.records record hrecord).1 hsynced))
      · rcases (hreplied.stored _).mp hnow with hold | ⟨rev, hrev, hid⟩
        · exact (hs.truthful.records record hrecord).2 reason herror hold
        · exact (hpending rev hrev).1 record hrecord hid.symm reason herror
      · rcases (hreplied.stored r).mp hnow with hold | ⟨rev, hrev, rfl⟩
        · exact hold
        · exact absurd ((hpending rev hrev).2 _ (Linked.mem_toldTo.mp hr) rfl) hj
    · refine ⟨⟨hconn, fun record hrecord => ⟨fun hsynced => ?_, fun reason herror hnow => ?_⟩⟩,
        fun j hj => hother c' t j hj, fun r hr => (hsame r).mpr hr,
        fun j hj r hr hnow => (hsame r).mp hnow,
        fun record hrecord hsynced => ⟨record, hrecord, rfl, hsynced⟩⟩
      · exact (hsame _).mpr ((hs.truthful.records record hrecord).1 hsynced)
      · exact (hs.truthful.records record hrecord).2 reason herror ((hsame _).mp hnow)
  cases ch with
  | requestLost msg =>
    refine ⟨fun _ => ⟨⟨hs.truthful.server, hs.truthful.records⟩, fun j hj => hother _ _ j hj,
      fun _ hr => hr, fun _ _ _ _ hr => hr,
      fun record hrecord hsynced => ⟨record, hrecord, rfl, hsynced⟩⟩, trivial⟩
  | responseLost msg =>
    simp only [Delivery.deliver, hx]
    exact ⟨fun _ => hstep _ nofun, trivial⟩
  | arrives =>
    simp only [Delivery.deliver, hx]
    refine ⟨fun _ => hstep _ nofun, ?_⟩
    cases x with
    | error e => trivial
    | ok reply =>
      intro resp hresp
      have hlink := hstep (rejections (.ok reply)) nofun
      rcases hserved with ⟨resp', hresp', hreplied⟩ | ⟨hnone, -⟩
      · rw [hresp] at hresp'
        cases hresp'
        refine ⟨hlink.truthful, ?_, fun r hr hnow => ?_, hreplied.accepted⟩
        · show (⟨s.db, c', s.told ++ (rejections (.ok reply)).map (i, ·)⟩ : Linked).toldTo i = _
          rw [htold, if_pos rfl, hs.told, List.nil_append, rejections, hresp]
        · obtain ⟨⟨rev, hrev, rfl⟩, hstored⟩ := hreplied.rejected r hr
          exact (hallowed hreplied.answerable).fresh rfl rev hrev (hstored hnow)
      · rw [hresp] at hnone
        cases hnone

/-- The accepted revisions are stored, and may be recorded as synced. -/
theorem triple_recordAccepted : Triple (linkEnv client i) (Hears i refused held)
    (.forEach (fun revId => idb (.markRevisionSynced revId)) held)
    (Ends (fun _ => Hears i refused held) fun _ _ => False) := by
  refine Triple.forEach (fun _ => stable_hears) (fun _ => stable_linked) (fun xs id rest hall => ?_)
    held [] rfl
  refine triple_transaction (fun s hs => ?_) (fun s hs => hs) (List.Subset.refl _)
  have hid : id ∈ held := by
    rw [show held = xs ++ id :: rest from hall]
    exact List.mem_append_right _ List.mem_cons_self
  exact hs.truthful.mark i rfl nofun (fun _ => hs.stored id hid) nofun

/-- The rejected revisions are recorded one after the other, while what is left of them
is not stored. -/
theorem triple_recordRejected {rejected : List RejectedRevision} :
    Triple (linkEnv client i) (Hears i (rejected.map (·.revisionId)) held)
      (.forEach (fun rejected => idb (.markRevisionError rejected.revisionId rejected.reason))
        rejected)
      (Ends (fun _ => Hears i [] held) fun _ _ => False) := by
  have hloop : Triple (linkEnv client i) (Hears i ((rejected.drop 0).map (·.revisionId)) held)
      (.forEach (fun rejected => idb (.markRevisionError rejected.revisionId rejected.reason))
        rejected)
      (Ends (fun _ => Hears i ((rejected.drop rejected.length).map (·.revisionId)) held)
        fun _ _ => False) := by
    refine Triple.forEach
      (I := fun xs => Hears i ((rejected.drop xs.length).map (·.revisionId)) held)
      (fun _ => stable_hears) (fun _ => stable_linked) (fun xs x rest hall => ?_) rejected [] rfl
    have hcons : rejected.drop xs.length = x :: rest := by
      rw [show rejected = xs ++ x :: rest from hall, List.drop_left]
    have htail : rejected.drop (xs ++ [x]).length = rest := by
      rw [show rejected = (xs ++ [x]) ++ rest by rw [List.append_assoc]; exact hall, List.drop_left]
    simp only [hcons, htail, List.map_cons]
    refine triple_transaction (fun s hs => ?_) (fun s hs => ?_) (List.subset_cons_self _ _)
    · exact hs.truthful.mark i rfl nofun nofun fun _ _ => hs.unstored _ List.mem_cons_self
    · rw [Linked.toldTo_mark, hs, List.erase_cons_head]
  rwa [List.drop_length] at hloop

/-- **A push records what is so.** -/
theorem triple_pushPending : Triple (linkEnv client i) (Hears i [] []) pushPending
    (Ends (fun _ => Hears i [] []) fun _ _ => True) := by
  have hread : Triple (linkEnv client i) (Hears i [] []) (idb .getPendingRevisions)
      (Ends (fun _ => Hears i [] []) fun _ _ => False) :=
    triple_quietTransaction _ (fun _ => rfl) fun _ => rfl
  unfold pushPending
  refine Triple.seq hread (fun pending => ?_) (fun _ => stable_linked) fun _ _ => False.elim
  split
  · exact Triple.done stable_hears fun _ h => h
  refine Triple.seq (triple_postChanges _) (fun reply => ?_) (fun _ => stable_linked) fun _ _ h => h
  rcases json_cases reply "push failed: " with ⟨e, he, -⟩ | ⟨resp, hresp, hparsed⟩
  · rw [he]
    exact Triple.done (fun s s' hrely h resp hresp => stable_hears s s' hrely (h resp hresp))
      fun _ _ => trivial
  rw [hresp]
  have hdone : Triple (linkEnv client i) (Hears i [] resp.accepted)
      (pure (resp.accepted.length, resp.rejected))
      (Ends (fun _ => Hears i [] []) fun _ _ => True) :=
    Triple.done stable_hears fun _ h => h.weaken (List.nil_subset _)
  have hrecord : Triple (linkEnv client i)
      (Hears i (resp.rejected.map (·.revisionId)) resp.accepted)
      (do
        .forEach (fun revId => idb (.markRevisionSynced revId)) resp.accepted
        .forEach (fun rejected => idb (.markRevisionError rejected.revisionId rejected.reason))
          resp.rejected
        return (resp.accepted.length, resp.rejected))
      (Ends (fun _ => Hears i [] []) fun _ _ => True) := by
    refine Triple.seq triple_recordAccepted (fun _ => ?_) (fun _ => stable_linked)
      fun _ _ => False.elim
    exact Triple.seq triple_recordRejected (fun _ => hdone) (fun _ => stable_linked)
      fun _ _ => False.elim
  exact fun s hs => hrecord s (hs resp hparsed)

/-! ### Pulling -/

/-- What a pull is answered is stored. -/
theorem triple_postChangesQuery (params : PullRequest) :
    Triple (linkEnv client i) (Hears i [] [])
      (.perform (S := browser) (.postChangesQuery params))
      (Ends (fun reply s => ∀ resp, parsed (.ok reply) = some resp →
        Hears i [] (resp.objectUpdates.flatMap fun u => u.heads.map (·.id)) s)
        fun _ _ => True) := by
  refine Triple.perform stable_hears (fun r => ?_) ?_
  · cases r with
    | ok reply => exact fun s s' hrely h resp hresp => stable_hears s s' hrely (h resp hresp)
    | error e => exact stable_linked
  rintro s r s' hs ⟨ch, -, hexec⟩
  cases hexec
  obtain ⟨x, clients, hx, hserved⟩ := hs.truthful.server.changesQuery client params
  -- registering the client stores nothing
  have hregistered : LinkStep i s { s with server := s.server.withClients clients } :=
    ⟨⟨hs.truthful.server.withClients clients, hs.truthful.records⟩, fun _ _ => rfl, fun _ hr => hr,
      fun _ _ _ _ hr => hr, fun record hrecord hsynced => ⟨record, hrecord, rfl, hsynced⟩⟩
  cases ch with
  | requestLost msg =>
    exact ⟨fun _ => ⟨⟨hs.truthful.server, hs.truthful.records⟩, fun _ _ => rfl, fun _ hr => hr,
      fun _ _ _ _ hr => hr, fun record hrecord hsynced => ⟨record, hrecord, rfl, hsynced⟩⟩,
      trivial⟩
  | responseLost msg =>
    simp only [Delivery.deliver, hx]
    exact ⟨fun _ => hregistered, trivial⟩
  | arrives =>
    simp only [Delivery.deliver, hx]
    refine ⟨fun _ => hregistered, ?_⟩
    cases x with
    | error e => trivial
    | ok reply =>
      intro resp hresp
      refine ⟨hregistered.truthful, hs.told, hs.unstored, fun r hr => ?_⟩
      rcases hserved with ⟨updates, hresp', -, hans⟩ | hnone
      · rw [hresp] at hresp'
        cases hresp'
        obtain ⟨u, hu, hr⟩ := List.mem_flatMap.mp hr
        obtain ⟨rev, hrev, rfl⟩ := List.mem_map.mp hr
        obtain ⟨row, hrow, parents, rfl, -⟩ := hans.rows u hu rev hrev
        exact ⟨row, hrow, rfl⟩
      · rw [hresp] at hnone
        cases hnone

/-- Applying an update records nothing but revisions that are stored. -/
theorem triple_recordUpdate {u : ObjectUpdate} (hu : ∀ rev ∈ u.heads, rev.id ∈ held) :
    Triple (linkEnv client i) (Hears i refused held) (applyUpdate u)
      (Ends (fun _ => Hears i refused held) fun _ _ => True) := by
  have hput : Triple (linkEnv client i) (Hears i refused held)
      (.forEach (fun rev => idb (.putRevision (.fromRevision rev .synced))) u.heads)
      (Ends (fun _ => Hears i refused held) fun _ _ => False) := by
    refine Triple.forEach (fun _ => stable_hears) (fun _ => stable_linked)
      (fun xs rev rest hall => ?_) u.heads [] rfl
    refine triple_transaction (fun s hs => ?_) (fun s hs => hs) (List.Subset.refl _)
    have hrev : rev ∈ u.heads := by
      rw [show u.heads = xs ++ rev :: rest from hall]
      exact List.mem_append_right _ List.mem_cons_self
    exact hs.truthful.put i (hs.stored _ (hu rev hrev))
  have hheads : ∀ (op : IdbOp) (b : Bool), (∀ db, (op.eval db).2.revisions = db.revisions) →
      (∀ s : Linked, (s.after i op).toldTo i = s.toldTo i) →
      Triple (linkEnv client i) (Hears i refused held) (do let _ ← idb op; return b)
        (Ends (fun _ => Hears i refused held) fun _ _ => True) := by
    intro op b hop htold
    refine Triple.seq (triple_quietTransaction op hop htold) (fun _ => ?_)
      (fun _ => stable_linked) fun _ _ => False.elim
    exact Triple.done stable_hears fun _ h => h
  unfold applyUpdate
  refine Triple.seq hput (fun _ => ?_) (fun _ => stable_linked) fun _ _ => False.elim
  cases u.action with
  | conflict => exact hheads (.addHeads u.heads) true (fun _ => rfl) fun _ => rfl
  | replace =>
    refine Triple.seq (triple_quietTransaction _ (fun _ => rfl) fun _ => rfl) (fun existing => ?_)
      (fun _ => stable_linked) fun _ _ => False.elim
    split
    · exact hheads (.addHeads u.heads) true (fun _ => rfl) fun _ => rfl
    · exact hheads (.replaceHeads u.objectId u.heads) false (fun _ => rfl) fun _ => rfl

theorem triple_recordUpdates : ∀ {updates : List ObjectUpdate} (counts : ℕ × ℕ),
    (∀ u ∈ updates, ∀ rev ∈ u.heads, rev.id ∈ held) →
    Triple (linkEnv client i) (Hears i refused held) (applyUpdates updates counts)
      (Ends (fun _ => Hears i refused held) fun _ _ => True)
  | [], _, _ => Triple.done stable_hears fun _ h => h
  | u :: updates, (pulled, conflicted), hall => by
    obtain ⟨hu, hall⟩ := List.forall_mem_cons.mp hall
    unfold applyUpdates
    exact Triple.seq (triple_recordUpdate hu) (fun _ => triple_recordUpdates _ hall)
      (fun _ => stable_linked) fun _ _ h => h

theorem triple_readSyncState : Triple (linkEnv client i) (Hears i refused held) (idb .readSyncState)
    (Ends (fun _ => Hears i refused held) fun _ _ => False) := by
  refine triple_quietTransaction _ (fun db => ?_) fun _ => rfl
  rcases hstate : db.syncState with _ | record <;> simp only [IdbOp.eval, hstate]

/-- **A sync records what is so.** -/
theorem triple_repositorySync (params : PullRequest) :
    Triple (linkEnv client i) (Hears i [] []) (Repository.sync params)
      (Ends (fun _ _ => True) fun _ _ => True) := by
  have hpull : ∀ params, Triple (linkEnv client i) (Hears i [] []) (pullUpdates params)
      (Ends (fun _ _ => True) fun _ _ => True) := by
    intro params
    unfold pullUpdates
    refine Triple.seq (triple_postChangesQuery params) (fun reply => ?_) (fun _ => stable_linked)
      fun _ _ h => h
    rcases json_cases reply "pull failed: " with ⟨e, he, -⟩ | ⟨resp, hresp, hparsed⟩
    · rw [he]
      exact fun _ _ _ _ => trivial
    rw [hresp]
    intro s hs
    have hheld := hs resp hparsed
    refine Triple.seq (triple_recordUpdates (0, 0) fun u hu rev hrev => ?_) (fun counts => ?_)
      (fun _ => stable_linked) (fun _ _ h => h) s hheld
    · exact List.mem_flatMap.mpr ⟨u, hu, List.mem_map_of_mem hrev⟩
    refine Triple.seq triple_readSyncState (fun state => ?_) (fun _ => stable_linked)
      fun _ _ => False.elim
    -- the cursor is neither a status nor a revision
    have hdone : ∀ {P : Linked → Prop}, Triple (linkEnv client i) P (pure counts)
        (Ends (fun _ _ => True) fun _ _ => True) := fun _ _ _ _ => trivial
    obtain ⟨cid, uid, last⟩ := state
    cases cid with
    | none => exact hdone
    | some cid =>
      cases uid with
      | none => exact hdone
      | some uid =>
        exact Triple.seq (triple_quietTransaction _ (fun _ => rfl) fun _ => rfl) (fun _ => hdone)
          (fun _ => stable_linked) fun _ _ => False.elim
  have hsync : ∀ params, Triple (linkEnv client i) (Hears i [] []) (Rustend.sync params)
      (Ends (fun _ _ => True) fun _ _ => True) := by
    intro params
    unfold Rustend.sync
    refine Triple.seq triple_pushPending (fun _ => ?_) (fun _ => stable_linked) fun _ _ h => h
    refine Triple.seq (hpull params) (fun _ => ?_) (fun _ => stable_linked) fun _ _ h => h
    exact Triple.done stable_linked fun _ h => h
  unfold Repository.sync
  split
  · refine Triple.seq triple_readSyncState (fun _ => ?_) (fun _ => stable_linked)
      fun _ _ => False.elim
    exact hsync _
  · exact hsync params

end Requests

/-! ### Sessions together -/

section Run

variable {client : ClientId} {db : ClientDb} {server : Conn} {c c' : LinkedConfig}

theorem compatible_linked : Compatible (linked client) SyncCall.program (Accountable client)
    (fun i _ => linkEnv client i) Truthful (fun i s => s.toldTo i = []) fun _ _ _ _ => True where
  exec c i ch req op next r s' hl hp hx := by
    refine ⟨ch, fun revisions hop => hl revisions ?_, hx⟩
    rw [Config.pending_eq hp, hop]
  guar_rely i j _ _ s s' hij hg hs := by
    have hstep := hg hs
    exact ⟨hstep.truthful, hstep.told j hij.symm, hstep.stored, hstep.apart j hij.symm⟩
  guar_inv i _ s s' hg hs := (hg hs).truthful
  guar_idle i j _ s s' hij hg hs hidle := ((hg hs).told j hij.symm).trans hidle
  start c i req _ hs hidle := by
    have hstart : Hears i [] [] c.shared :=
      ⟨hs, hidle, List.forall_mem_nil _, List.forall_mem_nil _⟩
    cases req with
    | push =>
      have hpush : Triple (linkEnv client i) (Hears i [] []) (SyncCall.program .push)
          fun _ _ => True := by
        refine Triple.bind triple_pushPending (fun _ => ?_) fun _ => ?_
        · exact Triple.done stable_hears fun _ _ => trivial
        · exact Triple.done stable_linked fun _ _ => trivial
      exact hpush _ hstart
    | sync params =>
      have hsync : Triple (linkEnv client i) (Hears i [] []) (SyncCall.program (.sync params))
          fun _ _ => True := by
        refine Triple.bind (triple_repositorySync params) (fun _ => ?_) fun _ => ?_
        · exact Triple.done stable_linked fun _ _ => trivial
        · exact Triple.done stable_linked fun _ _ => trivial
      exact hsync _ hstart

/-- What holds of a configuration that accountable steps reach. -/
abbrev LinkSafe (client : ClientId) (c : LinkedConfig) : Prop :=
  AllSafe (fun i _ => linkEnv client i) Truthful (fun i s => s.toldTo i = [])
    (fun _ _ _ _ => True) c

/-- A step keeps what is recorded as synced. -/
theorem LinkSafe.synced (h : LinkSafe client c) {l : Label ℕ Delivery SyncCall}
    (hl : Accountable client c l) (hn : c.next (linked client) SyncCall.program l = some c')
    {record : RevisionRecord} (hrecord : record ∈ c.shared.db.revisions)
    (hsynced : record.syncStatus = .synced) :
    ∃ record' ∈ c'.shared.db.revisions, record'.id = record.id ∧
      record'.syncStatus = .synced := by
  rcases Config.next_cases hn with ⟨i, req, rfl, -, hshared, -⟩ |
    ⟨i, ch, req, op, next, r, rfl, hi, hx, -⟩
  · rw [hshared]
    exact ⟨record, hrecord, rfl, hsynced⟩
  · have hexec := compatible_linked.exec c i ch req op next r _ hl hi hx
    have hstep := (h.safe i req _ hi _ ((linkEnv client i).rely_refl _) r _ hexec).1 h.inv
    exact hstep.synced record hrecord hsynced

/-- **A push is safe to retry**, in every run of pushes and syncs whose steps are
accountable: no revision that the server has stored is recorded as an error, and one that is
recorded as synced stays so. -/
theorem push_retry (hs : Truthful (.start db server))
    (hc : Reachable (linked client) SyncCall.program (Accountable client) (.start db server) c) :
    (∀ record ∈ c.shared.db.revisions, ∀ reason, record.syncStatus = .syncError reason →
      ¬ c.shared.server.tables.Stored record.id) ∧
    ∀ c', ReflTransGen (fun c c' => ∃ l, Accountable client c l ∧
        c.next (linked client) SyncCall.program l = some c') c c' →
      ∀ record ∈ c.shared.db.revisions, record.syncStatus = .synced →
        ∃ record' ∈ c'.shared.db.revisions, record'.id = record.id ∧
          record'.syncStatus = .synced := by
  have hsafe : LinkSafe client c := hc.safe compatible_linked hs fun _ => rfl
  refine ⟨fun record hrecord reason => (hsafe.inv.records record hrecord).2 reason, ?_⟩
  intro c' hrun record hrecord hsynced
  -- the steps from `c` on, one after the other
  have hboth : LinkSafe client c' ∧ ∃ record' ∈ c'.shared.db.revisions, record'.id = record.id ∧
      record'.syncStatus = .synced := by
    induction hrun with
    | refl => exact ⟨hsafe, record, hrecord, rfl, hsynced⟩
    | tail _ hstep ih =>
      obtain ⟨l, hl, hn⟩ := hstep
      obtain ⟨hsafe', record', hrecord', hid, hsynced'⟩ := ih
      obtain ⟨last, hlast, hid', hdone⟩ := hsafe'.synced hl hn hrecord' hsynced'
      exact ⟨hsafe'.next compatible_linked hl hn, last, hlast, hid'.trans hid, hdone⟩
  exact hboth.2

end Run

/-! ### One pending revision

A push of the revision 1 is lost on its way, and another push takes its place. -/

/-- The stores with the revision 1, which is pending. -/
def onePending : ClientDb := (ClientDb.opened ⟨⟨7⟩⟩ ⟨⟨1⟩⟩).written (Run.raceRevision 1 .root)

/-- The stores, and a server that has stored nothing. -/
def unpushed : Linked := .start onePending ⟨{}, 1, none⟩

/-- The request is lost, and is sent again. -/
def resentLabels : List (Label ℕ Delivery SyncCall) :=
  [.start 0 .push, .step 0 .arrives, .step 0 (.requestLost "offline"), .start 1 .push,
    .step 1 .arrives, .step 1 .arrives, .step 1 .arrives]

/-- The response is lost, and the request is sent again. -/
def retriedLabels : List (Label ℕ Delivery SyncCall) :=
  [.start 0 .push, .step 0 .arrives, .step 0 (.responseLost "offline"), .start 1 .push,
    .step 1 .arrives, .step 1 .arrives, .step 1 .arrives]

/-- Two pushes send the revision, and the first records that it is stored. -/
def crossedLabels : List (Label ℕ Delivery SyncCall) :=
  [.start 0 .push, .start 1 .push, .step 0 .arrives, .step 1 .arrives, .step 0 .arrives,
    .step 1 .arrives, .step 0 .arrives]

/-- The records, by their revision and its status. -/
def LinkedConfig.statuses (c : LinkedConfig) : List (RevisionId × SyncStatus) :=
  c.shared.db.revisions.records.map fun record => (record.id, record.syncStatus)

/-- Nothing has been stored or rejected before a request is delivered. -/
def firstTime (c : LinkedConfig) : Label ℕ Delivery SyncCall → Bool
  | .start .. => true
  | .step i _ =>
      match c.pending i with
      | some (.postChanges _) => c.shared.server.tables.revisions.isEmpty &&
          c.shared.told.isEmpty && c.statuses.all fun x => decide (x.2 = .pending)
      | _ => true

theorem firstTime_sound {c : LinkedConfig} {l : Label ℕ Delivery SyncCall}
    (h : firstTime c l = true) : Accountable ⟨⟨7⟩⟩ c l := by
  cases l with
  | start i req => trivial
  | step i ch =>
    intro revisions hpending _
    simp only [firstTime, hpending, Bool.and_eq_true, List.isEmpty_iff] at h
    obtain ⟨⟨hrevisions, htold⟩, hall⟩ := h
    refine ⟨fun _ rev _ ⟨row, hrow, _⟩ => ?_,
      fun _ rev _ => ⟨fun record hrecord _ reason => ?_, ?_⟩⟩
    · rw [hrevisions] at hrow
      cases hrow
    · have hstatus : record.syncStatus = .pending :=
        of_decide_eq_true (List.all_eq_true.mp hall _ (List.mem_map_of_mem hrecord))
      rw [hstatus]
      nofun
    · rw [htold]
      exact nofun

theorem truthful_unpushed : Truthful unpushed := by
  refine ⟨.empty, fun record hrecord => ?_⟩
  have hpending : ∀ record ∈ unpushed.db.revisions.records, record.syncStatus = .pending := by
    decide +kernel
  unfold Linked.Right
  rw [hpending record hrecord]
  exact ⟨nofun, nofun⟩

/-- A push that has been lost is sent again, and its revision stays synced. -/
theorem push_retry_resent : ∃ c : LinkedConfig, c.statuses = [(⟨⟨1⟩⟩, .synced)] ∧
    c.shared.server.tables.Stored ⟨⟨1⟩⟩ ∧
    ∀ c', ReflTransGen (fun c c' => ∃ l, Accountable ⟨⟨7⟩⟩ c l ∧
        c.next (linked ⟨⟨7⟩⟩) SyncCall.program l = some c') c c' →
      ∃ record ∈ c'.shared.db.revisions, record.id = ⟨⟨1⟩⟩ ∧ record.syncStatus = .synced := by
  have hrun : ((Config.init unpushed).runChecked (linked ⟨⟨7⟩⟩) SyncCall.program firstTime
      resentLabels).map (fun c => decide (LinkedConfig.statuses c = [(⟨⟨1⟩⟩, .synced)] ∧
        c.shared.server.tables.Stored ⟨⟨1⟩⟩)) = some true := by decide +kernel
  obtain ⟨c, hc, hfacts⟩ := Option.map_eq_some_iff.mp hrun
  obtain ⟨hstatuses, hstored⟩ := of_decide_eq_true hfacts
  have hreach : Reachable (linked ⟨⟨7⟩⟩) SyncCall.program (Accountable ⟨⟨7⟩⟩)
      (.start onePending ⟨{}, 1, none⟩) c :=
    Reachable.runChecked (fun _ _ => firstTime_sound) .init hc
  have hone : (⟨⟨1⟩⟩, .synced) ∈ c.statuses := by
    rw [hstatuses]
    exact List.mem_singleton_self _
  obtain ⟨record, hrecord, heq⟩ := List.mem_map.mp hone
  obtain ⟨hid, hsynced⟩ := Prod.mk.inj heq
  refine ⟨c, hstatuses, hstored, fun c' hsteps => ?_⟩
  rw [← hid]
  exact (push_retry truthful_unpushed hreach).2 c' hsteps record hrecord hsynced

/-- **A retry that does harm**: after a response has been lost, the stored revision is
recorded as an error; and of two pushes at the same time, one records the revision as an error
that the other has recorded as synced. -/
theorem retry_rejected : Truthful unpushed ∧
    (∃ c, Reachable (linked ⟨⟨7⟩⟩) SyncCall.program (fun _ _ => True) unpushed c ∧
      c.shared.server.tables.Stored ⟨⟨1⟩⟩ ∧
      LinkedConfig.statuses c = [(⟨⟨1⟩⟩, .syncError .duplicateRevisionId)]) ∧
    ∃ c c', Reachable (linked ⟨⟨7⟩⟩) SyncCall.program (fun _ _ => True) unpushed c ∧
      LinkedConfig.statuses c = [(⟨⟨1⟩⟩, .synced)] ∧
      c.next (linked ⟨⟨7⟩⟩) SyncCall.program (.step 1 .arrives) = some c' ∧
      LinkedConfig.statuses c' = [(⟨⟨1⟩⟩, .syncError .duplicateRevisionId)] := by
  refine ⟨truthful_unpushed, ?_, ?_⟩
  · have hrun : ((Config.init unpushed).runLabels (linked ⟨⟨7⟩⟩) SyncCall.program
        retriedLabels).map (fun c => decide (c.shared.server.tables.Stored ⟨⟨1⟩⟩ ∧
          LinkedConfig.statuses c = [(⟨⟨1⟩⟩, .syncError .duplicateRevisionId)])) = some true := by
      decide +kernel
    obtain ⟨c, hc, hfacts⟩ := Option.map_eq_some_iff.mp hrun
    exact ⟨c, Reachable.runLabels .init (fun _ _ _ => trivial) hc, of_decide_eq_true hfacts⟩
  · have hrun : ((Config.init unpushed).runLabels (linked ⟨⟨7⟩⟩) SyncCall.program
        crossedLabels).map (fun c => (LinkedConfig.statuses c,
          (c.next (linked ⟨⟨7⟩⟩) SyncCall.program (.step 1 .arrives)).map LinkedConfig.statuses)) =
        some ([(⟨⟨1⟩⟩, .synced)], some [(⟨⟨1⟩⟩, .syncError .duplicateRevisionId)]) := by
      decide +kernel
    obtain ⟨c, hc, hfacts⟩ := Option.map_eq_some_iff.mp hrun
    obtain ⟨hsynced, hlast⟩ := Prod.mk.inj hfacts
    obtain ⟨c', hnext, herror⟩ := Option.map_eq_some_iff.mp hlast
    exact ⟨c, c', Reachable.runLabels .init (fun _ _ _ => trivial) hc, hsynced, hnext, herror⟩

end Rustend
