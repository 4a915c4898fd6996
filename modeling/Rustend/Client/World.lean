import Rustend.Client.Alone
import Rustend.Server.Alone
import Rustend.Server.Changes

/-!
# Clients and their server

The server behind its HTTP interface, as a client sees it: a request is authenticated,
which registers the client, and then served.  A request is served while no other is.

## Main definitions

* `authenticated`, `respond`, `httpServer` — the server over HTTP.
* `PushDone`, `PullDone` — what the two halves of a sync leave.
* `Relays` — the server behind a network that may lose messages.

## Main results

* `ConnInv.changes` — a push request, served.
* `ConnInv.pushPending_ok`, `ConnInv.pullUpdates_ok`, `ConnInv.sync_ok` — **what a
  completed sync has done.**
* `Relays.sync` — what a sync leaves, however it ends.
-/

namespace Rustend

open Interleave

/-! ### HTTP -/

/-- The authentication layer registers the client before the handler runs. -/
def authenticated {α : Type} (client : ClientId) (handler : Sql α) : Sql α := do
  upsertClient client
  handler

/-- The response to a request: an error is its status, with a body of another shape. -/
def respond {α : Type} : Except ServerError α → HttpResponse α
  | .ok a => ⟨200, .ok a⟩
  | .error e => ⟨e.status, .error "missing field"⟩

/-- The server, to requests authenticated as `client`. -/
def httpServer (client : ClientId) : Net Conn where
  changes req c :=
    let x := (authenticated client (pushRevisions client req.revisions)).run Stmt.eval c
    (.ok (respond x.1), x.2)
  changesQuery req c :=
    let x := (authenticated client (pullChanges client req)).run Stmt.eval c
    (.ok (respond x.1), x.2)

/-- A client gets nothing out of the response to an error. -/
theorem parsed_status {α : Type} {e : ServerError} {body : Except String α} :
    parsed (.ok ⟨e.status, body⟩) = none := by
  have hrange := e.status_range
  refine if_neg ?_
  have hbig : decide (e.status ≤ 299) = false := decide_eq_false (by omega)
  rw [HttpResponse.ok, hbig, Bool.and_false]
  exact Bool.false_ne_true

/-- A client gets the result out of a response, unless it is an error. -/
theorem parsed_respond {α : Type} (r : Except ServerError α) :
    parsed (.ok (respond r)) = r.toOption := by
  cases r with
  | ok a => rfl
  | error e => exact parsed_status

theorem run_authenticated {α : Type} (client : ClientId) (handler : Sql α) (c : Conn) :
    ∃ clients, client ∈ clients ∧ (authenticated client handler).run Stmt.eval c =
      handler.run Stmt.eval (c.withClients clients) := by
  obtain ⟨clients, hrun, hmem⟩ := run_upsertClient client c
  exact ⟨clients, hmem, Program.run_bind_ok _ _ hrun⟩

/-! ### The requests of a sync -/

section Requests

variable {c : Conn} {client : ClientId}

/-- **A push request, served**: what it accepted is committed, or it is refused, because
a statement had to fail, and nothing is. -/
theorem ConnInv.changes (h : ConnInv c) (client : ClientId) (revisions : List Revision) : ∃ x c',
    (httpServer client).changes ⟨revisions⟩ c = (x, c') ∧ ConnInv c' ∧
      ((∃ resp batch, parsed x = some resp ∧
          (resp.accepted ++ resp.rejected.map (·.revisionId)).Perm (revisions.map (·.id)) ∧
          batch.Sublist revisions ∧ resp.accepted = batch.map (·.id) ∧
          Commits c.tables c'.tables client c.nextval batch) ∨
        parsed x = none ∧ ∃ clients, client ∈ clients ∧
          c'.tables = { c.tables with clients := clients } ∧
          ¬ Smooth { c.tables with clients := clients } client c.nextval revisions) := by
  obtain ⟨clients, hmem, hrun⟩ :=
    run_authenticated client (Rustend.pushRevisions client revisions) c
  have hpush := ConnInv.pushRevisions (c := c.withClients clients) (h.withClients clients) client
    revisions
  refine ⟨_, _, rfl, ?_⟩
  simp only [hrun, parsed_respond]
  generalize (Rustend.pushRevisions client revisions).run Stmt.eval (c.withClients clients) = y
    at hpush ⊢
  obtain ⟨r, c'⟩ := y
  obtain ⟨hconn, hpost⟩ := hpush
  refine ⟨hconn, ?_⟩
  cases r with
  | error e => exact .inr ⟨rfl, clients, hmem, hpost⟩
  | ok resp =>
    obtain ⟨hperm, batch, hsub, hpushed⟩ := hpost
    exact .inl ⟨resp, batch, rfl, hperm, hsub, hpushed.accepted, .of_pushed hpushed⟩

/-- **A push request commits some of its revisions**, or none. -/
theorem ConnInv.changes_commits (h : ConnInv c) (client : ClientId) (revisions : List Revision) :
    ConnInv ((httpServer client).changes ⟨revisions⟩ c).2 ∧ ∃ batch, batch ⊆ revisions ∧
      Commits c.tables ((httpServer client).changes ⟨revisions⟩ c).2.tables client c.nextval
        batch := by
  obtain ⟨x, c', hx, hconn, hserved⟩ := h.changes client revisions
  rw [hx]
  refine ⟨hconn, ?_⟩
  rcases hserved with ⟨resp, batch, -, -, hsub, -, hcommits⟩ | ⟨-, clients, -, ht, -⟩
  · exact ⟨batch, hsub.subset, hcommits⟩
  · show ∃ batch, batch ⊆ revisions ∧ Commits c.tables c'.tables client c.nextval batch
    rw [ht]
    exact ⟨[], List.nil_subset _, .nothing c.tables clients client c.nextval⟩

/-- A pull request, served. -/
theorem ConnInv.changesQuery (h : ConnInv c) (client : ClientId) (req : PullRequest) : ∃ x clients,
    (httpServer client).changesQuery req c = (x, c.withClients clients) ∧
      ((∃ updates, parsed x = some ⟨⟨c.tables.maxTransactionId⟩, updates⟩ ∧
          (∀ s, req.since = some s → s.val ≤ i64Max) ∧
          Answers (c.withClients clients).tables client ((req.since.map (·.val)).getD 0 : ℕ)
            c.tables.maxTransactionId (Passes req.objectTypes req.createdAt req.filter) updates) ∨
        parsed x = none) := by
  obtain ⟨clients, -, hrun⟩ := run_authenticated client (Rustend.pullChanges client req) c
  have hconn : ConnInv (c.withClients clients) := h.withClients clients
  by_cases hfits : ∀ s, req.since = some s → s.val ≤ i64Max
  · obtain ⟨updates, hpull, hans⟩ := hconn.pullChanges client req hfits
    refine ⟨.ok (respond (.ok ⟨⟨c.tables.maxTransactionId⟩, updates⟩)), clients, ?_,
      .inl ⟨updates, rfl, hfits, hans⟩⟩
    simp only [httpServer, hrun, hpull]
    rfl
  · push Not at hfits
    obtain ⟨s, hs, hbig⟩ := hfits
    have hrefused := pullChanges_refused (c := c.withClients clients) client req hs
      (Nat.not_le.mpr hbig)
    refine ⟨.ok (respond (.error (.malformedData "since transaction ID out of range"))), clients,
      ?_, .inr (parsed_respond _)⟩
    simp only [httpServer, hrun, hrefused]

end Requests

/-! ### The halves of a sync -/

/-- A push has been answered and recorded: `batch` is what the server accepted of the
pending revisions. -/
structure PushDone (client : ClientId) (db : ClientDb) (c : Conn) (resp : PushResponse)
    (batch : List Revision) (db' : ClientDb) (c' : Conn) : Prop where
  conn : ConnInv c'
  stores : db' = db.marked resp.marks
  reported : (resp.accepted ++ resp.rejected.map (·.revisionId)).Perm
    ((db.pending.map (·.revision)).map (·.id))
  sublist : batch.Sublist (db.pending.map (·.revision))
  accepted : resp.accepted = batch.map (·.id)
  commits : Commits c.tables c'.tables client c.nextval batch

/-- A pull has been answered with `updates` and applied. -/
structure PullDone (client : ClientId) (params : PullRequest) (db : ClientDb) (c : Conn)
    (updates : List ObjectUpdate) (db' : ClientDb) (c' : Conn) : Prop where
  conn : ConnInv c'
  tables : ∃ clients, c' = c.withClients clients
  fits : ∀ s, params.since = some s → s.val ≤ i64Max
  answers : Answers c'.tables client ((params.since.map (·.val)).getD 0 : ℕ)
    c'.tables.maxTransactionId (Passes params.objectTypes params.createdAt params.filter) updates
  stores : db' = (db.pulled updates).advanced ⟨c'.tables.maxTransactionId⟩

/-- The stores of a repository that has just been opened for the first time. -/
def ClientDb.opened (client : ClientId) (user : UserId) : ClientDb :=
  ⟨.empty, .empty, some ⟨some client, some user, none⟩⟩

/-- The stored cursor. -/
def ClientDb.lastTxn (db : ClientDb) : Option TransactionId :=
  db.syncState.bind (·.lastServerTxnId)

section Sync

variable {c c' : Conn} {client : ClientId} {db db' : ClientDb}

theorem ConnInv.pushPending_ok (h : ConnInv c) {pushed : ℕ} {rejected : List RejectedRevision}
    (hrun : pushPending.run (answer (httpServer client)) (db, c) =
      (.ok (pushed, rejected), (db', c'))) :
    ∃ resp batch, PushDone client db c resp batch db' c' ∧ resp.rejected = rejected ∧
      pushed = resp.accepted.length := by
  rcases run_pushPending (httpServer client) db c with
    ⟨hemp, hrun'⟩ | ⟨-, hpush⟩
  · -- nothing was pending, and nothing was sent
    rw [hrun] at hrun'
    simp only [Prod.mk.injEq, Except.ok.injEq] at hrun'
    obtain ⟨⟨rfl, rfl⟩, rfl, rfl⟩ := hrun'
    refine ⟨⟨⟨0⟩, [], []⟩, [], ⟨h, rfl, ?_, List.nil_sublist _, rfl, ?_⟩, rfl, rfl⟩
    · rw [hemp]
      exact .refl _
    · exact .nothing c'.tables c'.tables.clients client c'.nextval
  · obtain ⟨x, c₁, hx, hconn, hserved⟩ := h.changes client (db.pending.map (·.revision))
    rcases hpush x c₁ hx with ⟨-, e, herr⟩ | ⟨resp, hresp, hok⟩
    · rw [hrun] at herr
      cases herr
    · rw [hrun] at hok
      simp only [Prod.mk.injEq, Except.ok.injEq] at hok
      obtain ⟨⟨rfl, rfl⟩, rfl, rfl⟩ := hok
      rcases hserved with ⟨resp', batch, hresp', hperm, hsub, hacc, hcommits⟩ | ⟨hnone, -⟩
      · rw [hresp] at hresp'
        cases hresp'
        exact ⟨resp, batch, ⟨hconn, rfl, hperm, hsub, hacc, hcommits⟩, rfl, rfl⟩
      · rw [hresp] at hnone
        cases hnone

theorem ConnInv.pullUpdates_ok (h : ConnInv c) {params : PullRequest} {counts : ℕ × ℕ}
    (hrun : (pullUpdates params).run (answer (httpServer client)) (db, c) =
      (.ok counts, (db', c'))) : ∃ updates, PullDone client params db c updates db' c' := by
  obtain ⟨x, clients, hx, hserved⟩ := h.changesQuery client params
  rcases run_pullUpdates db hx with ⟨-, e, herr⟩ | ⟨resp, counts', hresp, hok⟩
  · rw [hrun] at herr
    cases herr
  · rw [hrun] at hok
    simp only [Prod.mk.injEq, Except.ok.injEq] at hok
    obtain ⟨rfl, rfl, rfl⟩ := hok
    rcases hserved with ⟨updates, hresp', hfits, hans⟩ | hnone
    · rw [hresp] at hresp'
      cases hresp'
      exact ⟨updates, h.withClients clients, ⟨clients, rfl⟩, hfits, hans, rfl⟩
    · rw [hresp] at hnone
      cases hnone

/-- A sync of the repository pulls from the stored cursor, unless it is given one. -/
theorem run_repositorySync {σ : Type} {net : Net σ} {s : σ} (params : PullRequest) :
    (Repository.sync params).run (answer net) (db, s) =
      (Rustend.sync { params with since := params.since.or db.lastTxn }).run (answer net)
        (db, s) := by
  rw [Repository.sync]
  split
  · next hnone =>
    rw [Program.run_bind_ok _ _ (run_idb .readSyncState), hnone, Option.none_or]
    rcases hstate : db.syncState with _ | record <;>
      simp only [IdbOp.eval, ClientDb.lastTxn, hstate, Option.bind_none, Option.bind_some]
  · next s hsome => rw [hsome, Option.some_or, ← hsome]

/-- **What a completed sync has done**: it pushed what was pending, then it pulled from
its cursor. -/
theorem ConnInv.sync_ok (h : ConnInv c) {params : PullRequest} {result : SyncResult}
    (hrun : (Repository.sync params).run (answer (httpServer client)) (db, c) =
      (.ok result, (db', c'))) :
    ∃ resp batch db₁ c₁ updates,
      (pushPending.run (answer (httpServer client)) (db, c)).2 = (db₁, c₁) ∧
      PushDone client db c resp batch db₁ c₁ ∧ resp.rejected = result.rejected ∧
      PullDone client { params with since := params.since.or db.lastTxn } db₁ c₁ updates db'
        c' := by
  rw [run_repositorySync] at hrun
  obtain ⟨pushed, db₁, c₁, counts, hpush, hpull⟩ := run_sync_ok hrun
  obtain ⟨resp, batch, hdone, hrej, -⟩ := h.pushPending_ok hpush
  obtain ⟨updates, hpulled⟩ := hdone.conn.pullUpdates_ok hpull
  exact ⟨resp, batch, db₁, c₁, updates, by rw [hpush], hdone, hrej, hpulled⟩

end Sync

/-! ### A network that loses messages -/

/-- A connection to the server on which a request, or its response, may get lost. -/
structure Relays (client : ClientId) (net : Net Conn) : Prop where
  changes : ∀ req c, net.changes req c = (httpServer client).changes req c ∨
    ∃ e, net.changes req c = (.error e, c) ∨
      net.changes req c = (.error e, ((httpServer client).changes req c).2)
  changesQuery : ∀ req c, net.changesQuery req c = (httpServer client).changesQuery req c ∨
    ∃ e, net.changesQuery req c = (.error e, c) ∨
      net.changesQuery req c = (.error e, ((httpServer client).changesQuery req c).2)

theorem Relays.httpServer (client : ClientId) : Relays client (httpServer client) :=
  ⟨fun _ _ => .inl rfl, fun _ _ => .inl rfl⟩

section Relays

variable {client : ClientId} {net : Net Conn} {db : ClientDb} {c : Conn}

/-- **What a push leaves that may have failed**: the server has committed some of the
pending revisions, and its response has been recorded, or was lost. -/
theorem Relays.pushPending (hnet : Relays client net) (h : ConnInv c) (db : ClientDb) :
    ∃ r db' c' batch, Rustend.pushPending.run (answer net) (db, c) = (r, (db', c')) ∧ ConnInv c' ∧
      Commits c.tables c'.tables client c.nextval batch ∧ batch ⊆ db.pending.map (·.revision) ∧
      (db' = db ∨ ∃ resp : PushResponse, db' = db.marked resp.marks) := by
  have hidle : ∀ c : Conn, Commits c.tables c.tables client c.nextval [] := fun c =>
    .nothing c.tables c.tables.clients client c.nextval
  rcases run_pushPending net db c with ⟨-, hrun⟩ | ⟨-, hpush⟩
  · exact ⟨_, db, c, [], hrun, h, hidle c, List.nil_subset _, .inl rfl⟩
  -- whether or not its response comes through, the request is served
  obtain ⟨hconn, batch, hsub, hcommits⟩ := h.changes_commits client (db.pending.map (·.revision))
  rcases hx : (Rustend.httpServer client).changes ⟨db.pending.map (·.revision)⟩ c with ⟨x, c₁⟩
  rw [hx] at hconn hcommits
  rcases hnet.changes ⟨db.pending.map (·.revision)⟩ c with hy | ⟨e, hy | hy⟩
  · rw [hx] at hy
    rcases hpush x c₁ hy with ⟨-, e, hrun⟩ | ⟨resp, -, hrun⟩
    · exact ⟨_, db, c₁, batch, hrun, hconn, hcommits, hsub, .inl rfl⟩
    · exact ⟨_, _, c₁, batch, hrun, hconn, hcommits, hsub, .inr ⟨resp, rfl⟩⟩
  · rcases hpush _ c hy with ⟨-, e, hrun⟩ | ⟨resp, hresp, -⟩
    · exact ⟨_, db, c, [], hrun, h, hidle c, List.nil_subset _, .inl rfl⟩
    · cases hresp
  · rw [hx] at hy
    rcases hpush _ c₁ hy with ⟨-, e, hrun⟩ | ⟨resp, hresp, -⟩
    · exact ⟨_, db, c₁, batch, hrun, hconn, hcommits, hsub, .inl rfl⟩
    · cases hresp

/-- **What a pull leaves that may have failed**: the stores as they were, or the updates of
an answer applied. -/
theorem Relays.pullUpdates (hnet : Relays client net) (h : ConnInv c) (db : ClientDb)
    (params : PullRequest) :
    ∃ r db' clients, (Rustend.pullUpdates params).run (answer net) (db, c) =
        (r, (db', c.withClients clients)) ∧
      ((∃ e, r = .error e) ∧ db' = db ∨ (∃ counts, r = .ok counts) ∧ ∃ updates,
        db' = (db.pulled updates).advanced ⟨c.tables.maxTransactionId⟩ ∧
        Answers (c.withClients clients).tables client ((params.since.map (·.val)).getD 0 : ℕ)
          c.tables.maxTransactionId (Passes params.objectTypes params.createdAt params.filter)
          updates) := by
  obtain ⟨x, clients, hx, hserved⟩ := h.changesQuery client params
  have hlost : ∀ e : ClientError, ∀ c' : Conn, net.changesQuery params c = (.error e, c') →
      ∃ e', (Rustend.pullUpdates params).run (answer net) (db, c) = (.error e', (db, c')) := by
    intro e c' hy
    rcases run_pullUpdates db hy with ⟨-, e', hrun⟩ | ⟨resp, _, hresp, -⟩
    · exact ⟨e', hrun⟩
    · cases hresp
  rcases hnet.changesQuery params c with hy | ⟨e, hy | hy⟩
  · rw [hx] at hy
    rcases run_pullUpdates db hy with ⟨-, e, hrun⟩ | ⟨resp, counts, hresp, hrun⟩
    · exact ⟨_, db, clients, hrun, .inl ⟨⟨e, rfl⟩, rfl⟩⟩
    · rcases hserved with ⟨updates, hresp', -, hans⟩ | hnone
      · rw [hresp] at hresp'
        cases hresp'
        exact ⟨_, _, clients, hrun, .inr ⟨⟨counts, rfl⟩, updates, rfl, hans⟩⟩
      · rw [hresp] at hnone
        cases hnone
  · obtain ⟨e', hrun⟩ := hlost e c hy
    exact ⟨_, db, c.tables.clients, hrun, .inl ⟨⟨e', rfl⟩, rfl⟩⟩
  · rw [hx] at hy
    obtain ⟨e', hrun⟩ := hlost e _ hy
    exact ⟨_, db, clients, hrun, .inl ⟨⟨e', rfl⟩, rfl⟩⟩

/-- **What a sync leaves, however it ends.** -/
theorem Relays.sync (hnet : Relays client net) (h : ConnInv c) (db : ClientDb)
    (params : PullRequest) :
    ∃ r db₁ c₁ batch db' c', (Repository.sync params).run (answer net) (db, c) = (r, (db', c')) ∧
      ConnInv c₁ ∧ Commits c.tables c₁.tables client c.nextval batch ∧
      batch ⊆ db.pending.map (·.revision) ∧
      (db₁ = db ∨ ∃ resp : PushResponse, db₁ = db.marked resp.marks) ∧
      ∃ clients, c' = c₁.withClients clients ∧ ((∃ e, r = .error e) ∧ db' = db₁ ∨
        (∃ result, r = .ok result) ∧ ∃ updates,
          db' = (db₁.pulled updates).advanced ⟨c₁.tables.maxTransactionId⟩ ∧
          Answers c'.tables client (((params.since.or db.lastTxn).map (·.val)).getD 0 : ℕ)
            c₁.tables.maxTransactionId (Passes params.objectTypes params.createdAt params.filter)
            updates) := by
  obtain ⟨r, db₁, c₁, batch, hpush, hconn, hcommits, hsub, hmarked⟩ := hnet.pushPending h db
  rw [run_repositorySync, Rustend.sync]
  obtain e | ⟨pushed, rejected⟩ := r
  · -- the push has failed, and nothing is pulled
    exact ⟨_, db₁, c₁, batch, db₁, c₁, Program.run_bind_error _ _ hpush, hconn, hcommits, hsub,
      hmarked, c₁.tables.clients, rfl, .inl ⟨⟨_, rfl⟩, rfl⟩⟩
  · rw [Program.run_bind_ok _ _ hpush]
    obtain ⟨r, db', clients, hpull, hpulled⟩ := hnet.pullUpdates hconn db₁
      { params with since := params.since.or db.lastTxn }
    rcases hpulled with ⟨⟨e, rfl⟩, rfl⟩ | ⟨⟨counts, rfl⟩, updates, rfl, hans⟩
    · exact ⟨_, db', c₁, batch, db', _, Program.run_bind_error _ _ hpull, hconn, hcommits, hsub,
        hmarked, clients, rfl, .inl ⟨⟨e, rfl⟩, rfl⟩⟩
    · exact ⟨_, db₁, c₁, batch, _, _, Program.run_bind_ok _ _ hpull, hconn, hcommits, hsub,
        hmarked, clients, rfl, .inr ⟨⟨_, rfl⟩, updates, rfl, hans⟩⟩

end Relays

end Rustend
