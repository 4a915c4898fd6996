import Rustend.Server.PullSpec
import Rustend.Server.Scan

/-!
# Requests served alone

A request that is served while no other session is active runs on one connection.
What the rules for sessions say of it with `alone` true is what its run does.

## Main definitions

* `ConnInv` — a connection between two requests.
* `Db.alone` — the database of a single session.
* `ServerError.status` — the HTTP status of an error.

## Main results

* `run_of_triple` — **a triple for a session alone is about its run.**
* `ConnInv.pushRevisions`, `ConnInv.pullChanges`, `run_upsertClient` — what the requests
  of a client do.
* `ConnInv.rejects_nothing_iff` — **a push accepts its whole batch exactly when the batch
  can be written.**
* `ConnInv.serve` — any request leaves the connection in order.
-/

namespace Rustend

open Interleave

/-! ### One session -/

/-- A connection between two requests: no transaction is open. -/
structure ConnInv (c : Conn) : Prop where
  tables : WellFormed c.tables
  tx : c.tx = none
  nextval_pos : 1 ≤ c.nextval
  txn_lt : ∀ x ∈ c.tables.transactions, x.id < c.nextval

theorem ConnInv.empty : ConnInv ⟨{}, 1, none⟩ := ⟨.empty, rfl, le_rfl, by simp⟩

/-- The database of a single session, by its connection. -/
def Db.alone (c : Conn) : Db := ⟨c.tables, c.nextval, Function.update (fun _ => none) 0 c.tx, 1⟩

@[simp] theorem Db.alone_tables (c : Conn) : (Db.alone c).tables = c.tables := rfl

@[simp] theorem Db.alone_nextval (c : Conn) : (Db.alone c).nextval = c.nextval := rfl

@[simp] theorem Db.alone_opened (c : Conn) : (Db.alone c).opened 0 = c.tx := by
  simp [Db.alone]

theorem Db.alone_conn (c : Conn) : (Db.alone c).conn 0 = c := by
  rw [Db.conn, alone_opened]
  rfl

theorem Db.alone_withConn (c c' : Conn) : (Db.alone c).withConn 0 c' = Db.alone c' := by
  simp [Db.withConn, Db.alone, Function.update_idem]

theorem Db.alone_exec (c : Conn) (op : Stmt) :
    (Db.alone c).exec 0 op .proceed = some ((op.eval c).1, Db.alone (op.eval c).2) := by
  have hwaits : (Db.alone c).waits 0 op = false := by
    simp [Db.waits, Db.alone]
  rw [Db.exec, if_neg (by simp [hwaits]), alone_conn, alone_withConn]

theorem ConnInv.dbInv {c : Conn} (h : ConnInv c) : DbInv (Db.alone c) := by
  have hnone : ∀ i, (Db.alone c).opened i = none := by
    intro i
    simp only [Db.alone, h.tx, Function.update_apply]
    split <;> rfl
  exact
    { tables := h.tables
      nextval_pos := h.nextval_pos
      txn_lt := h.txn_lt
      opened_lt := fun i hi => absurd (hnone i) hi
      holds_fresh := fun i r ⟨w, hw, _⟩ => nomatch (hnone i).symm.trans hw
      holds_unique := fun i j r ⟨w, hw, _⟩ => nomatch (hnone i).symm.trans hw
      draws_lt := fun i n ⟨w, hw, _⟩ => nomatch (hnone i).symm.trans hw
      draws_fresh := fun i n ⟨w, hw, _⟩ => nomatch (hnone i).symm.trans hw
      draws_unique := fun i j n ⟨w, hw, _⟩ => nomatch (hnone i).symm.trans hw }

theorem ConnInv.of_dbInv {c : Conn} (h : DbInv (Db.alone c)) (ho : (Db.alone c).opened 0 = none) :
    ConnInv c := ⟨h.tables, (Db.alone_opened c).symm.trans ho, h.nextval_pos, h.txn_lt⟩

theorem ConnInv.at {c : Conn} (h : ConnInv c) :
    At True c.tables c.nextval 0 none (fun _ => True) (Db.alone c) :=
  ⟨h.dbInv, (Db.alone_opened c).trans h.tx, trivial, fun _ => ⟨rfl, rfl⟩⟩

/-- The surroundings of a connection with nobody else around. -/
def aloneEnv : Env sql ServerError Conn where
  exec op c r c' := (r, c') = op.eval c
  rely c c' := c' = c
  guar _ _ := True
  rely_refl _ := rfl
  rely_trans _ _ _ h h' := h'.trans h

/-- **A triple for a session is about its run**, alone or not. -/
theorem run_of_triple {alone : Prop} {α : Type} {effect : Tables → Tables → Prop} {P : Db → Prop}
    {post : Except ServerError α → Db → Prop} {p : Sql α}
    (h : Triple (sessionEnv alone 0 effect) P p post) {c : Conn} (hP : P (Db.alone c)) :
    post (p.run Stmt.eval c).1 (Db.alone (p.run Stmt.eval c).2) := by
  have hlift : Safe aloneEnv (fun r c => post r (Db.alone c)) p c := by
    refine Safe.lift Db.alone ?_ ?_ (fun _ _ _ _ _ _ => trivial) (h (Db.alone c) hP)
    · intro op c r c' hx
      refine ⟨.proceed, fun _ => rfl, ?_⟩
      rw [Db.alone_exec, ← hx]
    · rintro c _ rfl
      exact (sessionEnv alone 0 effect).rely_refl _
  exact hlift.run fun op c => rfl

/-- The next transaction id is beyond those that are there. -/
theorem ConnInv.maxTransactionId_lt {c : Conn} (h : ConnInv c) :
    c.tables.maxTransactionId < c.nextval := by
  have hle : c.tables.maxTransactionId ≤ c.nextval - 1 := by
    rw [Tables.maxTransactionId_le_iff]
    intro x hx
    have := h.txn_lt x hx
    omega
  have := h.nextval_pos
  omega

/-! ### Registering a client -/

/-- The connection, with other clients registered. -/
def Conn.withClients (c : Conn) (clients : List ClientId) : Conn :=
  { c with tables := { c.tables with clients := clients } }

theorem run_upsertClient (client : ClientId) (c : Conn) :
    ∃ clients, (upsertClient client).run Stmt.eval c = (.ok (), c.withClients clients) ∧
      client ∈ clients := by
  rw [upsertClient, Program.run_perform, Stmt.eval]
  split
  · next h => exact ⟨c.tables.clients, rfl, h⟩
  · exact ⟨c.tables.clients ++ [client], rfl, by simp⟩

theorem ConnInv.withClients {c : Conn} (h : ConnInv c) (clients : List ClientId) :
    ConnInv (c.withClients clients) :=
  ⟨h.tables.withClients clients, h.tx, h.nextval_pos, h.txn_lt⟩

/-! ### Pushing -/

/-- **A push served alone**: it commits what it accepted as one transaction, or it fails
and leaves the tables as they were, because a statement had to fail. -/
theorem ConnInv.pushRevisions {c : Conn} (h : ConnInv c) (client : ClientId)
    (revisions : List Revision) :
    ConnInv ((pushRevisions client revisions).run Stmt.eval c).2 ∧
      match ((Rustend.pushRevisions client revisions).run Stmt.eval c).1 with
      | .ok resp =>
          (resp.accepted ++ resp.rejected.map (·.revisionId)).Perm (revisions.map (·.id)) ∧
          ∃ batch, batch.Sublist revisions ∧ Pushed c.tables
            ((Rustend.pushRevisions client revisions).run Stmt.eval c).2.tables client c.nextval
            batch resp
      | .error _ =>
          ((Rustend.pushRevisions client revisions).run Stmt.eval c).2.tables = c.tables ∧
            ¬ Smooth c.tables client c.nextval revisions := by
  have hpost := run_of_triple (triple_pushRevisions client revisions) h.at
  generalize (Rustend.pushRevisions client revisions).run Stmt.eval c = x at hpost ⊢
  obtain ⟨r, c'⟩ := x
  cases r with
  | error e =>
    obtain ⟨⟨hinv, ho⟩, hfail⟩ := hpost
    exact ⟨.of_dbInv hinv ho, hfail trivial⟩
  | ok resp =>
    obtain ⟨⟨hinv, ho⟩, hperm, t, t', n, batch, hsub, -, hpushed, -, halone⟩ := hpost
    obtain ⟨rfl, rfl, rfl⟩ := halone trivial
    exact ⟨.of_dbInv hinv ho, hperm, batch, hsub, hpushed⟩

/-! ### Pushing a batch of which nothing is rejected -/

section Accepting

variable {c : Conn} {client : ClientId}

/-- Nothing of an admissible batch is rejected. -/
theorem check_of_accepts (h : WellFormed c.tables) {batch : List Revision}
    (ha : Accepts c.tables client batch) (hfresh : ∀ rev ∈ batch, ¬ c.tables.Stored rev.id)
    (hids : (batch.map (·.id)).Nodup) :
    Agrees c.tables (batch.foldl (PushState.check c.tables client) {}) (batch, []) := by
  have hsieve := sieve_of_accepts ha hfresh
  rcases check_sieve h client batch (Agrees.nil c.tables) with hagrees | ⟨-, hdup⟩
  · rwa [← sieve, hsieve] at hagrees
  · rw [← sieve, hsieve] at hdup
    exact absurd hids hdup

/-- A push rejects what its checks have rejected. -/
theorem pushRevisions_rejected {revisions : List Revision} {st : PushState} {resp : PushResponse}
    {c' : Conn} (hv : (validate client {} revisions).run Stmt.eval c = (.ok st, c))
    (hrun : (pushRevisions client revisions).run Stmt.eval c = (.ok resp, c')) :
    resp.rejected = st.rejected := by
  rw [pushRevisions, Program.run_bind_ok _ _ hv] at hrun
  dsimp only at hrun
  split at hrun
  · cases hrun
    rfl
  · obtain ⟨_, _, -, hrun⟩ := Program.bind_run_ok _ hrun
    cases hrun
    rfl

end Accepting

/-- **A push accepts its whole batch exactly when the batch can be written**: as one
transaction, in the order in which it was sent. -/
theorem ConnInv.rejects_nothing_iff {c : Conn} (h : ConnInv c) {client : ClientId}
    (hreg : client ∈ c.tables.clients) {revisions : List Revision} (hne : revisions ≠ []) :
    (∃ resp c', (Rustend.pushRevisions client revisions).run Stmt.eval c = (.ok resp, c') ∧
        resp.rejected = []) ↔ Writable c.tables client c.nextval revisions := by
  have hpush := h.pushRevisions client revisions
  constructor
  · rintro ⟨resp, c', hrun, hrej⟩
    rw [hrun] at hpush
    obtain ⟨-, hperm, batch, hsub, hpushed⟩ := hpush
    rw [hrej, List.map_nil, List.append_nil, hpushed.accepted] at hperm
    have hlen : batch.length = revisions.length := by simpa using hperm.length_eq
    obtain rfl : batch = revisions := hsub.eq_of_length hlen
    rcases hpushed.commits with ⟨hemp, -⟩ | ⟨hv, -⟩
    · exact absurd hemp hne
    · exact ⟨hv.ids, hv.fresh, hv.accepts, hv.storable, hreg, hv.txn_range.2⟩
  · intro hw
    have hagrees := check_of_accepts h.tables hw.accepts hw.fresh hw.ids
    rcases hrun : (Rustend.pushRevisions client revisions).run Stmt.eval c with ⟨e | resp, c'⟩
    · rw [hrun] at hpush
      exact absurd ⟨hw.ids, hw.storable, hw.registered, hw.nextval⟩ hpush.2.2
    · refine ⟨resp, c', hrun, ?_⟩
      refine (pushRevisions_rejected (run_validate client c revisions {}) hrun).trans ?_
      exact List.map_eq_nil_iff.mp hagrees.rejected

/-! ### Pulling -/

/-- **A pull served alone**: a cursor that fits is answered up to the latest
transaction. -/
theorem ConnInv.pullChanges {c : Conn} (h : ConnInv c) (client : ClientId) (req : PullRequest)
    (hsince : ∀ s, req.since = some s → s.val ≤ i64Max) : ∃ updates,
    (Rustend.pullChanges client req).run Stmt.eval c =
      (.ok ⟨⟨c.tables.maxTransactionId⟩, updates⟩, c) ∧
    Answers c.tables client ((req.since.map (·.val)).getD 0 : ℕ) c.tables.maxTransactionId
      (Passes req.objectTypes req.createdAt req.filter) updates := by
  have hup : (⟨c.tables.maxTransactionId⟩ : TransactionId).val ≤ i64Max :=
    h.tables.maxTransactionId_le
  obtain ⟨updates, hrun, ha⟩ := fetchObjectUpdates_answers (c := c) h.tables client req.since hup
    req.objectTypes req.createdAt req.filter
  rw [asI64_cursor hsince] at ha
  refine ⟨updates, ?_, ha⟩
  have hfits : (req.since.map fun since => decide (i64Max < since.val)).getD false = false := by
    cases hs : req.since with
    | none => rfl
    | some s => exact decide_eq_false (Nat.not_lt.mpr (hsince s hs))
  have hlatest : latestTransactionId.run Stmt.eval c = (.ok ⟨c.tables.maxTransactionId⟩, c) := rfl
  rw [Rustend.pullChanges, if_neg (by simp [hfits]), Program.run_bind_ok _ _ hlatest,
    Program.run_bind_ok _ _ hrun]
  rfl

/-- A cursor that does not fit is refused. -/
theorem pullChanges_refused {c : Conn} (client : ClientId) (req : PullRequest) {s : TransactionId}
    (hs : req.since = some s) (hbig : ¬ s.val ≤ i64Max) :
    (Rustend.pullChanges client req).run Stmt.eval c =
      (.error (.malformedData "since transaction ID out of range"), c) := by
  have hrefused : (req.since.map fun since => decide (i64Max < since.val)).getD false = true := by
    rw [hs]
    exact decide_eq_true (Nat.lt_of_not_le hbig)
  rw [Rustend.pullChanges, if_pos hrefused]
  rfl

/-! ### Any request -/

/-- **Any request leaves the connection in order.** -/
theorem ConnInv.serve {c : Conn} (h : ConnInv c) (req : ServerRequest) :
    ConnInv ((Rustend.serve req).run Stmt.eval c).2 := by
  have hpost := run_of_triple (keepsIdle_serve (i := 0) req) (c := c)
    ⟨h.dbInv, (Db.alone_opened c).trans h.tx⟩
  generalize (Rustend.serve req).run Stmt.eval c = x at hpost ⊢
  obtain ⟨r, c'⟩ := x
  cases r with
  | error e => exact .of_dbInv hpost.1 hpost.2
  | ok reply => exact .of_dbInv hpost.1 hpost.2

/-! ### HTTP -/

/-- The status of an error response. -/
def ServerError.status : ServerError → ℕ
  | .database _ => 500
  | .duplicateRevision => 409
  | .unknownParent _ => 422
  | .malformedData _ => 400
  | .notFound => 404

theorem ServerError.status_range (e : ServerError) : 300 ≤ e.status ∧ e.status ≤ 599 := by
  cases e <;> simp [status]

end Rustend
