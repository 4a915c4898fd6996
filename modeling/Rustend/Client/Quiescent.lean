import Rustend.Client.Updates
import Rustend.Client.Concurrent

/-!
# Nothing is left to sync

A sync that completes leaves nothing pending and the cursor at the latest transaction.  So the
next one, with whatever filters, sends nothing, receives nothing and changes nothing.

## Main results

* `ConnInv.changesQuery_registers` — a pull request leaves its client registered.
* `run_pullUpdates_nil` — a pull that is answered without updates.
* `ConnInv.sync_quiescent` — **a second sync is idle.**
-/

namespace Rustend

open Interleave

section Quiescent

variable {client : ClientId} {db db' : ClientDb} {c c' : Conn} {params params' : PullRequest}

/-! ### Registered clients -/

/-- A registered client is not registered again. -/
theorem run_authenticated_registered {α : Type} (handler : Sql α)
    (h : client ∈ c.tables.clients) :
    (authenticated client handler).run Stmt.eval c = handler.run Stmt.eval c := by
  have hupsert : (upsertClient client).run Stmt.eval c = (.ok (), c) := by
    rw [upsertClient, Program.run_perform, Stmt.eval, if_pos h]
  exact Program.run_bind_ok _ _ hupsert

/-- A pull only reads. -/
theorem ConnInv.run_pullChanges_snd (h : ConnInv c) (client : ClientId) (params : PullRequest) :
    ((Rustend.pullChanges client params).run Stmt.eval c).2 = c := by
  by_cases hfits : ∀ s, params.since = some s → s.val ≤ i64Max
  · obtain ⟨updates, hrun, -⟩ := h.pullChanges client params hfits
    rw [hrun]
  · push Not at hfits
    obtain ⟨s, hs, hbig⟩ := hfits
    rw [pullChanges_refused client params hs (Nat.not_le.mpr hbig)]

/-- A pull request leaves its client registered. -/
theorem ConnInv.changesQuery_registers (h : ConnInv c) (client : ClientId) (params : PullRequest) :
    client ∈ ((httpServer client).changesQuery params c).2.tables.clients := by
  obtain ⟨clients, hmem, hrun⟩ := run_authenticated client (Rustend.pullChanges client params) c
  have hleft : ((httpServer client).changesQuery params c).2 = c.withClients clients := by
    simp only [httpServer, hrun]
    exact (h.withClients clients).run_pullChanges_snd client params
  rw [hleft]
  exact hmem

/-! ### Two pulls in a row -/

/-- No object has changed after the latest transaction. -/
theorem Tables.not_changedFor (t : Tables) (client : ClientId) (n : ℤ) (o : ObjectId) :
    ¬ t.ChangedFor client n n o := by
  rintro ⟨row, -, -, -, e, -, -, x, -, -, hlow, hhigh⟩
  exact absurd hhigh (not_le.mpr hlow)

/-- **A pull from the latest transaction** is answered without updates, and leaves the server
as it was. -/
theorem ConnInv.changesQuery_idle (h : ConnInv c) (hmem : client ∈ c.tables.clients)
    (hsince : params.since = some ⟨c.tables.maxTransactionId⟩) : ∃ x,
    (httpServer client).changesQuery params c = (x, c) ∧
      parsed x = some ⟨⟨c.tables.maxTransactionId⟩, []⟩ := by
  have hfits : ∀ s, params.since = some s → s.val ≤ i64Max := by
    intro s hs
    rw [hsince] at hs
    cases hs
    exact h.tables.maxTransactionId_le
  obtain ⟨updates, hpull, hans⟩ := h.pullChanges client params hfits
  have hnone : updates = [] := by
    rw [← List.map_eq_nil_iff (f := (·.objectId)), List.eq_nil_iff_forall_not_mem]
    intro o ho
    obtain ⟨hchanged, -⟩ := (hans.objects o).mp ho
    rw [hsince] at hchanged
    exact c.tables.not_changedFor client _ o hchanged
  rw [hnone] at hpull
  refine ⟨.ok (respond (.ok ⟨⟨c.tables.maxTransactionId⟩, []⟩)), ?_, rfl⟩
  simp only [httpServer, run_authenticated_registered _ hmem, hpull]

/-- A pull that is answered without updates moves the cursor alone. -/
theorem run_pullUpdates_nil {σ : Type} {net : Net σ} {s s' : σ}
    {x : Except ClientError (HttpResponse PullResponse)} {upTo : TransactionId}
    (hx : net.changesQuery params s = (x, s')) (hparsed : parsed x = some ⟨upTo, []⟩) :
    (pullUpdates params).run (answer net) (db, s) = (.ok (0, 0), (db.advanced upTo, s')) := by
  have hpost : (Program.perform (S := browser) (.postChangesQuery params)).run
      (answer net) (db, s) = (x, (db, s')) := by
    rw [Program.run_perform, answer, hx]
  obtain ⟨reply, hreply, hjson⟩ := exists_reply hpost hparsed "pull failed: "
  have hnone : (applyUpdates [] (0, 0)).run (answer net) (db, s') = (.ok (0, 0), (db, s')) := rfl
  rw [pullUpdates, Program.run_bind_ok _ _ hreply, Program.run_bind_ok _ _ hjson,
    Program.run_bind_ok _ _ hnone, Program.run_bind_ok _ _ (run_idb .readSyncState),
    ClientDb.advanced]
  rcases hstate : db.syncState with _ | ⟨_ | cid, _ | uid, last⟩ <;>
    simp only [IdbOp.eval, hstate] <;> rfl

/-- The cursor is not moved to where it is. -/
theorem advanced_same {cid : ClientId} {uid : UserId} {upTo : TransactionId}
    (h : db.syncState = some ⟨some cid, some uid, some upTo⟩) : db.advanced upTo = db := by
  obtain ⟨revisions, objectHeads, syncState⟩ := db
  subst h
  rfl

/-! ### Two syncs in a row -/

/-- **A second sync is idle.**  Once a sync has completed, whatever it pushed, was refused and
pulled, nothing is pending, the cursor is at the latest transaction of the server, and another
sync from it, with whatever filters, reports nothing and leaves the stores and the server as they
are. -/
theorem ConnInv.sync_quiescent (h : ConnInv c) {cid : ClientId} {uid : UserId}
    {last : Option TransactionId} (hid : db.syncState = some ⟨some cid, some uid, last⟩)
    {result : SyncResult} (hrun : (Repository.sync params).run (answer (httpServer client))
      (db, c) =
      (.ok result, (db', c'))) (hauto : params'.since = none) :
    db'.pending = [] ∧ db'.lastTxn = some ⟨c'.tables.maxTransactionId⟩ ∧
    (Repository.sync params').run (answer (httpServer client)) (db', c') =
      (.ok ⟨0, 0, 0, []⟩, (db', c')) := by
  have hrun' := hrun
  rw [run_repositorySync] at hrun'
  obtain ⟨pushed, db₁, c₁, counts, hpush, hpull⟩ := run_sync_ok hrun'
  obtain ⟨resp, batch, hpushed, -⟩ := h.pushPending_ok hpush
  obtain ⟨updates, hpulled⟩ := hpushed.conn.pullUpdates_ok hpull
  -- the client has been registered, at the latest by its pull
  have hmem : client ∈ c'.tables.clients := by
    have hregisters := hpushed.conn.changesQuery_registers client
      { params with since := params.since.or db.lastTxn }
    rcases hx : (httpServer client).changesQuery
      { params with since := params.since.or db.lastTxn } c₁ with ⟨x, s'⟩
    rw [hx] at hregisters
    rcases run_pullUpdates db₁ hx with ⟨-, e, herr⟩ | ⟨_, _, -, hok⟩
    · rw [hpull] at herr
      cases herr
    · rw [hpull] at hok
      have hc' : c' = s' := congrArg (fun y => y.2.2) hok
      rwa [hc']
  have hpending : db'.pending = [] := by
    rw [hpulled.stores]
    exact pending_pulled hpushed.pending_eq_nil updates _
  have hsaved : ((db₁.pulled updates).syncState) = some ⟨some cid, some uid, last⟩ := by
    rw [pulled_syncState, hpushed.stores, marked_syncState, hid]
  have hstate : db'.syncState = some ⟨some cid, some uid, some ⟨c'.tables.maxTransactionId⟩⟩ := by
    rw [hpulled.stores]
    exact advanced_syncState hsaved _
  have hlast : db'.lastTxn = some ⟨c'.tables.maxTransactionId⟩ := by
    rw [ClientDb.lastTxn, hstate]
    rfl
  refine ⟨hpending, hlast, ?_⟩
  have hidle : pushPending.run (answer (httpServer client)) (db', c') =
      (.ok (0, []), (db', c')) := by
    rcases run_pushPending (httpServer client) db' c' with ⟨-, hnothing⟩ | ⟨hne, -⟩
    · exact hnothing
    · exact absurd hpending hne
  have hsince : ({ params' with since := params'.since.or db'.lastTxn } : PullRequest).since =
      some ⟨c'.tables.maxTransactionId⟩ := by
    rw [hauto, Option.none_or, hlast]
  obtain ⟨x, hx, hparsed⟩ := hpulled.conn.changesQuery_idle hmem hsince
  rw [run_repositorySync, Rustend.sync, Program.run_bind_ok _ _ hidle,
    Program.run_bind_ok _ _ (run_pullUpdates_nil hx hparsed), advanced_same hstate]
  rfl

/-- A client has saved a trip, and syncs twice. -/
theorem ConnInv.sync_quiescent_saved : ∃ result db' c',
    (Repository.sync everything).run (answer (httpServer ⟨⟨7⟩⟩)) savedTrip =
      (.ok result, (db', c')) ∧ result.pushed = 1 ∧
    (Repository.sync everything).run (answer (httpServer ⟨⟨7⟩⟩)) (db', c') =
      (.ok ⟨0, 0, 0, []⟩, (db', c')) := by
  have hval : ((Repository.sync everything).run (answer (httpServer ⟨⟨7⟩⟩))
      savedTrip).1.toOption.map
      (·.pushed) = some 1 := by decide +kernel
  rcases hrun : (Repository.sync everything).run (answer (httpServer ⟨⟨7⟩⟩)) savedTrip with
    ⟨e | result, db', c'⟩
  · rw [hrun] at hval
    cases hval
  · rw [hrun] at hval
    have hstate : savedTrip.1.syncState = some ⟨some ⟨⟨7⟩⟩, some ⟨⟨1⟩⟩, none⟩ := by decide +kernel
    have hauto : everything.since = none := rfl
    obtain ⟨-, -, hagain⟩ := ConnInv.sync_quiescent (c := savedTrip.2) .empty hstate hrun hauto
    exact ⟨result, db', c', hrun, Option.some.inj hval, hagain⟩

end Quiescent

end Rustend
