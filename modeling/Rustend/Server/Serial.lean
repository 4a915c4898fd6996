import Rustend.Lib.CommitPoint
import Rustend.Server.Batch
import Mathlib.Order.Interval.Finset.Nat

/-!
# A serial order of the pushes

The statements of concurrent pushes interleave, and each of them sees what the others
have committed so far.  Nevertheless the tables of a run are those that the
registrations and pushes would have left if they had been served one after another, each
push with just the entries that it got through; only the transaction ids are other ones,
since the sequence is advanced before a transaction commits.

A session changes the committed tables with its last statement, so the order is the one
in which these statements were answered.

## Main definitions

* `serveAll` — requests served one after another on one connection.
* `SameHistory` — the same tables, but for the transaction ids.
* `Serial` — a serial order for a configuration.

## Main results

* `Conn.Registered.eval` — the author of a revision is registered before it is stored.
* `serialTurn` — one change of the tables is one request served alone.
* `Run.serial` — **every run has a serial order, which later steps only extend.**
-/

namespace Rustend

open Interleave

/-! ### Statements that change the committed tables -/

@[simp] theorem Conn.write_tables (c : Conn) (f : Writes → Except DbError Writes) :
    (c.write f).2.tables = c.tables := by
  unfold Conn.write
  split
  · rfl
  · split <;> rfl

@[simp] theorem Conn.insertTransaction_tables (c : Conn) (client : ClientId) :
    (c.insertTransaction client).2.tables = c.tables := by
  unfold Conn.insertTransaction
  split
  · rfl
  · split
    · rfl
    · split <;> rfl

theorem Stmt.eval_tables {op : Stmt} (h : op.commits = false) (c : Conn) :
    (op.eval c).2.tables = c.tables := by
  cases op <;> simp [commits] at h <;> simp [eval]
  split <;> rfl

theorem Db.exec_tables {d d' : Db} {i : ℕ} {op : Stmt} {ch : Outcome}
    {r : Except ServerError op.Res} (hop : op.commits = false)
    (h : d.exec i op ch = some (r, d')) : d'.tables = d.tables := by
  rcases Db.exec_cases h with ⟨-, -, rfl⟩ | ⟨-, -, ⟨-, rfl⟩ | ⟨-, rfl⟩ | ⟨-, rfl⟩⟩
  · rw [Db.withConn_tables, Stmt.eval_tables hop]
    rfl
  · rfl
  · rfl
  · rw [Db.withConn_tables, Stmt.eval_tables hop]
    rfl

/-- A session is told of a failure although the tables have changed only when the reply
is lost. -/
theorem misreported {e : ServerError} (h : Misreported postgres Db.tables e) :
    e = .database .connection := by
  obtain ⟨i, ch, op, d, d', hx, hne⟩ := h
  rcases Db.exec_cases hx with ⟨-, he, rfl⟩ | ⟨-, he, -⟩
  · -- an executed statement that fails leaves the tables
    refine absurd ?_ hne
    rw [Db.withConn_tables]
    by_cases hop : op.commits = false
    · rw [Stmt.eval_tables hop]
      rfl
    · cases op <;> simp [Stmt.commits] at hop
      · simp only [Stmt.eval] at he
        split at he <;> cases he
      · simp only [Stmt.eval] at he ⊢
        split at he
        · rfl
        · cases he
  · cases he
    rfl

/-! ### Registered authors -/

/-- What the keys of `clients` and the reference to it from `revisions` demand, of the
committed rows and of those in the open transaction. -/
structure Conn.Registered (c : Conn) : Prop where
  clients : c.tables.clients.Nodup
  stored : ∀ row ∈ c.tables.revisions, row.createdBy ∈ c.tables.clients
  opened : ∀ w, c.tx = some w → ∀ row ∈ w.revisions, row.createdBy ∈ c.tables.clients

namespace Conn.Registered

variable {c : Conn}

/-- A write keeps the demands if the rows it adds meet them. -/
theorem write (h : c.Registered) {f : Writes → Except DbError Writes}
    (hf : ∀ w w', f w = .ok w' → ∀ row ∈ w'.revisions,
      row ∈ w.revisions ∨ row.createdBy ∈ c.tables.clients) : (c.write f).2.Registered := by
  unfold Conn.write
  split
  · exact h
  · next w hw =>
    split
    · next w' hw' =>
      refine ⟨h.clients, h.stored, fun v hv row hrow => ?_⟩
      cases hv
      rcases hf w w' hw' row hrow with hrow | hrow
      · exact h.opened w hw row hrow
      · exact hrow
    · exact h

/-- A write that leaves the revisions of the transaction. -/
theorem write_keep (h : c.Registered) {f : Writes → Except DbError Writes}
    (hf : ∀ w w', f w = .ok w' → w'.revisions = w.revisions) : (c.write f).2.Registered :=
  h.write fun w w' hw _ hrow => .inl (hf w w' hw ▸ hrow)

/-- **No statement stores a revision before its author is registered**, whatever
program it comes from. -/
theorem eval (h : c.Registered) (op : Stmt) :
    (op.eval c).2.Registered ∧ c.tables.clients ⊆ (op.eval c).2.tables.clients := by
  cases op with
  | upsertClient id =>
    simp only [Stmt.eval]
    split
    · exact ⟨h, List.Subset.refl _⟩
    · next hid =>
      refine ⟨⟨?_, fun row hrow => ?_, fun w hw row hrow => ?_⟩, List.subset_append_left _ _⟩
      · exact List.nodup_append.mpr ⟨h.clients, by simp, by
          intro a ha b hb hab
          rw [List.mem_singleton.mp hb] at hab
          exact hid (hab ▸ ha)⟩
      · exact List.mem_append_left _ (h.stored row hrow)
      · exact List.mem_append_left _ (h.opened w hw row hrow)
  | commit =>
    simp only [Stmt.eval]
    split
    · exact ⟨h, List.Subset.refl _⟩
    · next w hw =>
      refine ⟨⟨h.clients, fun row hrow => ?_, fun v hv => by cases hv⟩, List.Subset.refl _⟩
      rcases List.mem_append.mp hrow with hrow | hrow
      · exact h.stored row hrow
      · exact h.opened w hw row hrow
  | begin =>
    refine ⟨⟨h.clients, h.stored, fun w hw row hrow => ?_⟩, List.Subset.refl _⟩
    cases hw
    simp at hrow
  | rollback => exact ⟨⟨h.clients, h.stored, fun w hw => by cases hw⟩, List.Subset.refl _⟩
  | insertRevision row =>
    refine ⟨h.write fun w w' hw r hr => ?_, by simp [Stmt.eval]⟩
    unfold Tables.insertRevision at hw
    split at hw; · cases hw
    split at hw; · cases hw
    split at hw; · cases hw
    split at hw; · cases hw
    next hby =>
    cases hw
    rcases List.mem_append.mp hr with hr | hr
    · exact .inl hr
    · rw [List.mem_singleton.mp hr]
      exact .inr (not_not.mp hby)
  | insertRevisionParent row =>
    refine ⟨h.write_keep fun w w' hw => ?_, by simp [Stmt.eval]⟩
    simp only [Tables.insertRevisionParent] at hw
    split at hw; · cases hw
    split at hw; · cases hw
    cases hw
    rfl
  | deleteHeads o ids =>
    refine ⟨h.write_keep fun w w' hw => ?_, by simp [Stmt.eval]⟩
    cases hw
    rfl
  | insertHead row =>
    refine ⟨h.write_keep fun w w' hw => ?_, by simp [Stmt.eval]⟩
    simp only [Tables.insertHead] at hw
    split at hw; · cases hw; rfl
    split at hw; · cases hw
    cases hw
    rfl
  | insertTransaction client =>
    refine ⟨?_, by simp [Stmt.eval]⟩
    simp only [Stmt.eval, Conn.insertTransaction]
    split; · exact h
    next w hw =>
    split; · exact h
    split; · exact ⟨h.clients, h.stored, h.opened⟩
    refine ⟨h.clients, h.stored, fun v hv row hrow => ?_⟩
    cases hv
    exact h.opened w hw row hrow
  | insertTransactionRevision row =>
    refine ⟨h.write_keep fun w w' hw => ?_, by simp [Stmt.eval]⟩
    simp only [Tables.insertTransactionRevision] at hw
    split at hw; · cases hw
    split at hw; · cases hw
    cases hw
    rfl
  | selectHeads o =>
    simp only [Stmt.eval]
    split <;> exact ⟨h, List.Subset.refl _⟩
  | _ => exact ⟨h, List.Subset.refl _⟩

theorem empty (i : ℕ) : (Db.empty.conn i).Registered :=
  ⟨List.nodup_nil, by simp [Db.empty, Db.conn], fun w hw => by cases hw⟩

end Conn.Registered

/-- So it is in the database, for every session. -/
theorem Db.registered_withConn {d : Db} (h : ∀ j, (d.conn j).Registered) {i : ℕ} {c : Conn}
    (hc : c.Registered) (hsub : d.tables.clients ⊆ c.tables.clients) (j : ℕ) :
    ((d.withConn i c).conn j).Registered := by
  by_cases hji : j = i
  · subst hji
    refine ⟨hc.clients, hc.stored, fun w hw => ?_⟩
    have htx : c.tx = some w := Db.withConn_opened_self.symm.trans hw
    exact hc.opened w htx
  · refine ⟨hc.clients, hc.stored, fun w hw row hrow => hsub ?_⟩
    have htx : d.opened j = some w := (Db.withConn_opened_of_ne hji).symm.trans hw
    exact (h j).opened w htx row hrow

theorem Db.registered_exec {d d' : Db} (h : ∀ j, (d.conn j).Registered) {i : ℕ} {op : Stmt}
    {ch : Outcome} {r : Except ServerError op.Res} (hx : d.exec i op ch = some (r, d')) :
    ∀ j, (d'.conn j).Registered := by
  rcases Db.exec_cases hx with ⟨-, -, rfl⟩ | ⟨-, -, ⟨-, rfl⟩ | ⟨-, rfl⟩ | ⟨-, rfl⟩⟩
  · exact Db.registered_withConn h ((h i).eval op).1 ((h i).eval op).2
  · exact h
  · refine Db.registered_withConn h ?_ (List.Subset.refl _)
    exact ⟨(h i).clients, (h i).stored, fun w hw => by cases hw⟩
  · exact Db.registered_withConn h ((h i).eval op).1 ((h i).eval op).2

theorem Run.registered {c : Config sql ServerError ℕ ServerRequest ServerReply Db} (hc : Run c) :
    ∀ j, (c.shared.conn j).Registered := by
  induction hc with
  | init => exact Conn.Registered.empty
  | next _ _ hn ih =>
    rcases Config.next_cases hn with ⟨-, -, -, -, hs, -⟩ | ⟨i, ch, req, op, next, r, -, -, hx, -⟩
    · rw [hs]
      exact ih
    · exact Db.registered_exec ih hx

/-! ### Requests commit with their last statement -/

theorem quiet_insertRevision (rev : Revision) : (insertRevision rev).Quiet Stmt.commits :=
  (Program.Quiet.perform rfl).bind fun _ =>
    Program.Quiet.forEach (fun _ => Program.Quiet.perform rfl) _

theorem quiet_updateHeads (o : ObjectId) (parents : List RevisionId) (id : RevisionId) :
    (updateHeads o parents id).Quiet Stmt.commits := by
  unfold updateHeads
  split
  · exact (Program.Quiet.perform rfl).bind fun _ => Program.Quiet.perform rfl
  · exact Program.Quiet.perform rfl

theorem quiet_writeRevisions (revisions : List Revision) :
    (writeRevisions revisions).Quiet Stmt.commits :=
  Program.Quiet.forEach (fun rev => (quiet_insertRevision rev).bind fun _ =>
    quiet_updateHeads ..) revisions

theorem quiet_createTransaction (client : ClientId) (ids : List RevisionId) :
    (createTransaction client ids).Quiet Stmt.commits :=
  (Program.Quiet.perform rfl).bind fun _ =>
    (Program.Quiet.forEach (fun _ => Program.Quiet.perform rfl) _).bind fun _ => trivial

theorem quiet_checkParents (st : PushState) (rev : Revision) :
    ∀ parents, (checkParents st rev parents).Quiet Stmt.commits := by
  intro parents
  induction parents with
  | nil => exact trivial
  | cons parent rest ih =>
    have hparent : (parentObjectId st parent).Quiet Stmt.commits := by
      unfold parentObjectId
      split
      · exact trivial
      · exact Program.Quiet.perform rfl
    refine hparent.bind fun oid => ?_
    cases oid with
    | none => exact trivial
    | some oid =>
      dsimp only
      split
      · exact trivial
      · exact ih

theorem quiet_checkRevision (client : ClientId) (st : PushState) (rev : Revision) :
    (checkRevision client st rev).Quiet Stmt.commits := by
  unfold checkRevision
  split
  · exact trivial
  · have hexists : (revisionExists rev.id).Quiet Stmt.commits := Program.Quiet.perform rfl
    refine hexists.bind fun present => ?_
    split
    · exact trivial
    · split
      · exact trivial
      · exact quiet_checkParents st rev _

theorem quiet_validate (client : ClientId) :
    ∀ (revisions : List Revision) (st : PushState), (validate client st revisions).Quiet
      Stmt.commits := by
  intro revisions
  induction revisions with
  | nil => exact fun _ => trivial
  | cons rev revisions ih =>
    intro st
    refine (quiet_checkRevision client st rev).bind fun reason => ?_
    cases reason with
    | none => exact ih _
    | some reason => exact ih _

/-- A transaction whose statements do not commit by themselves commits with its last one. -/
theorem commitsLast_inTransaction {α : Type} {body : Sql α} (h : body.Quiet Stmt.commits) :
    (inTransaction body).CommitsLast Stmt.commits := by
  refine Program.CommitsLast.bind (Program.Quiet.perform rfl) fun _ => ?_
  refine Program.CommitsLast.bind (h.orElse (Program.Quiet.perform rfl)) fun a => ?_
  exact (Program.CommitsLast.perform _).map fun _ => a

theorem commitsLast_pushRevisions (client : ClientId) (revisions : List Revision) :
    (pushRevisions client revisions).CommitsLast Stmt.commits := by
  refine Program.CommitsLast.bind (quiet_validate client revisions {}) fun st => ?_
  dsimp only
  split
  · exact trivial
  · refine Program.CommitsLast.map _ (commitsLast_inTransaction ?_)
    exact (quiet_writeRevisions _).bind fun _ => quiet_createTransaction ..

/-- The request only reads. -/
def ServerRequest.Reads : ServerRequest → Prop
  | .pull .. | .getObject _ => True
  | _ => False

theorem commitsLast_serve :
    CommitsLast postgres serve Db.tables (fun _ _ => True) Db.empty Stmt.commits
      ServerRequest.Reads where
  starts req := by
    cases req with
    | register client => exact .inr ((Program.CommitsLast.perform _).map _)
    | push client revisions => exact .inr ((commitsLast_pushRevisions client revisions).map _)
    | pull client req => exact .inl trivial
    | getObject o => exact .inl trivial
  quiet i ch op d r d' hx hop := Db.exec_tables hop hx
  silent hc hl hn hp hs := by
    have hg := hc.guar compatible DbInv.empty (fun _ => rfl) hl hn hp
    have heff := (hg (Run.dbInv hc)).2.2.2
    revert hs heff
    cases ‹ServerRequest› with
    | register client => exact fun hs => hs.elim
    | push client revisions => exact fun hs => hs.elim
    | pull client req => exact fun _ heff => heff
    | getObject o => exact fun _ heff => heff

/-! ### One request after another -/

/-- Requests served one after another on one connection: the replies, and the connection
they leave. -/
def serveAll : List ServerRequest → Conn → List (Except ServerError ServerReply) × Conn
  | [], c => ([], c)
  | req :: reqs, c =>
      let x := (serve req).run Stmt.eval c
      let y := serveAll reqs x.2
      (x.1 :: y.1, y.2)

theorem serveAll_append (xs ys : List ServerRequest) (c : Conn) :
    serveAll (xs ++ ys) c =
      ((serveAll xs c).1 ++ (serveAll ys (serveAll xs c).2).1,
        (serveAll ys (serveAll xs c).2).2) := by
  induction xs generalizing c with
  | nil => rfl
  | cons x xs ih => simp only [List.cons_append, serveAll, ih]

/-- The reply to a request of which nothing is refused. -/
def Granted : ServerRequest → Except ServerError ServerReply → Prop
  | .register _, .ok .registered => True
  | .push _ revisions, .ok (.pushed resp) =>
      resp.accepted = revisions.map (·.id) ∧ resp.rejected = []
  | _, _ => False

/-- The first request is the second, or what is left of it when some entries are dropped. -/
def ServerRequest.PartOf : ServerRequest → ServerRequest → Prop
  | .register client, .register client' => client = client'
  | .push client batch, .push client' revisions =>
      client = client' ∧ batch ≠ [] ∧ batch.Sublist revisions
  | _, _ => False

/-- The tables are the same, but for the order of the heads and for the ids of the
transactions, which `number` translates. -/
structure SameHistory (number : ℕ → ℕ) (t t' : Tables) : Prop where
  clients : t'.clients = t.clients
  revisions : t'.revisions = t.revisions
  revisionParents : t'.revisionParents = t.revisionParents
  objectHeads : t'.objectHeads.Perm t.objectHeads
  transactions : t'.transactions = t.transactions.map fun x => ⟨number x.id, x.clientId⟩
  transactionRevisions : t'.transactionRevisions =
    t.transactionRevisions.map fun e => ⟨number e.transactionId, e.revisionId⟩
  injective : Set.InjOn number {n | ∃ x ∈ t.transactions, x.id = n}

/-- What every change of the tables is known to be. -/
structure Admitted (x : Change ℕ ServerRequest Tables) : Prop where
  before : WellFormed x.before
  effect : x.request.Effect x.before x.after
  changed : x.after ≠ x.before
  clients : x.after.clients.Nodup
  authors : ∀ row ∈ x.after.revisions, row.createdBy ∈ x.after.clients

/-- A connection whose tables are those of a run, but for the transaction ids, and which has
drawn one id a transaction. -/
structure Follows (number : ℕ → ℕ) (t : Tables) (d : Conn) : Prop where
  conn : ConnInv d
  same : SameHistory number t d.tables
  drawn : d.nextval = t.transactions.length + 1

/-- The ids of a well-formed history fit the sequence, so there are not more of them. -/
theorem WellFormed.transactions_le {t : Tables} (h : WellFormed t) :
    t.transactions.length ≤ i64Max := by
  have hsub : (t.transactions.map (·.id)).toFinset ⊆ Finset.Icc 1 i64Max := by
    intro n hn
    obtain ⟨x, hx, rfl⟩ := List.mem_map.mp (List.mem_toFinset.mp hn)
    exact Finset.mem_Icc.mpr (h.txn_range x hx)
  have hcard := Finset.card_le_card hsub
  rw [List.toFinset_card_of_nodup h.txn_ids, List.length_map, Nat.card_Icc] at hcard
  omega

theorem Accepts.of_storedAs {t t' : Tables} {client : ClientId} {batch : List Revision}
    (h : Accepts t client batch) (hs : ∀ r o, t.StoredAs r o → t'.StoredAs r o) :
    Accepts t' client batch := by
  induction h with
  | nil => exact .nil
  | snoc _ hc hn hp ih => exact ih.snoc hc hn fun p hpm => (hp p hpm).imp_left (hs p _)

namespace Follows

variable {number : ℕ → ℕ} {t u : Tables} {d : Conn}

theorem storedAs (h : Follows number t d) (r : RevisionId) (o : ObjectId) :
    d.tables.StoredAs r o ↔ t.StoredAs r o := by
  unfold Tables.StoredAs
  rw [h.same.revisions]

theorem stored (h : Follows number t d) (r : RevisionId) : d.tables.Stored r ↔ t.Stored r := by
  unfold Tables.Stored
  rw [h.same.revisions]

/-- A batch that a run commits can be written alone. -/
theorem writable (h : Follows number t d) (hwf : WellFormed t) {client : ClientId} {n : ℕ}
    {batch : List Revision} (hv : ValidBatch t client n batch)
    (ha : Appends t u client n batch) (hreg : client ∈ t.clients) :
    Writable d.tables client d.nextval batch := by
  refine ⟨hv.ids, fun rev hrev => ?_, ?_, hv.storable, h.same.clients ▸ hreg, ?_⟩
  · rw [h.stored]
    exact hv.fresh rev hrev
  · exact hv.accepts.of_storedAs fun r o => (h.storedAs r o).mpr
  · -- the run has drawn another id for each of its transactions
    have hlen := (hwf.appends hv ha).transactions_le
    rw [ha.transactions, List.length_append, List.length_singleton] at hlen
    rw [h.drawn]
    exact hlen

/-- Committing the same batch on both sides. -/
theorem appends (h : Follows number t d) (hwf : WellFormed t) {client : ClientId} {n : ℕ}
    {batch : List Revision} (hv : ValidBatch t client n batch)
    (ha : Appends t u client n batch) {d' : Conn} (hd : ConnInv d')
    (ha' : Appends d.tables d'.tables client d.nextval batch) (hn : d'.nextval = d.nextval + 1) :
    Follows (Function.update number n d.nextval) u d' := by
  have hold : ∀ x ∈ t.transactions, Function.update number n d.nextval x.id = number x.id :=
    fun x hx => Function.update_of_ne (hv.txn_fresh x hx) ..
  -- an old id is translated to one that the sequence has left behind
  have hlt : ∀ x ∈ t.transactions, number x.id < d.nextval := by
    intro x hx
    refine h.conn.txn_lt ⟨number x.id, x.clientId⟩ ?_
    rw [h.same.transactions]
    exact List.mem_map.mpr ⟨x, hx, rfl⟩
  refine ⟨hd, ⟨?_, ?_, ?_, ?_, ?_, ?_, ?_⟩, ?_⟩
  · rw [ha'.clients, ha.clients, h.same.clients]
  · rw [ha'.revisions, ha.revisions, h.same.revisions]
  · rw [ha'.revisionParents, ha.revisionParents, h.same.revisionParents]
  · rw [List.perm_ext_iff_of_nodup ha'.heads_nodup ha.heads_nodup]
    intro x
    rw [ha'.heads, ha.heads, h.same.objectHeads.mem_iff]
  · rw [ha'.transactions, ha.transactions, h.same.transactions, List.map_append]
    congr 1
    · exact List.map_congr_left fun x hx => by rw [hold x hx]
    · simp
  · rw [ha'.transactionRevisions, ha.transactionRevisions, h.same.transactionRevisions,
      List.map_append]
    congr 1
    · refine List.map_congr_left fun e he => ?_
      obtain ⟨x, hx, hxe, -⟩ := hwf.author e he
      rw [← hxe, hold x hx]
    · simp
  · rintro a ⟨x, hx, rfl⟩ b ⟨y, hy, rfl⟩ hab
    rw [ha.transactions] at hx hy
    rcases List.mem_append.mp hx with hx | hx <;> rcases List.mem_append.mp hy with hy | hy
    · rw [hold x hx, hold y hy] at hab
      exact h.same.injective ⟨x, hx, rfl⟩ ⟨y, hy, rfl⟩ hab
    · have := hlt x hx
      rw [List.mem_singleton.mp hy, Function.update_self, hold x hx] at hab
      omega
    · have := hlt y hy
      rw [List.mem_singleton.mp hx, Function.update_self, hold y hy] at hab
      omega
    · rw [List.mem_singleton.mp hx, List.mem_singleton.mp hy]
  · rw [hn, h.drawn, ha.transactions, List.length_append, List.length_singleton]

/-- **A committed push, alone**: nothing of what it got through is refused. -/
theorem push (h : Follows number t d) (hwf : WellFormed t) {client : ClientId} {n : ℕ}
    {batch : List Revision} (hv : ValidBatch t client n batch)
    (ha : Appends t u client n batch) (hreg : client ∈ t.clients) :
    ∃ number', Granted (.push client batch) ((serve (.push client batch)).run Stmt.eval d).1 ∧
      Follows number' u ((serve (.push client batch)).run Stmt.eval d).2 := by
  have hw := h.writable hwf hv ha hreg
  obtain ⟨resp, d', hrun, hacc, hconn, happ, hnext⟩ := h.conn.pushRevisions_writable hv.nonempty hw
  obtain ⟨resp', d'', hrun', hrej⟩ := (h.conn.rejects_nothing_iff hw.registered hv.nonempty).mpr hw
  rw [hrun] at hrun'
  cases hrun'
  have hserve : (serve (.push client batch)).run Stmt.eval d = (.ok (.pushed resp), d') :=
    Program.run_bind_ok _ _ hrun
  rw [hserve]
  exact ⟨_, ⟨hacc, hrej⟩, h.appends hwf hv ha hconn happ hnext⟩

/-- **A registration, alone.** -/
theorem register (h : Follows number t d) {client : ClientId} (hnew : client ∉ t.clients)
    (hu : u = { t with clients := t.clients ++ [client] }) :
    Granted (.register client) ((serve (.register client)).run Stmt.eval d).1 ∧
      Follows number u ((serve (.register client)).run Stmt.eval d).2 := by
  have hrun : (upsertClient client).run Stmt.eval d =
      (.ok (), d.withClients (d.tables.clients ++ [client])) := by
    rw [upsertClient, Program.run_perform, Stmt.eval, if_neg (h.same.clients ▸ hnew)]
    rfl
  have hserve : (serve (.register client)).run Stmt.eval d =
      (.ok .registered, d.withClients (d.tables.clients ++ [client])) :=
    Program.run_bind_ok _ _ hrun
  rw [hserve, hu]
  refine ⟨trivial, h.conn.withClients _, ?_, h.drawn⟩
  exact ⟨congrArg (· ++ [client]) h.same.clients, h.same.revisions, h.same.revisionParents,
    h.same.objectHeads, h.same.transactions, h.same.transactionRevisions, h.same.injective⟩

/-- **One change of the tables is one request served alone.** -/
theorem turn {x : Change ℕ ServerRequest Tables} (hx : Admitted x)
    (h : Follows number x.before d) : ∃ req number', req.PartOf x.request ∧
      Granted req ((serve req).run Stmt.eval d).1 ∧
      Follows number' x.after ((serve req).run Stmt.eval d).2 := by
  obtain ⟨i, req, t, u⟩ := x
  obtain ⟨hwf, heff, hne, hclients, hauthors⟩ := hx
  dsimp only at hwf heff hne hclients hauthors h ⊢
  cases req with
  | pull client req => exact absurd heff hne
  | getObject o => exact absurd heff hne
  | register client =>
    have hu := heff.resolve_left hne
    have hnew : client ∉ t.clients := by
      intro hmem
      rw [hu, List.nodup_append] at hclients
      exact hclients.2.2 client hmem client (by simp) rfl
    exact ⟨.register client, number, rfl, h.register hnew hu⟩
  | push client revisions =>
    obtain ⟨n, batch, hsub, hv, ha⟩ := heff.resolve_left hne
    -- the author of the batch is registered, because a row of it is stored
    have hreg : client ∈ t.clients := by
      obtain ⟨rev, hrev⟩ := List.exists_mem_of_ne_nil _ hv.nonempty
      have hrow := hauthors rev.row.stored (by
        rw [ha.revisions]
        exact List.mem_append_right _ (List.mem_map_of_mem hrev))
      rw [ha.clients] at hrow
      have hby : rev.row.stored.createdBy = client := hv.accepts.createdBy rev hrev
      rwa [hby] at hrow
    obtain ⟨number', hgranted, hfollows⟩ := h.push hwf hv ha hreg
    exact ⟨.push client batch, number', ⟨rfl, hv.nonempty, hsub⟩, hgranted, hfollows⟩

end Follows

/-- A turn of a serial execution is part of what the session of the change serves. -/
def IsTurn (x : Change ℕ ServerRequest Tables) (turn : ℕ × ServerRequest) : Prop :=
  turn.1 = x.session ∧ turn.2.PartOf x.request

/-- **A list of changes is a list of requests served one after another.** -/
theorem Follows.turns : ∀ {log : List (Change ℕ ServerRequest Tables)} {number : ℕ → ℕ}
    {t u : Tables} {d : Conn}, Chained t log u → (∀ x ∈ log, Admitted x) → Follows number t d →
    ∃ turns number', List.Forall₂ IsTurn log turns ∧
      List.Forall₂ Granted (turns.map (·.2)) (serveAll (turns.map (·.2)) d).1 ∧
      Follows number' u (serveAll (turns.map (·.2)) d).2 := by
  intro log
  induction log with
  | nil =>
    intro number t u d hchain _ h
    cases hchain
    exact ⟨[], number, .nil, .nil, h⟩
  | cons x log ih =>
    intro number t u d hchain hall h
    obtain ⟨rfl, hchain⟩ := hchain
    obtain ⟨hx, hall⟩ := List.forall_mem_cons.mp hall
    obtain ⟨req, number₁, hpart, hgranted, h₁⟩ := h.turn hx
    obtain ⟨turns, number₂, hparts, hreplies, h₂⟩ := ih hchain hall h₁
    exact ⟨(x.session, req) :: turns, number₂, .cons ⟨rfl, hpart⟩ hparts,
      .cons hgranted hreplies, h₂⟩

/-! ### The order of a run -/

/-- The requests of `turns`, each for another session, are a serial order for `c`: every
one belongs to a session that has ended, and if that session was told of a failure then
the reply to its commit was lost; served one after another they are granted in full, and
leave the tables of `c`. -/
structure Serial (c : Config sql ServerError ℕ ServerRequest ServerReply Db)
    (turns : List (ℕ × ServerRequest)) : Prop where
  once : (turns.map (·.1)).Nodup
  sessions : ∀ turn ∈ turns, ∃ req r, c.procs turn.1 = some (req, .done r) ∧
    turn.2.PartOf req ∧ ∀ e, r = .error e → e = .database .connection
  granted : List.Forall₂ Granted (turns.map (·.2))
    (serveAll (turns.map (·.2)) (Db.empty.conn 0)).1
  same : ∃ number, SameHistory number c.shared.tables
    (serveAll (turns.map (·.2)) (Db.empty.conn 0)).2.tables

theorem isTurn_sessions {log : List (Change ℕ ServerRequest Tables)}
    {turns : List (ℕ × ServerRequest)} (h : List.Forall₂ IsTurn log turns) :
    turns.map (·.1) = log.map (·.session) ∧
      ∀ turn ∈ turns, ∃ x ∈ log, IsTurn x turn := by
  induction h with
  | nil => simp
  | cons hx _ ih =>
    refine ⟨by rw [List.map_cons, List.map_cons, hx.1, ih.1], ?_⟩
    intro turn hturn
    rcases List.mem_cons.mp hturn with rfl | hturn
    · exact ⟨_, List.mem_cons_self, hx⟩
    · obtain ⟨y, hy, hturn⟩ := ih.2 turn hturn
      exact ⟨y, List.mem_cons_of_mem _ hy, hturn⟩

/-- The changes of a run, and requests that follow them, make a serial order. -/
theorem Serial.of_log {c : Config sql ServerError ℕ ServerRequest ServerReply Db}
    {log : List (Change ℕ ServerRequest Tables)}
      (hlog : CommitLog postgres Db.tables Db.empty c log)
    {turns : List (ℕ × ServerRequest)} (hturns : List.Forall₂ IsTurn log turns)
    (hgranted : List.Forall₂ Granted (turns.map (·.2))
      (serveAll (turns.map (·.2)) (Db.empty.conn 0)).1) {number : ℕ → ℕ}
    (h : Follows number c.shared.tables (serveAll (turns.map (·.2)) (Db.empty.conn 0)).2) :
    Serial c turns := by
  obtain ⟨hsessions, hmem⟩ := isTurn_sessions hturns
  refine ⟨hsessions ▸ hlog.once, fun turn hturn => ?_, hgranted, number, h.same⟩
  obtain ⟨x, hx, heq, hpart⟩ := hmem turn hturn
  obtain ⟨r, hr, he⟩ := hlog.ended x hx
  exact ⟨x.request, r, heq ▸ hr, hpart, fun e hre => misreported (he e hre)⟩

theorem Follows.empty : Follows id Db.empty.tables (Db.empty.conn 0) :=
  ⟨.empty, ⟨rfl, rfl, rfl, .refl _, rfl, rfl, Function.injective_id.injOn⟩, rfl⟩

/-- A step that changes the tables does so in an admissible way. -/
theorem admitted_step {c c' : Config sql ServerError ℕ ServerRequest ServerReply Db} {i : ℕ}
    {ch : Outcome} {req : ServerRequest} {p : Sql ServerReply} (hc : Run c)
    (hn : c.next postgres serve (.step i ch) = some c') (hp : c.procs i = some (req, p))
    (hne : c'.shared.tables ≠ c.shared.tables) :
    Admitted ⟨i, req, c.shared.tables, c'.shared.tables⟩ := by
  have hg := hc.guar compatible DbInv.empty (fun _ => rfl) trivial hn hp
  have hreg := Run.registered (hc.next trivial hn) i
  exact ⟨hc.wellFormed, (hg hc.dbInv).2.2.2, hne, hreg.clients, hreg.stored⟩

/-- **Every run has a serial order, which later steps only extend**: what the registrations
and pushes have stored is what they would have stored one after another, in the order of
their commits, each with just the entries that it got through. -/
theorem Run.serial {c c' : Config sql ServerError ℕ ServerRequest ServerReply Db} (hc : Run c)
    {ls : List (Label ℕ Outcome ServerRequest)}
    (hrun : c.runLabels postgres serve ls = some c') :
    ∃ before after, Serial c before ∧ Serial c' (before ++ after) := by
  have hgood : ∀ {d d' : Config sql ServerError ℕ ServerRequest ServerReply Db} {i ch req p},
      Run d → True → d.next postgres serve (.step i ch) = some d' → d.procs i = some (req, p) →
      d'.shared.tables ≠ d.shared.tables →
      Admitted ⟨i, req, d.shared.tables, d'.shared.tables⟩ :=
    fun hd _ hn hp hne => admitted_step hd hn hp hne
  obtain ⟨log, hlog, hall⟩ := hc.commitLog commitsLast_serve hgood
  obtain ⟨more, hlog', hmore⟩ := CommitLog.runLabels commitsLast_serve hgood hc hlog
    (fun _ _ _ => trivial) hrun
  -- first the changes that have led to `c`, then the others from where these have ended
  obtain ⟨before, number, hbefore, hgranted, hfollows⟩ := Follows.empty.turns hlog.chained hall
  have hrest : Chained c.shared.tables more c'.shared.tables := hlog.chained.drop hlog'.chained
  obtain ⟨after, number', hafter, hgranted', hfollows'⟩ := hfollows.turns hrest hmore
  refine ⟨before, after, .of_log hlog hbefore hgranted hfollows, ?_⟩
  have happend := serveAll_append (before.map (·.2)) (after.map (·.2)) (Db.empty.conn 0)
  rw [← List.map_append] at happend
  refine Serial.of_log hlog' (List.rel_append hbefore hafter) ?_ (?_ : Follows number' _ _)
  · rw [happend, List.map_append]
    exact List.rel_append hgranted hgranted'
  · rw [happend]
    exact hfollows'

/-- Two racing pushes have a serial order. -/
theorem Run.serial_race : ∃ c, c.shared.tables.objectHeads =
      [⟨⟨⟨10⟩⟩, ⟨⟨2⟩⟩⟩, ⟨⟨⟨10⟩⟩, ⟨⟨3⟩⟩⟩] ∧
    ∃ before after, Serial (Config.init Db.empty) before ∧ Serial c (before ++ after) := by
  have h : ((Config.init Db.empty).runLabels postgres serve raceLabels).map
      (·.shared.tables.objectHeads) = some [⟨⟨⟨10⟩⟩, ⟨⟨2⟩⟩⟩, ⟨⟨⟨10⟩⟩, ⟨⟨3⟩⟩⟩] := by
    decide +kernel
  obtain ⟨c, hc, hheads⟩ := Option.map_eq_some_iff.mp h
  exact ⟨c, hheads, Run.serial .init hc⟩

end Rustend
