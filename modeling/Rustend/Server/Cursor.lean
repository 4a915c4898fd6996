import Rustend.Server.PullSpec

/-!
# The pull cursor

One client pulls again and again, each time from where its last pull stopped,
while the other sessions serve any requests.  The cursor is the largest committed
transaction id; but ids are drawn when a transaction is written and become visible
when it commits, which may be in another order.  A transaction that commits after
a pull has passed its id is never returned.

The database is observed together with how far the pulls have come.  As long as
every transaction of another client commits with an id that the pulls have not
passed, none is skipped.

## Main definitions

* `pullChain` — the pulls of one client.
* `Observed` — the database, and how far the pulls have come.
* `InOrder` — the steps that commit no transaction behind the cursor.
* `NoneSkipped` — what the pulls should have returned.

## Main results

* `none_skipped` — **when transactions commit ahead of the cursor, none is skipped.**
* `skipped_behind_cursor` — a transaction that commits behind it is.
-/

namespace Rustend

open Interleave

/-! ### The pulls of a client -/

/-- `n` unfiltered pulls of a client: each is sent the `up_to_transaction` of the last
one that succeeded, and a failed pull leaves the cursor where it was. -/
def pullChain (client : ClientId) : ℕ → Option TransactionId →
    Sql (List (Except ServerError PullResponse))
  | 0, _ => pure []
  | n + 1, cursor =>
      (pullChanges client ⟨cursor, none, none, none⟩).settle fun
        | .ok resp => do return .ok resp :: (← pullChain client n (some resp.upToTransaction))
        | .error e => do return .error e :: (← pullChain client n cursor)

/-- What a session does: session 0 makes the pulls, the others serve requests. -/
inductive Task where
  | pulls (n : ℕ)
  | serve (req : ServerRequest)

/-- What a session answers. -/
inductive TaskReply where
  | pulled (results : List (Except ServerError PullResponse))
  | served (reply : ServerReply)

/-- The program of a task. -/
def Task.program (client : ClientId) : Task → Sql TaskReply
  | .pulls n => do return .pulled (← pullChain client n none)
  | .serve req => do return .served (← Rustend.serve req)

/-- The database, and how far the pulls of session 0 have come. -/
structure Observed where
  db : Db
  /-- The cursor that the pull under way was sent. -/
  sent : ℕ
  /-- The largest id whose window has been queried: the `up_to` of the pull under way
  once it has selected the changed objects, the cursor before that. -/
  passed : ℕ
  /-- The transactions committed when the last pull started. -/
  visible : List TransactionRow

/-- What a statement of session 0 that left the database as `d` says about its pulls. -/
def Observed.after (s : Observed) (d : Db) (op : Stmt) (r : Except ServerError op.Res) : Observed :=
  match op, r with
  | .selectMaxTransactionId, _ => ⟨d, s.passed, s.passed, s.db.tables.transactions⟩
  | .selectChangedObjects _ upTo _, .ok _ => { s with db := d, passed := upTo.toNat }
  | _, .ok _ => { s with db := d }
  | _, .error _ => { s with db := d, passed := s.sent }

/-- PostgreSQL, with the pulls of session 0 observed. -/
def observed : Machine sql ServerError ℕ Outcome Observed where
  exec i ch op s := (s.db.exec i op ch).map fun x =>
    (x.1, if i = 0 then s.after x.2 op x.1 else { s with db := x.2 })

/-- Nothing has happened yet. -/
def Observed.empty : Observed := ⟨Db.empty, 0, 0, []⟩

/-- Pushes and pulls, with what has been observed of them. -/
abbrev ObservedConfig := Config sql ServerError ℕ Task TaskReply Observed

/-- Session 0 makes the pulls, and only session 0. -/
def Roles (_ : ObservedConfig) : Label ℕ Outcome Task → Prop
  | .start i (.pulls _) => i = 0
  | .start i (.serve _) => i ≠ 0
  | .step .. => True

/-- A commit of session `i` takes effect on no transaction that the pulls of `client`
should return and have passed. -/
def AheadOfCursor (client : ClientId) (c : ObservedConfig) (i : ℕ) (ch : Outcome) : Prop :=
  c.pending i = some Stmt.commit → ch ≠ .fail → ∀ w ∈ c.shared.db.opened i,
    ∀ x ∈ w.transactions, x.clientId ≠ client → c.shared.passed < x.id

instance (client : ClientId) (c : ObservedConfig) (i : ℕ) (ch : Outcome) :
    Decidable (AheadOfCursor client c i ch) :=
  inferInstanceAs (Decidable (_ → _))

/-- The steps in which transactions commit ahead of the cursor. -/
def InOrder (client : ClientId) (c : ObservedConfig) : Label ℕ Outcome Task → Prop
  | .step i ch => AheadOfCursor client c i ch
  | .start i task => Roles c (.start i task)

instance (c : ObservedConfig) : DecidablePred (Roles c)
  | .start i (.pulls _) => inferInstanceAs (Decidable (i = 0))
  | .start i (.serve _) => inferInstanceAs (Decidable (i ≠ 0))
  | .step .. => inferInstanceAs (Decidable True)

instance (client : ClientId) (c : ObservedConfig) : DecidablePred (InOrder client c)
  | .step i ch => inferInstanceAs (Decidable (AheadOfCursor client c i ch))
  | .start i task => inferInstanceAs (Decidable (Roles c (.start i task)))

/-- Transaction `x` lists a revision of the object. -/
def Tables.Changes (t : Tables) (x : TransactionRow) (o : ObjectId) : Prop :=
  ∃ e ∈ t.transactionRevisions, e.transactionId = x.id ∧ t.StoredAs e.revisionId o

/-- Some pull that has come as far as transaction `x` returned the object. -/
def Returned (results : List (Except ServerError PullResponse)) (x : TransactionRow)
    (o : ObjectId) : Prop :=
  ∃ resp, .ok resp ∈ results ∧ x.id ≤ resp.upToTransaction.val ∧
    o ∈ resp.objectUpdates.map (·.objectId)

/-- The results of the pulls, when they have ended. -/
def ObservedConfig.results (c : ObservedConfig) :
    Option (List (Except ServerError PullResponse)) :=
  match c.procs 0 with
  | some (.pulls _, .done (.ok (.pulled results))) => some results
  | _ => none

/-- Once the last pull has succeeded, every object changed by a transaction that was
committed when it started, and that contains a revision not created by the client, has
been returned. -/
def NoneSkipped (client : ClientId) (c : ObservedConfig) : Prop :=
  ∀ results resp, c.results = some results → results.getLast? = some (.ok resp) →
    ∀ x ∈ c.shared.visible,
      (∃ e ∈ c.shared.db.tables.transactionRevisions, e.transactionId = x.id ∧
        ∃ row ∈ c.shared.db.tables.revisions, row.id = e.revisionId ∧ row.createdBy ≠ client) →
      ∀ o, c.shared.db.tables.Changes x o → Returned results x o

/-! ### What a commit adds -/

/-- The tables have grown, by transactions that the pulls of `client` need not return
or have not passed, and no old transaction lists more than it did. -/
structure GrowsAhead (client : ClientId) (passed : ℕ) (t t' : Tables) : Prop where
  grows : Grows t t'
  transactions : ∀ x ∈ t'.transactions, x ∈ t.transactions ∨ x.clientId = client ∨ passed < x.id
  listed : ∀ e ∈ t'.transactionRevisions, e ∈ t.transactionRevisions ∨
    ∀ x ∈ t.transactions, x.id ≠ e.transactionId

section Ahead

variable {client : ClientId} {passed : ℕ} {t t' t'' : Tables}

theorem GrowsAhead.refl (t : Tables) : GrowsAhead client passed t t :=
  ⟨.refl t, fun _ hx => .inl hx, fun _ he => .inl he⟩

theorem GrowsAhead.trans (h : GrowsAhead client passed t t')
    (h' : GrowsAhead client passed t' t'') :
    GrowsAhead client passed t t'' := by
  refine ⟨h.grows.trans h'.grows, fun x hx => ?_, fun e he => ?_⟩
  · rcases h'.transactions x hx with hx | hx
    · exact h.transactions x hx
    · exact .inr hx
  · rcases h'.listed e he with he | he
    · exact h.listed e he
    · exact .inr fun x hx => he x (h.grows.transactions hx)

/-- An old transaction changes what it always did. -/
theorem GrowsAhead.changes (h : GrowsAhead client passed t t') (ht : WellFormed t)
    (ht' : WellFormed t') {x : TransactionRow} (hx : x ∈ t.transactions) {o : ObjectId}
    (ho : t'.Changes x o) : t.Changes x o := by
  obtain ⟨e, he, hex, hs⟩ := ho
  rcases h.listed e he with he | he
  · obtain ⟨-, -, -, row, hrow, hid, -⟩ := ht.author e he
    have hst : t.StoredAs e.revisionId row.objectId := ⟨row, hrow, hid, rfl⟩
    rw [ht'.storedAs_unique hs (h.grows.storedAs hst)]
    exact ⟨e, he, hex, hst⟩
  · exact absurd hex.symm (he x hx)

/-- What the transactions of others up to `n` change has been dealt with, as `D` says. -/
def Covered (client : ClientId) (n : ℕ) (D : TransactionRow → ObjectId → Prop) (t : Tables) :
    Prop :=
  ∀ x ∈ t.transactions, x.clientId ≠ client → x.id ≤ n → ∀ o, t.Changes x o → D x o

theorem Covered.mono {n : ℕ} {D D' : TransactionRow → ObjectId → Prop} (h : Covered client n D t)
    (hD : ∀ x o, x.id ≤ n → D x o → D' x o) : Covered client n D' t :=
  fun x hx hc hn o ho => hD x o hn (h x hx hc hn o ho)

/-- **Commits ahead of the cursor leave nothing behind it to deal with.** -/
theorem Covered.growsAhead {n : ℕ} {D : TransactionRow → ObjectId → Prop}
    (h : Covered client n D t) (hn : n ≤ passed) (ht : WellFormed t) (ht' : WellFormed t')
    (hg : GrowsAhead client passed t t') : Covered client n D t' := by
  intro x hx hc hxn o ho
  rcases hg.transactions x hx with hx | hx | hx
  · exact h x hx hc hxn o (hg.changes ht ht' hx ho)
  · exact absurd hx hc
  · omega

end Ahead

/-- Only a commit changes the committed transactions. -/
theorem Stmt.eval_transactions (op : Stmt) (c : Conn) :
    (op.eval c).2.tables.transactions = c.tables.transactions ∨ op = .commit ∧ ∃ w,
      c.tx = some w ∧
        (op.eval c).2.tables.transactions = c.tables.transactions ++ w.transactions := by
  have hwrite : ∀ f, (c.write f).2.tables = c.tables := by
    intro f
    rw [Conn.write]
    split
    · rfl
    · split <;> rfl
  cases op with
  | commit =>
    cases htx : c.tx with
    | none => exact .inl (by simp [Stmt.eval, htx])
    | some w => exact .inr ⟨rfl, w, rfl, by simp [Stmt.eval, htx, Tables.view]⟩
  | upsertClient id => left; simp only [Stmt.eval]; split <;> rfl
  | insertTransaction client =>
    left
    simp only [Stmt.eval, Conn.insertTransaction]
    split
    · rfl
    · split
      · rfl
      · split <;> rfl
  | selectHeads o => left; simp only [Stmt.eval]; split <;> rfl
  | insertRevision row => exact .inl (congrArg _ (hwrite _))
  | insertRevisionParent row => exact .inl (congrArg _ (hwrite _))
  | deleteHeads o ids => exact .inl (congrArg _ (hwrite _))
  | insertHead row => exact .inl (congrArg _ (hwrite _))
  | insertTransactionRevision row => exact .inl (congrArg _ (hwrite _))
  | _ => exact .inl rfl

theorem Db.exec_transactions {d d' : Db} {i : ℕ} {op : Stmt} {ch : Outcome}
    {r : Except ServerError op.Res} (h : d.exec i op ch = some (r, d')) :
    d'.tables.transactions = d.tables.transactions ∨ op = .commit ∧ ch ≠ .fail ∧
      ∃ w ∈ d.opened i, d'.tables.transactions = d.tables.transactions ++ w.transactions := by
  cases ch with
  | proceed =>
    simp only [Db.exec] at h
    split at h
    · cases h
    · cases h
      rcases op.eval_transactions (d.conn i) with h | ⟨rfl, w, hw, h⟩
      · exact .inl h
      · exact .inr ⟨rfl, by decide, w, hw, h⟩
  | fail =>
    simp only [Db.exec] at h
    split at h <;> cases h <;> exact .inl rfl
  | lost =>
    simp only [Db.exec] at h
    split at h
    · cases h
      rcases op.eval_transactions (d.conn i) with h | ⟨rfl, w, hw, h⟩
      · exact .inl h
      · exact .inr ⟨rfl, by decide, w, hw, h⟩
    · cases h

/-- A request lists revisions under transactions of its own only. -/
theorem ServerRequest.Effect.listed {req : ServerRequest} {t t' : Tables} (h : req.Effect t t') :
    ∀ e ∈ t'.transactionRevisions, e ∈ t.transactionRevisions ∨
      ∀ x ∈ t.transactions, x.id ≠ e.transactionId := by
  have hkeep : t'.transactionRevisions = t.transactionRevisions → ∀ e ∈ t'.transactionRevisions,
      e ∈ t.transactionRevisions ∨ ∀ x ∈ t.transactions, x.id ≠ e.transactionId :=
    fun heq e he => .inl (heq ▸ he)
  cases req with
  | register client => rcases h with h | h <;> exact hkeep (by rw [h])
  | pull client req => exact hkeep (by rw [h])
  | getObject o => exact hkeep (by rw [h])
  | push client revisions =>
    rcases h with h | ⟨n, batch, -, hv, ha⟩
    · exact hkeep (by rw [h])
    · intro e he
      rw [ha.transactionRevisions] at he
      rcases List.mem_append.mp he with he | he
      · exact .inl he
      · obtain ⟨rev, -, rfl⟩ := List.mem_map.mp he
        exact .inr hv.txn_fresh

/-! ### The sessions -/

/-- Session 0 among others, which leave what is observed of it alone and commit ahead
of the cursor. -/
def pullerEnv (client : ClientId) : Env sql ServerError Observed where
  exec op s r s' := ∃ ch d, s.db.exec 0 op ch = some (r, d) ∧ s' = s.after d op r
  rely s s' := s'.sent = s.sent ∧ s'.passed = s.passed ∧ s'.visible = s.visible ∧
    (DbInv s.db → DbInv s'.db ∧ GrowsAhead client s.passed s.db.tables s'.db.tables)
  guar s s' := DbInv s.db → DbInv s'.db ∧ Grows s.db.tables s'.db.tables ∧
    ∀ j, j ≠ 0 → s'.db.opened j = s.db.opened j
  rely_refl _ := ⟨rfl, rfl, rfl, fun h => ⟨h, .refl _⟩⟩
  rely_trans s₁ s₂ s₃ h h' := by
    obtain ⟨hs, hp, hv, h⟩ := h
    obtain ⟨hs', hp', hv', h'⟩ := h'
    refine ⟨hs'.trans hs, hp'.trans hp, hv'.trans hv, fun hd => ?_⟩
    obtain ⟨hd₂, hg⟩ := h hd
    obtain ⟨hd₃, hg'⟩ := h' hd₂
    exact ⟨hd₃, hg.trans (hp ▸ hg')⟩

/-- Session `i` that does `effect` to the committed tables, committing ahead of the
cursor. -/
def serverEnv (client : ClientId) (i : ℕ) (effect : Tables → Tables → Prop) :
    Env sql ServerError Observed where
  exec op s r s' := ∃ ch d, s.db.exec i op ch = some (r, d) ∧ s' = { s with db := d } ∧
    (op = .commit → ch ≠ .fail → ∀ w ∈ s.db.opened i, ∀ x ∈ w.transactions,
      x.clientId ≠ client → s.passed < x.id)
  rely s s' := (sessionEnv False i effect).rely s.db s'.db
  guar s s' := s'.sent = s.sent ∧ s'.passed = s.passed ∧ s'.visible = s.visible ∧
    (DbInv s.db → DbInv s'.db ∧ GrowsAhead client s.passed s.db.tables s'.db.tables ∧
      ∀ j, j ≠ i → s'.db.opened j = s.db.opened j)
  rely_refl _ := (sessionEnv False i effect).rely_refl _
  rely_trans _ _ _ := (sessionEnv False i effect).rely_trans _ _ _

/-- **A request is served within the guarantee of its session.** -/
theorem safe_serve (client : ClientId) (i : ℕ) (req : ServerRequest) {s : Observed}
    (hinv : DbInv s.db) (ho : s.db.opened i = none) :
    Safe (serverEnv client i req.Effect) (fun _ _ => True) (Task.program client (.serve req))
      s := by
  have hserve : Keeps (sessionEnv False i req.Effect) (Idle i)
      (Task.program client (.serve req)) :=
    Keeps.bind stable_idle (keepsIdle_serve req) fun _ => Keeps.done stable_idle _
  refine Safe.mono (fun _ _ _ => trivial)
    (Safe.lift (F := serverEnv client i req.Effect) Observed.db
    ?_ (fun _ _ h => h) ?_ (hserve s.db ⟨hinv, ho⟩))
  · rintro op t r t' ⟨ch, d, hx, rfl, -⟩
    exact ⟨ch, False.elim, hx⟩
  · rintro op t r t' ⟨ch, d, hx, rfl, hahead⟩ hg
    refine ⟨rfl, rfl, rfl, fun hd => ?_⟩
    obtain ⟨hd', hgr, hop, heff⟩ := hg hd
    refine ⟨hd', ⟨hgr, fun x hxm => ?_, heff.listed⟩, hop⟩
    rcases Db.exec_transactions hx with htx | ⟨hc, hch, w, hw, htx⟩
    · exact .inl (htx ▸ hxm)
    · rw [htx] at hxm
      rcases List.mem_append.mp hxm with hxm | hxm
      · exact .inl hxm
      · exact .inr (or_iff_not_imp_left.mpr (hahead hc hch w hw x hxm))

/-! ### What the puller knows -/

/-- Between two pulls: everything up to the cursor `n` has been returned, and if the
last pull succeeded, that is everything that was committed when it started. -/
structure Caught (client : ClientId) (got : List (Except ServerError PullResponse)) (n : ℕ)
    (s : Observed) : Prop where
  inv : DbInv s.db
  passed : s.passed = n
  le_max : n ≤ s.db.tables.maxTransactionId
  covered : Covered client n (Returned got) s.db.tables
  last : ∀ resp, got.getLast? = some (.ok resp) → ∀ x ∈ s.visible,
    x ∈ s.db.tables.transactions ∧ x.id ≤ n

/-- During a pull from `since` up to `upTo`: everything up to `since` has been
returned, everything up to `n` is dealt with as `D` says, and `K` holds of the tables. -/
structure Pulling (client : ClientId) (got : List (Except ServerError PullResponse))
    (since upTo n : ℕ) (D : TransactionRow → ObjectId → Prop) (K : Tables → Prop)
    (s : Observed) : Prop where
  inv : DbInv s.db
  sent : s.sent = since
  passed : s.passed = n
  since_le : since ≤ n
  le_upTo : n ≤ upTo
  upTo_le : upTo ≤ s.db.tables.maxTransactionId
  returned : Covered client since (Returned got) s.db.tables
  covered : Covered client n D s.db.tables
  visible : ∀ x ∈ s.visible, x ∈ s.db.tables.transactions ∧ x.id ≤ upTo
  known : K s.db.tables

theorem Grows.maxTransactionId_le {t t' : Tables} (h : Grows t t') :
    t.maxTransactionId ≤ t'.maxTransactionId :=
  Tables.maxTransactionId_le_iff.mpr fun x hx =>
    Tables.maxTransactionId_le_iff.mp le_rfl x (h.transactions hx)

theorem Returned.append {got : List (Except ServerError PullResponse)} {x : TransactionRow}
    {o : ObjectId} (h : Returned got x o) (r : Except ServerError PullResponse) :
    Returned (got ++ [r]) x o :=
  let ⟨resp, hresp, h⟩ := h; ⟨resp, List.mem_append_left _ hresp, h⟩

section Puller

variable {client : ClientId} {got : List (Except ServerError PullResponse)} {since upTo n : ℕ}
  {D : TransactionRow → ObjectId → Prop} {K : Tables → Prop} {s s' : Observed}

theorem stable_caught : Stable (pullerEnv client) (Caught client got n) := by
  rintro s s' ⟨-, hp, hv, hr⟩ h
  obtain ⟨hd, hg⟩ := hr h.inv
  rw [h.passed] at hg hp
  refine ⟨hd, hp, h.le_max.trans hg.grows.maxTransactionId_le,
    h.covered.growsAhead le_rfl h.inv.tables hd.tables hg, fun resp hresp x hx => ?_⟩
  rw [hv] at hx
  exact ⟨hg.grows.transactions (h.last resp hresp x hx).1, (h.last resp hresp x hx).2⟩

theorem stable_pulling (hK : Lasting none K) :
    Stable (pullerEnv client) (Pulling client got since upTo n D K) := by
  rintro s s' ⟨hs, hp, hv, hr⟩ h
  obtain ⟨hd, hg⟩ := hr h.inv
  rw [h.passed] at hg hp
  refine ⟨hd, hs.trans h.sent, hp, h.since_le, h.le_upTo,
    h.upTo_le.trans hg.grows.maxTransactionId_le,
    h.returned.growsAhead h.since_le h.inv.tables hd.tables hg,
    h.covered.growsAhead le_rfl h.inv.tables hd.tables hg, fun x hx => ?_,
    hK _ _ h.inv.tables hd.tables hg.grows nofun h.known⟩
  rw [hv] at hx
  exact ⟨hg.grows.transactions (h.visible x hx).1, (h.visible x hx).2⟩

/-- A pull that failed leaves the cursor where it was. -/
theorem Pulling.failed {e : ServerError} (h : Pulling client got since upTo n D K s) {d : Db}
    (hd : DbInv d) (ht : d.tables = s.db.tables) :
    Caught client (got ++ [.error e]) since { s with db := d, passed := s.sent } := by
  refine ⟨hd, h.sent, ?_, ?_, fun resp hresp => by simp at hresp⟩
  · exact ht ▸ h.since_le.trans (h.le_upTo.trans h.upTo_le)
  · exact ht ▸ h.returned.mono fun x o _ hx => hx.append _

/-- A read of session 0. -/
theorem pullerEnv_read (op : Stmt) (hop : op.plain = true) {q : Tables → op.Res}
    (hq : ∀ c, op.eval c = (.ok (q c.tables), c)) (hinv : DbInv s.db)
    {r : Except ServerError op.Res} (hx : (pullerEnv client).exec op s r s') :
    (pullerEnv client).guar s s' ∧ ∃ d, s' = s.after d op r ∧ DbInv d ∧
      d.tables = s.db.tables ∧ (r = .ok (q s.db.tables) ∨ ∃ e, r = .error e) := by
  obtain ⟨ch, d, hx, rfl⟩ := hx
  have hafter : ∀ r : Except ServerError op.Res, (s.after d op r).db = d := by
    intro r
    unfold Observed.after
    split <;> rfl
  have hat : At False s.db.tables 0 0 (s.db.opened 0) (fun _ => True) s.db :=
    ⟨hinv, rfl, trivial, False.elim⟩
  have hd : d = s.db ∨ d = s.db.withConn 0 (s.db.conn 0) :=
    Db.exec_read hop (fun c => congrArg Prod.snd (hq c)) hx
  obtain ⟨hg, hk⟩ := hat.kept (fun _ => rfl) hd
  refine ⟨fun h => ?_, d, rfl, hk.inv, ?_, ?_⟩
  · rw [hafter]
    exact ⟨(hg h).1, (hg h).2.1, (hg h).2.2.1⟩
  · rcases hd with rfl | rfl <;> rfl
  · rcases Db.exec_cases hx with ⟨-, rfl, -⟩ | ⟨-, rfl, -⟩
    · rw [hq]; exact .inl rfl
    · exact .inr ⟨_, rfl⟩

/-- The statements of a pull after the changed objects are known. -/
theorem triple_pull_read (op : Stmt) (hop : op.plain = true) {q : Tables → op.Res}
    (hq : ∀ c, op.eval c = (.ok (q c.tables), c))
    (hafter : ∀ (s : Observed) d a, s.after d op (.ok a) = { s with db := d })
    (herror : ∀ (s : Observed) d e, s.after d op (.error e) = { s with db := d, passed := s.sent })
    {Q : op.Res → Tables → Prop} (hK : Lasting none K) (hQ : ∀ a, Lasting none (Q a))
    (h : ∀ t, WellFormed t → K t → Q (q t) t) :
    Triple (pullerEnv client) (Pulling client got since upTo n D K) (.perform (S := sql) op)
      (Ends (fun a => Pulling client got since upTo n D (Q a))
        fun e => Caught client (got ++ [.error e]) since) := by
  refine Triple.perform (stable_pulling hK) ?_ ?_
  · rintro (e | a)
    · exact stable_caught
    · exact stable_pulling (hQ a)
  · intro s r s' hs hx
    obtain ⟨hg, d, rfl, hd, ht, hr⟩ := pullerEnv_read op hop hq hs.inv hx
    refine ⟨hg, ?_⟩
    rcases hr with rfl | ⟨e, rfl⟩
    · rw [hafter]
      exact { hs with
        inv := hd
        upTo_le := ht ▸ hs.upTo_le
        returned := ht ▸ hs.returned
        covered := ht ▸ hs.covered
        visible := ht ▸ hs.visible
        known := ht.symm ▸ h _ hs.inv.tables hs.known }
    · rw [herror]
      exact hs.failed hd ht

/-- A pull starts: the largest committed id becomes its `up_to`. -/
theorem triple_latestTransactionId :
    Triple (pullerEnv client) (Caught client got n) latestTransactionId
      (Ends (fun upTo => Pulling client got n upTo.val n (Returned got) fun _ => True)
        fun e => Caught client (got ++ [.error e]) n) := by
  have hmax : Triple (pullerEnv client) (Caught client got n)
      (.perform (S := sql) .selectMaxTransactionId)
      (Ends (fun (m : ℕ) => Pulling client got n m n (Returned got) fun _ => True)
        fun e => Caught client (got ++ [.error e]) n) := by
    refine Triple.perform stable_caught ?_ ?_
    · rintro (e | a)
      · exact stable_caught
      · exact stable_pulling (.const True)
    · intro s r s' hs hx
      obtain ⟨hg, d, rfl, hd, ht, hr⟩ := pullerEnv_read .selectMaxTransactionId
        (q := Tables.maxTransactionId) rfl (fun _ => rfl) hs.inv hx
      refine ⟨hg, ?_⟩
      rcases hr with rfl | ⟨e, rfl⟩
      -- what is committed now is visible to this pull
      · exact
          { inv := hd
            sent := hs.passed
            passed := hs.passed
            since_le := le_rfl
            le_upTo := hs.le_max
            upTo_le := ht.symm ▸ le_rfl
            returned := ht.symm ▸ hs.covered
            covered := ht.symm ▸ hs.covered
            visible := fun x hx => ⟨ht.symm ▸ hx, Tables.maxTransactionId_le_iff.mp le_rfl x hx⟩
            known := trivial }
      · exact
          { inv := hd
            passed := hs.passed
            le_max := ht.symm ▸ hs.le_max
            covered := ht.symm ▸ hs.covered.mono fun x o _ hx => hx.append _
            last := fun resp hresp => by simp at hresp }
  exact Triple.seq hmax
    (fun m => Triple.done (stable_pulling (.const True)) fun s hs => hs) (fun _ => stable_caught)
    fun _ _ hs => hs

/-- What is known of the changed objects: each has a stored revision. -/
def Changed (changed : List ObjectId) (t : Tables) : Prop :=
  changed.Nodup ∧ ∀ o ∈ changed, ∃ r, t.StoredAs r o

theorem Changed.lasting (changed : List ObjectId) : Lasting none (Changed changed) :=
  lasting_of_grows fun _ _ hg h =>
    ⟨h.1, fun o ho => (h.2 o ho).imp fun _ hr => hg.storedAs hr⟩

/-- The window of a pull is queried: from now on its transactions are passed. -/
theorem triple_selectChangedObjects :
    Triple (pullerEnv client) (Pulling client got n upTo n (Returned got) fun _ => True)
      (.perform (S := sql) (.selectChangedObjects n upTo client))
      (Ends (fun (changed : List ObjectId) => Pulling client got n upTo upTo
          (fun x o => Returned got x o ∨ o ∈ changed) (Changed changed))
        fun e => Caught client (got ++ [.error e]) n) := by
  refine Triple.perform (stable_pulling (.const True)) ?_ ?_
  · rintro (e | a)
    · exact stable_caught
    · exact stable_pulling (Changed.lasting a)
  · intro s r s' hs hx
    obtain ⟨hg, d, rfl, hd, ht, hr⟩ := pullerEnv_read
      (.selectChangedObjects n upTo client) (q := fun t => t.changedObjects n upTo client) rfl
      (fun _ => rfl) hs.inv hx
    refine ⟨hg, ?_⟩
    rcases hr with rfl | ⟨e, rfl⟩
    · have hwf := hs.inv.tables
      refine { hs with
        inv := hd
        passed := Int.toNat_natCast upTo
        since_le := hs.le_upTo
        le_upTo := le_rfl
        upTo_le := ht ▸ hs.upTo_le
        returned := ht ▸ hs.returned
        covered := ht.symm ▸ fun x hxm hc hxu o ho => ?_
        visible := ht ▸ hs.visible
        known := ht.symm ▸ ⟨Tables.changedObjects_nodup _ _ _ _, fun o ho => ?_⟩ }
      · -- a transaction up to the old cursor has been returned; a later one is in the window
        by_cases hxn : x.id ≤ n
        · exact .inl (hs.returned x hxm hc hxn o ho)
        · obtain ⟨e, he, hex, row, hrow, hid, hro⟩ := ho
          obtain ⟨y, hy, hye, row', hrow', hid', hby⟩ := hwf.author e he
          have hxy : y = x := List.inj_on_of_nodup_map hwf.txn_ids hy hxm (hye.trans hex)
          have hrr : row' = row := hwf.row_unique hrow' hrow (hid'.trans hid.symm)
          subst hxy hrr
          refine .inr (Tables.mem_changedObjects.mpr ⟨row', hrow', hro, ?_, e, he, hid.symm, y,
            hy, hye, ?_, ?_⟩)
          · rw [hby]; exact hc
          · exact_mod_cast Nat.lt_of_not_le hxn
          · exact_mod_cast hxu
      · obtain ⟨row, hrow, hro, -⟩ := Tables.mem_changedObjects.mp ho
        exact ⟨row.id, row, hrow, rfl, hro⟩
    · exact hs.failed hd ht

/-- Every changed object has a head among the rows read, and every head is stored. -/
def Headed (changed : List ObjectId) (headRows : List HeadRow) (t : Tables) : Prop :=
  (changed.Nodup ∧ (headRows.map (·.revisionId)).Nodup ∧
    ∀ o ∈ changed, ∃ h ∈ headRows, h.objectId = o) ∧ ∀ h ∈ headRows, t.Stored h.revisionId

theorem Headed.lasting (changed : List ObjectId) (headRows : List HeadRow) :
    Lasting none (Headed changed headRows) :=
  lasting_of_grows fun _ _ hg h => ⟨h.1, fun x hx => hg.stored (h.2 x hx)⟩

theorem Changed.headed {changed : List ObjectId} {t : Tables} (h : Changed changed t)
    (ht : WellFormed t) : Headed changed (t.objectHeads.filter (·.objectId ∈ changed)) t := by
  refine ⟨⟨h.1, ht.changedHeads_nodup changed, fun o ho => ?_⟩, fun x hx => ?_⟩
  · obtain ⟨r, hr⟩ := h.2 o ho
    obtain ⟨y, hy, -⟩ := ht.exists_head hr
    exact ⟨⟨o, y⟩, List.mem_filter.mpr ⟨hy, decide_eq_true ho⟩, rfl⟩
  · exact (ht.head_storedAs (List.mem_filter.mp hx).1).stored

/-- The rows read have distinct ids, and every head has one. -/
structure Fetched (changed : List ObjectId) (headRows : List HeadRow) (rows : List RevisionRow) :
    Prop where
  changed_nodup : changed.Nodup
  heads_nodup : (headRows.map (·.revisionId)).Nodup
  heads : ∀ o ∈ changed, ∃ h ∈ headRows, h.objectId = o
  rows_nodup : (rows.map (·.id)).Nodup
  rows : ∀ h ∈ headRows, ∃ row ∈ rows, row.id = h.revisionId

theorem Headed.fetched {changed : List ObjectId} {headRows : List HeadRow} {t : Tables}
    (h : Headed changed headRows t) (ht : WellFormed t) :
    Fetched changed headRows (t.revisions.filter (·.id ∈ headRows.map (·.revisionId))) := by
  refine ⟨h.1.1, h.1.2.1, h.1.2.2, ht.ids.sublist (List.filter_sublist.map _), fun x hx => ?_⟩
  obtain ⟨row, hrow, hid⟩ := h.2 x hx
  refine ⟨row, List.mem_filter.mpr ⟨hrow, decide_eq_true ?_⟩, hid⟩
  exact hid ▸ List.mem_map_of_mem hx

/-- Without filters, every changed object is returned. -/
theorem Fetched.mem_assembleUpdates {changed : List ObjectId} {headRows : List HeadRow}
    {rows : List RevisionRow} (h : Fetched changed headRows rows)
    (parents : RevisionId → Option (List RevisionId)) {o : ObjectId} (ho : o ∈ changed) :
    o ∈ (assembleUpdates (headPasses none none none) changed headRows rows parents).map
      (·.objectId) := by
  obtain ⟨x, hx, hxo⟩ := h.heads o ho
  obtain ⟨row, hrow, hid⟩ := h.rows x hx
  have hpass : headPasses none none none row = true := by
    simp only [headPasses]
    cases row.data <;> rfl
  have hp : anyPasses (headPasses none none none) (rowsMap rows)
      ((headRows.filter fun h => h.objectId = o).map (·.revisionId)) = true :=
    anyPasses_iff.mpr ⟨x.revisionId,
      List.mem_map_of_mem (List.mem_filter.mpr ⟨hx, decide_eq_true hxo⟩), row,
      (rowsMap_eq_some h.rows_nodup).mpr ⟨hrow, hid⟩, hpass⟩
  rw [assembleUpdates_eq h.changed_nodup h.heads_nodup]
  exact List.mem_map.mpr
    ⟨_, List.mem_filterMap.mpr ⟨o, ho, by rw [objectUpdate, if_pos hp]⟩, rfl⟩

/-- A pull that has returned every changed object has caught up. -/
theorem Pulling.caught {changed : List ObjectId} {updates : List ObjectUpdate}
    (h : Pulling client got n upTo upTo (fun x o => Returned got x o ∨ o ∈ changed) K s)
    (hall : ∀ o ∈ changed, o ∈ updates.map (·.objectId)) :
    Caught client (got ++ [.ok ⟨⟨upTo⟩, updates⟩]) upTo s where
  inv := h.inv
  passed := h.passed
  le_max := h.upTo_le
  covered := h.covered.mono fun x o hx ho => by
    rcases ho with ho | ho
    · exact ho.append _
    · exact ⟨_, List.mem_append_right _ (List.mem_singleton_self _), hx, hall o ho⟩
  last := fun _ _ => h.visible

theorem triple_pull_fetch {cursor : Option TransactionId} (hn : (cursor.map (·.val)).getD 0 = n) :
    Triple (pullerEnv client) (Pulling client got n upTo n (Returned got) fun _ => True)
      (fetchObjectUpdates client cursor ⟨upTo⟩ none none none)
      (Ends (fun updates => Caught client (got ++ [.ok ⟨⟨upTo⟩, updates⟩]) upTo)
        fun e => Caught client (got ++ [.error e]) n) := by
  have hstable : ∀ e, Stable (pullerEnv client) (Caught client (got ++ [.error e]) n) :=
    fun e => stable_caught
  -- the ids fit a `BIGINT`
  by_cases hlim : upTo ≤ i64Max ∧ n ≤ i64Max
  swap
  · intro s hs
    have hmax := hs.upTo_le.trans hs.inv.tables.maxTransactionId_le
    exact absurd ⟨hmax, hs.le_upTo.trans hmax⟩ hlim
  have hsince : (cursor.map fun t => asI64 t.val).getD 0 = (n : ℤ) := by
    rw [← hn]
    refine asI64_cursor fun t ht => ?_
    have : t.val = n := by rw [← hn, ht]; rfl
    rw [this]
    exact hlim.2
  rw [fetchObjectUpdates, hsince, if_neg (Nat.not_lt.mpr hlim.1)]
  refine Triple.seq triple_selectChangedObjects (fun changed => ?_) hstable fun _ _ h => h
  split
  · next hemp =>
    refine Triple.done (stable_pulling (Changed.lasting _)) fun s hs => ?_
    exact hs.caught fun o ho => by simp [List.isEmpty_iff.mp hemp] at ho
  have hheads : Triple (pullerEnv client)
      (Pulling client got n upTo upTo (fun x o => Returned got x o ∨ o ∈ changed) (Changed changed))
      (.perform (S := sql) (.selectHeadsOfObjects changed))
      (Ends (fun (headRows : List HeadRow) => Pulling client got n upTo upTo
        (fun x o => Returned got x o ∨ o ∈ changed) (Headed changed headRows))
        fun e => Caught client (got ++ [.error e]) n) :=
    triple_pull_read (.selectHeadsOfObjects changed) rfl (fun _ => rfl) (fun _ _ _ => rfl)
      (fun _ _ _ => rfl) (Changed.lasting _) (Headed.lasting _) fun t ht h => h.headed ht
  refine Triple.seq hheads (fun headRows => ?_) hstable fun _ _ h => h
  have hrows : Triple (pullerEnv client)
      (Pulling client got n upTo upTo (fun x o => Returned got x o ∨ o ∈ changed)
        (Headed changed headRows))
      (getRevisionRowsByIds (headRows.map (·.revisionId)))
      (Ends (fun (rows : List RevisionRow) => Pulling client got n upTo upTo
        (fun x o => Returned got x o ∨ o ∈ changed) fun _ => Fetched changed headRows rows)
        fun e => Caught client (got ++ [.error e]) n) :=
    triple_pull_read (.selectRevisionRows (headRows.map (·.revisionId))) rfl (fun _ => rfl)
      (fun _ _ _ => rfl) (fun _ _ _ => rfl) (Headed.lasting _ _) (fun _ => .const _)
      fun t ht h => h.fetched ht
  refine Triple.seq hrows (fun rows => ?_) hstable fun _ _ h => h
  have hparents : Triple (pullerEnv client)
      (Pulling client got n upTo upTo (fun x o => Returned got x o ∨ o ∈ changed)
        fun _ => Fetched changed headRows rows)
      (getParentsBatch (headRows.map (·.revisionId)))
      (Ends (fun _ => Pulling client got n upTo upTo
        (fun x o => Returned got x o ∨ o ∈ changed) fun _ => Fetched changed headRows rows)
        fun e => Caught client (got ++ [.error e]) n) := by
    rw [getParentsBatch]
    split
    · exact Triple.done (stable_pulling (.const _)) fun s hs => hs
    · exact Triple.seq (triple_pull_read (.selectParentsBatch (headRows.map (·.revisionId)))
        (q := fun t => t.parentsBatch (headRows.map (·.revisionId))) rfl (fun _ => rfl)
        (fun _ _ _ => rfl) (fun _ _ _ => rfl) (.const _) (fun _ => .const _) fun t ht h => h)
        (fun _ => Triple.done (stable_pulling (.const _)) fun s hs => hs) hstable fun _ _ h => h
  refine Triple.seq hparents (fun parents => ?_) hstable fun _ _ h => h
  exact Triple.done (stable_pulling (.const _)) fun s hs =>
    hs.caught fun o ho => hs.known.mem_assembleUpdates parents ho

/-- **One pull** catches up with what was committed when it started, or leaves the
cursor where it was. -/
theorem triple_pull {cursor : Option TransactionId} (hn : (cursor.map (·.val)).getD 0 = n) :
    Triple (pullerEnv client) (Caught client got n)
      (pullChanges client ⟨cursor, none, none, none⟩)
      (Ends (fun resp => Caught client (got ++ [.ok resp]) resp.upToTransaction.val)
        fun e => Caught client (got ++ [.error e]) n) := by
  by_cases hlim : n ≤ i64Max
  swap
  · exact fun s hs => absurd (hs.le_max.trans hs.inv.tables.maxTransactionId_le) hlim
  have hfits : (cursor.map fun since => decide (i64Max < since.val)).getD false = false := by
    cases cursor with
    | none => rfl
    | some t =>
      have : t.val = n := hn
      exact decide_eq_false (Nat.not_lt.mpr (this ▸ hlim))
  rw [pullChanges, if_neg (by simp [hfits])]
  refine Triple.seq triple_latestTransactionId (fun upTo => ?_) (fun _ => stable_caught)
    fun _ _ h => h
  exact Triple.seq (triple_pull_fetch hn) (fun updates => Triple.done stable_caught fun _ hs => hs)
    (fun _ => stable_caught) fun _ _ h => h

/-- **Any number of pulls.** -/
theorem triple_pullChain : ∀ (k : ℕ) {got : List (Except ServerError PullResponse)}
    {n : ℕ} {cursor : Option TransactionId}, (cursor.map (·.val)).getD 0 = n →
    Triple (pullerEnv client) (Caught client got n) (pullChain client k cursor)
      (Ends (fun results s => ∃ m, Caught client (got ++ results) m s) fun _ _ => True)
  | 0, got, n, cursor, hn =>
    Triple.done stable_caught fun s hs => ⟨n, by rwa [List.append_nil]⟩
  | k + 1, got, n, cursor, hn => by
    -- one more result in front of those of the remaining pulls
    have hrest : ∀ (r : Except ServerError PullResponse) {m : ℕ} {next : Option TransactionId},
        (next.map (·.val)).getD 0 = m → Triple (pullerEnv client) (Caught client (got ++ [r]) m)
          (do return r :: (← pullChain client k next))
          (Ends (fun results s => ∃ m, Caught client (got ++ results) m s) fun _ _ => True) := by
      intro r m next hm
      refine Triple.seq (triple_pullChain k hm) (fun results => ?_) (fun _ _ _ _ h => h)
        fun _ _ h => h
      refine Triple.exists_pre fun m' => Triple.done stable_caught fun s hs => ⟨m', ?_⟩
      rwa [List.append_assoc] at hs
    refine Triple.settle (triple_pull hn) ?_
    rintro (e | resp)
    · exact hrest (.error e) hn
    · exact hrest (.ok resp) rfl

end Puller

/-! ### The sessions together -/

/-- What a task does to the committed tables. -/
def Task.Effect : Task → Tables → Tables → Prop
  | .pulls _ => fun t t' => t' = t
  | .serve req => req.Effect

/-- The surroundings of a session. -/
def taskEnv (client : ClientId) (i : ℕ) (task : Task) : Env sql ServerError Observed :=
  if i = 0 then pullerEnv client else serverEnv client i task.Effect

/-- What a session ends with: the pulls have caught up. -/
def taskPost (client : ClientId) : Task → Except ServerError TaskReply → Observed → Prop
  | .pulls _, .ok (.pulled results) => fun s => ∃ n, Caught client results n s
  | _, _ => fun _ => True

theorem safe_pulls (client : ClientId) (k : ℕ) {s : Observed} (hinv : DbInv s.db)
    (hp : s.passed = 0) :
    Safe (pullerEnv client) (taskPost client (.pulls k)) (Task.program client (.pulls k)) s := by
  have hstart : Caught client [] 0 s :=
    { inv := hinv
      passed := hp
      le_max := Nat.zero_le _
      covered := fun x hx _ hx0 => absurd ((hinv.tables.txn_range x hx).1.trans hx0) (by omega)
      last := fun _ h => by cases h }
  have hchain : Triple (pullerEnv client) (Caught client [] 0) (Task.program client (.pulls k))
      (Ends (fun r s => taskPost client (.pulls k) (.ok r) s) fun _ _ => True) :=
    Triple.seq (triple_pullChain k rfl)
      (fun results => Triple.exists_pre fun m => Triple.done stable_caught fun s hs => ⟨m, hs⟩)
      (fun _ _ _ _ h => h) fun _ _ h => h
  refine Safe.mono (fun r s h => ?_) (hchain s hstart)
  cases r with
  | ok r => exact h
  | error e => trivial

theorem compatible_ahead (client : ClientId) :
    Compatible observed (Task.program client) (InOrder client) (taskEnv client)
      (fun s => DbInv s.db) (fun i s => s.db.opened i = none ∧ (i = 0 → s.passed = 0))
      (fun _ => taskPost client) where
  exec c i ch task op next r s' hl hp hx := by
    obtain ⟨⟨r', d⟩, hd, hs⟩ := Option.map_eq_some_iff.mp hx
    obtain ⟨rfl, rfl⟩ := Prod.mk.inj hs
    rw [taskEnv]
    split
    · next hi => subst hi; exact ⟨ch, d, hd, rfl⟩
    · next hi =>
      refine ⟨ch, d, hd, rfl, ?_⟩
      rintro rfl
      exact hl (Config.pending_eq hp)
  guar_rely i j task task' s s' hij hg := by
    rw [taskEnv] at hg ⊢
    -- session 0 pulls, the others are the server's
    by_cases hi : i = 0
    · have hj : j ≠ 0 := fun hj => hij (hi.trans hj.symm)
      rw [if_pos hi] at hg
      rw [if_neg hj]
      exact ⟨False.elim, fun hd => ⟨(hg hd).1, (hg hd).2.1, (hg hd).2.2 j hj⟩⟩
    · rw [if_neg hi] at hg
      obtain ⟨hs, hp, hv, hg⟩ := hg
      by_cases hj : j = 0
      · rw [if_pos hj]
        exact ⟨hs, hp, hv, fun hd => ⟨(hg hd).1, (hg hd).2.1⟩⟩
      · rw [if_neg hj]
        exact ⟨False.elim, fun hd => ⟨(hg hd).1, (hg hd).2.1.grows, (hg hd).2.2 j (Ne.symm hij)⟩⟩
  guar_inv i task s s' hg hd := by
    rw [taskEnv] at hg
    split at hg
    · exact (hg hd).1
    · exact (hg.2.2.2 hd).1
  guar_idle i j task s s' hij hg hd hidle := by
    rw [taskEnv] at hg
    by_cases hi : i = 0
    · have hj : j ≠ 0 := fun hj => hij (hi.trans hj.symm)
      rw [if_pos hi] at hg
      exact ⟨((hg hd).2.2 j hj).trans hidle.1, fun h => absurd h hj⟩
    · rw [if_neg hi] at hg
      obtain ⟨-, hp, -, hg⟩ := hg
      exact ⟨((hg hd).2.2 j (Ne.symm hij)).trans hidle.1, fun h => hp.trans (hidle.2 h)⟩
  start c i task hl hinv hidle := by
    rw [taskEnv]
    cases task with
    | pulls k =>
      have hi : i = 0 := hl
      rw [if_pos hi]
      exact safe_pulls client k hinv (hidle.2 hi)
    | serve req =>
      have hi : i ≠ 0 := hl
      rw [if_neg hi]
      exact (safe_serve client i req hinv hidle.1).mono fun r s _ => trivial

/-- **When transactions commit ahead of the cursor, none is skipped**: in every run
in which every transaction of another client commits with an id that the pulls have
not passed, whatever was committed when a successful pull started has been returned
when it ends. -/
theorem none_skipped (client : ClientId) {c : ObservedConfig}
    (hc : Reachable observed (Task.program client) (InOrder client) Observed.empty c) :
    NoneSkipped client c := by
  have hsafe := hc.safe (compatible_ahead client) DbInv.empty fun i => ⟨rfl, fun _ => rfl⟩
  intro results resp hres hlast x hx hother o ho
  unfold ObservedConfig.results at hres
  split at hres
  · next k rs hp =>
    cases hres
    obtain ⟨n, hcaught⟩ := hsafe.safe 0 _ _ hp _ (Env.rely_refl _ _)
    obtain ⟨hxm, hxn⟩ := hcaught.last resp hlast x hx
    refine hcaught.covered x hxm ?_ hxn o ho
    -- a transaction lists the revisions of its own client only
    obtain ⟨e, he, hex, row, hrow, hid, hby⟩ := hother
    have hwf := hcaught.inv.tables
    obtain ⟨y, hy, hye, row', hrow', hid', hby'⟩ := hwf.author e he
    have hxy : y = x := List.inj_on_of_nodup_map hwf.txn_ids hy hxm (hye.trans hex)
    have hrr : row' = row := hwf.row_unique hrow' hrow (hid'.trans hid.symm)
    rw [← hxy, ← hby', hrr]
    exact hby
  · cases hres

/-! ### Two runs -/

/-- A push of client 7 to the object `o`. -/
def pushNew (r o : BitVec 128) : Task :=
  .serve (.push ⟨⟨7⟩⟩ [⟨⟨⟨r⟩⟩, ⟨⟨o⟩⟩, "note", .root, 0, ⟨⟨7⟩⟩, .active .null⟩])

/-- Client 8 pulls after each of two pushes. -/
def aheadLabels : List (Label ℕ Outcome Task) :=
  [.start 1 (.serve (.register ⟨⟨7⟩⟩)), .step 1 .proceed,
    .start 2 (pushNew 1 10), .start 3 (pushNew 2 20), .start 0 (.pulls 2)] ++
    Run.proceeds 2 7 ++ Run.proceeds 0 5 ++ Run.proceeds 3 7 ++ Run.proceeds 0 5

theorem none_skipped_ahead : ∃ c : ObservedConfig,
    Reachable observed (Task.program ⟨⟨8⟩⟩) (InOrder ⟨⟨8⟩⟩) Observed.empty c ∧
    c.shared.visible = [⟨1, ⟨⟨7⟩⟩⟩, ⟨2, ⟨⟨7⟩⟩⟩] ∧ c.results.isSome ∧ NoneSkipped ⟨⟨8⟩⟩ c := by
  have h : ((Config.init Observed.empty).runChecked observed (Task.program ⟨⟨8⟩⟩)
      (fun c l => decide (InOrder ⟨⟨8⟩⟩ c l)) aheadLabels).map (fun c =>
        (c.shared.visible, ObservedConfig.results c |>.isSome)) =
      some ([⟨1, ⟨⟨7⟩⟩⟩, ⟨2, ⟨⟨7⟩⟩⟩], true) := by decide +kernel
  obtain ⟨c, hc, hval⟩ := Option.map_eq_some_iff.mp h
  obtain ⟨hvis, hres⟩ := Prod.mk.inj hval
  have hrun : Reachable observed (Task.program ⟨⟨8⟩⟩) (InOrder ⟨⟨8⟩⟩) Observed.empty c :=
    Reachable.runChecked (fun _ _ => of_decide_eq_true) .init hc
  exact ⟨c, hrun, hvis, hres, none_skipped ⟨⟨8⟩⟩ hrun⟩

/-- One push draws id 1; another draws id 2 and commits; client 8 pulls; the first push
commits; client 8 pulls again. -/
def behindLabels : List (Label ℕ Outcome Task) :=
  [.start 1 (.serve (.register ⟨⟨7⟩⟩)), .step 1 .proceed,
    .start 2 (pushNew 1 10), .start 3 (pushNew 2 20), .start 0 (.pulls 2)] ++
    Run.proceeds 2 5 ++ Run.proceeds 3 7 ++ Run.proceeds 0 5 ++ Run.proceeds 2 2 ++
    Run.proceeds 0 2

/-- **A transaction that commits behind the cursor is skipped**: the object of the first
push was committed when the second pull started, and no pull ever returns it. -/
theorem skipped_behind_cursor : ∃ c : ObservedConfig,
    Reachable observed (Task.program ⟨⟨8⟩⟩) Roles Observed.empty c ∧ ¬ NoneSkipped ⟨⟨8⟩⟩ c ∧
    ∃ results, c.results = some results ∧ (∃ x ∈ c.shared.visible,
      c.shared.db.tables.Changes x ⟨⟨10⟩⟩) ∧
      ∀ resp, .ok resp ∈ results → ⟨⟨10⟩⟩ ∉ resp.objectUpdates.map (·.objectId) := by
  have h : ((Config.init Observed.empty).runChecked observed (Task.program ⟨⟨8⟩⟩)
      (fun c l => decide (Roles c l)) behindLabels).map (fun c => decide
        (c.shared.visible = [⟨2, ⟨⟨7⟩⟩⟩, ⟨1, ⟨⟨7⟩⟩⟩] ∧
          c.shared.db.tables.transactionRevisions = [⟨2, ⟨⟨2⟩⟩⟩, ⟨1, ⟨⟨1⟩⟩⟩] ∧
          (c.shared.db.tables.revisions.map fun row => (row.id, row.objectId, row.createdBy)) =
            [(⟨⟨2⟩⟩, ⟨⟨20⟩⟩, ⟨⟨7⟩⟩), (⟨⟨1⟩⟩, ⟨⟨10⟩⟩, ⟨⟨7⟩⟩)] ∧
          ((ObservedConfig.results c).map (·.map fun r =>
            r.toOption.map fun resp => resp.objectUpdates.map (·.objectId))) =
            some [some [⟨⟨20⟩⟩], some []])) = some true := by
    decide +kernel
  obtain ⟨c, hc, hval⟩ := Option.map_eq_some_iff.mp h
  obtain ⟨hvis, hlist, hrevs, hres⟩ := of_decide_eq_true hval
  have hrun : Reachable observed (Task.program ⟨⟨8⟩⟩) Roles Observed.empty c :=
    Reachable.runChecked (fun _ _ => of_decide_eq_true) .init hc
  obtain ⟨results, hresults, hmap⟩ := Option.map_eq_some_iff.mp hres
  obtain ⟨row, hrow, hrowval⟩ : ∃ row ∈ c.shared.db.tables.revisions,
      (row.id, row.objectId, row.createdBy) = (⟨⟨1⟩⟩, ⟨⟨10⟩⟩, ⟨⟨7⟩⟩) :=
    List.mem_map.mp (by rw [hrevs]; simp)
  simp only [Prod.mk.injEq] at hrowval
  obtain ⟨hid, hobj, hby⟩ := hrowval
  have hx : (⟨1, ⟨⟨7⟩⟩⟩ : TransactionRow) ∈ c.shared.visible := by rw [hvis]; simp
  have he : (⟨1, ⟨⟨1⟩⟩⟩ : TransactionRevisionRow) ∈ c.shared.db.tables.transactionRevisions := by
    rw [hlist]; simp
  have hchanges : c.shared.db.tables.Changes ⟨1, ⟨⟨7⟩⟩⟩ ⟨⟨10⟩⟩ :=
    ⟨_, he, rfl, row, hrow, hid, hobj⟩
  -- the two pulls return object 20, and nothing
  have hnot : ∀ resp, .ok resp ∈ results → ⟨⟨10⟩⟩ ∉ resp.objectUpdates.map (·.objectId) := by
    intro resp hresp
    have hm := List.mem_map_of_mem (f := fun r : Except ServerError PullResponse =>
      r.toOption.map fun resp => resp.objectUpdates.map (·.objectId)) hresp
    rw [hmap] at hm
    simp only [Except.toOption, Option.map_some, List.mem_cons, Option.some.injEq,
      List.not_mem_nil, or_false] at hm
    rcases hm with hm | hm <;> rw [hm] <;> decide
  obtain ⟨resp, hlast⟩ : ∃ resp, results.getLast? = some (.ok resp) := by
    have hl := congrArg List.getLast? hmap
    rw [List.getLast?_map] at hl
    obtain ⟨r, hr, hval⟩ := Option.map_eq_some_iff.mp hl
    cases r with
    | ok resp => exact ⟨resp, hr⟩
    | error e => cases hval
  refine ⟨c, hrun, fun hnone => ?_, results, hresults, ⟨_, hx, hchanges⟩, hnot⟩
  obtain ⟨resp', hresp', -, hmem⟩ := hnone results resp hresults hlast _ hx
    ⟨_, he, rfl, row, hrow, hid, by rw [hby]; decide⟩ _ hchanges
  exact hnot resp' hresp' hmem

end Rustend
