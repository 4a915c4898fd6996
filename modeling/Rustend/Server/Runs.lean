import Rustend.Server.PushSafe
import Rustend.Server.Pull

/-!
# Runs of the server

Any number of sessions serve requests at the same time, each the registration of a
client, a push, a pull or the read of an object, and their SQL statements
interleave in any order.  Every push is within its rely and guarantee, so whatever
holds of the tables after admissible commits holds in every reachable state.

## Main definitions

* `ServerRequest`, `serve` — what sessions serve.
* `Run` — the reachable configurations.

## Main results

* `Run.dbInv` — the invariant of the database holds in every run.
* `Run.heads_frontier` — **the head table is the frontier of the revision graph.**
* `Run.wellFormed_dag` — **the stored history is a well-formed graph per object.**
* `Run.authorship` — **every stored revision is in one transaction, by its author.**
-/

namespace Rustend

open Interleave Relation

/-! ### Requests -/

/-- What a session of the server serves. -/
inductive ServerRequest where
  /-- The registration of a client by the authentication layer. -/
  | register (client : ClientId)
  | push (client : ClientId) (revisions : List Revision)
  | pull (client : ClientId) (req : PullRequest)
  | getObject (objectId : ObjectId)

/-- What a session answers. -/
inductive ServerReply where
  | registered
  | pushed (resp : PushResponse)
  | pulled (resp : PullResponse)
  | object (update : ObjectUpdate)

/-- `upsert_client`. -/
def upsertClient (client : ClientId) : Sql Unit := .perform (S := sql) (.upsertClient client)

/-- The program that serves a request. -/
def serve : ServerRequest → Sql ServerReply
  | .register client => do
      upsertClient client
      return .registered
  | .push client revisions => do return .pushed (← pushRevisions client revisions)
  | .pull client req => do return .pulled (← pullChanges client req)
  | .getObject objectId => do return .object (← getObject objectId)

/-- What a request does to the committed tables. -/
def ServerRequest.Effect : ServerRequest → Tables → Tables → Prop
  | .register client => fun t t' => t' = t ∨ t' = { t with clients := t.clients ++ [client] }
  | .push client revisions => PushEffect client revisions
  | _ => fun t t' => t' = t

theorem ServerRequest.effect_refl (req : ServerRequest) (t : Tables) : req.Effect t t := by
  cases req with
  | register client => exact .inl rfl
  | push client revisions => exact .inl rfl
  | pull client req => rfl
  | getObject objectId => rfl

/-! ### Sessions that read -/

section Reads

variable {alone : Prop} {t₀ : Tables} {n₀ i : ℕ} {effect : Tables → Tables → Prop}

/-- A statement that leaves the connection as it was. -/
theorem triple_keep (heff : ∀ t, effect t t) {op : Stmt} (hop : op.plain = true)
    (hq : ∀ c, (op.eval c).2 = c) {tx : Option Writes} {P : Tables → Prop} (hP : Lasting tx P) :
    Triple (sessionEnv alone i effect) (At alone t₀ n₀ i tx P) (.perform (S := sql) op)
      (Ends (fun _ => At alone t₀ n₀ i tx P) fun _ => At alone t₀ n₀ i tx P) := by
  refine Triple.perform (stable_at hP) ?_ ?_
  · rintro (e | a) <;> exact stable_at hP
  · rintro d r d' hd ⟨ch, hch, hx⟩
    obtain ⟨hg, hk⟩ := hd.kept heff (Db.exec_read hop hq hx)
    rcases r with e | a
    · exact ⟨hg, hk⟩
    · exact ⟨hg, hk⟩

/-- The session has no transaction open. -/
abbrev Idle (i : ℕ) (d : Db) : Prop := DbInv d ∧ d.opened i = none

theorem stable_idle : Stable (sessionEnv alone i effect) (Idle i) := by
  rintro d d' ⟨-, hr⟩ ⟨hinv, ho⟩
  exact ⟨(hr hinv).1, (hr hinv).2.2.trans ho⟩

theorem keepsIdle_read (heff : ∀ t, effect t t) {op : Stmt} (hop : op.plain = true)
    (hq : ∀ c, (op.eval c).2 = c) :
    Keeps (sessionEnv False i effect) (Idle i) (.perform (S := sql) op) := by
  have h : Keeps (sessionEnv False i effect) (At False {} 0 i none fun _ => True)
      (.perform (S := sql) op) := triple_keep heff hop hq (.const True)
  exact (h.weaken (fun _ _ hd => ⟨hd.inv, hd.opened⟩) fun _ _ hd => ⟨hd.inv, hd.opened⟩).conseq
    (fun d hd => ⟨hd.1, hd.2, trivial, False.elim⟩) fun _ _ h => h

end Reads

section Serve

variable {i : ℕ} {effect : Tables → Tables → Prop}

theorem keepsIdle_getParentsBatch (heff : ∀ t, effect t t) (ids : List RevisionId) :
    Keeps (sessionEnv False i effect) (Idle i) (getParentsBatch ids) := by
  rw [getParentsBatch]
  split
  · exact Keeps.done stable_idle _
  · exact Keeps.bind stable_idle (keepsIdle_read heff rfl fun _ => rfl) fun _ =>
      Keeps.done stable_idle _

theorem keepsIdle_fetchObjectUpdates (heff : ∀ t, effect t t) (client : ClientId)
    (since : Option TransactionId) (upTo : TransactionId) (objectTypes : Option (List String))
    (createdAt : Option (List CreatedAtFilter)) (filter : Option (List (List FilterCondition))) :
    Keeps (sessionEnv False i effect) (Idle i)
      (fetchObjectUpdates client since upTo objectTypes createdAt filter) := by
  rw [fetchObjectUpdates]
  split
  · exact Keeps.done stable_idle _
  refine Keeps.bind stable_idle (keepsIdle_read heff rfl fun _ => rfl) fun changed => ?_
  split
  · exact Keeps.done stable_idle _
  refine Keeps.bind stable_idle (keepsIdle_read heff rfl fun _ => rfl) fun headRows => ?_
  refine Keeps.bind stable_idle (keepsIdle_read heff rfl fun _ => rfl) fun rows => ?_
  refine Keeps.bind stable_idle (keepsIdle_getParentsBatch heff _) fun parents => ?_
  exact Keeps.done stable_idle _

theorem keepsIdle_pullChanges (heff : ∀ t, effect t t) (client : ClientId) (req : PullRequest) :
    Keeps (sessionEnv False i effect) (Idle i) (pullChanges client req) := by
  rw [pullChanges]
  split
  · exact Keeps.done stable_idle _
  have hup : Keeps (sessionEnv False i effect) (Idle i) latestTransactionId :=
    Keeps.bind stable_idle (keepsIdle_read heff rfl fun _ => rfl) fun _ => Keeps.done stable_idle _
  refine Keeps.bind stable_idle hup fun upTo => ?_
  refine Keeps.bind stable_idle (keepsIdle_fetchObjectUpdates heff client req.since upTo
    req.objectTypes req.createdAt req.filter) fun updates => ?_
  exact Keeps.done stable_idle _

theorem Tables.view_empty (t : Tables) : t.view {} = t := by
  simp [Tables.view]

theorem keepsIdle_selectHeads (heff : ∀ t, effect t t) (objectId : ObjectId) :
    Keeps (sessionEnv False i effect) (Idle i)
      (inTransaction (.perform (S := sql) (.selectHeads objectId))) := by
  have hread : Triple (sessionEnv False i effect) (At False {} 0 i (some {}) fun _ => True)
      (.perform (S := sql) (.selectHeads objectId))
      (Ends (fun _ => At False {} 0 i (some {}) fun _ => True)
        fun _ d => (∃ n, Open False {} n i (fun _ _ => True) d) ∧ (False → True)) :=
    (triple_keep heff rfl (fun c => by simp only [Stmt.eval]; split <;> rfl) (.const True)).weaken
      (fun _ _ h => h) fun e d hd => ⟨⟨0, {}, hd⟩, False.elim⟩
  have hcommit : Triple (sessionEnv False i effect) (At False {} 0 i (some {}) fun _ => True)
      (.perform (S := sql) .commit) (Ends (fun _ => Idle i)
        fun _ d => DbInv d ∧ d.opened i = none ∧ ¬ False) :=
    (triple_commit (Q := fun _ => True) heff (.const _) (.const _) fun d hd => by
      rw [Tables.view_empty]; exact ⟨hd.inv.tables, heff _, trivial⟩).weaken
      (fun _ _ hd => ⟨hd.inv, hd.opened⟩) fun _ _ h => h
  exact ((triple_inTransaction heff (.const True) hread (fun _ => hcommit)
    (fun _ => stable_at (.const _)) fun _ => stable_idle).weaken (fun _ _ h => h)
    fun _ _ hd => hd.1).conseq (fun d hd => ⟨hd.1, hd.2, trivial, False.elim⟩) fun _ _ h => h

theorem keepsIdle_getObject (heff : ∀ t, effect t t) (objectId : ObjectId) :
    Keeps (sessionEnv False i effect) (Idle i) (getObject objectId) := by
  refine Keeps.bind stable_idle (keepsIdle_selectHeads heff objectId) fun ids => ?_
  split
  · exact Keeps.done stable_idle _
  have hrows : Keeps (sessionEnv False i effect) (Idle i) (getRevisionRowsByIds ids) :=
    keepsIdle_read heff rfl fun _ => rfl
  refine Keeps.bind stable_idle hrows fun rows => ?_
  refine Keeps.bind stable_idle (keepsIdle_getParentsBatch heff _) fun parents => ?_
  exact Keeps.done stable_idle _

/-- Registering a client. -/
theorem keepsIdle_upsertClient (client : ClientId) :
    Keeps (sessionEnv False i (ServerRequest.register client).Effect) (Idle i)
      (upsertClient client) := by
  refine Keeps.perform stable_idle ?_
  rintro d r d' ⟨hinv, ho⟩ ⟨ch, -, hx⟩
  have hd' : d' = d ∨ d' = d.withConn i (d.conn i) ∨ d' = d.withConn i { d.conn i with
      tables := { d.tables with clients := d.tables.clients ++ [client] } } := by
    have hdone : d.withConn i ((Stmt.upsertClient client).eval (d.conn i)).2 =
        d.withConn i (d.conn i) ∨ d.withConn i ((Stmt.upsertClient client).eval (d.conn i)).2 =
        d.withConn i { d.conn i with
          tables := { d.tables with clients := d.tables.clients ++ [client] } } := by
      simp only [Stmt.eval]
      split
      · exact .inl rfl
      · exact .inr rfl
    rcases Db.exec_cases hx with ⟨-, -, rfl⟩ | ⟨-, -, ⟨-, rfl⟩ | ⟨hpl, -⟩ | ⟨-, rfl⟩⟩
    · exact .inr hdone
    · exact .inl rfl
    · cases hpl
    · exact .inr hdone
  have hat : At False {} 0 i none (fun _ => True) d := ⟨hinv, ho, trivial, False.elim⟩
  have heff : ∀ t, (ServerRequest.register client).Effect t t := ServerRequest.effect_refl _
  rcases hd' with rfl | rfl | rfl
  · exact ⟨(hat.kept heff (.inl rfl)).1, hinv, ho⟩
  · obtain ⟨hg, hk⟩ := hat.kept heff (.inr rfl)
    exact ⟨hg, hk.inv, hk.opened⟩
  · have hinv' : DbInv (d.withConn i { d.conn i with
        tables := { d.tables with clients := d.tables.clients ++ [client] } }) :=
      hinv.withConn (hinv.tables.withClients _) le_rfl (fun _ hr => .inl hr)
        (fun _ hx => .inl hx) fun w hw => by
          have hnone : none = some w := ho.symm.trans hw
          cases hnone
    refine ⟨fun _ => ⟨hinv', ?_, fun _ hj => Db.withConn_opened_of_ne hj, .inr rfl⟩, hinv', ?_⟩
    · exact { Grows.refl d.tables with clients := List.subset_append_left _ _ }
    · exact Db.withConn_opened_self.trans ho

/-- **Every request is served within the rely and the guarantee of its session.** -/
theorem keepsIdle_serve (req : ServerRequest) :
    Keeps (sessionEnv False i req.Effect) (Idle i) (serve req) := by
  cases req with
  | register client =>
    refine Keeps.bind stable_idle (keepsIdle_upsertClient client) fun _ => ?_
    exact Keeps.done stable_idle _
  | push client revisions =>
    have hpush : Triple (sessionEnv False i (PushEffect client revisions)) (Idle i)
        (pushRevisions client revisions) (PushPost False {} 0 i client revisions) :=
      (triple_pushRevisions client revisions).conseq
        (fun d hd => ⟨hd.1, hd.2, trivial, False.elim⟩) fun _ _ h => h
    have hkeeps : Keeps (sessionEnv False i (PushEffect client revisions)) (Idle i)
        (pushRevisions client revisions) := hpush.weaken (fun _ _ h => h.1) fun _ _ h => h.1
    exact Keeps.bind stable_idle hkeeps fun resp => Keeps.done stable_idle _
  | pull client req =>
    refine Keeps.bind stable_idle ?_ fun resp => Keeps.done stable_idle _
    exact keepsIdle_pullChanges (ServerRequest.effect_refl _) client req
  | getObject objectId =>
    refine Keeps.bind stable_idle ?_ fun resp => Keeps.done stable_idle _
    exact keepsIdle_getObject (ServerRequest.effect_refl _) objectId

end Serve

/-! ### Runs -/

/-- The configurations that any interleaving reaches from the empty database. -/
abbrev Run (c : Config sql ServerError ℕ ServerRequest ServerReply Db) : Prop :=
  Reachable postgres serve (fun _ _ => True) Db.empty c

theorem compatible : Compatible postgres serve (fun _ _ => True)
    (fun i req => sessionEnv False i req.Effect) DbInv (fun i d => d.opened i = none)
    (fun i _ => Ends (fun _ => Idle i) fun _ => Idle i) where
  exec _ _ ch _ _ _ _ _ _ _ hx := ⟨ch, False.elim, hx⟩
  guar_rely _ j _ _ _ _ hij hg :=
    ⟨False.elim, fun hd => ⟨(hg hd).1, (hg hd).2.1, (hg hd).2.2.1 j (Ne.symm hij)⟩⟩
  guar_inv _ _ _ _ hg hd := (hg hd).1
  guar_idle _ j _ _ _ hij hg hd hj := ((hg hd).2.2.1 j (Ne.symm hij)).trans hj
  start _ _ req _ hd hi := keepsIdle_serve req _ ⟨hd, hi⟩

namespace Run

variable {c c' : Config sql ServerError ℕ ServerRequest ServerReply Db}

/-- **The database keeps its invariant in every run.** -/
theorem dbInv (hc : Run c) : DbInv c.shared :=
  (hc.safe compatible DbInv.empty fun _ => rfl).inv

theorem wellFormed (hc : Run c) : WellFormed c.shared.tables := hc.dbInv.tables

/-- What one step does to the committed tables: nothing, or what the request of the
session allows. -/
theorem step_effect (hc : Run c) {l : Label ℕ Outcome ServerRequest}
    (hn : c.next postgres serve l = some c') :
    c'.shared.tables = c.shared.tables ∨ ∃ i req p, c.procs i = some (req, p) ∧
      req.Effect c.shared.tables c'.shared.tables := by
  rcases Config.next_cases hn with
      ⟨i, req, rfl, -, hs, -⟩ | ⟨i, ch, req, op, next, r, rfl, hp, -, -⟩
  · exact .inl (by rw [hs])
  · have hg := hc.guar compatible DbInv.empty (fun _ => rfl) trivial hn hp
    exact .inr ⟨i, req, _, hp, (hg hc.dbInv).2.2.2⟩

end Run

/-- Every transaction belongs to a push session of its client, and lists revisions
of the batch of that session, stored with the values they had there. -/
def Authored (c : Config sql ServerError ℕ ServerRequest ServerReply Db) : Prop :=
  ∀ x ∈ c.shared.tables.transactions, ∃ i revisions p,
    c.procs i = some (.push x.clientId revisions, p) ∧
    ∀ e ∈ c.shared.tables.transactionRevisions, e.transactionId = x.id →
      ∃ rev ∈ revisions, rev.id = e.revisionId ∧ rev.row.stored ∈ c.shared.tables.revisions

/-- A step that leaves the transactions and their lists alone. -/
theorem Authored.of_eq {c c' : Config sql ServerError ℕ ServerRequest ServerReply Db}
    (h : Authored c) {l : Label ℕ Outcome ServerRequest} (hn : c.next postgres serve l = some c')
    (hx : c'.shared.tables.transactions = c.shared.tables.transactions)
    (he : c'.shared.tables.transactionRevisions = c.shared.tables.transactionRevisions)
    (hr : c.shared.tables.revisions ⊆ c'.shared.tables.revisions) : Authored c' := by
  intro x hxm
  rw [hx] at hxm
  obtain ⟨i, revisions, p, hp, hall⟩ := h x hxm
  obtain ⟨p', hp'⟩ := Config.next_procs hn hp
  refine ⟨i, revisions, p', hp', fun e hem hex => ?_⟩
  rw [he] at hem
  obtain ⟨rev, hrev, hid, hrow⟩ := hall e hem hex
  exact ⟨rev, hrev, hid, hr hrow⟩

namespace Run

variable {c c' : Config sql ServerError ℕ ServerRequest ServerReply Db}

theorem authored (hc : Run c) : Authored c := by
  induction hc with
  | init => intro x hx; simp [Config.init, Db.empty] at hx
  | @next c c' l hc _ hn ih =>
    rcases Run.step_effect hc hn with h | ⟨i, req, p, hp, heff⟩
    -- most steps list nothing
    · exact ih.of_eq hn (by rw [h]) (by rw [h]) (by rw [h]; exact List.Subset.refl _)
    cases req with
    | register client =>
      rcases heff with h | h <;>
        exact ih.of_eq hn (by rw [h]) (by rw [h]) (by rw [h]; exact List.Subset.refl _)
    | pull client req =>
      exact ih.of_eq hn (by rw [heff]) (by rw [heff]) (by rw [heff]; exact List.Subset.refl _)
    | getObject o =>
      exact ih.of_eq hn (by rw [heff]) (by rw [heff]) (by rw [heff]; exact List.Subset.refl _)
    | push client revisions =>
      rcases heff with h | ⟨n, batch, hsub, hv, ha⟩
      · exact ih.of_eq hn (by rw [h]) (by rw [h]) (by rw [h]; exact List.Subset.refl _)
      have hwf := Run.wellFormed hc
      intro x hx
      rw [ha.transactions] at hx
      rcases List.mem_append.mp hx with hx | hx
      · -- an old transaction lists nothing new
        obtain ⟨j, revs, q, hq, hall⟩ := ih x hx
        obtain ⟨q', hq'⟩ := Config.next_procs hn hq
        refine ⟨j, revs, q', hq', fun e he hex => ?_⟩
        rw [ha.transactionRevisions] at he
        rcases List.mem_append.mp he with he | he
        · obtain ⟨rev, hrev, hid, hrow⟩ := hall e he hex
          exact ⟨rev, hrev, hid, ha.grows.revisions hrow⟩
        · obtain ⟨rev, -, rfl⟩ := List.mem_map.mp he
          exact absurd hex.symm (hv.txn_fresh x hx)
      · -- the new transaction lists the batch
        rw [List.mem_singleton.mp hx]
        obtain ⟨p', hp'⟩ := Config.next_procs hn hp
        refine ⟨i, revisions, p', hp', fun e he hex => ?_⟩
        rw [ha.transactionRevisions] at he
        rcases List.mem_append.mp he with he | he
        · obtain ⟨y, hy, hye, -⟩ := hwf.author e he
          exact absurd (hye.trans hex) (hv.txn_fresh y hy)
        · obtain ⟨rev, hrev, rfl⟩ := List.mem_map.mp he
          refine ⟨rev, hsub.subset hrev, rfl, ?_⟩
          rw [ha.revisions]
          exact List.mem_append_right _ (List.mem_map_of_mem hrev)

/-! ### A race

Two sessions push children of one revision at the same time, and both delete its
row of `object_heads`. -/

/-- The revision `n` of one object, with the given lineage. -/
def raceRevision (n : ℕ) (lineage : Lineage) : Revision :=
  ⟨⟨⟨n⟩⟩, ⟨⟨10⟩⟩, "trip", lineage, 0, ⟨⟨7⟩⟩, .active .null⟩

/-- The next `n` requests of session `i` are answered. -/
def proceeds {ρ : Type} (i n : ℕ) : List (Label ℕ Outcome ρ) := List.replicate n (.step i .proceed)

/-- Both children are pushed at the same time. -/
def raceLabels : List (Label ℕ Outcome ServerRequest) :=
  [.start 0 (.register ⟨⟨7⟩⟩), .step 0 .proceed,
    .start 1 (.push ⟨⟨7⟩⟩ [raceRevision 1 .root])] ++ proceeds 1 7 ++
    [.start 2 (.push ⟨⟨7⟩⟩ [raceRevision 2 (.update ⟨⟨1⟩⟩)]),
      .start 3 (.push ⟨⟨7⟩⟩ [raceRevision 3 (.update ⟨⟨1⟩⟩)])] ++
    proceeds 2 5 ++ proceeds 3 5 ++ proceeds 2 5 ++ proceeds 3 5

/-- The race is a run, and leaves both children as heads. -/
theorem race : ∃ c, Run c ∧
    c.shared.tables.objectHeads = [⟨⟨⟨10⟩⟩, ⟨⟨2⟩⟩⟩, ⟨⟨⟨10⟩⟩, ⟨⟨3⟩⟩⟩] := by
  have h : ((Config.init Db.empty).runLabels postgres serve raceLabels).map
      (·.shared.tables.objectHeads) = some [⟨⟨⟨10⟩⟩, ⟨⟨2⟩⟩⟩, ⟨⟨⟨10⟩⟩, ⟨⟨3⟩⟩⟩] := by
    decide +kernel
  obtain ⟨c, hc, hheads⟩ := Option.map_eq_some_iff.mp h
  exact ⟨c, Reachable.runLabels .init (fun _ _ _ => trivial) hc, hheads⟩

/-! ### What every run keeps -/

/-- **The head table is the frontier of the revision graph**: the heads of an object
are its stored revisions that no stored revision declares as a parent.  So two runs
that have stored the same revisions have the same heads, in whatever order and
batches they came. -/
theorem heads_frontier (hc : Run c) :
    (∀ o r, ⟨o, r⟩ ∈ c.shared.tables.objectHeads ↔ c.shared.tables.StoredAs r o ∧
      ∀ y, c.shared.tables.Stored y → ¬ c.shared.tables.Parent r y) ∧
    c.shared.tables.objectHeads.Nodup ∧
    ∀ c', Run c' → (∀ r o, c.shared.tables.StoredAs r o ↔ c'.shared.tables.StoredAs r o) →
      (∀ x y, c.shared.tables.Parent x y ↔ c'.shared.tables.Parent x y) →
      c.shared.tables.objectHeads.Perm c'.shared.tables.objectHeads := by
  have hwf := hc.wellFormed
  refine ⟨fun o r => hwf.mem_objectHeads_iff, hwf.heads_nodup, fun c' hc' hst hpar => ?_⟩
  have hwf' := hc'.wellFormed
  rw [List.perm_ext_iff_of_nodup hwf.heads_nodup hwf'.heads_nodup]
  rintro ⟨o, r⟩
  rw [hwf.mem_objectHeads_iff, hwf'.mem_objectHeads_iff, hst]
  refine and_congr_right fun _ => forall_congr' fun y => ?_
  have hy : c.shared.tables.Stored y ↔ c'.shared.tables.Stored y := by
    constructor
    · intro h
      obtain ⟨o, h⟩ := h.storedAs
      exact ((hst y o).mp h).stored
    · intro h
      obtain ⟨o, h⟩ := h.storedAs
      exact ((hst y o).mpr h).stored
  rw [hy, hpar]

theorem heads_frontier_race : ∃ c, Run c ∧
    c.shared.tables.objectHeads = [⟨⟨⟨10⟩⟩, ⟨⟨2⟩⟩⟩, ⟨⟨⟨10⟩⟩, ⟨⟨3⟩⟩⟩] ∧
    ∀ r, ⟨⟨⟨10⟩⟩, r⟩ ∈ c.shared.tables.objectHeads ↔ c.shared.tables.StoredAs r ⟨⟨10⟩⟩ ∧
      ∀ y, c.shared.tables.Stored y → ¬ c.shared.tables.Parent r y :=
  let ⟨c, hc, hheads⟩ := race
  ⟨c, hc, hheads, fun r => (heads_frontier hc).1 ⟨⟨10⟩⟩ r⟩

/-- **The stored history is a well-formed graph per object**: parents are stored
under the object of their child and are distinct, there is no cycle, heads are
stored revisions of their object, and an object with a revision has a head. -/
theorem wellFormed_dag (hc : Run c) :
    (∀ x y, c.shared.tables.Parent x y →
      ∃ o, c.shared.tables.StoredAs x o ∧ c.shared.tables.StoredAs y o) ∧
    (∀ r, ((c.shared.tables.revisionParents.filter fun e => e.revisionId = r).map
      (·.parentId)).Nodup) ∧
    (∀ r, ¬ TransGen c.shared.tables.Parent r r) ∧
    (∀ o r, ⟨o, r⟩ ∈ c.shared.tables.objectHeads → c.shared.tables.StoredAs r o) ∧
    ∀ o r, c.shared.tables.StoredAs r o → ∃ h, ⟨o, h⟩ ∈ c.shared.tables.objectHeads := by
  have hwf := hc.wellFormed
  refine ⟨fun x y => hwf.parent_stored, fun r => ?_, hwf.no_cycle, fun o r => hwf.head_storedAs,
    fun o r hr => ?_⟩
  · have hn := hwf.parents_nodup.sublist ((List.filter_sublist
      (p := fun e : ParentRow => decide (e.revisionId = r))).map
        fun e => (e.revisionId, e.parentId))
    refine List.Nodup.of_map (fun p => (r, p)) ?_
    rw [List.map_map]
    convert hn using 1
    refine List.map_congr_left fun e he => ?_
    rw [Function.comp_apply, of_decide_eq_true (List.mem_filter.mp he).2]
  · obtain ⟨h, hh, -⟩ := hwf.exists_head hr
    exact ⟨h, hh⟩

theorem wellFormed_dag_race : ∃ c, Run c ∧
    c.shared.tables.objectHeads = [⟨⟨⟨10⟩⟩, ⟨⟨2⟩⟩⟩, ⟨⟨⟨10⟩⟩, ⟨⟨3⟩⟩⟩] ∧
    (c.shared.tables.StoredAs ⟨⟨2⟩⟩ ⟨⟨10⟩⟩ ∧ c.shared.tables.StoredAs ⟨⟨3⟩⟩ ⟨⟨10⟩⟩) ∧
    ∀ r, ¬ TransGen c.shared.tables.Parent r r :=
  let ⟨c, hc, hheads⟩ := race
  ⟨c, hc, hheads, ⟨(wellFormed_dag hc).2.2.2.1 _ _ (by simp [hheads]),
    (wellFormed_dag hc).2.2.2.1 _ _ (by simp [hheads])⟩, (wellFormed_dag hc).2.2.1⟩

/-- **Authorship and the transaction log**: every stored revision is listed by
exactly one transaction, no transaction is empty, and a transaction belongs to a push
session authenticated as the client that created every revision it lists. -/
theorem authorship (hc : Run c) :
    (∀ r, c.shared.tables.Stored r → ∃! x, x ∈ c.shared.tables.transactions ∧
      ⟨x.id, r⟩ ∈ c.shared.tables.transactionRevisions) ∧
    c.shared.tables.transactionRevisions.Nodup ∧
    ∀ x ∈ c.shared.tables.transactions,
      (∃ e ∈ c.shared.tables.transactionRevisions, e.transactionId = x.id) ∧
      ∃ i revisions p, c.procs i = some (.push x.clientId revisions, p) ∧
        ∀ e ∈ c.shared.tables.transactionRevisions, e.transactionId = x.id →
          ∃ row ∈ c.shared.tables.revisions, row.id = e.revisionId ∧
            row.createdBy = x.clientId ∧ ∃ rev ∈ revisions, row = rev.row.stored := by
  have hwf := hc.wellFormed
  refine ⟨?_, .of_map _ hwf.listed_nodup, fun x hx => ⟨hwf.lists x hx, ?_⟩⟩
  · rintro r ⟨row, hrow, rfl⟩
    obtain ⟨e, he, hid⟩ := hwf.listed row hrow
    obtain ⟨x, hx, hxe, -⟩ := hwf.author e he
    refine ⟨x, ⟨hx, ?_⟩, ?_⟩
    · rw [hxe, ← hid]; exact he
    · rintro y ⟨hy, hye⟩
      have : (⟨y.id, row.id⟩ : TransactionRevisionRow) = e :=
        List.inj_on_of_nodup_map hwf.listed_nodup hye he hid.symm
      refine List.inj_on_of_nodup_map hwf.txn_ids hy hx ?_
      rw [hxe, ← this]
  · obtain ⟨i, revisions, p, hp, hall⟩ := hc.authored x hx
    refine ⟨i, revisions, p, hp, fun e he hex => ?_⟩
    obtain ⟨rev, hrev, hid, hrow⟩ := hall e he hex
    obtain ⟨y, hy, hye, row, hrow', hid', hby⟩ := hwf.author e he
    have hxy : y = x := List.inj_on_of_nodup_map hwf.txn_ids hy hx (hye.trans hex)
    have hrr : row = rev.row.stored := hwf.row_unique hrow' hrow (hid'.trans hid.symm)
    exact ⟨row, hrow', hid', hxy ▸ hby, rev, hrev, hrr⟩

theorem authorship_race : ∃ c, Run c ∧
    c.shared.tables.objectHeads = [⟨⟨⟨10⟩⟩, ⟨⟨2⟩⟩⟩, ⟨⟨⟨10⟩⟩, ⟨⟨3⟩⟩⟩] ∧
    ∃! x, x ∈ c.shared.tables.transactions ∧
      ⟨x.id, ⟨⟨2⟩⟩⟩ ∈ c.shared.tables.transactionRevisions :=
  let ⟨c, hc, hheads⟩ := race
  ⟨c, hc, hheads, (authorship hc).1 _
    (hc.wellFormed.head_storedAs (o := ⟨⟨10⟩⟩) (by simp [hheads])).stored⟩

end Run

end Rustend
