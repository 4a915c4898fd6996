import Rustend.Client.Concurrent
import Rustend.Client.LocalWrites
import Rustend.Server.Batch

/-!
# Resolving a conflict

A resolution of all local heads is a merge of them.  The client keeps the merge as its only
head, the server retires the parents that it still lists, and another client replaces its
heads when they are parents of the merge.  When the local heads include those of the
server, the three agree.

## Main definitions

* `ClientDb.conflicts` — an update counts as conflicted.
* `PullsMerge` — a pull that leaves an object with one given head.

## Main results

* `run_applyUpdates_counts` — what a pull counts.
* `resolveConflict_converges` — **a resolution of all heads is taken over by everyone**, if no
  other revision of the object is pushed along.
-/

namespace Rustend

open Interleave

/-! ### What a pull counts -/

/-- The update counts as conflicted. -/
def ClientDb.conflicts (db : ClientDb) (u : ObjectUpdate) : Bool :=
  decide ¬(u.action = .replace ∧
    hasDiverged (getHeadsInStore db.objectHeads u.objectId) u.heads = false)

section Counts

variable {σ : Type} {net : Net σ} {s : σ}

theorem conflicts_eq_false {db : ClientDb} {u : ObjectUpdate} :
    db.conflicts u = false ↔ db.Clears u := by
  unfold ClientDb.conflicts ClientDb.Clears
  rw [decide_eq_false_iff_not, not_not, hasDiverged_eq_false]

theorem conflicts_congr {db db' : ClientDb} {u : ObjectUpdate}
    (h : db.headsOf u.objectId = db'.headsOf u.objectId) : db.conflicts u = db'.conflicts u := by
  have hclears := clears_congr h
  rw [← conflicts_eq_false, ← conflicts_eq_false] at hclears
  cases hc : db.conflicts u with
  | false => exact (hclears.mp hc).symm
  | true =>
    cases hc' : db'.conflicts u with
    | false => rw [hclears.mpr hc'] at hc; cases hc
    | true => rfl

/-- **What a pull counts**: every head that it is given, and the updates that do not
replace, each judged by the heads before the pull. -/
theorem run_applyUpdates_counts : ∀ {updates : List ObjectUpdate} {db : ClientDb} {counts : ℕ × ℕ},
    (∀ u ∈ updates, ∀ rev ∈ u.heads, rev.objectId = u.objectId) →
    (updates.map (·.objectId)).Nodup →
    (applyUpdates updates counts).run (answer net) (db, s) =
      (.ok (counts.1 + (updates.map (·.heads.length)).sum,
        counts.2 + (updates.filter db.conflicts).length), (db.pulled updates, s))
  | [], db, (pulled, conflicted), _, _ => rfl
  | u :: updates, db, (pulled, conflicted), hobj, hdistinct => by
    obtain ⟨hu, hobj⟩ := List.forall_mem_cons.mp hobj
    rw [List.map_cons, List.nodup_cons] at hdistinct
    have hrest : updates.filter (db.applied u).conflicts = updates.filter db.conflicts := by
      refine List.filter_congr fun v hv => conflicts_congr (headsOf_applied_of_ne hu ?_)
      intro heq
      exact hdistinct.1 (heq ▸ List.mem_map_of_mem hv)
    rw [applyUpdates, Program.run_bind_ok _ _ (run_applyUpdate u),
      run_applyUpdates_counts hobj hdistinct.2, hrest, List.map_cons, List.sum_cons,
      List.filter_cons]
    simp only [← ClientDb.conflicts.eq_def, pulled_cons]
    cases db.conflicts u with
    | false => simp only [Bool.false_eq_true, if_false, Nat.add_assoc]
    | true => simp only [if_true, List.length_cons, Nat.add_assoc, Nat.add_comm 1]

/-- The counts of a pull are those of its updates. -/
theorem pullUpdates_counts {params : PullRequest} {db db' : ClientDb} {s' s'' : σ}
    {x : Except ClientError (HttpResponse PullResponse)} {resp : PullResponse} {counts : ℕ × ℕ}
    (hx : net.changesQuery params s = (x, s')) (hresp : parsed x = some resp)
    (hrun : (pullUpdates params).run (answer net) (db, s) = (.ok counts, (db', s''))) :
    ((applyUpdates resp.objectUpdates (0, 0)).run (answer net) (db, s')).1 = .ok counts := by
  have hpost : (Program.perform (S := browser) (.postChangesQuery params)).run
      (answer net) (db, s) = (x, (db, s')) := by
    rw [Program.run_perform, answer, hx]
  obtain ⟨reply, hpost, hjson⟩ := exists_reply hpost hresp "pull failed: "
  rw [pullUpdates, Program.run_bind_ok _ _ hpost, Program.run_bind_ok _ _ hjson] at hrun
  obtain ⟨counts', ⟨db₁, s₁⟩, happly, hrun⟩ := Program.bind_run_ok _ hrun
  rw [happly]
  obtain ⟨⟨cid, uid, last⟩, s₂, -, hrun⟩ := Program.bind_run_ok _ hrun
  -- the cursor does not matter to the counts
  cases cid with
  | none =>
    cases hrun
    rfl
  | some cid =>
    cases uid with
    | none =>
      cases hrun
      rfl
    | some uid =>
      obtain ⟨_, s₃, -, hrun⟩ := Program.bind_run_ok _ hrun
      cases hrun
      rfl

end Counts

/-! ### The calls -/

section Resolve

variable {repo : Repository} {draw : Draw} {db : ClientDb} {c : Conn} {o : ObjectId}
  {parents : List RevisionId} {resolved : VersionContent (Except String Json)}

/-- A resolution of at least two heads succeeds, if the value can be serialised. -/
theorem run_resolveConflict {σ : Type} (net : Net σ) (repo : Repository) (draw : Draw)
    (resolved : VersionContent (Except String Json)) (s : σ) (hlen : 2 ≤ parents.length)
    (hheads : ∀ p ∈ parents, p ∈ db.headsOf o) (hvalue : ∀ msg, resolved ≠ .active (.error msg)) :
    ∃ rev, (Call.resolveConflict o parents resolved).Creates repo draw db rev ∧
      ((Call.resolveConflict o parents resolved).program repo draw).run (answer net) (db, s) =
        (.ok rev.id, (db.written rev, s)) := by
  obtain ⟨content, hcontent⟩ : ∃ content, resolvedContent resolved = pure content := by
    cases resolved with
    | deleted => exact ⟨_, rfl⟩
    | active v =>
      cases v with
      | ok data => exact ⟨_, rfl⟩
      | error msg => exact absurd rfl (hvalue msg)
  match parents, hlen with
  | a :: b :: rest, _ =>
    have hamong : ∀ p ∈ a :: b :: rest, p ∈ (getHeadsInStore db.objectHeads o).map (·.revisionId) :=
      fun p hp => ClientDb.mem_map_getHeadsInStore.mpr (hheads p hp)
    have hread : (idb (.getHeads o)).run (answer net) (db, s) =
        (.ok (getHeadsInStore db.objectHeads o), (db, s)) := rfl
    have hcheck :
        checkParentsAreHeads (getHeadsInStore db.objectHeads o) (a :: b :: rest) = pure () :=
      if_pos (List.all_eq_true.mpr fun p hp => decide_eq_true (hamong p hp))
    -- there is a head, which gives the type
    obtain ⟨objectType, htype⟩ : ∃ objectType,
        objectTypeOf (getHeadsInStore db.objectHeads o) = pure objectType := by
      unfold objectTypeOf
      cases hl : getHeadsInStore db.objectHeads o with
      | nil =>
        have ha := hamong a List.mem_cons_self
        rw [hl] at ha
        cases ha
      | cons head heads => exact ⟨head.objectType, rfl⟩
    refine ⟨{
      id := draw.revisionId
      objectId := o
      objectType := objectType
      lineage := .merge a b rest
      createdAt := draw.createdAt
      createdBy := repo.clientId
      content := content }, Call.CreatesFrom.creates ⟨rfl, rfl, rfl, rfl, rfl, hamong, nofun⟩, ?_⟩
    rw [Call.program, Repository.resolveConflict, Program.run_bind_ok _ _ hread, hcheck,
      Program.run_bind_ok _ _ (Program.run_pure _ _ _), htype,
      Program.run_bind_ok _ _ (Program.run_pure _ _ _), hcontent]
    rfl

end Resolve

/-! ### The rule, for one entry -/

section Sieve

variable {t : Tables} {client : ClientId} {acc acc' revisions : List Revision} {rev : Revision}

theorem Admits.mono (h : Admits t client acc rev) (hsub : acc ⊆ acc') : Admits t client acc' rev :=
  ⟨h.createdBy, h.fresh, h.nodup, fun p hp => (h.known p hp).imp_right
    fun ⟨e, he, hid, hobj⟩ => ⟨e, hsub he, hid, hobj⟩⟩

theorem sieve_mem : ∀ {todo : List Revision} {s : List Revision × List Revision},
    rev ∈ todo → Admits t client [] rev → rev ∈ (todo.foldl (sieveStep t client) s).1
  | next :: todo, s, hmem, h => by
    rw [List.foldl_cons]
    rcases List.mem_cons.mp hmem with rfl | hmem
    · have hstep : sieveStep t client s rev = (s.1 ++ [rev], s.2) :=
        if_pos (h.mono (List.nil_subset _))
      rw [hstep]
      exact (sieve_initial t client todo (s.1 ++ [rev], s.2)).subset
        (List.mem_append_right _ (List.mem_singleton_self _))
    · exact sieve_mem hmem h

end Sieve

/-! ### Pushing the merge -/

section Push

variable {client : ClientId} {db db' : ClientDb} {c c' : Conn}

theorem Sieved.commits {t t' : Tables} {clients : List ClientId} {n : ℕ} {revisions : List Revision}
    {resp : PushResponse} {acc refused : List Revision}
    (h : Sieved { t with clients := clients } t' client n revisions resp acc refused) :
    Commits t t' client n acc := by
  refine ⟨clients, ?_⟩
  rcases h.written with ⟨hnil, ht, -⟩ | ⟨hv, ha, -⟩
  · exact .inl ⟨hnil, ht⟩
  · exact .inr ⟨hv, ha⟩

/-- **What a completed push of pending revisions has committed**: those that the rule
accepts. -/
theorem ConnInv.pushPending_sieved (h : ConnInv c) (hne : db.pending ≠ []) {pushed : ℕ}
    {rejected : List RejectedRevision}
    (hrun : pushPending.run (answer (httpServer client)) (db, c) =
      (.ok (pushed, rejected), (db', c'))) :
    ∃ clients resp, client ∈ clients ∧ db' = db.marked resp.marks ∧ ConnInv c' ∧
      Sieved (c.withClients clients).tables c'.tables client c.nextval
        (db.pending.map (·.revision)) resp
        (sieve (c.withClients clients).tables client (db.pending.map (·.revision))).1
        (sieve (c.withClients clients).tables client (db.pending.map (·.revision))).2 := by
  obtain ⟨clients, hmem, hserve⟩ := run_authenticated client
    (Rustend.pushRevisions client (db.pending.map (·.revision))) c
  have hconn := (h.withClients clients).pushRevisions client (db.pending.map (·.revision))
  have hpush := (run_pushPending (httpServer client) db c).resolve_left
    fun hemp => hne hemp.1
  rcases hy : (Rustend.pushRevisions client (db.pending.map (·.revision))).run Stmt.eval
    (c.withClients clients) with ⟨r, c₁⟩
  rw [hy] at hserve hconn
  have hchanges : (httpServer client).changes ⟨db.pending.map (·.revision)⟩ c =
      (.ok (respond r), c₁) := by
    simp only [httpServer, hserve]
  rcases hpush.2 _ _ hchanges with ⟨-, e, herr⟩ | ⟨resp, hresp, hok⟩
  · rw [hrun] at herr
    cases herr
  · rw [hrun] at hok
    simp only [Prod.mk.injEq] at hok
    obtain ⟨-, rfl, rfl⟩ := hok
    rw [parsed_respond] at hresp
    obtain e | resp' := r
    · cases hresp
    · obtain rfl : resp' = resp := Option.some.inj hresp
      exact ⟨clients, resp', hmem, rfl, hconn.1, (h.withClients clients).sieved hy⟩

/-- A push of pending revisions whose values their columns can hold is answered. -/
theorem ConnInv.pushPending_answered (h : ConnInv c) (hnext : c.nextval ≤ i64Max)
    (hstorable : ∀ record ∈ db.pending, record.revision.row.storable = true) :
    ∃ pushed rejected s', pushPending.run (answer (httpServer client)) (db, c) =
      (.ok (pushed, rejected), s') := by
  rcases run_pushPending (httpServer client) db c with ⟨-, hrun⟩ | ⟨-, hpush⟩
  · exact ⟨_, _, _, hrun⟩
  obtain ⟨clients, hmem, hserve⟩ := run_authenticated client
    (Rustend.pushRevisions client (db.pending.map (·.revision))) c
  have hsub : (chosen (c.withClients clients).tables client
      (db.pending.map (·.revision))).Sublist (db.pending.map (·.revision)) :=
    List.filter_sublist
  obtain ⟨resp, c₁, hy⟩ := (h.withClients clients).pushRevisions_answered hmem (.inr
    ⟨(pending_ids_nodup db).sublist (hsub.map _), fun rev hrev => by
      obtain ⟨record, hrecord, rfl⟩ := List.mem_map.mp (hsub.subset hrev)
      exact hstorable record hrecord, hnext⟩)
  rw [hy] at hserve
  have hchanges : (httpServer client).changes ⟨db.pending.map (·.revision)⟩ c =
      (.ok (respond (.ok resp)), c₁) := by
    simp only [httpServer, hserve]
  rcases hpush _ _ hchanges with ⟨hnone, -⟩ | ⟨resp', -, hok⟩
  · cases hnone
  · exact ⟨_, _, _, hok⟩

end Push

/-! ### Pulling the merge -/

/-- A pull of `client` delivers `m` as the only head of the object, does not count it as
conflicted, and leaves it as the only local head. -/
def PullsMerge (client : ClientId) (params : PullRequest) (db : ClientDb) (c : Conn) (o : ObjectId)
    (m : RevisionId) : Prop :=
  ∃ resp u counts s', parsed ((httpServer client).changesQuery params c).1 = some resp ∧
    (pullUpdates params).run (answer (httpServer client)) (db, c) = (.ok counts, s') ∧
    (u ∈ resp.objectUpdates ∧ u.objectId = o ∧ u.action = .replace ∧ u.heads.map (·.id) = [m]) ∧
    (counts.2 = (resp.objectUpdates.filter db.conflicts).length ∧ db.conflicts u = false) ∧
    s'.1.headsOf o = {m}

/-- **A pull takes over the only head of an object**, if every local head is that one or a
declared parent of it. -/
theorem ConnInv.pullsMerge {client : ClientId} {db : ClientDb} {c : Conn} (h : ConnInv c)
    {params : PullRequest} {o : ObjectId} {m : RevisionId}
    (hfits : ∀ s, params.since = some s → s.val ≤ i64Max) (hhead : c.tables.headsOf o = {m})
    (hchanged : c.tables.ChangedFor client ((params.since.map (·.val)).getD 0 : ℕ)
      c.tables.maxTransactionId o)
    (hpasses : ∃ row ∈ c.tables.revisions, row.id = m ∧
      Passes params.objectTypes params.createdAt params.filter row)
    (hlocal : ∀ l ∈ db.headsOf o, l = m ∨ c.tables.Parent l m) :
    PullsMerge client params db c o m := by
  obtain ⟨clients, -, hrun⟩ := run_authenticated client (Rustend.pullChanges client params) c
  have hconn : ConnInv (c.withClients clients) := h.withClients clients
  obtain ⟨updates, hpull, hans⟩ := hconn.pullChanges client params hfits
  have hx : (httpServer client).changesQuery params c =
      (.ok (respond (.ok ⟨⟨c.tables.maxTransactionId⟩, updates⟩)), c.withClients clients) := by
    simp only [httpServer, hrun, hpull]
    rfl
  have hobj : ∀ u ∈ updates, ∀ rev ∈ u.heads, rev.objectId = u.objectId :=
    fun u hu rev hrev => hans.objectId hconn.tables hu hrev
  -- the object is returned
  have hmem : o ∈ updates.map (·.objectId) := by
    obtain ⟨row, hrow, rfl, hrowpasses⟩ := hpasses
    refine (hans.objects o).mpr ⟨hchanged, row, hrow, ?_, hrowpasses⟩
    have hin : row.id ∈ c.tables.headsOf o := by
      rw [hhead]
      rfl
    exact hin
  obtain ⟨u, hu, rfl⟩ := List.mem_map.mp hmem
  have hclears : db.Clears u := (hans.clears_iff hu).mpr ⟨m, hhead, hlocal⟩
  have hheads : u.heads.map (·.id) = [m] := by
    refine List.perm_singleton.mp ((List.perm_ext_iff_of_nodup (hans.heads u hu).1
      (List.nodup_singleton m)).mpr fun r => ?_)
    rw [(hans.heads u hu).2 r, List.mem_singleton]
    have hin : r ∈ c.tables.headsOf u.objectId ↔ r = m := by
      rw [hhead]
      rfl
    exact hin
  rcases run_pullUpdates db hx with ⟨hnone, -⟩ | ⟨resp, counts, hresp, hok⟩
  · cases hnone
  · cases hresp
    have hcounts := pullUpdates_counts hx rfl hok
    rw [run_applyUpdates_counts hobj hans.distinct] at hcounts
    cases hcounts
    refine ⟨_, u, _, _, by rw [hx]; rfl, hok, ⟨hu, rfl, hclears.1, hheads⟩,
      ⟨Nat.zero_add _, conflicts_eq_false.mpr hclears⟩, ?_⟩
    show ((db.pulled updates).advanced _).headsOf u.objectId = {m}
    rw [headsOf_advanced, headsOf_pulled_of_mem hobj hans.distinct hu,
      headsOf_applied_clears hclears, if_pos rfl, ← hhead]
    ext r
    exact hans.mem_heads hu

/-! ### A conflict resolved by everyone -/

section Converges

variable {repo : Repository} {draw : Draw} {db : ClientDb} {c : Conn} {o : ObjectId}
  {parents : List RevisionId} {resolved : VersionContent (Except String Json)}

/-- A merge that has been created on top of all local heads. -/
structure MergeOf (repo : Repository) (db : ClientDb) (c : Conn) (o : ObjectId)
    (parents : List RevisionId) (M : Revision) : Prop where
  objectId : M.objectId = o
  parents : M.parents = parents
  createdBy : M.createdBy = repo.clientId
  nodup : M.parents.Nodup
  stored : ∀ p ∈ M.parents, c.tables.StoredAs p o
  server : ∀ r ∈ c.tables.headsOf o, r ∈ M.parents
  fresh : ¬ c.tables.Stored M.id
  /-- What else is pending for the object is no news to the server. -/
  queue : ∀ record ∈ db.pending, record.objectId = o → c.tables.Stored record.id

theorem MergeOf.admits {M : Revision} (h : MergeOf repo db c o parents M)
    (clients : List ClientId) :
    Admits (c.withClients clients).tables repo.clientId [] M :=
  ⟨h.createdBy, h.fresh, h.nodup, fun p hp => .inl (by rw [h.objectId]; exact h.stored p hp)⟩

/-- The merge is pending once it has been written. -/
theorem mem_pending_written_self (db : ClientDb) (M : Revision) :
    .fromRevision M .pending ∈ (db.written M).pending :=
  ClientDb.mem_pending.mpr ⟨mem_revisions_written.mpr (.inl rfl), rfl⟩

/-- **A push of the merge leaves it as the only head on the server.** -/
theorem MergeOf.pushed {M : Revision} (h : MergeOf repo db c o parents M) (hc : ConnInv c)
    {pushed : ℕ} {rejected : List RejectedRevision} {db' : ClientDb} {c' : Conn}
    (hrun : pushPending.run (answer (httpServer repo.clientId)) (db.written M, c) =
      (.ok (pushed, rejected), (db', c'))) :
    ConnInv c' ∧ db'.headsOf o = {M.id} ∧ c'.tables.headsOf o = {M.id} ∧
      ∃ batch, M ∈ batch ∧ Commits c.tables c'.tables repo.clientId c.nextval batch := by
  have hself := mem_pending_written_self db M
  obtain ⟨clients, resp, -, rfl, hconn, hsieved⟩ :=
    hc.pushPending_sieved (List.ne_nil_of_mem hself) hrun
  have hcommits := hsieved.commits
  have hM : M ∈ (sieve (c.withClients clients).tables repo.clientId
      ((db.written M).pending.map (·.revision))).1 :=
    sieve_mem (List.mem_map_of_mem (f := RevisionRecord.revision) hself) (h.admits clients)
  have hsub := hsieved.accepted_sublist
  generalize (sieve (c.withClients clients).tables repo.clientId
    ((db.written M).pending.map (·.revision))).1 = batch at hcommits hM hsub
  -- nothing else of the object is committed
  have honly : ∀ rev ∈ batch, rev.objectId = o → rev = M := by
    intro rev hrev hobj
    obtain ⟨record, hrecord, rfl⟩ := List.mem_map.mp (hsub.subset hrev)
    rcases mem_pending_written hrecord with rfl | ⟨hold, -⟩
    · rfl
    · exact absurd (h.queue record hold hobj) (hcommits.fresh _ hrev)
  refine ⟨hconn, ?_, ?_, batch, hM, hcommits⟩
  · rw [headsOf_marked, headsOf_written, if_pos h.objectId.symm]
  · ext r
    rw [hcommits.mem_headsOf, Set.mem_singleton_iff]
    constructor
    · intro ⟨hr, hkept⟩
      rcases hr with hr | ⟨rev, hrev, hobj, rfl⟩
      · exact absurd (h.server r hr) (hkept M hM h.objectId)
      · rw [honly rev hrev hobj]
    · rintro rfl
      refine ⟨.inr ⟨M, hM, h.objectId, rfl⟩, fun rev hrev hobj hp => ?_⟩
      rw [honly rev hrev hobj] at hp
      exact h.fresh (h.stored _ hp).stored

/-- **Another client pulls the merge**, if its cursor is not ahead of what the server had, once the
server has committed the merge as the only head of the object. -/
theorem MergeOf.pulled {M : Revision} (h : MergeOf repo db c o parents M) (hc : ConnInv c)
    {c' : Conn} (hconn : ConnInv c') (hhead : c'.tables.headsOf o = {M.id}) {batch : List Revision}
    (hMb : M ∈ batch) (hcommits : Commits c.tables c'.tables repo.clientId c.nextval batch)
    {other : ClientId} {theirs : ClientDb} {params : PullRequest} (hother : other ≠ repo.clientId)
    (htheirs : ∀ l ∈ theirs.headsOf o, l ∈ M.parents)
    (hsince : ∀ s, params.since = some s → s.val ≤ c.tables.maxTransactionId)
    (hpass : Passes params.objectTypes params.createdAt params.filter M.row.stored) :
    PullsMerge other params theirs c' o M.id := by
  have hlisted : c'.tables.ListedIn M.id c.nextval := hcommits.listedIn_iff.mpr
    (.inr ⟨rfl, M, hMb, rfl⟩)
  obtain ⟨row, hrow, hid, hrowM⟩ : ∃ row ∈ c'.tables.revisions, row.id = M.id ∧
      row = M.row.stored := by
    obtain ⟨clients, ⟨rfl, -⟩ | ⟨-, ha⟩⟩ := hcommits
    · cases hMb
    · rw [ha.revisions]
      exact ⟨_, List.mem_append_right _ (List.mem_map_of_mem hMb), rfl, rfl⟩
  subst hrowM
  -- the cursor is behind the transaction of the merge
  have hmax : c.tables.maxTransactionId < c.nextval := by
    have hle : c.tables.maxTransactionId ≤ c.nextval - 1 := by
      refine Tables.maxTransactionId_le_iff.mpr fun x hx => ?_
      have hlt := hc.txn_lt x hx
      omega
    have hpos := hc.nextval_pos
    omega
  refine hconn.pullsMerge (fun s hs => ?_) hhead ?_ ⟨_, hrow, hid, hpass⟩ fun l hl => ?_
  · exact (hsince s hs).trans hc.tables.maxTransactionId_le
  · refine hconn.tables.changedFor_iff.mpr
      ⟨_, hrow, h.objectId, ?_, c.nextval, hid ▸ hlisted, ?_, ?_⟩
    · intro hby
      exact hother (hby.symm.trans h.createdBy)
    · cases hs : params.since with
      | none =>
        have hpos := hc.nextval_pos
        show ((0 : ℕ) : ℤ) < c.nextval
        omega
      | some s =>
        have hle := hsince s hs
        show ((s.val : ℕ) : ℤ) < c.nextval
        omega
    · exact_mod_cast hconn.tables.listedIn_le_max hlisted
  · right
    exact hcommits.parent_iff.mpr (.inr ⟨M, hMb, rfl, htheirs l hl⟩)

/-- **A resolution of all heads is taken over by everyone.**  The local heads, two or more,
include those of the server and are all stored there; nothing but the merge is pending of
the object that the server does not have.  The push of all that is pending is answered if
the columns can hold the values.  The client and the server end with the merge as their
only head, and so does every other client whose heads are among its parents, by a pull
that does not count a conflict. -/
theorem resolveConflict_converges (hc : ConnInv c) (hlen : 2 ≤ parents.length)
    (hnodup : parents.Nodup) (hlocal : ∀ r, r ∈ parents ↔ r ∈ db.headsOf o)
    (hserver : c.tables.headsOf o ⊆ db.headsOf o)
    (hstored : ∀ r ∈ db.headsOf o, c.tables.StoredAs r o)
    (hfresh : ¬ c.tables.Stored draw.revisionId) (hvalue : ∀ msg, resolved ≠ .active (.error msg))
    (hqueue : ∀ record ∈ db.pending, record.objectId = o → c.tables.Stored record.id) :
    ∃ M db₁, ((Call.resolveConflict o parents resolved).program repo draw).run
        (answer (httpServer repo.clientId)) (db, c) = (.ok M.id, (db₁, c)) ∧
      .fromRevision M .pending ∈ db₁.revisions ∧ M.objectId = o ∧ M.parents = parents ∧
      ((∀ record ∈ db₁.pending, record.revision.row.storable = true) → c.nextval ≤ i64Max →
        ∃ pushed rejected s₂, pushPending.run (answer (httpServer repo.clientId)) (db₁, c) =
          (.ok (pushed, rejected), s₂)) ∧
      ∀ pushed rejected db₂ c₂, pushPending.run (answer (httpServer repo.clientId)) (db₁, c) =
          (.ok (pushed, rejected), (db₂, c₂)) →
        db₂.headsOf o = {M.id} ∧ c₂.tables.headsOf o = {M.id} ∧
        ∀ (other : ClientId) (theirs : ClientDb) (params : PullRequest), other ≠ repo.clientId →
          (∀ l ∈ theirs.headsOf o, l ∈ M.parents) →
          (∀ s, params.since = some s → s.val ≤ c.tables.maxTransactionId) →
          Passes params.objectTypes params.createdAt params.filter M.row.stored →
          PullsMerge other params theirs c₂ o M.id := by
  obtain ⟨M, hcreates, hrun⟩ := run_resolveConflict (httpServer repo.clientId) repo draw resolved c
    hlen (fun p hp => (hlocal p).mp hp) hvalue
  have hparents : M.parents = parents := hcreates.parents
  have hM : MergeOf repo db c o parents M := by
    refine ⟨hcreates.objectId, hparents, hcreates.createdBy, hparents ▸ hnodup, fun p hp => ?_,
      fun r hr => ?_, hcreates.id ▸ hfresh, hqueue⟩
    · rw [hparents] at hp
      exact hstored p ((hlocal p).mp hp)
    · rw [hparents]
      exact (hlocal r).mpr (hserver hr)
  refine ⟨M, db.written M, hrun, mem_revisions_written.mpr (.inl rfl), hM.objectId, hparents,
    fun hstorable hnext => hc.pushPending_answered hnext hstorable,
    fun pushed rejected db₂ c₂ hpush => ?_⟩
  obtain ⟨hconn, hclient, hhead, batch, hMb, hcommits⟩ := hM.pushed hc hpush
  refine ⟨hclient, hhead, fun other theirs params hother htheirs hsince hpass => ?_⟩
  exact hM.pulled hc hconn hhead hMb hcommits hother htheirs hsince hpass

end Converges

/-! ### Two edits and their resolution

Client 7 holds the two edits of other clients, and the revision they stand on beside them. -/

/-- The resolution of all three, which draws the id `id`. -/
def resolvingTrip (id : RevisionId) : Browser RevisionId :=
  (Call.resolveConflict ⟨⟨10⟩⟩ [⟨⟨3⟩⟩, ⟨⟨1⟩⟩, ⟨⟨2⟩⟩] .deleted).program exampleRepository
    ⟨⟨⟨11⟩⟩, id, 0⟩

/-- The three heads have been resolved. -/
def resolvedTrip : Except ClientError RevisionId × (ClientDb × Conn) :=
  (resolvingTrip ⟨⟨4⟩⟩).run (answer (httpServer exampleRepository.clientId))
    (afterSync contestedTrip)

theorem mem_headsOf_contested : ∀ r, r ∈ [⟨⟨3⟩⟩, ⟨⟨1⟩⟩, ⟨⟨2⟩⟩] ↔
    r ∈ (afterSync contestedTrip).1.headsOf ⟨⟨10⟩⟩ := by
  have hlist : (afterSync contestedTrip).1.headList =
      [(⟨⟨10⟩⟩, ⟨⟨1⟩⟩), (⟨⟨10⟩⟩, ⟨⟨2⟩⟩), (⟨⟨10⟩⟩, ⟨⟨3⟩⟩)] := by decide +kernel
  intro r
  rw [← ClientDb.mem_headList, hlist]
  simp only [List.mem_cons, List.not_mem_nil, or_false, Prod.mk.injEq, true_and]
  rw [or_left_comm, or_comm (a := r = ⟨⟨3⟩⟩)]

theorem headsOf_contested_subset : (afterSync contestedTrip).2.tables.headsOf ⟨⟨10⟩⟩ ⊆
    (afterSync contestedTrip).1.headsOf ⟨⟨10⟩⟩ := by
  have hserved : (afterSync contestedTrip).2.tables.objectHeads =
      [⟨⟨⟨10⟩⟩, ⟨⟨2⟩⟩⟩, ⟨⟨⟨10⟩⟩, ⟨⟨3⟩⟩⟩] := by decide +kernel
  intro r hr
  rw [Tables.mem_headsOf, hserved] at hr
  rw [← mem_headsOf_contested]
  simp only [List.mem_cons, List.not_mem_nil, or_false, HeadRow.mk.injEq, true_and] at hr ⊢
  exact hr.elim (fun h => .inr (.inr h)) .inl

theorem storedAs_contested : ∀ r ∈ (afterSync contestedTrip).1.headsOf ⟨⟨10⟩⟩,
    (afterSync contestedTrip).2.tables.StoredAs r ⟨⟨10⟩⟩ := by
  have hstored : ∀ r ∈ [(⟨⟨3⟩⟩ : RevisionId), ⟨⟨1⟩⟩, ⟨⟨2⟩⟩],
      (afterSync contestedTrip).2.tables.StoredAs r ⟨⟨10⟩⟩ := by decide +kernel
  intro r hr
  exact hstored r ((mem_headsOf_contested r).mpr hr)

theorem resolveConflict_converges_trip : ∃ s, pushPending.run
      (answer (httpServer exampleRepository.clientId)) resolvedTrip.2 = (.ok (1, []), s) ∧
    s.1.headsOf ⟨⟨10⟩⟩ = {⟨⟨4⟩⟩} ∧ s.2.tables.headsOf ⟨⟨10⟩⟩ = {⟨⟨4⟩⟩} ∧
    PullsMerge ⟨⟨8⟩⟩ everything (.opened ⟨⟨8⟩⟩ ⟨⟨1⟩⟩) s.2 ⟨⟨10⟩⟩ ⟨⟨4⟩⟩ := by
  have hfresh : ¬ (afterSync contestedTrip).2.tables.Stored ⟨⟨4⟩⟩ := by decide +kernel
  have hpending : (afterSync contestedTrip).1.pending = [] := by decide +kernel
  have hok : resolvedTrip.1 = .ok ⟨⟨4⟩⟩ := by decide +kernel
  have hpushed : (pushPending.run (answer (httpServer exampleRepository.clientId))
      resolvedTrip.2).1 = .ok (1, []) := by decide +kernel
  have hrun := ClientRun.contestedTrip
  have hlocal := mem_headsOf_contested
  have hserver := headsOf_contested_subset
  have hstored := storedAs_contested
  rw [resolvedTrip] at hok hpushed ⊢
  generalize afterSync contestedTrip = s at *
  obtain ⟨db, c⟩ := s
  have hconn : ConnInv c := hrun.conn
  obtain ⟨M, db₁, hresolve, -, -, -, -, hall⟩ := @resolveConflict_converges
    exampleRepository ⟨⟨⟨11⟩⟩, ⟨⟨4⟩⟩, 0⟩ db c ⟨⟨10⟩⟩ [⟨⟨3⟩⟩, ⟨⟨1⟩⟩, ⟨⟨2⟩⟩] .deleted
      hconn (by decide)
    (by decide) hlocal hserver hstored hfresh nofun (by rw [hpending]; exact nofun)
  have hstate : (resolvingTrip ⟨⟨4⟩⟩).run (answer (httpServer exampleRepository.clientId)) (db, c) =
      (.ok M.id, (db₁, c)) := hresolve
  rw [hstate] at hok hpushed ⊢
  dsimp only at hok hpushed ⊢
  have hid : M.id = ⟨⟨4⟩⟩ := Except.ok.inj hok
  rcases hpush : pushPending.run (answer (httpServer exampleRepository.clientId)) (db₁, c) with
    ⟨r, db₂, c₂⟩
  rw [hpush] at hpushed
  obtain rfl : r = .ok (1, []) := hpushed
  obtain ⟨hclient, hhead, hothers⟩ := hall 1 [] db₂ c₂ hpush
  rw [hid] at hclient hhead hothers
  refine ⟨(db₂, c₂), hpush, hclient, hhead, ?_⟩
  exact hothers ⟨⟨8⟩⟩ (.opened ⟨⟨8⟩⟩ ⟨⟨1⟩⟩) everything (by decide)
    (fun l ⟨head, hmem, _⟩ => nomatch hmem) nofun ⟨nofun, nofun, nofun⟩

/-- The transaction that would have made the merge the only head has failed. -/
def orphanedTrip : Except ClientError RevisionId × (ClientDb × Conn) :=
  (resolvingTrip ⟨⟨4⟩⟩).runFailing (answer (httpServer exampleRepository.clientId))
    (.indexedDb "QuotaExceededError") 2 (afterSync contestedTrip)

/-- The call has been made again. -/
def retriedTrip : Except ClientError RevisionId × (ClientDb × Conn) :=
  (resolvingTrip ⟨⟨5⟩⟩).run (answer (httpServer exampleRepository.clientId)) orphanedTrip.2

theorem orphanedTrip_failed : orphanedTrip.1 = .error (.indexedDb "QuotaExceededError") := by
  decide +kernel

/-- The heads and the server are as before the call that has failed. -/
theorem orphanedTrip_unmoved :
    orphanedTrip.2.1.objectHeads = (afterSync contestedTrip).1.objectHeads ∧
      orphanedTrip.2.2 = (afterSync contestedTrip).2 := by
  have hfailed := orphanedTrip_failed
  rw [orphanedTrip, resolvingTrip] at hfailed ⊢
  generalize afterSync contestedTrip = s at *
  exact Call.runFailing_error_heads (Prod.ext hfailed rfl)

/-- **A merge that was left behind is pushed along**, and stays a head beside the one of the
call that has succeeded. -/
theorem resolveConflict_pushed_twice : orphanedTrip.1 = .error (.indexedDb "QuotaExceededError") ∧
    ConnInv orphanedTrip.2.2 ∧
    (∀ r, r ∈ [⟨⟨3⟩⟩, ⟨⟨1⟩⟩, ⟨⟨2⟩⟩] ↔ r ∈ orphanedTrip.2.1.headsOf ⟨⟨10⟩⟩) ∧
    orphanedTrip.2.2.tables.headsOf ⟨⟨10⟩⟩ ⊆ orphanedTrip.2.1.headsOf ⟨⟨10⟩⟩ ∧
    (∀ r ∈ orphanedTrip.2.1.headsOf ⟨⟨10⟩⟩, orphanedTrip.2.2.tables.StoredAs r ⟨⟨10⟩⟩) ∧
    ¬ orphanedTrip.2.2.tables.Stored ⟨⟨5⟩⟩ ∧ retriedTrip.1 = .ok ⟨⟨5⟩⟩ ∧
    ∃ s, pushPending.run (answer (httpServer exampleRepository.clientId)) retriedTrip.2 =
        (.ok (2, []), s) ∧
      s.2.tables.objectHeads = [⟨⟨⟨10⟩⟩, ⟨⟨4⟩⟩⟩, ⟨⟨⟨10⟩⟩, ⟨⟨5⟩⟩⟩] ∧
      s.2.tables.headsOf ⟨⟨10⟩⟩ ≠ {⟨⟨5⟩⟩} := by
  have hfresh : ¬ orphanedTrip.2.2.tables.Stored ⟨⟨5⟩⟩ := by decide +kernel
  have hretried : retriedTrip.1 = .ok ⟨⟨5⟩⟩ := by decide +kernel
  have hpushed : (pushPending.run (answer (httpServer exampleRepository.clientId))
      retriedTrip.2).1 = .ok (2, []) := by decide +kernel
  have htables : (pushPending.run (answer (httpServer exampleRepository.clientId))
      retriedTrip.2).2.2.tables.objectHeads = [⟨⟨⟨10⟩⟩, ⟨⟨4⟩⟩⟩, ⟨⟨⟨10⟩⟩, ⟨⟨5⟩⟩⟩] := by
    decide +kernel
  obtain ⟨hheads, hserver⟩ := orphanedTrip_unmoved
  have hlocal : orphanedTrip.2.1.headsOf ⟨⟨10⟩⟩ = (afterSync contestedTrip).1.headsOf ⟨⟨10⟩⟩ := by
    rw [ClientDb.headsOf, hheads]
    rfl
  rcases hpush : pushPending.run (answer (httpServer exampleRepository.clientId))
    retriedTrip.2 with ⟨r, s⟩
  rw [hpush] at hpushed htables
  obtain rfl : r = .ok (2, []) := hpushed
  rw [hserver] at hfresh
  rw [hlocal, hserver]
  refine ⟨orphanedTrip_failed, ClientRun.contestedTrip.conn, mem_headsOf_contested,
    headsOf_contested_subset, storedAs_contested, hfresh, hretried, s, hpush, htables,
    fun heq => ?_⟩
  have hfour : (⟨⟨4⟩⟩ : RevisionId) ∈ ({⟨⟨5⟩⟩} : Set RevisionId) := by
    rw [← heq, Tables.mem_headsOf, htables]
    exact List.mem_cons_self
  exact absurd hfour (by decide)

end Rustend
