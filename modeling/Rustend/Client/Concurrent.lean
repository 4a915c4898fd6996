import Rustend.Client.Offline
import Rustend.Client.Restart

/-!
# Local heads that are concurrent

The heads that a client keeps for an object should be versions that no other of them
supersedes.  A call leaves the object with a single head.  A pull leaves it with the
heads of the server, which are concurrent, or with those and the local ones beside them;
then it matters how the local ones stand to the server's.

## Main definitions

* `ClientDb.HeadsConcurrent` — no head is a declared parent of another.
* `ClientRun` — the states that a client gets to, with anything happening at the server
  between its calls.
* `KeepsApart` — the condition on a sync.

## Main results

* `concurrent_pulled` — what a pull preserves.
* `ClientRun.heads_concurrent` — **the heads stay concurrent as long as the syncs meet the
  condition.**
-/

namespace Rustend

open Interleave

/-! ### Concurrent heads -/

/-- No local head of an object is a declared parent of another one. -/
def ClientDb.HeadsConcurrent (db : ClientDb) : Prop :=
  ∀ a ∈ db.objectHeads, ∀ b ∈ db.objectHeads, a.objectId = b.objectId →
    a.revisionId ≠ b.revisionId → a.revisionId ∉ b.lineage.parents

instance (db : ClientDb) : Decidable db.HeadsConcurrent :=
  inferInstanceAs (Decidable (∀ a ∈ db.objectHeads.records, ∀ b ∈ db.objectHeads.records,
    a.objectId = b.objectId → a.revisionId ≠ b.revisionId → a.revisionId ∉ b.lineage.parents))

section Stores

variable {db : ClientDb} {u : ObjectUpdate}

/-- Writing a revision leaves its object with one head. -/
theorem concurrent_written (h : db.HeadsConcurrent) (rev : Revision) :
    (db.written rev).HeadsConcurrent := by
  intro a ha b hb hobj hne
  rcases mem_objectHeads_written ha with rfl | ⟨ha, hao⟩
  · rcases mem_objectHeads_written hb with rfl | ⟨-, hbo⟩
    · exact absurd rfl hne
    · exact absurd hobj.symm hbo
  · rcases mem_objectHeads_written hb with rfl | ⟨hb, -⟩
    · exact absurd hobj hao
    · exact h a ha b hb hobj hne

/-- The local heads that an update does not carry are unrelated to those it carries. -/
def ClientDb.Apart (db : ClientDb) (u : ObjectUpdate) : Prop :=
  ∀ head ∈ db.objectHeads, head.objectId = u.objectId →
    (∀ rev ∈ u.heads, rev.id ≠ head.revisionId) →
    ∀ rev ∈ u.heads, head.revisionId ∉ rev.parents ∧ rev.id ∉ head.lineage.parents

/-- Where the heads come from that an update leaves. -/
theorem mem_objectHeads_applied (hobj : ∀ rev ∈ u.heads, rev.objectId = u.objectId)
    {head : HeadRecord} (h : head ∈ (db.applied u).objectHeads) :
    (∃ rev ∈ u.heads, head = headRecordFromRevision u.objectId rev) ∨
      head ∈ db.objectHeads ∧ (head.objectId = u.objectId →
        ¬ db.Clears u ∧ ∀ rev ∈ u.heads, rev.id ≠ head.revisionId) :=
  ((mem_objectHeads_applied_iff hobj).mp h).imp_left mem_writtenHeads

/-- **What one update preserves.** -/
theorem concurrent_applied (h : db.HeadsConcurrent)
    (hobj : ∀ rev ∈ u.heads, rev.objectId = u.objectId)
    (hheads : ∀ a ∈ u.heads, ∀ b ∈ u.heads, a.id ∉ b.parents) (hu : db.Clears u ∨ db.Apart u) :
    (db.applied u).HeadsConcurrent := by
  -- a head that stays beside those of the update stands apart from them
  have hapart : ∀ head ∈ db.objectHeads, (head.objectId = u.objectId →
      ¬ db.Clears u ∧ ∀ rev ∈ u.heads, rev.id ≠ head.revisionId) → head.objectId = u.objectId →
      ∀ rev ∈ u.heads, head.revisionId ∉ rev.parents ∧ rev.id ∉ head.lineage.parents := by
    intro head hmem hkept hho
    obtain ⟨hnc, hnew⟩ := hkept hho
    exact (hu.resolve_left hnc) head hmem hho hnew
  intro a ha b hb hab hne
  rcases mem_objectHeads_applied hobj ha with ⟨ra, hra, rfl⟩ | ⟨hao, hka⟩
  · rcases mem_objectHeads_applied hobj hb with ⟨rb, hrb, rfl⟩ | ⟨hbo, hkb⟩
    · exact hheads ra hra rb hrb
    · exact (hapart b hbo hkb hab.symm ra hra).2
  · rcases mem_objectHeads_applied hobj hb with ⟨rb, hrb, rfl⟩ | ⟨hbo, -⟩
    · exact (hapart a hao hka hab rb hrb).1
    · exact h a hao b hbo hab hne

/-- An update leaves the heads of other objects as they stand to theirs. -/
theorem apart_applied {v : ObjectUpdate} (hobj : ∀ rev ∈ u.heads, rev.objectId = u.objectId)
    (hne : v.objectId ≠ u.objectId) (h : db.Apart v) : (db.applied u).Apart v := by
  intro head hmem hho
  rcases mem_objectHeads_applied hobj hmem with ⟨rev, -, rfl⟩ | ⟨hold, -⟩
  · exact absurd hho.symm hne
  · exact h head hold hho

/-- **What all updates of a pull preserve**, by induction over them: each is about an
object of its own. -/
theorem concurrent_pulled : ∀ {updates : List ObjectUpdate} {db : ClientDb}, db.HeadsConcurrent →
    (updates.map (·.objectId)).Nodup →
    (∀ u ∈ updates, ∀ rev ∈ u.heads, rev.objectId = u.objectId) →
    (∀ u ∈ updates, ∀ a ∈ u.heads, ∀ b ∈ u.heads, a.id ∉ b.parents) →
    (∀ u ∈ updates, db.Clears u ∨ db.Apart u) → (db.pulled updates).HeadsConcurrent
  | [], db, h, _, _, _, _ => h
  | u :: updates, db, h, hdistinct, hobj, hheads, hfits => by
    obtain ⟨hobju, hobj⟩ := List.forall_mem_cons.mp hobj
    obtain ⟨hheadsu, hheads⟩ := List.forall_mem_cons.mp hheads
    obtain ⟨hfitsu, hfits⟩ := List.forall_mem_cons.mp hfits
    rw [List.map_cons, List.nodup_cons] at hdistinct
    rw [pulled_cons]
    apply concurrent_pulled (concurrent_applied h hobju hheadsu hfitsu) hdistinct.2 hobj hheads
    intro v hv
    have hne : v.objectId ≠ u.objectId := by
      intro heq
      exact hdistinct.1 (heq ▸ List.mem_map_of_mem hv)
    rcases hfits v hv with hclears | hapart
    · exact .inl ((clears_congr (headsOf_applied_of_ne hobju hne)).mpr hclears)
    · exact .inr (apart_applied hobju hne hapart)

end Stores

/-! ### The states of a client -/

/-- The states that a client and its server get to.  The client makes its calls and
completes syncs that `allowed` admits, one after the other; in between the server serves
any requests. -/
inductive ClientRun (allowed : PullRequest → ClientDb × Conn → Prop) (repo : Repository) :
    ClientDb × Conn → Prop where
  | opened {c : Conn} : ConnInv c → ClientRun allowed repo (.opened repo.clientId repo.userId, c)
  | call {s : ClientDb × Conn} (call : Call) (draw : Draw) : ClientRun allowed repo s →
      ClientRun allowed repo
        ((call.program repo draw).run (answer (httpServer repo.clientId)) s).2
  | sync {s s' : ClientDb × Conn} {params : PullRequest} {result : SyncResult} :
      ClientRun allowed repo s → allowed params s →
      (Repository.sync params).run (answer (httpServer repo.clientId)) s = (.ok result, s') →
      ClientRun allowed repo s'
  | request {s : ClientDb × Conn} (req : ServerRequest) : ClientRun allowed repo s →
      ClientRun allowed repo (s.1, ((serve req).run Stmt.eval s.2).2)

/-- A pull by `client` returns the object: others have changed it since the cursor, and
one of its heads passes the filters. -/
def Tables.Returns (t : Tables) (client : ClientId) (params : PullRequest) (o : ObjectId) : Prop :=
  t.ChangedFor client ((params.since.map (·.val)).getD 0 : ℕ) t.maxTransactionId o ∧
    ∃ row ∈ t.revisions, ⟨o, row.id⟩ ∈ t.objectHeads ∧
      Passes params.objectTypes params.createdAt params.filter row

/-- The tables that the pull of a sync finds: what was pending has been pushed. -/
def pushedTables (client : ClientId) (s : ClientDb × Conn) : Tables :=
  (pushPending.run (answer (httpServer client)) s).2.2.tables

/-- The condition on a sync: for each object that the pull returns, the server has a
single head, with every local head being that one or a declared parent of it; or the
local heads that are not heads of the server are neither declared parents of such nor
have one as a declared parent. -/
def KeepsApart (client : ClientId) (params : PullRequest) (s : ClientDb × Conn) : Prop :=
  let t := pushedTables client s
  ∀ o, t.Returns client { params with since := params.since.or s.1.lastTxn } o →
    (∃ r, t.headsOf o = {r} ∧ ∀ l ∈ s.1.headsOf o, l = r ∨ t.Parent l r) ∨
    ∀ head ∈ s.1.objectHeads, head.objectId = o → head.revisionId ∉ t.headsOf o →
      ∀ r ∈ t.headsOf o, ¬ t.Parent head.revisionId r ∧ r ∉ head.lineage.parents

/-- **A completed sync preserves concurrent heads**, under the condition. -/
theorem ConnInv.concurrent_sync {client : ClientId} {s s' : ClientDb × Conn} (hc : ConnInv s.2)
    (h : s.1.HeadsConcurrent) {params : PullRequest} {result : SyncResult}
    (hapart : KeepsApart client params s)
    (hrun : (Repository.sync params).run (answer (httpServer client)) s = (.ok result, s')) :
    s'.1.HeadsConcurrent := by
  obtain ⟨db, c⟩ := s
  obtain ⟨db', c'⟩ := s'
  obtain ⟨resp, batch, db₁, c₁, updates, hpush, hdone, -, hpulled⟩ := hc.sync_ok hrun
  have hstored : db₁.objectHeads = db.objectHeads := by
    rw [hdone.stores, marked_objectHeads]
  have ht : pushedTables client (db, c) = c₁.tables := by rw [pushedTables, hpush]
  have hans := hpulled.answers
  have hwf := hpulled.conn.tables
  obtain ⟨clients, hclients⟩ := hpulled.tables
  have hobj : ∀ u ∈ updates, ∀ rev ∈ u.heads, rev.objectId = u.objectId :=
    fun u hu rev hrev => hans.objectId hwf hu hrev
  have hafter : (db₁.pulled updates).HeadsConcurrent := by
    apply concurrent_pulled _ hans.distinct hobj
    · -- the heads of the server are nobody's parents
      intro u hu a ha b hb hpar
      have hhead : a.id ∈ c'.tables.headsOf u.objectId := (hans.mem_heads hu).mp ⟨a, ha, rfl⟩
      exact hwf.head_not_parent hhead ((hans.parents hu hb).mp hpar)
    · intro u hu
      have hret : c'.tables.Returns client { params with since := params.since.or db.lastTxn }
          u.objectId := (hans.objects u.objectId).mp (List.mem_map_of_mem hu)
      have hcond := hapart u.objectId (by rw [ht]; rw [hclients] at hret; exact hret)
      rw [ht] at hcond
      rcases hcond with hreplace | hadd
      · -- the update replaces the heads
        left
        rw [hans.clears_iff hu, hdone.headsOf, hclients]
        exact hreplace
      · -- the update adds heads: those that stay are related to none of them
        right
        intro head hmem hho hnew rev hrev
        rw [hstored] at hmem
        have hnot : head.revisionId ∉ c₁.tables.headsOf u.objectId := by
          intro hin
          have hin' : head.revisionId ∈ c'.tables.headsOf u.objectId := by
            rw [hclients]
            exact hin
          obtain ⟨rev', hrev', hid⟩ := (hans.mem_heads hu).mpr hin'
          exact hnew rev' hrev' hid
        have hr : rev.id ∈ c'.tables.headsOf u.objectId := (hans.mem_heads hu).mp ⟨rev, hrev, rfl⟩
        rw [hclients] at hr
        obtain ⟨hnp, hnl⟩ := hadd head hmem hho hnot rev.id hr
        refine ⟨fun hpar => hnp ?_, hnl⟩
        have hpar' := (hans.parents hu hrev).mp hpar
        rw [hclients] at hpar'
        exact hpar'
    · -- a push does not touch the heads
      intro a ha b hb
      rw [hstored] at ha hb
      exact h a ha b hb
  intro a ha b hb
  rw [hpulled.stores, advanced_objectHeads] at ha hb
  exact hafter a ha b hb

/-- The server is in order in every state that the client gets to. -/
theorem ClientRun.conn {allowed : PullRequest → ClientDb × Conn → Prop} {repo : Repository}
    {s : ClientDb × Conn} (h : ClientRun allowed repo s) : ConnInv s.2 := by
  induction h with
  | opened hc => exact hc
  | @call s call draw _ ih =>
    rcases call.run_program (httpServer repo.clientId) s.1 s.2 repo draw with
      ⟨e, herr⟩ | ⟨rev, -, hok⟩
    · rw [herr]
      exact ih
    · rw [hok]
      exact ih
  | sync _ _ hrun ih =>
    obtain ⟨resp, batch, db₁, c₁, updates, -, -, -, hpulled⟩ := ih.sync_ok hrun
    exact hpulled.conn
  | request req _ ih => exact ih.serve req

/-- **The local heads stay concurrent as long as the syncs meet the condition**, in every
state that the client gets to. -/
theorem ClientRun.heads_concurrent {repo : Repository} {s : ClientDb × Conn}
    (h : ClientRun (KeepsApart repo.clientId) repo s) : s.1.HeadsConcurrent := by
  induction h with
  | opened hc => exact fun a ha => nomatch ha
  | @call s call draw _ ih =>
    rcases call.run_program (httpServer repo.clientId) s.1 s.2 repo draw with
      ⟨e, herr⟩ | ⟨rev, -, hok⟩
    · rw [herr]
      exact ih
    · rw [hok]
      exact concurrent_written ih rev
  | sync hbefore hapart hrun ih => exact hbefore.conn.concurrent_sync ih hapart hrun
  | request req _ ih => exact ih

/-! ### A client among others

The client 7 saves an object and syncs; then others edit it. -/

/-- A pull of everything, from the stored cursor. -/
def everything : PullRequest := ⟨none, none, none, none⟩

/-- The state after a sync of the repository of client 7. -/
def afterSync (s : ClientDb × Conn) : ClientDb × Conn :=
  ((Repository.sync everything).run (answer (httpServer exampleRepository.clientId)) s).2

/-- The state after the server has served a request. -/
def afterRequest (req : ServerRequest) (s : ClientDb × Conn) : ClientDb × Conn :=
  (s.1, ((serve req).run Stmt.eval s.2).2)

/-- An edit of object 10 by another client. -/
def theirEdit (client n parent : ℕ) : Revision :=
  ⟨⟨⟨n⟩⟩, ⟨⟨10⟩⟩, "trip", .update ⟨⟨parent⟩⟩, 0, ⟨⟨client⟩⟩, .active .null⟩

/-- Client 7 has saved the revision 1 of object 10. -/
def savedTrip : ClientDb × Conn :=
  afterCall (.save "trip" (.ok .null)) ⟨⟨⟨10⟩⟩, ⟨⟨1⟩⟩, 0⟩
    (.opened ⟨⟨7⟩⟩ ⟨⟨1⟩⟩, ⟨{}, 1, none⟩)

/-- It has synced, and another client has edited the object. -/
def editedTrip : ClientDb × Conn :=
  afterRequest (.push ⟨⟨8⟩⟩ [theirEdit 8 2 1])
    (afterRequest (.register ⟨⟨8⟩⟩) (afterSync savedTrip))

/-- A third client has edited it as well. -/
def contestedTrip : ClientDb × Conn :=
  afterRequest (.push ⟨⟨9⟩⟩ [theirEdit 9 3 1]) (afterRequest (.register ⟨⟨9⟩⟩) editedTrip)

section Trip

variable {allowed : PullRequest → ClientDb × Conn → Prop}

theorem ClientRun.savedTrip : ClientRun allowed exampleRepository savedTrip :=
  .call (.save "trip" (.ok .null)) ⟨⟨⟨10⟩⟩, ⟨⟨1⟩⟩, 0⟩ (.opened .empty)

theorem ClientRun.afterSync {s : ClientDb × Conn} (h : ClientRun allowed exampleRepository s)
    (hallowed : allowed everything s) (result : SyncResult)
    (hok : ((Repository.sync everything).run (answer (httpServer exampleRepository.clientId)) s).1 =
      .ok result) : ClientRun allowed exampleRepository (afterSync s) :=
  h.sync hallowed (Prod.ext hok rfl)

theorem ClientRun.editedTrip (hallowed : allowed everything Rustend.savedTrip) :
    ClientRun allowed exampleRepository editedTrip := by
  have hsynced := ClientRun.savedTrip.afterSync hallowed ⟨1, 0, 0, []⟩
    (by decide +kernel)
  exact (hsynced.request (.register ⟨⟨8⟩⟩)).request (.push ⟨⟨8⟩⟩ [theirEdit 8 2 1])

/-- Only objects that others have changed matter to the condition on a sync. -/
theorem KeepsApart.of_changed {client : ClientId} {params : PullRequest} {s : ClientDb × Conn}
    (h : ∀ o ∈ (pushedTables client s).changedObjects
        (((params.since.or s.1.lastTxn).map (·.val)).getD 0 : ℕ)
        (pushedTables client s).maxTransactionId client,
      ∃ r, (pushedTables client s).headsOf o = {r} ∧
        ∀ l ∈ s.1.headsOf o, l = r ∨ (pushedTables client s).Parent l r) :
    KeepsApart client params s :=
  fun o ho => .inl (h o (Tables.mem_changedObjects.mpr ho.1))

/-- The second sync brings the edit of the other client. -/
theorem ClientRun.heads_concurrent_trip :
    (Rustend.afterSync Rustend.editedTrip).1.headsOf ⟨⟨10⟩⟩ = {⟨⟨2⟩⟩} ∧
      (Rustend.afterSync Rustend.editedTrip).1.HeadsConcurrent := by
  -- the first sync finds nothing of others
  have hfirst : KeepsApart exampleRepository.clientId everything Rustend.savedTrip := by
    apply KeepsApart.of_changed
    intro o ho
    have hnone : (pushedTables exampleRepository.clientId Rustend.savedTrip).changedObjects 0
        (pushedTables exampleRepository.clientId Rustend.savedTrip).maxTransactionId
        exampleRepository.clientId = [] := by decide +kernel
    rw [show (((everything.since.or Rustend.savedTrip.1.lastTxn).map (·.val)).getD 0 : ℕ) = 0 from
      rfl, Nat.cast_zero, hnone] at ho
    cases ho
  -- the second finds one head, on top of the local one
  have hsecond : KeepsApart exampleRepository.clientId everything Rustend.editedTrip := by
    apply KeepsApart.of_changed
    intro o ho
    have hone : ∀ o ∈ (pushedTables exampleRepository.clientId Rustend.editedTrip).changedObjects
        (((everything.since.or Rustend.editedTrip.1.lastTxn).map (·.val)).getD 0 : ℕ)
        (pushedTables exampleRepository.clientId Rustend.editedTrip).maxTransactionId
        exampleRepository.clientId, o = ⟨⟨10⟩⟩ := by decide +kernel
    have hserver : (pushedTables exampleRepository.clientId Rustend.editedTrip).objectHeads =
        [⟨⟨⟨10⟩⟩, ⟨⟨2⟩⟩⟩] := by decide +kernel
    have hlocal : ∀ head ∈ Rustend.editedTrip.1.objectHeads.records, head.revisionId = ⟨⟨1⟩⟩ := by
      decide +kernel
    have hparent :
        (pushedTables exampleRepository.clientId Rustend.editedTrip).Parent ⟨⟨1⟩⟩ ⟨⟨2⟩⟩ := by
      decide +kernel
    obtain rfl := hone o ho
    refine ⟨⟨⟨2⟩⟩, ?_, ?_⟩
    · ext r
      rw [Tables.mem_headsOf, hserver, List.mem_singleton, Set.mem_singleton_iff, HeadRow.mk.injEq]
      exact and_iff_right rfl
    · intro l ⟨head, hmem, _, hl⟩
      rw [← hl, hlocal head hmem]
      exact .inr hparent
  have hrun := (ClientRun.editedTrip hfirst).afterSync hsecond ⟨0, 1, 0, []⟩
    (by decide +kernel)
  refine ⟨?_, hrun.heads_concurrent⟩
  have hheads : (Rustend.afterSync Rustend.editedTrip).1.headList = [(⟨⟨10⟩⟩, ⟨⟨2⟩⟩)] := by
    decide +kernel
  ext r
  rw [← ClientDb.mem_headList, hheads, List.mem_singleton, Prod.mk.injEq, Set.mem_singleton_iff]
  exact and_iff_right rfl

/-- Both edits have been pulled. -/
theorem ClientRun.contestedTrip :
    ClientRun (fun _ _ => True) exampleRepository (Rustend.afterSync Rustend.contestedTrip) := by
  have hedited : ClientRun (fun _ _ => True) exampleRepository Rustend.contestedTrip :=
    ((ClientRun.editedTrip trivial).request (.register ⟨⟨9⟩⟩)).request
      (.push ⟨⟨9⟩⟩ [theirEdit 9 3 1])
  exact hedited.afterSync trivial ⟨0, 2, 1, []⟩ (by decide +kernel)

/-- With two edits of others the revision they stand on stays a head beside them. -/
theorem ClientRun.stale_head_stays : ∃ s, ClientRun (fun _ _ => True) exampleRepository s ∧
    ¬ s.1.HeadsConcurrent :=
  ⟨_, ClientRun.contestedTrip, by decide +kernel⟩

end Trip

end Rustend
