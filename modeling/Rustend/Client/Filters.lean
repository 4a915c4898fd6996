import Rustend.Client.Concurrent

/-!
# Syncs with different filters

A client keeps one cursor, whatever the filters of its syncs.  A completed sync moves it past
every transaction of the server, also past those that changed only objects that did not pass;
and these are not sent again before somebody changes them.

## Main definitions

* `Tables.LastChange` — the last transaction that changed an object.
* `Filtered` — the runs of a client that syncs with any filters.
* `FilteredInv` — their invariant.

## Main results

* `FilteredInv.commits`, `FilteredInv.pulled` — what a push and a pull preserve.
* `Filtered.heads_present` — **the objects that are there after a sync.**
-/

namespace Rustend

open Interleave

/-- Transaction `n` of `author` is the last one that changed the object. -/
structure Tables.LastChange (t : Tables) (o : ObjectId) (n : ℕ) (author : ClientId) : Prop where
  listed : ∃ row ∈ t.revisions, row.objectId = o ∧ row.createdBy = author ∧ t.ListedIn row.id n
  last : ∀ row ∈ t.revisions, row.objectId = o → ∀ m, t.ListedIn row.id m → m ≤ n

/-- One of the current heads of the object passes the filters. -/
def Tables.HeadPasses (t : Tables) (params : PullRequest) (o : ObjectId) : Prop :=
  ∃ row ∈ t.revisions, ⟨o, row.id⟩ ∈ t.objectHeads ∧
    Passes params.objectTypes params.createdAt params.filter row

/-- A completed sync: its filters, and the transaction up to which it has pulled. -/
structure Synced where
  params : PullRequest
  upTo : ℕ

/-! ### An object that a push does not touch -/

section Untouched

variable {t t' : Tables} {client author : ClientId} {n m : ℕ} {batch : List Revision} {o : ObjectId}

theorem Commits.lastChange_of_untouched (h : Commits t t' client n batch)
    (ho : ∀ rev ∈ batch, rev.objectId ≠ o) (hl : t'.LastChange o m author) :
    t.LastChange o m author := by
  obtain ⟨⟨row, hrow, hobj, hby, hm⟩, hlast⟩ := hl
  have hold := (h.row_of_untouched ho hobj).mp hrow
  refine ⟨⟨row, hold, hobj, hby, ?_⟩, fun row' hrow' hobj' k hk => ?_⟩
  · rcases h.listedIn_iff.mp hm with hm | ⟨-, rev, hrev, hid⟩
    · exact hm
    · exact absurd ⟨row, hold, hid.symm⟩ (h.fresh rev hrev)
  · have hrow' := (h.row_of_untouched ho hobj').mpr hrow'
    exact hlast row' hrow' hobj' k (h.listedIn_iff.mpr (.inl hk))

theorem Commits.headPasses_of_untouched (h : Commits t t' client n batch) (ht' : WellFormed t')
    (ho : ∀ rev ∈ batch, rev.objectId ≠ o) {params : PullRequest} (hp : t'.HeadPasses params o) :
    t.HeadPasses params o := by
  obtain ⟨row, hrow, hhead, hpasses⟩ := hp
  have hobj : row.objectId = o :=
    ht'.storedAs_unique ⟨row, hrow, rfl, rfl⟩ (ht'.head_storedAs hhead)
  refine ⟨row, (h.row_of_untouched ho hobj).mp hrow, ?_, hpasses⟩
  rwa [← Tables.mem_headsOf, ← h.headsOf_of_untouched ho]

/-- The last change of an object that a push touches is that push. -/
theorem Commits.le_lastChange (h : Commits t t' client n batch) {rev : Revision}
    (hrev : rev ∈ batch) (hl : t'.LastChange rev.objectId m author) : n ≤ m := by
  refine hl.last rev.row.stored ?_ rfl n ?_
  · rw [h.revisions_eq]
    exact List.mem_append_right _ (List.mem_map_of_mem hrev)
  · exact h.listedIn_iff.mpr (.inr ⟨rfl, rev, hrev, rfl⟩)

end Untouched

/-! ### The runs -/

/-- The states that a client gets to whose syncs leave the cursor to the repository and use
any filters.  Other clients push, each on its own; requests and responses of a sync may get
lost.  `made` are the revisions that the client's own calls have created, under new ids, and
`syncs` the completed syncs. -/
inductive Filtered (repo : Repository) :
    ClientDb × Conn → List (ObjectId × RevisionId) → List Synced → Prop where
  | opened {c : Conn} : ConnInv c → Filtered repo (.opened repo.clientId repo.userId, c) [] []
  | call {s s' : ClientDb × Conn} {made : List (ObjectId × RevisionId)} {syncs : List Synced}
      {call : Call} {draw : Draw} {id : RevisionId} : Filtered repo s made syncs →
      ¬ s.2.tables.Stored draw.revisionId →
      (call.program repo draw).run (answer (httpServer repo.clientId)) s = (.ok id, s') →
      Filtered repo s' (made ++ [(call.objectId draw, id)]) syncs
  | push {s : ClientDb × Conn} {made : List (ObjectId × RevisionId)} {syncs : List Synced}
      {client : ClientId} (revisions : List Revision) : Filtered repo s made syncs →
      client ≠ repo.clientId →
      Filtered repo (s.1, ((httpServer client).changes ⟨revisions⟩ s.2).2) made syncs
  | sync {s s' : ClientDb × Conn} {made : List (ObjectId × RevisionId)} {syncs : List Synced}
      {params : PullRequest} {net : Net Conn} {result : SyncResult} : Filtered repo s made syncs →
      Relays repo.clientId net → params.since = none →
      (Repository.sync params).run (answer net) s = (.ok result, s') →
      Filtered repo s' made (syncs ++ [⟨params, s'.2.tables.maxTransactionId⟩])
  | failed {s s' : ClientDb × Conn} {made : List (ObjectId × RevisionId)} {syncs : List Synced}
      {params : PullRequest} {net : Net Conn} {e : ClientError} : Filtered repo s made syncs →
      Relays repo.clientId net → params.since = none →
      (Repository.sync params).run (answer net) s = (.error e, s') → Filtered repo s' made syncs

/-- The server has what the client has made of the object. -/
def Tables.Holds (t : Tables) (made : List (ObjectId × RevisionId)) (o : ObjectId) : Prop :=
  ∀ e ∈ made, e.1 = o → t.StoredAs e.2 o

/-- The first of the completed syncs that pulled up to transaction `n`. -/
def firstCovering (syncs : List Synced) (n : ℕ) : Option Synced := syncs.find? fun x => n ≤ x.upTo

/-- The heads of the server are there, for the objects whose last change was pulled and passed. -/
def HeadsPresent (client : ClientId) (s : ClientDb × Conn) (made : List (ObjectId × RevisionId))
    (syncs : List Synced) : Prop :=
  ∀ o n author x, s.2.tables.LastChange o n author → author ≠ client → s.2.tables.Holds made o →
    firstCovering syncs n = some x → s.2.tables.HeadPasses x.params o →
    s.2.tables.headsOf o ⊆ s.1.headsOf o

/-- The invariant of these runs. -/
structure FilteredInv (repo : Repository) (s : ClientDb × Conn)
    (made : List (ObjectId × RevisionId)) (syncs : List Synced) : Prop where
  conn : ConnInv s.2
  /-- The cursor is where the last completed sync has left it. -/
  cursor : s.1.syncState =
    some ⟨some repo.clientId, some repo.userId, syncs.getLast?.map fun x => ⟨x.upTo⟩⟩
  upTo : ∀ x ∈ syncs, x.upTo ≤ s.2.tables.maxTransactionId
  /-- No earlier sync has pulled further than the last one. -/
  last : ∀ x ∈ syncs, ∀ y ∈ syncs.getLast?, x.upTo ≤ y.upTo
  present : HeadsPresent repo.clientId s made syncs

section Inv

variable {repo : Repository} {db db' : ClientDb} {c c' : Conn} {s s' : ClientDb × Conn}
  {made : List (ObjectId × RevisionId)} {syncs : List Synced} {client : ClientId}
  {batch : List Revision} {updates : List ObjectUpdate} {params : PullRequest}

theorem FilteredInv.opened (hc : ConnInv c) :
    FilteredInv repo (.opened repo.clientId repo.userId, c) [] [] where
  conn := hc
  cursor := rfl
  upTo := nofun
  last := nofun
  present := by
    intro o n author x _ _ _ hx
    cases hx

/-- **What a push preserves**, whoever pushes: what it touches has not been pulled. -/
theorem FilteredInv.commits (h : FilteredInv repo (db, c) made syncs) (hc' : ConnInv c')
    (hcommits : Commits c.tables c'.tables client c.nextval batch) :
    FilteredInv repo (db, c') made syncs where
  conn := hc'
  cursor := h.cursor
  upTo x hx := (h.upTo x hx).trans hcommits.maxTransactionId_le
  last := h.last
  present := by
    intro o n author x hlast hby hown hx hpasses
    by_cases ho : ∃ rev ∈ batch, rev.objectId = o
    · obtain ⟨rev, hrev, rfl⟩ := ho
      have hn := hcommits.le_lastChange hrev hlast
      have hx' : n ≤ x.upTo := by simpa using List.find?_some hx
      have hmax := h.upTo x (List.mem_of_find?_eq_some hx)
      have hnew := h.conn.maxTransactionId_lt
      dsimp only at hmax hnew
      omega
    · have ho : ∀ rev ∈ batch, rev.objectId ≠ o := fun rev hrev heq => ho ⟨rev, hrev, heq⟩
      show c'.tables.headsOf o ⊆ db.headsOf o
      rw [hcommits.headsOf_of_untouched ho]
      refine h.present o n author x (hcommits.lastChange_of_untouched ho hlast) hby ?_ hx
        (hcommits.headPasses_of_untouched hc'.tables ho hpasses)
      intro e he heo
      rcases hcommits.storedAs_iff.mp (hown e he heo) with hold | ⟨rev, hrev, -, hobj⟩
      · exact hold
      · exact absurd hobj (ho rev hrev)

/-- What a call preserves: the server does not have the new revision. -/
theorem FilteredInv.written (h : FilteredInv repo (db, c) made syncs) {rev : Revision}
    (hfresh : ¬ c.tables.Stored rev.id) :
    FilteredInv repo (db.written rev, c) (made ++ [(rev.objectId, rev.id)]) syncs where
  conn := h.conn
  cursor := h.cursor
  upTo := h.upTo
  last := h.last
  present := by
    intro o n author x hlast hby hown hx hpasses
    by_cases ho : o = rev.objectId
    · have hmade := List.mem_append_right made (List.mem_singleton_self (rev.objectId, rev.id))
      have hnew := hown (rev.objectId, rev.id) hmade ho.symm
      exact absurd hnew.stored hfresh
    · show c.tables.headsOf o ⊆ (db.written rev).headsOf o
      rw [headsOf_written, if_neg ho]
      have hown : c.tables.Holds made o := fun e he => hown e (List.mem_append_left _ he)
      exact h.present o n author x hlast hby hown hx hpasses

/-- Statuses do not matter. -/
theorem FilteredInv.marked (h : FilteredInv repo (db, c) made syncs)
    (marks : List (RevisionId × SyncStatus)) :
    FilteredInv repo (db.marked marks, c) made syncs where
  conn := h.conn
  cursor := by
    show (db.marked marks).syncState = _
    rw [marked_syncState]
    exact h.cursor
  upTo := h.upTo
  last := h.last
  present := by
    intro o n author x hlast hby hown hx hpasses
    show c.tables.headsOf o ⊆ (db.marked marks).headsOf o
    rw [headsOf_marked]
    exact h.present o n author x hlast hby hown hx hpasses

/-- **What a pull leaves of the heads**: those of the server for what it returns, and the others as
they were. -/
theorem Answers.subset_headsOf_pulled {t : Tables} {since upTo : ℤ} {passes : RevisionRow → Prop}
    (hans : Answers t client since upTo passes updates) (ht : WellFormed t) (db : ClientDb)
    (o : ObjectId) : t.headsOf o ⊆ (db.pulled updates).headsOf o ∨
      o ∉ updates.map (·.objectId) ∧ (db.pulled updates).headsOf o = db.headsOf o := by
  have hobj : ∀ u ∈ updates, ∀ rev ∈ u.heads, rev.objectId = u.objectId :=
    fun u hu rev hrev => hans.objectId ht hu hrev
  by_cases ho : o ∈ updates.map (·.objectId)
  · left
    obtain ⟨u, hu, rfl⟩ := List.mem_map.mp ho
    rw [headsOf_pulled_of_mem hobj hans.distinct hu]
    rcases hans.headsOf_applied ht hu db with ⟨-, heq⟩ | ⟨-, heq⟩
    · exact heq.ge
    · rw [heq]
      exact Set.subset_union_right
  · exact .inr ⟨ho, headsOf_pulled_of_notMem hobj ho⟩

/-- The cursor is before a transaction that no sync has pulled. -/
theorem FilteredInv.lastTxn_lt (h : FilteredInv repo (db, c) made syncs) {r : RevisionId} {n : ℕ}
    (hnone : firstCovering syncs n = none) (hlisted : c.tables.ListedIn r n) :
    (db.lastTxn.map (·.val)).getD 0 < n := by
  have hcursor : db.lastTxn = syncs.getLast?.map fun x => ⟨x.upTo⟩ := by
    rw [ClientDb.lastTxn, h.cursor]
    rfl
  rw [hcursor]
  cases hlast : syncs.getLast? with
  | none =>
    obtain ⟨x, hx, rfl⟩ := h.conn.tables.listedIn_txn hlisted
    exact (h.conn.tables.txn_range x hx).1
  | some y =>
    have hy := List.find?_eq_none.mp hnone y (List.mem_of_getLast? hlast)
    simpa using hy

/-- **What a completed pull preserves**, from the cursor. -/
theorem FilteredInv.pulled (h : FilteredInv repo (db, c) made syncs) (clients : List ClientId)
    (hans : Answers (c.withClients clients).tables repo.clientId
      ((db.lastTxn.map (·.val)).getD 0 : ℕ) c.tables.maxTransactionId
      (Passes params.objectTypes params.createdAt params.filter) updates) :
    FilteredInv repo
      ((db.pulled updates).advanced ⟨c.tables.maxTransactionId⟩, c.withClients clients)
      made (syncs ++ [⟨params, c.tables.maxTransactionId⟩]) where
  conn := h.conn.withClients clients
  cursor := by
    have hstate : (db.pulled updates).syncState = _ := (pulled_syncState db updates).trans h.cursor
    rw [advanced_syncState hstate, List.getLast?_concat]
    rfl
  upTo := by
    intro x hx
    rcases List.mem_append.mp hx with hx | hx
    · exact h.upTo x hx
    · rw [List.mem_singleton.mp hx]
      exact le_rfl
  last := by
    intro x hx y hy
    rw [List.getLast?_concat, Option.mem_some_iff] at hy
    rw [← hy]
    rcases List.mem_append.mp hx with hx | hx
    · exact h.upTo x hx
    · rw [List.mem_singleton.mp hx]
  present := by
    intro o n author x hlast hby hown hx hpasses
    have ht : WellFormed (c.withClients clients).tables := (h.conn.withClients clients).tables
    have hlast : c.tables.LastChange o n author := ⟨hlast.listed, hlast.last⟩
    show (c.withClients clients).tables.headsOf o ⊆
      ((db.pulled updates).advanced ⟨c.tables.maxTransactionId⟩).headsOf o
    rw [headsOf_advanced]
    rcases hans.subset_headsOf_pulled ht db o with hsub | ⟨hnot, heq⟩
    · exact hsub
    rw [heq]
    unfold firstCovering at hx
    rw [List.find?_append] at hx
    cases hold : syncs.find? fun x => n ≤ x.upTo with
    | some y =>
      -- an earlier sync has pulled the change
      rw [hold, Option.some_or] at hx
      exact h.present o n author x hlast hby hown (hold.trans hx) hpasses
    | none =>
      -- the change is in the window of this sync, and the object is returned
      rw [hold, Option.none_or] at hx
      obtain rfl : x = ⟨params, c.tables.maxTransactionId⟩ := by
        have hmem := List.mem_of_find?_eq_some hx
        exact List.mem_singleton.mp hmem
      obtain ⟨row, hrow, hobj, hauthor, hlisted⟩ := hlast.listed
      have hchanged : (c.withClients clients).tables.ChangedFor repo.clientId
          ((db.lastTxn.map (·.val)).getD 0 : ℕ) c.tables.maxTransactionId o := by
        rw [ht.changedFor_iff]
        refine ⟨row, hrow, hobj, hauthor ▸ hby, n, hlisted, ?_, ?_⟩
        · have hafter := h.lastTxn_lt hold hlisted
          omega
        · have hmax : n ≤ c.tables.maxTransactionId := h.conn.tables.listedIn_le_max hlisted
          omega
      exact absurd ((hans.objects o).mpr ⟨hchanged, hpasses⟩) hnot

/-- **What a sync preserves**, whether it completes or fails. -/
theorem FilteredInv.sync (h : FilteredInv repo (db, c) made syncs) {net : Net Conn}
    (hnet : Relays repo.clientId net) (hnone : params.since = none) :
    ∃ r s', (Repository.sync params).run (answer net) (db, c) = (r, s') ∧
      ((∃ e, r = .error e) ∧ FilteredInv repo s' made syncs ∨
        (∃ result, r = .ok result) ∧
          FilteredInv repo s' made (syncs ++ [⟨params, s'.2.tables.maxTransactionId⟩])) := by
  obtain ⟨r, db₁, c₁, batch, db', c', hrun, hconn, hcommits, -, hmarked, clients, rfl, hend⟩ :=
    hnet.sync h.conn db params
  refine ⟨r, (db', c₁.withClients clients), hrun, ?_⟩
  have hpushed : FilteredInv repo (db₁, c₁) made syncs := by
    rcases hmarked with rfl | ⟨resp, rfl⟩
    · exact h.commits hconn hcommits
    · exact (h.commits hconn hcommits).marked resp.marks
  have hcursor : params.since.or db.lastTxn = db₁.lastTxn := by
    rw [hnone, Option.none_or, ClientDb.lastTxn, ClientDb.lastTxn, h.cursor, hpushed.cursor]
  rcases hend with ⟨herr, rfl⟩ | ⟨hok, updates, rfl, hans⟩
  · exact .inl ⟨herr, hpushed.commits (hconn.withClients clients)
      (.nothing c₁.tables clients repo.clientId c₁.nextval)⟩
  · rw [hcursor] at hans
    exact .inr ⟨hok, hpushed.pulled clients hans⟩

/-- **The invariant of every run.** -/
theorem Filtered.inv (h : Filtered repo s made syncs) : FilteredInv repo s made syncs := by
  induction h with
  | opened hc => exact .opened hc
  | @call s s' made syncs call draw id _ hfresh hrun ih =>
    obtain ⟨db, c⟩ := s
    obtain ⟨db', c'⟩ := s'
    obtain ⟨rev, hcreates, rfl, rfl, rfl⟩ := Call.run_ok hrun
    rw [← hcreates.objectId]
    exact ih.written (hcreates.id ▸ hfresh)
  | @push s made syncs client revisions _ hne ih =>
    obtain ⟨hconn, batch, -, hcommits⟩ := ih.conn.changes_commits client revisions
    exact ih.commits hconn hcommits
  | sync _ hnet hnone hrun ih =>
    obtain ⟨r, s', hrun', ⟨⟨e, rfl⟩, -⟩ | ⟨-, hinv⟩⟩ := ih.sync hnet hnone
    · cases hrun.symm.trans hrun'
    · cases hrun.symm.trans hrun'
      exact hinv
  | failed _ hnet hnone hrun ih =>
    obtain ⟨r, s', hrun', ⟨-, hinv⟩ | ⟨⟨result, rfl⟩, -⟩⟩ := ih.sync hnet hnone
    · cases hrun.symm.trans hrun'
      exact hinv
    · cases hrun.symm.trans hrun'

/-- **The objects that are there after a sync**: an object that another client changed last, and
of which the server has all that this client made, is there with all its heads if one of
them passes the filters of the first completed sync after that change. -/
theorem Filtered.heads_present (h : Filtered repo s made syncs) {net : Net Conn}
    {result : SyncResult} (hnet : Relays repo.clientId net) (hnone : params.since = none)
    (hrun : (Repository.sync params).run (answer net) s = (.ok result, s')) {o : ObjectId} {n : ℕ}
    {author : ClientId} (hlast : s'.2.tables.LastChange o n author) (hby : author ≠ repo.clientId)
    (hown : s'.2.tables.Holds made o) :
    ∃ x, firstCovering (syncs ++ [⟨params, s'.2.tables.maxTransactionId⟩]) n = some x ∧
      (s'.2.tables.HeadPasses x.params o → s'.2.tables.headsOf o ⊆ s'.1.headsOf o) := by
  have hinv := (h.sync hnet hnone hrun).inv
  obtain ⟨row, -, -, -, hlisted⟩ := hlast.listed
  have hmax := hinv.conn.tables.listedIn_le_max hlisted
  have hsome : (firstCovering (syncs ++ [⟨params, s'.2.tables.maxTransactionId⟩]) n).isSome := by
    unfold firstCovering
    rw [List.find?_isSome]
    exact ⟨_, List.mem_append_right _ (List.mem_singleton_self _), decide_eq_true hmax⟩
  obtain ⟨x, hx⟩ := Option.isSome_iff_exists.mp hsome
  exact ⟨x, hx, hinv.present o n author x hlast hby hown hx⟩

end Inv

/-! ### A trip of another client -/

/-- The filter on a single object type. -/
def ofType (objectType : String) : PullRequest := ⟨none, some [objectType], none, none⟩

/-- The state after a sync of the repository of client 7 with these filters. -/
def afterSyncOf (params : PullRequest) (s : ClientDb × Conn) : ClientDb × Conn :=
  ((Repository.sync params).run (answer (httpServer exampleRepository.clientId)) s).2

/-- Client 8 has pushed a trip. -/
def theirTrip : ClientDb × Conn :=
  (.opened ⟨⟨7⟩⟩ ⟨⟨1⟩⟩, ((httpServer ⟨⟨8⟩⟩).changes
    ⟨[{ Run.raceRevision 1 .root with createdBy := ⟨⟨8⟩⟩ }]⟩ ⟨{}, 1, none⟩).2)

/-- The trip is the only thing on the server. -/
structure HoldsTrip (t : Tables) : Prop where
  revisions : t.revisions = [({ Run.raceRevision 1 .root with createdBy := ⟨⟨8⟩⟩ }).row.stored]
  objectHeads : t.objectHeads = [⟨⟨⟨10⟩⟩, ⟨⟨1⟩⟩⟩]
  transactionRevisions : t.transactionRevisions = [⟨1, ⟨⟨1⟩⟩⟩]

section TheirTrip

variable {t : Tables}

theorem HoldsTrip.lastChange (h : HoldsTrip t) : t.LastChange ⟨⟨10⟩⟩ 1 ⟨⟨8⟩⟩ where
  listed := by
    refine ⟨({ Run.raceRevision 1 .root with createdBy := ⟨⟨8⟩⟩ }).row.stored, ?_, rfl, rfl, ?_⟩
    · rw [h.revisions]
      exact List.mem_singleton_self _
    · rw [Tables.ListedIn, h.transactionRevisions]
      exact List.mem_singleton_self _
  last := by
    intro row _ _ m hm
    rw [Tables.ListedIn, h.transactionRevisions, List.mem_singleton,
      TransactionRevisionRow.mk.injEq] at hm
    exact hm.1.le

theorem HoldsTrip.headPasses (h : HoldsTrip t) {params : PullRequest}
    (hpasses : Passes params.objectTypes params.createdAt params.filter
      ({ Run.raceRevision 1 .root with createdBy := ⟨⟨8⟩⟩ }).row.stored) :
    t.HeadPasses params ⟨⟨10⟩⟩ := by
  refine ⟨_, ?_, ?_, hpasses⟩
  · rw [h.revisions]
    exact List.mem_singleton_self _
  · rw [h.objectHeads]
    exact List.mem_singleton_self _

theorem filtered_theirTrip : Filtered exampleRepository theirTrip [] [] :=
  .push [{ Run.raceRevision 1 .root with createdBy := ⟨⟨8⟩⟩ }] (.opened .empty) (by decide)

/-- Client 7 has synced with a filter on files, and client 8 has then edited its trip. -/
def theirEditedTrip : ClientDb × Conn :=
  ((afterSyncOf (ofType "file") theirTrip).1, ((httpServer ⟨⟨8⟩⟩).changes ⟨[theirEdit 8 2 1]⟩
    (afterSyncOf (ofType "file") theirTrip).2).2)

/-- The last change of the trip is its edit. -/
theorem lastChange_edited {t : Tables} (hedit : (theirEdit 8 2 1).row.stored ∈ t.revisions)
    (hlisted : t.transactionRevisions = [⟨1, ⟨⟨1⟩⟩⟩, ⟨2, ⟨⟨2⟩⟩⟩]) :
    t.LastChange ⟨⟨10⟩⟩ 2 ⟨⟨8⟩⟩ where
  listed := by
    refine ⟨_, hedit, rfl, rfl, ?_⟩
    rw [Tables.ListedIn, hlisted]
    exact List.mem_cons_of_mem _ (List.mem_singleton_self _)
  last := by
    intro row _ _ m hm
    rw [Tables.ListedIn, hlisted, List.mem_cons, List.mem_singleton] at hm
    rcases hm with hm | hm
    · exact (TransactionRevisionRow.mk.inj hm).1.le.trans (by decide)
    · exact (TransactionRevisionRow.mk.inj hm).1.le

/-- A sync of the repository that completes. -/
theorem Filtered.synced {s : ClientDb × Conn} {made : List (ObjectId × RevisionId)}
    {syncs : List Synced} (h : Filtered exampleRepository s made syncs) {params : PullRequest}
    (hnone : params.since = none) (result : SyncResult) (hok : ((Repository.sync params).run
      (answer (httpServer exampleRepository.clientId)) s).1 = .ok result)
    {n : ℕ} (hmax : (afterSyncOf params s).2.tables.maxTransactionId = n) :
    Filtered exampleRepository (afterSyncOf params s) made (syncs ++ [⟨params, n⟩]) := by
  rw [← hmax]
  exact h.sync (.httpServer _) hnone (Prod.ext hok rfl)

theorem filtered_files : Filtered exampleRepository (afterSyncOf (ofType "file") theirTrip) []
    [⟨ofType "file", 1⟩] :=
  filtered_theirTrip.synced rfl ⟨0, 0, 0, []⟩ (by decide +kernel) (by decide +kernel)

theorem filtered_trips : Filtered exampleRepository (afterSyncOf (ofType "trip") theirEditedTrip) []
    [⟨ofType "file", 1⟩, ⟨ofType "trip", 2⟩] :=
  (filtered_files.push [theirEdit 8 2 1] (by decide)).synced rfl ⟨0, 1, 0, []⟩
    (by decide +kernel) (by decide +kernel)

/-- The edit is there after syncs that asked for files, for trips and for files again: the second
one was the first to come after it. -/
theorem Filtered.heads_present_edited :
    ⟨⟨2⟩⟩ ∈ (afterSyncOf (ofType "file")
      (afterSyncOf (ofType "trip") theirEditedTrip)).1.headsOf ⟨⟨10⟩⟩ := by
  have hok : ((Repository.sync (ofType "file")).run
      (answer (httpServer exampleRepository.clientId))
        (afterSyncOf (ofType "trip") theirEditedTrip)).1 = .ok ⟨0, 0, 0, []⟩ := by
    decide +kernel
  have hedit : (theirEdit 8 2 1).row.stored ∈ (afterSyncOf (ofType "file")
      (afterSyncOf (ofType "trip") theirEditedTrip)).2.tables.revisions := by
    decide +kernel
  have hlisted : (afterSyncOf (ofType "file")
      (afterSyncOf (ofType "trip") theirEditedTrip)).2.tables.transactionRevisions =
        [⟨1, ⟨⟨1⟩⟩⟩, ⟨2, ⟨⟨2⟩⟩⟩] := by decide +kernel
  have hhead : ⟨⟨⟨10⟩⟩, ⟨⟨2⟩⟩⟩ ∈ (afterSyncOf (ofType "file")
      (afterSyncOf (ofType "trip") theirEditedTrip)).2.tables.objectHeads := by
    decide +kernel
  obtain ⟨x, hx, hpresent⟩ := Filtered.heads_present filtered_trips (.httpServer _) rfl
    (Prod.ext hok rfl) (lastChange_edited hedit hlisted) (by decide) nofun
  -- the first sync came before the edit
  obtain rfl : ⟨ofType "trip", 2⟩ = x := Option.some.inj hx
  have hpasses : Passes (ofType "trip").objectTypes (ofType "trip").createdAt (ofType "trip").filter
      (theirEdit 8 2 1).row.stored := by
    refine ⟨fun types htypes => ?_, nofun, nofun⟩
    cases htypes
    exact List.mem_singleton_self _
  exact hpresent ⟨_, hedit, hhead, hpasses⟩ hhead

/-- **A head that is missed**: a sync that asks for files moves the cursor past the trip, and one
that then asks for trips does not bring it. -/
theorem Filtered.head_missed : ∃ s syncs params result s' o n author,
    Filtered exampleRepository s [] syncs ∧ params.since = none ∧
    (Repository.sync params).run (answer (httpServer exampleRepository.clientId)) s =
      (.ok result, s') ∧
    s'.2.tables.LastChange o n author ∧ author ≠ exampleRepository.clientId ∧
    ∃ row ∈ s'.2.tables.revisions, ⟨o, row.id⟩ ∈ s'.2.tables.objectHeads ∧
      Passes params.objectTypes params.createdAt params.filter row ∧ row.id ∉ s'.1.headsOf o := by
  have htrips : ((Repository.sync (ofType "trip")).run
      (answer (httpServer exampleRepository.clientId)) (afterSyncOf (ofType "file") theirTrip)).1 =
        .ok ⟨0, 0, 0, []⟩ := by decide +kernel
  have htrip : HoldsTrip
      (afterSyncOf (ofType "trip") (afterSyncOf (ofType "file") theirTrip)).2.tables :=
    ⟨by decide +kernel, by decide +kernel, by decide +kernel⟩
  have hnone : (afterSyncOf (ofType "trip")
      (afterSyncOf (ofType "file") theirTrip)).1.headList = [] := by decide +kernel
  have hpasses : Passes (ofType "trip").objectTypes (ofType "trip").createdAt (ofType "trip").filter
      ({ Run.raceRevision 1 .root with createdBy := ⟨⟨8⟩⟩ }).row.stored := by
    refine ⟨fun types htypes => ?_, nofun, nofun⟩
    cases htypes
    exact List.mem_singleton_self _
  obtain ⟨row, hrow, hhead, hpass⟩ := htrip.headPasses hpasses
  refine ⟨_, _, ofType "trip", _,
    afterSyncOf (ofType "trip") (afterSyncOf (ofType "file") theirTrip), ⟨⟨10⟩⟩, 1, ⟨⟨8⟩⟩,
    filtered_files,
    rfl, Prod.ext htrips rfl, htrip.lastChange, by decide, row, hrow, hhead, hpass, ?_⟩
  rw [← ClientDb.mem_headList, hnone]
  exact List.not_mem_nil

end TheirTrip

end Rustend
