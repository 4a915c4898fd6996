import Rustend.Client.Concurrent
import Rustend.Server.Batch

/-!
# Revisions that a repository creates

A call checks that the parents it is given are heads of the object.  The server checks
more: the parents have to be distinct, of the object of the revision, and the author has
to be the client that pushes.  What is left to see is which of its checks a created
revision can fail.

## Main definitions

* `Working` — the states that a client under one identity gets to, with the revisions that
  its calls have created.
* `WellMade` — what the server asks of a revision apart from knowing its parents.

## Main results

* `Working.wellMade` — **created revisions are well made, and never rejected as malformed,**
  as long as no call names a parent twice.
-/

namespace Rustend

open Interleave

/-! ### One object for each id -/

/-- The revisions of the tables belong to the objects that `names` gives to their ids. -/
def Tables.Named (names : RevisionId → ObjectId) (t : Tables) : Prop :=
  ∀ row ∈ t.revisions, names row.id = row.objectId

/-- The records and the heads of a client belong to the objects that `names` gives to their
ids, and the revision of every head is held. -/
structure ClientDb.Named (names : RevisionId → ObjectId) (db : ClientDb) : Prop where
  records : ∀ record ∈ db.revisions, names record.id = record.objectId
  heads : ∀ head ∈ db.objectHeads, names head.revisionId = head.objectId
  held : ∀ head ∈ db.objectHeads, ∃ record ∈ db.revisions, record.id = head.revisionId

section Named

variable {names : RevisionId → ObjectId} {db : ClientDb} {t t' : Tables}

/-- A named record is a revision of the object of its id. -/
theorem ClientDb.Named.record (h : db.Named names) {r : RevisionId} {o : ObjectId}
    (hr : r ∈ db.headsOf o) : ∃ record ∈ db.revisions, record.id = r ∧ record.objectId = o := by
  obtain ⟨head, hmem, rfl, rfl⟩ := hr
  obtain ⟨record, hrecord, hid⟩ := h.held head hmem
  refine ⟨record, hrecord, hid, ?_⟩
  rw [← h.records record hrecord, hid, h.heads head hmem]

theorem ClientDb.Named.opened (client : ClientId) (user : UserId) :
    (ClientDb.opened client user).Named names := ⟨nofun, nofun, nofun⟩

theorem Tables.Named.commits {client : ClientId} {n : ℕ} {batch : List Revision}
    (h : t.Named names) (hc : Commits t t' client n batch)
    (hbatch : ∀ rev ∈ batch, names rev.id = rev.objectId) : t'.Named names := by
  intro row hrow
  have hs : t'.StoredAs row.id row.objectId := ⟨row, hrow, rfl, rfl⟩
  rcases hc.storedAs_iff.mp hs with ⟨old, hold, hid, hobj⟩ | ⟨rev, hrev, hid, hobj⟩
  · rw [← hid, ← hobj]
    exact h old hold
  · rw [← hid, ← hobj]
    exact hbatch rev hrev

theorem ClientDb.Named.written (h : db.Named names) {rev : Revision}
    (hrev : names rev.id = rev.objectId) : (db.written rev).Named names where
  records record hrecord := by
    rcases mem_revisions_written.mp hrecord with rfl | ⟨hold, -⟩
    · exact hrev
    · exact h.records record hold
  heads head hmem := by
    rcases mem_objectHeads_written hmem with rfl | ⟨hold, -⟩
    · exact hrev
    · exact h.heads head hold
  held head hmem := by
    rcases mem_objectHeads_written hmem with rfl | ⟨hold, -⟩
    · exact ⟨_, mem_revisions_written.mpr (.inl rfl), rfl⟩
    · obtain ⟨record, hrecord, hid⟩ := h.held head hold
      by_cases hsame : record.id = rev.id
      · exact ⟨_, mem_revisions_written.mpr (.inl rfl), hsame.symm.trans hid⟩
      · exact ⟨record, mem_revisions_written.mpr (.inr ⟨hrecord, hsame⟩), hid⟩

theorem ClientDb.Named.marked (h : db.Named names) (marks : List (RevisionId × SyncStatus)) :
    (db.marked marks).Named names where
  records record hrecord := by
    obtain ⟨old, hold, rfl⟩ := mem_marked.mp hrecord
    exact h.records old hold
  heads head hmem := by
    rw [marked_objectHeads] at hmem
    exact h.heads head hmem
  held head hmem := by
    rw [marked_objectHeads] at hmem
    obtain ⟨old, hold, hid⟩ := h.held head hmem
    exact ⟨_, mem_marked.mpr ⟨old, hold, rfl⟩, hid⟩

/-- The updates of a pull carry revisions under their objects. -/
def NamedUpdate (names : RevisionId → ObjectId) (u : ObjectUpdate) : Prop :=
  ∀ rev ∈ u.heads, rev.objectId = u.objectId ∧ names rev.id = rev.objectId

/-- Nothing that is held is given up. -/
theorem held_putAll {vs : List RevisionRecord} {r : RevisionId}
    {store : KeyedStore fun record : RevisionRecord => record.id.key}
    (h : ∃ record ∈ store, record.id = r) : ∃ record ∈ store.putAll vs, record.id = r := by
  obtain ⟨record, hrecord, rfl⟩ := h
  by_cases hnew : ∃ v ∈ vs, v.id = record.id
  · obtain ⟨v, hv, hid⟩ := hnew
    obtain ⟨x, -, hkey, hmem⟩ := KeyedStore.exists_mem_putAll hv (s := store)
    exact ⟨x, hmem, (RevisionId.key_inj.mp hkey).trans hid⟩
  · refine ⟨record, (KeyedStore.mem_putAll_of_notMem ?_).mpr hrecord, rfl⟩
    intro v hv hkey
    exact hnew ⟨v, hv, RevisionId.key_inj.mp hkey⟩

theorem ClientDb.Named.applied (h : db.Named names) {u : ObjectUpdate} (hu : NamedUpdate names u) :
    (db.applied u).Named names where
  records record hrecord := by
    rw [applied_revisions] at hrecord
    rcases KeyedStore.mem_putAll hrecord with hnew | ⟨hold, -⟩
    · obtain ⟨rev, hrev, rfl⟩ := List.mem_map.mp hnew
      exact (hu rev hrev).2
    · exact h.records record hold
  heads head hmem := by
    rcases mem_objectHeads_applied (fun rev hrev => (hu rev hrev).1) hmem with
      ⟨rev, hrev, rfl⟩ | ⟨hold, -⟩
    · exact (hu rev hrev).2.trans (hu rev hrev).1
    · exact h.heads head hold
  held head hmem := by
    rw [applied_revisions]
    rcases mem_objectHeads_applied (fun rev hrev => (hu rev hrev).1) hmem with
      ⟨rev, hrev, rfl⟩ | ⟨hold, -⟩
    · obtain ⟨x, -, hkey, hx⟩ := KeyedStore.exists_mem_putAll (s := db.revisions)
        (List.mem_map_of_mem (f := fun rev => RevisionRecord.fromRevision rev .synced) hrev)
      exact ⟨x, hx, RevisionId.key_inj.mp hkey⟩
    · exact held_putAll (h.held head hold)

theorem ClientDb.Named.pulled : ∀ {updates : List ObjectUpdate} {db : ClientDb}, db.Named names →
    (∀ u ∈ updates, NamedUpdate names u) → (db.pulled updates).Named names
  | [], _, h, _ => h
  | u :: updates, db, h, hall => by
    obtain ⟨hu, hall⟩ := List.forall_mem_cons.mp hall
    exact (h.applied hu).pulled hall

theorem ClientDb.Named.advanced (h : db.Named names) (upTo : TransactionId) :
    (db.advanced upTo).Named names where
  records := by
    rw [advanced_revisions]
    exact h.records
  heads := by
    rw [advanced_objectHeads]
    exact h.heads
  held := by
    rw [advanced_objectHeads, advanced_revisions]
    exact h.held

/-- The updates of an answer are named as the tables are. -/
theorem Answers.named {client : ClientId} {since upTo : ℤ} {passes : RevisionRow → Prop}
    {updates : List ObjectUpdate} (h : Answers t client since upTo passes updates)
    (ht : WellFormed t) (hn : t.Named names) : ∀ u ∈ updates, NamedUpdate names u := by
  intro u hu rev hrev
  refine ⟨h.objectId ht hu hrev, ?_⟩
  obtain ⟨row, hrow, parents, rfl, -⟩ := h.rows u hu rev hrev
  exact hn row hrow

end Named

/-! ### The checks of the server -/

section Checks

variable {names : RevisionId → ObjectId} {t : Tables} {client : ClientId}

/-- An author, distinct parents and an object for them are all that a revision needs in order
not to be malformed. -/
theorem verdict_ne_malformed (ht : t.Named names) {st : PushState}
    (hst : ∀ r o, st.acceptedObjects r = some o → names r = o) {rev : Revision}
    (hby : rev.createdBy = client) (hn : rev.parents.Nodup)
    (hp : ∀ p ∈ rev.parents, names p = rev.objectId) :
    verdict t client st rev ≠ some .malformedData := by
  -- an accepted entry goes before a stored row, and both have the object of the name
  have hobject : ∀ p o, st.objectOf t p = some o → names p = o := by
    intro p o hfind
    unfold PushState.objectOf at hfind
    cases hacc : st.acceptedObjects p with
    | some o' =>
      rw [hacc] at hfind
      cases hfind
      exact hst p o hacc
    | none =>
      rw [hacc] at hfind
      obtain ⟨row, hrow, rfl⟩ := Option.map_eq_some_iff.mp hfind
      have hid : row.id = p := by simpa using List.find?_some hrow
      rw [← hid]
      exact ht row (List.mem_of_find?_eq_some hrow)
  unfold verdict
  rw [if_neg (not_not.mpr hby), if_neg (not_not.mpr hn)]
  split
  · exact nofun
  · intro hv
    obtain ⟨p, hmem, hverdict⟩ := List.exists_of_findSome?_eq_some hv
    unfold parentVerdict at hverdict
    cases ho : st.objectOf t p with
    | none =>
      rw [ho] at hverdict
      cases hverdict
    | some o =>
      rw [ho] at hverdict
      have hsame : o = rev.objectId := (hobject p o ho).symm.trans (hp p hmem)
      simp [hsame] at hverdict

/-- **A push rejects none of such revisions as malformed**, by induction over the batch. -/
theorem check_ne_malformed (ht : t.Named names) : ∀ {revisions : List Revision} (st : PushState),
    (∀ r o, st.acceptedObjects r = some o → names r = o) →
    (∀ rejected ∈ st.rejected, rejected.reason ≠ .malformedData) →
    (∀ rev ∈ revisions, names rev.id = rev.objectId ∧ rev.createdBy = client ∧ rev.parents.Nodup ∧
      ∀ p ∈ rev.parents, names p = rev.objectId) →
    ∀ rejected ∈ (revisions.foldl (PushState.check t client) st).rejected,
      rejected.reason ≠ .malformedData
  | [], st, _, hrej, _ => hrej
  | rev :: revisions, st, hst, hrej, hall => by
    obtain ⟨⟨hname, hby, hn, hp⟩, hall⟩ := List.forall_mem_cons.mp hall
    have hverdict := verdict_ne_malformed ht hst hby hn hp
    rw [List.foldl_cons]
    unfold PushState.check
    cases hv : verdict t client st rev with
    | some reason =>
      refine check_ne_malformed ht (st.reject rev reason) hst (fun rejected hmem => ?_) hall
      rcases List.mem_append.mp hmem with hmem | hmem
      · exact hrej rejected hmem
      · rw [List.mem_singleton.mp hmem]
        intro hreason
        exact hverdict (hv.trans (congrArg some hreason))
    | none =>
      refine check_ne_malformed ht (st.accept rev) (fun r o hr => ?_) hrej hall
      simp only [PushState.accept, Function.update_apply] at hr
      split at hr
      · next heq =>
        rw [heq, hname]
        exact Option.some.inj hr
      · exact hst r o hr

end Checks

/-! ### The revisions of one identity -/

/-- The states that a client and its server get to, with the revisions that the successful
calls of the client have created.  Calls that `allowed` admits and syncs follow one
another, messages of a sync may get lost, and other clients push in between.  An id is
drawn for one object only. -/
inductive Working (names : RevisionId → ObjectId) (allowed : Call → Prop) (repo : Repository) :
    ClientDb × Conn → List Revision → Prop where
  | opened {c : Conn} : ConnInv c → c.tables.Named names →
      Working names allowed repo (.opened repo.clientId repo.userId, c) []
  | call {s s' : ClientDb × Conn} {made : List Revision} {call : Call} {draw : Draw}
      {rev : Revision} : Working names allowed repo s made → allowed call →
      names draw.revisionId = call.objectId draw →
      (call.program repo draw).run (answer (httpServer repo.clientId)) s = (.ok rev.id, s') →
      .fromRevision rev .pending ∈ s'.1.revisions → Working names allowed repo s' (made ++ [rev])
  | failed {s s' : ClientDb × Conn} {made : List Revision} {call : Call} {draw : Draw}
      {e : ClientError} : Working names allowed repo s made →
      (call.program repo draw).run (answer (httpServer repo.clientId)) s = (.error e, s') →
      Working names allowed repo s' made
  | sync {s : ClientDb × Conn} {made : List Revision} {net : Net Conn} (params : PullRequest) :
      Working names allowed repo s made → Relays repo.clientId net →
      Working names allowed repo ((Repository.sync params).run (answer net) s).2 made
  | others {s : ClientDb × Conn} {made : List Revision} (client : ClientId)
      (revisions : List Revision) : Working names allowed repo s made →
      (∀ rev ∈ revisions, names rev.id = rev.objectId) →
      Working names allowed repo (s.1, ((httpServer client).changes ⟨revisions⟩ s.2).2) made

/-- What the server asks of a revision, apart from knowing its parents: its author, and
distinct parents that are revisions of its object. -/
structure WellMade (repo : Repository) (db : ClientDb) (rev : Revision) : Prop where
  distinct : rev.parents.Nodup
  parents : ∀ p ∈ rev.parents, ∃ record ∈ db.revisions, record.id = p ∧
    record.objectId = rev.objectId
  createdBy : rev.createdBy = repo.clientId

/-- What every run keeps. -/
structure Steady (names : RevisionId → ObjectId) (repo : Repository) (s : ClientDb × Conn)
    (made : List Revision) : Prop where
  conn : ConnInv s.2
  tables : s.2.tables.Named names
  stores : s.1.Named names
  wellMade : ∀ rev ∈ made, names rev.id = rev.objectId ∧ WellMade repo s.1 rev
  pending : ∀ record ∈ s.1.pending, record.revision ∈ made

section Run

variable {names : RevisionId → ObjectId} {repo : Repository} {s s' : ClientDb × Conn}
  {made : List Revision}

/-- What is well made stays so while nothing that is held is given up. -/
theorem WellMade.mono {db db' : ClientDb} {rev : Revision} (h : WellMade repo db rev)
    (hn : db.Named names) (hn' : db'.Named names)
    (hheld : ∀ record ∈ db.revisions, ∃ record' ∈ db'.revisions, record'.id = record.id) :
    WellMade repo db' rev := by
  refine ⟨h.distinct, fun p hp => ?_, h.createdBy⟩
  obtain ⟨record, hrecord, rfl, hobj⟩ := h.parents p hp
  obtain ⟨record', hrecord', hid⟩ := hheld record hrecord
  refine ⟨record', hrecord', hid, ?_⟩
  rw [← hn'.records record' hrecord', hid, hn.records record hrecord, hobj]

theorem held_written {db : ClientDb} (rev : Revision) : ∀ record ∈ db.revisions,
    ∃ record' ∈ (db.written rev).revisions, record'.id = record.id := by
  intro record hrecord
  by_cases hsame : record.id = rev.id
  · exact ⟨_, mem_revisions_written.mpr (.inl rfl), hsame.symm⟩
  · exact ⟨record, mem_revisions_written.mpr (.inr ⟨hrecord, hsame⟩), rfl⟩

theorem held_marked {db : ClientDb} (marks : List (RevisionId × SyncStatus)) :
    ∀ record ∈ db.revisions, ∃ record' ∈ (db.marked marks).revisions, record'.id = record.id :=
  fun record hrecord => ⟨_, mem_marked.mpr ⟨record, hrecord, rfl⟩, rfl⟩

theorem held_pulled {db : ClientDb} (updates : List ObjectUpdate) : ∀ record ∈ db.revisions,
    ∃ record' ∈ (db.pulled updates).revisions, record'.id = record.id := by
  intro record hrecord
  rw [pulled_revisions]
  exact held_putAll ⟨record, hrecord, rfl⟩

/-- Recording a response makes nothing pending. -/
theorem mem_pending_marked {db : ClientDb} {resp : PushResponse} {record : RevisionRecord}
    (h : record ∈ (db.marked resp.marks).pending) : record ∈ db.pending := by
  obtain ⟨hmem, hstatus⟩ := ClientDb.mem_pending.mp h
  obtain ⟨old, hold, rfl⟩ := mem_marked.mp hmem
  by_cases hmark : ∃ mark ∈ resp.marks, mark.1 = old.id
  · exact absurd hstatus (resp.marks_ne_pending _ (foldl_marks_mem hmark old.syncStatus))
  · have hnot : ∀ mark ∈ resp.marks, mark.1 ≠ old.id := fun mark hm heq => hmark ⟨mark, hm, heq⟩
    rw [foldl_marks_of_notMem hnot] at hstatus ⊢
    exact ClientDb.mem_pending.mpr ⟨hold, hstatus⟩

/-- A pull makes nothing pending. -/
theorem mem_pending_pulled {db : ClientDb} {updates : List ObjectUpdate} {upTo : TransactionId}
    {record : RevisionRecord} (h : record ∈ ((db.pulled updates).advanced upTo).pending) :
    record ∈ db.pending := by
  obtain ⟨hmem, hstatus⟩ := ClientDb.mem_pending.mp h
  rw [advanced_revisions] at hmem
  rcases mem_revisions_pulled hmem with ⟨u, -, rev, -, rfl⟩ | hmem
  · cases hstatus
  · exact ClientDb.mem_pending.mpr ⟨hmem, hstatus⟩

/-- **What a sync preserves**, however it ends. -/
theorem Steady.sync (h : Steady names repo s made) {net : Net Conn}
    (hnet : Relays repo.clientId net)
    (params : PullRequest) :
    Steady names repo ((Repository.sync params).run (answer net) s).2 made := by
  obtain ⟨db, c⟩ := s
  obtain ⟨r, db₁, c₁, batch, db', c', hrun, hconn, hcommits, hsub, hmarked, clients, rfl,
      hpulled⟩ :=
    hnet.sync h.conn db params
  rw [hrun]
  have htables : c₁.tables.Named names := by
    apply h.tables.commits hcommits
    intro rev hrev
    obtain ⟨record, hrecord, rfl⟩ := List.mem_map.mp (hsub hrev)
    exact h.stores.records record (ClientDb.mem_pending.mp hrecord).1
  -- the push
  have hpush : db₁.Named names ∧ (∀ rev ∈ made, WellMade repo db₁ rev) ∧
      ∀ record ∈ db₁.pending, record ∈ db.pending := by
    rcases hmarked with rfl | ⟨resp, rfl⟩
    · exact ⟨h.stores, fun rev hrev => (h.wellMade rev hrev).2, fun record hrecord => hrecord⟩
    · have hn := h.stores.marked resp.marks
      exact ⟨hn, fun rev hrev => (h.wellMade rev hrev).2.mono h.stores hn (held_marked _),
        fun record hrecord => mem_pending_marked hrecord⟩
  obtain ⟨hn₁, hmade₁, hpend₁⟩ := hpush
  have hwell : ConnInv (c₁.withClients clients) := hconn.withClients clients
  rcases hpulled with ⟨-, rfl⟩ | ⟨-, updates, rfl, hans⟩
  · exact ⟨hwell, htables, hn₁, fun rev hrev => ⟨(h.wellMade rev hrev).1, hmade₁ rev hrev⟩,
      fun record hrecord => h.pending record (hpend₁ record hrecord)⟩
  · have hn := (hn₁.pulled (hans.named hwell.tables htables)).advanced
      ⟨c₁.tables.maxTransactionId⟩
    refine ⟨hwell, htables, hn, fun rev hrev => ⟨(h.wellMade rev hrev).1, ?_⟩,
      fun record hrecord => ?_⟩
    · apply (hmade₁ rev hrev).mono hn₁ hn
      rw [advanced_revisions]
      exact held_pulled updates
    · exact h.pending record (hpend₁ record (mem_pending_pulled hrecord))

/-- **What every run preserves**, as long as no call names a parent twice. -/
theorem Working.steady (h : Working names (fun call => call.parents.Nodup) repo s made) :
    Steady names repo s made := by
  induction h with
  | opened hc ht => exact ⟨hc, ht, .opened _ _, nofun, nofun⟩
  | @call s s' made call draw rev _ hnodup hname hrun hmem ih =>
    obtain ⟨db, c⟩ := s
    obtain ⟨db', c'⟩ := s'
    obtain ⟨rev', hcreates, hid, rfl, rfl⟩ := Call.run_ok hrun
    -- what is pending under the new id is what the call has created
    obtain rfl : rev' = rev := by
      rcases mem_revisions_written.mp hmem with heq | ⟨-, hne⟩
      · exact (congrArg RevisionRecord.toRevision heq).symm
      · exact absurd hid hne
    have hrev : names rev'.id = rev'.objectId := by rw [hcreates.id, hname, hcreates.objectId]
    have hn := ih.stores.written hrev
    refine ⟨ih.conn, ih.tables, hn, ?_, ?_⟩
    · intro r hr
      rcases List.mem_append.mp hr with hr | hr
      · exact ⟨(ih.wellMade r hr).1, (ih.wellMade r hr).2.mono ih.stores hn (held_written rev')⟩
      · obtain rfl := List.mem_singleton.mp hr
        refine ⟨hrev, (hcreates.parents ▸ hnodup), fun p hp => ?_, hcreates.createdBy⟩
        rw [hcreates.parents] at hp
        obtain ⟨record, hrecord, hid, hobj⟩ := ih.stores.record (hcreates.heads p hp)
        obtain ⟨record', hrecord', hid'⟩ := held_written r record hrecord
        refine ⟨record', hrecord', hid'.trans hid, ?_⟩
        rw [← hn.records record' hrecord', hid', ih.stores.records record hrecord, hobj]
    · intro record hrecord
      rcases mem_pending_written hrecord with rfl | ⟨hold, -⟩
      · exact List.mem_append_right _ (List.mem_singleton_self _)
      · exact List.mem_append_left _ (ih.pending record hold)
  | @failed s s' made call draw e _ hrun ih =>
    rcases call.run_program (httpServer repo.clientId) s.1 s.2 repo draw with
      ⟨e', herr⟩ | ⟨rev, -, hok⟩
    · have hsame : s' = s := (congrArg Prod.snd (hrun.symm.trans herr))
      rw [hsame]
      exact ih
    · cases hrun.symm.trans hok
  | sync params _ hnet ih => exact ih.sync hnet params
  | @others s made client revisions _ hnamed ih =>
    obtain ⟨hconn, batch, hsub, hcommits⟩ := ih.conn.changes_commits client revisions
    have htables := ih.tables.commits hcommits fun rev hrev => hnamed rev (hsub hrev)
    exact ⟨hconn, htables, ih.stores, ih.wellMade, ih.pending⟩

/-- **Created revisions are well made, and never rejected as malformed**, in every state of
every run in which no call names a parent twice; all that the client has pending is of
this kind. -/
theorem Working.wellMade (h : Working names (fun call => call.parents.Nodup) repo s made) :
    (∀ rev ∈ made, WellMade repo s.1 rev) ∧ (∀ record ∈ s.1.pending, record.revision ∈ made) ∧
    ∀ revisions : List Revision, revisions ⊆ made → ∀ resp c',
      (pushRevisions repo.clientId revisions).run Stmt.eval s.2 = (.ok resp, c') →
      ∀ rejected ∈ resp.rejected, rejected.reason ≠ .malformedData := by
  have hs := h.steady
  refine ⟨fun rev hrev => (hs.wellMade rev hrev).2, hs.pending, ?_⟩
  intro revisions hsub resp c' hrun
  obtain ⟨-, hrej, -⟩ := pushRevisions_collected rfl hrun
  have hnone : ∀ r o, ({} : PushState).acceptedObjects r = some o → names r = o := by
    intro r o hr
    cases hr
  rw [hrej]
  refine check_ne_malformed hs.tables {} hnone (fun rejected hmem => ?_) fun rev hrev => ?_
  · cases hmem
  obtain ⟨hname, hwell⟩ := hs.wellMade rev (hsub hrev)
  refine ⟨hname, hwell.createdBy, hwell.distinct, fun p hp => ?_⟩
  obtain ⟨record, hrecord, rfl, hobj⟩ := hwell.parents p hp
  rw [hs.stores.records record hrecord, hobj]

end Run

/-! ### A head named twice -/

theorem Working.afterCall {names : RevisionId → ObjectId} {allowed : Call → Prop}
    {s : ClientDb × Conn} {made : List Revision}
    (h : Working names allowed exampleRepository s made)
    (call : Call) (draw : Draw) (rev : Revision) (hallowed : allowed call)
    (hname : names draw.revisionId = call.objectId draw)
    (hok : ((call.program exampleRepository draw).run
      (answer (httpServer exampleRepository.clientId)) s).1 = .ok rev.id)
    (hmem : .fromRevision rev .pending ∈ (Rustend.afterCall call draw s).1.revisions) :
    Working names allowed exampleRepository (Rustend.afterCall call draw s) (made ++ [rev]) :=
  .call h hallowed hname (Prod.ext hok rfl) hmem

/-- The object is saved and synced, and then its only head is resolved with itself. -/
def resolvedTwice : ClientDb × Conn :=
  afterCall (.resolveConflict ⟨⟨10⟩⟩ [⟨⟨1⟩⟩, ⟨⟨1⟩⟩] .deleted) ⟨⟨⟨11⟩⟩, ⟨⟨2⟩⟩, 0⟩
    (afterSync savedTrip)

theorem working_saved (allowed : Call → Prop) (h : allowed (.save "trip" (.ok .null))) :
    Working (fun _ => ⟨⟨10⟩⟩) allowed exampleRepository (afterSync savedTrip)
      [Run.raceRevision 1 .root] := by
  have hopened : Working (fun _ => ⟨⟨10⟩⟩) allowed exampleRepository
      (.opened ⟨⟨7⟩⟩ ⟨⟨1⟩⟩, ⟨{}, 1, none⟩) [] := .opened .empty nofun
  have hsaved := hopened.afterCall (.save "trip" (.ok .null)) ⟨⟨⟨10⟩⟩, ⟨⟨1⟩⟩, 0⟩
    (Run.raceRevision 1 .root) h rfl rfl (by rw [KeyedStore.mem_def]; decide +kernel)
  exact .sync everything hsaved (.httpServer _)

/-- The client has synced the trip and updated it, another client has edited it too, and the
next sync has left both heads. -/
def disputedTrip : ClientDb × Conn :=
  let updated := afterCall (.update ⟨⟨10⟩⟩ ⟨⟨1⟩⟩ (.ok .null)) ⟨⟨⟨11⟩⟩, ⟨⟨2⟩⟩, 0⟩
    (afterSync savedTrip)
  afterSync (updated.1, ((httpServer ⟨⟨8⟩⟩).changes ⟨[theirEdit 8 3 1]⟩ updated.2).2)

/-- The two heads are resolved. -/
def mergedTrip : ClientDb × Conn :=
  afterCall (.resolveConflict ⟨⟨10⟩⟩ [⟨⟨2⟩⟩, ⟨⟨3⟩⟩] .deleted) ⟨⟨⟨11⟩⟩, ⟨⟨4⟩⟩, 0⟩ disputedTrip

/-- The revision that resolves them. -/
def mergedRevision : Revision :=
  ⟨⟨⟨4⟩⟩, ⟨⟨10⟩⟩, "trip", .merge ⟨⟨2⟩⟩ ⟨⟨3⟩⟩ [], 0, ⟨⟨7⟩⟩, .deleted⟩

theorem working_merged : Working (fun _ => ⟨⟨10⟩⟩) (fun call => call.parents.Nodup)
    exampleRepository mergedTrip
      [Run.raceRevision 1 .root, theirEdit 7 2 1, mergedRevision] := by
  have hupdated := (working_saved (fun call => call.parents.Nodup) List.nodup_nil).afterCall
    (.update ⟨⟨10⟩⟩ ⟨⟨1⟩⟩ (.ok .null)) ⟨⟨⟨11⟩⟩, ⟨⟨2⟩⟩, 0⟩ (theirEdit 7 2 1)
    (List.nodup_singleton _) rfl (by decide +kernel) (by rw [KeyedStore.mem_def]; decide +kernel)
  have hedited := hupdated.others ⟨⟨8⟩⟩ [theirEdit 8 3 1] (by decide)
  have hdisputed := hedited.sync everything (.httpServer _)
  exact hdisputed.afterCall (.resolveConflict ⟨⟨10⟩⟩ [⟨⟨2⟩⟩, ⟨⟨3⟩⟩] .deleted)
    ⟨⟨⟨11⟩⟩, ⟨⟨4⟩⟩, 0⟩ mergedRevision (by decide) rfl (by decide +kernel)
    (by rw [KeyedStore.mem_def]; decide +kernel)

/-- The merge is well made and the only revision pending, and a push of all that the client
has created accepts it, and refuses the two that the server has for that reason alone. -/
theorem Working.wellMade_merged : WellMade exampleRepository mergedTrip.1 mergedRevision ∧
    mergedTrip.1.pending.map (·.revision) = [mergedRevision] ∧
    ∃ resp c', (pushRevisions ⟨⟨7⟩⟩ [Run.raceRevision 1 .root, theirEdit 7 2 1,
        mergedRevision]).run Stmt.eval mergedTrip.2 = (.ok resp, c') ∧
      (∀ rejected ∈ resp.rejected, rejected.reason ≠ .malformedData) ∧
      resp = ⟨⟨4⟩, [⟨⟨4⟩⟩], [⟨⟨⟨1⟩⟩, .duplicateRevisionId⟩, ⟨⟨⟨2⟩⟩, .duplicateRevisionId⟩]⟩ := by
  obtain ⟨hwell, -, hpush⟩ := Working.wellMade working_merged
  have hpending : mergedTrip.1.pending.map (·.revision) = [mergedRevision] := by decide +kernel
  have hanswer : ((pushRevisions ⟨⟨7⟩⟩ [Run.raceRevision 1 .root, theirEdit 7 2 1,
      mergedRevision]).run Stmt.eval mergedTrip.2).1 = .ok ⟨⟨4⟩, [⟨⟨4⟩⟩],
        [⟨⟨⟨1⟩⟩, .duplicateRevisionId⟩, ⟨⟨⟨2⟩⟩, .duplicateRevisionId⟩]⟩ := by decide +kernel
  rcases hrun : (pushRevisions ⟨⟨7⟩⟩ [Run.raceRevision 1 .root, theirEdit 7 2 1,
    mergedRevision]).run Stmt.eval mergedTrip.2 with ⟨answer, c'⟩
  rw [hrun] at hanswer
  cases hanswer
  exact ⟨hwell _ (by simp), hpending, _, c', hrun, hpush _ (List.Subset.refl _) _ c' hrun, rfl⟩

/-- **A revision that is rejected as malformed**: the check of the parents lets a head through
that is named twice. -/
theorem Working.malformed : ∃ names made, Working names (fun _ => True) exampleRepository
      resolvedTwice made ∧ (∃ rev ∈ made, ¬ rev.parents.Nodup) ∧
    (pushPending.run (answer (httpServer exampleRepository.clientId)) resolvedTwice).1 =
      .ok (0, [⟨⟨⟨2⟩⟩, .malformedData⟩]) := by
  have hresolved := (working_saved (fun _ => True) trivial).afterCall
    (.resolveConflict ⟨⟨10⟩⟩ [⟨⟨1⟩⟩, ⟨⟨1⟩⟩] .deleted) ⟨⟨⟨11⟩⟩, ⟨⟨2⟩⟩, 0⟩
    ⟨⟨⟨2⟩⟩, ⟨⟨10⟩⟩, "trip", .merge ⟨⟨1⟩⟩ ⟨⟨1⟩⟩ [], 0, ⟨⟨7⟩⟩, .deleted⟩ trivial rfl
    (by decide +kernel) (by rw [KeyedStore.mem_def]; decide +kernel)
  refine ⟨_, _, hresolved, ⟨_, List.mem_append_right _ (List.mem_singleton_self _), by decide⟩, ?_⟩
  decide +kernel

end Rustend
