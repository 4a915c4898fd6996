import Rustend.Client.Concurrent

/-!
# Replicas of the head table

After a sync a client holds the heads of the server, if its sync before left it with those
and what has happened since can be merged: the update of an object replaces its local heads
only if each of them is the new head or a declared parent of it.

## Main definitions

* `Tables.Since` — the tables, as they have grown from earlier ones.
* `Replica` — a client since its last sync.
* `Mergeable` — **when a sync brings an object to the heads of the server.**
* `Replicas` — the runs of any number of clients.

## Main results

* `Replica.written`, `Replica.commits`, `Replica.synced` — what the steps preserve.
* `Replica.headsOf_eq_iff` — the heads of one object after a sync.
* `Replicas.converges_iff` — **the heads of all objects after a sync, in every run.**
-/

namespace Rustend

open Interleave

/-! ### The heads below what is pending -/

/-- The heads below what a client has pending. -/
theorem mem_headsOver_pending {heads : Set RevisionId} {db : ClientDb} {o : ObjectId}
    {r : RevisionId} :
    r ∈ headsOver heads (db.pending.map (·.revision)) o ↔
      (r ∈ heads ∨ ∃ record ∈ db.pending, record.objectId = o ∧ record.id = r) ∧
        ∀ record ∈ db.pending, record.objectId = o → r ∉ record.revision.parents := by
  unfold headsOver
  refine and_congr (or_congr_right ?_) List.forall_mem_map
  constructor
  · intro ⟨rev, hrev, hobj, hid⟩
    obtain ⟨record, hrecord, rfl⟩ := List.mem_map.mp hrev
    exact ⟨record, hrecord, hobj, hid⟩
  · intro ⟨record, hrecord, hobj, hid⟩
    exact ⟨record.revision, List.mem_map_of_mem hrecord, hobj, hid⟩

/-! ### The tables since -/

/-- The tables `t`, as they have grown from `t₀`. -/
structure Tables.Since (t₀ t : Tables) : Prop where
  stored : ∀ r, t₀.Stored r → t.Stored r
  /-- What was there has its parents there. -/
  closed : Dag.ParentClosed t.Parent {r | t₀.Stored r}
  max_le : t₀.maxTransactionId ≤ t.maxTransactionId
  listed : ∀ r m, t.ListedIn r m → (t₀.Stored r ↔ m ≤ t₀.maxTransactionId)

section Since

variable {t₀ t t' : Tables} {client : ClientId} {n : ℕ} {batch : List Revision} {o : ObjectId}

theorem Tables.Since.refl (ht : WellFormed t) : t.Since t where
  stored _ hr := hr
  closed x y _ hp := by
    obtain ⟨o, hx, -⟩ := ht.parent_stored hp
    exact hx.stored
  max_le := le_rfl
  listed r m hl := iff_of_true (ht.listedIn_stored hl) (ht.listedIn_le_max hl)

/-- What a commit adds is new since. -/
theorem Tables.Since.commits (h : t₀.Since t) (hc : Commits t t' client n batch)
    (hn : t.maxTransactionId < n) : t₀.Since t' where
  stored r hr := hc.stored_iff.mpr (.inl (h.stored r hr))
  closed x y hy hp := by
    rcases hc.parent_iff.mp hp with hp | ⟨rev, hrev, rfl, -⟩
    · exact h.closed x y hy hp
    · exact absurd (h.stored _ hy) (hc.fresh rev hrev)
  max_le := h.max_le.trans hc.maxTransactionId_le
  listed r m hl := by
    rcases hc.listedIn_iff.mp hl with hl | ⟨rfl, rev, hrev, rfl⟩
    · exact h.listed r m hl
    · have hmax := h.max_le
      refine iff_of_false (fun hr => hc.fresh rev hrev (h.stored _ hr)) ?_
      omega

/-- The objects that others have changed since. -/
theorem Tables.Since.changedFor_iff (h : t₀.Since t) (ht : WellFormed t) :
    t.ChangedFor client (t₀.maxTransactionId : ℕ) t.maxTransactionId o ↔
      ∃ row ∈ t.revisions, row.objectId = o ∧ row.createdBy ≠ client ∧ ¬ t₀.Stored row.id := by
  rw [ht.changedFor_iff]
  refine exists_congr fun row => and_congr_right fun hrow => and_congr_right fun _ =>
    and_congr_right fun _ => ?_
  constructor
  · intro ⟨m, hl, hlo, _⟩
    rw [h.listed row.id m hl]
    omega
  · intro hnew
    obtain ⟨m, hl⟩ := ht.exists_listedIn ⟨row, hrow, rfl⟩
    have hmax := ht.listedIn_le_max hl
    rw [h.listed row.id m hl] at hnew
    exact ⟨m, hl, by omega, by omega⟩

/-- An object that has changed has a head that was not there. -/
theorem Tables.Since.exists_head (h : t₀.Since t) (ht : WellFormed t) {r : RevisionId}
    (hr : t.StoredAs r o) (hnew : ¬ t₀.Stored r) : ∃ x ∈ t.headsOf o, ¬ t₀.Stored x := by
  obtain ⟨x, hx, hrx⟩ := ht.exists_head hr
  exact ⟨x, hx, fun hold => hnew (h.closed.of_reflTransGen hrx hold)⟩

end Since

/-! ### A client since its last sync -/

/-- A client that has held the heads of the tables `t₀` when it last synced. -/
structure Replica (repo : Repository) (db : ClientDb) (c : Conn) (t₀ : Tables) : Prop where
  conn : ConnInv c
  base : WellFormed t₀
  since : t₀.Since c.tables
  cursor : ∃ last, db.syncState = some ⟨some repo.clientId, some repo.userId, last⟩ ∧
    (last.map (·.val)).getD 0 = t₀.maxTransactionId
  /-- Its calls have put what is pending on top of these heads. -/
  heads : ∀ o, db.headsOf o = headsOver (t₀.headsOf o) (db.pending.map (·.revision)) o
  parents : ∀ record ∈ db.pending, ∀ p ∈ record.revision.parents,
    p ∈ t₀.headsOf record.objectId ∨ ∃ e ∈ db.pending, e.id = p
  /-- What others have left alone is as it was. -/
  untouched : ∀ o, (∀ row ∈ c.tables.revisions, row.objectId = o →
    row.createdBy ≠ repo.clientId → t₀.Stored row.id) → c.tables.headsOf o = t₀.headsOf o

/-- When a sync brings the object to the heads of the server: every local head that is not
pending is a head of the server; or nothing is pending for the object, and the server has a
single head, with every local head being that one or a declared parent of it. -/
def Mergeable (db : ClientDb) (t : Tables) (o : ObjectId) : Prop :=
  (∀ l ∈ db.headsOf o, l ∈ t.headsOf o ∨ ∃ record ∈ db.pending, record.id = l) ∨
    (∀ record ∈ db.pending, record.objectId ≠ o) ∧
      ∃ r, t.headsOf o = {r} ∧ ∀ l ∈ db.headsOf o, l = r ∨ t.Parent l r

section Replica

variable {repo : Repository} {db db' : ClientDb} {c c' : Conn} {t₀ t : Tables} {o : ObjectId}

theorem Replica.opened (hc : ConnInv c) (hemp : c.tables.revisions = []) :
    Replica repo (.opened repo.clientId repo.userId) c c.tables where
  conn := hc
  base := hc.tables
  since := .refl hc.tables
  cursor := by
    refine ⟨none, rfl, (Nat.le_zero.mp ?_).symm⟩
    rw [Tables.maxTransactionId_le_iff]
    intro x hx
    obtain ⟨e, he, -⟩ := hc.tables.lists x hx
    obtain ⟨-, -, -, row, hrow, -⟩ := hc.tables.author e he
    rw [hemp] at hrow
    cases hrow
  heads o := by
    ext r
    refine iff_of_false (fun ⟨head, hmem, _⟩ => nomatch hmem) ?_
    rintro ⟨hr | ⟨rev, hrev, -⟩, -⟩
    · obtain ⟨row, hrow, -⟩ := hc.tables.head_storedAs hr
      rw [hemp] at hrow
      cases hrow
    · cases hrev
  parents record hrecord := nomatch hrecord
  untouched o _ := rfl

/-- What a client holds of `t₀` is on the server. -/
theorem Replica.stored (h : Replica repo db c t₀) {r : RevisionId} (hr : r ∈ t₀.headsOf o) :
    c.tables.Stored r := h.since.stored r (h.base.head_storedAs hr).stored

/-- **What a push of another client preserves.** -/
theorem Replica.commits (h : Replica repo db c t₀) (hc' : ConnInv c') {client : ClientId}
    {batch : List Revision} (hcommits : Commits c.tables c'.tables client c.nextval batch)
    (hne : client ≠ repo.clientId) : Replica repo db c' t₀ where
  conn := hc'
  base := h.base
  since := h.since.commits hcommits h.conn.maxTransactionId_lt
  cursor := h.cursor
  heads := h.heads
  parents := h.parents
  untouched o hold := by
    have ho : ∀ rev ∈ batch, rev.objectId ≠ o := by
      intro rev hrev hobj
      obtain ⟨clients, hacc⟩ := hcommits.accepts
      have hmem : rev.row.stored ∈ c'.tables.revisions := by
        rw [hcommits.revisions_eq]
        exact List.mem_append_right _ (List.mem_map_of_mem hrev)
      have hby : rev.createdBy ≠ repo.clientId := by
        rw [hacc.createdBy rev hrev]
        exact hne
      exact hcommits.fresh rev hrev (h.since.stored _ (hold _ hmem hobj hby))
    rw [hcommits.headsOf_of_untouched ho]
    refine h.untouched o fun row hrow hobj hby => hold row ?_ hobj hby
    exact (hcommits.row_of_untouched ho hobj).mpr hrow

theorem Replica.withClients (h : Replica repo db c t₀) (clients : List ClientId) :
    Replica repo db (c.withClients clients) t₀ where
  conn := h.conn.withClients clients
  base := h.base
  since := ⟨h.since.stored, h.since.closed, h.since.max_le, h.since.listed⟩
  cursor := h.cursor
  heads := h.heads
  parents := h.parents
  untouched := h.untouched

/-- **What a call preserves** that creates a revision under a new id on top of all heads of its
object. -/
theorem Replica.written (h : Replica repo db c t₀) {rev : Revision}
    (hfresh : ¬ c.tables.Stored rev.id) (hnew : ∀ record ∈ db.revisions, record.id ≠ rev.id)
    (hheads : ∀ p, p ∈ rev.parents ↔ p ∈ db.headsOf rev.objectId) :
    Replica repo (db.written rev) c t₀ := by
  have hpending : ∀ record, record ∈ (db.written rev).pending ↔
      record = .fromRevision rev .pending ∨ record ∈ db.pending := by
    intro record
    constructor
    · intro hrecord
      exact (mem_pending_written hrecord).imp_right And.left
    · rintro (rfl | hold)
      · exact ClientDb.mem_pending.mpr ⟨mem_revisions_written.mpr (.inl rfl), rfl⟩
      · obtain ⟨hmem, hstatus⟩ := ClientDb.mem_pending.mp hold
        have hmem' := mem_revisions_written.mpr (.inr ⟨hmem, hnew _ hmem⟩)
        exact ClientDb.mem_pending.mpr ⟨hmem', hstatus⟩
  -- the new revision is nobody's parent
  have hparents : ∀ p ∈ rev.parents,
      p ∈ t₀.headsOf rev.objectId ∨ ∃ e ∈ db.pending, e.id = p := by
    intro p hp
    have hhead := (hheads p).mp hp
    rw [h.heads] at hhead
    refine hhead.1.imp_right ?_
    intro ⟨e, he, _, hid⟩
    obtain ⟨record, hrecord, rfl⟩ := List.mem_map.mp he
    exact ⟨record, hrecord, hid⟩
  have hunused : ∀ o p, (p ∈ t₀.headsOf o ∨ ∃ e ∈ db.pending, e.id = p) → p ≠ rev.id := by
    rintro o p (hp | ⟨e, he, hid⟩) heq
    · exact hfresh (heq ▸ h.stored hp)
    · exact hnew e (ClientDb.mem_pending.mp he).1 (hid.trans heq)
  refine ⟨h.conn, h.base, h.since, h.cursor, fun o => ?_, ?_, h.untouched⟩
  · ext r
    rw [headsOf_written, mem_headsOver_pending]
    simp only [hpending, forall_eq_or_imp, exists_eq_or_imp]
    by_cases ho : o = rev.objectId
    · rw [if_pos ho, Set.mem_singleton_iff]
      constructor
      · rintro rfl
        refine ⟨.inr (.inl ⟨ho.symm, rfl⟩), fun _ hp => hunused _ _ (hparents _ hp) rfl, ?_⟩
        intro record hrecord _ hp
        exact hunused _ _ (h.parents record hrecord _ hp) rfl
      · rintro ⟨hr, hkept, hall⟩
        by_contra hne
        -- it was a head before, and the new revision has retired it
        refine hkept ho.symm ((hheads r).mpr ?_)
        rw [h.heads, ← ho, mem_headsOver_pending]
        refine ⟨hr.imp_right ?_, hall⟩
        rintro (⟨-, rfl⟩ | hold)
        · exact absurd rfl hne
        · exact hold
    · rw [if_neg ho, h.heads, mem_headsOver_pending]
      have hother : ¬ rev.objectId = o := fun heq => ho heq.symm
      refine and_congr (or_congr_right ?_) ?_
      · exact (or_iff_right fun hself => hother hself.1).symm
      · exact (and_iff_right fun hself => absurd hself hother).symm
  · intro record hrecord p hp
    rcases (hpending record).mp hrecord with rfl | hold
    · exact (hparents p hp).imp_right fun ⟨e, he, hid⟩ => ⟨e, (hpending e).mpr (.inr he), hid⟩
    · refine (h.parents record hold p hp).imp_right fun ⟨e, he, hid⟩ => ?_
      exact ⟨e, (hpending e).mpr (.inr he), hid⟩

/-! ### The push of a sync -/

/-- The pending revisions are new to a server that accepts them. -/
theorem Commits.fresh_pending
    (hcommits : Commits c.tables t repo.clientId c.nextval (db.pending.map (·.revision))) :
    ∀ record ∈ db.pending, ¬ c.tables.Stored record.id :=
  fun record hrecord => hcommits.fresh record.revision (List.mem_map_of_mem hrecord)

/-- After the push the server has the local heads, but for those that others have retired. -/
theorem Replica.subset_iff (h : Replica repo db c t₀)
    (hcommits : Commits c.tables t repo.clientId c.nextval (db.pending.map (·.revision))) :
    db.headsOf o ⊆ t.headsOf o ↔
      ∀ l ∈ db.headsOf o, l ∈ c.tables.headsOf o ∨ ∃ record ∈ db.pending, record.id = l := by
  constructor
  · intro hsub l hl
    have hin := hsub hl
    rw [hcommits.headsOf, mem_headsOver_pending] at hin
    exact hin.1.imp_right fun ⟨record, hrecord, _, hid⟩ => ⟨record, hrecord, hid⟩
  · intro hall l hl
    have hlocal := hl
    rw [h.heads, mem_headsOver_pending] at hlocal
    rw [hcommits.headsOf, mem_headsOver_pending]
    refine ⟨?_, hlocal.2⟩
    rcases hall l hl with hserver | ⟨record, hrecord, rfl⟩
    · exact .inl hserver
    · rcases hlocal.1 with hbase | hpending
      · exact absurd (h.stored hbase) (hcommits.fresh_pending record hrecord)
      · exact .inr hpending

/-- Others have changed the object since. -/
def Tables.ChangedByOthers (t : Tables) (client : ClientId) (t₀ : Tables) (o : ObjectId) : Prop :=
  ∃ row ∈ t.revisions, row.objectId = o ∧ row.createdBy ≠ client ∧ ¬ t₀.Stored row.id

/-- Then something of theirs stays a head beside what is pushed. -/
theorem Replica.exists_theirs (h : Replica repo db c t₀)
    (hcommits : Commits c.tables t repo.clientId c.nextval (db.pending.map (·.revision)))
    (hnew : c.tables.ChangedByOthers repo.clientId t₀ o) :
    ∃ r ∈ t.headsOf o, c.tables.Stored r := by
  obtain ⟨row, hrow, hobj, -, hnot⟩ := hnew
  obtain ⟨x, hx, hxnew⟩ := h.since.exists_head h.conn.tables ⟨row, hrow, rfl, hobj⟩ hnot
  have hxs : c.tables.Stored x := (h.conn.tables.head_storedAs hx).stored
  refine ⟨x, ?_, hxs⟩
  rw [hcommits.headsOf, mem_headsOver_pending]
  refine ⟨.inl hx, fun record hrecord _ hp => ?_⟩
  rcases h.parents record hrecord x hp with hbase | ⟨e, he, rfl⟩
  · exact hxnew (h.base.head_storedAs hbase).stored
  · exact hcommits.fresh_pending e he hxs

/-- **When the update of a changed object replaces the local heads**, told before the push. -/
theorem Replica.replaces_iff (h : Replica repo db c t₀)
    (hcommits : Commits c.tables t repo.clientId c.nextval (db.pending.map (·.revision)))
    (hnew : c.tables.ChangedByOthers repo.clientId t₀ o) :
    (∃ r, t.headsOf o = {r} ∧ ∀ l ∈ db.headsOf o, l = r ∨ t.Parent l r) ↔
      (∀ record ∈ db.pending, record.objectId ≠ o) ∧
        ∃ r, c.tables.headsOf o = {r} ∧ ∀ l ∈ db.headsOf o, l = r ∨ c.tables.Parent l r := by
  -- with nothing pending for the object the push does not touch it
  have hsame : (∀ record ∈ db.pending, record.objectId ≠ o) → t.headsOf o = c.tables.headsOf o :=
    fun hnone => hcommits.headsOf_of_untouched (List.forall_mem_map.mpr hnone)
  have hparent : ∀ r ∈ c.tables.headsOf o, ∀ l, t.Parent l r ↔ c.tables.Parent l r := by
    intro r hr l
    rw [hcommits.parent_iff]
    refine or_iff_left fun ⟨rev, hrev, hid, _⟩ => ?_
    exact hcommits.fresh rev hrev (hid ▸ (h.conn.tables.head_storedAs hr).stored)
  constructor
  · intro ⟨r, hr, hall⟩
    have hnone : ∀ record ∈ db.pending, record.objectId ≠ o := by
      rintro record hrecord rfl
      -- what is pending has a head above it that the server did not have
      have hold : c.tables.Since t := (Tables.Since.refl h.conn.tables).commits hcommits
        h.conn.maxTransactionId_lt
      have hpushed : t.StoredAs record.id record.objectId :=
        hcommits.storedAs_iff.mpr (.inr ⟨record.revision, List.mem_map_of_mem hrecord, rfl, rfl⟩)
      obtain ⟨x, hx, hxnew⟩ := hold.exists_head (hcommits.wellFormed h.conn.tables) hpushed
        (hcommits.fresh_pending record hrecord)
      obtain ⟨y, hy, hyold⟩ := h.exists_theirs hcommits hnew
      rw [hr] at hx hy
      exact hxnew (hx.trans hy.symm ▸ hyold)
    rw [hsame hnone] at hr
    refine ⟨hnone, r, hr, fun l hl => (hall l hl).imp_right ?_⟩
    exact (hparent r (hr ▸ Set.mem_singleton r) l).mp
  · intro ⟨hnone, r, hr, hall⟩
    refine ⟨r, (hsame hnone).trans hr, fun l hl => (hall l hl).imp_right ?_⟩
    exact (hparent r (hr ▸ Set.mem_singleton r) l).mpr

/-! ### The pull of a sync -/

/-- An unfiltered pull returns the objects that others have changed since. -/
theorem Replica.returns_iff (h : Replica repo db c t₀) (hc' : ConnInv c')
    (hcommits : Commits c.tables c'.tables repo.clientId c.nextval (db.pending.map (·.revision)))
    {updates : List ObjectUpdate} (hans : Answers c'.tables repo.clientId
      (t₀.maxTransactionId : ℕ) c'.tables.maxTransactionId (Passes none none none) updates) :
    o ∈ updates.map (·.objectId) ↔ c.tables.ChangedByOthers repo.clientId t₀ o := by
  have hsince : t₀.Since c'.tables := h.since.commits hcommits h.conn.maxTransactionId_lt
  rw [hans.objects, hsince.changedFor_iff hc'.tables]
  constructor
  · intro ⟨⟨row, hrow, hobj, hby, hnew⟩, _⟩
    refine ⟨row, ?_, hobj, hby, hnew⟩
    rw [hcommits.revisions_eq] at hrow
    rcases List.mem_append.mp hrow with hold | hpushed
    · exact hold
    · -- what has been pushed is not of others
      obtain ⟨rev, hrev, rfl⟩ := List.mem_map.mp hpushed
      obtain ⟨clients, hacc⟩ := hcommits.accepts
      exact absurd (hacc.createdBy rev hrev) hby
  · intro ⟨row, hrow, hobj, hby, hnew⟩
    have hrow' : row ∈ c'.tables.revisions := by
      rw [hcommits.revisions_eq]
      exact List.mem_append_left _ hrow
    refine ⟨⟨row, hrow', hobj, hby, hnew⟩, ?_⟩
    obtain ⟨x, hx, -⟩ := hc'.tables.exists_head ⟨row, hrow', rfl, hobj⟩
    obtain ⟨head, hhead, rfl, -⟩ := hc'.tables.head_storedAs hx
    exact ⟨head, hhead, hx, nofun, nofun, nofun⟩

/-- **The heads of one object after a pull**: they are those of the server just when the
object was mergeable before the push. -/
theorem Replica.pulled_iff (h : Replica repo db c t₀) (hc' : ConnInv c')
    (hcommits : Commits c.tables c'.tables repo.clientId c.nextval (db.pending.map (·.revision)))
    {updates : List ObjectUpdate} (hans : Answers c'.tables repo.clientId
      (t₀.maxTransactionId : ℕ) c'.tables.maxTransactionId (Passes none none none) updates)
    (hdb' : ∀ o, db'.headsOf o = db.headsOf o) :
    (db'.pulled updates).headsOf o = c'.tables.headsOf o ↔ Mergeable db c.tables o := by
  have hobj : ∀ u ∈ updates, ∀ rev ∈ u.heads, rev.objectId = u.objectId :=
    fun u hu rev hrev => hans.objectId hc'.tables hu hrev
  by_cases ho : o ∈ updates.map (·.objectId)
  · have hnew := (h.returns_iff hc' hcommits hans).mp ho
    obtain ⟨u, hu, rfl⟩ := List.mem_map.mp ho
    have hclears : db'.Clears u ↔ _ := hans.clears_iff hu
    rw [hdb', h.replaces_iff hcommits hnew] at hclears
    rw [headsOf_pulled_of_mem hobj hans.distinct hu]
    rcases hans.headsOf_applied hc'.tables hu db' with ⟨hc, heq⟩ | ⟨hnc, heq⟩
    · exact iff_of_true heq (.inr (hclears.mp hc))
    · -- the local heads stay beside those of the server
      rw [heq, hdb', Set.union_eq_right, h.subset_iff hcommits]
      exact (or_iff_left (mt hclears.mpr hnc)).symm
  · -- others have left the object alone
    rw [headsOf_pulled_of_notMem hobj ho, hdb']
    have hsame : c.tables.headsOf o = t₀.headsOf o := by
      refine h.untouched o fun row hrow hrowo hby => ?_
      by_contra hnew
      exact ho ((h.returns_iff hc' hcommits hans).mpr ⟨row, hrow, hrowo, hby, hnew⟩)
    have heq : db.headsOf o = c'.tables.headsOf o := by
      rw [h.heads, hcommits.headsOf, hsame]
    exact iff_of_true heq (.inl ((h.subset_iff hcommits).mp heq.le))

/-- **The heads of one object after a sync**, when nothing has been rejected: they are those of
the server just when the object was mergeable. -/
theorem Replica.sync (h : Replica repo db c t₀) {result : SyncResult}
    (hrun : (Repository.sync everything).run (answer (httpServer repo.clientId)) (db, c) =
      (.ok result, (db', c'))) (hrej : result.rejected = []) :
    (∀ o, db'.headsOf o = c'.tables.headsOf o ↔ Mergeable db c.tables o) ∧ ConnInv c' ∧
      db'.pending = [] ∧ db'.syncState =
        some ⟨some repo.clientId, some repo.userId, some ⟨c'.tables.maxTransactionId⟩⟩ := by
  obtain ⟨resp, batch, db₁, c₁, updates, -, hdone, hresp, hpulled⟩ := h.conn.sync_ok hrun
  obtain ⟨last, hstate, hlast⟩ := h.cursor
  obtain ⟨clients, rfl⟩ := hpulled.tables
  have hcommits := hdone.commits
  rw [hdone.batch_eq (hresp.trans hrej)] at hcommits
  have hans : Answers c₁.tables repo.clientId (t₀.maxTransactionId : ℕ)
      c₁.tables.maxTransactionId (Passes none none none) updates := by
    have hans := hpulled.answers
    rw [show everything.since.or db.lastTxn = last by rw [ClientDb.lastTxn, hstate]; rfl] at hans
    rw [← hlast]
    exact ⟨hans.distinct, hans.objects, hans.heads, hans.rows, hans.action⟩
  rw [hpulled.stores]
  refine ⟨fun o => ?_, hpulled.conn, pending_pulled hdone.pending_eq_nil _ _, ?_⟩
  · rw [headsOf_advanced]
    exact h.pulled_iff hdone.conn hcommits hans hdone.headsOf
  · have hstate₁ : (db₁.pulled updates).syncState =
        some ⟨some repo.clientId, some repo.userId, last⟩ := by
      rw [pulled_syncState, hdone.stores, marked_syncState, hstate]
    exact advanced_syncState hstate₁ _

/-- **What a sync preserves**, from objects that are all mergeable. -/
theorem Replica.synced (h : Replica repo db c t₀) {result : SyncResult}
    (hrun : (Repository.sync everything).run (answer (httpServer repo.clientId)) (db, c) =
      (.ok result, (db', c'))) (hrej : result.rejected = []) (hall : ∀ o, Mergeable db c.tables o) :
    Replica repo db' c' c'.tables := by
  obtain ⟨hheads, hconn, hpending, hstate⟩ := h.sync hrun hrej
  refine ⟨hconn, hconn.tables, .refl hconn.tables, ⟨_, hstate, rfl⟩, fun o => ?_, ?_,
    fun o _ => rfl⟩
  · rw [(hheads o).mpr (hall o), hpending]
    exact (headsOver_of_untouched (List.forall_mem_nil _)).symm
  · rw [hpending]
    exact List.forall_mem_nil _

end Replica

/-! ### The runs of any number of clients -/

/-- The stores of all clients, and the server. -/
structure World where
  stores : ClientId → ClientDb
  server : Conn

/-- What client `a` sees. -/
def World.view (w : World) (a : ClientId) : ClientDb × Conn := (w.stores a, w.server)

/-- Client `a` has acted. -/
def World.acted (w : World) (a : ClientId) (s : ClientDb × Conn) : World :=
  ⟨Function.update w.stores a s.1, s.2⟩

/-- The ids that a call draws are new to the client and to the server. -/
structure Draw.New (draw : Draw) (s : ClientDb × Conn) : Prop where
  server : ¬ s.2.tables.Stored draw.revisionId
  client : ∀ record ∈ s.1.revisions, record.id ≠ draw.revisionId
  object : s.1.headsOf draw.objectId = ∅

/-- A resolution names all local heads of its object. -/
def Call.NamesAllHeads (db : ClientDb) : Call → Prop
  | .resolveConflict o parents _ => ∀ l ∈ db.headsOf o, l ∈ parents
  | _ => True

/-- The worlds that clients get to, each starting with empty stores.  Calls and unfiltered
syncs follow one another, of any clients in any order; `meets` is the condition on a sync.
No push of a sync is answered with a rejection. -/
inductive Replicas (users : ClientId → UserId) (meets : ClientId → ClientDb × Conn → Prop) :
    World → Prop where
  | opened {c : Conn} : ConnInv c → c.tables.revisions = [] →
      Replicas users meets ⟨fun a => .opened a (users a), c⟩
  | call {w : World} {a : ClientId} {call : Call} {draw : Draw} : Replicas users meets w →
      draw.New (w.view a) → call.NamesAllHeads (w.stores a) →
      Replicas users meets (w.acted a
        ((call.program ⟨a, users a⟩ draw).run (answer (httpServer a)) (w.view a)).2)
  | sync {w : World} {a : ClientId} {result : SyncResult} {s' : ClientDb × Conn} :
      Replicas users meets w → meets a (w.view a) →
      (Repository.sync everything).run (answer (httpServer a)) (w.view a) = (.ok result, s') →
      result.rejected = [] → Replicas users meets (w.acted a s')

section Run

variable {users : ClientId → UserId} {meets : ClientId → ClientDb × Conn → Prop} {w : World}
  {a : ClientId}

/-- A call creates its revision on top of all local heads. -/
theorem Call.Creates.covers {repo : Repository} {draw : Draw} {db : ClientDb} {call : Call}
    {rev : Revision} (h : call.Creates repo draw db rev) (hall : call.NamesAllHeads db)
    (hobject : db.headsOf draw.objectId = ∅) (p : RevisionId) :
    p ∈ rev.parents ↔ p ∈ db.headsOf rev.objectId := by
  refine ⟨fun hp => h.heads p (h.parents ▸ hp), fun hp => ?_⟩
  rw [h.parents]
  have hobj := h.objectId
  cases call with
  | save objectType value =>
    rw [hobj, Call.objectId, hobject] at hp
    exact absurd hp (Set.notMem_empty p)
  | update o q value =>
    rw [h.single q rfl] at hp
    exact List.mem_singleton.mpr hp
  | delete o q =>
    rw [h.single q rfl] at hp
    exact List.mem_singleton.mpr hp
  | resolveConflict o parents resolved =>
    rw [hobj] at hp
    exact hall p hp

/-- **What every run keeps** of a client whose syncs have found all objects mergeable. -/
theorem Replicas.replica (h : Replicas users meets w)
    (hmeets : ∀ s, meets a s → ∀ o, Mergeable s.1 s.2.tables o) :
    ∃ t₀, Replica ⟨a, users a⟩ (w.stores a) w.server t₀ := by
  induction h with
  | opened hc hemp => exact ⟨_, .opened hc hemp⟩
  | @call w b call draw _ hnew hall ih =>
    obtain ⟨t₀, ih⟩ := ih
    refine ⟨t₀, ?_⟩
    rcases call.run_program (httpServer b) (w.stores b) w.server ⟨b, users b⟩ draw with
      ⟨e, herr⟩ | ⟨rev, hcreates, hok⟩
    -- a call that fails writes nothing
    · have hsame : w.acted b (w.stores b, w.server) = w := by
        unfold World.acted
        rw [Function.update_eq_self]
      rw [World.view, herr, hsame]
      exact ih
    · rw [World.view, hok]
      unfold World.acted
      -- the calls of the others do not touch these stores
      by_cases hab : a = b
      · subst hab
        dsimp only
        rw [Function.update_self]
        refine ih.written (hcreates.id ▸ hnew.server) ?_ (hcreates.covers hall hnew.object)
        intro record hrecord
        rw [hcreates.id]
        exact hnew.client record hrecord
      · dsimp only
        rw [Function.update_of_ne hab]
        exact ih
  | @sync w b result s' _ hmeet hrun hrej ih =>
    obtain ⟨t₀, ih⟩ := ih
    obtain ⟨db', c'⟩ := s'
    unfold World.acted
    by_cases hab : a = b
    · subst hab
      dsimp only
      rw [Function.update_self]
      exact ⟨_, ih.synced hrun hrej (hmeets _ hmeet)⟩
    · dsimp only
      rw [Function.update_of_ne hab]
      -- of the sync of another client, only the push is seen
      obtain ⟨resp, batch, db₁, c₁, updates, -, hdone, -, hpulled⟩ := ih.conn.sync_ok hrun
      obtain ⟨clients, rfl⟩ := hpulled.tables
      refine ⟨t₀, Replica.withClients ?_ clients⟩
      exact ih.commits hdone.conn hdone.commits fun hba => hab hba.symm

/-- **The heads of all objects after a sync, in every run.**  As long as the syncs of client
`a` find all objects mergeable, each leaves it with the heads of the server for every
object; and a sync that does not find them so does not. -/
theorem Replicas.converges_iff
    (h : Replicas users (fun b s => b = a → ∀ o, Mergeable s.1 s.2.tables o) w)
    {result : SyncResult} {s' : ClientDb × Conn}
    (hrun : (Repository.sync everything).run (answer (httpServer a)) (w.view a) =
      (.ok result, s')) (hrej : result.rejected = []) :
    (∀ o, s'.1.headsOf o = s'.2.tables.headsOf o) ↔
      ∀ o, Mergeable (w.stores a) w.server.tables o := by
  obtain ⟨t₀, hreplica⟩ := h.replica (a := a) fun s hs => hs rfl
  obtain ⟨db', c'⟩ := s'
  exact forall_congr' (hreplica.sync hrun hrej).1

end Run

/-! ### A trip of two clients

Client 7 saves an object and syncs, and client 8 edits it. -/

/-- The world after a call of client `a`. -/
def World.afterCall (w : World) (a : ClientId) (call : Call) (draw : Draw) : World :=
  w.acted a ((call.program ⟨a, ⟨⟨1⟩⟩⟩ draw).run (answer (httpServer a)) (w.view a)).2

/-- The world after a sync of client `a`. -/
def World.afterSync (w : World) (a : ClientId) : World :=
  w.acted a ((Repository.sync everything).run (answer (httpServer a)) (w.view a)).2

/-- Client 7 has saved the revision 1 of object 10. -/
def newTrip : World :=
  (⟨fun a => .opened a ⟨⟨1⟩⟩, ⟨{}, 1, none⟩⟩ : World).afterCall ⟨⟨7⟩⟩ (.save "trip" (.ok .null))
    ⟨⟨⟨10⟩⟩, ⟨⟨1⟩⟩, 0⟩

/-- Client 8 has it, too. -/
def sharedTrip : World := (newTrip.afterSync ⟨⟨7⟩⟩).afterSync ⟨⟨8⟩⟩

/-- Client 8 has edited it. -/
def onceEdited : World :=
  sharedTrip.afterCall ⟨⟨8⟩⟩ (.update ⟨⟨10⟩⟩ ⟨⟨1⟩⟩ (.ok .null)) ⟨⟨⟨11⟩⟩, ⟨⟨2⟩⟩, 0⟩

/-- Client 8 has edited it once more. -/
def twiceEdited : World :=
  onceEdited.afterCall ⟨⟨8⟩⟩ (.update ⟨⟨10⟩⟩ ⟨⟨2⟩⟩ (.ok .null)) ⟨⟨⟨12⟩⟩, ⟨⟨3⟩⟩, 0⟩

section Trip

variable {meets : ClientId → ClientDb × Conn → Prop} {w : World} {a : ClientId}

theorem Replicas.afterCall (h : Replicas (fun _ => ⟨⟨1⟩⟩) meets w) (a : ClientId) (call : Call)
    (draw : Draw) (hserver : ¬ w.server.tables.Stored draw.revisionId)
    (hclient : ∀ record ∈ (w.stores a).revisions.records, record.id ≠ draw.revisionId)
    (hobject : ∀ x ∈ (w.stores a).headList, x.1 ≠ draw.objectId)
    (hall : call.NamesAllHeads (w.stores a)) :
    Replicas (fun _ => ⟨⟨1⟩⟩) meets (w.afterCall a call draw) := by
  refine .call h ⟨hserver, fun record hrecord => ?_, ?_⟩ hall
  · exact hclient record (KeyedStore.mem_def.mp hrecord)
  rw [Set.eq_empty_iff_forall_notMem]
  exact fun r hr => hobject _ (ClientDb.mem_headList.mpr hr) rfl

theorem Replicas.afterSync (h : Replicas (fun _ => ⟨⟨1⟩⟩) meets w) (a : ClientId)
    (hmeets : meets a (w.view a)) (result : SyncResult)
    (hok : ((Repository.sync everything).run (answer (httpServer a)) (w.view a)).1 = .ok result)
    (hrej : result.rejected = []) : Replicas (fun _ => ⟨⟨1⟩⟩) meets (w.afterSync a) :=
  .sync h hmeets (Prod.ext hok rfl) hrej

theorem replicas_onceEdited (hmeets : meets ⟨⟨7⟩⟩ (newTrip.view ⟨⟨7⟩⟩))
    (hothers : ∀ s, meets ⟨⟨8⟩⟩ s) : Replicas (fun _ => ⟨⟨1⟩⟩) meets onceEdited := by
  have hopened : Replicas (fun _ => ⟨⟨1⟩⟩) meets ⟨fun a => .opened a ⟨⟨1⟩⟩, ⟨{}, 1, none⟩⟩ :=
    .opened .empty rfl
  have hnew : Replicas (fun _ => ⟨⟨1⟩⟩) meets newTrip :=
    hopened.afterCall ⟨⟨7⟩⟩ _ ⟨⟨⟨10⟩⟩, ⟨⟨1⟩⟩, 0⟩ (by decide +kernel) (by decide +kernel)
      (by decide +kernel) trivial
  have hpushed := hnew.afterSync ⟨⟨7⟩⟩ hmeets ⟨1, 0, 0, []⟩ (by decide +kernel) rfl
  have hshared := hpushed.afterSync ⟨⟨8⟩⟩ (hothers _) ⟨0, 1, 0, []⟩ (by decide +kernel) rfl
  exact hshared.afterCall ⟨⟨8⟩⟩ _ ⟨⟨⟨11⟩⟩, ⟨⟨2⟩⟩, 0⟩ (by decide +kernel) (by decide +kernel)
    (by decide +kernel) trivial

/-- One edit by client 8 is taken over by client 7. -/
theorem Replicas.converges_onceEdited :
    (((onceEdited.afterSync ⟨⟨8⟩⟩).afterSync ⟨⟨7⟩⟩).stores ⟨⟨7⟩⟩).headsOf ⟨⟨10⟩⟩ = {⟨⟨2⟩⟩} := by
  -- the first sync of client 7 finds its own revision pending, and nothing else
  have hfirst : ∀ o, Mergeable (newTrip.stores ⟨⟨7⟩⟩) newTrip.server.tables o := by
    have hpending : ∀ x ∈ (newTrip.stores ⟨⟨7⟩⟩).headList,
        ∃ record ∈ (newTrip.stores ⟨⟨7⟩⟩).pending, record.id = x.2 := by decide +kernel
    intro o
    exact .inl fun l hl => .inr (hpending _ (ClientDb.mem_headList.mpr hl))
  have honce : Replicas (fun _ => ⟨⟨1⟩⟩)
      (fun b s => b = ⟨⟨7⟩⟩ → ∀ o, Mergeable s.1 s.2.tables o) onceEdited :=
    replicas_onceEdited (fun _ => hfirst) fun _ h => by cases h
  have hedited := honce.afterSync ⟨⟨8⟩⟩ (fun h => by cases h) ⟨1, 0, 0, []⟩
    (by decide +kernel) rfl
  have hsynced : ((onceEdited.afterSync ⟨⟨8⟩⟩).stores ⟨⟨7⟩⟩).pending = [] ∧
      ((onceEdited.afterSync ⟨⟨8⟩⟩).stores ⟨⟨7⟩⟩).headList = [(⟨⟨10⟩⟩, ⟨⟨1⟩⟩)] ∧
      (onceEdited.afterSync ⟨⟨8⟩⟩).server.tables.objectHeads = [⟨⟨⟨10⟩⟩, ⟨⟨2⟩⟩⟩] ∧
      (onceEdited.afterSync ⟨⟨8⟩⟩).server.tables.Parent ⟨⟨1⟩⟩ ⟨⟨2⟩⟩ ∧
      ((Repository.sync everything).run (answer (httpServer ⟨⟨7⟩⟩))
        ((onceEdited.afterSync ⟨⟨8⟩⟩).view ⟨⟨7⟩⟩)).1 = .ok ⟨0, 1, 0, []⟩ ∧
      ((Repository.sync everything).run (answer (httpServer ⟨⟨7⟩⟩))
        ((onceEdited.afterSync ⟨⟨8⟩⟩).view ⟨⟨7⟩⟩)).2.2.tables.objectHeads =
          [⟨⟨⟨10⟩⟩, ⟨⟨2⟩⟩⟩] := by decide +kernel
  obtain ⟨hpending, hlocal, hserver, hparent, hok, hserved⟩ := hsynced
  have hheads : ∀ t : Tables, t.objectHeads = [⟨⟨⟨10⟩⟩, ⟨⟨2⟩⟩⟩] → t.headsOf ⟨⟨10⟩⟩ = {⟨⟨2⟩⟩} := by
    intro t ht
    ext r
    rw [Tables.mem_headsOf, ht, List.mem_singleton, HeadRow.mk.injEq, Set.mem_singleton_iff]
    exact and_iff_right rfl
  rw [World.afterSync, World.acted]
  dsimp only
  rw [Function.update_self]
  generalize onceEdited.afterSync ⟨⟨8⟩⟩ = w at *
  rcases hrun : (Repository.sync everything).run (answer (httpServer ⟨⟨7⟩⟩)) (w.view ⟨⟨7⟩⟩)
    with ⟨r, s'⟩
  rw [hrun] at hok hserved ⊢
  obtain rfl : r = .ok ⟨0, 1, 0, []⟩ := hok
  rw [← hheads s'.2.tables hserved]
  -- the second finds one head of client 8, on top of the local one
  refine (hedited.converges_iff hrun rfl).mpr (fun o => ?_) ⟨⟨10⟩⟩
  by_cases ho : o = ⟨⟨10⟩⟩
  · subst ho
    refine .inr ⟨by rw [hpending]; exact nofun, ⟨⟨2⟩⟩, hheads _ hserver, fun l hl => .inr ?_⟩
    rw [← ClientDb.mem_headList, hlocal, List.mem_singleton, Prod.mk.injEq] at hl
    rw [hl.2]
    exact hparent
  · refine .inl fun l hl => ?_
    rw [← ClientDb.mem_headList, hlocal, List.mem_singleton, Prod.mk.injEq] at hl
    exact absurd hl.1 ho

/-- **Two edits are not**: client 7, which has nothing pending, ends with two heads where the
server has one. -/
theorem Replicas.diverges_twiceEdited : ∃ w s' result,
    Replicas (fun _ => ⟨⟨1⟩⟩) (fun _ _ => True) w ∧
    (Repository.sync everything).run (answer (httpServer ⟨⟨7⟩⟩)) (w.view ⟨⟨7⟩⟩) = (.ok result, s') ∧
    result.rejected = [] ∧ (w.stores ⟨⟨7⟩⟩).pending = [] ∧
    s'.2.tables.headsOf ⟨⟨10⟩⟩ = {⟨⟨3⟩⟩} ∧ s'.1.headsOf ⟨⟨10⟩⟩ = {⟨⟨1⟩⟩, ⟨⟨3⟩⟩} := by
  have htwice : Replicas (fun _ => ⟨⟨1⟩⟩) (fun _ _ => True) twiceEdited :=
    (replicas_onceEdited trivial fun _ => trivial).afterCall ⟨⟨8⟩⟩ _ ⟨⟨⟨12⟩⟩, ⟨⟨3⟩⟩, 0⟩
      (by decide +kernel) (by decide +kernel) (by decide +kernel) trivial
  have hpushed := htwice.afterSync ⟨⟨8⟩⟩ trivial ⟨2, 0, 0, []⟩ (by decide +kernel) rfl
  have hsynced : ((twiceEdited.afterSync ⟨⟨8⟩⟩).stores ⟨⟨7⟩⟩).pending = [] ∧
      ((Repository.sync everything).run (answer (httpServer ⟨⟨7⟩⟩))
        ((twiceEdited.afterSync ⟨⟨8⟩⟩).view ⟨⟨7⟩⟩)).1 = .ok ⟨0, 1, 1, []⟩ ∧
      ((Repository.sync everything).run (answer (httpServer ⟨⟨7⟩⟩))
        ((twiceEdited.afterSync ⟨⟨8⟩⟩).view ⟨⟨7⟩⟩)).2.2.tables.objectHeads = [⟨⟨⟨10⟩⟩, ⟨⟨3⟩⟩⟩] ∧
      ((Repository.sync everything).run (answer (httpServer ⟨⟨7⟩⟩))
        ((twiceEdited.afterSync ⟨⟨8⟩⟩).view ⟨⟨7⟩⟩)).2.1.headList =
          [(⟨⟨10⟩⟩, ⟨⟨1⟩⟩), (⟨⟨10⟩⟩, ⟨⟨3⟩⟩)] := by decide +kernel
  obtain ⟨hpending, hok, hserver, hlocal⟩ := hsynced
  rcases hrun : (Repository.sync everything).run (answer (httpServer ⟨⟨7⟩⟩))
    ((twiceEdited.afterSync ⟨⟨8⟩⟩).view ⟨⟨7⟩⟩) with ⟨r, s'⟩
  rw [hrun] at hok hserver hlocal
  obtain rfl : r = .ok ⟨0, 1, 1, []⟩ := hok
  refine ⟨_, s', _, hpushed, hrun, rfl, hpending, ?_, ?_⟩
  · ext r
    rw [Tables.mem_headsOf, hserver, List.mem_singleton, HeadRow.mk.injEq, Set.mem_singleton_iff]
    exact and_iff_right rfl
  · ext r
    rw [← ClientDb.mem_headList, hlocal]
    simp

end Trip

end Rustend
