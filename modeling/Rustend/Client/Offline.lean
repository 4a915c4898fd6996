import Rustend.Client.Updates

/-!
# The offline queue

What an application writes while it is offline stays pending until the next push, which
sends the pending revisions in the order of their ids.  The server checks them in the
order in which it gets them, so a revision has to come after those of its parents that
are pending too.

## Main definitions

* `Offline` — a client whose pending revisions its own calls have created.
* `StandsOn` — the parents of the pending revisions are stored, or pending.
* `Pushable` — the condition on the queue.

## Main results

* `Offline.queueAccepted_iff` — **when a push accepts the whole queue.**
-/

namespace Rustend

open Interleave

/-! ### The queue of a client -/

/-- A client whose pending revisions its own successful calls have created.  Whatever
else happens to the stores makes nothing pending. -/
inductive Offline (repo : Repository) : ClientDb → Prop where
  | drained {db : ClientDb} : db.pending = [] → Offline repo db
  | call {db db' : ClientDb} {c c' : Conn} {call : Call} {draw : Draw} {id : RevisionId} :
      Offline repo db → call.parents.Nodup →
      (call.program repo draw).run (answer (httpServer repo.clientId)) (db, c) =
        (.ok id, (db', c')) → Offline repo db'
  | other {db db' : ClientDb} : Offline repo db → (∀ record ∈ db'.pending, record ∈ db.pending) →
      Offline repo db'

/-- The parents of the pending revisions are stored on the server, or pending. -/
def StandsOn (t : Tables) (db : ClientDb) : Prop :=
  ∀ record ∈ db.pending, ∀ p ∈ record.revision.parents, t.StoredAs p record.objectId ∨
    ∃ parent ∈ db.pending, parent.id = p ∧ parent.objectId = record.objectId

instance (t : Tables) (db : ClientDb) : Decidable (StandsOn t db) :=
  inferInstanceAs (Decidable (∀ record ∈ db.pending, ∀ p ∈ record.revision.parents,
    t.StoredAs p record.objectId ∨
      ∃ parent ∈ db.pending, parent.id = p ∧ parent.objectId = record.objectId))

/-- A push accepts every pending revision and rejects none: all of them get stored, and
are recorded as synced. -/
def QueueAccepted (client : ClientId) (db : ClientDb) (c : Conn) : Prop :=
  ∃ db' c', pushPending.run (answer (httpServer client)) (db, c) =
      (.ok (db.pending.length, []), (db', c')) ∧
    ∀ record ∈ db.pending, c'.tables.StoredAs record.id record.objectId ∧
      { record with syncStatus := .synced } ∈ db'.revisions

/-- The queue can be pushed: a pending parent has the smaller id, no id is taken, every
value fits its column, and there is a transaction id left. -/
structure Pushable (c : Conn) (db : ClientDb) : Prop where
  ordered : ∀ record ∈ db.pending, ∀ parent ∈ db.pending,
    parent.id ∈ record.revision.parents → parent.id.key < record.id.key
  fresh : ∀ record ∈ db.pending, ¬ c.tables.Stored record.id
  storable : ∀ record ∈ db.pending, record.revision.row.storable = true
  nextval : c.nextval ≤ i64Max

/-! ### What a call adds to the queue -/

/-- After a call, what is pending was pending before, or is what the call created. -/
theorem mem_pending_written {db : ClientDb} {rev : Revision} {record : RevisionRecord}
    (h : record ∈ (db.written rev).pending) :
    record = .fromRevision rev .pending ∨ record ∈ db.pending ∧ record.id ≠ rev.id := by
  obtain ⟨hmem, hstatus⟩ := ClientDb.mem_pending.mp h
  rcases mem_revisions_written.mp hmem with heq | ⟨hold, hne⟩
  · exact .inl heq
  · exact .inr ⟨ClientDb.mem_pending.mpr ⟨hold, hstatus⟩, hne⟩

/-- **Pending revisions carry the identity of the repository**, and distinct parents. -/
theorem Offline.pending {repo : Repository} {db : ClientDb} (h : Offline repo db) :
    ∀ record ∈ db.pending, record.createdBy = repo.clientId ∧ record.revision.parents.Nodup := by
  induction h with
  | drained hemp =>
    intro record hrecord
    rw [hemp] at hrecord
    cases hrecord
  | other _ hsub ih => exact fun record hrecord => ih record (hsub record hrecord)
  | @call db db' c c' call draw id _ hnodup hrun ih =>
    have hcall := call.run_program (httpServer repo.clientId) db c repo draw
    rcases hcall with ⟨e, herr⟩ | ⟨rev, hcreates, hok⟩
    · rw [hrun] at herr
      cases herr
    · rw [hrun] at hok
      simp only [Prod.mk.injEq] at hok
      obtain ⟨-, rfl, -⟩ := hok
      intro record hrecord
      rcases mem_pending_written hrecord with rfl | ⟨hold, -⟩
      · refine ⟨hcreates.createdBy, ?_⟩
        have hparents : rev.parents = call.parents := hcreates.parents
        show rev.parents.Nodup
        rw [hparents]
        exact hnodup
      · exact ih record hold

/-! ### The order of the queue -/

section Queue

variable {db : ClientDb} {t : Tables} {client : ClientId}

/-- The queue is sorted by the text of the ids. -/
theorem pending_sorted (db : ClientDb) :
    db.pending.Pairwise fun a b => a.id.key < b.id.key := db.revisions.sorted.filter _

theorem pending_ids_nodup (db : ClientDb) : ((db.pending.map (·.revision)).map (·.id)).Nodup := by
  rw [List.map_map, List.Nodup, List.pairwise_map]
  refine (pending_sorted db).imp fun {a b} hlt heq => ?_
  have hid : a.id = b.id := heq
  rw [hid] at hlt
  exact lt_irrefl _ hlt

/-- What comes before a record of the queue has the smaller id. -/
theorem mem_before_iff {before rest : List RevisionRecord} {record parent : RevisionRecord}
    (hsplit : db.pending = before ++ record :: rest) (hparent : parent ∈ db.pending) :
    parent ∈ before ↔ parent.id.key < record.id.key := by
  have hsorted := pending_sorted db
  rw [hsplit] at hsorted hparent
  rw [List.pairwise_append, List.pairwise_cons] at hsorted
  obtain ⟨-, ⟨hafter, -⟩, hbefore⟩ := hsorted
  constructor
  · intro hmem
    exact hbefore parent hmem record List.mem_cons_self
  · intro hlt
    rcases List.mem_append.mp hparent with hmem | hmem
    · exact hmem
    rcases List.mem_cons.mp hmem with rfl | hmem
    · exact absurd hlt (lt_irrefl _)
    · exact absurd hlt (lt_asymm (hafter parent hmem))

/-- **The queue is admissible exactly when parents come first**, as long as none of it
is stored yet. -/
theorem accepts_pending_iff (hown : ∀ record ∈ db.pending,
      record.createdBy = client ∧ record.revision.parents.Nodup) (hstands : StandsOn t db)
    (hfresh : ∀ record ∈ db.pending, ¬ t.Stored record.id) :
    Accepts t client (db.pending.map (·.revision)) ↔ ∀ record ∈ db.pending,
      ∀ parent ∈ db.pending, parent.id ∈ record.revision.parents →
        parent.id.key < record.id.key := by
  constructor
  · intro ha record hrecord parent hparent hp
    obtain ⟨before, rest, hsplit⟩ := List.append_of_mem hrecord
    have hbatch : db.pending.map (·.revision) =
        before.map (·.revision) ++ record.revision :: rest.map (·.revision) := by
      rw [hsplit, List.map_append, List.map_cons]
    rcases ha.parent_before hbatch parent.id hp with hs | ⟨e, he, hid, -⟩
    · exact absurd hs.stored (hfresh parent hparent)
    · obtain ⟨earlier, hearlier, rfl⟩ := List.mem_map.mp he
      have hmem : earlier ∈ db.pending := by
        rw [hsplit]
        exact List.mem_append_left _ hearlier
      have hlt := (mem_before_iff hsplit hmem).mp hearlier
      have hkey : earlier.id = parent.id := hid
      rwa [hkey] at hlt
  · intro hordered
    apply Accepts.of_before
    · intro rev hrev
      obtain ⟨record, hrecord, rfl⟩ := List.mem_map.mp hrev
      exact hown record hrecord
    · intro before rest rev hsplit p hp
      -- the split of the batch is one of the queue
      obtain ⟨before, tail, hqueue, rfl, htail⟩ := List.map_eq_append_iff.mp hsplit
      obtain ⟨record, rest, rfl, rfl, rfl⟩ := List.map_eq_cons_iff.mp htail
      have hrecord : record ∈ db.pending := by simp [hqueue]
      rcases hstands record hrecord p hp with hs | ⟨parent, hparent, rfl, hobj⟩
      · exact .inl hs
      · have hlt := hordered record hrecord parent hparent hp
        exact .inr ⟨parent.revision, List.mem_map_of_mem ((mem_before_iff hqueue hparent).mpr hlt),
          rfl, hobj⟩

/-- When the whole batch can be written, in terms of the queue. -/
theorem writable_pending_iff (hown : ∀ record ∈ db.pending,
      record.createdBy = client ∧ record.revision.parents.Nodup) {c : Conn}
    (hstands : StandsOn c.tables db) {clients : List ClientId} (hreg : client ∈ clients) :
    Writable (c.withClients clients).tables client c.nextval (db.pending.map (·.revision)) ↔
      Pushable c db := by
  have hstands' : StandsOn (c.withClients clients).tables db := hstands
  constructor
  · intro hw
    have hfresh : ∀ record ∈ db.pending, ¬ c.tables.Stored record.id := fun record hrecord =>
      hw.fresh record.revision (List.mem_map_of_mem hrecord)
    have hordered := (accepts_pending_iff hown hstands' hfresh).mp hw.accepts
    refine ⟨hordered, hfresh, fun record hrecord => ?_, hw.nextval⟩
    exact hw.storable record.revision (List.mem_map_of_mem hrecord)
  · intro hp
    refine ⟨pending_ids_nodup db, ?_, ?_, ?_, hreg, hp.nextval⟩
    · intro rev hrev
      obtain ⟨record, hrecord, rfl⟩ := List.mem_map.mp hrev
      exact hp.fresh record hrecord
    · exact (accepts_pending_iff hown hstands' hp.fresh).mpr hp.ordered
    · intro rev hrev
      obtain ⟨record, hrecord, rfl⟩ := List.mem_map.mp hrev
      exact hp.storable record hrecord

end Queue

/-! ### The push -/

section Push

variable {client : ClientId} {db db' : ClientDb} {c c' : Conn}

/-- What has been pushed without a rejection is stored, and recorded as synced. -/
theorem ConnInv.queueAccepted (h : ConnInv c) {pushed : ℕ}
    (hrun : pushPending.run (answer (httpServer client)) (db, c) =
      (.ok (pushed, []), (db', c'))) : QueueAccepted client db c := by
  obtain ⟨resp, batch, hdone, hrej, rfl⟩ := h.pushPending_ok hrun
  have hperm := hdone.reported
  rw [hrej, List.map_nil, List.append_nil] at hperm
  have hcount : resp.accepted.length = db.pending.length := by simpa using hperm.length_eq
  refine ⟨db', c', hcount ▸ hrun, fun record hrecord => ⟨?_, ?_⟩⟩
  · apply hdone.commits.storedAs_iff.mpr
    refine .inr ⟨record.revision, ?_, rfl, rfl⟩
    rw [hdone.batch_eq hrej]
    exact List.mem_map_of_mem hrecord
  · -- its id is among those reported as accepted, and none is reported otherwise
    have hmarks : ∀ mark ∈ resp.marks, mark.2 = .synced := by
      intro mark hmark
      rw [PushResponse.marks, hrej, List.map_nil, List.append_nil] at hmark
      obtain ⟨id, -, rfl⟩ := List.mem_map.mp hmark
      rfl
    have hmem : ∃ mark ∈ resp.marks, mark.1 = record.id := by
      rw [PushResponse.exists_mark_iff, hdone.reported.mem_iff]
      exact List.mem_map_of_mem (f := Revision.id) (List.mem_map_of_mem hrecord)
    have hstatus := hmarks _ (foldl_marks_mem hmem record.syncStatus)
    dsimp only at hstatus
    rw [hdone.stores]
    refine mem_marked.mpr ⟨record, (ClientDb.mem_pending.mp hrecord).1, ?_⟩
    rw [hstatus]

/-- **When a push accepts the whole queue**: each pending parent has the smaller id, as
text, and the values can be stored under the ids as new rows. -/
theorem Offline.queueAccepted_iff {repo : Repository} (hoff : Offline repo db) (hc : ConnInv c)
    (hstands : StandsOn c.tables db) :
    QueueAccepted repo.clientId db c ↔ db.pending = [] ∨ Pushable c db := by
  have hown := hoff.pending
  rcases run_pushPending (httpServer repo.clientId) db c with
    ⟨hemp, hrun⟩ | ⟨hne, hpush⟩
  · exact iff_of_true (hc.queueAccepted hrun) (.inl hemp)
  rw [or_iff_right hne]
  -- the request registers the client before it is served
  obtain ⟨clients, hreg, hserve⟩ := run_authenticated repo.clientId
    (pushRevisions repo.clientId (db.pending.map (·.revision))) c
  have hrevisions : db.pending.map (·.revision) ≠ [] := by simpa using hne
  have hiff := (hc.withClients clients).rejects_nothing_iff hreg hrevisions
  rw [← writable_pending_iff hown hstands hreg]
  refine Iff.trans ?_ hiff
  generalize hy : (pushRevisions repo.clientId (db.pending.map (·.revision))).run Stmt.eval
    (c.withClients clients) = y at hserve ⊢
  have hchanges : (httpServer repo.clientId).changes ⟨db.pending.map (·.revision)⟩ c =
      (.ok (respond y.1), y.2) := by
    simp only [httpServer, hserve]
  rcases hpush _ _ hchanges with ⟨hnone, e, hrun⟩ | ⟨resp, hresp, hrun⟩
  · -- the push has failed, so nothing is accepted
    rw [parsed_respond] at hnone
    refine iff_of_false ?_ ?_
    · rintro ⟨db', c', hrun', -⟩
      rw [hrun] at hrun'
      cases hrun'
    · rintro ⟨resp, c', rfl, -⟩
      cases hnone
  · rw [parsed_respond] at hresp
    obtain ⟨r, c'⟩ := y
    obtain ⟨e⟩ | ⟨resp'⟩ := r
    · cases hresp
    obtain rfl : resp' = resp := Option.some.inj hresp
    constructor
    · rintro ⟨db', c'', hrun', -⟩
      rw [hrun] at hrun'
      simp only [Prod.mk.injEq, Except.ok.injEq] at hrun'
      exact ⟨resp', c', rfl, hrun'.1.2⟩
    · rintro ⟨resp'', c'', heq, hrej⟩
      obtain ⟨rfl, rfl⟩ : resp' = resp'' ∧ c' = c'' := by simpa using heq
      rw [hrej] at hrun
      exact hc.queueAccepted hrun

end Push

/-! ### Two revisions of one object

An application saves a value and updates it before it is online again. -/

/-- The repository of the client 7. -/
def exampleRepository : Repository := ⟨⟨⟨7⟩⟩, ⟨⟨1⟩⟩⟩

/-- The state after a call of this repository. -/
def afterCall (call : Call) (draw : Draw) (s : ClientDb × Conn) : ClientDb × Conn :=
  ((call.program exampleRepository draw).run (answer (httpServer exampleRepository.clientId)) s).2

/-- The stores after the two calls, which draw the ids `first` and `second`. -/
def editedOffline (first second : RevisionId) : ClientDb :=
  (afterCall (.update ⟨⟨10⟩⟩ first (.ok .null)) ⟨⟨⟨11⟩⟩, second, 0⟩
    (afterCall (.save "trip" (.ok .null)) ⟨⟨⟨10⟩⟩, first, 0⟩
      (.opened ⟨⟨7⟩⟩ ⟨⟨1⟩⟩, ⟨{}, 1, none⟩))).1

theorem Offline.afterCall {s : ClientDb × Conn} (h : Offline exampleRepository s.1) (call : Call)
    (draw : Draw) (id : RevisionId) (hnodup : call.parents.Nodup)
    (hok : ((call.program exampleRepository draw).run
      (answer (httpServer exampleRepository.clientId)) s).1 = .ok id) :
    Offline exampleRepository (afterCall call draw s).1 :=
  .call (c := s.2) h hnodup (Prod.ext hok rfl)

theorem offline_edited : Offline exampleRepository (editedOffline ⟨⟨1⟩⟩ ⟨⟨2⟩⟩) ∧
    Offline exampleRepository (editedOffline ⟨⟨2⟩⟩ ⟨⟨1⟩⟩) := by
  have hopened : Offline exampleRepository (.opened ⟨⟨7⟩⟩ ⟨⟨1⟩⟩) := .drained rfl
  constructor
  · have hsaved := Offline.afterCall (s := (.opened ⟨⟨7⟩⟩ ⟨⟨1⟩⟩, ⟨{}, 1, none⟩)) hopened
      (.save "trip" (.ok .null)) ⟨⟨⟨10⟩⟩, ⟨⟨1⟩⟩, 0⟩ ⟨⟨1⟩⟩ (by decide) rfl
    exact hsaved.afterCall _ _ ⟨⟨2⟩⟩ (by decide) (by decide +kernel)
  · have hsaved := Offline.afterCall (s := (.opened ⟨⟨7⟩⟩ ⟨⟨1⟩⟩, ⟨{}, 1, none⟩)) hopened
      (.save "trip" (.ok .null)) ⟨⟨⟨10⟩⟩, ⟨⟨2⟩⟩, 0⟩ ⟨⟨2⟩⟩ (by decide) rfl
    exact hsaved.afterCall _ _ ⟨⟨1⟩⟩ (by decide) (by decide +kernel)

theorem Offline.queueAccepted_parent_first :
    ((editedOffline ⟨⟨1⟩⟩ ⟨⟨2⟩⟩).pending.map (·.id)) = [⟨⟨1⟩⟩, ⟨⟨2⟩⟩] ∧
    QueueAccepted ⟨⟨7⟩⟩ (editedOffline ⟨⟨1⟩⟩ ⟨⟨2⟩⟩) ⟨{}, 1, none⟩ := by
  refine ⟨by decide +kernel, (Offline.queueAccepted_iff offline_edited.1 .empty ?_).mpr (.inr ?_)⟩
  · decide +kernel
  · exact ⟨by decide +kernel, by decide +kernel, by decide +kernel, by decide +kernel⟩

/-- An update whose id is drawn below that of its parent is sent first, and rejected. -/
theorem Offline.child_rejected : ∃ db c, Offline exampleRepository db ∧ ConnInv c ∧
    StandsOn c.tables db ∧ (∀ record ∈ db.pending, ¬ c.tables.Stored record.id) ∧
    (∀ record ∈ db.pending, record.revision.row.storable = true) ∧ c.nextval ≤ i64Max ∧
    ¬ QueueAccepted exampleRepository.clientId db c := by
  refine ⟨editedOffline ⟨⟨2⟩⟩ ⟨⟨1⟩⟩, ⟨{}, 1, none⟩, offline_edited.2, .empty, ?_, ?_, ?_, ?_, ?_⟩
  · decide +kernel
  · decide +kernel
  · decide +kernel
  · decide +kernel
  intro ⟨db', c', hrun, _⟩
  have hone : (pushPending.run (answer (httpServer exampleRepository.clientId))
      (editedOffline ⟨⟨2⟩⟩ ⟨⟨1⟩⟩, ⟨{}, 1, none⟩)).1 = .ok (1, [⟨⟨⟨1⟩⟩, .unknownParent⟩]) := by
    decide +kernel
  have hboth := hone.symm.trans (congrArg Prod.fst hrun)
  exact List.cons_ne_nil _ _ (Prod.mk.inj (Except.ok.inj hboth)).2

end Rustend
