import Rustend.Client.Restart

/-!
# Local writes

A call puts its revision and then replaces the heads of the object, each in a
transaction of its own.  The server makes the same two changes in one transaction, and
it retires the declared parents only.

## Main definitions

* `MovesHeads` — the heads move from one set to another as a new revision moves them.
* `heldBack` — the stores of a call whose second transaction did not happen.

## Main results

* `run_updateHeads` — what `update_heads` does to the head set.
* `Call.movesHeads_iff` — **when a call moves the heads as the server does.**
* `Call.runFailing_cases` — a call in which a transaction fails.
* `Call.intact_iff` — **when a failed call leaves the stores as they were.**
-/

namespace Rustend

open Interleave

/-! ### The heads on the server -/

section UpdateHeads

variable {t : Tables} {w : Writes} {o : ObjectId} {parents : List RevisionId}

/-- Deleting heads takes exactly these out of what the transaction sees. -/
theorem mem_view_deleteHeads {x : HeadRow} :
    x ∈ (t.view (t.deleteHeads o parents w)).objectHeads ↔
      x ∈ (t.view w).objectHeads ∧ ¬(x.objectId = o ∧ x.revisionId ∈ parents) := by
  simp only [Tables.view, Tables.deleteHeads, List.mem_append, List.mem_filter, decide_eq_true_eq]
  tauto

/-- Inserting a head of a revision that is there. -/
theorem run_insertHead {c : Conn} (htx : c.tx = some w) {r : RevisionId}
    (hstored : (c.tables.view w).Stored r) : ∃ w',
    (Program.perform (S := sql) (.insertHead ⟨o, r⟩) : Sql Unit).run Stmt.eval c =
        (.ok (), { c with tx := some w' }) ∧
      ∀ x, x ∈ (c.tables.view w').objectHeads ↔ x ∈ (c.tables.view w).objectHeads ∨ x = ⟨o, r⟩ := by
  have hknown : c.tables.Stored r ∨ ∃ row ∈ w.revisions, row.id = r := by
    obtain ⟨row, hrow, hid⟩ := hstored
    rcases List.mem_append.mp hrow with hrow | hrow
    · exact .inl ⟨row, hrow, hid⟩
    · exact .inr ⟨row, hrow, hid⟩
  obtain ⟨w', hinsert⟩ : ∃ w', c.tables.insertHead ⟨o, r⟩ w = .ok w' := Tables.insertHead_eq_ok
      hknown
  refine ⟨w', ?_, fun x => ?_⟩
  · rw [Program.run_perform, Stmt.eval, Conn.write, htx]
    dsimp only
    rw [hinsert]
  · rcases Tables.insertHead_ok hinsert with ⟨hmem, rfl⟩ | rfl
    · constructor
      · exact .inl
      · intro hx
        rcases hx with hx | rfl
        · exact hx
        · exact hmem
    · simp only [Tables.view, List.mem_append, List.mem_singleton]
      exact or_assoc.symm

/-- **What `update_heads` does**: the parents are retired, and the revision is a head. -/
theorem run_updateHeads {c : Conn} (htx : c.tx = some w) {r : RevisionId}
    (hstored : (c.tables.view w).Stored r) : ∃ w',
    (updateHeads o parents r).run Stmt.eval c = (.ok (), { c with tx := some w' }) ∧
      (c.tables.view w').headsOf o = ((c.tables.view w).headsOf o \ {p | p ∈ parents}) ∪ {r} := by
  have hset : ∀ {t : Tables}, (∀ x, x ∈ t.objectHeads ↔ (x ∈ (c.tables.view w).objectHeads ∧
      ¬(x.objectId = o ∧ x.revisionId ∈ parents)) ∨ x = ⟨o, r⟩) →
      t.headsOf o = ((c.tables.view w).headsOf o \ {p | p ∈ parents}) ∪ {r} := by
    intro t h
    ext x
    rw [Tables.mem_headsOf, h, HeadRow.mk.injEq]
    simp only [Set.mem_union, Set.mem_sdiff, Set.mem_ofPred_eq, Set.mem_singleton_iff, true_and,
      Tables.mem_headsOf]
  cases parents with
  | nil =>
    -- without parents nothing is deleted
    obtain ⟨w', hrun, hheads⟩ := run_insertHead (o := o) htx hstored
    refine ⟨w', hrun, hset fun x => (hheads x).trans ?_⟩
    simp
  | cons p ps =>
    have hdelete : (Program.perform (S := sql) (.deleteHeads o (p :: ps)) : Sql Unit).run
        Stmt.eval c = (.ok (), { c with tx := some (c.tables.deleteHeads o (p :: ps) w) }) := by
      rw [Program.run_perform, Stmt.eval, Conn.write, htx]
    obtain ⟨w', hrun, hheads⟩ := run_insertHead (o := o)
      (c := { c with tx := some (c.tables.deleteHeads o (p :: ps) w) }) rfl hstored
    refine ⟨w', (Program.run_bind_ok _ _ hdelete).trans hrun, hset fun x => (hheads x).trans ?_⟩
    exact or_congr_left mem_view_deleteHeads

end UpdateHeads

/-! ### The heads on the client -/

/-- The heads move from `before` to `after`: the parents of the new revision `r` are
retired, the others stay, and `r` is a head. -/
def MovesHeads (before : Set RevisionId) (parents : List RevisionId) (r : RevisionId)
    (after : Set RevisionId) : Prop := after = (before \ {p | p ∈ parents}) ∪ {r}

section Heads

variable {σ : Type} {net : Net σ} {db db' : ClientDb} {s s' : σ} {repo : Repository} {draw : Draw}
  {call : Call} {id : RevisionId}

/-- The new revision takes the place of all heads, so the others must be its parents. -/
theorem movesHeads_singleton {before : Set RevisionId} {parents : List RevisionId}
    {r : RevisionId} :
    MovesHeads before parents r {r} ↔ ∀ l ∈ before, l ∈ parents ∨ l = r := by
  unfold MovesHeads
  constructor
  · intro h l hl
    by_cases hp : l ∈ parents
    · exact .inl hp
    · have hafter : l ∈ ({r} : Set RevisionId) := by
        rw [h]
        exact .inl ⟨hl, hp⟩
      exact .inr hafter
  · intro h
    ext l
    rw [Set.mem_singleton_iff]
    constructor
    · rintro rfl
      exact .inr rfl
    · intro hl
      rcases hl with ⟨hbefore, hnot⟩ | hl
      · exact (h l hbefore).resolve_left hnot
      · exact hl

/-- **When a call moves the local heads as the server will move its own**: it has to name
every head of the object, or else the heads that it does not name are lost.  The server's
`update_heads` keeps those, on the same head set. -/
theorem Call.movesHeads_iff
    (h : (call.program repo draw).run (answer net) (db, s) = (.ok id, (db', s'))) :
    (∃ rev, rev.id = id ∧ rev.objectId = call.objectId draw ∧ rev.parents = call.parents ∧
      .fromRevision rev .pending ∈ db'.revisions) ∧
    (MovesHeads (db.headsOf (call.objectId draw)) call.parents id
        (db'.headsOf (call.objectId draw)) ↔
      ∀ l ∈ db.headsOf (call.objectId draw), l ∈ call.parents ∨ l = id) ∧
    (∀ o, o ≠ call.objectId draw → db'.headsOf o = db.headsOf o) ∧
    ∀ (c : Conn) (w : Writes), c.tx = some w → (c.tables.view w).Stored id →
      (c.tables.view w).headsOf (call.objectId draw) = db.headsOf (call.objectId draw) →
      ∃ w', (updateHeads (call.objectId draw) call.parents id).run Stmt.eval c =
          (.ok (), { c with tx := some w' }) ∧
        MovesHeads (db.headsOf (call.objectId draw)) call.parents id
          ((c.tables.view w').headsOf (call.objectId draw)) := by
  obtain ⟨rev, hcreates, rfl, rfl, rfl⟩ := Call.run_ok h
  refine ⟨⟨rev, rfl, hcreates.objectId, hcreates.parents, ?_⟩, ?_, ?_, ?_⟩
  · exact mem_revisions_written.mpr (.inl rfl)
  · rw [headsOf_written, if_pos hcreates.objectId.symm]
    exact movesHeads_singleton
  · intro o ho
    rw [headsOf_written, if_neg (by rwa [hcreates.objectId])]
  · intro c w htx hstored hheads
    obtain ⟨w', hrun, hafter⟩ := run_updateHeads htx hstored
    rw [hheads] at hafter
    exact ⟨w', hrun, hafter⟩

/-- An edit names the only head, so it always moves the heads as the server does. -/
theorem Call.movesHeads_edit {p : RevisionId} (hp : call.parents = [p])
    (h : (call.program repo draw).run (answer net) (db, s) = (.ok id, (db', s'))) :
    MovesHeads (db.headsOf (call.objectId draw)) call.parents id
      (db'.headsOf (call.objectId draw)) := by
  obtain ⟨rev, hcreates, rfl, rfl, rfl⟩ := Call.run_ok h
  rw [headsOf_written, if_pos hcreates.objectId.symm, movesHeads_singleton]
  intro l hl
  rw [← hcreates.objectId, hcreates.single p hp] at hl
  rw [hp, Set.mem_singleton_iff.mp hl]
  exact .inl (List.mem_singleton_self p)

/-- The heads after a pull of three concurrent revisions, two of which are resolved. -/
def threeHeads : ClientDb :=
  (ClientDb.opened ⟨⟨7⟩⟩ ⟨⟨1⟩⟩).applied ⟨⟨⟨10⟩⟩, .conflict, [Run.raceRevision 1 .root,
    Run.raceRevision 2 .root, Run.raceRevision 3 .root]⟩

/-- What the client 7 gets when it resolves these heads of object 10. -/
def resolving (parents : List RevisionId) : Except ClientError RevisionId × (ClientDb × Unit) :=
  ((Call.resolveConflict ⟨⟨10⟩⟩ parents .deleted).program ⟨⟨⟨7⟩⟩, ⟨⟨1⟩⟩⟩ ⟨⟨⟨11⟩⟩, ⟨⟨4⟩⟩, 0⟩).run
    (answer (sameAnswer ⟨⟨0⟩, []⟩)) (threeHeads, ())

theorem Call.movesHeads_all : MovesHeads (threeHeads.headsOf ⟨⟨10⟩⟩) [⟨⟨1⟩⟩, ⟨⟨3⟩⟩, ⟨⟨2⟩⟩] ⟨⟨4⟩⟩
    ((resolving [⟨⟨1⟩⟩, ⟨⟨3⟩⟩, ⟨⟨2⟩⟩]).2.1.headsOf ⟨⟨10⟩⟩) := by
  have hok : (resolving [⟨⟨1⟩⟩, ⟨⟨3⟩⟩, ⟨⟨2⟩⟩]).1 = .ok ⟨⟨4⟩⟩ := by decide +kernel
  have hheads : ∀ x ∈ threeHeads.headList, x.2 ∈ [(⟨⟨1⟩⟩ : RevisionId), ⟨⟨3⟩⟩, ⟨⟨2⟩⟩] := by
    decide +kernel
  have hpair : ∀ x : Except ClientError RevisionId × (ClientDb × Unit), x.1 = .ok ⟨⟨4⟩⟩ →
      x = (.ok ⟨⟨4⟩⟩, (x.2.1, ())) := by
    rintro ⟨_, _, _⟩ rfl
    rfl
  apply (Call.movesHeads_iff (hpair (resolving _) hok)).2.1.mpr
  intro l hl
  exact .inl (hheads _ (ClientDb.mem_headList.mpr hl))

/-- The head that is not named is lost. -/
theorem Call.head_lost : (resolving [⟨⟨1⟩⟩, ⟨⟨2⟩⟩]).1 = .ok ⟨⟨4⟩⟩ ∧
    ¬ MovesHeads (threeHeads.headsOf ⟨⟨10⟩⟩) [⟨⟨1⟩⟩, ⟨⟨2⟩⟩] ⟨⟨4⟩⟩
      ((resolving [⟨⟨1⟩⟩, ⟨⟨2⟩⟩]).2.1.headsOf ⟨⟨10⟩⟩) := by
  refine ⟨by decide +kernel, fun h => ?_⟩
  have hbefore : (⟨⟨10⟩⟩, ⟨⟨3⟩⟩) ∈ threeHeads.headList := by decide +kernel
  have hafter : (⟨⟨10⟩⟩, ⟨⟨3⟩⟩) ∉ (resolving [⟨⟨1⟩⟩, ⟨⟨2⟩⟩]).2.1.headList := by decide +kernel
  apply hafter
  rw [ClientDb.mem_headList] at hbefore ⊢
  rw [h]
  exact .inl ⟨hbefore, by decide⟩

end Heads

/-! ### A transaction that fails -/

/-- The stores of a call that has put its revision, and not changed the heads. -/
def ClientDb.heldBack (db : ClientDb) (rev : Revision) : ClientDb :=
  ((IdbOp.putRevision (.fromRevision rev .pending)).eval db).2

section Failing

variable {σ : Type} {net : Net σ} {db db' : ClientDb} {s s' : σ} {repo : Repository} {draw : Draw}
  {call : Call}

/-- What a program that writes one revision leaves when its request number `n` fails: nothing, or
the revision and not its head, or all of it, when that request was not issued. -/
def FailingWrite (net : Net σ) (db : ClientDb) (s : σ) (e : ClientError) (n : ℕ)
    (p : Browser RevisionId) : Prop :=
  ((∃ err, p.runFailing (answer net) e n (db, s) = (.error err, (db, s))) ∧
      ∀ o heads, p.requestAt (answer net) n (db, s) ≠ some (.idb (.replaceHeads o heads))) ∨
    ∃ rev, (p.runFailing (answer net) e n (db, s) = (.error e, (db.heldBack rev, s)) ∧
        p.requestAt (answer net) n (db, s) = some (.idb (.replaceHeads rev.objectId [rev]))) ∨
      p.runFailing (answer net) e n (db, s) = (.ok rev.id, (db.written rev, s))

theorem failingWrite_fail (e e' : ClientError) (n : ℕ) : FailingWrite net db s e n (.fail e') := by
  refine .inl ⟨⟨e', Program.runFailing_done e n _ _⟩, fun o heads heq => ?_⟩
  cases n <;> cases heq

theorem failingWrite_writeRevision (rev : Revision) (e : ClientError) (n : ℕ) :
    FailingWrite net db s e n (writeRevision rev) := by
  rcases n with _ | _ | n
  · refine .inl ⟨⟨e, rfl⟩, fun o heads heq => ?_⟩
    cases heq
  · exact .inr ⟨rev, .inl ⟨rfl, rfl⟩⟩
  · exact .inr ⟨rev, .inr (Program.runFailing_done e n _ _)⟩

/-- **A call in which a transaction fails**: it has changed nothing, or it has put its
revision and failed to replace the heads, or the request that was to fail came too late. -/
theorem Call.runFailing_cases (call : Call) (net : Net σ) (db : ClientDb) (s : σ)
    (repo : Repository) (draw : Draw) (e : ClientError) (n : ℕ) :
    FailingWrite net db s e n (call.program repo draw) := by
  rcases call.shape repo draw with ⟨e', he⟩ | ⟨rev, -, hw⟩ | ⟨f, hf, hall⟩
  · rw [he]
    exact failingWrite_fail e e' n
  · rw [hw]
    exact failingWrite_writeRevision rev e n
  · rw [hf]
    cases n with
    | zero =>
      refine .inl ⟨⟨e, rfl⟩, fun o heads heq => ?_⟩
      cases heq
    | succ n =>
      -- the heads have been read
      show FailingWrite net db s e n (f (getHeadsInStore db.objectHeads (call.objectId draw)))
      rcases hall (getHeadsInStore db.objectHeads (call.objectId draw)) with ⟨e', he⟩ | ⟨rev, -, hw⟩
      · rw [he]
        exact failingWrite_fail e e' n
      · rw [hw]
        exact failingWrite_writeRevision rev e n

/-- A call that has failed has not moved the heads. -/
theorem Call.runFailing_error_heads {e err : ClientError} {n : ℕ} {x x' : ClientDb × σ}
    (h : (call.program repo draw).runFailing (answer net) e n x = (.error err, x')) :
    x'.1.objectHeads = x.1.objectHeads ∧ x'.2 = x.2 := by
  obtain ⟨db, s⟩ := x
  rcases call.runFailing_cases net db s repo draw e n with ⟨⟨_, hrun⟩, -⟩ | ⟨rev, ⟨hrun, -⟩ | hrun⟩
  · rw [h] at hrun
    cases hrun
    exact ⟨rfl, rfl⟩
  · rw [h] at hrun
    cases hrun
    exact ⟨rfl, rfl⟩
  · rw [h] at hrun
    cases hrun

/-- Putting a record changes nothing exactly when that very record is there. -/
theorem heldBack_revisions_iff {rev : Revision} : (db.heldBack rev).revisions = db.revisions ↔
    .fromRevision rev .pending ∈ db.revisions := by
  constructor
  · intro h
    rw [← h]
    exact KeyedStore.mem_put.mpr (.inl rfl)
  · intro h
    apply KeyedStore.ext_mem
    intro record
    refine KeyedStore.mem_put.trans ?_
    constructor
    · rintro (rfl | ⟨hmem, -⟩)
      · exact h
      · exact hmem
    · intro hmem
      by_cases hkey : record.id.key = rev.id.key
      · exact .inl (KeyedStore.key_inj hmem h hkey)
      · exact .inr ⟨hmem, hkey⟩

/-- **When a failed call leaves the stores as they were**: the transaction that has failed
is not the `replace_heads` of the call, or the record that the call had put before was
there already. -/
theorem Call.intact_iff {e err : ClientError} {n : ℕ}
    (h : (call.program repo draw).runFailing (answer net) e n (db, s) = (.error err, (db', s'))) :
    (db'.revisions = db.revisions ∧ db'.objectHeads = db.objectHeads) ↔
      ∀ o rev, (call.program repo draw).requestAt (answer net) n (db, s) =
        some (.idb (.replaceHeads o [rev])) → .fromRevision rev .pending ∈ db.revisions := by
  rcases call.runFailing_cases net db s repo draw e n
    with ⟨⟨_, hrun⟩, hreq⟩ | ⟨rev, ⟨hrun, hreq⟩ | hok⟩
  · rw [h] at hrun
    obtain ⟨-, rfl, -⟩ : _ ∧ _ ∧ _ := by simpa only [Prod.mk.injEq] using hrun
    exact iff_of_true ⟨rfl, rfl⟩ fun o rev hr => absurd hr (hreq o [rev])
  · rw [h] at hrun
    obtain ⟨-, rfl, -⟩ : _ ∧ _ ∧ _ := by simpa only [Prod.mk.injEq] using hrun
    constructor
    · intro ⟨hrevs, _⟩ o rev' hr
      rw [hreq] at hr
      obtain ⟨-, heads⟩ : _ ∧ _ := by simpa using hr
      rw [← heads]
      exact heldBack_revisions_iff.mp hrevs
    · intro hput
      exact ⟨heldBack_revisions_iff.mpr (hput _ rev hreq), rfl⟩
  · rw [h] at hok
    cases hok

/-- What client 7 is left with when request `n` of saving a revision fails. -/
def failingSave (n : ℕ) : Except ClientError RevisionId × (ClientDb × Unit) :=
  ((Call.save "trip" (.ok .null)).program ⟨⟨⟨7⟩⟩, ⟨⟨1⟩⟩⟩ ⟨⟨⟨10⟩⟩, ⟨⟨1⟩⟩, 0⟩).runFailing
    (answer (sameAnswer ⟨⟨0⟩, []⟩)) (.indexedDb "QuotaExceededError") n
    (.opened ⟨⟨7⟩⟩ ⟨⟨1⟩⟩, ())

/-- The first transaction fails, and nothing is left behind. -/
theorem Call.intact_first : (failingSave 0).1 = .error (.indexedDb "QuotaExceededError") ∧
    (failingSave 0).2.1.revisions = (ClientDb.opened ⟨⟨7⟩⟩ ⟨⟨1⟩⟩).revisions ∧
    (failingSave 0).2.1.objectHeads = (ClientDb.opened ⟨⟨7⟩⟩ ⟨⟨1⟩⟩).objectHeads := by
  have hrun : failingSave 0 = (.error (.indexedDb "QuotaExceededError"),
      (.opened ⟨⟨7⟩⟩ ⟨⟨1⟩⟩, ())) := rfl
  refine ⟨rfl, (Call.intact_iff hrun).mpr ?_⟩
  intro o rev h
  cases h

/-- The second fails: a revision is pending that is a head of nothing. -/
theorem Call.orphan_left : (failingSave 1).1 = .error (.indexedDb "QuotaExceededError") ∧
    (failingSave 1).2.1.pending.map (·.id) = [⟨⟨1⟩⟩] ∧ (failingSave 1).2.1.headList = [] ∧
    (failingSave 1).2.1.revisions ≠ (ClientDb.opened ⟨⟨7⟩⟩ ⟨⟨1⟩⟩).revisions := by
  refine ⟨rfl, by decide +kernel, by decide +kernel, fun h => ?_⟩
  have hlen : (failingSave 1).2.1.revisions.records.length = 1 := by decide +kernel
  rw [h] at hlen
  cases hlen

end Failing

end Rustend
