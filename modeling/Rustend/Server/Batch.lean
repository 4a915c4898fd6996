import Rustend.Server.Alone

/-!
# What becomes of a batch

A push served alone accepts the entries that the rule accepts, and writes exactly these, or
it fails.  The rows to write are chosen in a second pass, by their ids, and the checks do
not look at what the columns can hold nor at the ids accepted earlier; so the push fails
just when the chosen entries cannot all be inserted.

## Main definitions

* `selected`, `writeBatch` — the second pass and the transaction it feeds.
* `chosen` — the entries that carry an accepted id.

## Main results

* `run_pushRevisions` — a push is its checks, as a function, and one transaction.
* `ConnInv.pushRevisions_sieve` — **what a push accepts, refuses and writes.**
* `ConnInv.pushRevisions_ok_iff` — **when a push is answered entry by entry.**
-/

namespace Rustend

open Interleave

/-! ### The call in two parts -/

/-- The entries that `push_revisions` writes. -/
def selected (revisions : List Revision) (st : PushState) : List Revision :=
  revisions.filter fun r => r.id ∈ st.acceptedIds

/-- The transaction of a push. -/
def writeBatch (client : ClientId) (batch : List Revision) (ids : List RevisionId) :
    Sql TransactionId :=
  inTransaction do
    writeRevisions batch
    createTransaction client ids

/-- **A push is its checks, as a function, and one transaction.** -/
theorem run_pushRevisions (client : ClientId) (revisions : List Revision) (c : Conn)
    {st : PushState}
    (hst : revisions.foldl (PushState.check c.tables client) {} = st) :
    (pushRevisions client revisions).run Stmt.eval c =
      if selected revisions st = [] then (.ok ⟨⟨0⟩, st.accepted, st.rejected⟩, c)
      else (writeBatch client (selected revisions st) st.accepted >>= fun n =>
        pure ⟨n, st.accepted, st.rejected⟩).run Stmt.eval c := by
  have hv := run_validate client c revisions {}
  rw [hst] at hv
  rw [pushRevisions, Program.run_bind_ok _ _ hv]
  by_cases hempty : selected revisions st = []
  · rw [if_pos hempty]
    simp only [← selected.eq_def, List.isEmpty_iff.mpr hempty, if_true, Program.run_pure]
  · rw [if_neg hempty]
    simp only [← selected.eq_def, mt List.isEmpty_iff.mp hempty, Bool.false_eq_true,
      if_false, writeBatch]

/-- A transaction that has succeeded, in its three parts. -/
theorem writeBatch_parts {client : ClientId} {batch : List Revision} {ids : List RevisionId}
    {c c' : Conn} {n : TransactionId}
    (h : (writeBatch client batch ids).run Stmt.eval c = (.ok n, c')) :
    ∃ c₁ c₂, (do .perform (S := sql) .begin; writeRevisions batch : Sql Unit).run Stmt.eval c =
        (.ok (), c₁) ∧ (createTransaction client ids).run Stmt.eval c₁ = (.ok n, c₂) ∧
      (Stmt.commit.eval c₂).2 = c' := by
  unfold writeBatch inTransaction at h
  obtain ⟨_, c₁, hbegin, h⟩ := Program.bind_run_ok _ h
  obtain ⟨m, c₂, hbody, h⟩ := Program.bind_run_ok _ h
  obtain ⟨_, c₃, hcommit, h⟩ := Program.bind_run_ok _ h
  cases h
  rcases hw : (writeRevisions batch).run Stmt.eval c₁ with ⟨e | _, c₄⟩
  · -- the clean-up after an error ends with the error
    rw [Program.run_orElse_error _ (Program.run_bind_error _ _ hw)] at hbody
    cases hbody
  rcases hx : (createTransaction client ids).run Stmt.eval c₄ with ⟨x, c₅⟩
  cases x with
  | error e =>
    rw [Program.run_orElse_error _ ((Program.run_bind_ok _ _ hw).trans hx)] at hbody
    cases hbody
  | ok k =>
    rw [Program.run_orElse_ok _ ((Program.run_bind_ok _ _ hw).trans hx)] at hbody
    cases hbody
    refine ⟨c₄, c₂, ?_, hx, congrArg Prod.snd hcommit⟩
    rw [Program.run_bind_ok _ _ hbegin, hw]

section WriteBatch

variable {c c' : Conn} {client : ClientId} {batch : List Revision} {ids : List RevisionId}
  {n : TransactionId}

/-- What is known of the open transaction once the batch is inserted. -/
theorem ConnInv.writeRevisions_open (h : ConnInv c)
    (hrun : (do .perform (S := sql) .begin; writeRevisions batch : Sql Unit).run Stmt.eval c =
      (.ok (), c')) :
    Open True c.tables c.nextval 0 (fun w t => Wrote t w batch ∧ True) (Db.alone c') := by
  have heff : ∀ t : Tables, Eq t t := fun _ => rfl
  have hwrite : Triple (sessionEnv True 0 Eq) (At True c.tables c.nextval 0 none fun _ => True)
      (do .perform (S := sql) .begin; writeRevisions batch)
      (Ends (fun _ => Open True c.tables c.nextval 0 fun w t => Wrote t w batch ∧ True)
        fun _ _ => True) := by
    refine Triple.seq (triple_begin heff (.const _)) (fun _ => ?_) (fun _ _ _ _ _ => trivial)
      fun _ _ _ => trivial
    have hbatch : Triple (sessionEnv True 0 Eq)
        (Open True c.tables c.nextval 0 fun w t => Wrote t w [] ∧ True) (writeRevisions batch)
        (Ends (fun _ => Open True c.tables c.nextval 0 fun w t => Wrote t w batch ∧ True)
          fun _ => Doomed True c.tables c.nextval 0 default batch) :=
      triple_writeRevisions heff fun _ => .const _
    refine hbatch.conseq
      (fun d hd => ⟨{}, hd.mono fun t _ _ _ => ⟨Wrote.empty t, trivial⟩⟩) ?_
    intro r d hd
    cases r with
    | error e => trivial
    | ok a => exact hd
  have hpost := run_of_triple hwrite h.at
  rw [hrun] at hpost
  exact hpost

/-- **A batch that has been inserted repeats no id.** -/
theorem ConnInv.writeBatch_ids (h : ConnInv c)
    (hrun : (writeBatch client batch ids).run Stmt.eval c = (.ok n, c')) :
    (batch.map (·.id)).Nodup := by
  obtain ⟨c₁, c₂, hwrite, -⟩ := writeBatch_parts hrun
  obtain ⟨w, hw⟩ := h.writeRevisions_open hwrite
  exact hw.holds.1.ids

/-- A transaction that has succeeded has drawn one id. -/
theorem ConnInv.writeBatch_nextval (h : ConnInv c)
    (hrun : (writeBatch client batch (batch.map (·.id))).run Stmt.eval c = (.ok n, c')) :
    c'.nextval = c.nextval + 1 := by
  obtain ⟨c₁, c₂, hwrite, hcreate, rfl⟩ := writeBatch_parts hrun
  have hcreated : Triple (sessionEnv True 0 Eq)
      (Open True c.tables c.nextval 0 fun w t => Wrote t w batch ∧ True)
      (createTransaction client (batch.map (·.id)))
      (Ends (fun a => Open True c.tables (c.nextval + 1) 0 fun w t =>
          (Complete client batch a.val (batch.map (·.id)) w t ∧ True) ∧
            1 ≤ a.val ∧ a.val ≤ i64Max ∧ (True → a.val = c.nextval))
        fun _ => Doomed True c.tables c.nextval 0 client batch) :=
    triple_createTransaction (fun _ => rfl) (fun _ => .const _) fun _ _ => rfl
  have hpost := run_of_triple hcreated (h.writeRevisions_open hwrite)
  rw [hcreate] at hpost
  obtain ⟨w, hw⟩ := hpost
  have hnext : c₂.nextval = c.nextval + 1 := (hw.frame trivial).2
  rw [← hnext, Stmt.eval]
  cases c₂.tx <;> rfl

end WriteBatch

/-! ### What is accepted, refused and written -/

theorem sieve_refused_sublist (t : Tables) (client : ClientId) : ∀ (todo done : List Revision)
    (s : List Revision × List Revision), s.2.Sublist done →
    (todo.foldl (sieveStep t client) s).2.Sublist (done ++ todo)
  | [], done, s, h => by simpa using h
  | rev :: todo, done, s, h => by
    have hrest := sieve_refused_sublist t client todo (done ++ [rev]) (sieveStep t client s rev)
    rw [List.append_assoc] at hrest
    apply hrest
    unfold sieveStep
    split
    · exact h.trans (List.sublist_append_left _ _)
    · exact h.append (.refl _)

theorem accepts_sieve (t : Tables) (client : ClientId) : ∀ (todo : List Revision)
    {s : List Revision × List Revision}, Accepts t client s.1 →
    Accepts t client (todo.foldl (sieveStep t client) s).1
  | [], _, h => h
  | rev :: todo, s, h => by
    apply accepts_sieve t client todo
    unfold sieveStep
    split
    · next ha => exact h.snoc ha.createdBy ha.nodup ha.known
    · exact h

section Push

variable {c : Conn} {client : ClientId} {revisions : List Revision}

/-- What a push answers is what its checks have collected. -/
theorem pushRevisions_collected {st : PushState}
    (hst : revisions.foldl (PushState.check c.tables client) {} = st)
    {resp : PushResponse} {c' : Conn}
    (hrun : (pushRevisions client revisions).run Stmt.eval c = (.ok resp, c')) :
    resp.accepted = st.accepted ∧ resp.rejected = st.rejected ∧
      (selected revisions st = [] ∨ ∃ n, (writeBatch client (selected revisions st) st.accepted).run
        Stmt.eval c = (.ok n, c')) := by
  rw [run_pushRevisions client revisions c hst] at hrun
  by_cases hempty : selected revisions st = []
  · rw [if_pos hempty] at hrun
    cases hrun
    exact ⟨rfl, rfl, .inl hempty⟩
  · rw [if_neg hempty] at hrun
    obtain ⟨n, c₁, hwrite, hrun⟩ := Program.bind_run_ok _ hrun
    cases hrun
    exact ⟨rfl, rfl, .inr ⟨n, hwrite⟩⟩

/-- What a push that has succeeded answered and left, by the rule. -/
structure Sieved (t t' : Tables) (client : ClientId) (n : ℕ) (revisions : List Revision)
    (resp : PushResponse) (acc refused : List Revision) : Prop where
  /-- Every entry is accepted or refused, in the order of the batch. -/
  entries : (acc ++ refused).Perm revisions
  accepted_sublist : acc.Sublist revisions
  refused_sublist : refused.Sublist revisions
  accepted : resp.accepted = acc.map (·.id)
  rejected : resp.rejected.map (·.revisionId) = refused.map (·.id)
  ids : (acc.map (·.id)).Nodup
  /-- Nothing is written under the id of a refused entry. -/
  apart : ∀ a ∈ acc, ∀ b ∈ refused, a.id ≠ b.id
  written : (acc = [] ∧ t' = t ∧ resp.transactionId = ⟨0⟩) ∨
    (ValidBatch t client n acc ∧ Appends t t' client n acc ∧ resp.transactionId = ⟨n⟩)

/-- What a push that has succeeded accepted, refused and wrote. -/
theorem ConnInv.sieved (h : ConnInv c) {resp : PushResponse} {c' : Conn}
    (hrun : (Rustend.pushRevisions client revisions).run Stmt.eval c = (.ok resp, c')) :
    Sieved c.tables c'.tables client c.nextval revisions resp
      (sieve c.tables client revisions).1 (sieve c.tables client revisions).2 := by
  have hpush := h.pushRevisions client revisions
  rw [hrun] at hpush
  obtain ⟨-, -, batch, hsub, hpushed⟩ := hpush
  obtain ⟨hacc, hrej, hwrite⟩ := pushRevisions_collected rfl hrun
  -- no id has been accepted twice
  have hids : (batch.map (·.id)).Nodup := by
    rcases hpushed.commits with ⟨rfl, -⟩ | ⟨hv, -⟩
    · exact List.nodup_nil
    · exact hv.ids
  have hagrees := (check_sieve h.tables client revisions (Agrees.nil c.tables)).resolve_right
    fun hdup => hdup.1 (hacc ▸ hpushed.accepted ▸ hids)
  rw [← sieve] at hagrees
  generalize revisions.foldl (PushState.check c.tables client) {} = st at hacc hrej hwrite hagrees
  have hperm : ((sieve c.tables client revisions).1 ++
      (sieve c.tables client revisions).2).Perm revisions :=
    sieve_perm c.tables client revisions ([], [])
  have hsub₁ : (sieve c.tables client revisions).1.Sublist revisions :=
    sieve_sublist c.tables client revisions [] ([], []) (List.Sublist.refl _)
  have hsub₂ : (sieve c.tables client revisions).2.Sublist revisions :=
    sieve_refused_sublist c.tables client revisions [] ([], []) (List.Sublist.refl _)
  generalize sieve c.tables client revisions = s at hagrees hperm hsub₁ hsub₂ ⊢
  -- the second pass has chosen the accepted entries and no others
  have hp : ∀ r : Revision, decide (r.id ∈ st.acceptedIds) = true ↔ ∃ e ∈ s.1, e.id = r.id := by
    intro r
    rw [decide_eq_true_iff, hagrees.acceptedIds]
  have hn : ((selected revisions st).map (·.id)).Nodup := by
    rcases hwrite with hempty | ⟨n, hwrite⟩
    · rw [hempty]
      exact List.nodup_nil
    · exact h.writeBatch_ids hwrite
  have hselected : selected revisions st = s.1 := filter_ids_eq hsub₁ hp hn
  have hbatch : batch = s.1 := by
    have hall : batch.filter (fun r => decide (r.id ∈ st.acceptedIds)) = batch := by
      apply List.filter_eq_self.mpr
      intro r hr
      have hr : r.id ∈ st.accepted := hacc ▸ hpushed.accepted ▸ List.mem_map_of_mem hr
      rw [hagrees.accepted] at hr
      exact (hp r).mpr (List.mem_map.mp hr)
    have hlen : batch.length = s.1.length := by
      have heq : batch.map (·.id) = s.1.map (·.id) := by
        rw [← hpushed.accepted, hacc, hagrees.accepted]
      simpa using congrArg List.length heq
    have hchosen : batch.Sublist s.1 := hselected ▸ hall ▸ hsub.filter _
    exact hchosen.eq_of_length hlen
  subst hbatch
  refine ⟨hperm, hsub₁, hsub₂, hpushed.accepted, hrej ▸ hagrees.rejected, hids, ?_, ?_⟩
  · intro a ha b hb hab
    have hboth := (hperm.filter fun r => decide (r.id ∈ st.acceptedIds)).map (·.id)
    rw [List.filter_append, List.map_append] at hboth
    have hdisj := (List.nodup_append.mp (hboth.nodup_iff.mpr hn)).2.2
    refine hdisj a.id (List.mem_map_of_mem (List.mem_filter.mpr ⟨ha, ?_⟩)) b.id
      (List.mem_map_of_mem (List.mem_filter.mpr ⟨hb, ?_⟩)) hab
    · exact (hp a).mpr ⟨a, ha, rfl⟩
    · exact (hp b).mpr ⟨a, ha, hab⟩
  · rcases hpushed.commits with ⟨hemp, ht, hid⟩ | ⟨hv, ha, hid⟩
    · exact .inl ⟨hemp, ht, hid⟩
    · exact .inr ⟨hv, ha, hid⟩

/-- **What a push accepts, refuses and writes**: served alone it fails and leaves the tables
as they were, or it accepts what the rule accepts from left to right, and commits just
that as one transaction. -/
theorem ConnInv.pushRevisions_sieve (h : ConnInv c) (client : ClientId)
    (revisions : List Revision) :
    (∀ e c', (Rustend.pushRevisions client revisions).run Stmt.eval c = (.error e, c') →
        c'.tables = c.tables) ∧
    ∀ resp c', (Rustend.pushRevisions client revisions).run Stmt.eval c = (.ok resp, c') →
      Sieved c.tables c'.tables client c.nextval revisions resp
        (sieve c.tables client revisions).1 (sieve c.tables client revisions).2 := by
  constructor
  · intro e c' hrun
    have hpush := h.pushRevisions client revisions
    rw [hrun] at hpush
    exact hpush.2.1
  · intro resp c' hrun
    exact h.sieved hrun

/-- The empty database once client 7 is registered. -/
def registered : Conn := ((upsertClient ⟨⟨7⟩⟩).run Stmt.eval ⟨{}, 1, none⟩).2

theorem registered_inv : ConnInv registered := by
  obtain ⟨clients, hrun, -⟩ := run_upsertClient ⟨⟨7⟩⟩ ⟨{}, 1, none⟩
  rw [registered, hrun]
  exact ConnInv.empty.withClients clients

/-- An entry on an earlier one is accepted, and one on an unknown revision is refused. -/
theorem ConnInv.pushRevisions_sieve_batch : ∃ resp c',
    (Rustend.pushRevisions ⟨⟨7⟩⟩ [Run.raceRevision 1 .root, Run.raceRevision 2 (.update ⟨⟨9⟩⟩),
      Run.raceRevision 3 (.update ⟨⟨1⟩⟩)]).run Stmt.eval registered = (.ok resp, c') ∧
    Sieved registered.tables c'.tables ⟨⟨7⟩⟩ registered.nextval
      [Run.raceRevision 1 .root, Run.raceRevision 2 (.update ⟨⟨9⟩⟩),
        Run.raceRevision 3 (.update ⟨⟨1⟩⟩)]
      resp [Run.raceRevision 1 .root, Run.raceRevision 3 (.update ⟨⟨1⟩⟩)]
      [Run.raceRevision 2 (.update ⟨⟨9⟩⟩)] := by
  have hok : ((Rustend.pushRevisions ⟨⟨7⟩⟩ [Run.raceRevision 1 .root,
      Run.raceRevision 2 (.update ⟨⟨9⟩⟩), Run.raceRevision 3 (.update ⟨⟨1⟩⟩)]).run
      Stmt.eval registered).1.toBool = true := by decide +kernel
  have hsieve : sieve registered.tables ⟨⟨7⟩⟩ [Run.raceRevision 1 .root,
      Run.raceRevision 2 (.update ⟨⟨9⟩⟩), Run.raceRevision 3 (.update ⟨⟨1⟩⟩)] =
      ([Run.raceRevision 1 .root, Run.raceRevision 3 (.update ⟨⟨1⟩⟩)],
        [Run.raceRevision 2 (.update ⟨⟨9⟩⟩)]) := by decide +kernel
  rcases hrun : (Rustend.pushRevisions ⟨⟨7⟩⟩ [Run.raceRevision 1 .root,
    Run.raceRevision 2 (.update ⟨⟨9⟩⟩), Run.raceRevision 3 (.update ⟨⟨1⟩⟩)]).run Stmt.eval
    registered with ⟨e | resp, c'⟩
  · rw [hrun] at hok
    cases hok
  · have hsieved := (registered_inv.pushRevisions_sieve _ _).2 resp c' hrun
    rw [hsieve] at hsieved
    exact ⟨resp, c', hrun, hsieved⟩

/-! ### When the push is answered -/

/-- The entries that carry the id of an accepted one, which are those to be written. -/
def chosen (t : Tables) (client : ClientId) (revisions : List Revision) : List Revision :=
  revisions.filter fun r => r.id ∈ (sieve t client revisions).1.map (·.id)

theorem sieve_sublist_chosen (t : Tables) (client : ClientId) (revisions : List Revision) :
    (sieve t client revisions).1.Sublist (chosen t client revisions) := by
  have hsub := sieve_sublist t client revisions [] ([], []) (List.Sublist.refl _)
  rw [List.nil_append, ← sieve] at hsub
  have hall : (sieve t client revisions).1.filter
      (fun r => r.id ∈ (sieve t client revisions).1.map (·.id)) = (sieve t client revisions).1 :=
    List.filter_eq_self.mpr fun a ha => decide_eq_true (List.mem_map_of_mem ha)
  exact hall ▸ hsub.filter _

/-- What a push chooses is what it accepts, when it succeeds. -/
theorem Sieved.chosen_perm {t t' : Tables} {n : ℕ} {resp : PushResponse}
    (h : Sieved t t' client n revisions resp (sieve t client revisions).1
      (sieve t client revisions).2) :
    (chosen t client revisions).Perm (sieve t client revisions).1 := by
  unfold chosen
  generalize sieve t client revisions = s at h
  have hall : s.1.filter (fun r => r.id ∈ s.1.map (·.id)) = s.1 :=
    List.filter_eq_self.mpr fun a ha => decide_eq_true (List.mem_map_of_mem ha)
  have hnone : s.2.filter (fun r => r.id ∈ s.1.map (·.id)) = [] := by
    refine List.filter_eq_nil_iff.mpr fun b hb hmem => ?_
    obtain ⟨a, ha, hab⟩ := List.mem_map.mp (of_decide_eq_true hmem)
    exact h.apart a ha b hb hab
  have hperm := h.entries.filter fun r => decide (r.id ∈ s.1.map (·.id))
  rw [List.filter_append, hall, hnone, List.append_nil] at hperm
  exact hperm.symm

/-- The transaction of a batch that can be written succeeds. -/
theorem ConnInv.writeBatch_ok (h : ConnInv c) {batch : List Revision} (hne : batch ≠ [])
    (hw : Writable c.tables client c.nextval batch) :
    ∃ n c', (writeBatch client batch (batch.map (·.id))).run Stmt.eval c = (.ok n, c') := by
  obtain ⟨resp, c', hrun, -⟩ := (h.rejects_nothing_iff hw.registered hne).mpr hw
  have hagrees := check_of_accepts h.tables hw.accepts hw.fresh hw.ids
  obtain ⟨-, -, hwrite⟩ := pushRevisions_collected rfl hrun
  generalize batch.foldl (PushState.check c.tables client) {} = st at hagrees hwrite
  have hall : selected batch st = batch := List.filter_eq_self.mpr fun r hr =>
    decide_eq_true ((hagrees.acceptedIds r.id).mpr ⟨r, hr, rfl⟩)
  rw [hall, hagrees.accepted] at hwrite
  obtain ⟨n, hwrite⟩ := hwrite.resolve_left hne
  exact ⟨n, c', hwrite⟩

/-- **A batch that can be written is committed as it is**, under one new transaction id. -/
theorem ConnInv.pushRevisions_writable (h : ConnInv c) {batch : List Revision} (hne : batch ≠ [])
    (hw : Writable c.tables client c.nextval batch) : ∃ resp c',
    (Rustend.pushRevisions client batch).run Stmt.eval c = (.ok resp, c') ∧
      resp.accepted = batch.map (·.id) ∧ ConnInv c' ∧
      Appends c.tables c'.tables client c.nextval batch ∧ c'.nextval = c.nextval + 1 := by
  obtain ⟨n, c', hwrite⟩ := h.writeBatch_ok hne hw
  have hagrees := check_of_accepts h.tables hw.accepts hw.fresh hw.ids
  have hpush := h.pushRevisions client batch
  have hrun := run_pushRevisions client batch c rfl
  generalize batch.foldl (PushState.check c.tables client) {} = st at hagrees hrun
  have hall : selected batch st = batch := List.filter_eq_self.mpr fun r hr =>
    decide_eq_true ((hagrees.acceptedIds r.id).mpr ⟨r, hr, rfl⟩)
  rw [hall, if_neg hne, hagrees.accepted, Program.run_bind_ok _ _ hwrite] at hrun
  have hs := h.sieved hrun
  rw [sieve_of_accepts hw.accepts hw.fresh] at hs
  rw [hrun] at hpush
  obtain ⟨-, happ, -⟩ := hs.written.resolve_left fun hnil => hne hnil.1
  exact ⟨_, c', hrun, rfl, hpush.1, happ, h.writeBatch_nextval hwrite⟩

/-- What a push has chosen to write, when it succeeds, can be written. -/
theorem ConnInv.chosen_writable (h : ConnInv c) {resp : PushResponse} {c' : Conn}
    (hrun : (Rustend.pushRevisions client revisions).run Stmt.eval c = (.ok resp, c')) :
    chosen c.tables client revisions = [] ∨
      ((chosen c.tables client revisions).map (·.id)).Nodup ∧
        (∀ rev ∈ chosen c.tables client revisions, rev.row.storable = true) ∧
        c.nextval ≤ i64Max := by
  have hsieved := h.sieved hrun
  have hperm := hsieved.chosen_perm
  rcases hsieved.written with ⟨hnil, -⟩ | ⟨hv, -⟩
  · rw [hnil] at hperm
    exact .inl hperm.eq_nil
  · right
    refine ⟨(hperm.map _).nodup_iff.mpr hsieved.ids, ?_, hv.txn_range.2⟩
    intro rev hrev
    exact hv.storable rev (hperm.subset hrev)

/-- A push whose chosen entries have distinct ids and values that their columns can hold is
answered. -/
theorem ConnInv.pushRevisions_answered (h : ConnInv c) (hreg : client ∈ c.tables.clients)
    (hcond : chosen c.tables client revisions = [] ∨
      ((chosen c.tables client revisions).map (·.id)).Nodup ∧
        (∀ rev ∈ chosen c.tables client revisions, rev.row.storable = true) ∧
        c.nextval ≤ i64Max) :
    ∃ resp c', (Rustend.pushRevisions client revisions).run Stmt.eval c = (.ok resp, c') := by
  have hsub := sieve_sublist_chosen c.tables client revisions
  -- the ids of what is chosen are distinct in both cases
  have hids : ((chosen c.tables client revisions).map (·.id)).Nodup := by
    rcases hcond with hnil | ⟨hids, -⟩
    · rw [hnil]
      exact List.nodup_nil
    · exact hids
  have hagrees := (check_sieve h.tables client revisions
    (Agrees.nil c.tables)).resolve_right fun hdup => hdup.2 (hids.sublist (hsub.map _))
  rw [← sieve] at hagrees
  have hacc : chosen c.tables client revisions = (sieve c.tables client revisions).1 := by
    refine filter_ids_eq ?_ (fun r => ?_) hids
    · exact sieve_sublist c.tables client revisions [] ([], []) (List.Sublist.refl _)
    · rw [decide_eq_true_iff, List.mem_map]
  have hselected : selected revisions (revisions.foldl (PushState.check c.tables client) {}) =
      chosen c.tables client revisions := by
    refine List.filter_congr fun r _ => ?_
    rw [Bool.eq_iff_iff, decide_eq_true_iff, decide_eq_true_iff, hagrees.acceptedIds,
      List.mem_map]
  rw [run_pushRevisions client revisions c rfl, hselected]
  by_cases hnil : chosen c.tables client revisions = []
  · rw [if_pos hnil]
    exact ⟨_, _, rfl⟩
  · obtain ⟨-, hstorable, hnext⟩ := hcond.resolve_left hnil
    have hw : Writable c.tables client c.nextval (chosen c.tables client revisions) := by
      refine ⟨hids, ?_, ?_, hstorable, hreg, hnext⟩
      · rw [hacc]
        exact hagrees.fresh
      · rw [hacc]
        exact accepts_sieve c.tables client revisions (s := ([], [])) .nil
    obtain ⟨n, c', hwrite⟩ := h.writeBatch_ok hnil hw
    rw [if_neg hnil, hagrees.accepted, ← hacc, Program.run_bind_ok _ _ hwrite]
    exact ⟨_, _, rfl⟩

/-- **When a push is answered entry by entry**: just when nothing is accepted, or the
entries chosen for writing have distinct ids and values that their columns can hold. -/
theorem ConnInv.pushRevisions_ok_iff (h : ConnInv c) (hreg : client ∈ c.tables.clients)
    (revisions : List Revision) :
    (∃ resp c', (Rustend.pushRevisions client revisions).run Stmt.eval c = (.ok resp, c') ∧
        (resp.accepted ++ resp.rejected.map (·.revisionId)).Perm (revisions.map (·.id))) ↔
      chosen c.tables client revisions = [] ∨
        ((chosen c.tables client revisions).map (·.id)).Nodup ∧
          (∀ rev ∈ chosen c.tables client revisions, rev.row.storable = true) ∧
          c.nextval ≤ i64Max := by
  constructor
  · rintro ⟨resp, c', hrun, -⟩
    exact h.chosen_writable hrun
  · intro hcond
    have hpush := h.pushRevisions client revisions
    obtain ⟨resp, c', hrun⟩ := h.pushRevisions_answered hreg hcond
    rw [hrun] at hpush
    exact ⟨resp, c', hrun, hpush.2.1⟩

/-- Two entries are accepted, one on top of the other, and two are refused for different
reasons. -/
theorem ConnInv.pushRevisions_ok_mixed : chosen registered.tables ⟨⟨7⟩⟩
      [Run.raceRevision 1 .root, Run.raceRevision 2 (.update ⟨⟨9⟩⟩),
        Run.raceRevision 3 (.update ⟨⟨1⟩⟩), Run.raceRevision 4 (.merge ⟨⟨1⟩⟩ ⟨⟨1⟩⟩ [])] =
      [Run.raceRevision 1 .root, Run.raceRevision 3 (.update ⟨⟨1⟩⟩)] ∧
    ∃ resp c', (Rustend.pushRevisions ⟨⟨7⟩⟩ [Run.raceRevision 1 .root,
      Run.raceRevision 2 (.update ⟨⟨9⟩⟩), Run.raceRevision 3 (.update ⟨⟨1⟩⟩),
      Run.raceRevision 4 (.merge ⟨⟨1⟩⟩ ⟨⟨1⟩⟩ [])]).run Stmt.eval registered = (.ok resp, c') ∧
    (resp.accepted ++ resp.rejected.map (·.revisionId)).Perm [⟨⟨1⟩⟩, ⟨⟨2⟩⟩, ⟨⟨3⟩⟩, ⟨⟨4⟩⟩] := by
  have hchosen : chosen registered.tables ⟨⟨7⟩⟩ [Run.raceRevision 1 .root,
      Run.raceRevision 2 (.update ⟨⟨9⟩⟩), Run.raceRevision 3 (.update ⟨⟨1⟩⟩),
      Run.raceRevision 4 (.merge ⟨⟨1⟩⟩ ⟨⟨1⟩⟩ [])] =
      [Run.raceRevision 1 .root, Run.raceRevision 3 (.update ⟨⟨1⟩⟩)] := by decide +kernel
  refine ⟨hchosen, (registered_inv.pushRevisions_ok_iff (by decide) _).mpr (.inr ?_)⟩
  rw [hchosen]
  decide +kernel

/-- A revision whose payload is the string U+0000. -/
def nulRevision : Revision :=
  { Run.raceRevision 2 .root with content := .active (.string "\x00") }

/-- **One entry refuses the others**: a valid entry is not stored when the batch also holds
one that no column can hold, or repeats an id. -/
theorem pushRevisions_poisoned : ⟨⟨7⟩⟩ ∈ registered.tables.clients ∧
    ((pushRevisions ⟨⟨7⟩⟩ [Run.raceRevision 1 .root]).run Stmt.eval registered).1.toBool = true ∧
    ((pushRevisions ⟨⟨7⟩⟩ [Run.raceRevision 1 .root, nulRevision]).run Stmt.eval registered).1 =
      .error (.database .cannotStore) ∧
    ((pushRevisions ⟨⟨7⟩⟩ [Run.raceRevision 1 .root, Run.raceRevision 3 .root,
      Run.raceRevision 3 .root]).run Stmt.eval registered).1 =
      .error (.database .uniqueViolation) := by
  decide +kernel

end Push

end Rustend
