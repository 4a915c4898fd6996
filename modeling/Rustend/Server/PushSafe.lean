import Rustend.Server.Isolation

/-!
# Pushing among other sessions

`push_revisions`, statement by statement, under the rules of a session.  The checks
collect a batch that every later state admits too; the writes of the open
transaction are at each point those of a prefix of it; and the commit appends the
whole batch or nothing.

The rows to write are selected by membership of their id among the accepted ids, so
an entry that was refused can come along under the id of an accepted one.  Then two
rows have one id, and the primary key stops the transaction: what is committed is
exactly what was accepted.

## Main definitions

* `Checked` — what the loop over the batch has established.
* `Written` — the writes of the open transaction.
* `Smooth` — the conditions under which no statement of the push can fail.
* `Pushed`, `PushPost` — what a push has done when it returns.

## Main results

* `triple_validate`, `triple_writeRevisions`, `triple_createTransaction`.
* `triple_pushRevisions` — **what a push does, among any others.**
-/

namespace Rustend

open Interleave

/-! ### What the checks establish -/

/-- A parent that an entry of object `o` may name: stored under `o`, or accepted
under `o`. -/
def KnownParent (t : Tables) (acc : List Revision) (o : ObjectId) (p : RevisionId) : Prop :=
  t.StoredAs p o ∨ ∃ e ∈ acc, e.id = p ∧ e.objectId = o

/-- After the entries `done`, those in `acc` are accepted. -/
structure Checked (t : Tables) (client : ClientId) (done : List Revision) (st : PushState)
    (acc : List Revision) : Prop where
  sublist : acc.Sublist done
  accepts : Accepts t client acc
  accepted : st.accepted = acc.map (·.id)
  acceptedIds : ∀ r, r ∈ st.acceptedIds ↔ ∃ rev ∈ acc, rev.id = r
  acceptedObjects : ∀ r o, st.acceptedObjects r = some o → ∃ e ∈ acc, e.id = r ∧ e.objectId = o
  /-- Every entry is reported once. -/
  reported : (st.accepted ++ st.rejected.map (·.revisionId)).Perm (done.map (·.id))

theorem Checked.nil (t : Tables) (client : ClientId) : Checked t client [] {} [] :=
  ⟨.slnil, .nil, rfl, by simp, by simp, .refl _⟩

theorem Checked.grows {t t' : Tables} {client : ClientId} {done acc : List Revision}
    {st : PushState} (h : Checked t client done st acc) (hg : Grows t t') :
    Checked t' client done st acc := { h with accepts := h.accepts.grows hg }

theorem Checked.reject {t : Tables} {client : ClientId} {done acc : List Revision}
    {st : PushState} (h : Checked t client done st acc) (rev : Revision)
    (reason : RejectionReason) : Checked t client (done ++ [rev]) (st.reject rev reason) acc where
  sublist := h.sublist.trans (List.sublist_append_left _ _)
  accepts := h.accepts
  accepted := h.accepted
  acceptedIds := h.acceptedIds
  acceptedObjects := h.acceptedObjects
  reported := by
    simp only [PushState.reject, List.map_append, List.map_cons, List.map_nil, ← List.append_assoc]
    exact h.reported.append_right _

theorem Checked.accept {t : Tables} {client : ClientId} {done acc : List Revision}
    {st : PushState} (h : Checked t client done st acc) {rev : Revision}
    (hc : rev.createdBy = client) (hn : rev.parents.Nodup)
    (hp : ∀ p ∈ rev.parents, KnownParent t acc rev.objectId p) :
    Checked t client (done ++ [rev]) (st.accept rev) (acc ++ [rev]) where
  sublist := h.sublist.append (.refl _)
  accepts := h.accepts.snoc hc hn hp
  accepted := by simp [PushState.accept, h.accepted]
  acceptedIds r := by
    simp only [PushState.accept, List.mem_cons, h.acceptedIds, List.mem_append, List.not_mem_nil,
      or_false]
    constructor
    · rintro (rfl | ⟨e, he, rfl⟩)
      · exact ⟨rev, .inr rfl, rfl⟩
      · exact ⟨e, .inl he, rfl⟩
    · rintro ⟨e, he | rfl, rfl⟩
      · exact .inr ⟨e, he, rfl⟩
      · exact .inl rfl
  acceptedObjects r o hr := by
    simp only [PushState.accept, Function.update_apply] at hr
    split at hr
    · next heq => cases hr; exact ⟨rev, by simp, heq.symm, rfl⟩
    · obtain ⟨e, he, h⟩ := h.acceptedObjects r o hr
      exact ⟨e, List.mem_append_left _ he, h⟩
  reported := by
    simp only [PushState.accept, List.map_append, List.map_cons, List.map_nil]
    refine List.Perm.trans ?_ (h.reported.append_right [rev.id])
    rw [List.append_assoc, List.append_assoc]
    exact List.perm_append_comm.append_left _

theorem KnownParent.grows {t t' : Tables} {acc : List Revision} {o : ObjectId} {p : RevisionId}
    (h : KnownParent t acc o p) (hg : Grows t t') : KnownParent t' acc o p := h.imp_left hg.storedAs

theorem lasting_of_grows {tx : Option Writes} {P : Tables → Prop}
    (h : ∀ t t', Grows t t' → P t → P t') : Lasting tx P := fun t t' _ _ hg _ => h t t' hg

/-! ### The checks, statement by statement -/

section Push

variable {alone : Prop} {t₀ : Tables} {n₀ i : ℕ} {effect : Tables → Tables → Prop}
  {client : ClientId} {done acc : List Revision} {st : PushState} {P : Tables → Prop}

theorem triple_parentObjectId (heff : ∀ t, effect t t) (hP : Lasting none P)
    (hobj : ∀ r o, st.acceptedObjects r = some o → ∃ e ∈ acc, e.id = r ∧ e.objectId = o)
    (p : RevisionId) :
    Triple (sessionEnv alone i effect) (At alone t₀ n₀ i none P) (parentObjectId st p)
      (Ends (fun a => At alone t₀ n₀ i none fun t => P t ∧ ∀ o, a = some o → KnownParent t acc o p)
        fun _ d => At alone t₀ n₀ i none P d ∧ ¬ alone) := by
  rw [parentObjectId]
  split
  · next o ho =>
    refine Triple.done (stable_at hP) fun d hd => hd.mono fun t _ _ ht => ⟨ht, ?_⟩
    rintro o' ⟨⟩
    exact .inr (hobj p o ho)
  · refine triple_read heff (.selectRevisionObjectId p) rfl
      (q := fun t => (t.revisions.find? (·.id = p)).map (·.objectId)) (fun _ => rfl) hP
      (Q := fun (a : Option ObjectId) t => P t ∧ ∀ o, a = some o → KnownParent t acc o p)
      (fun a => hP.and ?_) fun t _ _ ht => ⟨ht, ?_⟩
    · exact lasting_of_grows fun t t' hg h o ho => (h o ho).grows hg
    · intro o ho
      obtain ⟨row, hrow, rfl⟩ := Option.map_eq_some_iff.mp ho
      exact .inl ⟨row, List.mem_of_find?_eq_some hrow, by simpa using List.find?_some hrow, rfl⟩

theorem triple_checkParents (heff : ∀ t, effect t t)
    (hobj : ∀ r o, st.acceptedObjects r = some o → ∃ e ∈ acc, e.id = r ∧ e.objectId = o)
    (rev : Revision) : ∀ (parents : List RevisionId) {P : Tables → Prop}, Lasting none P →
    Triple (sessionEnv alone i effect) (At alone t₀ n₀ i none P) (checkParents st rev parents)
      (Ends
        (fun a => At alone t₀ n₀ i none fun t =>
          P t ∧ (a = none → ∀ p ∈ parents, KnownParent t acc rev.objectId p))
        fun _ d => At alone t₀ n₀ i none P d ∧ ¬ alone)
  | [], P, hP => Triple.done (stable_at hP) fun d hd => hd.mono fun t _ _ ht => ⟨ht, by simp⟩
  | p :: rest, P, hP => by
    have hQ : ∀ o, Lasting none fun t => P t ∧ KnownParent t acc o p := fun o =>
      hP.and (lasting_of_grows fun t t' hg h => h.grows hg)
    refine Triple.bind (triple_parentObjectId heff hP hobj p) (fun a => ?_) fun e => ?_
    · rcases a with _ | o
      · refine Triple.conseq (P := At alone t₀ n₀ i none P)
          (Triple.done (stable_at hP) fun d hd => ?_)
          (fun d hd => hd.mono fun t _ _ ht => ht.1) fun _ _ h => h
        exact hd.mono fun t _ _ ht => ⟨ht, nofun⟩
      · refine Triple.conseq (P := At alone t₀ n₀ i none fun t => P t ∧ KnownParent t acc o p) ?_
          (fun d hd => hd.mono fun t _ _ ht => ⟨ht.1, ht.2 o rfl⟩) fun _ _ h => h
        dsimp only
        split
        · exact Triple.done (stable_at (hQ o)) fun d hd => hd.mono fun t _ _ ht => ⟨ht.1, nofun⟩
        · next ho =>
          have ho : o = rev.objectId := not_not.mp ho
          refine (triple_checkParents heff hobj rev rest (hQ o)).conseq (fun _ h => h) ?_
          rintro (e | a) d hd
          · exact ⟨hd.1.mono fun t _ _ ht => ht.1, hd.2⟩
          · exact hd.mono fun t _ _ ht =>
              ⟨ht.1.1, fun ha => List.forall_mem_cons.mpr ⟨ho ▸ ht.1.2, ht.2 ha⟩⟩
    · exact Triple.done (fun d d' hr hd => ⟨stable_at hP d d' hr hd.1, hd.2⟩) fun d hd => hd

/-- An entry passes its checks only when it may be appended to what was accepted. -/
theorem triple_checkRevision (heff : ∀ t, effect t t) (rev : Revision) :
    Triple (sessionEnv alone i effect)
      (At alone t₀ n₀ i none fun t => Checked t client done st acc)
      (checkRevision client st rev)
      (Ends
        (fun a => At alone t₀ n₀ i none fun t => Checked t client done st acc ∧
          (a = none → Checked t client (done ++ [rev]) (st.accept rev) (acc ++ [rev]) ∧
            (alone → ¬ t₀.Stored rev.id)))
        fun _ d => At alone t₀ n₀ i none (fun t => Checked t client done st acc) d ∧ ¬ alone) := by
  have hP : Lasting none fun t => Checked t client done st acc :=
    lasting_of_grows fun t t' hg h => h.grows hg
  -- what has been collected does not change while others commit
  by_cases hobj : ∀ r o, st.acceptedObjects r = some o → ∃ e ∈ acc, e.id = r ∧ e.objectId = o
  swap
  · exact fun d hd => absurd hd.holds.acceptedObjects hobj
  rw [checkRevision]
  split
  · exact Triple.done (stable_at hP) fun d hd => hd.mono fun t _ _ ht => ⟨ht, nofun⟩
  · next hc =>
    have hc : rev.createdBy = client := not_not.mp hc
    refine Triple.bind (triple_read heff (.selectRevisionExists rev.id) rfl
      (q := fun t => t.revisions.any (·.id = rev.id)) (fun _ => rfl) hP
      (Q := fun (a : Bool) t => Checked t client done st acc ∧
        (alone → a = false → ¬ t₀.Stored rev.id))
      (fun a => hP.and (.const _)) fun t _ ht hck => ⟨hck, fun ha hf => ?_⟩) (fun a => ?_)
        fun e => ?_
    · -- alone, the id is looked up in the tables of the beginning
      rintro ⟨row, hrow, hid⟩
      rw [← ht ha] at hrow
      have : t.revisions.any (·.id = rev.id) = true :=
        List.any_eq_true.mpr ⟨row, hrow, decide_eq_true hid⟩
      rw [this] at hf
      cases hf
    · have hQ : Lasting none fun t => Checked t client done st acc ∧
          (alone → a = false → ¬ t₀.Stored rev.id) := hP.and (.const _)
      refine Triple.conseq ?_ (fun d hd => hd) fun _ _ h => h
      split
      · exact Triple.done (stable_at hQ) fun d hd => hd.mono fun t _ _ ht => ⟨ht.1, nofun⟩
      · next hnew =>
        split
        · exact Triple.done (stable_at hQ) fun d hd => hd.mono fun t _ _ ht => ⟨ht.1, nofun⟩
        · next hlen =>
          have hn : rev.parents.Nodup := by
            rw [← List.dedup_eq_self]
            exact (List.dedup_sublist _).eq_of_length (not_not.mp hlen)
          refine (triple_checkParents heff hobj rev rev.parents hQ).conseq (fun _ h => h) ?_
          rintro (e | a') d hd
          · exact ⟨hd.1.mono fun t _ _ ht => ht.1, hd.2⟩
          · exact hd.mono fun t _ _ ht => ⟨ht.1.1, fun ha => ⟨ht.1.1.accept hc hn (ht.2 ha),
              fun hal => ht.1.2 hal (Bool.eq_false_iff.mpr hnew)⟩⟩
    · exact Triple.done (fun d d' hr hd => ⟨stable_at hP d d' hr hd.1, hd.2⟩) fun d hd => hd

/-- **The loop over the batch** ends with what it has accepted. -/
theorem triple_validate (heff : ∀ t, effect t t) : ∀ (todo done acc : List Revision)
    (st : PushState), (alone → ∀ rev ∈ acc, ¬ t₀.Stored rev.id) →
    Triple (sessionEnv alone i effect)
      (At alone t₀ n₀ i none fun t => Checked t client done st acc) (validate client st todo)
      (Ends
        (fun st' d => ∃ acc', (alone → ∀ rev ∈ acc', ¬ t₀.Stored rev.id) ∧
          At alone t₀ n₀ i none (fun t => Checked t client (done ++ todo) st' acc') d)
        fun _ d => At alone t₀ n₀ i none (fun _ => True) d ∧ ¬ alone)
  | [], done, acc, st, hfresh => by
    refine Triple.done (stable_at ?_) fun d hd => ⟨acc, hfresh, by simpa using hd⟩
    exact lasting_of_grows fun t t' hg h => h.grows hg
  | rev :: todo, done, acc, st, hfresh => by
    have hP : ∀ done st acc, Lasting none fun t => Checked t client done st acc :=
      fun done st acc => lasting_of_grows fun t t' hg h => h.grows hg
    rw [validate]
    refine Triple.bind (triple_checkRevision heff rev) (fun a => ?_) fun e => ?_
    · rcases a with _ | reason
      · -- the entry is accepted; alone, its id is then new
        by_cases hnew : alone → ¬ t₀.Stored rev.id
        · refine (triple_validate heff todo (done ++ [rev]) (acc ++ [rev]) (st.accept rev)
            fun ha r hr => ?_).conseq (fun d hd => hd.mono fun t _ _ ht => (ht.2 rfl).1) ?_
          · rcases List.mem_append.mp hr with hr | hr
            · exact hfresh ha r hr
            · rw [List.mem_singleton.mp hr]; exact hnew ha
          · rintro (e | st') d hd
            · exact hd
            · simpa [Ends] using hd
        · exact fun d hd => absurd (hd.holds.2 rfl).2 hnew
      · -- the entry is rejected
        refine (triple_validate heff todo (done ++ [rev]) acc (st.reject rev reason)
          hfresh).conseq (fun d hd => hd.mono fun t _ _ ht => ht.1.reject rev reason) ?_
        rintro (e | st') d hd
        · exact hd
        · simpa [Ends] using hd
    · exact Triple.done (fun d d' hr hd => ⟨stable_at (hP _ _ _) d d' hr hd.1, hd.2⟩)
        fun d hd => ⟨hd.1.mono fun _ _ _ _ => trivial, hd.2⟩

end Push

/-! ### The writes of the open transaction -/

/-- What one revision of a batch does to the heads that the batch inserts. -/
def headsAfter (hs : List HeadRow) (rev : Revision) : List HeadRow :=
  hs.filter (fun h => ¬(h.objectId = rev.objectId ∧ h.revisionId ∈ rev.parents)) ++
    [⟨rev.objectId, rev.id⟩]

/-- The writes `w` consist of the revisions `revs`, the parent rows `rows`, and the
head changes of the revisions `cut`, which leave `hs` of the inserted heads. -/
structure Written (t : Tables) (w : Writes) (revs : List Revision) (rows : List ParentRow)
    (cut : List Revision) (hs : List HeadRow) : Prop where
  revisions : w.revisions = revs.map fun rev => rev.row.stored
  revisionParents : w.revisionParents = rows
  transactions : w.transactions = []
  transactionRevisions : w.transactionRevisions = []
  insertedHeads : w.insertedHeads = hs
  ids : (revs.map (·.id)).Nodup
  storable : ∀ rev ∈ revs, rev.row.storable = true
  /-- The foreign key of the parents. -/
  known : ∀ row ∈ rows, t.Stored row.parentId ∨ ∃ e ∈ revs, e.id = row.parentId
  cut_rows : ∀ rev ∈ cut, rev.parentRows ⊆ rows
  deleted_of : ∀ x ∈ w.deletedHeads, ∃ rev ∈ cut,
    x.objectId = rev.objectId ∧ x.revisionId ∈ rev.parents
  /-- No committed head is left that a revision of `cut` retires. -/
  deleted : ∀ x ∈ t.objectHeads, ∀ rev ∈ cut, x.objectId = rev.objectId →
    x.revisionId ∈ rev.parents → x ∈ w.deletedHeads

/-- The writes of a whole batch, before its transaction is drawn. -/
abbrev Wrote (t : Tables) (w : Writes) (batch : List Revision) : Prop :=
  Written t w batch (batch.flatMap Revision.parentRows) batch (batch.foldl headsAfter [])

theorem Written.mem_revisions {t : Tables} {w : Writes} {revs cut : List Revision}
    {rows : List ParentRow} {hs : List HeadRow} (h : Written t w revs rows cut hs)
    {r : RevisionId} : (∃ row ∈ w.revisions, row.id = r) ↔ ∃ e ∈ revs, e.id = r := by
  rw [h.revisions]
  constructor
  · rintro ⟨row, hrow, rfl⟩
    obtain ⟨rev, hrev, rfl⟩ := List.mem_map.mp hrow
    exact ⟨rev, hrev, rfl⟩
  · rintro ⟨e, he, rfl⟩
    exact ⟨_, List.mem_map_of_mem he, rfl⟩

/-- **What the transaction has written stays right** whatever the others commit: a
head that it has to retire cannot come up later. -/
theorem Written.lasting {w : Writes} {revs cut : List Revision} {rows : List ParentRow}
    {hs : List HeadRow} : Lasting (some w) fun t => Written t w revs rows cut hs := by
  intro t t' ht ht' hg hown h
  refine { h with
    known := fun row hrow => (h.known row hrow).imp_left hg.stored
    deleted := fun x hx rev hrev ho hp => ?_ }
  obtain ⟨o, r⟩ := x
  obtain ⟨e, he, hpe, -⟩ := exists_parentRow hp
  rcases h.known e (h.cut_rows rev hrev he) with hs | hs <;> rw [hpe] at hs
  · -- an old revision: it was a head before
    exact h.deleted _ (hg.head ht ht' hs hx) rev hrev ho hp
  · -- a revision of the transaction itself: nobody else can have committed it
    obtain ⟨row, hrow, rfl⟩ := h.mem_revisions.mpr hs
    exact absurd (ht'.head_storedAs hx).stored (hown w rfl row hrow)

/-! ### What the statements write -/

section Statements

variable {t : Tables} {w w' : Writes}

theorem Tables.insertRevision_ok {row : RevisionRow} (h : t.insertRevision row w = .ok w') :
    w' = { w with revisions := w.revisions ++ [row.stored] } ∧ ¬ t.Stored row.id ∧
      (∀ r ∈ w.revisions, r.id ≠ row.id) ∧ row.storable = true := by
  simp only [Tables.insertRevision] at h
  split at h; · cases h
  next hs =>
  split at h; · cases h
  split at h; · cases h
  next hu =>
  split at h; · cases h
  cases h
  have hu : ∀ r ∈ (t.view w).revisions, r.id ≠ row.id := fun r hr hid =>
    hu (List.any_eq_true.mpr ⟨r, hr, decide_eq_true hid⟩)
  refine ⟨rfl, ?_, fun r hr => hu r (List.mem_append_right _ hr), by simpa using hs⟩
  rintro ⟨r, hr, hid⟩
  exact hu r (List.mem_append_left _ hr) hid

theorem Tables.insertRevision_eq_ok {row : RevisionRow} (hs : row.storable = true)
    (hd : row.activeHasData = true) (hn : ¬ t.Stored row.id) (hw : ∀ r ∈ w.revisions, r.id ≠ row.id)
    (hc : row.createdBy ∈ t.clients) :
    t.insertRevision row w = .ok { w with revisions := w.revisions ++ [row.stored] } := by
  have hu : ¬ ((t.view w).revisions.any (·.id = row.id)) = true := by
    rw [List.any_eq_true]
    rintro ⟨r, hr, hid⟩
    rcases List.mem_append.mp hr with hr | hr
    · exact hn ⟨r, hr, of_decide_eq_true hid⟩
    · exact hw r hr (of_decide_eq_true hid)
  simp [Tables.insertRevision, hs, hd, hu, hc]

theorem Tables.view_any {r : RevisionId} : (t.view w).revisions.any (·.id = r) = true ↔
    t.Stored r ∨ ∃ row ∈ w.revisions, row.id = r := by
  simp only [Tables.view, List.any_append, Bool.or_eq_true, List.any_eq_true, decide_eq_true_eq]
  exact Iff.rfl

theorem Tables.insertRevisionParent_ok {row : ParentRow}
    (h : t.insertRevisionParent row w = .ok w') :
    w' = { w with revisionParents := w.revisionParents ++ [row] } ∧
      (t.Stored row.parentId ∨ ∃ r ∈ w.revisions, r.id = row.parentId) := by
  simp only [Tables.insertRevisionParent] at h
  split at h; · cases h
  split at h; · cases h
  next hf =>
  cases h
  simp only [Bool.or_eq_true, Bool.not_eq_true', not_or, Bool.not_eq_false] at hf
  exact ⟨rfl, Tables.view_any.mp hf.2⟩

theorem Tables.insertRevisionParent_eq_ok {row : ParentRow}
    (hu : ∀ e ∈ t.revisionParents ++ w.revisionParents,
      ¬(e.revisionId = row.revisionId ∧ e.parentId = row.parentId))
    (hr : t.Stored row.revisionId ∨ ∃ r ∈ w.revisions, r.id = row.revisionId)
    (hp : t.Stored row.parentId ∨ ∃ r ∈ w.revisions, r.id = row.parentId) :
    t.insertRevisionParent row w =
      .ok { w with revisionParents := w.revisionParents ++ [row] } := by
  have hu' : ¬ ((t.view w).revisionParents.any fun e =>
      e.revisionId = row.revisionId ∧ e.parentId = row.parentId) = true := by
    rw [List.any_eq_true]
    rintro ⟨e, he, heq⟩
    exact hu e he (of_decide_eq_true heq)
  simp only [Tables.insertRevisionParent, hu', Tables.view_any.mpr hr, Tables.view_any.mpr hp]
  simp

theorem Tables.insertHead_ok {row : HeadRow} (h : t.insertHead row w = .ok w') :
    (row ∈ (t.view w).objectHeads ∧ w' = w) ∨
      w' = { w with insertedHeads := w.insertedHeads ++ [row] } := by
  simp only [Tables.insertHead] at h
  split at h
  · next hm => cases h; exact .inl ⟨hm, rfl⟩
  split at h; · cases h
  cases h
  exact .inr rfl

theorem Tables.insertHead_eq_ok {row : HeadRow}
    (hr : t.Stored row.revisionId ∨ ∃ r ∈ w.revisions, r.id = row.revisionId) :
    ∃ w', t.insertHead row w = .ok w' := by
  simp only [Tables.insertHead, Tables.view_any.mpr hr]
  split
  · exact ⟨_, rfl⟩
  · exact ⟨_, rfl⟩

theorem Tables.insertTransactionRevision_ok {row : TransactionRevisionRow}
    (h : t.insertTransactionRevision row w = .ok w') :
    w' = { w with transactionRevisions := w.transactionRevisions ++ [row] } := by
  simp only [Tables.insertTransactionRevision] at h
  split at h; · cases h
  split at h; · cases h
  cases h
  rfl

theorem Tables.insertTransactionRevision_eq_ok {row : TransactionRevisionRow}
    (hu : row ∉ (t.view w).transactionRevisions)
    (hx : ∃ x ∈ w.transactions, x.id = row.transactionId)
    (hr : ∃ r ∈ w.revisions, r.id = row.revisionId) :
    t.insertTransactionRevision row w =
      .ok { w with transactionRevisions := w.transactionRevisions ++ [row] } := by
  have hx' : (t.view w).transactions.any (·.id = row.transactionId) = true := by
    obtain ⟨x, hx, hid⟩ := hx
    exact List.any_eq_true.mpr ⟨x, List.mem_append_right _ hx, decide_eq_true hid⟩
  simp only [Tables.insertTransactionRevision]
  rw [if_neg hu, hx', Tables.view_any.mpr (.inr hr)]
  rfl

end Statements

/-! ### The writes, statement by statement -/

section Write

variable {alone : Prop} {t₀ : Tables} {n₀ i : ℕ} {effect : Tables → Tables → Prop} {w : Writes}
  {revs cut : List Revision} {rows : List ParentRow} {hs : List HeadRow} {K : Tables → Prop}

/-- A fact about the open transaction and the committed tables, for some writes. -/
abbrev Open (alone : Prop) (t₀ : Tables) (n₀ i : ℕ) (Q : Writes → Tables → Prop) (d : Db) : Prop :=
  ∃ w, At alone t₀ n₀ i (some w) (Q w) d

theorem stable_open {Q : Writes → Tables → Prop} (hQ : ∀ w, Lasting (some w) (Q w)) :
    Stable (sessionEnv alone i effect) (Open alone t₀ n₀ i Q) := by
  rintro d d' hr ⟨w, hd⟩
  exact ⟨w, stable_at (hQ w) d d' hr hd⟩

/-- What is known when a write of the transaction has failed: for one session alone,
that the tables refused the write. -/
abbrev Refused (alone : Prop) (t₀ : Tables) (n₀ i : ℕ) (Q : Writes → Tables → Prop)
    (f : Tables → Writes → Except DbError Writes) (d : Db) : Prop :=
  ∃ w, At alone t₀ n₀ i (some w) (Q w) d ∧ (alone → ∃ e, f t₀ w = .error e)

theorem triple_write_open (heff : ∀ t, effect t t) {op : Stmt}
    {f : Tables → Writes → Except DbError Writes} (hop : op.WritesBy f)
    {Q Q' : Writes → Tables → Prop} (hQ : ∀ w, Lasting (some w) (Q w))
    (hQ' : ∀ w, Lasting (some w) (Q' w))
    (hold : ∀ d w w', DbInv d → d.opened i = some w → d.waits i op = false →
      f d.tables w = .ok w' → d.MayHold i d.tables d.nextval w')
    (h : ∀ t w w', WellFormed t → (∀ row ∈ w'.revisions, ¬ t.Stored row.id) → Q w t →
      f t w = .ok w' → Q' w' t) :
    Triple (sessionEnv alone i effect) (Open alone t₀ n₀ i Q) (.perform (S := sql) op)
      (Ends (fun _ => Open alone t₀ n₀ i Q') fun _ => Refused alone t₀ n₀ i Q f) := by
  refine Triple.exists_pre fun w => ?_
  refine (triple_write heff hop (hQ w) hQ' (fun d w' => hold d w w') fun t w' => h t w w').conseq
    (fun _ h => h) ?_
  rintro (e | a) d hd
  · exact ⟨w, hd⟩
  · exact hd

theorem triple_insertRow (heff : ∀ t, effect t t) (hK : ∀ w, Lasting (some w) K) (rev : Revision) :
    Triple (sessionEnv alone i effect)
      (Open alone t₀ n₀ i fun w t => Written t w revs rows cut hs ∧ K t)
      (.perform (S := sql) (.insertRevision rev.row))
      (Ends
        (fun _ => Open alone t₀ n₀ i fun w t => Written t w (revs ++ [rev]) rows cut hs ∧ K t)
        fun _ => Refused alone t₀ n₀ i (fun w t => Written t w revs rows cut hs ∧ K t)
          (·.insertRevision rev.row)) := by
  refine triple_write_open heff ⟨rfl, rfl, fun _ => rfl, fun _ _ => Iff.rfl⟩
    (fun w => Written.lasting.and (hK w)) (fun w => Written.lasting.and (hK w)) ?_ ?_
  · intro d w w' hd ho hwait hok
    obtain ⟨rfl, hnew, -, -⟩ := Tables.insertRevision_ok hok
    exact hd.mayInsert ho hwait hnew
  · rintro t w w' - - ⟨hw, hk⟩ hok
    obtain ⟨rfl, -, hnew, hst⟩ := Tables.insertRevision_ok hok
    refine ⟨{ hw with
      revisions := by simp [hw.revisions]
      ids := ?_
      storable := List.forall_mem_append.mpr ⟨hw.storable, List.forall_mem_singleton.mpr hst⟩
      known := fun row hrow => (hw.known row hrow).imp_right fun ⟨e, he, hid⟩ =>
        ⟨e, List.mem_append_left _ he, hid⟩ }, hk⟩
    rw [List.map_append, List.nodup_append]
    refine ⟨hw.ids, by simp, ?_⟩
    rintro _ hx b hb rfl
    obtain ⟨e, he, hid⟩ := List.mem_map.mp hx
    obtain ⟨row, hrow, hr⟩ := hw.mem_revisions.mpr ⟨e, he, hid⟩
    exact hnew row hrow (hr.trans (List.mem_singleton.mp hb))

theorem triple_insertParentRow (heff : ∀ t, effect t t) (hK : ∀ w, Lasting (some w) K)
    (row : ParentRow) :
    Triple (sessionEnv alone i effect)
      (Open alone t₀ n₀ i fun w t => Written t w revs rows cut hs ∧ K t)
      (.perform (S := sql) (.insertRevisionParent row))
      (Ends
        (fun _ => Open alone t₀ n₀ i fun w t => Written t w revs (rows ++ [row]) cut hs ∧ K t)
        fun _ => Refused alone t₀ n₀ i (fun w t => Written t w revs rows cut hs ∧ K t)
          (·.insertRevisionParent row)) := by
  refine triple_write_open heff ⟨rfl, rfl, fun _ => rfl, fun _ _ => Iff.rfl⟩
    (fun w => Written.lasting.and (hK w)) (fun w => Written.lasting.and (hK w)) ?_ ?_
  · intro d w w' hd ho _ hok
    obtain ⟨rfl, -⟩ := Tables.insertRevisionParent_ok hok
    exact (hd.mayHold ho).congr rfl rfl
  · rintro t w w' - - ⟨hw, hk⟩ hok
    obtain ⟨rfl, hp⟩ := Tables.insertRevisionParent_ok hok
    refine ⟨{ hw with
      revisionParents := by simp [hw.revisionParents]
      known := ?_
      cut_rows := fun rev hrev => List.Subset.trans (hw.cut_rows rev hrev)
        (List.subset_append_left _ _) }, hk⟩
    intro e he
    rcases List.mem_append.mp he with he | he
    · exact hw.known e he
    · rw [List.mem_singleton.mp he]
      exact hp.imp_right hw.mem_revisions.mp

/-- Retiring the parents of a revision. -/
theorem triple_deleteHeads (heff : ∀ t, effect t t) (hK : ∀ w, Lasting (some w) K)
    {rev : Revision} (hrows : rev.parentRows ⊆ rows) :
    Triple (sessionEnv alone i effect)
      (Open alone t₀ n₀ i fun w t => Written t w revs rows cut hs ∧ K t)
      (.perform (S := sql) (.deleteHeads rev.objectId rev.parents))
      (Ends
        (fun _ => Open alone t₀ n₀ i fun w t => Written t w revs rows (cut ++ [rev])
          (hs.filter fun h => ¬(h.objectId = rev.objectId ∧ h.revisionId ∈ rev.parents)) ∧ K t)
        fun _ => Refused alone t₀ n₀ i (fun w t => Written t w revs rows cut hs ∧ K t)
          fun t w => .ok (t.deleteHeads rev.objectId rev.parents w)) := by
  refine triple_write_open heff ⟨rfl, rfl, fun _ => rfl, fun _ _ => Iff.rfl⟩
    (fun w => Written.lasting.and (hK w)) (fun w => Written.lasting.and (hK w)) ?_ ?_
  · rintro d w w' hd ho - ⟨⟩
    exact (hd.mayHold ho).congr rfl rfl
  · rintro t w w' - - ⟨hw, hk⟩ ⟨⟩
    refine ⟨{ hw with
      insertedHeads := by rw [← hw.insertedHeads]; rfl
      cut_rows := ?_
      deleted_of := ?_
      deleted := ?_ }, hk⟩
    · intro r hr
      rcases List.mem_append.mp hr with hr | hr
      · exact hw.cut_rows r hr
      · rw [List.mem_singleton.mp hr]; exact hrows
    · intro x hx
      rcases List.mem_append.mp hx with hx | hx
      · -- deleted for an earlier revision, or for this one
        obtain ⟨r, hr, h⟩ := hw.deleted_of x hx
        exact ⟨r, List.mem_append_left _ hr, h⟩
      · exact ⟨rev, by simp, by simpa using (List.mem_filter.mp hx).2⟩
    · intro x hx r hr ho hp
      rcases List.mem_append.mp hr with hr | hr
      · exact List.mem_append_left _ (hw.deleted x hx r hr ho hp)
      · rw [List.mem_singleton.mp hr] at ho hp
        exact List.mem_append_right _ (List.mem_filter.mpr ⟨hx, by simp [ho, hp]⟩)

/-- The new head of a revision that has just been written. -/
theorem triple_insertHead (heff : ∀ t, effect t t) (hK : ∀ w, Lasting (some w) K)
    {rev : Revision} (hrev : rev ∈ revs) (hnew : ⟨rev.objectId, rev.id⟩ ∉ hs) :
    Triple (sessionEnv alone i effect)
      (Open alone t₀ n₀ i fun w t => Written t w revs rows cut hs ∧ K t)
      (.perform (S := sql) (.insertHead ⟨rev.objectId, rev.id⟩))
      (Ends
        (fun _ => Open alone t₀ n₀ i fun w t =>
          Written t w revs rows cut (hs ++ [⟨rev.objectId, rev.id⟩]) ∧ K t)
        fun _ => Refused alone t₀ n₀ i (fun w t => Written t w revs rows cut hs ∧ K t)
          (·.insertHead ⟨rev.objectId, rev.id⟩)) := by
  refine triple_write_open heff ⟨rfl, rfl, fun _ => rfl, fun _ _ => Iff.rfl⟩
    (fun w => Written.lasting.and (hK w)) (fun w => Written.lasting.and (hK w)) ?_ ?_
  · intro d w w' hd ho _ hok
    rcases Tables.insertHead_ok hok with ⟨-, rfl⟩ | rfl
    · exact hd.mayHold ho
    · exact (hd.mayHold ho).congr rfl rfl
  · rintro t w w' ht hown ⟨hw, hk⟩ hok
    rcases Tables.insertHead_ok hok with ⟨hm, rfl⟩ | rfl
    · -- there is no such head yet: the revision is neither committed nor a head of `hs`
      exfalso
      rcases List.mem_append.mp hm with hm | hm
      · obtain ⟨row, hrow, hid⟩ := hw.mem_revisions.mpr ⟨rev, hrev, rfl⟩
        have hst := (ht.head_storedAs (List.mem_filter.mp hm).1).stored
        rw [← hid] at hst
        exact hown row hrow hst
      · exact hnew (hw.insertedHeads ▸ hm)
    · exact ⟨{ hw with insertedHeads := by simp [hw.insertedHeads] }, hk⟩

end Write

/-! ### Writing the batch -/

/-- No statement that writes these revisions as one transaction can fail on the
tables `t`, with the sequence at `n`. -/
structure Writable (t : Tables) (client : ClientId) (n : ℕ) (batch : List Revision) : Prop where
  ids : (batch.map (·.id)).Nodup
  fresh : ∀ rev ∈ batch, ¬ t.Stored rev.id
  accepts : Accepts t client batch
  storable : ∀ rev ∈ batch, rev.row.storable = true
  registered : client ∈ t.clients
  nextval : n ≤ i64Max

theorem row_activeHasData (rev : Revision) : rev.row.activeHasData = true := by
  cases hc : rev.content <;> simp [RevisionRow.activeHasData, Revision.row, Content.columns, hc]

/-- The heads a batch inserts are among its revisions. -/
theorem foldl_headsAfter_sublist (batch : List Revision) :
    (batch.foldl headsAfter []).Sublist (batch.map fun rev => ⟨rev.objectId, rev.id⟩) := by
  induction batch using List.reverseRecOn with
  | nil => exact .refl _
  | append_singleton batch rev ih =>
    rw [List.foldl_append, List.map_append]
    exact (List.filter_sublist.trans ih).append (.refl _)

theorem head_notMem {revs : List Revision} {rev : Revision}
    (h : ((revs ++ [rev]).map (·.id)).Nodup) (p : HeadRow → Bool) :
    ⟨rev.objectId, rev.id⟩ ∉ (revs.foldl headsAfter []).filter p := by
  intro hm
  have hm := (foldl_headsAfter_sublist revs).subset (List.mem_filter.mp hm).1
  obtain ⟨e, he, heq⟩ := List.mem_map.mp hm
  rw [List.map_append, List.nodup_append] at h
  exact h.2.2 e.id (List.mem_map_of_mem he) rev.id (by simp) (congrArg HeadRow.revisionId heq)

section Batch

variable {alone : Prop} {t₀ : Tables} {n₀ i : ℕ} {effect : Tables → Tables → Prop}
  {client : ClientId} {batch : List Revision} {K : Tables → Prop} {d : Db}

/-- The transaction has to be given up; for one session alone, because the batch was
not writable. -/
abbrev Doomed (alone : Prop) (t₀ : Tables) (n₀ i : ℕ) (client : ClientId) (batch : List Revision)
    (d : Db) : Prop :=
  (∃ n, Open alone t₀ n i (fun _ _ => True) d) ∧ (alone → ¬ Writable t₀ client n₀ batch)

theorem stable_doomed :
    Stable (sessionEnv alone i effect) (Doomed alone t₀ n₀ i client batch) := by
  rintro d d' hr ⟨⟨n, hd⟩, h⟩
  exact ⟨⟨n, stable_open (fun _ => .const _) d d' hr hd⟩, h⟩

theorem Refused.doomed {n : ℕ} {Q : Writes → Tables → Prop}
    {f : Tables → Writes → Except DbError Writes} (h : Refused alone t₀ n i Q f d)
    (hok : alone → WellFormed t₀ → ∀ w, Q w t₀ → Writable t₀ client n₀ batch →
      ∃ w', f t₀ w = .ok w') :
    Doomed alone t₀ n₀ i client batch d := by
  obtain ⟨w, hd, he⟩ := h
  refine ⟨⟨n, w, hd.mono fun _ _ _ _ => trivial⟩, fun ha hw => ?_⟩
  obtain ⟨e, he⟩ := he ha
  obtain ⟨ht, -⟩ := hd.frame ha
  obtain ⟨w', hw'⟩ := hok ha (ht ▸ hd.inv.tables) w (ht ▸ hd.holds) hw
  rw [he] at hw'
  cases hw'

/-- Writing one revision of the batch with its parents. -/
theorem triple_insertRevision (heff : ∀ t, effect t t) (hK : ∀ w, Lasting (some w) K)
    {done rest : List Revision} {rev : Revision} (hb : batch = done ++ rev :: rest) :
    Triple (sessionEnv alone i effect)
      (Open alone t₀ n₀ i fun w t => Wrote t w done ∧ K t) (insertRevision rev)
      (Ends
        (fun _ => Open alone t₀ n₀ i fun w t => Written t w (done ++ [rev])
          (done.flatMap Revision.parentRows ++ rev.parentRows) done (done.foldl headsAfter []) ∧
            K t)
        fun _ => Doomed alone t₀ n₀ i client batch) := by
  have hrev : rev ∈ batch := by simp [hb]
  have hlast : ∀ (rows : List ParentRow) (w : Writes), Lasting (some w) fun t =>
      Written t w (done ++ [rev]) rows done (done.foldl headsAfter []) ∧ K t :=
    fun rows w => Written.lasting.and (hK w)
  refine Triple.seq (triple_insertRow heff hK rev) (fun _ => ?_) (fun _ => stable_doomed)
    fun e d hd => ?_
  · -- the loop over the rows of the parents
    refine (Triple.forEach (I := fun rows => Open alone t₀ n₀ i fun w t => Written t w
      (done ++ [rev])
        (done.flatMap Revision.parentRows ++ rows) done (done.foldl headsAfter []) ∧ K t)
      (fun rows => stable_open (hlast _)) (fun _ => stable_doomed) (fun rows row rest' hrows => ?_)
      rev.parentRows [] rfl).conseq (fun d hd => by simpa [Ends] using hd) fun _ _ h => h
    rw [List.nil_append] at hrows
    have hrow : row ∈ rev.parentRows := by simp [hrows]
    refine (triple_insertParentRow heff hK row).weaken (fun _ d hd => ?_) fun e d hd => ?_
    · simpa using hd
    · refine Refused.doomed hd fun _ ht w hw hwr => ⟨_, Tables.insertRevisionParent_eq_ok ?_ ?_ ?_⟩
      · obtain ⟨hid, -⟩ := mem_parentRows hrow
        -- the edge is neither stored, nor of an earlier revision, nor inserted twice
        rw [hw.1.revisionParents, hid]
        rintro e he ⟨hre, hpe⟩
        rcases List.mem_append.mp he with he | he
        · obtain ⟨o, hs, -⟩ := ht.parents e he
          exact hwr.fresh rev hrev (hre ▸ hs.stored)
        rcases List.mem_append.mp he with he | he
        · obtain ⟨r, hr, he⟩ := List.mem_flatMap.mp he
          have hids := hwr.ids
          rw [hb, List.map_append, List.nodup_append] at hids
          refine hids.2.2 r.id (List.mem_map_of_mem hr) rev.id (by simp) ?_
          rw [← (mem_parentRows he).1, hre]
        · have hn := hwr.accepts.parents_nodup rev hrev
          rw [← map_parentId_parentRows, hrows, List.map_append, List.nodup_append] at hn
          exact hn.2.2 e.parentId (List.mem_map_of_mem he) row.parentId (by simp) hpe
      · obtain ⟨hid, -⟩ := mem_parentRows hrow
        exact .inr (hw.1.mem_revisions.mpr ⟨rev, by simp, hid.symm⟩)
      · obtain ⟨-, hp⟩ := mem_parentRows hrow
        -- the parent is stored, or has been inserted before
        rcases hwr.accepts.parent_before hb _ hp with hp | ⟨e, he, hid, -⟩
        · exact .inl hp.stored
        · exact .inr (hw.1.mem_revisions.mpr ⟨e, List.mem_append_left _ he, hid⟩)
  · -- of a writable batch the row is accepted: its id is new, and named once
    refine Refused.doomed hd fun _ ht w hw hwr => ⟨_, Tables.insertRevision_eq_ok
      (hwr.storable rev hrev) (row_activeHasData rev) (hwr.fresh rev hrev) (fun r hr hid => ?_)
      (show rev.createdBy ∈ _ from (hwr.accepts.createdBy rev hrev).symm ▸ hwr.registered)⟩
    obtain ⟨e, he, heid⟩ := hw.1.mem_revisions.mp ⟨r, hr, hid⟩
    have hids := hwr.ids
    rw [hb, List.map_append, List.nodup_append] at hids
    exact hids.2.2 e.id (List.mem_map_of_mem he) rev.id (by simp) heid

/-- A revision without parents retires nothing. -/
theorem Written.cut_root {t : Tables} {w : Writes} {revs cut : List Revision}
    {rows : List ParentRow} {hs : List HeadRow} (h : Written t w revs rows cut hs) {rev : Revision}
    (hp : rev.parents = []) :
    Written t w revs rows (cut ++ [rev])
      (hs.filter fun h => ¬(h.objectId = rev.objectId ∧ h.revisionId ∈ rev.parents)) := by
  refine { h with insertedHeads := ?_, cut_rows := ?_, deleted_of := ?_, deleted := ?_ }
  · rw [h.insertedHeads, hp]
    exact (List.filter_eq_self.mpr (by simp)).symm
  · intro r hr
    rcases List.mem_append.mp hr with hr | hr
    · exact h.cut_rows r hr
    · rw [List.mem_singleton.mp hr, Revision.parentRows, hp]
      exact List.nil_subset _
  · intro x hx
    obtain ⟨r, hr, h⟩ := h.deleted_of x hx
    exact ⟨r, List.mem_append_left _ hr, h⟩
  · intro x hx r hr ho hpr
    rcases List.mem_append.mp hr with hr | hr
    · exact h.deleted x hx r hr ho hpr
    · rw [List.mem_singleton.mp hr, hp] at hpr
      cases hpr

/-- Updating the heads for the revision just written. -/
theorem triple_updateHeads (heff : ∀ t, effect t t) (hK : ∀ w, Lasting (some w) K)
    (done : List Revision) (rev : Revision) :
    Triple (sessionEnv alone i effect)
      (Open alone t₀ n₀ i fun w t => Written t w (done ++ [rev])
        (done.flatMap Revision.parentRows ++ rev.parentRows) done (done.foldl headsAfter []) ∧ K t)
      (updateHeads rev.objectId rev.parents rev.id)
      (Ends (fun _ => Open alone t₀ n₀ i fun w t => Wrote t w (done ++ [rev]) ∧ K t)
        fun _ => Doomed alone t₀ n₀ i client batch) := by
  by_cases hids : ((done ++ [rev]).map (·.id)).Nodup
  swap
  · exact fun d ⟨w, hd⟩ => absurd hd.holds.1.ids hids
  -- what both branches come to: the parents are retired, the head is to be inserted
  have htail : Triple (sessionEnv alone i effect)
      (Open alone t₀ n₀ i fun w t => Written t w (done ++ [rev])
        (done.flatMap Revision.parentRows ++ rev.parentRows) (done ++ [rev])
        ((done.foldl headsAfter []).filter fun h =>
          ¬(h.objectId = rev.objectId ∧ h.revisionId ∈ rev.parents)) ∧ K t)
      (.perform (S := sql) (.insertHead ⟨rev.objectId, rev.id⟩))
      (Ends (fun _ => Open alone t₀ n₀ i fun w t => Wrote t w (done ++ [rev]) ∧ K t)
        fun _ => Doomed alone t₀ n₀ i client batch) := by
    refine (triple_insertHead heff hK (by simp) (head_notMem hids _)).weaken (fun _ d hd => ?_)
      fun e d hd => ?_
    · simpa [Wrote, headsAfter] using hd
    · refine Refused.doomed hd fun _ _ w hw _ => Tables.insertHead_eq_ok (.inr ?_)
      exact hw.1.mem_revisions.mpr ⟨rev, by simp, rfl⟩
  rw [updateHeads]
  by_cases hp : rev.parents = []
  swap
  · rw [if_pos (by simpa using hp)]
    refine Triple.seq (triple_deleteHeads heff hK (List.subset_append_right _ _)) (fun _ => htail)
      (fun _ => stable_doomed) fun e d hd => Refused.doomed hd fun _ _ w _ _ => ⟨_, rfl⟩
  · rw [if_neg (by simp [hp])]
    refine Triple.conseq htail (fun d ⟨w, hd⟩ => ⟨w, ?_⟩) fun _ _ h => h
    exact hd.mono fun t _ _ ht => ⟨ht.1.cut_root hp, ht.2⟩

/-- **The loop over the accepted revisions.** -/
theorem triple_writeRevisions (heff : ∀ t, effect t t) (hK : ∀ w, Lasting (some w) K) :
    Triple (sessionEnv alone i effect) (Open alone t₀ n₀ i fun w t => Wrote t w [] ∧ K t)
      (writeRevisions batch)
      (Ends (fun _ => Open alone t₀ n₀ i fun w t => Wrote t w batch ∧ K t)
        fun _ => Doomed alone t₀ n₀ i client batch) := by
  refine Triple.forEach (I := fun done => Open alone t₀ n₀ i fun w t => Wrote t w done ∧ K t)
    (fun done => stable_open fun w => Written.lasting.and (hK w)) (fun _ => stable_doomed)
    (fun done rev rest hb => ?_) batch [] rfl
  exact Triple.seq (triple_insertRevision heff hK hb)
    (fun _ => triple_updateHeads heff hK done rev) (fun _ => stable_doomed) fun _ _ h => h

/-! ### Drawing the transaction and committing -/

/-- The writes of the whole transaction `n`, which lists the revisions `ids`. -/
def Complete (client : ClientId) (batch : List Revision) (n : ℕ) (ids : List RevisionId)
    (w : Writes) (t : Tables) : Prop :=
  ∃ w₀, Wrote t w₀ batch ∧ w = { w₀ with
    transactions := [⟨n, client⟩]
    transactionRevisions := ids.map fun id => ⟨n, id⟩ }

theorem Complete.lasting {n : ℕ} {ids : List RevisionId} (w : Writes) :
    Lasting (some w) (Complete client batch n ids w) := by
  rintro t t' ht ht' hg hown ⟨w₀, hw, rfl⟩
  refine ⟨w₀, Written.lasting t t' ht ht' hg (fun v hv => ?_) hw, rfl⟩
  cases hv
  exact fun row hrow => hown _ rfl row hrow

theorem triple_createTransaction (heff : ∀ t, effect t t) (hK : ∀ w, Lasting (some w) K)
    {ids : List RevisionId} (hids : alone → Writable t₀ client n₀ batch → ids = batch.map (·.id)) :
    Triple (sessionEnv alone i effect) (Open alone t₀ n₀ i fun w t => Wrote t w batch ∧ K t)
      (createTransaction client ids)
      (Ends
        (fun a => Open alone t₀ (n₀ + 1) i fun w t =>
          (Complete client batch a.val ids w t ∧ K t) ∧
            1 ≤ a.val ∧ a.val ≤ i64Max ∧ (alone → a.val = n₀))
        fun _ => Doomed alone t₀ n₀ i client batch) := by
  rw [createTransaction]
  refine Triple.exists_pre fun w => ?_
  refine Triple.seq (triple_insertTransaction heff fun w' hr =>
    (Written.lasting.and (hK w)).congr hr) (fun (n : ℕ) => ?_) (fun _ => stable_doomed) ?_
  swap
  · rintro e d ⟨⟨n, hd⟩, he⟩
    refine ⟨⟨n, w, hd.mono fun _ _ _ _ => trivial⟩, fun ha hwr => ?_⟩
    rcases he ha with h | h
    · exact absurd hwr.nextval (Nat.not_le.mpr h)
    · exact h hwr.registered
  -- the facts about the drawn id do not depend on the state
  by_cases hn : 1 ≤ n ∧ n ≤ i64Max ∧ (alone → n = n₀ ∧ ∀ x ∈ t₀.transactions, x.id < n)
  swap
  · exact fun d hd => absurd hd.holds.2 hn
  have hlast : ∀ listed w, Lasting (some w) fun t => Complete client batch n listed w t ∧ K t :=
    fun listed w => (Complete.lasting w).and (hK w)
  refine Triple.seq (Q := fun _ => Open alone t₀ (n₀ + 1) i fun w t =>
    Complete client batch n ids w t ∧ K t) ?_ (fun _ => ?_) (fun _ => stable_doomed) fun _ _ h => h
  · refine (Triple.forEach (I := fun listed => Open alone t₀ (n₀ + 1) i fun w t =>
      Complete client batch n listed w t ∧ K t) (fun listed => stable_open (hlast listed))
      (fun _ => stable_doomed) (fun listed id rest hall => ?_) ids [] rfl).conseq ?_ fun _ _ h => h
    · refine (triple_write_open heff (f := (·.insertTransactionRevision ⟨n, id⟩))
        ⟨rfl, rfl, fun _ => rfl, fun _ _ => Iff.rfl⟩ (hlast listed)
        (hlast (listed ++ [id])) ?_ ?_).weaken (fun _ _ h => h) fun e d hd => ?_
      · intro d w w' hd ho _ hok
        rw [Tables.insertTransactionRevision_ok hok]
        exact (hd.mayHold ho).congr rfl rfl
      · rintro t w w' - - ⟨⟨w₀, hw, rfl⟩, hk⟩ hok
        rw [Tables.insertTransactionRevision_ok hok]
        exact ⟨⟨w₀, hw, by simp⟩, hk⟩
      · rw [List.nil_append] at hall
        refine Refused.doomed hd fun ha ht w ⟨⟨w₀, hw, hweq⟩, _⟩ hwr => ?_
        have hids := hids ha hwr
        refine ⟨_, Tables.insertTransactionRevision_eq_ok ?_ ?_ ?_⟩
        · -- the id is new to the tables, and the revision to the transaction
          intro hm
          rcases List.mem_append.mp hm with hm | hm
          · obtain ⟨x, hx, hxn, -⟩ := ht.author _ hm
            exact ((hn.2.2 ha).2 x hx).ne hxn
          · rw [hweq] at hm
            have hnd := hwr.ids
            rw [← hids, hall, List.nodup_append] at hnd
            obtain ⟨a, ha, heq⟩ := List.mem_map.mp hm
            cases heq
            exact hnd.2.2 id ha id (by simp) rfl
        · rw [hweq]; exact ⟨⟨n, client⟩, by simp, rfl⟩
        · obtain ⟨e, he, hid⟩ := List.mem_map.mp (show id ∈ batch.map (·.id) by simp [← hids, hall])
          rw [hweq]
          exact hw.mem_revisions.mpr ⟨e, he, hid⟩
    · intro d hd
      refine ⟨_, hd.mono fun t _ _ ht => ⟨⟨w, ht.1.1, ?_⟩, ht.1.2⟩⟩
      simp [ht.1.1.transactions, ht.1.1.transactionRevisions]
  · refine Triple.done (stable_open (hlast ids)) fun d ⟨w, hd⟩ => ⟨w, ?_⟩
    exact hd.mono fun t _ _ ht => ⟨ht, hn.1, hn.2.1, fun ha => (hn.2.2 ha).1⟩

end Batch

/-! ### The commit appends the batch -/

/-- The heads that an admissible batch inserts. -/
theorem mem_foldl_headsAfter {t : Tables} {client : ClientId} {batch : List Revision}
    (ha : Accepts t client batch) (hids : (batch.map (·.id)).Nodup)
    (hfresh : ∀ rev ∈ batch, ¬ t.Stored rev.id) {x : HeadRow} :
    x ∈ batch.foldl headsAfter [] ↔ (∃ rev ∈ batch, x = ⟨rev.objectId, rev.id⟩) ∧
      ∀ rev ∈ batch, ¬(x.objectId = rev.objectId ∧ x.revisionId ∈ rev.parents) := by
  induction ha with
  | nil => simp
  | @snoc acc rev ha hc hn hp ih =>
    have hnd := hids
    rw [List.map_append, List.nodup_append] at hnd
    have ih := ih hnd.1 fun r hr => hfresh r (List.mem_append_left _ hr)
    have hall := ha.snoc hc hn hp
    -- the last revision is nobody's parent
    have hlast : ∀ e ∈ acc ++ [rev], rev.id ∉ e.parents := by
      intro e he hpe
      obtain ⟨before, rest, hsplit⟩ := List.append_of_mem he
      rcases hall.parent_before hsplit _ hpe with hs | ⟨e', he', hid, -⟩
      · exact hfresh rev (by simp) hs.stored
      · have hmem : e' ∈ acc := by
          rcases List.eq_nil_or_concat rest with rfl | ⟨rest, y, rfl⟩
          · rwa [(List.append_inj' hsplit rfl).1]
          · have hsplit : acc ++ [rev] = (before ++ e :: rest) ++ [y] := by simpa using hsplit
            rw [(List.append_inj' hsplit rfl).1]
            exact List.mem_append_left _ he'
        exact hnd.2.2 e'.id (List.mem_map_of_mem hmem) rev.id (by simp) hid
    rw [List.foldl_append, List.foldl_cons, List.foldl_nil, headsAfter, List.mem_append,
      List.mem_filter, ih]
    simp only [decide_eq_true_eq, List.mem_singleton]
    constructor
    · rintro (⟨⟨⟨e, he, rfl⟩, hn⟩, hr⟩ | rfl)
      · refine ⟨⟨e, List.mem_append_left _ he, rfl⟩, fun r hr' => ?_⟩
        rcases List.mem_append.mp hr' with hr' | hr'
        · exact hn r hr'
        · rw [List.mem_singleton.mp hr']; exact hr
      · exact ⟨⟨rev, by simp, rfl⟩, fun e he h => hlast e he h.2⟩
    · rintro ⟨⟨e, he, rfl⟩, hn⟩
      rcases List.mem_append.mp he with he | he
      · exact .inl ⟨⟨⟨e, he, rfl⟩, fun r hr => hn r (List.mem_append_left _ hr)⟩,
          hn rev (by simp)⟩
      · rw [List.mem_singleton.mp he]; exact .inr rfl

/-- **What a commit does**: the whole batch, as one transaction. -/
theorem Complete.appends {t : Tables} {client : ClientId} {batch : List Revision} {n : ℕ}
    {w : Writes} (h : Complete client batch n (batch.map (·.id)) w t) (ht : WellFormed t)
    (ha : Accepts t client batch) (hown : ∀ row ∈ w.revisions, ¬ t.Stored row.id) :
    Appends t (t.view w) client n batch := by
  obtain ⟨w₀, hw, rfl⟩ := h
  have hfresh : ∀ rev ∈ batch, ¬ t.Stored rev.id := by
    intro rev hrev
    obtain ⟨row, hrow, hid⟩ := hw.mem_revisions.mpr ⟨rev, hrev, rfl⟩
    exact hid ▸ hown row hrow
  have hheads : ∀ x ∈ t.objectHeads, x ∈ w₀.deletedHeads ↔
      ∃ rev ∈ batch, x.objectId = rev.objectId ∧ x.revisionId ∈ rev.parents := fun x hx =>
    ⟨hw.deleted_of x, fun ⟨rev, hrev, ho, hp⟩ => hw.deleted x hx rev hrev ho hp⟩
  refine ⟨rfl, ?_, ?_, rfl, ?_, fun x => ?_, ?_⟩
  · simp only [Tables.view, hw.revisions]
  · simp only [Tables.view, hw.revisionParents]
  · simp only [Tables.view, List.map_map, Function.comp_def]
  · simp only [Tables.view, List.mem_append, List.mem_filter, decide_eq_true_eq, hw.insertedHeads,
      mem_foldl_headsAfter ha hw.ids hfresh]
    -- an old head is deleted just when a revision of the batch names it
    constructor
    · rintro (⟨hx, hd⟩ | ⟨hx, hn⟩)
      · refine ⟨.inl hx, fun rev hrev hm => hd ((hheads x hx).mpr ⟨rev, hrev, hm⟩)⟩
      · exact ⟨.inr hx, hn⟩
    · rintro ⟨hx | hx, hn⟩
      · refine .inl ⟨hx, fun hd => ?_⟩
        obtain ⟨rev, hrev, hm⟩ := (hheads x hx).mp hd
        exact hn rev hrev hm
      · exact .inr ⟨hx, hn⟩
  · simp only [Tables.view, hw.insertedHeads]
    rw [List.nodup_append]
    refine ⟨ht.heads_nodup.filter _, ?_, ?_⟩
    · refine (foldl_headsAfter_sublist batch).nodup (List.Nodup.of_map (·.revisionId) ?_)
      simpa [Function.comp_def] using hw.ids
    · rintro x hx y hy rfl
      obtain ⟨⟨rev, hrev, rfl⟩, -⟩ := (mem_foldl_headsAfter ha hw.ids hfresh).mp hy
      exact hfresh rev hrev (ht.head_storedAs (List.mem_filter.mp hx).1).stored

/-! ### The call -/

/-- A push on behalf of `client` has committed `batch` as transaction `n`, or
nothing when the batch is empty, and answers `resp`. -/
structure Pushed (t t' : Tables) (client : ClientId) (n : ℕ) (batch : List Revision)
    (resp : PushResponse) : Prop where
  accepted : resp.accepted = batch.map (·.id)
  commits : (batch = [] ∧ t' = t ∧ resp.transactionId = ⟨0⟩) ∨
    (ValidBatch t client n batch ∧ Appends t t' client n batch ∧ resp.transactionId = ⟨n⟩)

/-- No statement of a push can fail: the ids of the batch are distinct, every value
fits its column, and the client is registered. -/
structure Smooth (t : Tables) (client : ClientId) (n : ℕ) (revisions : List Revision) : Prop where
  ids : (revisions.map (·.id)).Nodup
  storable : ∀ rev ∈ revisions, rev.row.storable = true
  registered : client ∈ t.clients
  nextval : n ≤ i64Max

/-- The effect of a push on the committed tables. -/
def PushEffect (client : ClientId) (revisions : List Revision) (t t' : Tables) : Prop :=
  t' = t ∨ ∃ n batch, batch.Sublist revisions ∧ ValidBatch t client n batch ∧
    Appends t t' client n batch

/-- What holds when a push has returned. -/
def PushPost (alone : Prop) (t₀ : Tables) (n₀ i : ℕ) (client : ClientId)
    (revisions : List Revision) : Except ServerError PushResponse → Db → Prop :=
  Ends
    (fun resp d => (DbInv d ∧ d.opened i = none) ∧
      (resp.accepted ++ resp.rejected.map (·.revisionId)).Perm (revisions.map (·.id)) ∧
      ∃ t t' n batch, batch.Sublist revisions ∧ WellFormed t ∧ Pushed t t' client n batch resp ∧
        Grows t' d.tables ∧ (alone → t = t₀ ∧ n = n₀ ∧ d.tables = t'))
    fun _ d => (DbInv d ∧ d.opened i = none) ∧
      (alone → d.tables = t₀ ∧ ¬ Smooth t₀ client n₀ revisions)

section Call

variable {alone : Prop} {t₀ : Tables} {n₀ i : ℕ} {effect : Tables → Tables → Prop}

/-- What holds after an error: the transaction is gone, and for one session alone
nothing has changed. -/
abbrev Failed (alone : Prop) (t₀ : Tables) (i : ℕ) (X : Prop) (d : Db) : Prop :=
  (DbInv d ∧ d.opened i = none) ∧ (alone → d.tables = t₀ ∧ X)

theorem stable_failed {X : Prop} : Stable (sessionEnv alone i effect) (Failed alone t₀ i X) := by
  rintro d d' ⟨hal, hr⟩ ⟨⟨hinv, ho⟩, h⟩
  exact ⟨⟨(hr hinv).1, (hr hinv).2.2.trans ho⟩, fun ha => hal ha ▸ h ha⟩

theorem At.failed {n : ℕ} {X : Prop} {P : Tables → Prop} {d : Db}
    (h : At alone t₀ n i none P d) (hX : alone → X) : Failed alone t₀ i X d :=
  ⟨⟨h.inv, h.opened⟩, fun ha => ⟨(h.frame ha).1, hX ha⟩⟩

/-- **The rule for a transaction.** -/
theorem triple_inTransaction (heff : ∀ t, effect t t) {α : Type} {body : Sql α}
    {P : Tables → Prop} (hP : Lasting none P) {Q Q' : α → Db → Prop} {X : Prop}
    (hbody : Triple (sessionEnv alone i effect) (At alone t₀ n₀ i (some {}) P) body
      (Ends Q fun _ d => (∃ n, Open alone t₀ n i (fun _ _ => True) d) ∧ (alone → X)))
    (hcommit : ∀ a, Triple (sessionEnv alone i effect) (Q a) (.perform (S := sql) .commit)
      (Ends (fun _ => Q' a) fun _ d => DbInv d ∧ d.opened i = none ∧ ¬ alone))
    (hQ : ∀ a, Stable (sessionEnv alone i effect) (Q a))
    (hQ' : ∀ a, Stable (sessionEnv alone i effect) (Q' a)) :
    Triple (sessionEnv alone i effect) (At alone t₀ n₀ i none P) (inTransaction body)
      (Ends Q' fun _ => Failed alone t₀ i X) := by
  refine Triple.seq (triple_begin heff hP) (fun _ => ?_) (fun _ => stable_failed)
    fun e d hd => hd.1.failed fun ha => absurd ha hd.2
  refine Triple.seq (Triple.orElse hbody (fun e => ?_) hQ fun _ => stable_failed) (fun a => ?_)
    (fun _ => stable_failed) fun _ _ h => h
  · -- whatever was written is given up
    by_cases hX : alone → X
    · refine Triple.conseq (P := fun d => ∃ n w, At alone t₀ n i (some w) (fun _ => True) d)
        (Triple.exists_pre fun n => Triple.exists_pre fun w =>
          (triple_rollback heff (.const _) (.const _)).conseq (fun _ h => h)
            fun _ d hd => hd.failed hX) (fun d hd => hd.1) fun _ _ h => h
    · exact fun d hd => absurd hd.2 hX
  · refine Triple.seq (hcommit a) (fun _ => Triple.done (hQ' a) fun _ h => h)
      (fun _ => stable_failed) fun e d hd => ⟨⟨hd.1, hd.2.1⟩, fun ha => absurd ha hd.2.2⟩

/-- An entry is chosen by its id, so nothing else is chosen when no id is chosen twice. -/
theorem filter_ids_eq {revisions acc : List Revision} {p : Revision → Bool}
    (hsub : acc.Sublist revisions) (hp : ∀ r, p r = true ↔ ∃ e ∈ acc, e.id = r.id)
    (hn : ((revisions.filter p).map (·.id)).Nodup) : revisions.filter p = acc := by
  have hacc : acc.filter p = acc := List.filter_eq_self.mpr fun a ha => (hp a).mpr ⟨a, ha, rfl⟩
  have hfsub : acc.Sublist (revisions.filter p) := hacc ▸ hsub.filter p
  have hids : (revisions.filter p).map (·.id) ⊆ acc.map (·.id) := by
    intro r hr
    obtain ⟨e, he, rfl⟩ := List.mem_map.mp hr
    obtain ⟨rev, hrev, hid⟩ := (hp e).mp (List.mem_filter.mp he).2
    exact hid ▸ List.mem_map_of_mem hrev
  exact (hfsub.eq_of_length_le (by simpa using (hn.subperm hids).length_le)).symm

/-- What is selected for writing is what was accepted, unless an id occurs twice. -/
theorem Checked.selected {t : Tables} {client : ClientId} {revisions acc : List Revision}
    {st : PushState} (h : Checked t client revisions st acc)
    (hn : ((revisions.filter fun r => r.id ∈ st.acceptedIds).map (·.id)).Nodup) :
    revisions.filter (fun r => r.id ∈ st.acceptedIds) = acc := by
  refine filter_ids_eq h.sublist (fun r => ?_) hn
  rw [decide_eq_true_iff, h.acceptedIds]

theorem Wrote.empty (t : Tables) : Wrote t {} [] :=
  ⟨rfl, rfl, rfl, rfl, rfl, by simp, by simp, by simp, by simp, by simp, by simp⟩

/-- What a session knows of the tables once it has committed `batch` as transaction
`n` with the writes `w`. -/
def Committed (alone : Prop) (t₀ : Tables) (client : ClientId) (batch : List Revision) (n : ℕ)
    (w : Writes) (t' : Tables) : Prop :=
  ∃ t, (alone → t = t₀) ∧ WellFormed t ∧ ValidBatch t client n batch ∧
    Appends t (t.view w) client n batch ∧ Grows (t.view w) t'

/-- Everything is written, as transaction `a`. -/
abbrev AllWritten (alone : Prop) (t₀ : Tables) (n₀ i : ℕ) (client : ClientId)
    (revisions acc : List Revision) (st : PushState) (a : TransactionId) : Db → Prop :=
  Open alone t₀ (n₀ + 1) i fun w t =>
    (Complete client (revisions.filter fun r => r.id ∈ st.acceptedIds) a.val st.accepted w t ∧
      Checked t client revisions st acc) ∧ 1 ≤ a.val ∧ a.val ≤ i64Max ∧ (alone → a.val = n₀)

/-- The accepted revisions are committed as transaction `a`. -/
abbrev AllCommitted (alone : Prop) (t₀ : Tables) (n₀ i : ℕ) (client : ClientId)
    (acc : List Revision) (a : TransactionId) (d : Db) : Prop :=
  ∃ w, At alone (t₀.view w) (n₀ + 1) i none
    (fun t => Committed alone t₀ client acc a.val w t ∧ (alone → a.val = n₀)) d

theorem Committed.lasting {client : ClientId} {acc : List Revision} {n : ℕ} {w : Writes} {X : Prop}
    {tx : Option Writes} : Lasting tx fun t => Committed alone t₀ client acc n w t ∧ X := by
  refine Lasting.and (lasting_of_grows ?_) (.const _)
  rintro t t' hg ⟨t₁, h₁, h₂, h₃, h₄, h₅⟩
  exact ⟨t₁, h₁, h₂, h₃, h₄, h₅.trans hg⟩

/-- Committing the accepted revisions. -/
theorem triple_commit_accepted {client : ClientId} {revisions acc : List Revision}
    {st : PushState} (hne : acc ≠ []) (hsub : acc.Sublist revisions) (a : TransactionId) :
    Triple (sessionEnv alone i (PushEffect client revisions))
      (AllWritten alone t₀ n₀ i client revisions acc st a) (.perform (S := sql) .commit)
      (Ends (fun _ => AllCommitted alone t₀ n₀ i client acc a)
        fun _ d => DbInv d ∧ d.opened i = none ∧ ¬ alone) := by
  refine Triple.exists_pre fun w => ?_
  refine (triple_commit (fun t => .inl rfl) (((Complete.lasting w).and (lasting_of_grows
    fun t t' hg h => h.grows hg)).and (.const _)) Committed.lasting fun d hd => ?_).weaken
    (fun _ d hd => ⟨w, hd⟩) fun _ _ h => h
  obtain ⟨⟨hcm, hck⟩, hpos, hmax, hn⟩ := hd.holds
  have hids := hcm.choose_spec.1.ids
  rw [hck.selected hids, hck.accepted] at hcm
  rw [hck.selected hids] at hids
  have hown := hd.inv.opened_fresh hd.opened
  have ha := hcm.appends hd.inv.tables hck.accepts hown
  have hv : ValidBatch d.tables client a.val acc := by
    obtain ⟨w₀, hw, rfl⟩ := hcm
    refine ⟨hne, hids, fun rev hrev => ?_, hw.storable, hck.accepts, ?_, hpos, hmax⟩
    · obtain ⟨row, hrow, hid⟩ := hw.mem_revisions.mpr ⟨rev, hrev, rfl⟩
      exact hid ▸ hown row hrow
    · exact hd.inv.draws_fresh i a.val ⟨_, hd.opened, ⟨a.val, client⟩, by simp, rfl⟩
  refine ⟨hd.inv.tables.appends hv ha, .inr ⟨a.val, acc, hsub, hv, ha⟩, ⟨?_, hn⟩⟩
  exact ⟨d.tables, fun hal => (hd.frame hal).1, hd.inv.tables, hv, ha, .refl _⟩

/-- **What a push does, among any others**: it commits the whole of what it accepted
as one transaction, or nothing. -/
theorem triple_pushRevisions (client : ClientId) (revisions : List Revision) :
    Triple (sessionEnv alone i (PushEffect client revisions))
      (At alone t₀ n₀ i none fun _ => True) (pushRevisions client revisions)
      (PushPost alone t₀ n₀ i client revisions) := by
  have heff : ∀ t, PushEffect client revisions t t := fun t => .inl rfl
  refine Triple.seq ((triple_validate heff revisions [] [] {} fun _ => nofun).conseq
    (fun d hd => hd.mono fun t _ _ _ => Checked.nil t client) fun _ _ h => h) (fun st => ?_)
    (fun _ => stable_failed) fun e d hd => hd.1.failed fun ha => absurd ha hd.2
  refine Triple.exists_pre fun acc => ?_
  -- what does not depend on the tables is known once and for all
  by_cases hst : (∃ t, Checked t client revisions st acc) ∧
      (alone → Checked t₀ client revisions st acc ∧ ∀ rev ∈ acc, ¬ t₀.Stored rev.id)
  swap
  · refine fun d hd => absurd ⟨⟨_, hd.2.holds⟩, fun ha => ⟨?_, hd.1 ha⟩⟩ hst
    exact (hd.2.frame ha).1 ▸ hd.2.holds
  obtain ⟨⟨t₁, hck⟩, hal⟩ := hst
  have hlast : ∀ tx, Lasting tx fun t => Checked t client revisions st acc := fun tx =>
    lasting_of_grows fun t t' hg h => h.grows hg
  refine Triple.conseq (P := At alone t₀ n₀ i none fun t => Checked t client revisions st acc) ?_
    (fun d hd => hd.2) fun _ _ h => h
  by_cases hempty : (revisions.filter fun r => r.id ∈ st.acceptedIds).isEmpty = true
  · rw [if_pos hempty]
    refine Triple.done (stable_at (hlast _)) fun d hd => ?_
    have hacc : acc = [] := by
      rw [← hck.selected (by simp [List.isEmpty_iff.mp hempty]), List.isEmpty_iff.mp hempty]
    refine ⟨⟨hd.inv, hd.opened⟩, hck.reported, d.tables, d.tables, n₀, [], List.nil_sublist _,
      hd.inv.tables, ⟨by rw [hck.accepted, hacc], .inl ⟨rfl, rfl, rfl⟩⟩, .refl _, fun ha => ?_⟩
    exact ⟨(hd.frame ha).1, rfl, rfl⟩
  · rw [if_neg hempty]
    have hK : ∀ w, Lasting (some w) fun t => Checked t client revisions st acc :=
      fun w => hlast (some w)
    have hne : acc ≠ [] := by
      rintro rfl
      refine hempty (List.isEmpty_iff.mpr (List.filter_eq_nil_iff.mpr fun r _ hr => ?_))
      simpa using (hck.acceptedIds r.id).mp (of_decide_eq_true hr)
    have hsel : Writable t₀ client n₀ (revisions.filter fun r => r.id ∈ st.acceptedIds) →
        st.accepted = (revisions.filter fun r => r.id ∈ st.acceptedIds).map (·.id) := by
      intro hwr
      rw [hck.selected hwr.ids, hck.accepted]
    have hbody : Triple (sessionEnv alone i (PushEffect client revisions))
        (At alone t₀ n₀ i (some {}) fun t => Checked t client revisions st acc)
        (do
          writeRevisions (revisions.filter fun r => r.id ∈ st.acceptedIds)
          createTransaction client st.accepted)
        (Ends (AllWritten alone t₀ n₀ i client revisions acc st)
          fun _ => Doomed alone t₀ n₀ i client (revisions.filter fun r => r.id ∈ st.acceptedIds)) :=
      Triple.seq ((triple_writeRevisions heff hK).conseq
        (fun d hd => ⟨{}, hd.mono fun t _ _ ht => ⟨Wrote.empty t, ht⟩⟩) fun _ _ h => h)
        (fun _ => triple_createTransaction heff hK fun _ => hsel) (fun _ => stable_doomed)
        fun _ _ h => h
    refine Triple.seq (triple_inTransaction heff (hlast none) hbody
      (triple_commit_accepted hne hck.sublist) (fun a => stable_open fun w => ?_)
      fun a => ?_) (fun a => ?_) (fun _ => stable_failed) fun e d hd => ?_
    · exact ((Complete.lasting w).and (hK w)).and (.const _)
    · rintro d d' hr ⟨w, hd⟩
      exact ⟨w, stable_at Committed.lasting d d' hr hd⟩
    · refine Triple.exists_pre fun w => ?_
      refine Triple.done (stable_at Committed.lasting) fun d hd => ?_
      obtain ⟨⟨t, ht, hwf, hv, ha, hg⟩, hn⟩ := hd.holds
      refine ⟨⟨hd.inv, hd.opened⟩, hck.reported, t, t.view w, a.val, acc, hck.sublist, hwf,
        ⟨hck.accepted, .inr ⟨hv, ha, rfl⟩⟩, hg, fun hal => ?_⟩
      exact ⟨ht hal, hn hal, by rw [ht hal]; exact (hd.frame hal).1⟩
    · refine ⟨hd.1, fun ha => ⟨(hd.2 ha).1, fun hsm => (hd.2 ha).2 ?_⟩⟩
      have hids : ((revisions.filter fun r => r.id ∈ st.acceptedIds).map (·.id)).Nodup :=
        hsm.ids.sublist (List.filter_sublist.map _)
      have hsel := hck.selected hids
      rw [hsel] at hids ⊢
      exact ⟨hids, (hal ha).2, (hal ha).1.accepts,
        fun rev hrev => hsm.storable rev (hck.sublist.subset hrev), hsm.registered, hsm.nextval⟩

end Call

end Rustend
