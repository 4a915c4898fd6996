import Rustend.Server.PushSafe

/-!
# Scanning a batch

The checks of a push read the database and what was accepted so far, and write nothing,
so for a session that runs alone they are a function of the tables and the batch.  The
rule behind them refers to the entries accepted earlier; the code keeps one object for
each accepted id instead, which is the same as long as no id is accepted twice.

## Main definitions

* `verdict`, `PushState.check` — the checks of one entry as a function.
* `Admits`, `sieve` — the rule, and the entries that it accepts and refuses.
* `Tracks` — the collected state describes the accepted entries.

## Main results

* `run_validate` — **the checks are the function.**
* `verdict_eq_none_iff` — the function follows the rule.
* `check_sieve` — **the code accepts what the rule accepts**, or both accept an id twice.
-/

namespace Rustend

open Interleave

/-! ### The checks as a function -/

/-- The object of a parent, as the checks find it. -/
def PushState.objectOf (st : PushState) (t : Tables) (parent : RevisionId) : Option ObjectId :=
  match st.acceptedObjects parent with
  | some oid => some oid
  | none => (t.revisions.find? (·.id = parent)).map (·.objectId)

/-- The reason to reject an entry for one of its parents. -/
def parentVerdict (t : Tables) (st : PushState) (rev : Revision) (parent : RevisionId) :
    Option RejectionReason :=
  match st.objectOf t parent with
  | none => some .unknownParent
  | some oid => if oid ≠ rev.objectId then some .malformedData else none

/-- The reason to reject an entry. -/
def verdict (t : Tables) (client : ClientId) (st : PushState) (rev : Revision) :
    Option RejectionReason :=
  if rev.createdBy ≠ client then some .malformedData
  else if t.Stored rev.id then some .duplicateRevisionId
  else if ¬ rev.parents.Nodup then some .malformedData
  else rev.parents.findSome? (parentVerdict t st rev)

/-- The state after an entry has been checked. -/
def PushState.check (t : Tables) (client : ClientId) (st : PushState) (rev : Revision) :
    PushState :=
  match verdict t client st rev with
  | some reason => st.reject rev reason
  | none => st.accept rev

section Run

variable {client : ClientId}

theorem run_parentObjectId (st : PushState) (p : RevisionId) (c : Conn) :
    (parentObjectId st p).run Stmt.eval c = (.ok (st.objectOf c.tables p), c) := by
  unfold parentObjectId PushState.objectOf
  cases st.acceptedObjects p with
  | some oid => rfl
  | none => rfl

theorem run_checkParents (st : PushState) (rev : Revision) (c : Conn) :
    ∀ parents : List RevisionId, (checkParents st rev parents).run Stmt.eval c =
      (.ok (parents.findSome? (parentVerdict c.tables st rev)), c)
  | [] => rfl
  | p :: rest => by
    rw [checkParents, Program.run_bind_ok _ _ (run_parentObjectId st p c), List.findSome?_cons]
    unfold parentVerdict
    cases st.objectOf c.tables p with
    | none => rfl
    | some oid =>
      dsimp only
      split
      · rfl
      · exact run_checkParents st rev c rest

theorem dedup_length_ne_iff {α : Type} [DecidableEq α] (l : List α) :
    l.dedup.length ≠ l.length ↔ ¬ l.Nodup := by
  rw [not_iff_not]
  constructor
  · intro h
    rw [← (List.dedup_sublist l).eq_of_length h]
    exact List.nodup_dedup l
  · intro h
    rw [h.dedup]

theorem run_checkRevision (st : PushState) (rev : Revision) (c : Conn) :
    (checkRevision client st rev).run Stmt.eval c = (.ok (verdict c.tables client st rev), c) := by
  unfold checkRevision verdict
  split
  · rfl
  · have hexists : (revisionExists rev.id).run Stmt.eval c =
        (.ok (decide (c.tables.Stored rev.id)), c) := by
      rw [revisionExists, Program.run_perform, Stmt.eval]
      congr 2
      rw [Bool.eq_iff_iff, List.any_eq_true, decide_eq_true_iff]
      simp only [decide_eq_true_eq]
      exact Iff.rfl
    rw [Program.run_bind_ok _ _ hexists]
    by_cases hstored : c.tables.Stored rev.id
    · rw [if_pos (decide_eq_true hstored), if_pos hstored]
      rfl
    · rw [if_neg (by simpa using hstored), if_neg hstored]
      by_cases hnodup : rev.parents.Nodup
      · rw [if_neg (mt (dedup_length_ne_iff _).mp (not_not.mpr hnodup)),
          if_neg (not_not.mpr hnodup)]
        exact run_checkParents st rev c rev.parents
      · rw [if_pos ((dedup_length_ne_iff _).mpr hnodup), if_pos hnodup]
        rfl

/-- **The loop over the batch is a fold of the checks**, and leaves the connection as it
was. -/
theorem run_validate (client : ClientId) (c : Conn) :
    ∀ (revisions : List Revision) (st : PushState),
    (validate client st revisions).run Stmt.eval c =
      (.ok (revisions.foldl (PushState.check c.tables client) st), c)
  | [], _ => rfl
  | rev :: revisions, st => by
    rw [validate, Program.run_bind_ok _ _ (run_checkRevision st rev c), List.foldl_cons]
    have hstep : PushState.check c.tables client st rev =
        match verdict c.tables client st rev with
        | some reason => st.reject rev reason
        | none => st.accept rev := rfl
    rw [hstep]
    cases verdict c.tables client st rev with
    | some reason => exact run_validate client c revisions (st.reject rev reason)
    | none => exact run_validate client c revisions (st.accept rev)

end Run

/-! ### The rule -/

/-- An entry may be accepted after the entries `acc`. -/
structure Admits (t : Tables) (client : ClientId) (acc : List Revision) (rev : Revision) :
    Prop where
  createdBy : rev.createdBy = client
  fresh : ¬ t.Stored rev.id
  nodup : rev.parents.Nodup
  known : ∀ p ∈ rev.parents, KnownParent t acc rev.objectId p

instance (t : Tables) (acc : List Revision) (o : ObjectId) (p : RevisionId) :
    Decidable (KnownParent t acc o p) :=
  inferInstanceAs (Decidable (t.StoredAs p o ∨ ∃ e ∈ acc, e.id = p ∧ e.objectId = o))

instance (t : Tables) (client : ClientId) (acc : List Revision) (rev : Revision) :
    Decidable (Admits t client acc rev) :=
  decidable_of_iff (rev.createdBy = client ∧ ¬ t.Stored rev.id ∧ rev.parents.Nodup ∧
      ∀ p ∈ rev.parents, KnownParent t acc rev.objectId p)
    ⟨fun ⟨h₁, h₂, h₃, h₄⟩ => ⟨h₁, h₂, h₃, h₄⟩, fun h => ⟨h.1, h.2, h.3, h.4⟩⟩

/-- What becomes of one entry, given those accepted and refused before it. -/
def sieveStep (t : Tables) (client : ClientId) (s : List Revision × List Revision)
    (rev : Revision) : List Revision × List Revision :=
  if Admits t client s.1 rev then (s.1 ++ [rev], s.2) else (s.1, s.2 ++ [rev])

/-- The entries that are accepted, and those that are refused, from left to right. -/
def sieve (t : Tables) (client : ClientId) (revisions : List Revision) :
    List Revision × List Revision := revisions.foldl (sieveStep t client) ([], [])

/-- The rule does not look at the registered clients. -/
theorem sieve_withClients (t : Tables) (clients : List ClientId) (client : ClientId)
    (revisions : List Revision) :
    sieve { t with clients := clients } client revisions = sieve t client revisions := by
  have hstep : sieveStep { t with clients := clients } client = sieveStep t client := by
    funext s rev
    refine if_congr ?_ rfl rfl
    exact ⟨fun h => ⟨h.createdBy, h.fresh, h.nodup, h.known⟩,
      fun h => ⟨h.createdBy, h.fresh, h.nodup, h.known⟩⟩
  rw [sieve, hstep, ← sieve]

/-- The collected objects are those of the entries in `acc`. -/
structure Tracks (st : PushState) (acc : List Revision) : Prop where
  known : ∀ e ∈ acc, st.acceptedObjects e.id = some e.objectId
  unknown : ∀ r, (∀ e ∈ acc, e.id ≠ r) → st.acceptedObjects r = none

theorem Tracks.accept {st : PushState} {acc : List Revision} {rev : Revision} (h : Tracks st acc)
    (hnew : ∀ e ∈ acc, e.id ≠ rev.id) : Tracks (st.accept rev) (acc ++ [rev]) where
  known e he := by
    simp only [PushState.accept, Function.update_apply]
    rcases List.mem_append.mp he with he | he
    · rw [if_neg (hnew e he), h.known e he]
    · rw [List.mem_singleton.mp he, if_pos rfl]
  unknown r hr := by
    have hne : r ≠ rev.id := fun heq => hr rev (by simp) heq.symm
    simp only [PushState.accept, Function.update_apply]
    rw [if_neg hne]
    exact h.unknown r fun e he => hr e (List.mem_append_left _ he)

section Rule

variable {t : Tables} {st : PushState} {acc : List Revision} {client : ClientId}

/-- **The checks find the object that the rule asks for.** -/
theorem objectOf_eq_some_iff (h : WellFormed t) (hst : Tracks st acc)
    (hfresh : ∀ e ∈ acc, ¬ t.Stored e.id) {p : RevisionId} {o : ObjectId} :
    st.objectOf t p = some o ↔ KnownParent t acc o p := by
  unfold PushState.objectOf KnownParent
  by_cases hacc : ∃ e ∈ acc, e.id = p
  · obtain ⟨e, he, rfl⟩ := hacc
    rw [hst.known e he, or_iff_right fun hs => hfresh e he hs.stored, Option.some.injEq]
    constructor
    · rintro rfl
      exact ⟨e, he, rfl, rfl⟩
    · rintro ⟨e', he', hid, rfl⟩
      have hsame := hst.known e' he'
      rw [hid, hst.known e he] at hsame
      exact Option.some.inj hsame
  · push Not at hacc
    rw [hst.unknown p hacc, or_iff_left fun ⟨e, he, hid, _⟩ => hacc e he hid]
    dsimp only
    rw [Option.map_eq_some_iff]
    constructor
    · intro ⟨row, hfind, hobj⟩
      exact ⟨row, List.mem_of_find?_eq_some hfind, by simpa using List.find?_some hfind, hobj⟩
    · intro ⟨row, hrow, hid, hobj⟩
      cases hfind : t.revisions.find? (·.id = p) with
      | none => exact absurd hid (by simpa using List.find?_eq_none.mp hfind row hrow)
      | some row' =>
        have hid' : row'.id = p := by simpa using List.find?_some hfind
        rw [h.row_unique (List.mem_of_find?_eq_some hfind) hrow (hid'.trans hid.symm)]
        exact ⟨row, rfl, hobj⟩

/-- **The checks follow the rule.** -/
theorem verdict_eq_none_iff (h : WellFormed t) (hst : Tracks st acc)
    (hfresh : ∀ e ∈ acc, ¬ t.Stored e.id) {rev : Revision} :
    verdict t client st rev = none ↔ Admits t client acc rev := by
  have hparent : ∀ p, parentVerdict t st rev p = none ↔ KnownParent t acc rev.objectId p := by
    intro p
    rw [← objectOf_eq_some_iff h hst hfresh]
    unfold parentVerdict
    cases st.objectOf t p with
    | none => simp
    | some oid => simp
  unfold verdict
  split
  · next hby => exact iff_of_false nofun fun ha => hby ha.createdBy
  · next hby =>
    split
    · next hs => exact iff_of_false nofun fun ha => ha.fresh hs
    · next hs =>
      split
      · next hn => exact iff_of_false nofun fun ha => hn ha.nodup
      · next hn =>
        rw [List.findSome?_eq_none_iff]
        constructor
        · intro hall
          exact ⟨not_not.mp hby, hs, not_not.mp hn, fun p hp => (hparent p).mp (hall p hp)⟩
        · intro ha p hp
          exact (hparent p).mpr (ha.known p hp)

/-- The collected state describes the entries that the rule has accepted and refused. -/
structure Agrees (t : Tables) (st : PushState) (s : List Revision × List Revision) : Prop where
  tracks : Tracks st s.1
  fresh : ∀ e ∈ s.1, ¬ t.Stored e.id
  accepted : st.accepted = s.1.map (·.id)
  acceptedIds : ∀ r, r ∈ st.acceptedIds ↔ ∃ e ∈ s.1, e.id = r
  rejected : st.rejected.map (·.revisionId) = s.2.map (·.id)

theorem Agrees.nil (t : Tables) : Agrees t {} ([], []) :=
  ⟨⟨nofun, fun _ _ => rfl⟩, nofun, rfl, by simp, rfl⟩

theorem Agrees.reject {s : List Revision × List Revision} (h : Agrees t st s) (rev : Revision)
    (reason : RejectionReason) : Agrees t (st.reject rev reason) (s.1, s.2 ++ [rev]) where
  tracks := ⟨h.tracks.known, h.tracks.unknown⟩
  fresh := h.fresh
  accepted := h.accepted
  acceptedIds := h.acceptedIds
  rejected := by simp [PushState.reject, h.rejected]

theorem Agrees.accept {s : List Revision × List Revision} (h : Agrees t st s) {rev : Revision}
    (hfresh : ¬ t.Stored rev.id) (hnew : ∀ e ∈ s.1, e.id ≠ rev.id) :
    Agrees t (st.accept rev) (s.1 ++ [rev], s.2) where
  tracks := h.tracks.accept hnew
  fresh e he := by
    rcases List.mem_append.mp he with he | he
    · exact h.fresh e he
    · rwa [List.mem_singleton.mp he]
  accepted := by simp [PushState.accept, h.accepted]
  acceptedIds r := by
    simp only [PushState.accept, List.mem_cons, h.acceptedIds, List.mem_append, List.not_mem_nil,
      or_false, or_and_right, exists_or, exists_eq_left]
    rw [or_comm, eq_comm]
  rejected := h.rejected

/-- Ids once accepted stay accepted. -/
theorem accepted_initial (t : Tables) (client : ClientId) :
    ∀ (todo : List Revision) (st : PushState),
    st.accepted <+: (todo.foldl (PushState.check t client) st).accepted
  | [], _ => List.prefix_refl _
  | rev :: todo, st => by
    refine List.IsPrefix.trans ?_ (accepted_initial t client todo (st.check t client rev))
    unfold PushState.check
    split
    · exact List.prefix_refl _
    · exact List.prefix_append _ _

theorem sieve_initial (t : Tables) (client : ClientId) : ∀ (todo : List Revision)
    (s : List Revision × List Revision), s.1 <+: (todo.foldl (sieveStep t client) s).1
  | [], _ => List.prefix_refl _
  | rev :: todo, s => by
    refine List.IsPrefix.trans ?_ (sieve_initial t client todo (sieveStep t client s rev))
    unfold sieveStep
    split
    · exact List.prefix_append _ _
    · exact List.prefix_refl _

/-- **The code accepts what the rule accepts, or both accept an id twice.**  The induction
is over what is still to be checked; once an id has been accepted twice, the collected
objects may differ from those of the entries, and nothing is claimed about the rest. -/
theorem check_sieve (h : WellFormed t) (client : ClientId) :
    ∀ (todo : List Revision) {st : PushState}
    {s : List Revision × List Revision}, Agrees t st s →
    Agrees t (todo.foldl (PushState.check t client) st) (todo.foldl (sieveStep t client) s) ∨
      ¬ (todo.foldl (PushState.check t client) st).accepted.Nodup ∧
        ¬ ((todo.foldl (sieveStep t client) s).1.map (·.id)).Nodup
  | [], _, _, ha => .inl ha
  | rev :: todo, st, s, ha => by
    have hverdict : verdict t client st rev = none ↔ Admits t client s.1 rev :=
      verdict_eq_none_iff h ha.tracks ha.fresh
    rw [List.foldl_cons, List.foldl_cons]
    by_cases hadmits : Admits t client s.1 rev
    · have hcheck : st.check t client rev = st.accept rev := by
        unfold PushState.check
        rw [hverdict.mpr hadmits]
      have hstep : sieveStep t client s rev = (s.1 ++ [rev], s.2) := if_pos hadmits
      rw [hcheck, hstep]
      by_cases hnew : ∀ e ∈ s.1, e.id ≠ rev.id
      · exact check_sieve h client todo (ha.accept hadmits.fresh hnew)
      · -- this id has been accepted before
        right
        have hdup : ¬ ((s.1 ++ [rev]).map (·.id)).Nodup := by
          rw [List.map_append, List.map_singleton, List.nodup_append]
          intro ⟨_, _, hdisj⟩
          apply hnew
          intro e he
          exact hdisj e.id (List.mem_map_of_mem he) rev.id (List.mem_singleton_self _)
        constructor
        · intro hn
          apply hdup
          have hacc : (st.accept rev).accepted = (s.1 ++ [rev]).map (·.id) := by
            simp [PushState.accept, ha.accepted]
          rw [← hacc]
          exact hn.sublist (accepted_initial t client todo (st.accept rev)).sublist
        · intro hn
          exact hdup (hn.sublist ((sieve_initial t client todo (s.1 ++ [rev], s.2)).sublist.map _))
    · -- both refuse the entry
      have hstep : sieveStep t client s rev = (s.1, s.2 ++ [rev]) := if_neg hadmits
      rw [hstep]
      cases hv : verdict t client st rev with
      | none => exact absurd (hverdict.mp hv) hadmits
      | some reason =>
        have hcheck : st.check t client rev = st.reject rev reason := by
          unfold PushState.check
          rw [hv]
        rw [hcheck]
        exact check_sieve h client todo (ha.reject rev reason)

/-- Every entry is accepted or refused. -/
theorem sieve_perm (t : Tables) (client : ClientId) : ∀ (todo : List Revision)
    (s : List Revision × List Revision), ((todo.foldl (sieveStep t client) s).1 ++
      (todo.foldl (sieveStep t client) s).2).Perm (s.1 ++ s.2 ++ todo)
  | [], s => by simp
  | rev :: todo, s => by
    refine (sieve_perm t client todo (sieveStep t client s rev)).trans ?_
    unfold sieveStep
    split
    · have hmove : (s.1 ++ [rev] ++ s.2).Perm (s.1 ++ s.2 ++ [rev]) := by
        rw [List.append_assoc, List.append_assoc]
        exact List.perm_append_comm.append_left _
      have hall := hmove.append_right todo
      rwa [List.append_assoc (s.1 ++ s.2)] at hall
    · dsimp only
      rw [← List.append_assoc, List.append_assoc (s.1 ++ s.2)]
      exact .refl _

/-- The accepted entries in the order of the batch. -/
theorem sieve_sublist (t : Tables) (client : ClientId) : ∀ (todo done : List Revision)
    (s : List Revision × List Revision), s.1.Sublist done →
    (todo.foldl (sieveStep t client) s).1.Sublist (done ++ todo)
  | [], done, s, h => by simpa using h
  | rev :: todo, done, s, h => by
    have hrest := sieve_sublist t client todo (done ++ [rev]) (sieveStep t client s rev)
    rw [List.append_assoc] at hrest
    apply hrest
    unfold sieveStep
    split
    · exact h.append (.refl _)
    · exact h.trans (List.sublist_append_left _ _)

/-- The rule accepts the whole of an admissible batch. -/
theorem sieve_of_accepts {batch : List Revision} (ha : Accepts t client batch)
    (hfresh : ∀ rev ∈ batch, ¬ t.Stored rev.id) : sieve t client batch = (batch, []) := by
  induction ha with
  | nil => rfl
  | @snoc acc rev _ hby hn hp ih =>
    have hacc : acc.foldl (sieveStep t client) ([], []) = (acc, []) :=
      ih fun e he => hfresh e (List.mem_append_left _ he)
    rw [sieve, List.foldl_append, hacc, List.foldl_cons, List.foldl_nil]
    exact if_pos ⟨hby, hfresh rev (by simp), hn, hp⟩

end Rule

end Rustend
