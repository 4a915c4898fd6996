import Rustend.Server.Changes

/-!
# What the server keeps

A push that has been answered stays answered: the revisions it acknowledged are stored as
they were sent, and no commit of any session takes them, their parents or their place in
the history away.  The history only grows at its top: what lies below a stored revision is
settled when it is stored, and a head is retired only by a revision that is stored on top
of it.

## Main definitions

* `Acknowledged` — what a push has done when it answers.
* `Tables.Extends` — a history that has grown at its top.

## Main results

* `Run.acknowledged` — **an acknowledged push is kept by every run.**
* `Run.later` — **the history of a run only grows at its top.**
-/

namespace Rustend

open Interleave Relation

/-! ### Acknowledged pushes -/

/-- A push of `client` has answered `resp`, and what it committed is in the tables `t`. -/
def Acknowledged (client : ClientId) (revisions : List Revision) (resp : PushResponse)
    (t : Tables) : Prop :=
  (resp.accepted ++ resp.rejected.map (·.revisionId)).Perm (revisions.map (·.id)) ∧
    ∃ t₀ t₁ n batch, batch.Sublist revisions ∧ WellFormed t₀ ∧ Pushed t₀ t₁ client n batch resp ∧
      Grows t₁ t

theorem Acknowledged.grows {client : ClientId} {revisions : List Revision} {resp : PushResponse}
    {t t' : Tables} (h : Acknowledged client revisions resp t) (hg : Grows t t') :
    Acknowledged client revisions resp t' := by
  obtain ⟨hperm, t₀, t₁, n, batch, hsub, hwf, hpushed, h₁⟩ := h
  exact ⟨hperm, t₀, t₁, n, batch, hsub, hwf, hpushed, h₁.trans hg⟩

/-- What is known of the tables once a request has been answered. -/
def ServerRequest.Answered : ServerRequest → ServerReply → Tables → Prop
  | .push client revisions, .pushed resp => Acknowledged client revisions resp
  | .push .., _ => fun _ => False
  | _, _ => fun _ => True

theorem ServerRequest.Answered.grows {req : ServerRequest} {reply : ServerReply} {t t' : Tables}
    (h : req.Answered reply t) (hg : Grows t t') : req.Answered reply t' := by
  cases req with
  | push client revisions =>
    cases reply with
    | pushed resp => exact Acknowledged.grows h hg
    | _ => exact h
  | _ => trivial

/-- The postcondition of a session: it is idle, and what it has answered holds. -/
abbrev AnswerPost (i : ℕ) (req : ServerRequest) : Except ServerError ServerReply → Db → Prop :=
  Ends (fun reply d => Idle i d ∧ req.Answered reply d.tables) fun _ => Idle i

theorem triple_serve (i : ℕ) (req : ServerRequest) :
    Triple (sessionEnv False i req.Effect) (Idle i) (serve req) (AnswerPost i req) := by
  have hstable : ∀ (effect : Tables → Tables → Prop) (reply : ServerReply),
      Stable (sessionEnv False i effect) fun d => Idle i d ∧ req.Answered reply d.tables := by
    intro effect reply d d' hr hd
    exact ⟨stable_idle d d' hr hd.1, hd.2.grows (hr.2 hd.1.1).2.1⟩
  cases req with
  | push client revisions =>
    have hcall : Triple (sessionEnv False i (PushEffect client revisions)) (Idle i)
        (pushRevisions client revisions) (PushPost False {} 0 i client revisions) :=
      (triple_pushRevisions client revisions).conseq
        (fun d hd => ⟨hd.1, hd.2, trivial, False.elim⟩) fun _ _ h => h
    have hpush : Triple (sessionEnv False i (PushEffect client revisions)) (Idle i)
        (pushRevisions client revisions)
        (Ends (fun resp d => Idle i d ∧ Acknowledged client revisions resp d.tables)
          fun _ => Idle i) := by
      refine hcall.weaken ?_ fun _ _ h => h.1
      rintro resp d ⟨hidle, hperm, t, t', n, batch, hsub, hwf, hpushed, hg, -⟩
      exact ⟨hidle, hperm, t, t', n, batch, hsub, hwf, hpushed, hg⟩
    refine Triple.seq hpush (fun resp => ?_) (fun _ => stable_idle) fun _ _ h => h
    exact Triple.done (hstable _ (.pushed resp)) fun d hd => hd
  | register client =>
    exact (keepsIdle_serve (.register client)).weaken (fun _ _ h => ⟨h, trivial⟩) fun _ _ h => h
  | pull client req =>
    exact (keepsIdle_serve (.pull client req)).weaken (fun _ _ h => ⟨h, trivial⟩) fun _ _ h => h
  | getObject o =>
    exact (keepsIdle_serve (.getObject o)).weaken (fun _ _ h => ⟨h, trivial⟩) fun _ _ h => h

theorem compatible_answers : Compatible postgres serve (fun _ _ => True)
    (fun i req => sessionEnv False i req.Effect) DbInv (fun i d => d.opened i = none)
    AnswerPost where
  exec := compatible.exec
  guar_rely := compatible.guar_rely
  guar_inv := compatible.guar_inv
  guar_idle := compatible.guar_idle
  start _ i req _ hd hi := triple_serve i req _ ⟨hd, hi⟩

/-- **An acknowledged push is kept by every run**: however the sessions interleave, and
however long after the answer, each entry of the batch was reported once; those reported
as accepted are stored with the values that were sent, under the parents that were sent
and in the transaction that was reported, and each still lies below a head of its object. -/
theorem Run.acknowledged {c : Config sql ServerError ℕ ServerRequest ServerReply Db} (hc : Run c)
    {i : ℕ} {client : ClientId} {revisions : List Revision} {resp : PushResponse}
    (hi : c.procs i = some (.push client revisions, .done (.ok (.pushed resp)))) :
    (resp.accepted ++ resp.rejected.map (·.revisionId)).Perm (revisions.map (·.id)) ∧
    ∃ batch, batch.Sublist revisions ∧ resp.accepted = batch.map (·.id) ∧
      (batch ≠ [] → ⟨resp.transactionId.val, client⟩ ∈ c.shared.tables.transactions) ∧
      ∀ rev ∈ batch, rev.row.stored ∈ c.shared.tables.revisions ∧
        rev.parentRows ⊆ c.shared.tables.revisionParents ∧
        ⟨resp.transactionId.val, rev.id⟩ ∈ c.shared.tables.transactionRevisions ∧
        ∃ head, ⟨rev.objectId, head⟩ ∈ c.shared.tables.objectHeads ∧
          ReflTransGen c.shared.tables.Parent rev.id head := by
  have hsafe := (hc.safe compatible_answers DbInv.empty fun _ => rfl).safe i _ _ hi
  have hpost := (hsafe c.shared ((sessionEnv False i _).rely_refl _)).2
  obtain ⟨hperm, t₀, t₁, n, batch, hsub, -, hpushed, hg⟩ := hpost
  refine ⟨hperm, batch, hsub, hpushed.accepted, ?_⟩
  rcases hpushed.commits with ⟨rfl, -⟩ | ⟨hv, ha, hid⟩
  · exact ⟨fun h => absurd rfl h, by simp⟩
  rw [hid]
  refine ⟨fun _ => hg.transactions ?_, fun rev hrev => ?_⟩
  · rw [ha.transactions]
    simp
  have hrow : rev.row.stored ∈ c.shared.tables.revisions := by
    apply hg.revisions
    rw [ha.revisions]
    exact List.mem_append_right _ (List.mem_map_of_mem hrev)
  refine ⟨hrow, fun e he => hg.revisionParents ?_, hg.transactionRevisions ?_, ?_⟩
  · rw [ha.revisionParents]
    exact List.mem_append_right _ (List.mem_flatMap.mpr ⟨rev, hrev, he⟩)
  · rw [ha.transactionRevisions]
    exact List.mem_append_right _ (List.mem_map.mpr ⟨rev, hrev, rfl⟩)
  · exact hc.wellFormed.exists_head ⟨rev.row.stored, hrow, rfl, rfl⟩

/-- The ids that session `i` has been told are accepted, if it serves a push and has ended. -/
def acceptedBy (c : Config sql ServerError ℕ ServerRequest ServerReply Db) (i : ℕ) :
    Option (List RevisionId) :=
  match c.procs i with
  | some (.push _ _, .done (.ok (.pushed resp))) => some resp.accepted
  | _ => none

/-- In the race, the push of the second child is acknowledged and kept. -/
theorem Run.acknowledged_race : ∃ c, Run c ∧ acceptedBy c 2 = some [⟨⟨2⟩⟩] ∧
    c.shared.tables.Stored ⟨⟨2⟩⟩ := by
  have h : ((Config.init Db.empty).runLabels postgres serve raceLabels).bind (acceptedBy · 2) =
      some [⟨⟨2⟩⟩] := by
    decide +kernel
  obtain ⟨c, hrun, hacc⟩ := Option.bind_eq_some_iff.mp h
  have hc : Run c := Reachable.runLabels .init (fun _ _ _ => trivial) hrun
  refine ⟨c, hc, hacc, ?_⟩
  unfold acceptedBy at hacc
  split at hacc
  · next client revisions resp hi =>
    obtain ⟨-, batch, -, hbatch, -, hall⟩ := Run.acknowledged hc hi
    rw [Option.some.injEq] at hacc
    have hmem : (⟨⟨2⟩⟩ : RevisionId) ∈ batch.map (·.id) := by
      rw [← hbatch, hacc]
      exact List.mem_singleton_self _
    obtain ⟨rev, hrev, hid⟩ := List.mem_map.mp hmem
    exact ⟨rev.row.stored, (hall rev hrev).1, hid⟩
  · cases hacc

/-! ### The history grows at its top -/

/-- The tables `t'` extend the history of `t` at its top: its rows are kept, the parents of
its revisions are settled, and a head is retired only by a child. -/
structure Tables.Extends (t t' : Tables) : Prop where
  grows : Grows t t'
  parents : ∀ y, t.Stored y → ∀ x, t'.Parent x y ↔ t.Parent x y
  retired : ∀ o r, ⟨o, r⟩ ∈ t.objectHeads → ⟨o, r⟩ ∉ t'.objectHeads →
    ∃ y, t'.StoredAs y o ∧ ¬ t.Stored y ∧ t'.Parent r y

namespace Tables.Extends

variable {t t' t'' : Tables}

theorem refl (t : Tables) : t.Extends t :=
  ⟨.refl t, fun _ _ _ => Iff.rfl, fun _ _ h h' => absurd h h'⟩

theorem trans (h : t.Extends t') (h' : t'.Extends t'') : t.Extends t'' := by
  refine ⟨h.grows.trans h'.grows, fun y hy x => ?_, fun o r hr hr' => ?_⟩
  · rw [h'.parents y (h.grows.stored hy), h.parents y hy]
  · by_cases hmid : ⟨o, r⟩ ∈ t'.objectHeads
    · obtain ⟨y, hy, hnew, hp⟩ := h'.retired o r hmid hr'
      exact ⟨y, hy, fun hs => hnew (h.grows.stored hs), hp⟩
    · obtain ⟨y, hy, hnew, hp⟩ := h.retired o r hr hmid
      exact ⟨y, h'.grows.storedAs hy, hnew, h'.grows.parent hp⟩

theorem withClients (t : Tables) (clients : List ClientId) (hc : t.clients ⊆ clients) :
    t.Extends { t with clients := clients } :=
  ⟨{ Grows.refl t with clients := hc }, fun _ _ _ => Iff.rfl, fun _ _ h h' => absurd h h'⟩

/-- A commit extends the history. -/
theorem appends {client : ClientId} {n : ℕ} {batch : List Revision} (ht : WellFormed t)
    (hv : ValidBatch t client n batch) (ha : Appends t t' client n batch) : t.Extends t' := by
  refine ⟨ha.grows, fun y hy x => ?_, fun o r hr hr' => ?_⟩
  · exact ha.parent_old fun rev hrev hid => hv.fresh rev hrev (hid ▸ hy)
  · -- a head that is gone is a parent of an entry of the batch
    rw [ha.heads] at hr'
    have hgone : ¬ ∀ rev ∈ batch, ¬(o = rev.objectId ∧ r ∈ rev.parents) :=
      fun hall => hr' ⟨.inl hr, hall⟩
    push Not at hgone
    obtain ⟨rev, hrev, rfl, hp⟩ := hgone
    exact ⟨rev.id, ha.storedAs_iff.mpr (.inr ⟨rev, hrev, rfl, rfl⟩), hv.fresh rev hrev,
      (ha.parent_new ht hv hrev).mpr hp⟩

/-- What lies below a stored revision is settled. -/
theorem ancestor_iff (h : t.Extends t') (ht : WellFormed t) {x y : RevisionId} (hy : t.Stored y) :
    ReflTransGen t'.Parent x y ↔ ReflTransGen t.Parent x y := by
  constructor
  · intro hxy
    -- going down from `y`, every step stays among the revisions of `t`
    induction hxy using ReflTransGen.head_induction_on with
    | refl => exact .refl
    | @head a b hab _ ih =>
      have hb : t.Stored b := by
        rcases ReflTransGen.cases_head ih with rfl | ⟨d, hbd, -⟩
        · exact hy
        · obtain ⟨o, hb, -⟩ := ht.parent_stored hbd
          exact hb.stored
      exact ReflTransGen.head ((h.parents b hb a).mp hab) ih
  · intro hxy
    exact ReflTransGen.mono (fun a b hab => h.grows.parent hab) _ _ hxy

end Tables.Extends

/-- What a request does to the tables extends their history. -/
theorem ServerRequest.effect_extends {req : ServerRequest} {t t' : Tables} (ht : WellFormed t)
    (h : req.Effect t t') : t.Extends t' := by
  cases req with
  | register client =>
    rcases h with rfl | rfl
    · exact .refl t'
    · exact .withClients t _ (List.subset_append_left _ _)
  | push client revisions =>
    rcases h with rfl | ⟨n, batch, -, hv, ha⟩
    · exact .refl t'
    · exact .appends ht hv ha
  | pull client req =>
    cases h
    exact .refl _
  | getObject o =>
    cases h
    exact .refl _

namespace Run

variable {c c' : Config sql ServerError ℕ ServerRequest ServerReply Db}

theorem extends_step (hc : Run c) {l : Label ℕ Outcome ServerRequest}
    (hn : c.next postgres serve l = some c') : c.shared.tables.Extends c'.shared.tables := by
  rcases Run.step_effect hc hn with h | ⟨i, req, p, -, heff⟩
  · rw [h]
    exact .refl _
  · exact ServerRequest.effect_extends hc.wellFormed heff

theorem extends_run : ∀ {ls : List (Label ℕ Outcome ServerRequest)}
    {c : Config sql ServerError ℕ ServerRequest ServerReply Db}, Run c →
    c.runLabels postgres serve ls = some c' → c.shared.tables.Extends c'.shared.tables := by
  intro ls
  induction ls with
  | nil =>
    intro c _ hrun
    cases hrun
    exact .refl _
  | cons l ls ih =>
    intro c hc hrun
    obtain ⟨d, hd, hrun⟩ := Option.bind_eq_some_iff.mp hrun
    exact (extends_step hc hd).trans (ih (hc.next trivial hd) hrun)

/-- **The history of a run only grows at its top**: whatever the sessions do after `c`, its
rows stay as they are, the ancestors of its revisions are the same, each of its heads is
still a head or has been retired by a new child, and each of its revisions lies below a
current head of its object. -/
theorem later (hc : Run c) {ls : List (Label ℕ Outcome ServerRequest)}
    (hrun : c.runLabels postgres serve ls = some c') :
    c.shared.tables.revisions ⊆ c'.shared.tables.revisions ∧
    (∀ x y, c.shared.tables.Stored y →
      (ReflTransGen c'.shared.tables.Parent x y ↔ ReflTransGen c.shared.tables.Parent x y)) ∧
    (∀ o r, ⟨o, r⟩ ∈ c.shared.tables.objectHeads → ⟨o, r⟩ ∈ c'.shared.tables.objectHeads ∨
      ∃ y, c'.shared.tables.StoredAs y o ∧ ¬ c.shared.tables.Stored y ∧
        c'.shared.tables.Parent r y) ∧
    ∀ o r, c.shared.tables.StoredAs r o → ∃ head, ⟨o, head⟩ ∈ c'.shared.tables.objectHeads ∧
      ReflTransGen c'.shared.tables.Parent r head := by
  have hext := extends_run hc hrun
  have hc' : Run c' := hc.runLabels (fun _ _ _ => trivial) hrun
  refine ⟨hext.grows.revisions, fun x y hy => hext.ancestor_iff hc.wellFormed hy,
    fun o r hr => ?_, fun o r hr => hc'.wellFormed.exists_head (hext.grows.storedAs hr)⟩
  by_cases hr' : ⟨o, r⟩ ∈ c'.shared.tables.objectHeads
  · exact .inl hr'
  · exact .inr (hext.retired o r hr hr')

/-- In the race, the first revision is retired and lies below a head. -/
theorem later_race : ∃ (c c' : Config sql ServerError ℕ ServerRequest ServerReply Db)
    (ls : List (Label ℕ Outcome ServerRequest)), Run c ∧
    c.runLabels postgres serve ls = some c' ∧
    ∃ head, ⟨⟨⟨10⟩⟩, head⟩ ∈ c'.shared.tables.objectHeads ∧
      ReflTransGen c'.shared.tables.Parent ⟨⟨1⟩⟩ head := by
  have h : ((Config.init Db.empty).runLabels postgres serve (raceLabels.take 10)).bind
      (fun c => (c.runLabels postgres serve (raceLabels.drop 10)).map fun _ =>
        decide (c.shared.tables.StoredAs ⟨⟨1⟩⟩ ⟨⟨10⟩⟩)) = some true := by
    decide +kernel
  obtain ⟨c, hc, h⟩ := Option.bind_eq_some_iff.mp h
  obtain ⟨c', hrun, hstored⟩ := Option.map_eq_some_iff.mp h
  have hrunc : Run c := Reachable.runLabels .init (fun _ _ _ => trivial) hc
  exact ⟨c, c', _, hrunc, hrun, (later hrunc hrun).2.2.2 _ _ (of_decide_eq_true hstored)⟩

end Run

end Rustend
