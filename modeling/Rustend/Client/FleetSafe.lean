import Rustend.Client.Fleet

/-!
# One client among any number of others

A call creates the revision that it returns and no other, and what a sync records is so: a
session of one client keeps the accounts, whatever the other sessions of this client and of
all others do between its transactions and requests.

## Main definitions

* `FleetRely`, `fleetEnv` — what a session relies on the others for.
* `Informed`, `Reported`, `Delivers` — what a session knows.

## Main results

* `triple_fleetCall`, `triple_fleetPush`, `triple_fleetPull`, `triple_fleetSync` — a session
  keeps the accounts.
* `compatible_fleet` — **so do all of them together.**
-/

namespace Rustend

open Interleave

/-! ### One session among the others -/

/-- What session `i` relies on the others for. -/
structure FleetRely (K : Json → Prop) (ids : DrawnIds) (i : SessionId) (s s' : Fleet) : Prop where
  accounted : Accounted K ids s'
  grows : s.Extends s'
  own : s'.made i = s.made i

theorem FleetStep.rely {K : Json → Prop} {ids : DrawnIds} {i j : SessionId}
    {creates : Revision → Prop} {s s' : Fleet} (h : FleetStep K ids i creates s s') (hij : i ≠ j) :
      FleetRely K ids j s s' := by
  refine ⟨h.accounted, h.grows, Option.ext fun m => ⟨fun hm => ?_, h.grows.made j m⟩⟩
  exact (h.own j m hm).resolve_right fun hj => hij hj.1.symm

/-- Session `i` among others. -/
def fleetEnv (carriage : Carriage) (K : Json → Prop) (ids : DrawnIds) (i : SessionId)
    (creates : Revision → Prop) : Env browser ClientError Fleet where
  exec op s r s' := ∃ ch, (fleet carriage).exec i ch op s = some (r, s')
  rely s s' := Accounted K ids s → FleetRely K ids i s s'
  guar s s' := Accounted K ids s → FleetStep K ids i creates s s'
  rely_refl s h := ⟨h, .refl s, rfl⟩
  rely_trans _ _ _ h h' hs := by
    have h₁ := h hs
    have h₂ := h' h₁.accounted
    exact ⟨h₂.accounted, ⟨fun j m hm => h₂.grows.made j m (h₁.grows.made j m hm),
      fun r hr => h₂.grows.stored r (h₁.grows.stored r hr)⟩, h₂.own.trans h₁.own⟩

/-- What a session knows: whether it has created a revision, which revisions are copies of
created ones, which have been created by this client, and which are stored. -/
structure Informed (K : Json → Prop) (ids : DrawnIds) (i : SessionId) (own : Option Revision)
    (known mine : List Revision) (held : List RevisionId) (s : Fleet) : Prop where
  accounted : Accounted K ids s
  own : s.made i = own
  known : ∀ rev ∈ known, s.Knows rev
  mine : ∀ rev ∈ mine, ∃ j : SessionId, j.1 = i.1 ∧ s.made j = some rev
  held : ∀ r ∈ held, s.server.tables.Stored r

section Sessions

variable {carriage : Carriage} {K : Json → Prop} {ids : DrawnIds} {i : SessionId}
  {creates : Revision → Prop} {own : Option Revision}
  {known mine : List Revision} {held : List RevisionId} {s s' : Fleet}

theorem stable_fleet {P : Prop} :
    Stable (fleetEnv carriage K ids i creates) fun _ => P := fun _ _ _ h => h

theorem stable_informed :
    Stable (fleetEnv carriage K ids i creates) (Informed K ids i own known mine held) := by
  intro s s' hrely h
  have hr := hrely h.accounted
  refine ⟨hr.accounted, hr.own.trans h.own, fun rev hrev => (h.known rev hrev).mono hr.grows,
    fun rev hrev => ?_, fun r hheld => hr.grows.stored r (h.held r hheld)⟩
  obtain ⟨j, hj, hm⟩ := h.mine rev hrev
  exact ⟨j, hj, hr.grows.made j _ hm⟩

/-- What a session knows, it knows after a step of its own. -/
theorem Informed.step (h : Informed K ids i own known mine held s)
    (hstep : FleetStep K ids i creates s s') (hown : s'.made i = own) :
    Informed K ids i own known mine held s' := by
  refine ⟨hstep.accounted, hown, fun rev hrev => (h.known rev hrev).mono hstep.grows,
    fun rev hrev => ?_, fun r hr => hstep.grows.stored r (h.held r hr)⟩
  obtain ⟨j, hj, hm⟩ := h.mine rev hrev
  exact ⟨j, hj, hstep.grows.made j _ hm⟩

/-- What a session knows is kept. -/
theorem Informed.within (h : Informed K ids i own known mine held s) {rev : Revision}
    (hrev : rev ∈ known) : rev.content.Within K := h.accounted.within (h.known rev hrev)

/-- **A transaction of a session**: it commits, or it aborts and does nothing. -/
theorem triple_fleetIdb (hkeeps : carriage.Keeps K) {op : IdbOp} {P : Fleet → Prop}
    {Q : op.Res → Fleet → Prop} (hP : Stable (fleetEnv carriage K ids i creates) P)
    (hQ : ∀ a, Stable (fleetEnv carriage K ids i creates) (Q a))
    (hkept : ∀ s, P s → ∀ rev ∈ op.revisions, rev.content.Within K)
    (hstep : ∀ s, P s → FleetStep K ids i creates s (s.after i op) ∧
      Q (op.eval (s.stores i.1)).1 (s.after i op)) :
    Triple (fleetEnv carriage K ids i creates) P (idb op) (Ends Q fun _ _ => True) := by
  refine Triple.perform hP (fun r => ?_) ?_
  · cases r with
    | ok a => exact hQ a
    | error e => exact stable_fleet
  rintro s r s' hs ⟨ch, hexec⟩
  cases ch with
  | commits =>
    have hcommits := Option.some.inj hexec
    rw [hkeeps.transact (hkept s hs)] at hcommits
    cases hcommits
    exact ⟨fun _ => (hstep s hs).1, (hstep s hs).2⟩
  | aborts msg =>
    cases hexec
    exact ⟨fun h => h.idle, trivial⟩
  | delivered d => cases hexec

/-- A transaction that creates nothing leaves a session with what it knows. -/
theorem triple_fleetKeep (hkeeps : carriage.Keeps K) {op : IdbOp}
    (hmade : ∀ s : Fleet, (s.after i op).made = s.made)
    (hkept : ∀ s, Informed K ids i own known mine held s →
      ∀ rev ∈ op.revisions, rev.content.Within K)
    (hstep : ∀ s, Informed K ids i own known mine held s →
      FleetStep K ids i creates s (s.after i op)) :
    Triple (fleetEnv carriage K ids i creates) (Informed K ids i own known mine held) (idb op)
      (Ends (fun _ => Informed K ids i own known mine held) fun _ _ => True) := by
  refine triple_fleetIdb hkeeps stable_informed (fun _ => stable_informed) hkept fun s hs =>
    ⟨hstep s hs, hs.step (hstep s hs) ?_⟩
  rw [hmade]
  exact hs.own

/-- A transaction that reads, or moves the cursor. -/
theorem triple_fleetRead (hkeeps : carriage.Keeps K) {op : IdbOp}
    (hmade : ∀ s : Fleet, (s.after i op).made = s.made) (hnone : op.revisions = [])
    (hrevisions : ∀ db, (op.eval db).2.revisions = db.revisions)
    (hheads : ∀ db, (op.eval db).2.objectHeads = db.objectHeads) :
    Triple (fleetEnv carriage K ids i creates) (Informed K ids i own known mine held) (idb op)
      (Ends (fun _ => Informed K ids i own known mine held) fun _ _ => True) :=
  triple_fleetKeep hkeeps hmade (fun _ _ => by rw [hnone]; exact List.forall_mem_nil _) fun _ hs =>
    hs.accounted.quiet (hmade _) (hrevisions _) (hheads _)

/-- The heads of an object are overwritten with known revisions of it. -/
theorem triple_fleetReplaceHeads (hkeeps : carriage.Keeps K) {o : ObjectId} {heads : List Revision}
    (hsub : heads ⊆ known) (ho : ∀ rev ∈ heads, rev.objectId = o) :
    Triple (fleetEnv carriage K ids i creates) (Informed K ids i own known mine held)
      (idb (.replaceHeads o heads))
      (Ends (fun _ => Informed K ids i own known mine held) fun _ _ => True) := by
  refine triple_fleetKeep hkeeps (fun _ => rfl) (fun s hs rev hrev => hs.within (hsub hrev))
    fun s hs => hs.accounted.transaction rfl (fun record hrecord => ⟨record, hrecord, rfl⟩)
      (fun record hrecord => .inl hrecord)
    fun head hhead => ?_
  rcases mem_replaceHeads hhead with ⟨rev, hrev, rfl⟩ | ⟨hold, -⟩
  · exact .inr ⟨rev, hs.known rev (hsub hrev), by rw [ho rev hrev]⟩
  · exact .inl hold

/-- Known revisions are added to the heads. -/
theorem triple_fleetAddHeads (hkeeps : carriage.Keeps K) {heads : List Revision}
    (hsub : heads ⊆ known) :
    Triple (fleetEnv carriage K ids i creates) (Informed K ids i own known mine held)
      (idb (.addHeads heads))
      (Ends (fun _ => Informed K ids i own known mine held) fun _ _ => True) := by
  refine triple_fleetKeep hkeeps (fun _ => rfl) (fun s hs rev hrev => hs.within (hsub hrev))
    fun s hs => hs.accounted.transaction rfl (fun record hrecord => ⟨record, hrecord, rfl⟩)
      (fun record hrecord => .inl hrecord)
    fun head hhead => ?_
  rcases mem_addHeads hhead with ⟨rev, hrev, rfl⟩ | ⟨hold, -⟩
  · exact .inr ⟨rev, hs.known rev (hsub hrev), rfl⟩
  · exact .inl hold

theorem triple_fleetFail {α : Type} {P : Fleet → Prop} {Q : α → Fleet → Prop} (e : ClientError) :
    Triple (fleetEnv carriage K ids i creates) P (.fail e) (Ends Q fun _ _ => True) :=
  fun _ _ _ _ => trivial

/-! ### Calls -/

/-- What a session leaves that has created the revision `id`. -/
def HasMade (K : Json → Prop) (ids : DrawnIds) (i : SessionId) (id : RevisionId)
    (s : Fleet) : Prop :=
  Accounted K ids s ∧ ∃ m, s.made i = some m ∧ m.id = id

theorem stable_hasMade {id : RevisionId} :
    Stable (fleetEnv carriage K ids i creates) (HasMade K ids i id) := by
  rintro s s' hrely ⟨h, m, hm, hid⟩
  exact ⟨(hrely h).accounted, m, (hrely h).grows.made i m hm, hid⟩

/-- A session that has created its revision. -/
theorem triple_fleetWrite (hkeeps : carriage.Keeps K) {rev : Revision} (hid : ids i = some rev.id)
    (hby : rev.createdBy = i.1) (hkept : rev.content.Within K) (hcreates : creates rev) :
    Triple (fleetEnv carriage K ids i creates) (Informed K ids i none known mine held)
      (writeRevision rev)
      (Ends (HasMade K ids i) fun _ _ => True) := by
  have hput : Triple (fleetEnv carriage K ids i creates) (Informed K ids i none known mine held)
      (idb (.putRevision (.fromRevision rev .pending)))
      (Ends (fun _ => Informed K ids i (some rev) [rev] [] []) fun _ _ => True) := by
    refine triple_fleetIdb hkeeps stable_informed (fun _ => stable_informed)
      (fun _ _ => List.forall_mem_singleton.mpr hkept) fun s hs => ?_
    obtain ⟨hstep, hself⟩ := hs.accounted.create hs.own hid hby hkept hcreates
    refine ⟨hstep, hstep.accounted, hself, List.forall_mem_singleton.mpr ⟨i, rev, hself, .refl rev⟩,
      List.forall_mem_nil _, List.forall_mem_nil _⟩
  have hreplace : Triple (fleetEnv carriage K ids i creates)
      (Informed K ids i (some rev) [rev] [] [])
      (idb (.replaceHeads rev.objectId [rev]))
      (Ends (fun _ => Informed K ids i (some rev) [rev] [] []) fun _ _ => True) :=
    triple_fleetReplaceHeads hkeeps (List.Subset.refl _) (List.forall_mem_singleton.mpr rfl)
  unfold writeRevision
  refine Triple.seq hput (fun _ => ?_) (fun _ => stable_fleet) fun _ _ h => h
  refine Triple.seq hreplace (fun _ => ?_) (fun _ => stable_fleet) fun _ _ h => h
  exact Triple.done stable_informed fun s hs => ⟨hs.accounted, rev, hs.own, rfl⟩

/-- **A call creates the revision that it returns**, and no other. -/
theorem triple_fleetCall (hkeeps : carriage.Keeps K) {repo : Repository} {call : Call} {draw : Draw}
    (hrepo : repo.clientId = i.1) (hkept : ∀ v ∈ call.payload, K v)
    (hdraw : ids i = some draw.revisionId) :
    Triple (fleetEnv carriage K ids i (Job.call repo call draw).Creates)
      (Informed K ids i none [] [] [])
      (call.program repo draw) (Ends (HasMade K ids i) fun _ _ => True) := by
  have hwrite : ∀ {heads rev}, call.CreatesFrom repo draw heads rev →
      (writeRevision rev).Issues (Puts call.Asks) →
      Triple (fleetEnv carriage K ids i (Job.call repo call draw).Creates)
        (Informed K ids i none [] [] [])
        (writeRevision rev) (Ends (HasMade K ids i) fun _ _ => True) :=
    fun hrev hputs => triple_fleetWrite hkeeps (hdraw.trans (congrArg some hrev.id.symm))
      (hrev.createdBy.trans hrepo) ((issues_writeRevision.mp hputs).within hkept)
      ⟨⟨_, hrev⟩, issues_writeRevision.mp hputs⟩
  have hputs := call.issues_asks repo draw
  rcases call.shape repo draw with ⟨e, he⟩ | ⟨rev, hrev, hprogram⟩ | ⟨f, hprogram, hall⟩
  · rw [he]
    exact triple_fleetFail e
  · rw [hprogram] at hputs ⊢
    exact hwrite hrev hputs
  · rw [hprogram] at hputs ⊢
    refine Triple.seq (triple_fleetRead hkeeps (fun _ => rfl) rfl (fun _ => rfl) fun _ => rfl)
      (fun heads => ?_) (fun _ => stable_fleet) fun _ _ h => h
    -- the request has been issued, and what follows is among the rest
    have hrest : (f heads).Issues (Puts call.Asks) := hputs.2 (.ok heads)
    rcases hall heads with ⟨e, he⟩ | ⟨rev, hrev, hf⟩
    · rw [he]
      exact triple_fleetFail e
    · rw [hf] at hrest ⊢
      exact hwrite hrev hrest

/-! ### Pushing -/

/-- What is pending has been created by this client. -/
theorem triple_fleetPending (hkeeps : carriage.Keeps K) :
    Triple (fleetEnv carriage K ids i creates) (Informed K ids i own [] [] [])
      (idb .getPendingRevisions)
      (Ends (fun pending => Informed K ids i own [] (pending.map (·.revision)) [])
        fun _ _ => True) := by
  refine triple_fleetIdb hkeeps stable_informed (fun _ => stable_informed)
    (fun _ _ => List.forall_mem_nil _) fun s hs => ?_
  have hstep : FleetStep K ids i creates s (s.after i .getPendingRevisions) :=
    hs.accounted.quiet rfl rfl rfl
  refine ⟨hstep, hstep.accounted, hs.own, List.forall_mem_nil _, fun rev hrev => ?_,
    List.forall_mem_nil _⟩
  obtain ⟨record, hrecord, rfl⟩ := List.mem_map.mp hrev
  obtain ⟨hmem, hpending⟩ := List.mem_filter.mp hrecord
  exact (hs.accounted.records i.1 record hmem).pending (of_decide_eq_true hpending)

/-- What a session knows of a response to its push. -/
structure Reported (K : Json → Prop) (ids : DrawnIds) (i : SessionId) (own : Option Revision)
    (resp : PushResponse) (s : Fleet) : Prop where
  accounted : Accounted K ids s
  own : s.made i = own
  accepted : ∀ r ∈ resp.accepted, s.server.tables.Stored r ∧
    ∃ j m, s.made j = some m ∧ m.id = r ∧ j.1 = i.1
  rejected : ∀ e ∈ resp.rejected,
    (e.reason = .duplicateRevisionId → s.server.tables.Stored e.revisionId) ∧
      ∃ j m, s.made j = some m ∧ m.id = e.revisionId ∧ j.1 = i.1

theorem Reported.mono {resp : PushResponse} (h : Reported K ids i own resp s)
    (hs' : Accounted K ids s') (hgrows : s.Extends s') (hown : s'.made i = own) :
    Reported K ids i own resp s' := by
  have hmade : ∀ r, (∃ j m, s.made j = some m ∧ m.id = r ∧ j.1 = i.1) →
      ∃ j m, s'.made j = some m ∧ m.id = r ∧ j.1 = i.1 :=
    fun r ⟨j, m, hm, hrest⟩ => ⟨j, m, hgrows.made j m hm, hrest⟩
  refine ⟨hs', hown, fun r hr => ?_, fun e he => ?_⟩
  · exact ⟨hgrows.stored r (h.accepted r hr).1, hmade r (h.accepted r hr).2⟩
  · exact ⟨fun hdup => hgrows.stored _ ((h.rejected e he).1 hdup), hmade _ (h.rejected e he).2⟩

theorem stable_reported {resp : PushResponse} :
    Stable (fleetEnv carriage K ids i creates) (Reported K ids i own resp) := by
  intro s s' hrely h
  have hr := hrely h.accounted
  exact h.mono hr.accounted hr.grows (hr.own.trans h.own)

/-- **What a push is answered is so.** -/
theorem triple_fleetChanges (hkeeps : carriage.Keeps K) (hids : Distinct ids)
    (revisions : List Revision) :
    Triple (fleetEnv carriage K ids i creates) (Informed K ids i own [] revisions [])
      (.perform (S := browser) (.postChanges ⟨revisions⟩))
      (Ends (fun reply s => ∀ resp, parsed (.ok reply) = some resp → Reported K ids i own resp s)
        fun _ _ => True) := by
  refine Triple.perform stable_informed (fun r => ?_) ?_
  · cases r with
    | ok reply => exact fun s s' hrely h resp hresp => stable_reported s s' hrely (h resp hresp)
    | error e => exact stable_fleet
  rintro s r s' hs ⟨ch, hexec⟩
  obtain ⟨x, c', batch, hx, hconn, hsub, hcommits, hjudged⟩ :=
    hkeeps.changes i.1 hs.accounted.server fun rev hrev => by
      obtain ⟨j, -, hm⟩ := hs.mine rev hrev
      exact hs.accounted.kept j rev hm
  have hstep : FleetStep K ids i creates s { s with server := c' } := by
    refine hs.accounted.push hids hconn hcommits fun rev hrev => ?_
    obtain ⟨j, -, hm⟩ := hs.mine rev (hsub hrev)
    exact ⟨j, hm⟩
  cases ch with
  | commits => cases hexec
  | aborts msg => cases hexec
  | delivered d =>
    cases hexec
    cases d with
    | requestLost msg => exact ⟨fun h => h.idle, trivial⟩
    | responseLost msg =>
      simp only [Delivery.deliver, hx]
      exact ⟨fun _ => hstep, trivial⟩
    | arrives =>
      simp only [Delivery.deliver, hx]
      refine ⟨fun _ => hstep, ?_⟩
      cases x with
      | error e => trivial
      | ok reply =>
        intro resp hresp
        have hj := hjudged resp hresp
        have hmine : ∀ r ∈ revisions.map (·.id), ∃ j m, s.made j = some m ∧ m.id = r ∧
            j.1 = i.1 := by
          intro r hr
          obtain ⟨rev, hrev, rfl⟩ := List.mem_map.mp hr
          obtain ⟨j, hj, hm⟩ := hs.mine rev hrev
          exact ⟨j, rev, hm, rfl, hj⟩
        exact ⟨hstep.accounted, hs.own,
          fun r hr => ⟨(hj.accepted r hr).2, hmine r (hj.accepted r hr).1⟩,
          fun e he => ⟨(hj.rejected e he).2, hmine _ (hj.rejected e he).1⟩⟩

/-- What the response says of one revision is recorded. -/
theorem triple_fleetMark (hkeeps : carriage.Keeps K) (hids : Distinct ids)
    {resp : PushResponse} {op : IdbOp} {id : RevisionId} {status : SyncStatus}
    (hmade : ∀ s : Fleet, (s.after i op).made = s.made)
    (hnone : op.revisions = []) (hop : ∀ db, (op.eval db).2 = db.markRevision id status)
    (hpending : status ≠ .pending)
    (hresp : ∀ s, Reported K ids i own resp s →
      (status = .synced ∨ status = .syncError .duplicateRevisionId → s.server.tables.Stored id) ∧
        ∃ j m, s.made j = some m ∧ m.id = id ∧ j.1 = i.1) :
    Triple (fleetEnv carriage K ids i creates) (Reported K ids i own resp) (idb op)
      (Ends (fun _ => Reported K ids i own resp) fun _ _ => True) := by
  refine triple_fleetIdb hkeeps stable_reported (fun _ => stable_reported)
    (fun _ _ => by rw [hnone]; exact List.forall_mem_nil _) fun s hs => ?_
  obtain ⟨hstored, hown⟩ := hresp s hs
  have hstep : FleetStep K ids i creates s (s.after i op) :=
    hs.accounted.mark hids (hmade s) (hop _) hpending hown hstored
  exact ⟨hstep, hs.mono hstep.accounted hstep.grows (by rw [hmade, hs.own])⟩

/-- **A push records what is so.** -/
theorem triple_fleetPush (hkeeps : carriage.Keeps K) (hids : Distinct ids) :
    Triple (fleetEnv carriage K ids i creates) (Informed K ids i own [] [] []) pushPending
      (Ends (fun _ => Informed K ids i own [] [] []) fun _ _ => True) := by
  have hforget : ∀ {mine : List Revision} {s : Fleet}, Informed K ids i own [] mine [] s →
      Informed K ids i own [] [] [] s :=
    fun h => ⟨h.accounted, h.own, h.known, List.forall_mem_nil _, h.held⟩
  unfold pushPending
  refine Triple.seq (triple_fleetPending hkeeps) (fun pending => ?_) (fun _ => stable_fleet)
    fun _ _ h => h
  split
  · exact Triple.done stable_informed fun _ h => hforget h
  refine Triple.seq (triple_fleetChanges hkeeps hids _) (fun reply => ?_) (fun _ => stable_fleet)
    fun _ _ h => h
  rcases json_cases reply "push failed: " with ⟨e, he, -⟩ | ⟨resp, hresp, hparsed⟩
  · rw [he]
    exact triple_fleetFail e
  rw [hresp]
  have hsynced : Triple (fleetEnv carriage K ids i creates) (Reported K ids i own resp)
      (.forEach (fun revId => idb (.markRevisionSynced revId)) resp.accepted)
      (Ends (fun _ => Reported K ids i own resp) fun _ _ => True) := by
    refine Triple.forEach (fun _ => stable_reported) (fun _ => stable_fleet)
      (fun xs id rest hall => ?_)
      resp.accepted [] rfl
    have hid : id ∈ resp.accepted := by
      rw [show resp.accepted = xs ++ id :: rest from hall]
      exact List.mem_append_right _ List.mem_cons_self
    exact triple_fleetMark hkeeps hids (fun _ => rfl) rfl (fun _ => rfl) nofun fun s hs =>
      ⟨fun _ => (hs.accepted id hid).1, (hs.accepted id hid).2⟩
  have herror : Triple (fleetEnv carriage K ids i creates) (Reported K ids i own resp)
      (.forEach (fun rejected => idb (.markRevisionError rejected.revisionId rejected.reason))
        resp.rejected)
      (Ends (fun _ => Reported K ids i own resp) fun _ _ => True) := by
    refine Triple.forEach (fun _ => stable_reported) (fun _ => stable_fleet)
      (fun xs e rest hall => ?_)
      resp.rejected [] rfl
    have he : e ∈ resp.rejected := by
      rw [show resp.rejected = xs ++ e :: rest from hall]
      exact List.mem_append_right _ List.mem_cons_self
    refine triple_fleetMark hkeeps hids (fun _ => rfl) rfl (fun _ => rfl) nofun fun s hs =>
      ⟨fun hstatus => (hs.rejected e he).1 ?_, (hs.rejected e he).2⟩
    exact SyncStatus.syncError.inj (hstatus.resolve_left (SyncStatus.noConfusion ·))
  have hdone : Triple (fleetEnv carriage K ids i creates) (Reported K ids i own resp)
      (pure (resp.accepted.length, resp.rejected))
      (Ends (fun _ => Informed K ids i own [] [] []) fun _ _ => True) :=
    Triple.done stable_reported fun _ h => ⟨h.accounted, h.own, List.forall_mem_nil _,
      List.forall_mem_nil _, List.forall_mem_nil _⟩
  intro s hs
  refine Triple.seq hsynced (fun _ => ?_) (fun _ => stable_fleet) (fun _ _ h => h) s
    (hs resp hparsed)
  exact Triple.seq herror (fun _ => hdone) (fun _ => stable_fleet) fun _ _ h => h

/-! ### Pulling -/

/-- What a session knows of a response to its pull. -/
def Delivers (K : Json → Prop) (ids : DrawnIds) (i : SessionId) (own : Option Revision)
    (updates : List ObjectUpdate) (s : Fleet) : Prop :=
  Informed K ids i own (updates.flatMap (·.heads)) []
      (updates.flatMap fun u => u.heads.map (·.id)) s ∧
    ∀ u ∈ updates, ∀ rev ∈ u.heads, rev.objectId = u.objectId

theorem stable_delivers {updates : List ObjectUpdate} :
    Stable (fleetEnv carriage K ids i creates) (Delivers K ids i own updates) :=
  fun s s' hrely h => ⟨stable_informed s s' hrely h.1, h.2⟩

/-- **What a pull is answered has been created by sessions**, and is stored. -/
theorem triple_fleetChangesQuery (hkeeps : carriage.Keeps K) (hids : Distinct ids)
    (params : PullRequest) :
    Triple (fleetEnv carriage K ids i creates) (Informed K ids i own [] [] [])
      (.perform (S := browser) (.postChangesQuery params))
      (Ends (fun reply s => ∀ resp, parsed (.ok reply) = some resp →
        Delivers K ids i own resp.objectUpdates s) fun _ _ => True) := by
  refine Triple.perform stable_informed (fun r => ?_) ?_
  · cases r with
    | ok reply => exact fun s s' hrely h resp hresp => stable_delivers s s' hrely (h resp hresp)
    | error e => exact stable_fleet
  rintro s r s' hs ⟨ch, hexec⟩
  obtain ⟨x, clients, hx, hserved⟩ := hkeeps.changesQuery i.1 hs.accounted.server
    hs.accounted.tables_within params
  have hstep : FleetStep K ids i creates s { s with server := s.server.withClients clients } :=
    hs.accounted.register hids clients
  cases ch with
  | commits => cases hexec
  | aborts msg => cases hexec
  | delivered d =>
    cases hexec
    cases d with
    | requestLost msg => exact ⟨fun h => h.idle, trivial⟩
    | responseLost msg =>
      simp only [Delivery.deliver, hx]
      exact ⟨fun _ => hstep, trivial⟩
    | arrives =>
      simp only [Delivery.deliver, hx]
      refine ⟨fun _ => hstep, ?_⟩
      cases x with
      | error e => trivial
      | ok reply =>
        intro resp hresp
        rcases hserved with ⟨updates, _, _, hresp', hans⟩ | hnone
        · obtain rfl : resp = ⟨⟨s.server.tables.maxTransactionId⟩, updates⟩ :=
            Option.some.inj (hresp.symm.trans hresp')
          have hwf := hstep.accounted.server.tables
          refine ⟨⟨hstep.accounted, hs.own, fun rev hrev => ?_, List.forall_mem_nil _,
            fun r hr => ?_⟩,
            fun u hu rev hrev => hans.objectId hwf hu hrev⟩
          · obtain ⟨u, hu, hrev⟩ := List.mem_flatMap.mp hrev
            obtain ⟨row, hrow, parents, rfl, hparents⟩ := hans.rows u hu rev hrev
            exact hstep.accounted.knows_row hrow hparents
          · obtain ⟨u, hu, hr⟩ := List.mem_flatMap.mp hr
            obtain ⟨rev, hrev, rfl⟩ := List.mem_map.mp hr
            obtain ⟨row, hrow, parents, rfl, -⟩ := hans.rows u hu rev hrev
            exact ⟨row, hrow, rfl⟩
        · rw [hnone] at hresp
          cases hresp

/-- An update puts copies of created revisions into the stores. -/
theorem triple_fleetUpdate (hkeeps : carriage.Keeps K) {u : ObjectUpdate} (hknown : u.heads ⊆ known)
    (hheld : ∀ rev ∈ u.heads, rev.id ∈ held) (ho : ∀ rev ∈ u.heads, rev.objectId = u.objectId) :
    Triple (fleetEnv carriage K ids i creates) (Informed K ids i own known mine held)
      (applyUpdate u)
      (Ends (fun _ => Informed K ids i own known mine held) fun _ _ => True) := by
  have hput : Triple (fleetEnv carriage K ids i creates) (Informed K ids i own known mine held)
      (.forEach (fun rev => idb (.putRevision (.fromRevision rev .synced))) u.heads)
      (Ends (fun _ => Informed K ids i own known mine held) fun _ _ => True) := by
    refine Triple.forEach (fun _ => stable_informed) (fun _ => stable_fleet)
      (fun xs rev rest hall => ?_) u.heads [] rfl
    have hrev : rev ∈ u.heads := by
      rw [show u.heads = xs ++ rev :: rest from hall]
      exact List.mem_append_right _ List.mem_cons_self
    exact triple_fleetKeep hkeeps (fun _ => rfl)
      (fun s hs => List.forall_mem_singleton.mpr (hs.within (hknown hrev))) fun s hs =>
        hs.accounted.receive (hs.known rev (hknown hrev)) (hs.held _ (hheld rev hrev))
  have hadd : ∀ b : Bool, Triple (fleetEnv carriage K ids i creates)
      (Informed K ids i own known mine held)
      (do idb (.addHeads u.heads); return b)
      (Ends (fun _ => Informed K ids i own known mine held) fun _ _ => True) := fun b =>
    Triple.seq (triple_fleetAddHeads hkeeps hknown)
      (fun _ => Triple.done stable_informed fun _ h => h)
      (fun _ => stable_fleet) fun _ _ h => h
  unfold applyUpdate
  refine Triple.seq hput (fun _ => ?_) (fun _ => stable_fleet) fun _ _ h => h
  cases u.action with
  | conflict => exact hadd true
  | replace =>
    refine Triple.seq (triple_fleetRead hkeeps (fun _ => rfl) rfl (fun _ => rfl) fun _ => rfl)
      (fun existing => ?_) (fun _ => stable_fleet) fun _ _ h => h
    split
    · exact hadd true
    · exact Triple.seq (triple_fleetReplaceHeads hkeeps hknown ho)
        (fun _ => Triple.done stable_informed fun _ h => h) (fun _ => stable_fleet) fun _ _ h => h

theorem triple_fleetUpdates (hkeeps : carriage.Keeps K) :
    ∀ {updates : List ObjectUpdate} (counts : ℕ × ℕ),
    (∀ u ∈ updates, u.heads ⊆ known ∧ (∀ rev ∈ u.heads, rev.id ∈ held) ∧
      ∀ rev ∈ u.heads, rev.objectId = u.objectId) →
    Triple (fleetEnv carriage K ids i creates) (Informed K ids i own known mine held)
      (applyUpdates updates counts)
      (Ends (fun _ => Informed K ids i own known mine held) fun _ _ => True)
  | [], _, _ => Triple.done stable_informed fun _ h => h
  | u :: updates, (pulled, conflicted), hall => by
    obtain ⟨⟨hknown, hheld, ho⟩, hall⟩ := List.forall_mem_cons.mp hall
    unfold applyUpdates
    exact Triple.seq (triple_fleetUpdate hkeeps hknown hheld ho)
      (fun _ => triple_fleetUpdates hkeeps _ hall)
      (fun _ => stable_fleet) fun _ _ h => h

theorem triple_fleetReadSyncState (hkeeps : carriage.Keeps K) :
    Triple (fleetEnv carriage K ids i creates) (Informed K ids i own known mine held)
      (idb .readSyncState)
      (Ends (fun _ => Informed K ids i own known mine held) fun _ _ => True) := by
  have hsame : ∀ db, (IdbOp.eval .readSyncState db).2 = db := by
    intro db
    rcases hstate : db.syncState with _ | record <;> simp only [IdbOp.eval, hstate]
  exact triple_fleetRead hkeeps (fun _ => rfl) rfl (fun db => by rw [hsame]) fun db => by rw [hsame]

/-- **A pull records what is so.** -/
theorem triple_fleetPull (hkeeps : carriage.Keeps K) (hids : Distinct ids) (params : PullRequest) :
    Triple (fleetEnv carriage K ids i creates) (Informed K ids i own [] [] []) (pullUpdates params)
      (Ends (fun _ _ => True) fun _ _ => True) := by
  unfold pullUpdates
  refine Triple.seq (triple_fleetChangesQuery hkeeps hids params) (fun reply => ?_)
    (fun _ => stable_fleet)
    fun _ _ h => h
  rcases json_cases reply "pull failed: " with ⟨e, he, -⟩ | ⟨resp, hresp, hparsed⟩
  · rw [he]
    exact triple_fleetFail e
  rw [hresp]
  intro s hs
  obtain ⟨hinformed, ho⟩ := hs resp hparsed
  refine Triple.seq (triple_fleetUpdates hkeeps (0, 0) fun u hu =>
      ⟨fun rev hrev => ?_, fun rev hrev => ?_, ho u hu⟩) (fun counts => ?_)
      (fun _ => stable_fleet) (fun _ _ h => h) s hinformed
  · exact List.mem_flatMap.mpr ⟨u, hu, hrev⟩
  · exact List.mem_flatMap.mpr ⟨u, hu, List.mem_map_of_mem hrev⟩
  refine Triple.seq (triple_fleetReadSyncState hkeeps) (fun state => ?_) (fun _ => stable_fleet)
    fun _ _ h => h
  -- the cursor is neither a revision nor a head
  have hdone : ∀ {P : Fleet → Prop}, Triple (fleetEnv carriage K ids i creates) P (pure counts)
      (Ends (fun _ _ => True) fun _ _ => True) := fun _ _ _ _ => trivial
  obtain ⟨cid, uid, last⟩ := state
  cases cid with
  | none => exact hdone
  | some cid =>
    cases uid with
    | none => exact hdone
    | some uid =>
      exact Triple.seq (triple_fleetRead hkeeps (fun _ => rfl) rfl (fun _ => rfl) fun _ => rfl)
        (fun _ => hdone)
        (fun _ => stable_fleet) fun _ _ h => h

/-- **A sync records what is so**, and creates nothing. -/
theorem triple_fleetSync (hkeeps : carriage.Keeps K) (hids : Distinct ids) (params : PullRequest) :
    Triple (fleetEnv carriage K ids i creates) (Informed K ids i own [] [] [])
      (Repository.sync params)
      (Ends (fun _ _ => True) fun _ _ => True) := by
  have hsync : ∀ params, Triple (fleetEnv carriage K ids i creates) (Informed K ids i own [] [] [])
      (Rustend.sync params) (Ends (fun _ _ => True) fun _ _ => True) := by
    intro params
    unfold Rustend.sync
    refine Triple.seq (triple_fleetPush hkeeps hids) (fun _ => ?_) (fun _ => stable_fleet)
      fun _ _ h => h
    refine Triple.seq (triple_fleetPull hkeeps hids params) (fun _ => ?_) (fun _ => stable_fleet)
      fun _ _ h => h
    exact Triple.done stable_fleet fun _ h => h
  unfold Repository.sync
  split
  · exact Triple.seq (triple_fleetReadSyncState hkeeps) (fun _ => hsync _) (fun _ => stable_fleet)
      fun _ _ h => h
  · exact hsync params

end Sessions

/-! ### All sessions together -/

/-- What a session that has ended leaves. -/
def Job.Post (i : SessionId) : Job → Except ClientError JobReply → Fleet → Prop
  | .call .., .ok (.wrote id), s => ∃ m, s.made i = some m ∧ m.id = id
  | _, _, _ => True

section Run

variable {carriage : Carriage} {K : Json → Prop} {ids : DrawnIds} {users : ClientId → UserId}
  {c c' : FleetConfig}

theorem Accounted.start (users : ClientId → UserId) : Accounted K ids (.start users) where
  server := .empty
  made i m hm := by cases hm
  kept i m hm := by cases hm
  held i m hm := by cases hm
  rows row hrow := by cases hrow
  records a record hrecord := absurd hrecord (KeyedStore.not_mem_empty record)
  heads a head hhead := absurd hhead (KeyedStore.not_mem_empty head)

theorem compatible_fleet (hkeeps : carriage.Keeps K) (hids : Distinct ids) :
    Compatible (fleet carriage) Job.program (fun _ l => Fitting K ids l)
      (fun i job => fleetEnv carriage K ids i job.Creates) (Accounted K ids)
      (fun i s => s.made i = none)
      fun i job => job.Post i where
  exec c i ch job op next r s' _ _ hx := ⟨ch, hx⟩
  guar_rely i j _ _ s s' hij hg hs := (hg hs).rely hij
  guar_inv i _ s s' hg hs := (hg hs).accounted
  guar_idle i j _ s s' hij hg hs hidle := ((hg hs).rely hij).own.trans hidle
  start c i job hl hs hidle := by
    have hstart : Informed K ids i none [] [] [] c.shared :=
      ⟨hs, hidle, List.forall_mem_nil _, List.forall_mem_nil _, List.forall_mem_nil _⟩
    cases job with
    | call repo call draw =>
      have hcall : Triple (fleetEnv carriage K ids i (Job.call repo call draw).Creates)
          (Informed K ids i none [] [] []) (Job.program (.call repo call draw))
          ((Job.call repo call draw).Post i) := by
        refine Triple.bind (triple_fleetCall hkeeps hl.1 hl.2.1 hl.2.2) (fun id => ?_) fun e => ?_
        · exact Triple.done stable_hasMade fun _ hs => hs.2
        · exact Triple.done stable_fleet fun _ _ => trivial
      exact hcall _ hstart
    | sync params =>
      have hsync : Triple (fleetEnv carriage K ids i (Job.sync params).Creates)
          (Informed K ids i none [] [] [])
          (Job.program (.sync params)) ((Job.sync params).Post i) := by
        refine Triple.bind (triple_fleetSync hkeeps hids params) (fun _ => ?_) fun _ => ?_
        · exact Triple.done stable_fleet fun _ _ => trivial
        · exact Triple.done stable_fleet fun _ _ => trivial
      exact hsync _ hstart

end Run

end Rustend
