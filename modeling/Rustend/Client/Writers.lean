import Rustend.Client.Offline
import Rustend.Lib.Interleaving

/-!
# Operations on one database at the same time

Calls and pulls run as tasks of their own on the stores of one client, an IndexedDB
transaction at a time.  What an operation makes of the heads of an object rests on those it has
read, in a transaction before the one in which it overwrites them.  A write that has
come in between is lost.  Nothing is lost when every write so far is among the heads that the
operation has read, or below one of them.

## Main definitions

* `Operation`, `watched` — the operations, and the stores with what they have read and written.
* `OverwritesRead` — the steps that overwrite only what their session has read.
* `WrittenKept` — what has been written is a head, or an ancestor of one.

## Main results

* `triple_call`, `triple_pullUpdates` — **an operation replaces no head that it has read,
  except by one on top of it.**
* `writtenKept_next` — what a step keeps of the written revisions.
* `acknowledged_kept` — **what a call has returned is kept, in every interleaving.**
-/

namespace Rustend

open Interleave Relation

/-! ### Operations -/

/-- An operation on the stores: a call that writes, or a pull. -/
inductive Operation where
  | call (call : Call) (draw : Draw)
  | pull (params : PullRequest)

/-- What an operation returns. -/
inductive OperationReply where
  | wrote (id : RevisionId)
  | pulled (counts : ℕ × ℕ)

/-- The program of an operation. -/
def Operation.program (repo : Repository) : Operation → Browser OperationReply
  | .call c draw => do return .wrote (← c.program repo draw)
  | .pull params => do return .pulled (← pullUpdates params)

/-- The stores, with what the operations have read and written. -/
structure Watched where
  db : ClientDb
  /-- The heads that each session has read last. -/
  seen : ℕ → List RevisionId
  /-- The heads that sessions have put in the place of others. -/
  wrote : List (ℕ × ObjectId × RevisionId)

/-- After a transaction of session `i`. -/
def Watched.after (s : Watched) (i : ℕ) (op : IdbOp) : Watched where
  db := (op.eval s.db).2
  seen :=
    match op with
    | .getHeads o =>
        Function.update s.seen i ((getHeadsInStore s.db.objectHeads o).map (·.revisionId))
    | _ => s.seen
  wrote :=
    match op with
    | .replaceHeads o heads => s.wrote ++ heads.map fun rev => (i, o, rev.id)
    | _ => s.wrote

/-- What the server answers to a pull. -/
abbrev QueryReply := Except ClientError (HttpResponse PullResponse)

/-- The stores, one transaction at a time; what the server answers is a choice. -/
def watched : Machine browser ClientError ℕ QueryReply Watched where
  exec i ch op s :=
    match op with
    | .idb op => some (.ok (op.eval s.db).1, s.after i op)
    | .postChangesQuery _ => some (ch, s)
    | .postChanges _ => none

/-- The operations on one database, with what they have read and written. -/
abbrev WatchedConfig := Config browser ClientError ℕ Operation OperationReply Watched

/-! ### One lineage for each id -/

/-- The revision declares the parents that its id stands for. -/
def Revision.Follows (lineage : RevisionId → Set RevisionId) (rev : Revision) : Prop :=
  ∀ p, p ∈ rev.parents ↔ p ∈ lineage rev.id

/-- Whatever the records say about an id, they agree. -/
def Watched.OneLineage (lineage : RevisionId → Set RevisionId) (s : Watched) : Prop :=
  ∀ record ∈ s.db.revisions, record.revision.Follows lineage

/-- A revision is held. -/
def Watched.Holds (s : Watched) (r : RevisionId) : Prop := ∃ record ∈ s.db.revisions, record.id = r

/-- A saving, updating or deleting call. -/
def Call.Plain : Call → Prop
  | .resolveConflict .. => False
  | _ => True

/-- An id is drawn for one revision only, and the server does not change a revision. -/
def Consistent (lineage : RevisionId → Set RevisionId) :
    Label ℕ QueryReply Operation → Prop
  | .start _ (.call call draw) => call.Plain ∧ ∀ p, p ∈ call.parents ↔ p ∈ lineage draw.revisionId
  | .start _ (.pull _) => True
  | .step _ ch => ∀ resp, parsed ch = some resp → ∀ u ∈ resp.objectUpdates, ∀ rev ∈ u.heads,
      rev.Follows lineage

/-! ### The sessions -/

/-- What a step of session `i` does.  It takes heads away of which those that the session has
read are among the new heads, or declared parents of one. -/
structure WriterStep (lineage : RevisionId → Set RevisionId) (i : ℕ) (s s' : Watched) : Prop where
  seen : ∀ j, j ≠ i → s'.seen j = s.seen j
  wrote : ∀ e ∈ s.wrote, e ∈ s'.wrote
  own : ∀ e ∈ s'.wrote, e ∈ s.wrote ∨ e.1 = i
  holds : ∀ r, s.Holds r → s'.Holds r
  oneLineage : s.OneLineage lineage → s'.OneLineage lineage
  heads : ∀ o, s.db.headsOf o ⊆ s'.db.headsOf o ∨
    ∀ l ∈ s.seen i, ∃ h ∈ s'.db.headsOf o, l = h ∨ s'.Holds h ∧ l ∈ lineage h

/-- Session `i` among others, which leave alone what it has read and written. -/
def writerEnv (lineage : RevisionId → Set RevisionId) (i : ℕ) :
    Env browser ClientError Watched where
  exec op s r s' := ∃ ch, Consistent lineage (.step i ch) ∧ watched.exec i ch op s = some (r, s')
  rely s s' := s'.seen i = s.seen i ∧ (∀ e ∈ s.wrote, e ∈ s'.wrote) ∧ ∀ r, s.Holds r → s'.Holds r
  guar := WriterStep lineage i
  rely_refl _ := ⟨rfl, fun _ he => he, fun _ hr => hr⟩
  rely_trans _ _ _ h h' :=
    ⟨h'.1.trans h.1, fun e he => h'.2.1 e (h.2.1 e he), fun r hr => h'.2.2 r (h.2.2 r hr)⟩

/-- What a session knows: the heads it has read last, and revisions that are held. -/
structure Knows (i : ℕ) (seen held : List RevisionId) (s : Watched) : Prop where
  seen : s.seen i = seen
  held : ∀ r ∈ held, s.Holds r

section Requests

variable {lineage : RevisionId → Set RevisionId} {i : ℕ} {seen held : List RevisionId}
  {o : ObjectId} {heads : List Revision}

theorem stable_knows : Stable (writerEnv lineage i) (Knows i seen held) :=
  fun _ _ hrely h => ⟨hrely.1.trans h.seen, fun r hr => hrely.2.2 r (h.held r hr)⟩

theorem stable_true {P : Prop} : Stable (writerEnv lineage i) fun _ => P := fun _ _ _ h => h

/-- A transaction of a session answers what it does to the stores. -/
theorem writerEnv_idb {op : IdbOp} {s s' : Watched} {r : Except ClientError op.Res}
    (h : (writerEnv lineage i).exec (.idb op) s r s') :
    r = .ok (op.eval s.db).1 ∧ s' = s.after i op := by
  obtain ⟨ch, -, hexec⟩ := h
  cases hexec
  exact ⟨rfl, rfl⟩

theorem triple_putRevision {rev : Revision} (hrev : rev.Follows lineage) (status : SyncStatus) :
    Triple (writerEnv lineage i) (Knows i seen held) (idb (.putRevision (.fromRevision rev status)))
      (Ends (fun _ => Knows i seen (held ++ [rev.id])) fun _ _ => False) := by
  refine Triple.perform stable_knows (fun r => ?_) fun s r s' hs hexec => ?_
  · cases r with
    | ok _ => exact stable_knows
    | error e => exact stable_true
  obtain ⟨rfl, rfl⟩ := writerEnv_idb hexec
  have hholds : ∀ r, s.Holds r → (s.after i (.putRevision (.fromRevision rev status))).Holds r := by
    intro r ⟨record, hrecord, hid⟩
    by_cases hsame : record.id = rev.id
    · exact ⟨_, KeyedStore.mem_put.mpr (.inl rfl), hsame.symm.trans hid⟩
    · refine ⟨record, KeyedStore.mem_put.mpr (.inr ⟨hrecord, ?_⟩), hid⟩
      exact fun hkey => hsame (RevisionId.key_inj.mp hkey)
  refine ⟨⟨fun _ _ => rfl, fun _ he => he, fun _ he => .inl he, hholds,
    fun hone record hrecord => ?_, fun o => .inl ?_⟩, hs.seen, fun r hr => ?_⟩
  · rcases KeyedStore.mem_put.mp hrecord with rfl | ⟨hold, -⟩
    · exact hrev
    · exact hone record hold
  · exact le_rfl
  · rcases List.mem_append.mp hr with hr | hr
    · exact hholds r (hs.held r hr)
    · rw [List.mem_singleton.mp hr]
      exact ⟨_, KeyedStore.mem_put.mpr (.inl rfl), rfl⟩

theorem triple_getHeads : Triple (writerEnv lineage i) (Knows i seen held) (idb (.getHeads o))
    (Ends (fun existing => Knows i (existing.map (·.revisionId)) held) fun _ _ => False) := by
  refine Triple.perform stable_knows (fun r => ?_) fun s r s' hs hexec => ?_
  · cases r with
    | ok _ => exact stable_knows
    | error e => exact stable_true
  obtain ⟨rfl, rfl⟩ := writerEnv_idb hexec
  refine ⟨⟨fun j hj => ?_, fun _ he => he, fun _ he => .inl he, fun _ hr => hr, fun hone => hone,
    fun o => .inl le_rfl⟩, ?_, hs.held⟩
  · exact Function.update_of_ne hj _ _
  · exact Function.update_self _ _ _

/-- Overwriting heads: the new ones are held, and what has been read is among them or
below them. -/
theorem triple_replaceHeads (hheads : ∀ rev ∈ heads, rev.Follows lineage ∧ rev.id ∈ held)
    (hseen : ∀ l ∈ seen, ∃ rev ∈ heads, l = rev.id ∨ l ∈ rev.parents) :
    Triple (writerEnv lineage i) (Knows i seen held) (idb (.replaceHeads o heads))
      (Ends (fun _ s => ∀ rev ∈ heads, (i, o, rev.id) ∈ s.wrote) fun _ _ => False) := by
  refine Triple.perform stable_knows (fun r => ?_) fun s r s' hs hexec => ?_
  · cases r with
    | ok _ => exact fun _ _ hrely h rev hrev => hrely.2.1 _ (h rev hrev)
    | error e => exact stable_true
  obtain ⟨rfl, rfl⟩ := writerEnv_idb hexec
  refine ⟨⟨fun _ _ => rfl, fun e he => List.mem_append_left _ he, fun e he => ?_, fun _ hr => hr,
    fun hone => hone, fun o' => ?_⟩, fun rev hrev => ?_⟩
  · refine (List.mem_append.mp he).imp_right fun hnew => ?_
    obtain ⟨rev, -, rfl⟩ := List.mem_map.mp hnew
    rfl
  · have hafter : (s.after i (.replaceHeads o heads)).db.headsOf o' =
        if o' = o then {r | ∃ rev ∈ heads, rev.id = r} else s.db.headsOf o' :=
      headsOf_replaceHeads o'
    rw [hafter]
    split
    · right
      intro l hl
      obtain ⟨rev, hrev, hcase⟩ := hseen l (hs.seen ▸ hl)
      refine ⟨rev.id, ⟨rev, hrev, rfl⟩, hcase.imp_right fun hp => ?_⟩
      exact ⟨hs.held _ (hheads rev hrev).2, ((hheads rev hrev).1 l).mp hp⟩
    · exact .inl le_rfl
  · exact List.mem_append_right _ (List.mem_map_of_mem hrev)

/-- A transaction that takes no head away and leaves the revisions alone. -/
theorem triple_quiet (op : IdbOp) (hwrote : ∀ s : Watched, (s.after i op).wrote = s.wrote)
    (hseen : ∀ s : Watched, (s.after i op).seen = s.seen)
    (hrevisions : ∀ db, (op.eval db).2.revisions = db.revisions)
    (hheads : ∀ db o, db.headsOf o ⊆ (op.eval db).2.headsOf o) :
    Triple (writerEnv lineage i) (fun _ => True) (idb op)
      (Ends (fun _ _ => True) fun _ _ => False) := by
  refine Triple.perform stable_true (fun r => ?_) fun s r s' _ hexec => ?_
  · cases r with
    | ok _ => exact stable_true
    | error e => exact stable_true
  obtain ⟨rfl, rfl⟩ := writerEnv_idb hexec
  have hsame : (s.after i op).db.revisions = s.db.revisions := hrevisions s.db
  refine ⟨⟨fun j _ => by rw [hseen], fun e he => by rwa [hwrote],
    fun e he => .inl (by rwa [hwrote] at he), fun r hr => ?_, fun hone => ?_,
    fun o => .inl (hheads s.db o)⟩, trivial⟩
  · unfold Watched.Holds
    rw [hsame]
    exact hr
  · unfold Watched.OneLineage
    rw [hsame]
    exact hone

/-! ### Calls -/

theorem triple_writeRevision {rev : Revision} (hrev : rev.Follows lineage)
    (hseen : ∀ l ∈ seen, l ∈ rev.parents) :
    Triple (writerEnv lineage i) (Knows i seen held) (writeRevision rev)
      (Ends (fun id s => (i, rev.objectId, id) ∈ s.wrote) fun _ _ => True) := by
  have hreplace : Triple (writerEnv lineage i) (Knows i seen (held ++ [rev.id]))
      (idb (.replaceHeads rev.objectId [rev]))
      (Ends (fun _ s => ∀ e ∈ [rev], (i, rev.objectId, e.id) ∈ s.wrote) fun _ _ => False) := by
    refine triple_replaceHeads (List.forall_mem_singleton.mpr ⟨hrev, ?_⟩) fun l hl => ?_
    · exact List.mem_append_right _ (List.mem_singleton_self _)
    · exact ⟨rev, List.mem_singleton_self _, .inr (hseen l hl)⟩
  refine Triple.seq (triple_putRevision hrev .pending) (fun _ => ?_) (fun _ => stable_true)
    fun _ _ => False.elim
  refine Triple.seq hreplace (fun _ => ?_) (fun _ => stable_true) fun _ _ => False.elim
  refine Triple.done (fun s s' hrely h e he => hrely.2.1 _ (h e he)) fun s h => ?_
  exact h rev (List.mem_singleton_self _)

variable {repo : Repository} {draw : Draw} {Q : RevisionId → Watched → Prop}

theorem triple_fail {α : Type} {P : Watched → Prop} {Q : α → Watched → Prop} (e : ClientError) :
    Triple (writerEnv lineage i) P (.fail e) (Ends Q fun _ _ => True) :=
  fun _ _ _ _ => trivial

/-- An edit is on top of the only head that it has read. -/
theorem triple_edit {p : RevisionId} (content : Content)
    (hlineage : ∀ q, q ∈ [p] ↔ q ∈ lineage draw.revisionId) :
    Triple (writerEnv lineage i) (Knows i seen held) (repo.edit o p content draw)
      (Ends (fun id s => (i, o, id) ∈ s.wrote) fun _ _ => True) := by
  obtain ⟨f, hf, hall⟩ := edit_shape repo draw o p content
  rw [hf]
  refine Triple.seq triple_getHeads (fun heads => ?_) (fun _ => stable_true) fun _ _ => False.elim
  rcases hall heads with ⟨e, he⟩ | ⟨rev, ⟨hid, -, -, hobj, hparents, hread⟩, hwrite⟩
  · rw [he]
    exact triple_fail e
  · rw [hwrite, hread, ← hobj]
    refine triple_writeRevision (fun q => ?_) fun l hl => ?_
    · rw [hparents, hid]
      exact hlineage q
    · rw [hparents]
      exact hl

/-- **A call replaces no head that it has read, except by one on top of it**, and what it
returns it has written. -/
theorem triple_call {c : Call} (hplain : c.Plain)
    (hlineage : ∀ p, p ∈ c.parents ↔ p ∈ lineage draw.revisionId) :
    Triple (writerEnv lineage i) (Knows i [] []) (c.program repo draw)
      (Ends (fun id s => (i, c.objectId draw, id) ∈ s.wrote) fun _ _ => True) := by
  cases c with
  | save objectType value =>
    rcases save_shape repo draw objectType value with ⟨e, he⟩ | ⟨rev, hrev, hwrite⟩
    · rw [he]
      exact triple_fail e
    · rw [hwrite, ← hrev.objectId]
      refine triple_writeRevision (fun p => ?_) (List.forall_mem_nil _)
      rw [hrev.parents, hrev.id]
      exact hlineage p
  | update o p value =>
    cases value with
    | error msg => exact triple_fail _
    | ok data => exact triple_edit (.active data) hlineage
  | delete o p => exact triple_edit .deleted hlineage
  | resolveConflict o parents resolved => exact absurd hplain id

/-! ### Pulls -/

/-- **An update replaces no head that it has read, except by one on top of it.** -/
theorem triple_applyUpdate {u : ObjectUpdate} (hu : ∀ rev ∈ u.heads, rev.Follows lineage) :
    Triple (writerEnv lineage i) (fun _ => True) (applyUpdate u)
      (Ends (fun _ _ => True) fun _ _ => True) := by
  have hadd : Triple (writerEnv lineage i) (fun _ => True) (idb (.addHeads u.heads))
      (Ends (fun _ _ => True) fun _ _ => False) := by
    refine triple_quiet _ (fun _ => rfl) (fun _ => rfl) (fun _ => rfl) fun db o => ?_
    rw [headsOf_addHeads]
    exact Set.subset_union_left
  have hputs : ∀ seen, Triple (writerEnv lineage i) (Knows i seen [])
      (.forEach (fun rev => idb (.putRevision (.fromRevision rev .synced))) u.heads)
      (Ends (fun _ => Knows i seen (u.heads.map (·.id))) fun _ _ => False) := by
    intro seen
    refine Triple.forEach (I := fun xs => Knows i seen (xs.map (·.id))) (fun _ => stable_knows)
      (fun _ => stable_true) (fun xs x rest hall => ?_) u.heads [] rfl
    rw [List.map_append]
    have hx : x ∈ u.heads := by
      rw [show u.heads = xs ++ x :: rest from hall]
      exact List.mem_append_right _ List.mem_cons_self
    exact triple_putRevision (hu x hx) .synced
  have hfrom : Triple (writerEnv lineage i) (fun s => ∃ seen, Knows i seen [] s) (applyUpdate u)
      (Ends (fun _ _ => True) fun _ _ => True) := by
    refine Triple.exists_pre fun seen => ?_
    unfold applyUpdate
    refine Triple.seq (hputs seen) (fun _ => ?_) (fun _ => stable_true) fun _ _ => False.elim
    have hskip : ∀ {P : Watched → Prop} (b : Bool), Triple (writerEnv lineage i) P
        (do idb (.addHeads u.heads); return b) (Ends (fun _ _ => True) fun _ _ => True) := by
      intro P b
      refine Triple.conseq ?_ (fun _ _ => trivial) fun _ _ h => h
      refine Triple.seq hadd (fun _ => ?_) (fun _ => stable_true) fun _ _ => False.elim
      exact Triple.done stable_true fun _ _ => trivial
    cases u.action with
    | conflict => exact hskip true
    | replace =>
      refine Triple.seq triple_getHeads (fun existing => ?_) (fun _ => stable_true)
        fun _ _ => False.elim
      split
      · exact hskip true
      · next hdiverged =>
        -- each head that has been read is delivered, or a declared parent of one that is
        have hseen : ∀ l ∈ existing.map (·.revisionId), ∃ rev ∈ u.heads,
            l = rev.id ∨ l ∈ rev.parents := by
          intro l hl
          rcases hasDiverged_eq_false_iff.mp (Bool.eq_false_iff.mpr hdiverged) l hl with
            hid | ⟨rev, hrev, hp⟩
          · obtain ⟨rev, hrev, rfl⟩ := List.mem_map.mp hid
            exact ⟨rev, hrev, .inl rfl⟩
          · exact ⟨rev, hrev, .inr hp⟩
        refine Triple.seq (triple_replaceHeads (fun rev hrev => ⟨hu rev hrev, ?_⟩) hseen)
          (fun _ => ?_) (fun _ => stable_true) fun _ _ => False.elim
        · exact List.mem_map_of_mem hrev
        · exact Triple.done (fun s s' hrely h e he => hrely.2.1 _ (h e he)) fun _ _ => trivial
  exact hfrom.conseq (fun s _ => ⟨s.seen i, rfl, List.forall_mem_nil _⟩) fun _ _ h => h

theorem triple_applyUpdates : ∀ {updates : List ObjectUpdate} (counts : ℕ × ℕ),
    (∀ u ∈ updates, ∀ rev ∈ u.heads, rev.Follows lineage) →
    Triple (writerEnv lineage i) (fun _ => True) (applyUpdates updates counts)
      (Ends (fun _ _ => True) fun _ _ => True)
  | [], _, _ => Triple.done stable_true fun _ _ => trivial
  | u :: updates, (pulled, conflicted), hall => by
    obtain ⟨hu, hall⟩ := List.forall_mem_cons.mp hall
    unfold applyUpdates
    exact Triple.seq (triple_applyUpdate hu) (fun _ => triple_applyUpdates _ hall)
      (fun _ => stable_true) fun _ _ h => h

/-- **A pull replaces no head that it has read, except by one on top of it.** -/
theorem triple_pullUpdates (params : PullRequest) :
    Triple (writerEnv lineage i) (fun _ => True) (pullUpdates params)
      (Ends (fun _ _ => True) fun _ _ => True) := by
  -- what comes back is consistent
  have hpost : Triple (writerEnv lineage i) (fun _ => True)
      (.perform (S := browser) (.postChangesQuery params))
      (Ends (fun reply _ => ∀ resp, parsed (.ok reply) = some resp →
        ∀ u ∈ resp.objectUpdates, ∀ rev ∈ u.heads, rev.Follows lineage) fun _ _ => True) := by
    refine Triple.perform stable_true (fun r => ?_) ?_
    · cases r with
      | ok _ => exact stable_true
      | error e => exact stable_true
    · rintro s r s' - ⟨ch, hch, hexec⟩
      cases hexec
      refine ⟨⟨fun _ _ => rfl, fun _ he => he, fun _ he => .inl he, fun _ hr => hr,
        fun hone => hone, fun o => .inl le_rfl⟩, ?_⟩
      cases r with
      | ok reply => exact hch
      | error e => trivial
  have hread : Triple (writerEnv lineage i) (fun _ => True) (idb .readSyncState)
      (Ends (fun _ _ => True) fun _ _ => False) := by
    have hsame : ∀ db, (IdbOp.eval .readSyncState db).2 = db := by
      intro db
      rcases hstate : db.syncState with _ | record <;> simp only [IdbOp.eval, hstate]
    exact triple_quiet _ (fun _ => rfl) (fun _ => rfl) (fun db => by rw [hsame])
      fun db o => by rw [hsame]
  have hwrite : ∀ client user last, Triple (writerEnv lineage i) (fun _ => True)
      (idb (.writeSyncState client user last)) (Ends (fun _ _ => True) fun _ _ => False) :=
    fun _ _ _ => triple_quiet _ (fun _ => rfl) (fun _ => rfl) (fun _ => rfl) fun _ _ => le_rfl
  unfold pullUpdates
  refine Triple.seq hpost (fun reply => ?_) (fun _ => stable_true) fun _ _ h => h
  unfold HttpResponse.json
  split
  · exact triple_fail _
  · next hok =>
    cases hbody : reply.body with
    | error msg => exact triple_fail _
    | ok resp =>
      intro s hs
      have hresp : parsed (.ok reply) = some resp := by
        rw [parsed, if_pos (by simpa using hok), hbody]
        rfl
      refine Triple.seq (triple_applyUpdates _ (hs resp hresp)) (fun counts => ?_)
        (fun _ => stable_true) (fun _ _ h => h) s trivial
      refine Triple.seq hread (fun state => ?_) (fun _ => stable_true) fun _ _ => False.elim
      have hdone : Triple (writerEnv lineage i) (fun _ => True) (pure counts)
          (Ends (fun _ _ => True) fun _ _ => True) := Triple.done stable_true fun _ _ => trivial
      obtain ⟨client, user, last⟩ := state
      cases client with
      | none => exact hdone
      | some cid =>
        cases user with
        | none => exact hdone
        | some uid =>
          exact Triple.seq (hwrite cid uid _) (fun _ => hdone) (fun _ => stable_true)
            fun _ _ => False.elim

end Requests

/-! ### Sessions together -/

/-- What an operation has returned, it has written. -/
def Operation.Post (i : ℕ) : Operation → Except ClientError OperationReply → Watched → Prop
  | .call c draw, .ok (.wrote id), s => (i, c.objectId draw, id) ∈ s.wrote
  | _, _, _ => True

/-- `y` declares `x` as a parent, by the local records. -/
def ClientDb.Parent (db : ClientDb) (x y : RevisionId) : Prop :=
  ∃ record ∈ db.revisions, record.id = y ∧ x ∈ record.revision.parents

/-- The revision is a head of the object, or an ancestor of one. -/
def ClientDb.Retains (db : ClientDb) (o : ObjectId) (r : RevisionId) : Prop :=
  ∃ h ∈ db.headsOf o, ReflTransGen db.Parent r h

/-- Session `i` is a call. -/
def Calls (c : WatchedConfig) (i : ℕ) : Prop :=
  ∃ call draw p, c.procs i = some (.call call draw, p)

/-- A call has made the revision the head of the object. -/
def WrittenBy (c : WatchedConfig) (o : ObjectId) (r : RevisionId) : Prop :=
  ∃ i, Calls c i ∧ (i, o, r) ∈ c.shared.wrote

/-- A step that overwrites the heads of an object is one of a session that has read what calls
have written there: each such revision is a head that it has read, or an ancestor of one. -/
def OverwritesRead (c : WatchedConfig) : Label ℕ QueryReply Operation → Prop
  | .start .. => True
  | .step i _ => ∀ o heads, c.pending i = some (.idb (.replaceHeads o heads)) →
      ∀ r, WrittenBy c o r → ∃ l ∈ c.shared.seen i, ReflTransGen c.shared.db.Parent r l

/-- What calls have written is retained. -/
def WrittenKept (c : WatchedConfig) : Prop := ∀ o r, WrittenBy c o r → c.shared.db.Retains o r

/-- The stores before any session has started. -/
def Watched.start (db : ClientDb) : Watched := ⟨db, fun _ => [], []⟩

section Run

variable {lineage : RevisionId → Set RevisionId} {repo : Repository} {db : ClientDb}
  {allowed : WatchedConfig → Label ℕ QueryReply Operation → Prop} {c c' : WatchedConfig}

theorem compatible_writers (hallowed : ∀ c l, allowed c l → Consistent lineage l) :
    Compatible watched (Operation.program repo) allowed (fun i _ => writerEnv lineage i)
      (Watched.OneLineage lineage) (fun i s => s.seen i = [] ∧ ∀ e ∈ s.wrote, e.1 ≠ i)
      Operation.Post where
  exec c i ch req op next r s' hl hp hx := ⟨ch, hallowed _ _ hl, hx⟩
  guar_rely i j _ _ s s' hij hg := ⟨hg.seen j hij.symm, hg.wrote, hg.holds⟩
  guar_inv i _ s s' hg := hg.oneLineage
  guar_idle i j _ s s' hij hg _ hidle := by
    refine ⟨(hg.seen j hij.symm).trans hidle.1, fun e he => ?_⟩
    rcases hg.own e he with hold | hown
    · exact hidle.2 e hold
    · rw [hown]
      exact hij
  start c i req hl _ hidle := by
    have hcons := hallowed _ _ hl
    cases req with
    | call call draw =>
      obtain ⟨hplain, hlineage⟩ := hcons
      have hcall : Triple (writerEnv lineage i) (Knows i [] [])
          (Operation.program repo (.call call draw)) (Operation.Post i (.call call draw)) := by
        refine Triple.bind (triple_call hplain hlineage) (fun id => ?_) fun e => ?_
        · exact Triple.done (fun s s' hrely h => hrely.2.1 _ h) fun _ h => h
        · exact Triple.done stable_true fun _ _ => trivial
      exact hcall _ ⟨hidle.1, List.forall_mem_nil _⟩
    | pull params =>
      have hpull : Triple (writerEnv lineage i) (fun _ => True)
          (Operation.program repo (.pull params)) (Operation.Post i (.pull params)) := by
        refine Triple.bind (triple_pullUpdates params) (fun counts => ?_) fun e => ?_
        · exact Triple.done stable_true fun _ _ => trivial
        · exact Triple.done stable_true fun _ _ => trivial
      exact hpull _ trivial

/-- What holds of a configuration that consistent steps reach. -/
abbrev WritersSafe (lineage : RevisionId → Set RevisionId) (c : WatchedConfig) : Prop :=
  AllSafe (fun i _ => writerEnv lineage i) (Watched.OneLineage lineage)
    (fun i s => s.seen i = [] ∧ ∀ e ∈ s.wrote, e.1 ≠ i) Operation.Post c

theorem writers_safe (hallowed : ∀ c l, allowed c l → Consistent lineage l)
    (hdb : (Watched.start db).OneLineage lineage)
    (hc : Reachable watched (Operation.program repo) allowed (Watched.start db) c) :
    WritersSafe lineage c :=
  hc.safe (compatible_writers hallowed) hdb fun _ => ⟨rfl, List.forall_mem_nil _⟩

/-- A declared parent stays one while nothing that is held is given up. -/
theorem WriterStep.parent {i : ℕ} {s s' : Watched} (h : WriterStep lineage i s s')
    (hone : s.OneLineage lineage) {x y : RevisionId} (hp : s.db.Parent x y) : s'.db.Parent x y := by
  obtain ⟨record, hrecord, rfl, hx⟩ := hp
  obtain ⟨record', hrecord', hid⟩ := h.holds _ ⟨record, hrecord, rfl⟩
  refine ⟨record', hrecord', hid, (h.oneLineage hone record' hrecord' x).mpr ?_⟩
  rw [show record'.revision.id = record.revision.id from hid]
  exact (hone record hrecord x).mp hx

theorem WriterStep.below {i : ℕ} {s s' : Watched} (h : WriterStep lineage i s s')
    (hone : s.OneLineage lineage) {x y : RevisionId} (hxy : ReflTransGen s.db.Parent x y) :
    ReflTransGen s'.db.Parent x y := ReflTransGen.mono (fun _ _ => h.parent hone) _ _ hxy

/-- Only overwriting takes heads away. -/
theorem headsOf_subset_eval (op : IdbOp) (hop : ∀ o heads, op ≠ .replaceHeads o heads)
    (db : ClientDb) (o : ObjectId) : db.headsOf o ⊆ (op.eval db).2.headsOf o := by
  have hmark : ∀ id status, (db.markRevision id status).headsOf o = db.headsOf o := by
    intro id status
    rw [ClientDb.headsOf, markRevision_objectHeads, ClientDb.headsOf]
  cases op with
  | replaceHeads o' heads => exact absurd rfl (hop o' heads)
  | addHeads heads =>
    rw [headsOf_addHeads]
    exact Set.subset_union_left
  | markRevisionSynced id => exact (hmark id .synced).ge
  | markRevisionError id reason => exact (hmark id (.syncError reason)).ge
  | readSyncState =>
    rcases hstate : db.syncState with _ | record <;> simp only [IdbOp.eval, hstate, Set.Subset.refl]
  | _ => exact le_rfl

/-- A step of a session does not change what it is. -/
theorem calls_iff {i : ℕ} {req : Operation} {p q : Browser OperationReply}
    (hi : c.procs i = some (req, p)) (hp : c'.procs = Function.update c.procs i (some (req, q)))
    (j : ℕ) : Calls c' j ↔ Calls c j := by
  unfold Calls
  rw [hp]
  by_cases hji : j = i
  · subst hji
    rw [Function.update_self, hi]
    simp
  · rw [Function.update_of_ne hji]

/-- Nothing is written by a session that has not started. -/
theorem writtenBy_start (hs : WritersSafe lineage c) {i : ℕ} {req : Operation}
    (hi : c.procs i = none) (hshared : c'.shared = c.shared) {q : Browser OperationReply}
    (hp : c'.procs = Function.update c.procs i (some (req, q))) {o : ObjectId} {r : RevisionId}
    (h : WrittenBy c' o r) : WrittenBy c o r := by
  obtain ⟨j, ⟨call, draw, p, hj⟩, hmem⟩ := h
  rw [hshared] at hmem
  have hji : j ≠ i := (hs.idle i hi).2 _ hmem
  rw [hp, Function.update_of_ne hji] at hj
  exact ⟨j, ⟨call, draw, p, hj⟩, hmem⟩

/-- What a step retains, unless it overwrites the heads of the object. -/
theorem WriterStep.retains {i : ℕ} {s s' : Watched} (h : WriterStep lineage i s s')
    (hone : s.OneLineage lineage) {o : ObjectId} {r : RevisionId} (hr : s.db.Retains o r)
    (hheads : s.db.headsOf o ⊆ s'.db.headsOf o) : s'.db.Retains o r := by
  obtain ⟨x, hx, hrx⟩ := hr
  exact ⟨x, hheads hx, h.below hone hrx⟩

/-- What was at or below a head that the session has read is retained. -/
theorem WriterStep.retains_seen {i : ℕ} {s s' : Watched} (h : WriterStep lineage i s s')
    (hone : s.OneLineage lineage) {o : ObjectId} {r l : RevisionId} (hr : s.db.Retains o r)
    (hl : l ∈ s.seen i) (hrl : ReflTransGen s.db.Parent r l) : s'.db.Retains o r := by
  rcases h.heads o with hsub | hseen
  · exact h.retains hone hr hsub
  · have hrl' := h.below hone hrl
    obtain ⟨x, hx, rfl | ⟨⟨record, hrecord, rfl⟩, hmem⟩⟩ := hseen l hl
    · exact ⟨_, hx, hrl'⟩
    · refine ⟨_, hx, hrl'.tail ⟨record, hrecord, rfl, ?_⟩⟩
      exact (h.oneLineage hone record hrecord l).mpr hmem

/-- A step that overwrites no heads takes no written revision away. -/
theorem WriterStep.writtenKept {i : ℕ} (hstep : WriterStep lineage i c.shared c'.shared)
    (hone : c.shared.OneLineage lineage) (hcalls : ∀ j, Calls c' j ↔ Calls c j)
    (hwrote : c'.shared.wrote = c.shared.wrote)
    (hheads : ∀ o, c.shared.db.headsOf o ⊆ c'.shared.db.headsOf o) (hk : WrittenKept c) :
    WrittenKept c' := by
  intro o r ⟨j, hj, hmem⟩
  rw [hwrote] at hmem
  exact hstep.retains hone (hk o r ⟨j, (hcalls j).mp hj, hmem⟩) (hheads o)

/-- **Overwriting the heads of an object** that the session has read: what had been written is
retained through what was read, and what has just been written is a head. -/
theorem writtenKept_replaceHeads {i : ℕ} {ch : QueryReply} {o : ObjectId}
    {heads : List Revision} (hstep : WriterStep lineage i c.shared c'.shared)
    (hone : c.shared.OneLineage lineage) (hcalls : ∀ j, Calls c' j ↔ Calls c j)
    (hpending : c.pending i = some (.idb (.replaceHeads o heads)))
    (hafter : c'.shared = c.shared.after i (.replaceHeads o heads))
    (hread : OverwritesRead c (.step i ch)) (hk : WrittenKept c) : WrittenKept c' := by
  have hwrote : c'.shared.wrote = c.shared.wrote ++ heads.map fun rev => (i, o, rev.id) := by
    rw [hafter]
    rfl
  have hheads : ∀ o', c'.shared.db.headsOf o' =
      if o' = o then {r | ∃ rev ∈ heads, rev.id = r} else c.shared.db.headsOf o' := by
    rw [hafter]
    exact headsOf_replaceHeads
  intro o' r ⟨j, hj, hmem⟩
  rw [hwrote] at hmem
  rcases List.mem_append.mp hmem with hold | hnew
  · have hwritten : WrittenBy c o' r := ⟨j, (hcalls j).mp hj, hold⟩
    by_cases ho : o' = o
    · subst ho
      obtain ⟨l, hl, hrl⟩ := hread o' heads hpending r hwritten
      exact hstep.retains_seen hone (hk o' r hwritten) hl hrl
    · -- the heads of other objects stay
      refine hstep.retains hone (hk o' r hwritten) ?_
      rw [hheads, if_neg ho]
  · -- what it has just written is a head
    obtain ⟨rev, hrev, heq⟩ := List.mem_map.mp hnew
    cases heq
    refine ⟨rev.id, ?_, .refl⟩
    rw [hheads, if_pos rfl]
    exact ⟨rev, hrev, rfl⟩

/-- **What a step does to the written revisions**: they stay heads or ancestors of heads, if it
overwrites only what its session has read. -/
theorem writtenKept_next {l : Label ℕ QueryReply Operation} (hs : WritersSafe lineage c)
    (hl : Consistent lineage l) (hread : OverwritesRead c l)
    (hn : c.next watched (Operation.program repo) l = some c') (hk : WrittenKept c) :
    WrittenKept c' := by
  rcases Config.next_cases hn with ⟨i, req, rfl, hi, hshared, hp⟩ |
    ⟨i, ch, req, op, next, r, rfl, hi, hx, hp⟩
  · -- a session starts
    intro o r hr
    rw [hshared]
    exact hk o r (writtenBy_start hs hi hshared hp hr)
  · have hstep : WriterStep lineage i c.shared c'.shared :=
      (hs.safe i req _ hi _ ((writerEnv lineage i).rely_refl _) r _ ⟨ch, hl, hx⟩).1
    have hcalls := calls_iff hi hp
    cases op with
    -- there are no pushes in these runs, and a pull request does not touch the stores
    | postChanges => cases hx
    | postChangesQuery =>
      have hshared : c.shared = c'.shared := (Prod.mk.inj (Option.some.inj hx)).2
      refine hstep.writtenKept hs.inv hcalls ?_ (fun o => ?_) hk
      · rw [hshared]
      · rw [hshared]
    | idb op =>
      have hexec : (writerEnv lineage i).exec (.idb op) c.shared r c'.shared := ⟨ch, hl, hx⟩
      obtain ⟨rfl, hafter⟩ := writerEnv_idb hexec
      by_cases hop : ∀ o heads, op ≠ .replaceHeads o heads
      · refine hstep.writtenKept hs.inv hcalls ?_ (fun o => ?_) hk
        · rw [hafter]
          cases op with
          | replaceHeads o heads => exact absurd rfl (hop o heads)
          | _ => rfl
        · rw [hafter]
          exact headsOf_subset_eval op hop _ o
      · push Not at hop
        obtain ⟨o, heads, rfl⟩ := hop
        exact writtenKept_replaceHeads hstep hs.inv hcalls (Config.pending_eq hi) hafter hread hk

/-- **What every run keeps** in which sessions overwrite only what they have read. -/
theorem writtenKept (hdb : (Watched.start db).OneLineage lineage)
    (hc : Reachable watched (Operation.program repo)
      (fun c l => Consistent lineage l ∧ OverwritesRead c l) (Watched.start db) c) :
    WrittenKept c := by
  induction hc with
  | init =>
    intro o r ⟨j, ⟨call, draw, p, hj⟩, _⟩
    cases hj
  | next hc hl hn ih =>
    exact writtenKept_next (writers_safe (fun _ _ => And.left) hdb hc) hl.1 hl.2 hn ih

/-- **What a call has returned is kept**, in every interleaving of calls and pulls in which
sessions overwrite only what they have read: it is a head of its object, or an ancestor of
one. -/
theorem acknowledged_kept (hdb : ∀ record ∈ db.revisions, record.revision.Follows lineage)
    (hc : Reachable watched (Operation.program repo)
      (fun c l => Consistent lineage l ∧ OverwritesRead c l) (Watched.start db) c) :
    ∀ i call draw id, c.procs i = some (.call call draw, .done (.ok (.wrote id))) →
      ∃ h ∈ c.shared.db.headsOf (call.objectId draw), ReflTransGen c.shared.db.Parent id h := by
  have hsafe := writers_safe (fun _ _ => And.left) hdb hc
  intro i call draw id hi
  have hwrote := hsafe.safe i _ _ hi _ ((writerEnv lineage i).rely_refl _)
  exact writtenKept hdb hc _ id ⟨i, ⟨call, draw, _, hi⟩, hwrote⟩

end Run

/-! ### Two updates

A call saves the revision 1 of object 10; two others update it on top of that. -/

/-- The revisions 2 and 3 are on top of the revision 1. -/
def tripParents (r : RevisionId) : List RevisionId :=
  if r = ⟨⟨2⟩⟩ ∨ r = ⟨⟨3⟩⟩ then [⟨⟨1⟩⟩] else []

/-- The same, as sets. -/
def tripLineage (r : RevisionId) : Set RevisionId := {p | p ∈ tripParents r}

/-- The server does not matter here. -/
def noReply : QueryReply := .error (.network "")

/-- The save of object `o` with revision `r`. -/
def saving (o r : ℕ) : Operation := .call (.save "trip" (.ok .null)) ⟨⟨⟨o⟩⟩, ⟨⟨r⟩⟩, 0⟩

/-- The update of object 10 with revision `r`. -/
def updating (r : ℕ) : Operation := .call (.update ⟨⟨10⟩⟩ ⟨⟨1⟩⟩ (.ok .null)) ⟨⟨⟨11⟩⟩, ⟨⟨r⟩⟩, 0⟩

/-- Object 10 has been saved. -/
def savedLabels : List (Label ℕ QueryReply Operation) :=
  .start 0 (saving 10 1) :: List.replicate 2 (.step 0 noReply)

/-- One update, while another object is saved. -/
def besideLabels : List (Label ℕ QueryReply Operation) :=
  savedLabels ++ [.start 1 (updating 2), .start 2 (saving 20 4), .step 1 noReply, .step 2 noReply,
    .step 1 noReply, .step 2 noReply, .step 1 noReply]

/-- Two updates, which both read the heads before either of them writes. -/
def racingLabels : List (Label ℕ QueryReply Operation) :=
  savedLabels ++ [.start 1 (updating 2), .start 2 (updating 3), .step 1 noReply, .step 2 noReply] ++
    List.replicate 2 (.step 1 noReply) ++ List.replicate 2 (.step 2 noReply)

/-- The label is consistent with `tripLineage`. -/
def consistentTrip : Label ℕ QueryReply Operation → Bool
  | .start _ (.call (.resolveConflict ..) _) => false
  | .start _ (.call call draw) => decide (call.parents = tripParents draw.revisionId)
  | .start _ (.pull _) => true
  | .step _ ch => (parsed ch).isNone

/-- Everything written to the object has been read. -/
def keepsTrip (c : WatchedConfig) : Label ℕ QueryReply Operation → Bool
  | .start .. => true
  | .step i _ =>
      match c.pending i with
      | some (.idb (.replaceHeads o _)) => c.shared.wrote.all fun e =>
          decide (e.2.1 = o → e.2.2 ∈ c.shared.seen i)
      | _ => true

theorem consistentTrip_sound {l : Label ℕ QueryReply Operation} (h : consistentTrip l = true) :
    Consistent tripLineage l := by
  cases l with
  | start i req =>
    cases req with
    | pull params => trivial
    | call call draw =>
      cases call with
      | resolveConflict o parents resolved => cases h
      | _ => exact ⟨trivial, fun p => by rw [of_decide_eq_true h]; rfl⟩
  | step i ch =>
    intro resp hresp
    have hnone : (parsed ch).isNone = true := h
    rw [hresp] at hnone
    cases hnone

theorem keepsTrip_sound {c : WatchedConfig} {l : Label ℕ QueryReply Operation}
    (h : keepsTrip c l = true) : OverwritesRead c l := by
  cases l with
  | start i req => trivial
  | step i ch =>
    intro o heads hpending r ⟨j, _, hmem⟩
    simp only [keepsTrip, hpending] at h
    exact ⟨r, of_decide_eq_true (List.all_eq_true.mp h _ hmem) rfl, .refl⟩

/-- What session `i` has returned, if it is a call that has succeeded. -/
def returned (c : WatchedConfig) (i : ℕ) : Option (ObjectId × RevisionId) :=
  match c.procs i with
  | some (.call call draw, .done (.ok (.wrote id))) => some (call.objectId draw, id)
  | _ => none

theorem returned_eq_some {c : WatchedConfig} {i : ℕ} {o : ObjectId} {id : RevisionId}
    (h : returned c i = some (o, id)) : ∃ call draw,
      c.procs i = some (.call call draw, .done (.ok (.wrote id))) ∧ call.objectId draw = o := by
  unfold returned at h
  split at h
  · next call draw id' hi =>
    cases h
    exact ⟨call, draw, hi, rfl⟩
  · cases h

/-- The session has ended. -/
def ended (c : WatchedConfig) (i : ℕ) : Bool :=
  match c.procs i with
  | some (_, .call _ _) => false
  | _ => true

/-- An update is kept beside the save of another object. -/
theorem acknowledged_kept_beside : ∃ c : WatchedConfig, returned c 1 = some (⟨⟨10⟩⟩, ⟨⟨2⟩⟩) ∧
    ∃ h ∈ c.shared.db.headsOf ⟨⟨10⟩⟩, ReflTransGen c.shared.db.Parent ⟨⟨2⟩⟩ h := by
  have hrun : ((Config.init (Watched.start (.opened ⟨⟨7⟩⟩ ⟨⟨1⟩⟩))).runChecked watched
      (Operation.program exampleRepository) (fun c l => consistentTrip l && keepsTrip c l)
      besideLabels).map (returned · 1) = some (some (⟨⟨10⟩⟩, ⟨⟨2⟩⟩)) := by
    decide +kernel
  obtain ⟨c, hc, hreturned⟩ := Option.map_eq_some_iff.mp hrun
  have hreach : Reachable watched (Operation.program exampleRepository)
      (fun c l => Consistent tripLineage l ∧ OverwritesRead c l)
      (Watched.start (.opened ⟨⟨7⟩⟩ ⟨⟨1⟩⟩)) c := by
    refine Reachable.runChecked (fun c l hcheck => ?_) .init hc
    rw [Bool.and_eq_true] at hcheck
    exact ⟨consistentTrip_sound hcheck.1, keepsTrip_sound hcheck.2⟩
  obtain ⟨call, draw, hi, ho⟩ := returned_eq_some hreturned
  have hdb : ∀ record ∈ (ClientDb.opened ⟨⟨7⟩⟩ ⟨⟨1⟩⟩).revisions,
      record.revision.Follows tripLineage := nofun
  have hkept := acknowledged_kept hdb hreach 1 call draw _ hi
  rw [ho] at hkept
  exact ⟨c, hreturned, hkept⟩

/-- Both updates have succeeded, and only the second is there. -/
def FirstLost (c : WatchedConfig) : Prop :=
  (∀ i < 3, ended c i = true) ∧ returned c 1 = some (⟨⟨10⟩⟩, ⟨⟨2⟩⟩) ∧
    returned c 2 = some (⟨⟨10⟩⟩, ⟨⟨3⟩⟩) ∧ c.shared.db.headList = [(⟨⟨10⟩⟩, ⟨⟨3⟩⟩)] ∧
    ∀ record ∈ c.shared.db.revisions.records, ⟨⟨2⟩⟩ ∉ record.revision.parents

instance : DecidablePred FirstLost := fun _ => inferInstanceAs (Decidable (_ ∧ _))

/-- **An update that is lost**: both calls succeed, and when everything has ended the revision
of the first is neither a head nor an ancestor of one. -/
theorem acknowledged_lost : ∃ c : WatchedConfig,
    Reachable watched (Operation.program exampleRepository) (fun _ l => Consistent tripLineage l)
      (Watched.start (.opened ⟨⟨7⟩⟩ ⟨⟨1⟩⟩)) c ∧
    (∀ i req p, c.procs i = some (req, p) → ∃ r, p = .done r) ∧
    returned c 1 = some (⟨⟨10⟩⟩, ⟨⟨2⟩⟩) ∧ returned c 2 = some (⟨⟨10⟩⟩, ⟨⟨3⟩⟩) ∧
    ∀ h ∈ c.shared.db.headsOf ⟨⟨10⟩⟩, ¬ ReflTransGen c.shared.db.Parent ⟨⟨2⟩⟩ h := by
  have hlabels : ∀ l ∈ racingLabels, consistentTrip l = true := by decide +kernel
  have hrun : ((Config.init (Watched.start (.opened ⟨⟨7⟩⟩ ⟨⟨1⟩⟩))).runLabels watched
      (Operation.program exampleRepository) racingLabels).map (fun c => decide (FirstLost c)) =
        some true := by decide +kernel
  obtain ⟨c, hc, hfacts⟩ := Option.map_eq_some_iff.mp hrun
  obtain ⟨hended, hfirst, hsecond, hheads, hparents⟩ := of_decide_eq_true hfacts
  have hreach : Reachable watched (Operation.program exampleRepository)
      (fun _ l => Consistent tripLineage l) (Watched.start (.opened ⟨⟨7⟩⟩ ⟨⟨1⟩⟩)) c :=
    Reachable.runLabels .init (fun _ l hl => consistentTrip_sound (hlabels l hl)) hc
  refine ⟨c, hreach, fun i req p hi => ?_, hfirst, hsecond, fun h hh hbelow => ?_⟩
  · by_cases hlt : i < 3
    · have hend := hended i hlt
      simp only [ended, hi] at hend
      cases p with
      | done r => exact ⟨r, rfl⟩
      | call op next => cases hend
    · -- the other sessions have not started
      have hnone : c.procs i = none := by
        have hstarts : ∀ l ∈ racingLabels,
            (match l with | .start i _ => decide (i < 3) | .step .. => true) = true := by
          decide +kernel
        refine Config.runLabels_idle (fun req hreq => hlt ?_) rfl hc
        exact of_decide_eq_true (hstarts _ hreq)
      rw [hnone] at hi
      cases hi
  · -- the head is the other update, and nothing stands on the first
    rw [← ClientDb.mem_headList, hheads, List.mem_singleton, Prod.mk.injEq] at hh
    rcases hbelow.cases_head with heq | ⟨y, ⟨record, hrecord, -, hp⟩, -⟩
    · rw [hh.2] at heq
      cases heq
    · exact hparents record (KeyedStore.mem_def.mp hrecord) hp

end Rustend
