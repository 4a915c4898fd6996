import Rustend.Client.Updates
import Rustend.Lib.Interrupted

/-!
# A pull that is cut short

A pull applies the updates of its response one after the other, each in several
transactions, and moves the cursor at last.  When it is cut short, the next attempt
starts from the beginning.  What an update does depends on the local heads of its
object, so an attempt finds them as the one before has left them; it must come to the
same decision, and its writes must make up for those of the first.

## Main definitions

* `writtenHeads` — the head records that an update writes.
* `Midway` — the stores while the updates are applied.

## Main results

* `mem_objectHeads_applied_iff` — **what an update does to the head records.**
* `headsOf_accounted` — **no head is discarded without a delivered child.**
* `pulled_restart` — applying all updates makes up for an attempt that was cut short.
* `pullUpdates_restart` — **a pull can be cut short anywhere and repeated.**
-/

namespace Rustend

open Interleave

/-! ### The head records -/

/-- The records that an update writes. -/
def writtenHeads (u : ObjectUpdate) : KeyedStore HeadRecord.key :=
  KeyedStore.empty.putAll (u.heads.map (headRecordFromRevision u.objectId))

theorem mem_writtenHeads {u : ObjectUpdate} {head : HeadRecord} (h : head ∈ writtenHeads u) :
    ∃ rev ∈ u.heads, head = headRecordFromRevision u.objectId rev := by
  rcases KeyedStore.mem_putAll h with h | ⟨h, -⟩
  · obtain ⟨rev, hrev, rfl⟩ := List.mem_map.mp h
    exact ⟨rev, hrev, rfl⟩
  · cases h

/-- Every delivered head is written. -/
theorem exists_mem_writtenHeads {u : ObjectUpdate} {rev : Revision} (h : rev ∈ u.heads) :
    ∃ head ∈ writtenHeads u, head.objectId = u.objectId ∧ head.revisionId = rev.id := by
  obtain ⟨x, hx, hkey, hmem⟩ := KeyedStore.exists_mem_putAll
    (List.mem_map_of_mem (f := headRecordFromRevision u.objectId) h)
    (s := (KeyedStore.empty : KeyedStore HeadRecord.key))
  obtain ⟨rev', -, rfl⟩ := List.mem_map.mp hx
  exact ⟨_, hmem, rfl, congrArg RevisionId.mk (headKey_inj.mp hkey).2⟩

section Applied

variable {db : ClientDb} {u : ObjectUpdate}

/-- **What an update does to the head records**: it writes its own, and it takes away
those of its object when it clears them. -/
theorem mem_objectHeads_applied_iff (hobj : ∀ rev ∈ u.heads, rev.objectId = u.objectId)
    {head : HeadRecord} : head ∈ (db.applied u).objectHeads ↔ head ∈ writtenHeads u ∨
      head ∈ db.objectHeads ∧ (head.objectId = u.objectId →
        ¬ db.Clears u ∧ ∀ rev ∈ u.heads, rev.id ≠ head.revisionId) := by
  have hkey : (∀ v ∈ u.heads.map (headRecordFromRevision u.objectId), v.key ≠ head.key) ↔
      (head.objectId = u.objectId → ∀ rev ∈ u.heads, rev.id ≠ head.revisionId) := by
    rw [List.forall_mem_map]
    constructor
    · intro h ho rev hrev hid
      exact h rev hrev (headKey_inj.mpr ⟨ho.symm, congrArg RevisionId.uuid hid⟩)
    · intro h rev hrev heq
      obtain ⟨ho, hid⟩ := headKey_inj.mp heq
      exact h ho.symm rev hrev (congrArg RevisionId.mk hid)
  by_cases hclears : db.Clears u
  · rw [applied_of_clears hclears]
    show head ∈ KeyedStore.putAll _ _ ↔ _
    rw [KeyedStore.mem_putAll_iff, mem_clearedHeads, received_objectHeads]
    refine or_congr_right ?_
    constructor
    · intro ⟨⟨hmem, hne⟩, _⟩
      exact ⟨hmem, fun ho => absurd ho hne⟩
    · intro ⟨hmem, hkept⟩
      have hne : head.objectId ≠ u.objectId := fun ho => (hkept ho).1 hclears
      exact ⟨⟨hmem, hne⟩, hkey.mpr fun ho => absurd ho hne⟩
  · rw [applied_of_not_clears hclears]
    show head ∈ KeyedStore.putAll _ _ ↔ _
    have hmap : u.heads.map (fun rev => headRecordFromRevision rev.objectId rev) =
        u.heads.map (headRecordFromRevision u.objectId) :=
      List.map_congr_left fun rev hrev => by rw [hobj rev hrev]
    rw [hmap, KeyedStore.mem_putAll_iff, received_objectHeads, hkey]
    refine or_congr_right (and_congr_right fun _ => ?_)
    exact ⟨fun h ho => ⟨hclears, h ho⟩, fun h ho => (h ho).2⟩

/-- How the heads after an update come from those before it. -/
structure Accounts (db : ClientDb) (u : ObjectUpdate) (db' : ClientDb) : Prop where
  /-- Every delivered head is a local head afterwards. -/
  delivered : ∀ rev ∈ u.heads, rev.id ∈ db'.headsOf u.objectId
  /-- A former head stays, or is a declared parent of a delivered one. -/
  former : ∀ r ∈ db.headsOf u.objectId, r ∈ db'.headsOf u.objectId ∨ ∃ rev ∈ u.heads,
    r ∈ rev.parents
  /-- Nothing else becomes a head. -/
  nothing : ∀ r ∈ db'.headsOf u.objectId, r ∈ db.headsOf u.objectId ∨ ∃ rev ∈ u.heads, rev.id = r
  /-- The heads of other objects are left alone. -/
  others : ∀ head : HeadRecord, head.objectId ≠ u.objectId →
    (head ∈ db'.objectHeads ↔ head ∈ db.objectHeads)

theorem delivered_applied (hobj : ∀ rev ∈ u.heads, rev.objectId = u.objectId) {rev : Revision}
    (h : rev ∈ u.heads) : rev.id ∈ (db.applied u).headsOf u.objectId := by
  obtain ⟨head, hmem, ho, hid⟩ := exists_mem_writtenHeads h
  exact ⟨head, (mem_objectHeads_applied_iff hobj).mpr (.inl hmem), ho, hid⟩

theorem others_applied (hobj : ∀ rev ∈ u.heads, rev.objectId = u.objectId) {head : HeadRecord}
    (ho : head.objectId ≠ u.objectId) :
    head ∈ (db.applied u).objectHeads ↔ head ∈ db.objectHeads := by
  rw [mem_objectHeads_applied_iff hobj]
  constructor
  · intro h
    rcases h with h | ⟨h, _⟩
    · obtain ⟨rev, -, rfl⟩ := mem_writtenHeads h
      exact absurd rfl ho
    · exact h
  · intro h
    exact .inr ⟨h, fun heq => absurd heq ho⟩

/-- **No head is discarded that the update does not account for.** -/
theorem accounts_applied (hobj : ∀ rev ∈ u.heads, rev.objectId = u.objectId) :
    Accounts db u (db.applied u) where
  delivered rev hrev := delivered_applied hobj hrev
  former r hr := by
    by_cases hclears : db.Clears u
    · rcases hclears.2 r hr with hin | hparent
      · obtain ⟨rev, hrev, rfl⟩ := List.mem_map.mp hin
        exact .inl (delivered_applied hobj hrev)
      · exact .inr hparent
    · left
      rw [headsOf_applied_not_clears hclears]
      exact .inl hr
  nothing r hr := by
    obtain ⟨head, hmem, ho, rfl⟩ := hr
    rcases (mem_objectHeads_applied_iff hobj).mp hmem with hmem | ⟨hmem, -⟩
    · obtain ⟨rev, hrev, rfl⟩ := mem_writtenHeads hmem
      exact .inr ⟨rev, hrev, rfl⟩
    · exact .inl ⟨head, hmem, ho, rfl⟩
  others head ho := others_applied hobj ho

/-- A head survives all updates of a pull, unless one delivers a child of it. -/
theorem former_pulled {o : ObjectId} {r : RevisionId} :
    ∀ {updates : List ObjectUpdate} {db : ClientDb},
      (∀ u ∈ updates, ∀ rev ∈ u.heads, rev.objectId = u.objectId) → r ∈ db.headsOf o →
      r ∈ (db.pulled updates).headsOf o ∨
        ∃ u ∈ updates, u.objectId = o ∧ ∃ rev ∈ u.heads, r ∈ rev.parents
  | [], _, _, hr => .inl hr
  | u :: updates, db, hobj, hr => by
    obtain ⟨hu, hobj⟩ := List.forall_mem_cons.mp hobj
    have hstep : r ∈ (db.applied u).headsOf o ∨
        u.objectId = o ∧ ∃ rev ∈ u.heads, r ∈ rev.parents := by
      by_cases ho : o = u.objectId
      · subst ho
        exact ((accounts_applied hu).former r hr).imp_right fun h => ⟨rfl, h⟩
      · rw [headsOf_applied_of_ne hu ho]
        exact .inl hr
    rcases hstep with hr | ⟨ho, hparent⟩
    · rcases former_pulled hobj hr with h | ⟨v, hv, h⟩
      · exact .inl h
      · exact .inr ⟨v, List.mem_cons_of_mem _ hv, h⟩
    · exact .inr ⟨u, List.mem_cons_self, ho, hparent⟩

/-- **A pull never discards a head that it does not account for**: neither one update
nor, for a head that none of its revisions stands on, all updates of a pull. -/
theorem applyUpdates_account {σ : Type} {net : Net σ} {updates : List ObjectUpdate}
    (hobj : ∀ u ∈ updates, ∀ rev ∈ u.heads, rev.objectId = u.objectId) (db : ClientDb) (s : σ) :
    (∀ u ∈ updates, ∃ conflicted db', (applyUpdate u).run (answer net) (db, s) =
        (.ok conflicted, (db', s)) ∧ Accounts db u db') ∧
      ∀ counts, ∃ counts' db', (applyUpdates updates counts).run (answer net) (db, s) =
          (.ok counts', (db', s)) ∧
        ∀ o, ∀ r ∈ db.headsOf o, r ∈ db'.headsOf o ∨
          ∃ u ∈ updates, u.objectId = o ∧ ∃ rev ∈ u.heads, r ∈ rev.parents := by
  constructor
  · intro u hu
    exact ⟨_, _, run_applyUpdate u, accounts_applied (hobj u hu)⟩
  · intro counts
    obtain ⟨counts', hrun⟩ := run_applyUpdates net s updates db counts
    exact ⟨counts', _, hrun, fun o r hr => former_pulled hobj hr⟩

/-- An unsynced head stays beside one that is delivered and unrelated. -/
theorem applyUpdates_account_race :
    let db := (ClientDb.opened ⟨⟨7⟩⟩ ⟨⟨1⟩⟩).written (Run.raceRevision 1 .root)
    let u : ObjectUpdate := ⟨⟨⟨10⟩⟩, .replace, [Run.raceRevision 3 (.update ⟨⟨2⟩⟩)]⟩
    Accounts db u (db.applied u) ∧
      (db.applied u).headList = [(⟨⟨10⟩⟩, ⟨⟨1⟩⟩), (⟨⟨10⟩⟩, ⟨⟨3⟩⟩)] := by
  intro db u
  obtain ⟨conflicted, db', hrun, haccounts⟩ := (@applyUpdates_account Unit
    ⟨fun _ s => (.error .notCached, s), fun _ s => (.error .notCached, s)⟩ [u] (by decide) db ()).1
    u List.mem_cons_self
  rw [run_applyUpdate] at hrun
  obtain ⟨-, rfl, -⟩ : _ ∧ _ ∧ _ := by simpa only [Prod.mk.injEq] using hrun
  exact ⟨haccounts, by decide +kernel⟩

/-! ### Repeating an update -/

/-- An update that has been applied is decided in the same way again. -/
theorem clears_applied_iff : (db.applied u).Clears u ↔ db.Clears u := by
  constructor
  · intro ⟨haction, hall⟩
    by_contra hnot
    apply hnot
    refine ⟨haction, fun r hr => hall r ?_⟩
    rw [headsOf_applied_not_clears hnot]
    exact .inl hr
  · intro hclears
    refine ⟨hclears.1, fun r hr => .inl ?_⟩
    rw [headsOf_applied_clears hclears, if_pos rfl] at hr
    obtain ⟨rev, hrev, rfl⟩ := hr
    exact List.mem_map_of_mem hrev

theorem objectHeads_applied_twice (hobj : ∀ rev ∈ u.heads, rev.objectId = u.objectId) :
    ((db.applied u).applied u).objectHeads = (db.applied u).objectHeads := by
  apply KeyedStore.ext_mem
  intro head
  rw [mem_objectHeads_applied_iff hobj, mem_objectHeads_applied_iff hobj, clears_applied_iff]
  constructor
  · intro h
    rcases h with h | ⟨h, _⟩
    · exact .inl h
    · exact h
  · intro h
    rcases h with h | ⟨h, hkept⟩
    · exact .inl h
    · exact .inr ⟨.inr ⟨h, hkept⟩, hkept⟩

/-- Updates of different objects do not matter to each other. -/
theorem objectHeads_applied_comm {v : ObjectUpdate}
    (hu : ∀ rev ∈ u.heads, rev.objectId = u.objectId)
    (hv : ∀ rev ∈ v.heads, rev.objectId = v.objectId) (hne : u.objectId ≠ v.objectId) :
    ((db.applied u).applied v).objectHeads = ((db.applied v).applied u).objectHeads := by
  have hclears_v : (db.applied u).Clears v ↔ db.Clears v :=
    clears_congr (headsOf_applied_of_ne hu hne.symm)
  have hclears_u : (db.applied v).Clears u ↔ db.Clears u :=
    clears_congr (headsOf_applied_of_ne hv hne)
  have hwritten : ∀ {head : HeadRecord} {u v : ObjectUpdate} {P : Prop}, u.objectId ≠ v.objectId →
      head ∈ writtenHeads u → head.objectId = v.objectId → P := by
    intro head u v P hne h ho
    obtain ⟨rev, -, rfl⟩ := mem_writtenHeads h
    exact absurd ho hne
  apply KeyedStore.ext_mem
  intro head
  simp only [mem_objectHeads_applied_iff hu, mem_objectHeads_applied_iff hv, hclears_v, hclears_u]
  constructor
  · intro h
    rcases h with h | ⟨h | ⟨h, hku⟩, hkv⟩
    · exact .inr ⟨.inl h, hwritten hne.symm h⟩
    · exact .inl h
    · exact .inr ⟨.inr ⟨h, hkv⟩, hku⟩
  · intro h
    rcases h with h | ⟨h | ⟨h, hkv⟩, hku⟩
    · exact .inr ⟨.inl h, hwritten hne h⟩
    · exact .inl h
    · exact .inr ⟨.inr ⟨h, hku⟩, hkv⟩

end Applied

/-! ### Repeating the updates of a pull -/

theorem ClientDb.eq_of_stores {db db' : ClientDb} (hr : db.revisions = db'.revisions)
    (hh : db.objectHeads = db'.objectHeads) (hs : db.syncState = db'.syncState) : db = db' := by
  cases db
  cases db'
  cases hr
  cases hh
  cases hs
  rfl

/-- The records that an update puts. -/
def receivedRecords (u : ObjectUpdate) : List RevisionRecord :=
  u.heads.map fun rev => .fromRevision rev .synced

section Pulled

variable {db db' : ClientDb} {u : ObjectUpdate} {updates done rest : List ObjectUpdate}

theorem pulled_revisions (db : ClientDb) (updates : List ObjectUpdate) :
    (db.pulled updates).revisions = db.revisions.putAll (updates.flatMap receivedRecords) := by
  induction updates generalizing db with
  | nil => rfl
  | cons u updates ih =>
    rw [pulled_cons, ih, applied_revisions, List.flatMap_cons, KeyedStore.putAll_append]
    rfl

/-- What an update does to the heads depends on the heads alone. -/
theorem objectHeads_applied_congr (h : db.objectHeads = db'.objectHeads) :
    (db.applied u).objectHeads = (db'.applied u).objectHeads := by
  unfold ClientDb.applied
  rw [h]
  split <;> simp only [IdbOp.eval, received_objectHeads, h]

theorem objectHeads_pulled_congr (h : db.objectHeads = db'.objectHeads) :
    (db.pulled updates).objectHeads = (db'.pulled updates).objectHeads := by
  induction updates generalizing db db' with
  | nil => exact h
  | cons u updates ih => exact ih (objectHeads_applied_congr h)

/-- An update can be moved past updates of other objects. -/
theorem objectHeads_pulled_applied (hu : ∀ rev ∈ u.heads, rev.objectId = u.objectId)
    (hobj : ∀ v ∈ updates, ∀ rev ∈ v.heads, rev.objectId = v.objectId)
    (hne : ∀ v ∈ updates, u.objectId ≠ v.objectId) :
    ((db.pulled updates).applied u).objectHeads = ((db.applied u).pulled updates).objectHeads := by
  induction updates generalizing db with
  | nil => rfl
  | cons v updates ih =>
    obtain ⟨hv, hobj⟩ := List.forall_mem_cons.mp hobj
    obtain ⟨hnev, hne⟩ := List.forall_mem_cons.mp hne
    rw [pulled_cons, pulled_cons, ih hobj hne]
    exact objectHeads_pulled_congr (objectHeads_applied_comm hv hu hnev.symm)

/-- **Applying all updates again from the start**, after the first of them have been
applied, by induction over those: each of them is done again first of all. -/
theorem objectHeads_pulled_again :
    ∀ {done : List ObjectUpdate} {db : ClientDb},
      (∀ u ∈ done, ∀ rev ∈ u.heads, rev.objectId = u.objectId) →
      (done.map (·.objectId)).Nodup →
      ((db.pulled done).pulled (done ++ rest)).objectHeads = (db.pulled (done ++ rest)).objectHeads
  | [], _, _, _ => rfl
  | u :: done, db, hobj, hdistinct => by
    obtain ⟨hu, hobj⟩ := List.forall_mem_cons.mp hobj
    rw [List.map_cons, List.nodup_cons] at hdistinct
    have hne : ∀ v ∈ done, u.objectId ≠ v.objectId := by
      intro v hv heq
      exact hdistinct.1 (heq ▸ List.mem_map_of_mem hv)
    have hagain : (((db.applied u).pulled done).applied u).objectHeads =
        ((db.applied u).pulled done).objectHeads := by
      rw [objectHeads_pulled_applied hu hobj hne]
      exact objectHeads_pulled_congr (objectHeads_applied_twice hu)
    calc ((db.pulled (u :: done)).pulled (u :: done ++ rest)).objectHeads
        = ((((db.applied u).pulled done).applied u).pulled (done ++ rest)).objectHeads := rfl
      _ = (((db.applied u).pulled done).pulled (done ++ rest)).objectHeads :=
          objectHeads_pulled_congr hagain
      _ = ((db.applied u).pulled (done ++ rest)).objectHeads :=
          objectHeads_pulled_again hobj hdistinct.2
      _ = (db.pulled (u :: done ++ rest)).objectHeads := rfl

/-- The stores while the updates are applied: some are done, and of the others some
revisions may have been put. -/
def Midway (db : ClientDb) (updates : List ObjectUpdate) (db' : ClientDb) : Prop :=
  ∃ done rest heads, updates = done ++ rest ∧ heads ⊆ rest.flatMap (·.heads) ∧
    db' = (db.pulled done).received heads

theorem Midway.syncState (h : Midway db updates db') : db'.syncState = db.syncState := by
  obtain ⟨done, rest, heads, -, -, rfl⟩ := h
  rw [received_syncState, pulled_syncState]

theorem midway_pulled (db : ClientDb) (updates : List ObjectUpdate) :
    Midway db updates (db.pulled updates) :=
  ⟨updates, [], [], (List.append_nil _).symm, List.Subset.refl _, rfl⟩

/-- **Applying all updates makes up for an attempt that was cut short.** -/
theorem pulled_restart (hdistinct : (updates.map (·.objectId)).Nodup)
    (hobj : ∀ u ∈ updates, ∀ rev ∈ u.heads, rev.objectId = u.objectId)
    (h : Midway db updates db') : db'.pulled updates = db.pulled updates := by
  obtain ⟨done, rest, heads, rfl, hheads, rfl⟩ := h
  apply ClientDb.eq_of_stores
  · -- everything that was put is put again
    rw [pulled_revisions, received_revisions, pulled_revisions, pulled_revisions,
      ← KeyedStore.putAll_append db.revisions]
    apply KeyedStore.putAll_absorb
    intro record hrecord
    refine ⟨record, ?_, rfl⟩
    rw [List.flatMap_append]
    rcases List.mem_append.mp hrecord with hrecord | hrecord
    · exact List.mem_append_left _ hrecord
    · obtain ⟨rev, hrev, rfl⟩ := List.mem_map.mp hrecord
      obtain ⟨u, hu, hrev⟩ := List.mem_flatMap.mp (hheads hrev)
      exact List.mem_append_right _ (List.mem_flatMap.mpr ⟨u, hu, List.mem_map_of_mem hrev⟩)
  · rw [List.map_append] at hdistinct
    have hdone : ∀ u ∈ done, ∀ rev ∈ u.heads, rev.objectId = u.objectId :=
      fun u hu => hobj u (List.mem_append_left _ hu)
    calc (((db.pulled done).received heads).pulled (done ++ rest)).objectHeads
        = ((db.pulled done).pulled (done ++ rest)).objectHeads :=
          objectHeads_pulled_congr (received_objectHeads heads)
      _ = (db.pulled (done ++ rest)).objectHeads :=
          objectHeads_pulled_again hdone hdistinct.of_append_left
  · rw [pulled_syncState, received_syncState, pulled_syncState, pulled_syncState]

/-- Moving the cursor and applying updates do not matter to each other. -/
theorem pulled_advanced (db : ClientDb) (upTo : TransactionId) (updates : List ObjectUpdate) :
    ((db.advanced upTo).pulled updates).advanced upTo = (db.pulled updates).advanced upTo := by
  have hsync : ∀ {a b : ClientDb}, a.syncState = (b.advanced upTo).syncState →
      (a.advanced upTo).syncState = (b.advanced upTo).syncState := by
    intro a b h
    unfold ClientDb.advanced at h ⊢
    rcases hb : b.syncState with _ | ⟨_ | cid, _ | uid, last⟩ <;>
      simp only [hb] at h ⊢ <;> simp only [h]
  apply ClientDb.eq_of_stores
  · rw [advanced_revisions, advanced_revisions, pulled_revisions, pulled_revisions,
      advanced_revisions]
  · rw [advanced_objectHeads, advanced_objectHeads]
    exact objectHeads_pulled_congr (advanced_objectHeads db upTo)
  · apply hsync
    rw [pulled_syncState]
    unfold ClientDb.advanced
    rw [pulled_syncState]
    rcases db.syncState with _ | ⟨_ | cid, _ | uid, last⟩ <;> simp

end Pulled

/-! ### The states on the way -/

section Throughout

variable {σ : Type} {net : Net σ} {s : σ} {I : ClientDb → Prop} {db : ClientDb}

theorem throughout_idb (op : IdbOp) (h : I db) (hop : I (op.eval db).2) :
    (idb op).Throughout (answer net) (fun x => I x.1) (db, s) := .call h (.done hop)

theorem throughout_received : ∀ {heads : List Revision} {db : ClientDb},
    (∀ k, I (db.received (heads.take k))) →
    (Program.forEach (fun rev => idb (.putRevision (.fromRevision rev .synced))) heads).Throughout
      (answer net) (fun x => I x.1) (db, s)
  | [], _, h => .done (h 0)
  | rev :: heads, db, h => by
    rw [Program.forEach]
    apply (throughout_idb _ (h 0) (h 1)).bind (run_idb _)
    exact throughout_received fun k => h (k + 1)

theorem throughout_applyUpdate {u : ObjectUpdate} (hput : ∀ k, I (db.received (u.heads.take k)))
    (hend : I (db.applied u)) :
    (applyUpdate u).Throughout (answer net) (fun x => I x.1) (db, s) := by
  have hloop : ∀ db : ClientDb, (Program.forEach (fun rev =>
      idb (.putRevision (.fromRevision rev .synced))) u.heads).run (answer net) (db, s) =
      (.ok (), (db.received u.heads, s)) := run_forEach (fun _ _ => rfl) u.heads
  have hreceived : I (db.received u.heads) := by
    have hall := hput u.heads.length
    rwa [List.take_length] at hall
  rw [applyUpdate]
  apply (throughout_received hput).bind (hloop db)
  unfold ClientDb.applied at hend
  cases haction : u.action with
  | conflict =>
    rw [haction, if_neg (by simp)] at hend
    exact (throughout_idb _ hreceived hend).bind (run_idb _) (.done hend)
  | replace =>
    have hget : (idb (.getHeads u.objectId)).run (answer net) (db.received u.heads, s) =
        (.ok (getHeadsInStore db.objectHeads u.objectId), (db.received u.heads, s)) := by
      rw [run_idb]
      simp only [IdbOp.eval, received_objectHeads]
    rw [haction] at hend
    apply (throughout_idb (.getHeads u.objectId) hreceived hreceived).bind hget
    cases hdiv : hasDiverged (getHeadsInStore db.objectHeads u.objectId) u.heads with
    | true =>
      rw [hdiv, if_neg (by simp)] at hend
      exact (throughout_idb _ hreceived hend).bind (run_idb _) (.done hend)
    | false =>
      rw [hdiv, if_pos ⟨rfl, rfl⟩] at hend
      exact (throughout_idb _ hreceived hend).bind (run_idb _) (.done hend)

/-- The loop over the updates stays midway. -/
theorem throughout_applyUpdates : ∀ {updates : List ObjectUpdate} {db : ClientDb} {counts : ℕ × ℕ},
    (∀ db', Midway db updates db' → I db') →
    (applyUpdates updates counts).Throughout (answer net) (fun x => I x.1) (db, s)
  | [], db, counts, h => .done (h db (midway_pulled db []))
  | u :: updates, db, (pulled, conflicted), h => by
    rw [applyUpdates]
    refine (throughout_applyUpdate ?_ ?_).bind (run_applyUpdate u) ?_
    · intro k
      refine h _ ⟨[], u :: updates, u.heads.take k, rfl, ?_, rfl⟩
      rw [List.flatMap_cons]
      exact List.Subset.trans (List.take_subset _ _) (List.subset_append_left _ _)
    · exact h _ ⟨[u], updates, [], rfl, List.nil_subset _, rfl⟩
    · apply throughout_applyUpdates
      intro db' hmidway
      obtain ⟨done, rest, heads, hsplit, hheads, heq⟩ := hmidway
      exact h db' ⟨u :: done, rest, heads, by rw [hsplit]; rfl, hheads, heq⟩

/-- The stores during a pull: its updates are applied, and at last the cursor moves. -/
def Underway (db : ClientDb) (resp : PullResponse) (db' : ClientDb) : Prop :=
  Midway db resp.objectUpdates db' ∨
    db' = (db.pulled resp.objectUpdates).advanced resp.upToTransaction

/-- Reading a response issues no request. -/
theorem throughout_json {α : Type} {reply : HttpResponse α} {failed : String} (h : I db) :
    (reply.json failed).Throughout (answer net) (fun x => I x.1) (db, s) := by
  unfold HttpResponse.json
  split
  · exact .done h
  · split
    · exact .done h
    · exact .done h

/-- **What a pull goes through.** -/
theorem throughout_pullUpdates {params : PullRequest}
    {x : Except ClientError (HttpResponse PullResponse)} {resp : PullResponse}
    (hx : net.changesQuery params s = (x, s)) (hresp : parsed x = some resp) :
    (pullUpdates params).Throughout (answer net) (fun y => Underway db resp y.1) (db, s) := by
  have hstart : Underway db resp db :=
    .inl ⟨[], resp.objectUpdates, [], rfl, List.nil_subset _, rfl⟩
  have hpost : (Program.perform (S := browser) (.postChangesQuery params)).run
      (answer net) (db, s) = (x, (db, s)) := by
    rw [Program.run_perform, answer, hx]
  obtain ⟨reply, hpost, hjson⟩ := exists_reply hpost hresp "pull failed: "
  obtain ⟨counts, hcounts⟩ := run_applyUpdates net s resp.objectUpdates db (0, 0)
  have hpulled : Underway db resp (db.pulled resp.objectUpdates) := .inl (midway_pulled db _)
  rw [pullUpdates]
  refine Program.Throughout.bind (.call hstart (.done ?_)) hpost ?_
  · exact hstart
  refine (throughout_json hstart).bind hjson ?_
  refine (throughout_applyUpdates fun db' h => .inl h).bind hcounts ?_
  -- the cursor is written if there is an identity
  rcases h : (db.pulled resp.objectUpdates).syncState with _ | ⟨_ | cid, _ | uid, last⟩
  all_goals
    refine (throughout_idb .readSyncState hpulled ?_).bind (run_idb _) ?_
    · simp only [IdbOp.eval, h]
      exact hpulled
    simp only [IdbOp.eval, h]
  · exact .done hpulled
  · exact .done hpulled
  · exact .done hpulled
  · exact .done hpulled
  · refine (throughout_idb _ hpulled ?_).bind (run_idb _) (.done ?_)
    · right
      rw [ClientDb.advanced, h]
      rfl
    · right
      rw [ClientDb.advanced, h]
      rfl

end Throughout

/-! ### Cutting a pull short -/

section StopsOnError

theorem stops_idb (op : IdbOp) : (idb op).StopsOnError := .perform (S := browser) _

theorem stops_json {α : Type} (resp : HttpResponse α) (failed : String) :
    (resp.json failed).StopsOnError := by
  unfold HttpResponse.json
  split
  · trivial
  · split <;> trivial

theorem stops_applyUpdate (u : ObjectUpdate) : (applyUpdate u).StopsOnError := by
  apply (Program.StopsOnError.forEach (fun rev => stops_idb _) u.heads).bind
  intro _
  cases u.action with
  | conflict => exact (stops_idb _).bind fun _ => .pure true
  | replace =>
    apply (stops_idb (.getHeads u.objectId)).bind
    intro existing
    split
    · exact (stops_idb _).bind fun _ => .pure true
    · exact (stops_idb _).bind fun _ => .pure false

theorem stops_applyUpdates : ∀ (updates : List ObjectUpdate) (counts : ℕ × ℕ),
    (applyUpdates updates counts).StopsOnError
  | [], counts => .pure counts
  | u :: updates, (_, _) => (stops_applyUpdate u).bind fun _ => stops_applyUpdates updates _

/-- A pull gives up at the first transaction that fails. -/
theorem stops_pullUpdates (params : PullRequest) : (pullUpdates params).StopsOnError := by
  refine Program.StopsOnError.bind (.perform (S := browser) (.postChangesQuery params))
    fun reply => ?_
  refine (stops_json reply _).bind fun resp => ?_
  refine (stops_applyUpdates resp.objectUpdates _).bind fun counts => ?_
  refine (stops_idb .readSyncState).bind ?_
  intro ⟨cid, uid, _⟩
  cases cid with
  | none => trivial
  | some cid =>
    cases uid with
    | none => trivial
    | some uid => exact (stops_idb _).bind fun _ => .pure counts

end StopsOnError

/-- An attempt at a pull takes the stores from `db` to `db'` before it is cut short: by
a crash after some number of requests, or by a request that fails. -/
def StopsAt {σ : Type} (net : Net σ) (params : PullRequest) (s : σ) (db db' : ClientDb) : Prop :=
  ∃ n, db' = ((pullUpdates params).stateAfter (answer net) n (db, s)).1 ∨
    ∃ e, db' = ((pullUpdates params).runFailing (answer net) e n (db, s)).2.1

section CutShort

variable {σ : Type} {net : Net σ} {s : σ} {db db' : ClientDb} {resp : PullResponse}
  {x : Except ClientError (HttpResponse PullResponse)} {params : PullRequest}

theorem StopsAt.underway (hx : net.changesQuery params s = (x, s)) (hresp : parsed x = some resp)
    (h : StopsAt net params s db db') : Underway db resp db' := by
  obtain ⟨n, rfl | ⟨e, rfl⟩⟩ := h
  · exact throughout_pullUpdates hx hresp n
  · rw [(stops_pullUpdates params).runFailing_state]
    exact throughout_pullUpdates hx hresp n

/-- To complete a pull that is under way is to do it from the start. -/
theorem Underway.complete (hdistinct : (resp.objectUpdates.map (·.objectId)).Nodup)
    (hobj : ∀ u ∈ resp.objectUpdates, ∀ rev ∈ u.heads, rev.objectId = u.objectId)
    (h : Underway db resp db') :
    (db'.pulled resp.objectUpdates).advanced resp.upToTransaction =
      (db.pulled resp.objectUpdates).advanced resp.upToTransaction := by
  rcases h with hmid | rfl
  · rw [pulled_restart hdistinct hobj hmid]
  · rw [pulled_advanced, pulled_restart hdistinct hobj (midway_pulled db resp.objectUpdates)]

/-- A pull whose response comes through. -/
theorem run_pullUpdates_of_parsed (db : ClientDb) (hx : net.changesQuery params s = (x, s))
    (hresp : parsed x = some resp) : ∃ counts, (pullUpdates params).run (answer net) (db, s) =
      (.ok counts, ((db.pulled resp.objectUpdates).advanced resp.upToTransaction, s)) := by
  rcases run_pullUpdates db hx with ⟨hnone, -⟩ | ⟨resp', counts, hresp', hrun⟩
  · rw [hresp] at hnone
    cases hnone
  · rw [hresp] at hresp'
    cases hresp'
    exact ⟨counts, hrun⟩

/-- The cursor after a pull. -/
theorem lastTxn_advanced (db : ClientDb) (upTo : TransactionId) :
    (db.advanced upTo).lastTxn = some upTo ∨
      db.syncState.bind (·.clientId) = none ∨ db.syncState.bind (·.userId) = none := by
  unfold ClientDb.lastTxn ClientDb.advanced
  rcases db.syncState with _ | ⟨_ | cid, _ | uid, last⟩ <;> simp

/-- **A pull can be cut short anywhere and repeated**, any number of times: the attempt
that completes leaves the stores that one uninterrupted pull leaves, and so does a pull
that is done twice.  An attempt moves the cursor only after it has applied all updates. -/
theorem pullUpdates_restart (hx : net.changesQuery params s = (x, s))
    (hresp : parsed x = some resp) (hdistinct : (resp.objectUpdates.map (·.objectId)).Nodup)
    (hobj : ∀ u ∈ resp.objectUpdates, ∀ rev ∈ u.heads, rev.objectId = u.objectId) (db : ClientDb) :
    ∃ final, (∃ counts, (pullUpdates params).run (answer net) (db, s) = (.ok counts, (final, s))) ∧
      (∃ counts, (pullUpdates params).run (answer net) (final, s) = (.ok counts, (final, s))) ∧
      (final.lastTxn = some resp.upToTransaction ∨
        db.syncState.bind (·.clientId) = none ∨ db.syncState.bind (·.userId) = none) ∧
      ∀ db', Relation.ReflTransGen (StopsAt net params s) db db' →
        (∃ counts, (pullUpdates params).run (answer net) (db', s) = (.ok counts, (final, s))) ∧
        ∀ stopped, StopsAt net params s db' stopped →
          stopped.syncState = db'.syncState ∨ stopped = final := by
  have hcomplete : ∀ db', Relation.ReflTransGen (StopsAt net params s) db db' →
      (db'.pulled resp.objectUpdates).advanced resp.upToTransaction =
        (db.pulled resp.objectUpdates).advanced resp.upToTransaction := by
    intro db' h
    induction h with
    | refl => rfl
    | tail _ hstop ih => rw [(hstop.underway hx hresp).complete hdistinct hobj, ih]
  refine ⟨(db.pulled resp.objectUpdates).advanced resp.upToTransaction,
    run_pullUpdates_of_parsed db hx hresp, ?_, ?_, fun db' h => ⟨?_, fun stopped hstop => ?_⟩⟩
  · obtain ⟨counts, hrun⟩ := run_pullUpdates_of_parsed
      ((db.pulled resp.objectUpdates).advanced resp.upToTransaction) hx hresp
    rw [Underway.complete hdistinct hobj (.inr rfl)] at hrun
    exact ⟨counts, hrun⟩
  · have hcursor := lastTxn_advanced (db.pulled resp.objectUpdates) resp.upToTransaction
    rwa [pulled_syncState] at hcursor
  · obtain ⟨counts, hrun⟩ := run_pullUpdates_of_parsed db' hx hresp
    rw [hcomplete db' h] at hrun
    exact ⟨counts, hrun⟩
  · rcases hstop.underway hx hresp with hmid | rfl
    · exact .inl hmid.syncState
    · exact .inr (hcomplete db' h)

/-- A server that gives the same answer to every pull. -/
def sameAnswer (resp : PullResponse) : Net Unit where
  changes _ s := (.error (.network "offline"), s)
  changesQuery _ s := (.ok ⟨200, .ok resp⟩, s)

/-- A revision of client 8. -/
def revisionOf (o n : ℕ) (lineage : Lineage) : Revision :=
  { Run.raceRevision n lineage with objectId := ⟨⟨o⟩⟩, createdBy := ⟨⟨8⟩⟩ }

/-- Stores with heads that are behind, two heads in conflict, and a pending one. -/
def busyStores : ClientDb :=
  (((ClientDb.opened ⟨⟨7⟩⟩ ⟨⟨1⟩⟩).pulled
    [⟨⟨⟨10⟩⟩, .replace, [revisionOf 10 1 .root]⟩,
      ⟨⟨⟨30⟩⟩, .conflict, [revisionOf 30 6 (.update ⟨⟨5⟩⟩), revisionOf 30 7 (.update ⟨⟨5⟩⟩)]⟩,
      ⟨⟨⟨40⟩⟩, .replace, [revisionOf 40 8 .root]⟩]).written
    { Run.raceRevision 4 .root with objectId := ⟨⟨20⟩⟩ }).advanced ⟨1⟩

/-- Two objects in conflict, the second one with the pending head; and two that are replaced. -/
def mixedResponse : PullResponse where
  upToTransaction := ⟨5⟩
  objectUpdates :=
    [⟨⟨⟨10⟩⟩, .conflict, [revisionOf 10 2 (.update ⟨⟨1⟩⟩), revisionOf 10 3 (.update ⟨⟨1⟩⟩)]⟩,
      ⟨⟨⟨20⟩⟩, .replace, [revisionOf 20 9 .root]⟩,
      ⟨⟨⟨30⟩⟩, .replace, [revisionOf 30 11 (.merge ⟨⟨6⟩⟩ ⟨⟨7⟩⟩ [])]⟩,
      ⟨⟨⟨40⟩⟩, .replace, [revisionOf 40 12 (.update ⟨⟨8⟩⟩)]⟩]

/-- The stores that a pull of this response leaves when it stops after `n` requests. -/
def cutShort (n : ℕ) (db : ClientDb) : ClientDb :=
  ((pullUpdates ⟨none, none, none, none⟩).stateAfter (answer (sameAnswer mixedResponse)) n
    (db, ())).1

/-- The first attempt stops with the last object left, the second while it writes the first one
again, and the third completes. -/
theorem pullUpdates_restart_mixed :
    ((cutShort 10 busyStores).headList = [(⟨⟨10⟩⟩, ⟨⟨1⟩⟩), (⟨⟨10⟩⟩, ⟨⟨2⟩⟩), (⟨⟨10⟩⟩, ⟨⟨3⟩⟩),
        (⟨⟨20⟩⟩, ⟨⟨4⟩⟩), (⟨⟨20⟩⟩, ⟨⟨9⟩⟩), (⟨⟨30⟩⟩, ⟨⟨11⟩⟩), (⟨⟨40⟩⟩, ⟨⟨8⟩⟩)] ∧
      (cutShort 10 busyStores).lastTxn = some ⟨1⟩) ∧
    let x := (pullUpdates ⟨none, none, none, none⟩).run (answer (sameAnswer mixedResponse))
      (cutShort 3 (cutShort 10 busyStores), ())
    x.2.1.headList = [(⟨⟨10⟩⟩, ⟨⟨1⟩⟩), (⟨⟨10⟩⟩, ⟨⟨2⟩⟩), (⟨⟨10⟩⟩, ⟨⟨3⟩⟩), (⟨⟨20⟩⟩, ⟨⟨4⟩⟩),
        (⟨⟨20⟩⟩, ⟨⟨9⟩⟩), (⟨⟨30⟩⟩, ⟨⟨11⟩⟩), (⟨⟨40⟩⟩, ⟨⟨12⟩⟩)] ∧ x.2.1.lastTxn = some ⟨5⟩ := by
  refine ⟨by decide +kernel, ?_⟩
  intro x
  have hanswer : (sameAnswer mixedResponse).changesQuery ⟨none, none, none, none⟩ () =
      (.ok ⟨200, .ok mixedResponse⟩, ()) := rfl
  obtain ⟨final, ⟨counts, hrun⟩, -, hcursor, hrestart⟩ :=
    pullUpdates_restart hanswer rfl (by decide) (by decide) busyStores
  obtain ⟨⟨counts', hrun'⟩, -⟩ := hrestart (cutShort 3 (cutShort 10 busyStores))
    (.tail (.single ⟨10, .inl rfl⟩) ⟨3, .inl rfl⟩)
  have hheads : ((pullUpdates ⟨none, none, none, none⟩).run (answer (sameAnswer mixedResponse))
      (busyStores, ())).2.1.headList = [(⟨⟨10⟩⟩, ⟨⟨1⟩⟩), (⟨⟨10⟩⟩, ⟨⟨2⟩⟩), (⟨⟨10⟩⟩, ⟨⟨3⟩⟩),
        (⟨⟨20⟩⟩, ⟨⟨4⟩⟩), (⟨⟨20⟩⟩, ⟨⟨9⟩⟩), (⟨⟨30⟩⟩, ⟨⟨11⟩⟩), (⟨⟨40⟩⟩, ⟨⟨12⟩⟩)] := by
    decide +kernel
  have hstate : busyStores.syncState = some ⟨some ⟨⟨7⟩⟩, some ⟨⟨1⟩⟩, some ⟨1⟩⟩ := by
    simp [busyStores, ClientDb.advanced, ClientDb.opened]
  rw [hrun] at hheads
  have hx : x = (.ok counts', (final, ())) := hrun'
  rw [hx]
  refine ⟨hheads, ?_⟩
  rcases hcursor with hcursor | hnone | hnone
  · exact hcursor
  · rw [hstate] at hnone
    cases hnone
  · rw [hstate] at hnone
    cases hnone

end CutShort

end Rustend
