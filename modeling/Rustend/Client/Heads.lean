import Rustend.Client.Resolve
import Rustend.Client.Restart

/-!
# The heads of an object

What the scan over the keys of one object returns, what overwriting the heads leaves, and how
many objects a pull leaves with several heads.

## Main definitions

* `Regular` — updates as a server sends them.

## Main results

* `scan_exact` — **the scan returns the heads of its object, and overwriting leaves the given
  ones.**
* `Regular.conflicts_iff` — what an update counts as, by the heads that it leaves.
* `pullUpdates_conflicted` — **a pull counts the objects that it leaves with several heads.**
-/

namespace Rustend

open Interleave

/-! ### The scan -/

section Scan

variable {db : ClientDb} {o : ObjectId} {heads : List Revision} {head : HeadRecord}

/-- The scan is the part of the store with the object's heads, in key order. -/
theorem getHeadsInStore_eq (store : KeyedStore HeadRecord.key) (o : ObjectId) :
    getHeadsInStore store o = store.records.filter fun head => head.objectId = o := by
  refine List.filter_congr fun head hmem => ?_
  have hscan : head ∈ getHeadsInStore store o ↔ head ∈ store ∧ head.objectId = o :=
    mem_getHeadsInStore
  rw [getHeadsInStore, KeyedStore.mem_between] at hscan
  have hiff : (headKey o Uuid.nil ≤ head.key ∧ head.key ≤ headKey o Uuid.max) ↔
      head.objectId = o := by
    constructor
    · intro hkey
      exact (hscan.mp ⟨hmem, hkey⟩).2
    · intro ho
      exact (hscan.mpr ⟨hmem, ho⟩).2
  exact decide_eq_decide.mpr hiff

/-- **What overwriting leaves**: the heads of the other objects, and of the object the given
ones, the last of each revision. -/
theorem mem_replaceHeads_iff :
    head ∈ ((IdbOp.replaceHeads o heads).eval db).2.objectHeads ↔
      head ∈ db.objectHeads ∧ head.objectId ≠ o ∨
        ∃ before rev after, heads = before ++ rev :: after ∧
          (∀ later ∈ after, later.id ≠ rev.id) ∧ head = headRecordFromRevision o rev := by
  have hkey : ∀ a b : Revision,
      (headRecordFromRevision o a).key = (headRecordFromRevision o b).key ↔ a.id = b.id := by
    intro a b
    refine headKey_inj.trans ⟨fun h => congrArg RevisionId.mk h.2, fun h => ⟨rfl, ?_⟩⟩
    exact congrArg RevisionId.uuid h
  refine KeyedStore.mem_putAll_last.trans ?_
  rw [mem_clearedHeads, or_comm]
  refine or_congr ?_ ?_
  · -- no new head has the key of a head of another object
    refine and_iff_left_of_imp fun hne v hv hsame => ?_
    obtain ⟨rev, -, rfl⟩ := List.mem_map.mp hv
    exact hne.2 (headKey_inj.mp hsame).1.symm
  · constructor
    · rintro ⟨before, after, hsplit, hlast⟩
      obtain ⟨before', rest, rfl, rfl, hrest⟩ := List.map_eq_append_iff.mp hsplit
      obtain ⟨rev, after', rfl, rfl, rfl⟩ := List.map_eq_cons_iff.mp hrest
      refine ⟨before', rev, after', rfl, fun later hlater hid => ?_, rfl⟩
      exact hlast _ (List.mem_map_of_mem hlater) ((hkey later rev).mpr hid)
    · rintro ⟨before, rev, after, rfl, hlast, rfl⟩
      refine ⟨before.map (headRecordFromRevision o), after.map (headRecordFromRevision o), ?_, ?_⟩
      · rw [List.map_append, List.map_cons]
      · intro v hv hsame
        obtain ⟨later, hlater, rfl⟩ := List.mem_map.mp hv
        exact hlast later hlater ((hkey later rev).mp hsame)

/-- The scan of another object is what it was. -/
theorem getHeadsInStore_replaceHeads_of_ne {o' : ObjectId} (ho : o' ≠ o) :
    getHeadsInStore ((IdbOp.replaceHeads o heads).eval db).2.objectHeads o' =
      getHeadsInStore db.objectHeads o' := by
  have hsorted : ∀ store : KeyedStore HeadRecord.key,
      (getHeadsInStore store o').Pairwise fun a b => a.key < b.key :=
    fun store => store.between_sorted _ _
  have hnodup : ∀ store : KeyedStore HeadRecord.key, (getHeadsInStore store o').Nodup :=
    fun store => (hsorted store).imp fun hlt heq => ne_of_lt hlt (congrArg _ heq)
  have hperm : (getHeadsInStore ((IdbOp.replaceHeads o heads).eval db).2.objectHeads o').Perm
      (getHeadsInStore db.objectHeads o') := by
    refine (List.perm_ext_iff_of_nodup (hnodup _) (hnodup _)).mpr fun head => ?_
    rw [mem_getHeadsInStore, mem_getHeadsInStore]
    refine and_congr_left fun hobj => mem_replaceHeads_of_ne ?_
    rw [hobj]
    exact ho
  exact hperm.eq_of_pairwise (fun a b _ _ hab hba => absurd hab (lt_asymm hba)) (hsorted _)
    (hsorted _)

/-- **The scan is exact**: over any store it returns the head records of the object, in key
order, and no others.  So overwriting the heads of an object leaves the given ones, the last of
each revision, and every scan of another object as it was. -/
theorem scan_exact (db : ClientDb) (o : ObjectId) :
    getHeadsInStore db.objectHeads o =
        db.objectHeads.records.filter (fun head => head.objectId = o) ∧
      ∀ heads,
        (∀ head, head ∈ getHeadsInStore ((IdbOp.replaceHeads o heads).eval db).2.objectHeads o ↔
          ∃ before rev after, heads = before ++ rev :: after ∧
            (∀ later ∈ after, later.id ≠ rev.id) ∧ head = headRecordFromRevision o rev) ∧
        ∀ o', o' ≠ o → getHeadsInStore ((IdbOp.replaceHeads o heads).eval db).2.objectHeads o' =
          getHeadsInStore db.objectHeads o' := by
  refine ⟨getHeadsInStore_eq db.objectHeads o, fun heads => ⟨fun head => ?_, fun o' ho => ?_⟩⟩
  · rw [mem_getHeadsInStore, mem_replaceHeads_iff]
    constructor
    · rintro ⟨⟨-, hne⟩ | hnew, ho⟩
      · exact absurd ho hne
      · exact hnew
    · rintro ⟨before, rev, after, hsplit, hlast, rfl⟩
      exact ⟨.inr ⟨before, rev, after, hsplit, hlast, rfl⟩, rfl⟩
  · exact getHeadsInStore_replaceHeads_of_ne ho

end Scan

/-! ### Counting conflicts -/

/-- The updates of a response: one for each object, with one head to replace the others by,
or with several heads. -/
structure Regular (updates : List ObjectUpdate) : Prop where
  distinct : (updates.map (·.objectId)).Nodup
  objectId : ∀ u ∈ updates, ∀ rev ∈ u.heads, rev.objectId = u.objectId
  replace : ∀ u ∈ updates, u.action = .replace → u.heads.length = 1
  conflict : ∀ u ∈ updates, u.action = .conflict →
    2 ≤ u.heads.length ∧ (u.heads.map (·.id)).Nodup

/-- Two entries of a list that repeats none. -/
theorem two_le_length_iff {α : Type} {l : List α} (hn : l.Nodup) :
    2 ≤ l.length ↔ ∃ a ∈ l, ∃ b ∈ l, a ≠ b := by
  constructor
  · intro hlen
    match l, hlen with
    | a :: b :: rest, _ =>
      refine ⟨a, List.mem_cons_self, b, List.mem_cons_of_mem _ List.mem_cons_self, ?_⟩
      exact fun heq => (List.nodup_cons.mp hn).1 (heq ▸ List.mem_cons_self)
  · rintro ⟨a, ha, b, hb, hne⟩
    by_contra hlen
    have hone : l.length ≤ 1 := by omega
    match l, hone with
    | [c], _ => exact hne ((List.mem_singleton.mp ha).trans (List.mem_singleton.mp hb).symm)

/-- The scan returns several records when the object has several heads. -/
theorem two_le_scan_iff {db : ClientDb} {o : ObjectId} :
    2 ≤ (getHeadsInStore db.objectHeads o).length ↔
      ∃ r ∈ db.headsOf o, ∃ r' ∈ db.headsOf o, r ≠ r' := by
  have hn : ((getHeadsInStore db.objectHeads o).map (·.revisionId)).Nodup := by
    rw [List.Nodup, List.pairwise_map]
    refine (db.objectHeads.between_sorted _ _).imp_of_mem fun {a b} ha hb hlt heq => ?_
    -- heads of one object with one revision have one key
    have hobj := ((mem_getHeadsInStore.mp ha).2).trans (mem_getHeadsInStore.mp hb).2.symm
    have hkey : a.key = b.key := headKey_inj.mpr ⟨hobj, congrArg RevisionId.uuid heq⟩
    exact absurd hlt (hkey ▸ lt_irrefl _)
  rw [← List.length_map (f := HeadRecord.revisionId), two_le_length_iff hn]
  simp only [ClientDb.mem_map_getHeadsInStore]

section Counts

variable {σ : Type} {net : Net σ} {db : ClientDb} {s s' : σ} {params : PullRequest}

/-- **An update counts as conflicted just when it leaves several heads.** -/
theorem Regular.conflicts_iff {updates : List ObjectUpdate} (h : Regular updates) {u : ObjectUpdate}
    (hu : u ∈ updates) : db.conflicts u = true ↔
      ∃ r ∈ (db.applied u).headsOf u.objectId, ∃ r' ∈ (db.applied u).headsOf u.objectId,
        r ≠ r' := by
  by_cases hclears : db.Clears u
  · -- the one head of the update is left
    have hfalse := conflicts_eq_false.mpr hclears
    obtain ⟨rev, hone⟩ := List.length_eq_one_iff.mp (h.replace u hu hclears.1)
    rw [hfalse, headsOf_applied_clears hclears, if_pos rfl, hone]
    refine iff_of_false Bool.false_ne_true ?_
    rintro ⟨r, ⟨a, ha, rfl⟩, r', ⟨b, hb, rfl⟩, hne⟩
    rw [List.mem_singleton.mp ha, List.mem_singleton.mp hb] at hne
    exact hne rfl
  · have htrue : db.conflicts u = true :=
      Bool.not_eq_false _ ▸ mt conflicts_eq_false.mp hclears
    rw [htrue, headsOf_applied_not_clears hclears]
    refine iff_of_true rfl ?_
    have hnew : ∀ rev ∈ u.heads, rev.id ∈ db.headsOf u.objectId ∪
        {r | ∃ rev ∈ u.heads, rev.objectId = u.objectId ∧ rev.id = r} :=
      fun rev hrev => .inr ⟨rev, hrev, h.objectId u hu rev hrev, rfl⟩
    cases haction : u.action with
    | conflict =>
      obtain ⟨hlen, hn⟩ := h.conflict u hu haction
      rw [← List.length_map (f := Revision.id), two_le_length_iff hn] at hlen
      obtain ⟨r, hr, r', hr', hne⟩ := hlen
      obtain ⟨a, ha, rfl⟩ := List.mem_map.mp hr
      obtain ⟨b, hb, rfl⟩ := List.mem_map.mp hr'
      exact ⟨a.id, hnew a ha, b.id, hnew b hb, hne⟩
    | replace =>
      -- a local head that is neither delivered nor superseded stays beside the new one
      obtain ⟨rev, hone⟩ := List.length_eq_one_iff.mp (h.replace u hu haction)
      unfold ClientDb.Clears at hclears
      push Not at hclears
      obtain ⟨r, hr, hnot, -⟩ := hclears haction
      refine ⟨r, .inl hr, rev.id, hnew rev (hone ▸ List.mem_cons_self), fun heq => hnot ?_⟩
      rw [hone, heq]
      exact List.mem_cons_self

/-- **The conflict count is exact**: it is the number of the objects of the response that
have several heads after the pull. -/
theorem pullUpdates_conflicted {x : Except ClientError (HttpResponse PullResponse)}
    {resp : PullResponse} (hx : net.changesQuery params s = (x, s')) (hresp : parsed x = some resp)
    (hregular : Regular resp.objectUpdates) :
    ∃ pulled conflicted db', (pullUpdates params).run (answer net) (db, s) =
        (.ok (pulled, conflicted), (db', s')) ∧
      conflicted = (resp.objectUpdates.map (·.objectId)).countP fun o =>
        2 ≤ (getHeadsInStore db'.objectHeads o).length := by
  rcases run_pullUpdates db hx with ⟨hnone, -⟩ | ⟨resp', ⟨pulled, conflicted⟩, hresp', hrun⟩
  · rw [hresp] at hnone
    cases hnone
  rw [hresp] at hresp'
  cases hresp'
  refine ⟨pulled, conflicted, _, hrun, ?_⟩
  have hcounts := pullUpdates_counts hx hresp hrun
  rw [run_applyUpdates_counts hregular.objectId hregular.distinct] at hcounts
  have hconflicted : 0 + (resp.objectUpdates.filter db.conflicts).length = conflicted :=
    congrArg Prod.snd (Except.ok.inj hcounts)
  rw [← hconflicted, Nat.zero_add, ← List.countP_eq_length_filter, List.countP_map]
  refine List.countP_congr fun u hu => ?_
  rw [hregular.conflicts_iff hu, Function.comp_apply, decide_eq_true_iff, two_le_scan_iff,
    headsOf_advanced, headsOf_pulled_of_mem hregular.objectId hregular.distinct hu]

end Counts

/-- Two of the four objects are in conflict after this pull: one that was not, and the one with
the pending head; the object that was in conflict is not any more. -/
theorem pullUpdates_conflicted_mixed : ∃ db',
    (pullUpdates ⟨none, none, none, none⟩).run (answer (sameAnswer mixedResponse))
      (busyStores, ()) = (.ok (5, 2), (db', ())) ∧
    (mixedResponse.objectUpdates.map fun u =>
      (getHeadsInStore db'.objectHeads u.objectId).length) = [3, 2, 1, 1] ∧
    2 = (mixedResponse.objectUpdates.map (·.objectId)).countP fun o =>
      2 ≤ (getHeadsInStore db'.objectHeads o).length := by
  have hanswer : (sameAnswer mixedResponse).changesQuery ⟨none, none, none, none⟩ () =
      (((sameAnswer mixedResponse).changesQuery ⟨none, none, none, none⟩ ()).1, ()) := rfl
  have hregular : Regular mixedResponse.objectUpdates :=
    ⟨by decide, by decide, by decide, by decide⟩
  obtain ⟨pulled, conflicted, db', hrun, hcount⟩ :=
    @pullUpdates_conflicted _ _ busyStores _ _ _ _ _ hanswer rfl hregular
  have hcounts : ((pullUpdates ⟨none, none, none, none⟩).run (answer (sameAnswer mixedResponse))
        (busyStores, ())).1 = .ok (5, 2) ∧
      (mixedResponse.objectUpdates.map fun u => (getHeadsInStore
        ((pullUpdates ⟨none, none, none, none⟩).run (answer (sameAnswer mixedResponse))
          (busyStores, ())).2.1.objectHeads u.objectId).length) = [3, 2, 1, 1] := by
    decide +kernel
  rw [hrun] at hcounts
  obtain ⟨hpulled, hheads⟩ := hcounts
  cases hpulled
  exact ⟨db', hrun, hheads, hcount⟩

end Rustend
