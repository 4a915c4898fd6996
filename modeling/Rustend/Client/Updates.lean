import Rustend.Client.World

/-!
# What a pull does to the local heads

The updates of a pull carry the heads that the server has for their objects.  An object
without an update keeps its local heads; one with an update takes the heads of the
server, or keeps its own beside them.

## Main results

* `Answers.clears_iff` — **when an update replaces the local heads.**
* `headsOf_pulled_of_notMem`, `headsOf_pulled_of_mem` — the local heads after a pull.
* `pending_marked` — nothing is pending once a push has been recorded.
-/

namespace Rustend

open Interleave

/-! ### The updates of an answer -/

section Answers

variable {t : Tables} {client : ClientId} {since upTo : ℤ} {passes : RevisionRow → Prop}
  {updates : List ObjectUpdate} {u : ObjectUpdate}

theorem Answers.mem_heads (h : Answers t client since upTo passes updates) (hu : u ∈ updates)
    {r : RevisionId} : (∃ rev ∈ u.heads, rev.id = r) ↔ r ∈ t.headsOf u.objectId := by
  rw [Tables.mem_headsOf, ← (h.heads u hu).2 r, List.mem_map]

theorem Answers.parents (h : Answers t client since upTo passes updates) (hu : u ∈ updates)
    {rev : Revision} (hrev : rev ∈ u.heads) {p : RevisionId} :
    p ∈ rev.parents ↔ t.Parent p rev.id := by
  obtain ⟨row, -, parents, rfl, hparents⟩ := h.rows u hu rev hrev
  rw [rowToRevisionSync_parents]
  exact hparents p

theorem Answers.objectId (h : Answers t client since upTo passes updates) (ht : WellFormed t)
    (hu : u ∈ updates) {rev : Revision} (hrev : rev ∈ u.heads) : rev.objectId = u.objectId := by
  have hhead : rev.id ∈ t.headsOf u.objectId := (h.mem_heads hu).mp ⟨rev, hrev, rfl⟩
  obtain ⟨row, hrow, parents, rfl, -⟩ := h.rows u hu rev hrev
  exact ht.storedAs_unique ⟨row, hrow, rfl, rfl⟩ (ht.head_storedAs hhead)

theorem Answers.replace_iff (h : Answers t client since upTo passes updates) (hu : u ∈ updates) :
    u.action = .replace ↔ ∃ r, t.headsOf u.objectId = {r} := by
  rw [h.action u hu]
  constructor
  · intro ⟨r, hr, huniq⟩
    refine ⟨r, Set.eq_singleton_iff_unique_mem.mpr ⟨hr, huniq⟩⟩
  · intro ⟨r, hr⟩
    obtain ⟨hmem, huniq⟩ := Set.eq_singleton_iff_unique_mem.mp hr
    exact ⟨r, hmem, huniq⟩

/-- **When an update replaces the local heads**: the server has a single head, and each
local head is that one or a declared parent of it. -/
theorem Answers.clears_iff (h : Answers t client since upTo passes updates) (hu : u ∈ updates)
    {db : ClientDb} : db.Clears u ↔ ∃ r, t.headsOf u.objectId = {r} ∧
      ∀ l ∈ db.headsOf u.objectId, l = r ∨ t.Parent l r := by
  have hlocal : ∀ {r : RevisionId}, t.headsOf u.objectId = {r} → ∀ l,
      (l ∈ u.heads.map (·.id) ∨ ∃ rev ∈ u.heads, l ∈ rev.parents) ↔ l = r ∨ t.Parent l r := by
    intro r hr l
    have hids : ∀ x, (∃ rev ∈ u.heads, rev.id = x) ↔ x = r := by
      intro x
      rw [h.mem_heads hu, hr, Set.mem_singleton_iff]
    refine or_congr (by rw [List.mem_map, hids]) ⟨?_, ?_⟩
    · intro ⟨rev, hrev, hl⟩
      rw [← (hids rev.id).mp ⟨rev, hrev, rfl⟩]
      exact (h.parents hu hrev).mp hl
    · intro hl
      obtain ⟨rev, hrev, rfl⟩ := (hids r).mpr rfl
      exact ⟨rev, hrev, (h.parents hu hrev).mpr hl⟩
  rw [ClientDb.Clears, h.replace_iff hu]
  constructor
  · intro ⟨⟨r, hr⟩, hall⟩
    exact ⟨r, hr, fun l hl => (hlocal hr l).mp (hall l hl)⟩
  · intro ⟨r, hr, hall⟩
    exact ⟨⟨r, hr⟩, fun l hl => (hlocal hr l).mpr (hall l hl)⟩

/-- An update leaves its object with the heads of the server, the local ones beside
them or not. -/
theorem Answers.headsOf_applied (h : Answers t client since upTo passes updates)
    (ht : WellFormed t) (hu : u ∈ updates) (db : ClientDb) :
    (db.Clears u ∧ (db.applied u).headsOf u.objectId = t.headsOf u.objectId) ∨
      ¬ db.Clears u ∧ (db.applied u).headsOf u.objectId =
        db.headsOf u.objectId ∪ t.headsOf u.objectId := by
  by_cases hclears : db.Clears u
  · refine .inl ⟨hclears, ?_⟩
    rw [headsOf_applied_clears hclears, if_pos rfl]
    ext r
    exact h.mem_heads hu
  · refine .inr ⟨hclears, ?_⟩
    rw [headsOf_applied_not_clears hclears]
    congr 1
    ext r
    rw [← h.mem_heads hu]
    constructor
    · intro ⟨rev, hrev, _, hid⟩
      exact ⟨rev, hrev, hid⟩
    · intro ⟨rev, hrev, hid⟩
      exact ⟨rev, hrev, h.objectId ht hu hrev, hid⟩

end Answers

/-! ### All updates of a pull -/

section Pulled

variable {updates : List ObjectUpdate}

/-- An object without an update keeps its heads. -/
theorem headsOf_pulled_of_notMem {o : ObjectId} : ∀ {updates : List ObjectUpdate} {db : ClientDb},
    (∀ u ∈ updates, ∀ rev ∈ u.heads, rev.objectId = u.objectId) →
    o ∉ updates.map (·.objectId) → (db.pulled updates).headsOf o = db.headsOf o
  | [], db, _, _ => rfl
  | u :: updates, db, hobj, ho => by
    obtain ⟨hu, hobj⟩ := List.forall_mem_cons.mp hobj
    rw [List.map_cons, List.mem_cons, not_or] at ho
    rw [pulled_cons, headsOf_pulled_of_notMem hobj ho.2, headsOf_applied_of_ne hu ho.1]

/-- Whether an update replaces the heads depends on those of its object only. -/
theorem clears_congr {db db' : ClientDb} {u : ObjectUpdate}
    (h : db.headsOf u.objectId = db'.headsOf u.objectId) : db.Clears u ↔ db'.Clears u := by
  unfold ClientDb.Clears
  rw [h]

theorem headsOf_applied_congr {db db' : ClientDb} {u : ObjectUpdate}
    (h : db.headsOf u.objectId = db'.headsOf u.objectId) :
    (db.applied u).headsOf u.objectId = (db'.applied u).headsOf u.objectId := by
  by_cases hclears : db.Clears u
  · rw [headsOf_applied_clears hclears, headsOf_applied_clears ((clears_congr h).mp hclears),
      if_pos rfl, if_pos rfl]
  · rw [headsOf_applied_not_clears hclears,
      headsOf_applied_not_clears (mt (clears_congr h).mpr hclears), h]

/-- An object with an update gets what that update alone makes of its heads. -/
theorem headsOf_pulled_of_mem : ∀ {updates : List ObjectUpdate} {db : ClientDb} {u : ObjectUpdate},
    (∀ u ∈ updates, ∀ rev ∈ u.heads, rev.objectId = u.objectId) →
    (updates.map (·.objectId)).Nodup → u ∈ updates →
    (db.pulled updates).headsOf u.objectId = (db.applied u).headsOf u.objectId
  | first :: updates, db, u, hobj, hdistinct, hu => by
    obtain ⟨hfirst, hrest⟩ := List.forall_mem_cons.mp hobj
    rw [List.map_cons, List.nodup_cons] at hdistinct
    rw [pulled_cons]
    rcases List.mem_cons.mp hu with rfl | hu
    · exact headsOf_pulled_of_notMem hrest hdistinct.1
    · have hne : u.objectId ≠ first.objectId := by
        intro heq
        exact hdistinct.1 (heq ▸ List.mem_map_of_mem hu)
      rw [headsOf_pulled_of_mem hrest hdistinct.2 hu]
      exact headsOf_applied_congr (headsOf_applied_of_ne hfirst hne)

/-- A pull puts synced revisions only. -/
theorem mem_revisions_pulled : ∀ {updates : List ObjectUpdate} {db : ClientDb}
    {record : RevisionRecord}, record ∈ (db.pulled updates).revisions →
    (∃ u ∈ updates, ∃ rev ∈ u.heads, record = .fromRevision rev .synced) ∨ record ∈ db.revisions
  | [], db, record, h => .inr h
  | u :: updates, db, record, h => by
    rw [pulled_cons] at h
    rcases mem_revisions_pulled h with ⟨u', hu', hrec⟩ | h
    · exact .inl ⟨u', List.mem_cons_of_mem _ hu', hrec⟩
    · rw [applied_revisions] at h
      rcases KeyedStore.mem_putAll h with hnew | ⟨hold, -⟩
      · obtain ⟨rev, hrev, rfl⟩ := List.mem_map.mp hnew
        exact .inl ⟨u, List.mem_cons_self, rev, hrev, rfl⟩
      · exact .inr hold

theorem headsOf_advanced (db : ClientDb) (upTo : TransactionId) (o : ObjectId) :
    (db.advanced upTo).headsOf o = db.headsOf o := by
  rw [ClientDb.headsOf, advanced_objectHeads, ClientDb.headsOf]

/-- A pull makes nothing pending. -/
theorem pending_pulled {db : ClientDb} (h : db.pending = []) (updates : List ObjectUpdate)
    (upTo : TransactionId) : ((db.pulled updates).advanced upTo).pending = [] := by
  rw [List.eq_nil_iff_forall_not_mem]
  intro record hrecord
  obtain ⟨hmem, hstatus⟩ := ClientDb.mem_pending.mp hrecord
  rw [advanced_revisions] at hmem
  rcases mem_revisions_pulled hmem with ⟨u, -, rev, -, rfl⟩ | hmem
  · cases hstatus
  · have hold : record ∈ db.pending := ClientDb.mem_pending.mpr ⟨hmem, hstatus⟩
    rw [h] at hold
    cases hold

end Pulled

/-! ### A recorded push -/

section Marked

variable {client : ClientId} {db db' : ClientDb} {c c' : Conn} {resp : PushResponse}
  {batch : List Revision}

/-- Every status that a response reports is final. -/
theorem PushResponse.marks_ne_pending (resp : PushResponse) :
    ∀ mark ∈ resp.marks, mark.2 ≠ .pending := by
  intro mark hmark
  rcases List.mem_append.mp hmark with hmark | hmark
  · obtain ⟨id, -, rfl⟩ := List.mem_map.mp hmark
    exact nofun
  · obtain ⟨rejected, -, rfl⟩ := List.mem_map.mp hmark
    exact nofun

/-- What a response reports. -/
theorem PushResponse.exists_mark_iff {id : RevisionId} : (∃ mark ∈ resp.marks, mark.1 = id) ↔
    id ∈ resp.accepted ++ resp.rejected.map (·.revisionId) := by
  rw [← List.mem_map, PushResponse.marks, List.map_append, List.map_map, List.map_map]
  simp [Function.comp_def]

/-- **Nothing is pending once a push has been recorded.** -/
theorem PushDone.pending_eq_nil (h : PushDone client db c resp batch db' c') :
    db'.pending = [] := by
  rw [List.eq_nil_iff_forall_not_mem]
  intro record hrecord
  obtain ⟨hmem, hstatus⟩ := ClientDb.mem_pending.mp hrecord
  rw [h.stores] at hmem
  obtain ⟨old, hold, rfl⟩ := mem_marked.mp hmem
  by_cases hmark : ∃ mark ∈ resp.marks, mark.1 = old.id
  · exact resp.marks_ne_pending _ (foldl_marks_mem hmark old.syncStatus) hstatus
  · -- it was not pending before either, or it would have been reported
    have hnot : ∀ mark ∈ resp.marks, mark.1 ≠ old.id := fun mark hm heq => hmark ⟨mark, hm, heq⟩
    dsimp only at hstatus
    rw [foldl_marks_of_notMem hnot] at hstatus
    have hpend : old ∈ db.pending := ClientDb.mem_pending.mpr ⟨hold, hstatus⟩
    apply hmark
    rw [PushResponse.exists_mark_iff, h.reported.mem_iff]
    exact List.mem_map_of_mem (f := Revision.id) (List.mem_map_of_mem hpend)

theorem PushDone.headsOf (h : PushDone client db c resp batch db' c') (o : ObjectId) :
    db'.headsOf o = db.headsOf o := by
  rw [h.stores, headsOf_marked]

/-- A push without a rejection has committed the whole queue. -/
theorem PushDone.batch_eq (h : PushDone client db c resp batch db' c')
    (hrej : resp.rejected = []) : batch = db.pending.map (·.revision) := by
  have hperm := h.reported
  rw [hrej, List.map_nil, List.append_nil, h.accepted] at hperm
  refine h.sublist.eq_of_length ?_
  simpa using hperm.length_eq

end Marked

end Rustend
