import Rustend.Server.Runs

/-!
# What a pull returns

`fetch_object_updates` run alone on the tables of a run: which objects it returns,
and what an update says about its object.  The queries are joined through maps, and
heads are removed from the map of rows while they are used; since a revision heads
one object only, no object finds a head removed by another.

## Main definitions

* `objectUpdate` — the update of one object, read off the maps as they were built.
* `Passes` — the meaning of the filters.
* `Tables.ChangedFor` — an object that others changed within a window.

## Main results

* `assembleUpdates_eq` — the loop over the objects, without its state.
* `Run.pull_sound_complete` — **a pull is sound and complete.**
-/

namespace Rustend

open Interleave

/-! ### The maps -/

section Maps

variable {α κ ν : Type} [DecidableEq κ] {key : α → κ} {value : α → ν}

theorem groupRows_append (rows : List α) (row : α) :
    groupRows key value (rows ++ [row]) = Function.update (groupRows key value rows) (key row)
      (some ((groupRows key value rows (key row)).getD [] ++ [value row])) := by
  rw [groupRows, List.foldl_append]
  rfl

/-- A key is mapped to the values of its rows, in order. -/
theorem groupRows_getD (rows : List α) (k : κ) :
    (groupRows key value rows k).getD [] = (rows.filter fun row => key row = k).map value := by
  induction rows using List.reverseRecOn with
  | nil => rfl
  | append_singleton rows row ih =>
    rw [groupRows_append, Function.update_apply, List.filter_append, List.map_append]
    split
    · next h => subst h; simp [ih]
    · next h => simp [ih, Ne.symm h]

theorem rowsMap_eq_some {rows : List RevisionRow} (hn : (rows.map (·.id)).Nodup) {r : RevisionId}
    {row : RevisionRow} : rowsMap rows r = some row ↔ row ∈ rows ∧ row.id = r := by
  induction rows using List.reverseRecOn with
  | nil => simp [rowsMap]
  | append_singleton rows last ih =>
    rw [List.map_append, List.nodup_append] at hn
    have ih := ih hn.1
    have hstep : rowsMap (rows ++ [last]) = Function.update (rowsMap rows) last.id (some last) := by
      rw [rowsMap, List.foldl_append]
      rfl
    rw [hstep, Function.update_apply]
    split
    · next h =>
      subst h
      constructor
      · rintro ⟨⟩
        exact ⟨by simp, rfl⟩
      · rintro ⟨hrow, hid⟩
        rcases List.mem_append.mp hrow with hrow | hrow
        · exact absurd hid (hn.2.2 row.id (List.mem_map_of_mem hrow) last.id (by simp))
        · rw [List.mem_singleton.mp hrow]
    · next h =>
      rw [ih, List.mem_append, List.mem_singleton]
      constructor
      · exact fun ⟨hrow, hid⟩ => ⟨.inl hrow, hid⟩
      · rintro ⟨hrow | rfl, hid⟩
        · exact ⟨hrow, hid⟩
        · exact absurd hid.symm h

end Maps

/-! ### The loops -/

section Loops

variable {passes : RevisionRow → Bool} {parents : RevisionId → Option (List RevisionId)}

/-- The heads of one object, read off a map of rows. -/
def headRevisions (parents : RevisionId → Option (List RevisionId))
    (rowsById : RevisionId → Option RevisionRow) (headIds : List RevisionId) : List Revision :=
  headIds.filterMap fun id =>
    (rowsById id).map fun row => rowToRevisionSync row ((parents row.id).getD [])

/-- Some head passes. -/
def anyPasses (passes : RevisionRow → Bool) (rowsById : RevisionId → Option RevisionRow)
    (headIds : List RevisionId) : Bool :=
  headIds.any fun id => (rowsById id).elim false passes

/-- The update of one object, read off the maps. -/
def objectUpdate (passes : RevisionRow → Bool) (parents : RevisionId → Option (List RevisionId))
    (rowsById : RevisionId → Option RevisionRow) (headIds : List RevisionId) (o : ObjectId) :
    Option ObjectUpdate :=
  if anyPasses passes rowsById headIds then
    some ⟨o, headAction (headRevisions parents rowsById headIds),
      headRevisions parents rowsById headIds⟩
  else none

variable {m m' : RevisionId → Option RevisionRow} {ids : List RevisionId} {id : RevisionId}

/-- An update that was made. -/
theorem objectUpdate_eq_some {o : ObjectId} {u : ObjectUpdate}
    (hu : objectUpdate passes parents m ids o = some u) : u.objectId = o ∧
      anyPasses passes m ids = true ∧ u.heads = headRevisions parents m ids ∧
      u.action = headAction u.heads := by
  rw [objectUpdate] at hu
  split at hu
  · next hp =>
    cases hu
    exact ⟨rfl, hp, rfl, rfl⟩
  · cases hu

theorem headRevisions_congr (h : ∀ r ∈ ids, m r = m' r) :
    headRevisions parents m ids = headRevisions parents m' ids :=
  List.filterMap_congr fun r hr => by rw [h r hr]

theorem anyPasses_congr (h : ∀ r ∈ ids, m r = m' r) :
    anyPasses passes m ids = anyPasses passes m' ids := by
  rw [Bool.eq_iff_iff, anyPasses, anyPasses, List.any_eq_true, List.any_eq_true]
  exact exists_congr fun r => and_congr_right fun hr => by rw [h r hr]

theorem objectUpdate_congr (h : ∀ r ∈ ids, m r = m' r) (o : ObjectId) :
    objectUpdate passes parents m ids o = objectUpdate passes parents m' ids o := by
  rw [objectUpdate, objectUpdate, anyPasses_congr h, headRevisions_congr h]

/-- The loop over the heads of one object uses each row as it was in the beginning. -/
theorem foldl_takeHead : ∀ {ids : List RevisionId} (st : HeadLoop), ids.Nodup →
    ids.foldl (takeHead passes parents) st =
      ⟨fun r => if r ∈ ids then none else st.rowsById r,
        st.headRevisions ++ headRevisions parents st.rowsById ids,
        st.passesFilter || anyPasses passes st.rowsById ids⟩
  | [], st, _ => by simp [headRevisions, anyPasses]
  | id :: ids, st, hn => by
    obtain ⟨hid, hn⟩ := List.nodup_cons.mp hn
    rw [List.foldl_cons, foldl_takeHead _ hn, takeHead]
    split
    · next hrow =>
      congr 1
      · funext r
        by_cases hr : r = id
        · subst hr; simp [hrow]
        · simp [hr]
      · simp [headRevisions, hrow]
      · simp [anyPasses, hrow]
    · next row hrow =>
      have hrest : ∀ r ∈ ids, Function.update st.rowsById id none r = st.rowsById r :=
        fun r hr => Function.update_of_ne (ne_of_mem_of_not_mem hr hid) ..
      congr 1
      · funext r
        by_cases hr : r = id
        · subst hr; simp
        · simp [hr]
      · rw [headRevisions_congr hrest]
        simp [headRevisions, hrow]
      · rw [anyPasses_congr hrest]
        simp [anyPasses, hrow, Bool.or_assoc]

theorem anyPasses_iff : anyPasses passes m ids = true ↔
    ∃ id ∈ ids, ∃ row, m id = some row ∧ passes row = true := by
  rw [anyPasses, List.any_eq_true]
  refine exists_congr fun id => and_congr_right fun _ => ?_
  cases m id <;> simp

/-- An object with a head that passes has a head. -/
theorem headRevisions_ne_nil (h : anyPasses passes m ids = true) :
    headRevisions parents m ids ≠ [] := by
  obtain ⟨id, hid, row, hrow, -⟩ := anyPasses_iff.mp h
  refine List.ne_nil_of_mem (a := rowToRevisionSync row ((parents row.id).getD [])) ?_
  exact List.mem_filterMap.mpr ⟨id, hid, by rw [hrow]; rfl⟩

theorem takeObject_eq {heads : ObjectId → Option (List RevisionId)} (st : Assembly) (o : ObjectId)
    (hn : ((heads o).getD []).Nodup) :
    takeObject passes parents heads st o =
      ⟨fun r => if r ∈ (heads o).getD [] then none else st.rowsById r,
        st.updates ++
          (objectUpdate passes parents st.rowsById ((heads o).getD []) o).toList⟩ := by
  rw [takeObject]
  split
  · next ho => simp [ho, objectUpdate, anyPasses]
  · next ids ho =>
    rw [ho, Option.getD_some] at hn
    simp only [foldl_takeHead _ hn, ho, Option.getD_some, List.nil_append, Bool.false_or]
    by_cases hp : anyPasses passes st.rowsById ids = true
    · have hne : headRevisions parents st.rowsById ids ≠ [] := headRevisions_ne_nil hp
      simp [hp, objectUpdate, hne]
    · simp [hp, objectUpdate]

/-- The loop over the objects uses each row as it was in the beginning, when no
revision heads two of them. -/
theorem foldl_takeObject {heads : ObjectId → Option (List RevisionId)}
    (hn : ∀ o, ((heads o).getD []).Nodup)
    (hdisj : ∀ o o', o ≠ o' → ∀ r ∈ (heads o).getD [], r ∉ (heads o').getD []) :
    ∀ {objects : List ObjectId} (st : Assembly), objects.Nodup →
      (objects.foldl (takeObject passes parents heads) st).updates = st.updates ++
        objects.filterMap fun o =>
          objectUpdate passes parents st.rowsById ((heads o).getD []) o
  | [], st, _ => by simp
  | o :: objects, st, hnd => by
    obtain ⟨ho, hnd⟩ := List.nodup_cons.mp hnd
    rw [List.foldl_cons, foldl_takeObject hn hdisj _ hnd, takeObject_eq st o (hn o)]
    have hrest : (objects.filterMap fun o' => objectUpdate passes parents
        (fun r => if r ∈ (heads o).getD [] then none else st.rowsById r) ((heads o').getD []) o') =
        objects.filterMap fun o' =>
          objectUpdate passes parents st.rowsById ((heads o').getD []) o' := by
      refine List.filterMap_congr fun o' ho' => objectUpdate_congr (fun r hr => ?_) o'
      exact if_neg (hdisj o' o (fun h => ho (h ▸ ho')) r hr)
    simp only [hrest, List.append_assoc]
    cases h : objectUpdate passes parents st.rowsById ((heads o).getD []) o <;> simp [h]

/-- **The updates, without the state of the loops.** -/
theorem assembleUpdates_eq {changed : List ObjectId} {headRows : List HeadRow}
    {rows : List RevisionRow} (hc : changed.Nodup) (hh : (headRows.map (·.revisionId)).Nodup) :
    assembleUpdates passes changed headRows rows parents = changed.filterMap fun o =>
      objectUpdate passes parents (rowsMap rows)
        ((headRows.filter fun h => h.objectId = o).map (·.revisionId)) o := by
  have hgroup : ∀ o, (groupRows HeadRow.objectId HeadRow.revisionId headRows o).getD [] =
      (headRows.filter fun h => h.objectId = o).map (·.revisionId) := groupRows_getD headRows
  rw [assembleUpdates, foldl_takeObject _ _ _ hc]
  · simp only [hgroup, List.nil_append]
  · intro o
    rw [hgroup]
    exact hh.sublist (List.filter_sublist.map _)
  · intro o o' hne r hr hr'
    rw [hgroup] at hr hr'
    obtain ⟨a, ha, rfl⟩ := List.mem_map.mp hr
    obtain ⟨b, hb, hab⟩ := List.mem_map.mp hr'
    obtain ⟨ha, hao⟩ := List.mem_filter.mp ha
    obtain ⟨hb, hbo⟩ := List.mem_filter.mp hb
    have := List.inj_on_of_nodup_map hh ha hb hab.symm
    subst this
    exact hne ((of_decide_eq_true hao).symm.trans (of_decide_eq_true hbo))

end Loops

/-! ### The meaning of the filters -/

/-- A time respects a bound. -/
def CreatedAtFilter.Holds (createdAt : DateTime) : CreatedAtFilter → Prop
  | .gt t => t < createdAt
  | .gte t => t ≤ createdAt
  | .lt t => createdAt < t
  | .lte t => createdAt ≤ t

/-- A head passes each of the filters that is present. -/
structure Passes (objectTypes : Option (List String)) (createdAt : Option (List CreatedAtFilter))
    (filter : Option (List (List FilterCondition))) (row : RevisionRow) : Prop where
  objectType : ∀ types, objectTypes = some types → row.objectType ∈ types
  bounds : ∀ bounds, createdAt = some bounds → ∀ f ∈ bounds, f.Holds row.createdAt
  /-- A tombstone passes, and so does a payload that satisfies a whole group. -/
  content : ∀ groups, filter = some groups → row.deleted = true ∨
    ∃ data, row.data = some data ∧ ∃ group ∈ groups, ∀ cond ∈ group,
      evaluateCondition data cond = true

section Passes

variable {row : RevisionRow}

theorem typePasses_iff (objectTypes : Option (List String)) :
    (match objectTypes with
      | some types => decide (row.objectType ∈ types)
      | none => true) = true ↔ ∀ types, objectTypes = some types → row.objectType ∈ types := by
  cases objectTypes <;> simp

theorem boundsPass_iff (createdAt : Option (List CreatedAtFilter)) :
    (match createdAt with
      | some filters => applyCreatedAtFilters row.createdAt filters
      | none => true) = true ↔
      ∀ bounds, createdAt = some bounds → ∀ f ∈ bounds, f.Holds row.createdAt := by
  cases createdAt with
  | none => simp
  | some bounds =>
    simp only [applyCreatedAtFilters, List.all_eq_true, Option.some.injEq, forall_eq']
    refine forall₂_congr fun f _ => ?_
    cases f <;> simp [CreatedAtFilter.Holds]

theorem contentPasses_iff (h : row.activeHasData = true)
    (filter : Option (List (List FilterCondition))) :
    (match row.data, filter with
      | some data, some f => applyContentFilter data f
      | none, some _ => true
      | _, _ => true) = true ↔ ∀ groups, filter = some groups → row.deleted = true ∨
        ∃ data, row.data = some data ∧ ∃ group ∈ groups, ∀ cond ∈ group,
          evaluateCondition data cond = true := by
  -- the check of the table makes the tombstones the rows without data
  rw [RevisionRow.activeHasData] at h
  cases filter <;> cases hd : row.data <;> cases hdel : row.deleted <;>
    simp_all [applyContentFilter]

theorem headPasses_iff {objectTypes : Option (List String)}
    {createdAt : Option (List CreatedAtFilter)} {filter : Option (List (List FilterCondition))}
    (h : row.activeHasData = true) : headPasses objectTypes createdAt filter row = true ↔
      Passes objectTypes createdAt filter row := by
  unfold headPasses
  rw [Bool.and_eq_true, Bool.and_eq_true]
  refine (and_congr (and_congr (typePasses_iff objectTypes) (boundsPass_iff createdAt))
    (contentPasses_iff h filter)).trans ?_
  constructor
  · rintro ⟨⟨htypes, hbounds⟩, hcontent⟩
    exact ⟨htypes, hbounds, hcontent⟩
  · intro hpasses
    exact ⟨⟨hpasses.objectType, hpasses.bounds⟩, hpasses.content⟩

end Passes

/-! ### The queries -/

/-- A transaction after `since` and up to `upTo` contains a revision of the object
that `client` did not create. -/
def Tables.ChangedFor (t : Tables) (client : ClientId) (since upTo : ℤ) (o : ObjectId) : Prop :=
  ∃ row ∈ t.revisions, row.objectId = o ∧ row.createdBy ≠ client ∧
    ∃ e ∈ t.transactionRevisions, e.revisionId = row.id ∧
      ∃ x ∈ t.transactions, x.id = e.transactionId ∧ since < x.id ∧ (x.id : ℤ) ≤ upTo

theorem Tables.mem_changedObjects {t : Tables} {client : ClientId} {since upTo : ℤ} {o : ObjectId} :
    o ∈ t.changedObjects since upTo client ↔ t.ChangedFor client since upTo o := by
  simp only [Tables.changedObjects, List.mem_dedup, List.mem_flatMap, List.mem_filterMap,
    List.mem_filter, decide_eq_true_eq, Option.ite_none_right_eq_some, Option.some.injEq]
  constructor
  · rintro ⟨row, hrow, e, ⟨he, hid⟩, x, ⟨hx, hxe⟩, ⟨hs, hu, hc⟩, ho⟩
    exact ⟨row, hrow, ho, hc, e, he, hid, x, hx, hxe, hs, hu⟩
  · rintro ⟨row, hrow, ho, hc, e, he, hid, x, hx, hxe, hs, hu⟩
    exact ⟨row, hrow, e, ⟨he, hid⟩, x, ⟨hx, hxe⟩, ⟨hs, hu, hc⟩, ho⟩

theorem Tables.changedObjects_nodup (t : Tables) (client : ClientId) (since upTo : ℤ) :
    (t.changedObjects since upTo client).Nodup := List.nodup_dedup _

theorem foldl_max_le_iff {l : List ℕ} {a n : ℕ} :
    l.foldl max a ≤ n ↔ a ≤ n ∧ ∀ x ∈ l, x ≤ n := by
  induction l generalizing a with
  | nil => simp
  | cons x l ih => simp [ih, and_assoc]

theorem Tables.maxTransactionId_le_iff {t : Tables} {n : ℕ} :
    t.maxTransactionId ≤ n ↔ ∀ x ∈ t.transactions, x.id ≤ n := by
  simp [Tables.maxTransactionId, foldl_max_le_iff]

theorem WellFormed.maxTransactionId_le {t : Tables} (h : WellFormed t) :
    t.maxTransactionId ≤ i64Max :=
  Tables.maxTransactionId_le_iff.mpr fun x hx => (h.txn_range x hx).2

/-- A cursor that fits a `BIGINT` is sent as it is. -/
theorem asI64_eq {n : ℕ} (h : n ≤ i64Max) : asI64 n = n := by
  rw [i64Max] at h
  exact Int.bmod_eq_of_le (by omega) (by omega)

theorem asI64_cursor {cursor : Option TransactionId}
    (h : ∀ t, cursor = some t → t.val ≤ i64Max) :
    (cursor.map fun t => asI64 t.val).getD 0 = (((cursor.map (·.val)).getD 0 : ℕ) : ℤ) := by
  cases cursor with
  | none => rfl
  | some t => simp only [Option.map_some, Option.getD_some, asI64_eq (h t rfl)]

/-! ### Parents by position -/

section Sorted

variable {α : Type} {r : α → α → Prop} [DecidableRel r]

theorem orderedInsert_of_forall {a : α} {l : List α} (h : ∀ b ∈ l, r a b) :
    l.orderedInsert r a = a :: l := by
  cases l with
  | nil => rfl
  | cons b l => exact List.orderedInsert_cons_of_le r l (h b List.mem_cons_self)

theorem filter_orderedInsert [IsTrans α r] (p : α → Bool) (a : α) {l : List α}
    (hl : l.Pairwise r) : (l.orderedInsert r a).filter p =
      if p a then (l.filter p).orderedInsert r a else l.filter p := by
  induction l with
  | nil => cases hp : p a <;> simp [hp]
  | cons b l ih =>
    obtain ⟨hb, hl⟩ := List.pairwise_cons.mp hl
    by_cases hab : r a b
    · -- `a` is before all of the list, so before each part of it
      have hall : ∀ x ∈ (b :: l).filter p, r a x := by
        intro x hx
        rcases List.mem_cons.mp (List.mem_filter.mp hx).1 with rfl | hx
        · exact hab
        · exact IsTrans.trans _ _ _ hab (hb x hx)
      rw [List.orderedInsert_cons_of_le r l hab, orderedInsert_of_forall hall, List.filter_cons]
    · rw [List.orderedInsert_of_not_le r l hab, List.filter_cons, ih hl, List.filter_cons]
      by_cases hpb : p b = true
      · rw [if_pos hpb, if_pos hpb]
        split
        · rw [List.orderedInsert_of_not_le r _ hab]
        · rfl
      · rw [if_neg hpb, if_neg hpb]

/-- **A part of a sorted list is the sorted part.** -/
theorem filter_insertionSort [Std.Total r] [IsTrans α r] (p : α → Bool) (l : List α) :
    (l.insertionSort r).filter p = (l.filter p).insertionSort r := by
  induction l with
  | nil => rfl
  | cons a l ih =>
    rw [List.insertionSort_cons, filter_orderedInsert p a (List.pairwise_insertionSort r l), ih,
      List.filter_cons]
    split
    · rw [List.insertionSort_cons]
    · rfl

end Sorted

/-- The order of the batch query. -/
def ParentRow.Before (a b : ParentRow) : Prop :=
  a.revisionId.uuid.bits < b.revisionId.uuid.bits ∨
    (a.revisionId = b.revisionId ∧ a.position ≤ b.position)

instance : DecidableRel ParentRow.Before := fun a b =>
  inferInstanceAs (Decidable (a.revisionId.uuid.bits < b.revisionId.uuid.bits ∨
    (a.revisionId = b.revisionId ∧ a.position ≤ b.position)))

instance : Std.Total ParentRow.Before where
  total a b := by
    rcases lt_trichotomy a.revisionId.uuid.bits.toNat b.revisionId.uuid.bits.toNat with
      hlt | heq | hlt
    · exact .inl (.inl (BitVec.lt_def.mpr hlt))
    · have hid : a.revisionId = b.revisionId :=
        congrArg RevisionId.mk (congrArg Uuid.mk (BitVec.eq_of_toNat_eq heq))
      rcases le_total a.position b.position with hle | hle
      · exact .inl (.inr ⟨hid, hle⟩)
      · exact .inr (.inr ⟨hid.symm, hle⟩)
    · exact .inr (.inl (BitVec.lt_def.mpr hlt))

instance : IsTrans ParentRow ParentRow.Before where
  trans a b c := by
    rintro (hab | ⟨hid, hab⟩) (hbc | ⟨hid', hbc⟩)
    · exact .inl (BitVec.lt_trans hab hbc)
    · exact .inl (hid' ▸ hab)
    · exact .inl (hid ▸ hbc)
    · exact .inr ⟨hid.trans hid', hab.trans hbc⟩

/-- **One batch query lists the parents of a revision as a query for it alone does**,
whichever revisions are asked for with it. -/
theorem Tables.groupRows_parentsBatch (t : Tables) {ids : List RevisionId} {r : RevisionId}
    (hr : r ∈ ids) : (groupRows (·.revisionId) (·.parentId) (t.parentsBatch ids) r).getD [] =
      t.parentsOf r := by
  have hbatch : t.parentsBatch ids =
      (t.revisionParents.filter fun e => e.revisionId ∈ ids).insertionSort ParentRow.Before := rfl
  have hpart : (t.revisionParents.filter fun e => e.revisionId ∈ ids).filter
      (fun e => e.revisionId = r) = t.revisionParents.filter fun e => e.revisionId = r := by
    rw [List.filter_filter]
    refine List.filter_congr fun e _ => ?_
    by_cases heq : e.revisionId = r
    · simp [heq, hr]
    · simp [heq]
  rw [groupRows_getD, hbatch, filter_insertionSort, hpart, Tables.parentsOf]
  -- within one revision the order of the batch query is that by position
  have hsame := List.map_insertionSort (r := ParentRow.Before)
    (s := fun a b : ParentRow => a.position ≤ b.position) id
    (t.revisionParents.filter fun e => e.revisionId = r) fun a ha b hb => by
      have ha := of_decide_eq_true (List.mem_filter.mp ha).2
      have hb := of_decide_eq_true (List.mem_filter.mp hb).2
      unfold ParentRow.Before
      rw [ha, hb]
      simp
  rw [List.map_id, List.map_id] at hsame
  rw [hsame]

/-! ### The pull as a whole -/

/-- The head rows of the changed objects. -/
def Tables.changedHeads (t : Tables) (changed : List ObjectId) : List HeadRow :=
  t.objectHeads.filter fun h => h.objectId ∈ changed

/-- The revision rows of these heads. -/
def Tables.changedRows (t : Tables) (changed : List ObjectId) : List RevisionRow :=
  t.revisions.filter fun row => row.id ∈ (t.changedHeads changed).map (·.revisionId)

/-- The map of parents read for `ids` says what the tables say. -/
def ParentsOf (t : Tables) (ids : List RevisionId)
    (parents : RevisionId → Option (List RevisionId)) :
    Prop :=
  ∀ r ∈ ids, ∀ p, p ∈ (parents r).getD [] ↔ t.Parent p r

/-- The map of parents read for `ids` lists each as a query for it alone does. -/
def ListsParents (t : Tables) (ids : List RevisionId)
    (parents : RevisionId → Option (List RevisionId)) : Prop :=
  ∀ r ∈ ids, (parents r).getD [] = t.parentsOf r

theorem Tables.mem_parentsOf {t : Tables} {p r : RevisionId} :
    p ∈ t.parentsOf r ↔ t.Parent p r := by
  simp only [Tables.parentsOf, List.mem_map, List.mem_insertionSort, List.mem_filter,
    decide_eq_true_eq, Tables.Parent]
  constructor
  · rintro ⟨e, ⟨he, hid⟩, hp⟩
    exact ⟨e, he, hp, hid⟩
  · rintro ⟨e, he, hp, hid⟩
    exact ⟨e, ⟨he, hid⟩, hp⟩

theorem ListsParents.parentsOf {t : Tables} {ids : List RevisionId}
    {parents : RevisionId → Option (List RevisionId)} (h : ListsParents t ids parents) :
    ParentsOf t ids parents := fun r hr p => by rw [h r hr, Tables.mem_parentsOf]

theorem getParentsBatch_eval (ids : List RevisionId) (c : Conn) :
    ∃ parents, ListsParents c.tables ids parents ∧
      (getParentsBatch ids).run Stmt.eval c = (.ok parents, c) := by
  rw [getParentsBatch]
  split
  · next hemp =>
    refine ⟨_, fun r hr => ?_, rfl⟩
    rw [List.isEmpty_iff.mp hemp] at hr
    cases hr
  · exact ⟨_, fun r hr => c.tables.groupRows_parentsBatch hr, rfl⟩

/-- A revision read back has the parents it was read with. -/
@[simp] theorem rowToRevisionSync_parents (row : RevisionRow) (parents : List RevisionId) :
    (rowToRevisionSync row parents).parents = parents := by
  match parents with
  | [] => rfl
  | [_] => rfl
  | _ :: _ :: _ => rfl

/-- The five queries on one state of the tables. -/
theorem fetchObjectUpdates_eval (client : ClientId) (since : Option TransactionId)
    (upTo : TransactionId) (hup : upTo.val ≤ i64Max) (objectTypes : Option (List String))
    (createdAt : Option (List CreatedAtFilter)) (filter : Option (List (List FilterCondition)))
    (c : Conn) : ∃ parents, ListsParents c.tables
        ((c.tables.changedHeads (c.tables.changedObjects
          ((since.map fun t => asI64 t.val).getD 0) upTo.val client)).map (·.revisionId)) parents ∧
      (fetchObjectUpdates client since upTo objectTypes createdAt filter).run Stmt.eval c =
        (.ok (assembleUpdates (headPasses objectTypes createdAt filter)
          (c.tables.changedObjects ((since.map fun t => asI64 t.val).getD 0) upTo.val client)
          (c.tables.changedHeads
            (c.tables.changedObjects ((since.map fun t => asI64 t.val).getD 0) upTo.val client))
          (c.tables.changedRows
            (c.tables.changedObjects ((since.map fun t => asI64 t.val).getD 0) upTo.val client))
          parents), c) := by
  rw [fetchObjectUpdates]
  simp only [if_neg (Nat.not_lt.mpr hup)]
  generalize hch : c.tables.changedObjects ((since.map fun t => asI64 t.val).getD 0) upTo.val client
    = changed
  have hsel : (Program.perform (S := sql) (ε := ServerError) (.selectChangedObjects
      ((since.map fun t => asI64 t.val).getD 0) upTo.val client)).run Stmt.eval c =
      (.ok changed, c) := by rw [← hch]; rfl
  rw [Program.run_bind_ok _ _ hsel]
  -- without changed objects, the other queries are not made
  cases changed with
  | nil => exact ⟨fun _ => none, by simp [ListsParents, Tables.changedHeads], rfl⟩
  | cons o changed =>
    obtain ⟨parents, hparents, hp⟩ := getParentsBatch_eval
      ((c.tables.changedHeads (o :: changed)).map (·.revisionId)) c
    have hheads : (Program.perform (S := sql) (ε := ServerError)
        (.selectHeadsOfObjects (o :: changed))).run Stmt.eval c =
        (.ok (c.tables.changedHeads (o :: changed)), c) := rfl
    have hrows : (getRevisionRowsByIds ((c.tables.changedHeads (o :: changed)).map
        (·.revisionId))).run Stmt.eval c = (.ok (c.tables.changedRows (o :: changed)), c) := rfl
    refine ⟨parents, hparents, ?_⟩
    rw [if_neg (by simp), Program.run_bind_ok _ _ hheads, Program.run_bind_ok _ _ hrows,
      Program.run_bind_ok _ _ hp]
    rfl

/-- The heads of a changed object, as the pull collects them. -/
theorem mem_headIds {t : Tables} {changed : List ObjectId} {o : ObjectId} (ho : o ∈ changed)
    {r : RevisionId} :
    r ∈ ((t.changedHeads changed).filter fun x => x.objectId = o).map (·.revisionId) ↔
      ⟨o, r⟩ ∈ t.objectHeads := by
  simp only [Tables.changedHeads, List.mem_map, List.mem_filter, decide_eq_true_eq]
  constructor
  · rintro ⟨⟨o', r'⟩, ⟨⟨hx, -⟩, rfl⟩, rfl⟩
    exact hx
  · exact fun hx => ⟨⟨o, r⟩, ⟨⟨hx, ho⟩, rfl⟩, rfl⟩

theorem WellFormed.changedHeads_nodup {t : Tables} (h : WellFormed t) (changed : List ObjectId) :
    ((t.changedHeads changed).map (·.revisionId)).Nodup := by
  rw [Tables.changedHeads, List.nodup_map_iff_inj_on (h.heads_nodup.filter _)]
  rintro ⟨o, r⟩ ha ⟨o', r'⟩ hb hr
  cases show r = r' from hr
  rw [h.storedAs_unique (h.head_storedAs (List.mem_filter.mp ha).1)
    (h.head_storedAs (List.mem_filter.mp hb).1)]

theorem WellFormed.rowsMap_changedRows {t : Tables} (h : WellFormed t) {changed : List ObjectId}
    {r : RevisionId} (hr : r ∈ (t.changedHeads changed).map (·.revisionId)) {row : RevisionRow} :
    rowsMap (t.changedRows changed) r = some row ↔ row ∈ t.revisions ∧ row.id = r := by
  rw [Tables.changedRows, rowsMap_eq_some (h.ids.sublist (List.filter_sublist.map _)),
    List.mem_filter, decide_eq_true_eq]
  constructor
  · exact fun ⟨⟨hrow, _⟩, hid⟩ => ⟨hrow, hid⟩
  · exact fun ⟨hrow, hid⟩ => ⟨⟨hrow, hid ▸ hr⟩, hid⟩

/-- The ids of the head revisions are the head ids, when every head has its row. -/
theorem map_id_headRevisions {parents : RevisionId → Option (List RevisionId)}
    {m : RevisionId → Option RevisionRow} {ids : List RevisionId}
    (h : ∀ r ∈ ids, ∃ row, m r = some row ∧ row.id = r) :
    (headRevisions parents m ids).map (·.id) = ids := by
  induction ids with
  | nil => rfl
  | cons r ids ih =>
    obtain ⟨row, hrow, hid⟩ := h r (by simp)
    have ih := ih fun r hr => h r (List.mem_cons_of_mem _ hr)
    rw [headRevisions] at ih ⊢
    simp only [List.filterMap_cons, hrow, Option.map_some, List.map_cons, ih]
    rw [show (rowToRevisionSync row ((parents row.id).getD [])).id = row.id from rfl, hid]

/-- Updates that are for the objects they were made from. -/
theorem map_objectId_filterMap_sublist {f : ObjectId → Option ObjectUpdate}
    (hf : ∀ o u, f o = some u → u.objectId = o) (l : List ObjectId) :
    ((l.filterMap f).map (·.objectId)).Sublist l := by
  induction l with
  | nil => exact .slnil
  | cons o l ih =>
    cases ho : f o with
    | none => rw [List.filterMap_cons_none ho]; exact ih.cons o
    | some u =>
      rw [List.filterMap_cons_some ho, List.map_cons, hf o u ho]
      exact ih.cons_cons o

theorem existsUnique_iff_length {ids : List RevisionId} (hn : ids.Nodup) :
    ids.length = 1 ↔ ∃! r, r ∈ ids := by
  constructor
  · intro h
    obtain ⟨r, rfl⟩ := List.length_eq_one_iff.mp h
    exact ⟨r, by simp, by simp⟩
  · rintro ⟨r, hr, huniq⟩
    have : ids ⊆ [r] := fun x hx => by simp [huniq x hx]
    have hle := (hn.subperm this).length_le
    have hpos := List.length_pos_of_mem hr
    simp only [List.length_singleton] at hle
    omega

/-- What a pull answers: the objects that others changed in the window and that have
a head that passes, each once and with all of its heads. -/
structure Answers (t : Tables) (client : ClientId) (since upTo : ℤ)
    (passes : RevisionRow → Prop) (updates : List ObjectUpdate) : Prop where
  distinct : (updates.map (·.objectId)).Nodup
  objects : ∀ o, o ∈ updates.map (·.objectId) ↔ t.ChangedFor client since upTo o ∧
    ∃ row ∈ t.revisions, ⟨o, row.id⟩ ∈ t.objectHeads ∧ passes row
  heads : ∀ u ∈ updates, (u.heads.map (·.id)).Nodup ∧
    ∀ r, r ∈ u.heads.map (·.id) ↔ ⟨u.objectId, r⟩ ∈ t.objectHeads
  rows : ∀ u ∈ updates, ∀ rev ∈ u.heads, ∃ row ∈ t.revisions, ∃ parents,
    rev = rowToRevisionSync row parents ∧ ∀ p, p ∈ parents ↔ t.Parent p row.id
  action : ∀ u ∈ updates, u.action = .replace ↔ ∃! r, ⟨u.objectId, r⟩ ∈ t.objectHeads

/-- The assembled updates, for any window. -/
theorem WellFormed.answers {t : Tables} (h : WellFormed t) (client : ClientId) (since upTo : ℤ)
    (passes : RevisionRow → Bool) {parents : RevisionId → Option (List RevisionId)}
    (hparents : ParentsOf t
      ((t.changedHeads (t.changedObjects since upTo client)).map (·.revisionId)) parents) :
    Answers t client since upTo (fun row => passes row = true)
      (assembleUpdates passes (t.changedObjects since upTo client)
        (t.changedHeads (t.changedObjects since upTo client))
        (t.changedRows (t.changedObjects since upTo client)) parents) := by
  generalize hch : t.changedObjects since upTo client = changed at hparents
  have hnd : changed.Nodup := hch ▸ t.changedObjects_nodup client since upTo
  have hmem : ∀ o, o ∈ changed ↔ t.ChangedFor client since upTo o :=
    fun o => hch ▸ Tables.mem_changedObjects
  rw [assembleUpdates_eq hnd (h.changedHeads_nodup changed)]
  -- the head ids of an object, and their rows
  set ids := fun o => ((t.changedHeads changed).filter fun x => x.objectId = o).map (·.revisionId)
  have hids : ∀ o ∈ changed, ∀ r, r ∈ ids o ↔ ⟨o, r⟩ ∈ t.objectHeads :=
    fun o ho r => mem_headIds ho
  have hrow : ∀ o, ∀ r ∈ ids o, ∀ row, rowsMap (t.changedRows changed) r = some row ↔
      row ∈ t.revisions ∧ row.id = r := fun o r hr row =>
    h.rowsMap_changedRows ((List.filter_sublist.map _).subset hr)
  have hsome : ∀ o ∈ changed, ∀ r ∈ ids o, ∃ row,
      rowsMap (t.changedRows changed) r = some row ∧ row.id = r := by
    intro o ho r hr
    obtain ⟨row, hrm, hid, -⟩ := h.head_storedAs ((hids o ho r).mp hr)
    exact ⟨row, (hrow o r hr row).mpr ⟨hrm, hid⟩, hid⟩
  have hheads : ∀ {o u}, o ∈ changed →
      objectUpdate passes parents (rowsMap (t.changedRows changed)) (ids o) o = some u →
      u.heads.map (·.id) = ids o := by
    intro o u ho hu
    rw [(objectUpdate_eq_some hu).2.2.1, map_id_headRevisions (hsome o ho)]
  have hidsNodup : ∀ o, (ids o).Nodup := fun o =>
    (h.changedHeads_nodup changed).sublist (List.filter_sublist.map _)
  refine ⟨?_, fun o => ?_, fun u hu => ?_, fun u hu rev hrev => ?_, fun u hu => ?_⟩
  · exact hnd.sublist
      (map_objectId_filterMap_sublist (fun o u hu => (objectUpdate_eq_some hu).1) changed)
  · rw [← hmem, List.mem_map]
    constructor
    · rintro ⟨u, hu, rfl⟩
      obtain ⟨o, ho, hu⟩ := List.mem_filterMap.mp hu
      obtain ⟨heq, hp, -⟩ := objectUpdate_eq_some hu
      obtain ⟨r, hr, row, hrw, hpass⟩ := anyPasses_iff.mp hp
      obtain ⟨hrm, rfl⟩ := (hrow o r hr row).mp hrw
      rw [heq]
      exact ⟨ho, row, hrm, (hids o ho _).mp hr, hpass⟩
    · rintro ⟨ho, row, hrm, hhead, hpass⟩
      have hr := (hids o ho _).mpr hhead
      have hp : anyPasses passes (rowsMap (t.changedRows changed)) (ids o) = true :=
        anyPasses_iff.mpr ⟨row.id, hr, row, (hrow o _ hr row).mpr ⟨hrm, rfl⟩, hpass⟩
      exact ⟨_, List.mem_filterMap.mpr ⟨o, ho, by rw [objectUpdate, if_pos hp]⟩, rfl⟩
  · obtain ⟨o, ho, hu⟩ := List.mem_filterMap.mp hu
    rw [hheads ho hu, (objectUpdate_eq_some hu).1]
    exact ⟨hidsNodup o, hids o ho⟩
  · obtain ⟨o, ho, hu⟩ := List.mem_filterMap.mp hu
    rw [(objectUpdate_eq_some hu).2.2.1] at hrev
    obtain ⟨r, hr, hrev⟩ := List.mem_filterMap.mp hrev
    obtain ⟨row, hrw, rfl⟩ := Option.map_eq_some_iff.mp hrev
    obtain ⟨hrm, rfl⟩ := (hrow o r hr row).mp hrw
    exact ⟨row, hrm, _, rfl, hparents _ ((List.filter_sublist.map _).subset hr)⟩
  · obtain ⟨o, ho, hu⟩ := List.mem_filterMap.mp hu
    have hlen : u.heads.length = (ids o).length := by rw [← hheads ho hu, List.length_map]
    rw [(objectUpdate_eq_some hu).2.2.2, (objectUpdate_eq_some hu).1, headAction, hlen]
    simp only [← hids o ho, ← existsUnique_iff_length (hidsNodup o)]
    split <;> simp_all

/-- A pull run alone, with its cursor read as the `BIGINT` it is sent as. -/
theorem fetchObjectUpdates_answers {c : Conn} (h : WellFormed c.tables) (client : ClientId)
    (since : Option TransactionId) {upTo : TransactionId} (hup : upTo.val ≤ i64Max)
    (objectTypes : Option (List String)) (createdAt : Option (List CreatedAtFilter))
    (filter : Option (List (List FilterCondition))) : ∃ updates,
      (fetchObjectUpdates client since upTo objectTypes createdAt filter).run Stmt.eval c =
        (.ok updates, c) ∧
      Answers c.tables client ((since.map fun t => asI64 t.val).getD 0) upTo.val
        (Passes objectTypes createdAt filter) updates := by
  obtain ⟨parents, hparents, hrun⟩ := fetchObjectUpdates_eval client since upTo hup objectTypes
    createdAt filter c
  generalize (since.map fun t => asI64 t.val).getD 0 = sinceId at hparents hrun ⊢
  have ha := h.answers client sinceId upTo.val (headPasses objectTypes createdAt filter)
    hparents.parentsOf
  refine ⟨_, hrun, ha.distinct, fun o => ?_, ha.heads, ha.rows, ha.action⟩
  rw [ha.objects]
  refine and_congr_right fun _ => exists_congr fun row => and_congr_right fun hrow => ?_
  rw [headPasses_iff (h.columns row hrow)]

namespace Run

/-- **A pull is sound and complete.**  In every state that a run reaches, it returns
exactly the objects that others changed after `since` and that have a head passing
the filters, each once, with each of its heads once. -/
theorem pull_sound_complete {c : Config sql ServerError ℕ ServerRequest ServerReply Db}
    (hc : Run c) (client : ClientId) (since : Option TransactionId)
    (hsince : ∀ s, since = some s → s.val ≤ i64Max) (objectTypes : Option (List String))
    (createdAt : Option (List CreatedAtFilter)) (filter : Option (List (List FilterCondition))) :
    ∃ updates,
      (fetchObjectUpdates client since ⟨c.shared.tables.maxTransactionId⟩ objectTypes createdAt
        filter).run Stmt.eval ⟨c.shared.tables, c.shared.nextval, none⟩ =
        (.ok updates, ⟨c.shared.tables, c.shared.nextval, none⟩) ∧
      Answers c.shared.tables client ((since.map (·.val)).getD 0 : ℕ)
        c.shared.tables.maxTransactionId (Passes objectTypes createdAt filter) updates := by
  obtain ⟨updates, hrun, ha⟩ := fetchObjectUpdates_answers
    (c := ⟨c.shared.tables, c.shared.nextval, none⟩) hc.wellFormed client since
    hc.wellFormed.maxTransactionId_le objectTypes createdAt filter
  refine ⟨updates, hrun, ?_⟩
  rwa [asI64_cursor hsince] at ha

/-- The objects of a response, with their heads. -/
def headsOfUpdates (updates : List ObjectUpdate) : List (ObjectId × List RevisionId) :=
  updates.map fun u => (u.objectId, u.heads.map (·.id))

/-- After the race, another client pulls from the first transaction on: one object with two
heads. -/
theorem pull_sound_complete_race : ∃ c updates,
    (Config.init Db.empty).runLabels postgres serve raceLabels = some c ∧
    c.shared.tables.maxTransactionId = 3 ∧
    c.shared.tables.objectHeads = [⟨⟨⟨10⟩⟩, ⟨⟨2⟩⟩⟩, ⟨⟨⟨10⟩⟩, ⟨⟨3⟩⟩⟩] ∧
    (fetchObjectUpdates ⟨⟨8⟩⟩ (some ⟨1⟩) ⟨3⟩ none none none).run
      Stmt.eval ⟨c.shared.tables, c.shared.nextval, none⟩ =
      (.ok updates, ⟨c.shared.tables, c.shared.nextval, none⟩) ∧
    headsOfUpdates updates = [(⟨⟨10⟩⟩, [⟨⟨2⟩⟩, ⟨⟨3⟩⟩])] ∧
    Answers c.shared.tables ⟨⟨8⟩⟩ 1 3 (Passes none none none) updates := by
  have h : ((Config.init Db.empty).runLabels postgres serve raceLabels).map (fun c =>
      (c.shared.tables.maxTransactionId,
        (fetchObjectUpdates ⟨⟨8⟩⟩ (some ⟨1⟩) ⟨3⟩ none none none).run
        Stmt.eval ⟨c.shared.tables, c.shared.nextval, none⟩ |>.1.toOption.map headsOfUpdates)) =
      some (3, some [(⟨⟨10⟩⟩, [⟨⟨2⟩⟩, ⟨⟨3⟩⟩])]) := by
    decide +kernel
  have hrace : ((Config.init Db.empty).runLabels postgres serve raceLabels).map
      (·.shared.tables.objectHeads) = some [⟨⟨⟨10⟩⟩, ⟨⟨2⟩⟩⟩, ⟨⟨⟨10⟩⟩, ⟨⟨3⟩⟩⟩] := by
    decide +kernel
  obtain ⟨c, hc, hval⟩ := Option.map_eq_some_iff.mp h
  obtain ⟨hmax, hobj⟩ := Prod.mk.inj hval
  rw [hc] at hrace
  have hheads : c.shared.tables.objectHeads = _ := Option.some.inj hrace
  have hrun : Run c := Reachable.runLabels .init (fun _ _ _ => trivial) hc
  obtain ⟨updates, hup, ha⟩ := pull_sound_complete hrun ⟨⟨8⟩⟩ (some ⟨1⟩)
    (fun s hs => by cases hs; decide) none none none
  rw [hmax] at hup ha
  rw [hup] at hobj
  exact ⟨c, updates, hc, hmax, hheads, hup, Option.some.inj hobj, ha⟩

/-- A cursor from 2^63 on, which `pull_changes` refuses, is negative as a `BIGINT`:
the call alone then returns objects that nobody changed after it. -/
theorem pull_wraps_large_cursor : ∃ c, Run c ∧ ∃ updates,
    (fetchObjectUpdates ⟨⟨8⟩⟩ (some ⟨2 ^ 63⟩) ⟨c.shared.tables.maxTransactionId⟩ none none none).run
      Stmt.eval ⟨c.shared.tables, c.shared.nextval, none⟩ =
      (.ok updates, ⟨c.shared.tables, c.shared.nextval, none⟩) ∧
    ¬ Answers c.shared.tables ⟨⟨8⟩⟩ (2 ^ 63) c.shared.tables.maxTransactionId
      (Passes none none none) updates := by
  have h : ((Config.init Db.empty).runLabels postgres serve raceLabels).map (fun c =>
      (c.shared.tables.maxTransactionId, ((fetchObjectUpdates ⟨⟨8⟩⟩ (some ⟨2 ^ 63⟩)
        ⟨c.shared.tables.maxTransactionId⟩ none none none).run Stmt.eval
        ⟨c.shared.tables, c.shared.nextval, none⟩).1.toOption.map (·.map (·.objectId)))) =
      some (3, some [⟨⟨10⟩⟩]) := by decide +kernel
  obtain ⟨c, hc, hval⟩ := Option.map_eq_some_iff.mp h
  obtain ⟨hmax, hobj⟩ := Prod.mk.inj hval
  have hrun : Run c := Reachable.runLabels .init (fun _ _ _ => trivial) hc
  have hle : (⟨c.shared.tables.maxTransactionId⟩ : TransactionId).val ≤ i64Max :=
    hrun.wellFormed.maxTransactionId_le
  obtain ⟨updates, hup, -⟩ := fetchObjectUpdates_answers
    (c := ⟨c.shared.tables, c.shared.nextval, none⟩) hrun.wellFormed ⟨⟨8⟩⟩ (some ⟨2 ^ 63⟩) hle
    none none none
  refine ⟨c, hrun, updates, hup, fun ha => ?_⟩
  rw [hup] at hobj
  have hobj : updates.map (·.objectId) = [⟨⟨10⟩⟩] := Option.some.inj hobj
  have hmem : (⟨⟨10⟩⟩ : ObjectId) ∈ updates.map (·.objectId) := by rw [hobj]; simp
  obtain ⟨⟨-, -, -, -, -, -, -, x, -, -, hlow, hhigh⟩, -⟩ := (ha.objects _).mp hmem
  rw [hmax] at hhigh
  omega

end Run

end Rustend
