import Rustend.Server.ObjectRead

/-!
# A pull selects

What a pull returns of an object depends on the object alone: not on the window, the other
objects that are read with it, or the filters.  The window and the filters only select.

## Main definitions

* `Tables.selected` — what a pull returns of an object.
* `revisionPasses` — the filters, on a revision as a client receives it.

## Main results

* `WellFormed.fetchObjectUpdates_run` — a pull, one object at a time.
* `Run.pull_filters` — **to filter on the server is to filter what arrives.**
* `Run.pull_windows` — **a window can be pulled in parts.**
-/

namespace Rustend

open Interleave

/-- What a pull returns of an object whose heads it has read. -/
def Tables.selected (t : Tables) (passes : RevisionRow → Bool) (o : ObjectId) :
    Option ObjectUpdate :=
  objectUpdate passes (fun r => some (t.parentsOf r)) (rowsMap t.revisions) (t.headIds o) o

/-! ### One object -/

section Object

variable {t : Tables} {changed : List ObjectId} {passes : RevisionRow → Bool}
  {parents parents' : RevisionId → Option (List RevisionId)}

theorem headRevisions_parents_congr {m : RevisionId → Option RevisionRow} {ids : List RevisionId}
    (h : ∀ r ∈ ids, ∀ row, m r = some row →
      (parents row.id).getD [] = (parents' row.id).getD []) :
    headRevisions parents m ids = headRevisions parents' m ids := by
  refine List.filterMap_congr fun r hr => ?_
  cases hrow : m r with
  | none => rfl
  | some row => rw [Option.map_some, Option.map_some, h r hr row hrow]

theorem Tables.headIds_changed (t : Tables) {o : ObjectId} (ho : o ∈ changed) :
    ((t.changedHeads changed).filter fun x => x.objectId = o).map (·.revisionId) = t.headIds o := by
  unfold changedHeads headIds
  rw [List.filter_filter]
  refine congrArg (List.map _) (List.filter_congr fun x _ => ?_)
  by_cases hx : x.objectId = o
  · simp [hx, ho]
  · simp [hx]

/-- **The updates, one object at a time.** -/
theorem WellFormed.assembled_selected (h : WellFormed t) (hnodup : changed.Nodup)
    (hlists : ListsParents t ((t.changedHeads changed).map (·.revisionId)) parents) :
    assembleUpdates passes changed (t.changedHeads changed) (t.changedRows changed) parents =
      changed.filterMap (t.selected passes) := by
  rw [assembleUpdates_eq hnodup (h.changedHeads_nodup changed)]
  refine List.filterMap_congr fun o ho => ?_
  rw [t.headIds_changed ho]
  have hread : ∀ r ∈ t.headIds o, r ∈ (t.changedHeads changed).map (·.revisionId) := by
    rw [← t.headIds_changed ho]
    exact (List.filter_sublist.map _).subset
  have hrows : ∀ r ∈ t.headIds o, rowsMap (t.changedRows changed) r = rowsMap t.revisions r := by
    refine fun r hr => Option.ext fun row => ?_
    rw [h.rowsMap_changedRows (hread r hr), rowsMap_eq_some h.ids]
  rw [objectUpdate_congr hrows, Tables.selected, objectUpdate, objectUpdate,
    headRevisions_parents_congr fun r hr row hrow => ?_]
  obtain ⟨-, rfl⟩ := (rowsMap_eq_some h.ids).mp hrow
  exact hlists row.id (hread row.id hr)

/-- **A pull, one object at a time.** -/
theorem WellFormed.fetchObjectUpdates_run {c : Conn} (h : WellFormed c.tables) (client : ClientId)
    (since : Option TransactionId) {upTo : TransactionId} (hup : upTo.val ≤ i64Max)
    (objectTypes : Option (List String)) (createdAt : Option (List CreatedAtFilter))
    (filter : Option (List (List FilterCondition))) :
    (fetchObjectUpdates client since upTo objectTypes createdAt filter).run Stmt.eval c =
      (.ok ((c.tables.changedObjects ((since.map fun t => asI64 t.val).getD 0) upTo.val
        client).filterMap (c.tables.selected (headPasses objectTypes createdAt filter))), c) := by
  obtain ⟨parents, hlists, hrun⟩ := fetchObjectUpdates_eval client since upTo hup objectTypes
    createdAt filter c
  rw [hrun, h.assembled_selected (c.tables.changedObjects_nodup ..) hlists]

end Object

/-! ### Filters -/

/-- The filters of a pull, on a revision as a client receives it. -/
def revisionPasses (req : PullRequest) (rev : Revision) : Bool :=
  headPasses req.objectTypes req.createdAt req.filter rev.row

/-- The same pull without filters. -/
def PullRequest.unfiltered (req : PullRequest) : PullRequest :=
  { req with objectTypes := none, createdAt := none, filter := none }

/-- A pull answered with those updates only that have a head which passes. -/
def PullResponse.filtered (req : PullRequest) (resp : PullResponse) : PullResponse :=
  { resp with objectUpdates := resp.objectUpdates.filter fun u => u.heads.any (revisionPasses req) }

section Filters

variable {t : Tables} {row : RevisionRow}

theorem headPasses_none (row : RevisionRow) : headPasses none none none row = true := by
  unfold headPasses
  cases row.data <;> rfl

/-- A row is rebuilt from the revision that was rebuilt from it. -/
theorem rowToRevisionSync_row (h : row.activeHasData = true) (parents : List RevisionId) :
    (rowToRevisionSync row parents).row = row := by
  obtain ⟨id, objectId, objectType, deleted, data, createdAt, createdBy⟩ := row
  cases deleted <;> cases data <;> first | rfl | cases h

/-- **The filters select** among the updates of the objects. -/
theorem WellFormed.selected_filter (h : WellFormed t) (req : PullRequest) (o : ObjectId) :
    t.selected (headPasses req.objectTypes req.createdAt req.filter) o =
      (t.selected (headPasses none none none) o).filter fun u =>
        u.heads.any (revisionPasses req) := by
  -- a head passes as a row just when it passes as a revision
  have hany : (headRevisions (fun r => some (t.parentsOf r)) (rowsMap t.revisions)
      (t.headIds o)).any (revisionPasses req) =
      anyPasses (headPasses req.objectTypes req.createdAt req.filter) (rowsMap t.revisions)
        (t.headIds o) := by
    rw [Bool.eq_iff_iff, anyPasses_iff, List.any_eq_true]
    constructor
    · rintro ⟨rev, hrev, hpass⟩
      obtain ⟨r, hr, hsome⟩ := List.mem_filterMap.mp hrev
      obtain ⟨row, hrow, rfl⟩ := Option.map_eq_some_iff.mp hsome
      obtain ⟨hmem, -⟩ := (rowsMap_eq_some h.ids).mp hrow
      rw [revisionPasses, rowToRevisionSync_row (h.columns row hmem)] at hpass
      exact ⟨r, hr, row, hrow, hpass⟩
    · rintro ⟨r, hr, row, hrow, hpass⟩
      obtain ⟨hmem, -⟩ := (rowsMap_eq_some h.ids).mp hrow
      refine ⟨_, List.mem_filterMap.mpr ⟨r, hr, Option.map_eq_some_iff.mpr ⟨row, hrow, rfl⟩⟩, ?_⟩
      rwa [revisionPasses, rowToRevisionSync_row (h.columns row hmem)]
  unfold Tables.selected objectUpdate
  by_cases hpass : anyPasses (headPasses req.objectTypes req.createdAt req.filter)
      (rowsMap t.revisions) (t.headIds o) = true
  · obtain ⟨r, hr, row, hrow, -⟩ := anyPasses_iff.mp hpass
    have hplain : anyPasses (headPasses none none none) (rowsMap t.revisions) (t.headIds o) =
        true :=
      anyPasses_iff.mpr ⟨r, hr, row, hrow, headPasses_none row⟩
    rw [if_pos hpass, if_pos hplain, Option.filter_some, hany, if_pos hpass]
  · rw [if_neg hpass]
    split
    · rw [Option.filter_some, hany, if_neg hpass]
    · rfl

end Filters

/-! ### Windows -/

/-- What has changed in a window has changed in one of its parts. -/
theorem Tables.changedFor_iff {t : Tables} {client : ClientId} {since mid upTo : ℤ} {o : ObjectId}
    (hlow : since ≤ mid) (hhigh : mid ≤ upTo) : t.ChangedFor client since upTo o ↔
      t.ChangedFor client since mid o ∨ t.ChangedFor client mid upTo o := by
  constructor
  · rintro ⟨row, hrow, ho, hby, e, he, hid, x, hx, hxe, hs, hu⟩
    rcases le_or_gt (x.id : ℤ) mid with hle | hgt
    · exact .inl ⟨row, hrow, ho, hby, e, he, hid, x, hx, hxe, hs, hle⟩
    · exact .inr ⟨row, hrow, ho, hby, e, he, hid, x, hx, hxe, hgt, hu⟩
  · rintro (⟨row, hrow, ho, hby, e, he, hid, x, hx, hxe, hs, hu⟩ |
      ⟨row, hrow, ho, hby, e, he, hid, x, hx, hxe, hs, hu⟩)
    · exact ⟨row, hrow, ho, hby, e, he, hid, x, hx, hxe, hs, hu.trans hhigh⟩
    · exact ⟨row, hrow, ho, hby, e, he, hid, x, hx, hxe, hlow.trans_lt hs, hu⟩

namespace Run

variable {c : Config sql ServerError ℕ ServerRequest ServerReply Db}

/-- **To filter on the server is to filter what arrives.**  In every state that a run reaches, a
pull with any filters is answered as the same pull without them is, less the updates no head of
which passes; and it is refused just when that one is. -/
theorem pull_filters (hc : Run c) (client : ClientId) (req : PullRequest) :
    (pullChanges client req).run Stmt.eval ⟨c.shared.tables, c.shared.nextval, none⟩ =
      (((pullChanges client req.unfiltered).run Stmt.eval
          ⟨c.shared.tables, c.shared.nextval, none⟩).1.map (PullResponse.filtered req),
        ⟨c.shared.tables, c.shared.nextval, none⟩) := by
  have hwf := hc.wellFormed
  unfold pullChanges PullRequest.unfiltered
  split
  · rfl
  · have hmax : latestTransactionId.run Stmt.eval
        (⟨c.shared.tables, c.shared.nextval, none⟩ : Conn) =
        (.ok ⟨c.shared.tables.maxTransactionId⟩, ⟨c.shared.tables, c.shared.nextval, none⟩) := rfl
    have hup : (⟨c.shared.tables.maxTransactionId⟩ : TransactionId).val ≤ i64Max :=
      hwf.maxTransactionId_le
    have hfetch := hwf.fetchObjectUpdates_run (c := ⟨c.shared.tables, c.shared.nextval, none⟩)
      client req.since hup
    rw [Program.run_bind_ok _ _ hmax, Program.run_bind_ok _ _ hmax,
      Program.run_bind_ok _ _ (hfetch ..), Program.run_bind_ok _ _ (hfetch ..)]
    simp only [Program.run_pure, Except.map, PullResponse.filtered, List.filter_filterMap]
    refine congrArg (fun updates => (Except.ok (⟨_, updates⟩ : PullResponse), _)) ?_
    exact List.filterMap_congr fun o _ => hwf.selected_filter req o

/-- After the race, an object of another type is pushed. -/
def mixedLabels : List (Label ℕ Outcome ServerRequest) :=
  raceLabels ++ .start 4 (.push ⟨⟨7⟩⟩
    [⟨⟨⟨4⟩⟩, ⟨⟨20⟩⟩, "car", .root, 0, ⟨⟨7⟩⟩, .active .null⟩]) :: proceeds 4 7

/-- A pull of cars, among trips and cars. -/
theorem pull_filters_mixed : ∃ c whole cars,
    (Config.init Db.empty).runLabels postgres serve mixedLabels = some c ∧
    (pullChanges ⟨⟨8⟩⟩ ⟨some ⟨1⟩, none, none, none⟩).run Stmt.eval
      ⟨c.shared.tables, c.shared.nextval, none⟩ =
      (.ok whole, ⟨c.shared.tables, c.shared.nextval, none⟩) ∧
    headsOfUpdates whole.objectUpdates = [(⟨⟨10⟩⟩, [⟨⟨2⟩⟩, ⟨⟨3⟩⟩]), (⟨⟨20⟩⟩, [⟨⟨4⟩⟩])] ∧
    (pullChanges ⟨⟨8⟩⟩ ⟨some ⟨1⟩, some ["car"], none, none⟩).run Stmt.eval
      ⟨c.shared.tables, c.shared.nextval, none⟩ =
      (.ok cars, ⟨c.shared.tables, c.shared.nextval, none⟩) ∧
    headsOfUpdates cars.objectUpdates = [(⟨⟨20⟩⟩, [⟨⟨4⟩⟩])] ∧
    cars = whole.filtered ⟨some ⟨1⟩, some ["car"], none, none⟩ := by
  have h : ((Config.init Db.empty).runLabels postgres serve mixedLabels).map (fun c =>
      (((pullChanges ⟨⟨8⟩⟩ ⟨some ⟨1⟩, none, none, none⟩).run Stmt.eval
          ⟨c.shared.tables, c.shared.nextval, none⟩).1.toOption.map fun resp =>
          headsOfUpdates resp.objectUpdates,
        ((pullChanges ⟨⟨8⟩⟩ ⟨some ⟨1⟩, some ["car"], none, none⟩).run Stmt.eval
          ⟨c.shared.tables, c.shared.nextval, none⟩).1.toOption.map fun resp =>
          headsOfUpdates resp.objectUpdates)) =
      some (some [(⟨⟨10⟩⟩, [⟨⟨2⟩⟩, ⟨⟨3⟩⟩]), (⟨⟨20⟩⟩, [⟨⟨4⟩⟩])], some [(⟨⟨20⟩⟩, [⟨⟨4⟩⟩])]) := by
    decide +kernel
  obtain ⟨c, hc, hval⟩ := Option.map_eq_some_iff.mp h
  obtain ⟨hwhole, hcars⟩ := Prod.mk.inj hval
  have hrun : Run c := Reachable.runLabels .init (fun _ _ _ => trivial) hc
  have hfilter := pull_filters hrun ⟨⟨8⟩⟩ ⟨some ⟨1⟩, some ["car"], none, none⟩
  have hsame := congrArg Prod.snd (pull_filters hrun ⟨⟨8⟩⟩ ⟨some ⟨1⟩, none, none, none⟩)
  rw [PullRequest.unfiltered] at hfilter
  rw [hfilter] at hcars
  rcases hpull : (pullChanges ⟨⟨8⟩⟩ ⟨some ⟨1⟩, none, none, none⟩).run Stmt.eval
    ⟨c.shared.tables, c.shared.nextval, none⟩ with ⟨r, conn⟩
  rw [hpull] at hwhole hcars hfilter hsame
  obtain rfl : conn = ⟨c.shared.tables, c.shared.nextval, none⟩ := hsame
  cases r with
  | error e => cases hwhole
  | ok whole =>
    exact ⟨c, whole, _, hc, hpull, Option.some.inj hwhole, hfilter, Option.some.inj hcars, rfl⟩

/-- **A window can be pulled in parts.**  In every state that a run reaches, and for any cursor
within a window, the updates of the window are those of the two parts together. -/
theorem pull_windows (hc : Run c) (client : ClientId) {since mid upTo : TransactionId}
    (hlow : since.val ≤ mid.val) (hhigh : mid.val ≤ upTo.val) (hup : upTo.val ≤ i64Max)
    (objectTypes : Option (List String)) (createdAt : Option (List CreatedAtFilter))
    (filter : Option (List (List FilterCondition))) :
    ∃ whole first second,
      (fetchObjectUpdates client (some since) upTo objectTypes createdAt filter).run Stmt.eval
        ⟨c.shared.tables, c.shared.nextval, none⟩ =
        (.ok whole, ⟨c.shared.tables, c.shared.nextval, none⟩) ∧
      (fetchObjectUpdates client (some since) mid objectTypes createdAt filter).run Stmt.eval
        ⟨c.shared.tables, c.shared.nextval, none⟩ =
        (.ok first, ⟨c.shared.tables, c.shared.nextval, none⟩) ∧
      (fetchObjectUpdates client (some mid) upTo objectTypes createdAt filter).run Stmt.eval
        ⟨c.shared.tables, c.shared.nextval, none⟩ =
        (.ok second, ⟨c.shared.tables, c.shared.nextval, none⟩) ∧
      ∀ u, u ∈ whole ↔ u ∈ first ∨ u ∈ second := by
  have hwf := hc.wellFormed
  have hmid : mid.val ≤ i64Max := hhigh.trans hup
  refine ⟨_, _, _, hwf.fetchObjectUpdates_run client _ hup objectTypes createdAt filter,
    hwf.fetchObjectUpdates_run client _ hmid objectTypes createdAt filter,
    hwf.fetchObjectUpdates_run client _ hup objectTypes createdAt filter, fun u => ?_⟩
  simp only [Option.map_some, Option.getD_some, asI64_eq hmid, asI64_eq (hlow.trans hmid),
    List.mem_filterMap, Tables.mem_changedObjects, ← exists_or, ← or_and_right]
  exact exists_congr fun o => and_congr_left fun _ =>
    Tables.changedFor_iff (by omega) (by omega)

/-- Four transactions, pulled together and in two parts. -/
theorem pull_windows_mixed : ∃ c whole first second,
    (Config.init Db.empty).runLabels postgres serve mixedLabels = some c ∧
    (fetchObjectUpdates ⟨⟨8⟩⟩ (some ⟨0⟩) ⟨4⟩ none none none).run Stmt.eval
      ⟨c.shared.tables, c.shared.nextval, none⟩ =
      (.ok whole, ⟨c.shared.tables, c.shared.nextval, none⟩) ∧
    (fetchObjectUpdates ⟨⟨8⟩⟩ (some ⟨0⟩) ⟨2⟩ none none none).run Stmt.eval
      ⟨c.shared.tables, c.shared.nextval, none⟩ =
      (.ok first, ⟨c.shared.tables, c.shared.nextval, none⟩) ∧
    (fetchObjectUpdates ⟨⟨8⟩⟩ (some ⟨2⟩) ⟨4⟩ none none none).run Stmt.eval
      ⟨c.shared.tables, c.shared.nextval, none⟩ =
      (.ok second, ⟨c.shared.tables, c.shared.nextval, none⟩) ∧
    headsOfUpdates first = [(⟨⟨10⟩⟩, [⟨⟨2⟩⟩, ⟨⟨3⟩⟩])] ∧
    headsOfUpdates second = [(⟨⟨10⟩⟩, [⟨⟨2⟩⟩, ⟨⟨3⟩⟩]), (⟨⟨20⟩⟩, [⟨⟨4⟩⟩])] ∧
    ∀ u, u ∈ whole ↔ u ∈ first ∨ u ∈ second := by
  have h : ((Config.init Db.empty).runLabels postgres serve mixedLabels).map (fun c =>
      (((fetchObjectUpdates ⟨⟨8⟩⟩ (some ⟨0⟩) ⟨2⟩ none none none).run Stmt.eval
          ⟨c.shared.tables, c.shared.nextval, none⟩).1.toOption.map headsOfUpdates,
        ((fetchObjectUpdates ⟨⟨8⟩⟩ (some ⟨2⟩) ⟨4⟩ none none none).run Stmt.eval
          ⟨c.shared.tables, c.shared.nextval, none⟩).1.toOption.map headsOfUpdates)) =
      some (some [(⟨⟨10⟩⟩, [⟨⟨2⟩⟩, ⟨⟨3⟩⟩])],
        some [(⟨⟨10⟩⟩, [⟨⟨2⟩⟩, ⟨⟨3⟩⟩]), (⟨⟨20⟩⟩, [⟨⟨4⟩⟩])]) := by decide +kernel
  obtain ⟨c, hc, hval⟩ := Option.map_eq_some_iff.mp h
  obtain ⟨hheads, hheads'⟩ := Prod.mk.inj hval
  have hrun : Run c := Reachable.runLabels .init (fun _ _ _ => trivial) hc
  obtain ⟨whole, first, second, hwhole, hfirst, hsecond, hparts⟩ := pull_windows hrun ⟨⟨8⟩⟩
    (by decide : (0 : ℕ) ≤ 2) (by decide : (2 : ℕ) ≤ 4) (by decide : (4 : ℕ) ≤ i64Max) none none
      none
  rw [hfirst] at hheads
  rw [hsecond] at hheads'
  exact ⟨c, whole, first, second, hc, hwhole, hfirst, hsecond, Option.some.inj hheads,
    Option.some.inj hheads', hparts⟩

end Run

end Rustend
