import Rustend.Lib.Layers
import Rustend.Server.PullSpec

/-!
# Reading one object

`get_object` finds the heads of an object in a transaction and then reads their rows and their
parents; `fetch_object_updates` reads those of many objects at once and sorts them out in maps.
On one state of the tables the two say the same of an object.

## Main definitions

* `Tables.headRevisions` — the heads of an object, as both ways of reading rebuild them.
* `SameUpdate` — two updates that differ in the order of the heads alone.

## Main results

* `getObject_run` — what `get_object` returns.
* `WellFormed.assembled_heads` — what a pull returns of an object.
* `Run.selectHeads_nil` — an object that is not found is unknown.
* `Run.read_paths_agree` — **the two ways of reading agree**, and an object is not found just
  when it has no revision.
-/

namespace Rustend

open Interleave

/-- The head ids of an object. -/
def Tables.headIds (t : Tables) (o : ObjectId) : List RevisionId :=
  (t.objectHeads.filter (·.objectId = o)).map (·.revisionId)

/-- The heads of an object, rebuilt from their rows and their parents. -/
def Tables.headRevisions (t : Tables) (o : ObjectId) : List Revision :=
  (t.revisions.filter (·.id ∈ t.headIds o)).map fun row =>
    rowToRevisionSync row (t.parentsOf row.id)

/-- The update of an object. -/
def Tables.update (t : Tables) (o : ObjectId) : ObjectUpdate :=
  ⟨o, headAction (t.headRevisions o), t.headRevisions o⟩

theorem Tables.mem_headIds_iff {t : Tables} {o : ObjectId} {r : RevisionId} :
    r ∈ t.headIds o ↔ ⟨o, r⟩ ∈ t.objectHeads := by
  unfold headIds
  rw [List.mem_map]
  constructor
  · rintro ⟨x, hx, rfl⟩
    obtain ⟨hx, ho⟩ := List.mem_filter.mp hx
    rwa [← of_decide_eq_true ho]
  · intro hr
    exact ⟨_, List.mem_filter.mpr ⟨hr, decide_eq_true rfl⟩, rfl⟩

/-! ### The single object -/

section Single

variable {c : Conn} {o : ObjectId}

theorem selectHeads_run (hc : c.tx = none) :
    (inTransaction (.perform (S := sql) (.selectHeads o))).run Stmt.eval c =
      (.ok (c.tables.headIds o), c) := by
  obtain ⟨t, n, tx⟩ := c
  obtain rfl : tx = none := hc
  show (Except.ok (((t.view {}).objectHeads.filter (·.objectId = o)).map (·.revisionId)),
    (⟨t.view {}, n, none⟩ : Conn)) = _
  rw [Tables.view_empty]
  rfl

/-- **What `get_object` returns**: all the heads, or that there are none. -/
theorem getObject_run (hc : c.tx = none) : (getObject o).run Stmt.eval c =
    (if c.tables.headIds o = [] then .error .notFound else .ok (c.tables.update o), c) := by
  unfold getObject
  rw [Program.run_bind_ok _ _ (selectHeads_run hc)]
  by_cases hempty : c.tables.headIds o = []
  · rw [if_pos hempty, hempty]
    rfl
  · have hrows : (getRevisionRowsByIds (c.tables.headIds o)).run Stmt.eval c =
        (.ok (c.tables.revisions.filter (·.id ∈ c.tables.headIds o)), c) := rfl
    obtain ⟨parents, hlists, hparents⟩ := getParentsBatch_eval
      ((c.tables.revisions.filter (·.id ∈ c.tables.headIds o)).map (·.id)) c
    have hheads : (c.tables.revisions.filter (·.id ∈ c.tables.headIds o)).map
        (fun row => rowToRevisionSync row ((parents row.id).getD [])) =
        c.tables.headRevisions o := by
      refine List.map_congr_left fun row hrow => ?_
      rw [hlists row.id (List.mem_map_of_mem hrow)]
    rw [if_neg hempty, if_neg (by rwa [List.isEmpty_iff]), Program.run_bind_ok _ _ hrows,
      Program.run_bind_ok _ _ hparents, hheads]
    rfl

end Single

namespace WellFormed

variable {t : Tables} (h : WellFormed t)

include h

/-- Each head is rebuilt once. -/
theorem headRevisions_nodup (o : ObjectId) : ((t.headRevisions o).map (·.id)).Nodup := by
  unfold Tables.headRevisions
  rw [List.map_map]
  exact h.ids.sublist (List.filter_sublist.map _)

/-- An object is without heads just when it is without revisions. -/
theorem headIds_eq_nil_iff {o : ObjectId} : t.headIds o = [] ↔ ∀ r, ¬ t.StoredAs r o := by
  rw [List.eq_nil_iff_forall_not_mem]
  constructor
  · intro hnone r hr
    obtain ⟨x, hx, -⟩ := h.exists_head hr
    exact hnone x (Tables.mem_headIds_iff.mpr hx)
  · intro hnone r hr
    exact hnone r (h.head_storedAs (Tables.mem_headIds_iff.mp hr))

end WellFormed

/-! ### The pull -/

/-- Two updates of one object that differ in the order of the heads alone. -/
structure SameUpdate (u v : ObjectUpdate) : Prop where
  objectId : u.objectId = v.objectId
  action : u.action = v.action
  heads : u.heads.Perm v.heads
  /-- Each head is there once. -/
  once : (v.heads.map (·.id)).Nodup

section Assembled

variable {t : Tables} {changed : List ObjectId} {passes : RevisionRow → Bool}
  {parents : RevisionId → Option (List RevisionId)}

/-- The heads of a changed object, read off the maps. -/
theorem WellFormed.headRevisions_perm (h : WellFormed t)
    (hlists : ListsParents t ((t.changedHeads changed).map (·.revisionId)) parents) {o : ObjectId}
    (ho : o ∈ changed) :
    (headRevisions parents (rowsMap (t.changedRows changed))
      (((t.changedHeads changed).filter fun x => x.objectId = o).map (·.revisionId))).Perm
      (t.headRevisions o) := by
  set ids := ((t.changedHeads changed).filter fun x => x.objectId = o).map (·.revisionId)
  have hsub : ∀ r ∈ ids, r ∈ (t.changedHeads changed).map (·.revisionId) :=
    (List.filter_sublist.map _).subset
  have hids : ∀ r, r ∈ ids ↔ r ∈ t.headIds o := fun r => by
    rw [Tables.mem_headIds_iff]
    exact mem_headIds ho
  have hrow : ∀ r ∈ ids, ∃ row, rowsMap (t.changedRows changed) r = some row ∧ row.id = r := by
    intro r hr
    obtain ⟨row, hmem, hid, -⟩ := h.head_storedAs ((mem_headIds ho).mp hr)
    exact ⟨row, (h.rowsMap_changedRows (hsub r hr)).mpr ⟨hmem, hid⟩, hid⟩
  have hnodup : ids.Nodup := (h.changedHeads_nodup changed).sublist (List.filter_sublist.map _)
  refine (List.perm_ext_iff_of_nodup ?_ ?_).mpr fun rev => ?_
  · refine .of_map (·.id) ?_
    rwa [map_id_headRevisions hrow]
  · exact .of_map _ (h.headRevisions_nodup o)
  · unfold headRevisions Tables.headRevisions
    simp only [List.mem_filterMap, List.mem_map, List.mem_filter, Option.map_eq_some_iff,
      decide_eq_true_eq]
    constructor
    · rintro ⟨r, hr, row, hm, rfl⟩
      obtain ⟨hmem, rfl⟩ := (h.rowsMap_changedRows (hsub r hr)).mp hm
      exact ⟨row, ⟨hmem, (hids _).mp hr⟩, by rw [hlists _ (hsub _ hr)]⟩
    · rintro ⟨row, ⟨hmem, hid⟩, rfl⟩
      have hr := (hids _).mpr hid
      exact ⟨row.id, hr, row, (h.rowsMap_changedRows (hsub _ hr)).mpr ⟨hmem, rfl⟩,
        by rw [hlists _ (hsub _ hr)]⟩

/-- **What a pull returns of an object**: the update of the object, up to the order. -/
theorem WellFormed.assembled_heads (h : WellFormed t) (hnodup : changed.Nodup)
    (hlists : ListsParents t ((t.changedHeads changed).map (·.revisionId)) parents)
    {u : ObjectUpdate} (hu : u ∈ assembleUpdates passes changed (t.changedHeads changed)
      (t.changedRows changed) parents) :
    t.headIds u.objectId ≠ [] ∧ SameUpdate u (t.update u.objectId) := by
  rw [assembleUpdates_eq hnodup (h.changedHeads_nodup changed)] at hu
  obtain ⟨o, ho, hu⟩ := List.mem_filterMap.mp hu
  obtain ⟨rfl, hpass, hheads, haction⟩ := objectUpdate_eq_some hu
  have hperm := h.headRevisions_perm hlists ho
  rw [← hheads] at hperm
  refine ⟨?_, rfl, ?_, hperm, h.headRevisions_nodup _⟩
  · obtain ⟨r, hr, -⟩ := anyPasses_iff.mp hpass
    exact List.ne_nil_of_mem (Tables.mem_headIds_iff.mpr ((mem_headIds ho).mp hr))
  · rw [haction]
    unfold headAction Tables.update headAction
    rw [hperm.length_eq]

end Assembled

/-! ### The read among other sessions -/

/-- The statements of `get_object`. -/
def ReadsObject (o : ObjectId) : Stmt → Prop
  | .begin | .commit | .rollback | .selectRevisionRows _ | .selectParentsBatch _ => True
  | .selectHeads o' => o' = o
  | _ => False

theorem issues_getObject (o : ObjectId) : (getObject o).Issues (ReadsObject o) := by
  have htx : (inTransaction (.perform (S := sql) (.selectHeads o))).Issues (ReadsObject o) := by
    refine .bind (.perform trivial) fun _ => .bind (.settle (fun r => ?_) (.perform rfl))
      fun _ => ?_
    · cases r with
      | ok a => trivial
      | error e =>
        refine .settle (fun _ => ?_) (.perform trivial)
        trivial
    · refine .bind (.perform trivial) fun _ => ?_
      trivial
  refine .bind htx fun ids => ?_
  split
  · trivial
  · refine .bind (.perform trivial) fun rows => .bind ?_ fun _ => ?_
    · unfold getParentsBatch
      split
      · trivial
      · refine .bind (.perform trivial) fun _ => ?_
        trivial
    · trivial

/-- A session that reads one object makes its statements. -/
theorem issues_serve (req : ServerRequest) :
    (serve req).Issues fun op => ∀ o, req = .getObject o → ReadsObject o op := by
  cases req with
  | getObject o =>
    refine Program.Issues.bind ?_ fun _ => trivial
    exact (issues_getObject o).mono fun op h o' ho => by cases ho; exact h
  | _ => exact .of_forall (fun op o ho => nomatch ho) _

/-- Such a statement leaves a transaction without writes, if there was none with writes. -/
theorem ReadsObject.exec {o : ObjectId} {d d' : Db} {i : ℕ} {op : Stmt} {ch : Outcome}
    {r : Except ServerError op.Res} (h : ReadsObject o op) (hx : d.exec i op ch = some (r, d'))
    (hd : d.opened i = none ∨ d.opened i = some {}) :
      d'.opened i = none ∨ d'.opened i = some {} := by
  have heval : (op.eval (d.conn i)).2.tx = none ∨ (op.eval (d.conn i)).2.tx = some {} := by
    cases op <;> first | exact h.elim | skip
    · exact .inr rfl
    · rcases hd with hd | hd <;> simp [Stmt.eval, Db.conn, hd]
    · exact .inl rfl
    · rcases hd with hd | hd <;> simp [Stmt.eval, Db.conn, hd]
    · exact hd
    · exact hd
  rcases Db.exec_cases hx with ⟨-, -, rfl⟩ | ⟨-, -, ⟨-, rfl⟩ | ⟨-, rfl⟩ | ⟨-, rfl⟩⟩
  · rwa [Db.withConn_opened_self]
  · exact hd
  · rw [Db.withConn_opened_self]
    exact .inl rfl
  · rwa [Db.withConn_opened_self]

namespace Run

variable {c : Config sql ServerError ℕ ServerRequest ServerReply Db}

/-- A session that reads one object writes nothing. -/
theorem opened_getObject (hc : Run c) {i : ℕ} {o : ObjectId} {p : Sql ServerReply}
    (hi : c.procs i = some (.getObject o, p)) :
    c.shared.opened i = none ∨ c.shared.opened i = some {} := by
  induction hc generalizing p with
  | init => cases hi
  | @next c c' l hc _ hn ih =>
    rcases Config.next_cases hn with ⟨j, req, -, hj, hs, hp⟩ |
      ⟨j, ch, req, op, next, r, -, hj, hx, hp⟩ <;>
      rw [hp, Function.update_apply] at hi <;> split at hi
    · next hij =>
      rw [hs, hij]
      exact .inl ((Reachable.safe compatible DbInv.empty (fun _ => rfl) hc).idle j hj)
    · rw [hs]
      exact ih hi
    · next hij =>
      subst hij
      cases hi
      exact ((Reachable.issues issues_serve hc i _ _ hj).1 o rfl).exec hx (ih hj)
    · next hij =>
      rw [Db.exec_opened_of_ne hx hij]
      exact ih hi

/-- **An object without heads is unknown**: when the heads of an object are read and none are
found, no revision of it is stored. -/
theorem selectHeads_nil (hc : Run c) {i : ℕ} {o o' : ObjectId} {ch : Outcome} {d : Db}
    {next : Except ServerError (List RevisionId) → Sql ServerReply}
    (hi : c.procs i = some (.getObject o', .call (S := sql) (.selectHeads o) next))
    (hx : c.shared.exec i (.selectHeads o) ch = some (.ok [], d)) (r : RevisionId) :
    ¬ c.shared.tables.StoredAs r o := by
  have hopened := hc.opened_getObject hi
  rcases Db.exec_cases hx with ⟨-, heval, -⟩ | ⟨-, herr, -⟩
  · rcases hopened with htx | htx <;> simp only [Stmt.eval, Db.conn, htx] at heval
    · cases heval
    · rw [Tables.view_empty] at heval
      exact (hc.wellFormed.headIds_eq_nil_iff).mp (Except.ok.inj heval).symm r
  · cases herr

/-- **The two ways of reading agree.**  In every state that a run reaches, whatever a pull returns
of an object is what `get_object` returns of it, up to the order of the heads; and an object is
not found just when no revision of it is stored. -/
theorem read_paths_agree (hc : Run c) {client : ClientId} {since : Option TransactionId}
    {upTo : TransactionId} {objectTypes : Option (List String)}
    {createdAt : Option (List CreatedAtFilter)} {filter : Option (List (List FilterCondition))}
    {updates : List ObjectUpdate} {conn : Conn}
    (hrun : (fetchObjectUpdates client since upTo objectTypes createdAt filter).run Stmt.eval
      ⟨c.shared.tables, c.shared.nextval, none⟩ = (.ok updates, conn)) :
    (∀ u ∈ updates, ∃ v, (getObject u.objectId).run Stmt.eval conn = (.ok v, conn) ∧
      SameUpdate u v) ∧
    ∀ o, (getObject o).run Stmt.eval conn = (.error .notFound, conn) ↔
      ∀ r, ¬ c.shared.tables.StoredAs r o := by
  have hwf := hc.wellFormed
  by_cases hup : upTo.val ≤ i64Max
  · obtain ⟨parents, hlists, heval⟩ := fetchObjectUpdates_eval client since upTo hup objectTypes
      createdAt filter ⟨c.shared.tables, c.shared.nextval, none⟩
    obtain ⟨hupdates, rfl⟩ := Prod.mk.inj (heval.symm.trans hrun)
    obtain rfl := Except.ok.inj hupdates
    refine ⟨fun u hu => ?_, fun o => ?_⟩
    · obtain ⟨hne, hsame⟩ := hwf.assembled_heads (c.shared.tables.changedObjects_nodup ..) hlists hu
      refine ⟨_, ?_, hsame⟩
      rw [getObject_run rfl, if_neg hne]
    · rw [getObject_run rfl, ← hwf.headIds_eq_nil_iff]
      split
      · next hnil => exact iff_of_true rfl hnil
      · next hne => exact iff_of_false (fun heq => nomatch heq) hne
  · -- a window that ends beyond the range is refused
    unfold fetchObjectUpdates at hrun
    rw [if_pos (by omega)] at hrun
    cases hrun

/-- An object with two heads, returned by a pull. -/
theorem read_paths_agree_race : ∃ c, Run c ∧ ∃ updates conn,
    (fetchObjectUpdates ⟨⟨8⟩⟩ (some ⟨1⟩) ⟨3⟩ none none none).run Stmt.eval
      ⟨c.shared.tables, c.shared.nextval, none⟩ = (.ok updates, conn) ∧
    updates.map (fun u => (u.objectId, u.heads.map (·.id))) = [(⟨⟨10⟩⟩, [⟨⟨2⟩⟩, ⟨⟨3⟩⟩])] ∧
    (∀ u ∈ updates, ∃ v, (getObject u.objectId).run Stmt.eval conn = (.ok v, conn) ∧
      SameUpdate u v) ∧
    ∀ o, (getObject o).run Stmt.eval conn = (.error .notFound, conn) ↔
      ∀ r, ¬ c.shared.tables.StoredAs r o := by
  have h : ((Config.init Db.empty).runLabels postgres serve raceLabels).map (fun c =>
      ((fetchObjectUpdates ⟨⟨8⟩⟩ (some ⟨1⟩) ⟨3⟩ none none none).run Stmt.eval
        ⟨c.shared.tables, c.shared.nextval, none⟩).1.toOption.map
        (·.map fun u => (u.objectId, u.heads.map (·.id)))) =
      some (some [(⟨⟨10⟩⟩, [⟨⟨2⟩⟩, ⟨⟨3⟩⟩])]) := by decide +kernel
  obtain ⟨c, hc, hval⟩ := Option.map_eq_some_iff.mp h
  have hc : Run c := Reachable.runLabels .init (fun _ _ _ => trivial) hc
  rcases hrun : (fetchObjectUpdates ⟨⟨8⟩⟩ (some ⟨1⟩) ⟨3⟩ none none none).run Stmt.eval
    ⟨c.shared.tables, c.shared.nextval, none⟩ with ⟨e | updates, conn⟩
  · rw [hrun] at hval
    cases hval
  · rw [hrun] at hval
    have hheads : updates.map (fun u => (u.objectId, u.heads.map (·.id))) =
        [(⟨⟨10⟩⟩, [⟨⟨2⟩⟩, ⟨⟨3⟩⟩])] := Option.some.inj hval
    exact ⟨c, hc, updates, conn, hrun, hheads, read_paths_agree hc hrun⟩

end Run

end Rustend
