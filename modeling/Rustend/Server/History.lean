import Rustend.Server.Push
import Rustend.Lib.Frontier

/-!
# The history of pushes

What the tables are, apart from how a push gets there: a revision graph that only
grows, by one valid batch at a time.  `Appends` is what a committed push does to
the tables, `ValidBatch` is when it is admissible, and `WellFormed` is what every
history of admissible batches keeps.

## Main definitions

* `Tables.StoredAs`, `Tables.Parent`, `Tables.headsOf` — the graph in the tables.
* `WellFormed` — the invariant of the tables.
* `Accepts`, `ValidBatch` — a batch each of whose entries stands on stored
  revisions or on earlier entries.
* `Appends` — the effect of committing a batch.
* `Grows` — what survives any number of commits.

## Main results

* `WellFormed.appends` — **a valid batch keeps the tables well formed.**
* `WellFormed.exists_head` — an object with a revision has a head above it.
-/

namespace Rustend

open Relation

/-! ### The graph in the tables -/

namespace Tables

/-- Revision `r` is stored. -/
def Stored (t : Tables) (r : RevisionId) : Prop := ∃ row ∈ t.revisions, row.id = r

/-- Revision `r` is stored, as a revision of object `o`. -/
def StoredAs (t : Tables) (r : RevisionId) (o : ObjectId) : Prop :=
  ∃ row ∈ t.revisions, row.id = r ∧ row.objectId = o

/-- `x` is a declared parent of `y`. -/
def Parent (t : Tables) (x y : RevisionId) : Prop :=
  ∃ e ∈ t.revisionParents, e.parentId = x ∧ e.revisionId = y

/-- The stored revisions of an object. -/
def revisionsOf (t : Tables) (o : ObjectId) : Set RevisionId := {r | t.StoredAs r o}

/-- The heads of an object. -/
def headsOf (t : Tables) (o : ObjectId) : Set RevisionId := {r | ⟨o, r⟩ ∈ t.objectHeads}

instance (t : Tables) (r : RevisionId) : Decidable (t.Stored r) :=
  inferInstanceAs (Decidable (∃ row ∈ t.revisions, row.id = r))

instance (t : Tables) (r : RevisionId) (o : ObjectId) : Decidable (t.StoredAs r o) :=
  inferInstanceAs (Decidable (∃ row ∈ t.revisions, row.id = r ∧ row.objectId = o))

instance (t : Tables) (x y : RevisionId) : Decidable (t.Parent x y) :=
  inferInstanceAs (Decidable (∃ e ∈ t.revisionParents, e.parentId = x ∧ e.revisionId = y))

theorem mem_revisionsOf {t : Tables} {o : ObjectId} {r : RevisionId} :
    r ∈ t.revisionsOf o ↔ t.StoredAs r o := Iff.rfl

theorem mem_headsOf {t : Tables} {o : ObjectId} {r : RevisionId} :
    r ∈ t.headsOf o ↔ ⟨o, r⟩ ∈ t.objectHeads := Iff.rfl

theorem StoredAs.stored {t : Tables} {r : RevisionId} {o : ObjectId} (h : t.StoredAs r o) :
    t.Stored r := let ⟨row, hrow, hr, _⟩ := h; ⟨row, hrow, hr⟩

theorem Stored.storedAs {t : Tables} {r : RevisionId} (h : t.Stored r) :
    ∃ o, t.StoredAs r o := let ⟨row, hrow, hr⟩ := h; ⟨row.objectId, row, hrow, hr, rfl⟩

theorem revisionsOf_finite (t : Tables) (o : ObjectId) : (t.revisionsOf o).Finite := by
  refine ((t.revisions.map (·.id)).finite_toSet).subset ?_
  rintro r ⟨row, hrow, rfl, -⟩
  exact List.mem_map_of_mem hrow

end Tables

/-- The invariant of the tables. -/
structure WellFormed (t : Tables) : Prop where
  /-- The primary key of `revisions`. -/
  ids : (t.revisions.map (·.id)).Nodup
  /-- A declared parent is stored, under the object of its child. -/
  parents : ∀ e ∈ t.revisionParents, ∃ o, t.StoredAs e.revisionId o ∧ t.StoredAs e.parentId o
  /-- The primary key of `revision_parents`. -/
  parents_nodup : (t.revisionParents.map fun e => (e.revisionId, e.parentId)).Nodup
  acyclic : ∀ r, Acc t.Parent r
  /-- The heads of an object are the frontier of its revisions. -/
  heads : ∀ o, t.headsOf o = Dag.frontier t.Parent (t.revisionsOf o)
  heads_nodup : t.objectHeads.Nodup
  txn_ids : (t.transactions.map (·.id)).Nodup
  txn_range : ∀ x ∈ t.transactions, 1 ≤ x.id ∧ x.id ≤ i64Max
  /-- No revision is listed twice. -/
  listed_nodup : (t.transactionRevisions.map (·.revisionId)).Nodup
  /-- Every stored revision is listed. -/
  listed : ∀ row ∈ t.revisions, ∃ e ∈ t.transactionRevisions, e.revisionId = row.id
  /-- What is listed is stored, and was created by the client of its transaction. -/
  author : ∀ e ∈ t.transactionRevisions, ∃ x ∈ t.transactions, x.id = e.transactionId ∧
    ∃ row ∈ t.revisions, row.id = e.revisionId ∧ row.createdBy = x.clientId
  /-- No transaction is empty. -/
  lists : ∀ x ∈ t.transactions, ∃ e ∈ t.transactionRevisions, e.transactionId = x.id
  /-- The check `active_has_data`. -/
  columns : ∀ row ∈ t.revisions, row.activeHasData = true

namespace WellFormed

variable {t : Tables} (h : WellFormed t)

include h

/-- A row of `revisions` is determined by its id. -/
theorem row_unique {a b : RevisionRow} (ha : a ∈ t.revisions) (hb : b ∈ t.revisions)
    (hab : a.id = b.id) : a = b := List.inj_on_of_nodup_map h.ids ha hb hab

theorem storedAs_unique {r : RevisionId} {o o' : ObjectId} (ho : t.StoredAs r o)
    (ho' : t.StoredAs r o') : o = o' := by
  obtain ⟨a, ha, har, rfl⟩ := ho
  obtain ⟨b, hb, hbr, rfl⟩ := ho'
  rw [h.row_unique ha hb (har.trans hbr.symm)]

theorem parent_stored {x y : RevisionId} (hp : t.Parent x y) :
    ∃ o, t.StoredAs x o ∧ t.StoredAs y o := by
  obtain ⟨e, he, rfl, rfl⟩ := hp
  obtain ⟨o, hy, hx⟩ := h.parents e he
  exact ⟨o, hx, hy⟩

theorem head_storedAs {o : ObjectId} {r : RevisionId} (hr : ⟨o, r⟩ ∈ t.objectHeads) :
    t.StoredAs r o := by
  have : r ∈ t.headsOf o := hr
  rw [h.heads] at this
  exact this.1

/-- A head is nobody's parent. -/
theorem head_not_parent {o : ObjectId} {r y : RevisionId} (hr : ⟨o, r⟩ ∈ t.objectHeads) :
    ¬ t.Parent r y := by
  intro hp
  have hf : r ∈ t.headsOf o := hr
  rw [h.heads] at hf
  obtain ⟨o', hro', hyo'⟩ := h.parent_stored hp
  rw [h.storedAs_unique hro' hf.1] at hyo'
  exact hf.2 y hyo' hp

theorem mem_objectHeads_iff {o : ObjectId} {r : RevisionId} :
    ⟨o, r⟩ ∈ t.objectHeads ↔ t.StoredAs r o ∧ ∀ y, t.Stored y → ¬ t.Parent r y := by
  constructor
  · intro hr
    exact ⟨h.head_storedAs hr, fun y _ => h.head_not_parent hr⟩
  · rintro ⟨hr, hn⟩
    have : r ∈ t.headsOf o := by
      rw [h.heads]
      exact ⟨hr, fun y hy => hn y (Tables.StoredAs.stored hy)⟩
    exact this

theorem no_cycle (r : RevisionId) : ¬ TransGen t.Parent r r := Dag.not_transGen_self h.acyclic r

/-- **Every stored revision has a head of its object above it.** -/
theorem exists_head {r : RevisionId} {o : ObjectId} (hr : t.StoredAs r o) :
    ∃ x, ⟨o, x⟩ ∈ t.objectHeads ∧ ReflTransGen t.Parent r x := by
  obtain ⟨x, hx, hrx⟩ := Dag.exists_frontier_above (t.revisionsOf_finite o) h.no_cycle
    (Tables.mem_revisionsOf.mpr hr)
  rw [← h.heads] at hx
  exact ⟨x, hx, hrx⟩

end WellFormed

theorem WellFormed.empty : WellFormed {} where
  ids := by simp
  parents := by simp
  parents_nodup := by simp
  acyclic := fun r => ⟨r, fun x hx => by obtain ⟨e, he, -⟩ := hx; simp at he⟩
  heads := by
    intro o
    ext r
    simp [Tables.headsOf, Dag.frontier, Tables.revisionsOf, Tables.StoredAs]
  heads_nodup := by simp
  txn_ids := by simp
  txn_range := by simp
  listed_nodup := by simp
  listed := by simp
  author := by simp
  lists := by simp
  columns := by simp

/-- Registering a client leaves the tables well formed. -/
theorem WellFormed.withClients {t : Tables} (h : WellFormed t) (clients : List ClientId) :
    WellFormed { t with clients := clients } :=
  ⟨h.ids, h.parents, h.parents_nodup, h.acyclic, h.heads, h.heads_nodup, h.txn_ids, h.txn_range,
    h.listed_nodup, h.listed, h.author, h.lists, h.columns⟩

/-! ### Batches -/

/-- The entries of a batch that the checks of a push by `client` let through, in
order: each one's parents are stored or came earlier, under its own object. -/
inductive Accepts (t : Tables) (client : ClientId) : List Revision → Prop where
  | nil : Accepts t client []
  | snoc {acc : List Revision} {rev : Revision} : Accepts t client acc →
      rev.createdBy = client → rev.parents.Nodup →
      (∀ p ∈ rev.parents, t.StoredAs p rev.objectId ∨
        ∃ e ∈ acc, e.id = p ∧ e.objectId = rev.objectId) →
      Accepts t client (acc ++ [rev])

/-- A batch that may be committed as transaction `n` of `client`. -/
structure ValidBatch (t : Tables) (client : ClientId) (n : ℕ) (batch : List Revision) : Prop where
  nonempty : batch ≠ []
  ids : (batch.map (·.id)).Nodup
  fresh : ∀ rev ∈ batch, ¬ t.Stored rev.id
  /-- Every value fits its column. -/
  storable : ∀ rev ∈ batch, rev.row.storable = true
  accepts : Accepts t client batch
  txn_fresh : ∀ x ∈ t.transactions, x.id ≠ n
  txn_range : 1 ≤ n ∧ n ≤ i64Max

/-- What committing a batch as transaction `n` of `client` does to the tables. -/
structure Appends (t t' : Tables) (client : ClientId) (n : ℕ) (batch : List Revision) : Prop where
  clients : t'.clients = t.clients
  revisions : t'.revisions = t.revisions ++ batch.map fun rev => rev.row.stored
  revisionParents : t'.revisionParents = t.revisionParents ++ batch.flatMap Revision.parentRows
  transactions : t'.transactions = t.transactions ++ [⟨n, client⟩]
  transactionRevisions :
    t'.transactionRevisions = t.transactionRevisions ++ batch.map fun rev => ⟨n, rev.id⟩
  heads : ∀ x, x ∈ t'.objectHeads ↔
    (x ∈ t.objectHeads ∨ ∃ rev ∈ batch, x = ⟨rev.objectId, rev.id⟩) ∧
      ∀ rev ∈ batch, ¬(x.objectId = rev.objectId ∧ x.revisionId ∈ rev.parents)
  heads_nodup : t'.objectHeads.Nodup

/-- What any number of commits leaves in place. -/
structure Grows (t t' : Tables) : Prop where
  clients : t.clients ⊆ t'.clients
  revisions : t.revisions ⊆ t'.revisions
  revisionParents : t.revisionParents ⊆ t'.revisionParents
  transactions : t.transactions ⊆ t'.transactions
  transactionRevisions : t.transactionRevisions ⊆ t'.transactionRevisions

theorem Grows.refl (t : Tables) : Grows t t :=
  ⟨List.Subset.refl _, List.Subset.refl _, List.Subset.refl _, List.Subset.refl _,
    List.Subset.refl _⟩

theorem Grows.trans {t₁ t₂ t₃ : Tables} (h : Grows t₁ t₂) (h' : Grows t₂ t₃) : Grows t₁ t₃ :=
  ⟨List.Subset.trans h.clients h'.clients, List.Subset.trans h.revisions h'.revisions,
    List.Subset.trans h.revisionParents h'.revisionParents,
    List.Subset.trans h.transactions h'.transactions,
    List.Subset.trans h.transactionRevisions h'.transactionRevisions⟩

/-- Committing adds rows. -/
theorem Grows.view (t : Tables) (w : Writes) : Grows t (t.view w) :=
  ⟨List.Subset.refl _, List.subset_append_left _ _, List.subset_append_left _ _,
    List.subset_append_left _ _, List.subset_append_left _ _⟩

theorem Grows.storedAs {t t' : Tables} (h : Grows t t') {r : RevisionId} {o : ObjectId}
    (hr : t.StoredAs r o) : t'.StoredAs r o :=
  let ⟨row, hrow, hr⟩ := hr; ⟨row, h.revisions hrow, hr⟩

theorem Grows.stored {t t' : Tables} (h : Grows t t') {r : RevisionId} (hr : t.Stored r) :
    t'.Stored r := let ⟨row, hrow, hr⟩ := hr; ⟨row, h.revisions hrow, hr⟩

theorem Grows.parent {t t' : Tables} (h : Grows t t') {x y : RevisionId} (hp : t.Parent x y) :
    t'.Parent x y := let ⟨e, he, hp⟩ := hp; ⟨e, h.revisionParents he, hp⟩

/-- A stored revision that is not a head does not become one. -/
theorem Grows.head {t t' : Tables} (h : Grows t t') (ht : WellFormed t) (ht' : WellFormed t')
    {o : ObjectId} {r : RevisionId} (hr : t.Stored r) (hh : ⟨o, r⟩ ∈ t'.objectHeads) :
    ⟨o, r⟩ ∈ t.objectHeads := by
  obtain ⟨o', hr'⟩ := hr.storedAs
  have ho : o' = o := ht'.storedAs_unique (h.storedAs hr') (ht'.head_storedAs hh)
  subst ho
  exact ht.mem_objectHeads_iff.mpr
    ⟨hr', fun y _ hp => ht'.head_not_parent hh (h.parent hp)⟩

namespace Accepts

variable {t t' : Tables} {client : ClientId} {batch : List Revision}

theorem grows (h : Accepts t client batch) (hg : Grows t t') : Accepts t' client batch := by
  induction h with
  | nil => exact .nil
  | snoc _ hc hn hp ih => exact ih.snoc hc hn fun p hp' => (hp p hp').imp_left hg.storedAs

theorem createdBy (h : Accepts t client batch) : ∀ rev ∈ batch, rev.createdBy = client := by
  induction h with
  | nil => simp
  | snoc _ hc _ _ ih =>
    intro rev hrev
    rcases List.mem_append.mp hrev with hrev | hrev
    · exact ih rev hrev
    · rw [List.mem_singleton.mp hrev]; exact hc

theorem parents_nodup (h : Accepts t client batch) : ∀ rev ∈ batch, rev.parents.Nodup := by
  induction h with
  | nil => simp
  | snoc _ _ hn _ ih =>
    intro rev hrev
    rcases List.mem_append.mp hrev with hrev | hrev
    · exact ih rev hrev
    · rw [List.mem_singleton.mp hrev]; exact hn

theorem parent (h : Accepts t client batch) : ∀ rev ∈ batch, ∀ p ∈ rev.parents,
    t.StoredAs p rev.objectId ∨ ∃ e ∈ batch, e.id = p ∧ e.objectId = rev.objectId := by
  induction h with
  | nil => simp
  | snoc _ _ _ hp ih =>
    intro rev hrev p hpm
    rcases List.mem_append.mp hrev with hrev | hrev
    · refine (ih rev hrev p hpm).imp_right ?_
      rintro ⟨e, he, h⟩
      exact ⟨e, List.mem_append_left _ he, h⟩
    · rw [List.mem_singleton.mp hrev] at hpm ⊢
      refine (hp p hpm).imp_right ?_
      rintro ⟨e, he, h⟩
      exact ⟨e, List.mem_append_left _ he, h⟩

/-- A parent is stored, or came earlier. -/
theorem parent_before (h : Accepts t client batch) : ∀ {before rest : List Revision}
    {rev : Revision}, batch = before ++ rev :: rest → ∀ p ∈ rev.parents,
    t.StoredAs p rev.objectId ∨ ∃ e ∈ before, e.id = p ∧ e.objectId = rev.objectId := by
  induction h with
  | nil => intro before rest rev h; simp at h
  | @snoc acc last _ _ _ hp ih =>
    intro before rest rev h
    rcases List.eq_nil_or_concat rest with rfl | ⟨rest, x, rfl⟩
    · obtain ⟨rfl, hl⟩ := List.append_inj' h rfl
      rw [List.cons.inj hl |>.1] at hp
      exact hp
    · have h' : acc ++ [last] = (before ++ rev :: rest) ++ [x] := by simpa using h
      exact ih (List.append_inj' h' rfl).1

/-- A batch each of whose entries stands on stored revisions and entries before it. -/
theorem of_before (hc : ∀ rev ∈ batch, rev.createdBy = client ∧ rev.parents.Nodup)
    (hp : ∀ (before rest : List Revision) (rev : Revision), batch = before ++ rev :: rest →
      ∀ p ∈ rev.parents, t.StoredAs p rev.objectId ∨
        ∃ e ∈ before, e.id = p ∧ e.objectId = rev.objectId) : Accepts t client batch := by
  induction batch using List.reverseRecOn with
  | nil => exact .nil
  | append_singleton acc rev ih =>
    have hacc : Accepts t client acc := by
      apply ih
      · intro e he
        exact hc e (List.mem_append_left _ he)
      · intro before rest e hsplit
        exact hp before (rest ++ [rev]) e (by simp [hsplit])
    obtain ⟨hby, hn⟩ := hc rev (by simp)
    exact hacc.snoc hby hn (hp acc [] rev rfl)

end Accepts

/-! ### Committing a batch -/

theorem mem_parentRows {rev : Revision} {e : ParentRow} (h : e ∈ rev.parentRows) :
    e.revisionId = rev.id ∧ e.parentId ∈ rev.parents := by
  obtain ⟨⟨p, k⟩, hx, rfl⟩ := List.mem_map.mp h
  exact ⟨rfl, List.fst_mem_of_mem_zipIdx hx⟩

theorem exists_parentRow {rev : Revision} {p : RevisionId} (h : p ∈ rev.parents) :
    ∃ e ∈ rev.parentRows, e.parentId = p ∧ e.revisionId = rev.id := by
  obtain ⟨k, hk, rfl⟩ := List.getElem_of_mem h
  refine ⟨⟨rev.id, rev.parents[k], asI16 k⟩, List.mem_map.mpr ⟨(rev.parents[k], k), ?_, rfl⟩,
    rfl, rfl⟩
  exact List.mk_mem_zipIdx_iff_getElem?.mpr (List.getElem?_eq_getElem hk)

theorem map_parentId_parentRows (rev : Revision) :
    rev.parentRows.map (·.parentId) = rev.parents := by
  simp [Revision.parentRows, List.map_map, Function.comp_def]

/-- Distinct revisions, each of distinct parents, name no edge twice. -/
theorem flatMap_parentRows_nodup {batch : List Revision} (hids : (batch.map (·.id)).Nodup)
    (hn : ∀ rev ∈ batch, rev.parents.Nodup) :
    ((batch.flatMap Revision.parentRows).map fun e => (e.revisionId, e.parentId)).Nodup := by
  induction batch with
  | nil => simp
  | cons rev batch ih =>
    rw [List.map_cons, List.nodup_cons] at hids
    rw [List.flatMap_cons, List.map_append, List.nodup_append]
    refine ⟨?_, ih hids.2 fun r hr => hn r (List.mem_cons_of_mem _ hr), ?_⟩
    · refine List.Nodup.of_map Prod.snd ?_
      rw [List.map_map]
      have hparents := hn rev List.mem_cons_self
      rw [← map_parentId_parentRows] at hparents
      exact hparents
    · -- a common edge would start at two revisions of one id
      intro a ha b hb hab
      obtain ⟨e, he, rfl⟩ := List.mem_map.mp ha
      obtain ⟨e', he', rfl⟩ := List.mem_map.mp hb
      obtain ⟨rev', hrev', he'⟩ := List.mem_flatMap.mp he'
      refine hids.1 (List.mem_map.mpr ⟨rev', hrev', ?_⟩)
      rw [← (mem_parentRows he').1, ← (mem_parentRows he).1]
      exact (congrArg Prod.fst hab).symm

section Commit

variable {t t' : Tables} {client : ClientId} {n : ℕ} {batch : List Revision}

namespace Appends

variable (ha : Appends t t' client n batch)

include ha

theorem grows : Grows t t' where
  clients := by rw [ha.clients]; exact List.Subset.refl _
  revisions := by rw [ha.revisions]; exact List.subset_append_left _ _
  revisionParents := by rw [ha.revisionParents]; exact List.subset_append_left _ _
  transactions := by rw [ha.transactions]; exact List.subset_append_left _ _
  transactionRevisions := by rw [ha.transactionRevisions]; exact List.subset_append_left _ _

theorem storedAs_iff {r : RevisionId} {o : ObjectId} :
    t'.StoredAs r o ↔ t.StoredAs r o ∨ ∃ rev ∈ batch, rev.id = r ∧ rev.objectId = o := by
  unfold Tables.StoredAs
  rw [ha.revisions]
  constructor
  · rintro ⟨row, hrow, hr⟩
    rcases List.mem_append.mp hrow with hrow | hrow
    · exact .inl ⟨row, hrow, hr⟩
    · obtain ⟨rev, hrev, rfl⟩ := List.mem_map.mp hrow
      exact .inr ⟨rev, hrev, hr⟩
  · rintro (⟨row, hrow, hr⟩ | ⟨rev, hrev, hr⟩)
    · exact ⟨row, List.mem_append_left _ hrow, hr⟩
    · exact ⟨rev.row.stored, List.mem_append_right _ (List.mem_map_of_mem hrev), hr⟩

theorem stored_iff {r : RevisionId} :
    t'.Stored r ↔ t.Stored r ∨ ∃ rev ∈ batch, rev.id = r := by
  constructor
  · intro h
    obtain ⟨o, h⟩ := h.storedAs
    rcases ha.storedAs_iff.mp h with h | ⟨rev, hrev, hr, -⟩
    · exact .inl h.stored
    · exact .inr ⟨rev, hrev, hr⟩
  · rintro (h | ⟨rev, hrev, rfl⟩)
    · exact ha.grows.stored h
    · exact (ha.storedAs_iff.mpr (.inr ⟨rev, hrev, rfl, rfl⟩)).stored

theorem parent_iff {x y : RevisionId} :
    t'.Parent x y ↔ t.Parent x y ∨ ∃ rev ∈ batch, rev.id = y ∧ x ∈ rev.parents := by
  unfold Tables.Parent
  rw [ha.revisionParents]
  constructor
  · rintro ⟨e, he, rfl, rfl⟩
    rcases List.mem_append.mp he with he | he
    · exact .inl ⟨e, he, rfl, rfl⟩
    · obtain ⟨rev, hrev, he⟩ := List.mem_flatMap.mp he
      obtain ⟨hid, hp⟩ := mem_parentRows he
      exact .inr ⟨rev, hrev, hid.symm, hp⟩
  · rintro (⟨e, he, hp⟩ | ⟨rev, hrev, rfl, hx⟩)
    · exact ⟨e, List.mem_append_left _ he, hp⟩
    · obtain ⟨e, he, hp⟩ := exists_parentRow hx
      exact ⟨e, List.mem_append_right _ (List.mem_flatMap.mpr ⟨rev, hrev, he⟩), hp⟩

/-- The edges into a revision that is not of the batch are the old ones. -/
theorem parent_old {x y : RevisionId} (hy : ∀ rev ∈ batch, rev.id ≠ y) :
    t'.Parent x y ↔ t.Parent x y := by
  rw [ha.parent_iff]
  exact or_iff_left fun ⟨rev, hrev, hid, _⟩ => hy rev hrev hid

end Appends

variable (ht : WellFormed t) (hv : ValidBatch t client n batch) (ha : Appends t t' client n batch)

include ht hv ha

/-- The edges into a revision of the batch are its own parents. -/
theorem Appends.parent_new {x : RevisionId} {rev : Revision} (hrev : rev ∈ batch) :
    t'.Parent x rev.id ↔ x ∈ rev.parents := by
  rw [ha.parent_iff]
  constructor
  · rintro (hp | ⟨rev', hrev', hid, hx⟩)
    · obtain ⟨o, -, hy⟩ := ht.parent_stored hp
      exact absurd hy.stored (hv.fresh rev hrev)
    · rwa [List.inj_on_of_nodup_map hv.ids hrev' hrev hid] at hx
  · exact fun hx => .inr ⟨rev, hrev, rfl, hx⟩

theorem Appends.acc_old : ∀ r, (∀ rev ∈ batch, rev.id ≠ r) → Acc t'.Parent r := by
  intro r
  induction ht.acyclic r with
  | intro r _ ih =>
    intro hr
    refine ⟨r, fun x hx => ?_⟩
    rw [ha.parent_old hr] at hx
    obtain ⟨o, hxo, -⟩ := ht.parent_stored hx
    exact ih x hx fun rev hrev hid => hv.fresh rev hrev (hid ▸ hxo.stored)

theorem Appends.acc_new : ∀ {acc : List Revision}, Accepts t client acc → acc ⊆ batch →
    ∀ rev ∈ acc, Acc t'.Parent rev.id := by
  intro acc hacc
  induction hacc with
  | nil => simp
  | @snoc acc rev _ _ _ hp ih =>
    intro hsub e he
    have hacc := ih fun x hx => hsub (List.mem_append_left _ hx)
    rcases List.mem_append.mp he with he | he
    · exact hacc e he
    · rw [List.mem_singleton.mp he]
      refine ⟨_, fun x hx => ?_⟩
      rw [ha.parent_new ht hv (hsub (by simp))] at hx
      -- a parent is stored already, or an earlier entry
      rcases hp x hx with hx | ⟨e', he', rfl, -⟩
      · exact ha.acc_old ht hv x fun rev' hrev' hid => hv.fresh rev' hrev' (hid ▸ hx.stored)
      · exact hacc e' he'

theorem Appends.acyclic (r : RevisionId) : Acc t'.Parent r := by
  by_cases hr : ∃ rev ∈ batch, rev.id = r
  · obtain ⟨rev, hrev, rfl⟩ := hr
    exact ha.acc_new ht hv hv.accepts (List.Subset.refl _) rev hrev
  · push Not at hr
    exact ha.acc_old ht hv r hr

theorem Appends.headsOf_eq (o : ObjectId) :
    t'.headsOf o = Dag.frontier t'.Parent (t'.revisionsOf o) := by
  have hS : t'.revisionsOf o =
      t.revisionsOf o ∪ {r | ∃ rev ∈ batch, rev.id = r ∧ rev.objectId = o} := by
    ext r; exact ha.storedAs_iff
  -- an old revision has none of the batch as a parent, and keeps its edges
  have hold : ∀ {y}, t.StoredAs y o → ∀ {x}, t'.Parent x y ↔ t.Parent x y := by
    intro y hy x
    exact ha.parent_old fun rev hrev hid => hv.fresh rev hrev (hid ▸ hy.stored)
  rw [hS, Dag.frontier_union]
  · rw [Dag.frontier_congr (S := t.revisionsOf o) (q := t.Parent) fun x _ y hy => hold hy,
      ← ht.heads]
    ext r
    simp only [Tables.mem_headsOf, ha.heads, Set.mem_union, Set.mem_ofPred_eq]
    refine and_congr ?_ ?_
    · refine or_congr_right ⟨?_, ?_⟩
      · rintro ⟨rev, hrev, hx⟩
        cases hx
        exact ⟨rev, hrev, rfl, rfl⟩
      · rintro ⟨rev, hrev, rfl, rfl⟩
        exact ⟨rev, hrev, rfl⟩
    · constructor
      · rintro hn _ ⟨rev, hrev, rfl, rfl⟩ hp
        exact hn rev hrev ⟨rfl, (ha.parent_new ht hv hrev).mp hp⟩
      · rintro hn rev hrev ⟨rfl, hp⟩
        exact hn rev.id ⟨rev, hrev, rfl, rfl⟩ ((ha.parent_new ht hv hrev).mpr hp)
  · rintro _ ⟨rev, hrev, rfl, -⟩ s hs hp
    rw [hold hs] at hp
    obtain ⟨o', hx, -⟩ := ht.parent_stored hp
    exact hv.fresh rev hrev hx.stored

theorem Appends.parents_nodup :
    (t'.revisionParents.map fun e => (e.revisionId, e.parentId)).Nodup := by
  rw [ha.revisionParents, List.map_append, List.nodup_append]
  refine ⟨ht.parents_nodup, flatMap_parentRows_nodup hv.ids hv.accepts.parents_nodup, ?_⟩
  intro a hx b hb hab
  obtain ⟨e, he, rfl⟩ := List.mem_map.mp hx
  obtain ⟨e', he', rfl⟩ := List.mem_map.mp hb
  obtain ⟨rev, hrev, he'⟩ := List.mem_flatMap.mp he'
  obtain ⟨o, hs, -⟩ := ht.parents e he
  refine hv.fresh rev hrev ?_
  rw [← (mem_parentRows he').1, ← show e.revisionId = e'.revisionId from congrArg Prod.fst hab]
  exact hs.stored

end Commit

/-- **A valid batch keeps the tables well formed.** -/
theorem WellFormed.appends {t t' : Tables} {client : ClientId} {n : ℕ} {batch : List Revision}
    (ht : WellFormed t) (hv : ValidBatch t client n batch)
    (ha : Appends t t' client n batch) : WellFormed t' where
  ids := by
    rw [ha.revisions, List.map_append, List.nodup_append]
    refine ⟨ht.ids, by simpa [Function.comp_def, RevisionRow.stored, Revision.row] using hv.ids, ?_⟩
    -- an id of the batch is not stored yet
    intro a hx b hb hab
    obtain ⟨row, hrow, rfl⟩ := List.mem_map.mp hx
    obtain ⟨_, hr, rfl⟩ := List.mem_map.mp hb
    obtain ⟨rev, hrev, rfl⟩ := List.mem_map.mp hr
    exact hv.fresh rev hrev ⟨row, hrow, hab⟩
  parents := by
    intro e he
    rw [ha.revisionParents] at he
    rcases List.mem_append.mp he with he | he
    · obtain ⟨o, hc, hp⟩ := ht.parents e he
      exact ⟨o, ha.grows.storedAs hc, ha.grows.storedAs hp⟩
    · -- an edge of the batch ends at what is stored, or earlier in the batch
      obtain ⟨rev, hrev, he⟩ := List.mem_flatMap.mp he
      obtain ⟨hid, hp⟩ := mem_parentRows he
      refine ⟨rev.objectId, ha.storedAs_iff.mpr (.inr ⟨rev, hrev, hid.symm, rfl⟩), ?_⟩
      exact ha.storedAs_iff.mpr (hv.accepts.parent rev hrev _ hp)
  parents_nodup := ha.parents_nodup ht hv
  acyclic := ha.acyclic ht hv
  heads := ha.headsOf_eq ht hv
  heads_nodup := ha.heads_nodup
  txn_ids := by
    rw [ha.transactions, List.map_append, List.nodup_append]
    refine ⟨ht.txn_ids, by simp, ?_⟩
    intro a hxa b hb hab
    obtain ⟨x, hx, rfl⟩ := List.mem_map.mp hxa
    simp only [List.map_cons, List.map_nil, List.mem_singleton] at hb
    exact hv.txn_fresh x hx (hab.trans hb)
  txn_range := by
    intro x hx
    rw [ha.transactions] at hx
    rcases List.mem_append.mp hx with hx | hx
    · exact ht.txn_range x hx
    · rw [List.mem_singleton.mp hx]; exact hv.txn_range
  listed_nodup := by
    rw [ha.transactionRevisions, List.map_append, List.nodup_append]
    refine ⟨ht.listed_nodup, by simpa [Function.comp_def] using hv.ids, ?_⟩
    intro a hx b hb hab
    obtain ⟨e, he, rfl⟩ := List.mem_map.mp hx
    obtain ⟨_, hr, rfl⟩ := List.mem_map.mp hb
    obtain ⟨rev, hrev, rfl⟩ := List.mem_map.mp hr
    obtain ⟨-, -, -, row, hrow, hid, -⟩ := ht.author e he
    exact hv.fresh rev hrev ⟨row, hrow, hid.trans hab⟩
  listed := by
    intro row hrow
    rw [ha.revisions] at hrow
    rw [ha.transactionRevisions]
    rcases List.mem_append.mp hrow with hrow | hrow
    · obtain ⟨e, he, hid⟩ := ht.listed row hrow
      exact ⟨e, List.mem_append_left _ he, hid⟩
    · obtain ⟨rev, hrev, rfl⟩ := List.mem_map.mp hrow
      exact ⟨⟨n, rev.id⟩, List.mem_append_right _ (List.mem_map.mpr ⟨rev, hrev, rfl⟩), rfl⟩
  author := by
    intro e he
    rw [ha.transactionRevisions] at he
    rw [ha.transactions, ha.revisions]
    rcases List.mem_append.mp he with he | he
    · obtain ⟨x, hx, hxe, row, hrow, hr⟩ := ht.author e he
      exact ⟨x, List.mem_append_left _ hx, hxe, row, List.mem_append_left _ hrow, hr⟩
    · obtain ⟨rev, hrev, rfl⟩ := List.mem_map.mp he
      refine ⟨⟨n, client⟩, by simp, rfl, rev.row.stored,
        List.mem_append_right _ (List.mem_map.mpr ⟨rev, hrev, rfl⟩), rfl, ?_⟩
      exact hv.accepts.createdBy rev hrev
  lists := by
    intro x hx
    rw [ha.transactions] at hx
    rw [ha.transactionRevisions]
    rcases List.mem_append.mp hx with hx | hx
    · obtain ⟨e, he, hex⟩ := ht.lists x hx
      exact ⟨e, List.mem_append_left _ he, hex⟩
    · -- the new transaction lists the batch, which is not empty
      rw [List.mem_singleton.mp hx]
      obtain ⟨rev, hrev⟩ := List.exists_mem_of_ne_nil _ hv.nonempty
      exact ⟨⟨n, rev.id⟩, List.mem_append_right _ (List.mem_map.mpr ⟨rev, hrev, rfl⟩), rfl⟩
  columns := by
    intro row hrow
    rw [ha.revisions] at hrow
    rcases List.mem_append.mp hrow with hrow | hrow
    · exact ht.columns row hrow
    · obtain ⟨rev, -, rfl⟩ := List.mem_map.mp hrow
      cases hc : rev.content <;>
        simp [RevisionRow.activeHasData, RevisionRow.stored, Revision.row, Content.columns, hc]

end Rustend
