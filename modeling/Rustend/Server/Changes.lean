import Rustend.Server.PullSpec

/-!
# What a commit changes

The heads of an object after a commit, and the objects that a pull finds changed by it.
Each stored revision is listed in one transaction, so the transactions in which an object
has changed can be told from its revisions.

## Main definitions

* `Tables.ListedIn` — the transaction of a revision.
* `headsOver` — the heads of an object below a queue of revisions.
* `Commits` — what a push does to the tables, the registered clients aside.
* `Tables.Later` — the tables after any number of pushes.

## Main results

* `Appends.mem_headsOf` — **the heads after a commit.**
* `Appends.changedFor_iff` — **the objects changed since a cursor, after a commit.**
-/

namespace Rustend

/-- Revision `r` is listed in transaction `n`. -/
def Tables.ListedIn (t : Tables) (r : RevisionId) (n : ℕ) : Prop := ⟨n, r⟩ ∈ t.transactionRevisions

section Listed

variable {t : Tables} {r : RevisionId} {n : ℕ}

theorem WellFormed.listedIn_stored (h : WellFormed t) (hl : t.ListedIn r n) : t.Stored r := by
  obtain ⟨x, -, -, row, hrow, hid, -⟩ := h.author _ hl
  exact ⟨row, hrow, hid⟩

theorem WellFormed.exists_listedIn (h : WellFormed t) (hr : t.Stored r) : ∃ n, t.ListedIn r n := by
  obtain ⟨row, hrow, rfl⟩ := hr
  obtain ⟨e, he, hid⟩ := h.listed row hrow
  refine ⟨e.transactionId, ?_⟩
  unfold Tables.ListedIn
  rw [← hid]
  exact he

/-- The transaction of a listed revision is there. -/
theorem WellFormed.listedIn_txn (h : WellFormed t) (hl : t.ListedIn r n) :
    ∃ x ∈ t.transactions, x.id = n := by
  obtain ⟨x, hx, hid, -⟩ := h.author _ hl
  exact ⟨x, hx, hid⟩

theorem WellFormed.listedIn_le_max (h : WellFormed t) (hl : t.ListedIn r n) :
    n ≤ t.maxTransactionId := by
  obtain ⟨x, hx, rfl⟩ := h.listedIn_txn hl
  exact Tables.maxTransactionId_le_iff.mp le_rfl x hx

/-- A revision that others created is listed in a transaction of the window. -/
theorem WellFormed.changedFor_iff (h : WellFormed t) {client : ClientId} {since upTo : ℤ}
    {o : ObjectId} : t.ChangedFor client since upTo o ↔
      ∃ row ∈ t.revisions, row.objectId = o ∧ row.createdBy ≠ client ∧
        ∃ n : ℕ, t.ListedIn row.id n ∧ since < n ∧ (n : ℤ) ≤ upTo := by
  unfold Tables.ChangedFor Tables.ListedIn
  constructor
  · intro ⟨row, hrow, ho, hby, e, he, hid, x, hx, hxe, hlo, hhi⟩
    refine ⟨row, hrow, ho, hby, x.id, ?_, hlo, hhi⟩
    rw [hxe, ← hid]
    exact he
  · intro ⟨row, hrow, ho, hby, n, hl, hlo, hhi⟩
    obtain ⟨x, hx, rfl⟩ := h.listedIn_txn hl
    exact ⟨row, hrow, ho, hby, _, hl, rfl, x, hx, rfl, hlo, hhi⟩

end Listed

namespace Appends

variable {t t' : Tables} {client : ClientId} {n : ℕ} {batch : List Revision}

/-- **The heads after a commit**: the new revisions and the old heads, without the parents
of the new ones. -/
theorem mem_headsOf (ha : Appends t t' client n batch) {o : ObjectId} {r : RevisionId} :
    r ∈ t'.headsOf o ↔ (r ∈ t.headsOf o ∨ ∃ rev ∈ batch, rev.objectId = o ∧ rev.id = r) ∧
      ∀ rev ∈ batch, rev.objectId = o → r ∉ rev.parents := by
  have hnew : (∃ rev ∈ batch, (⟨o, r⟩ : HeadRow) = ⟨rev.objectId, rev.id⟩) ↔
      ∃ rev ∈ batch, rev.objectId = o ∧ rev.id = r := by
    simp only [HeadRow.mk.injEq, eq_comm]
  rw [Tables.mem_headsOf, ha.heads, hnew]
  refine and_congr_right fun _ => forall₂_congr fun rev _ => ?_
  rw [not_and, eq_comm]

theorem listedIn_iff (ha : Appends t t' client n batch) {r : RevisionId} {m : ℕ} :
    t'.ListedIn r m ↔ t.ListedIn r m ∨ m = n ∧ ∃ rev ∈ batch, rev.id = r := by
  unfold Tables.ListedIn
  rw [ha.transactionRevisions, List.mem_append, List.mem_map]
  refine or_congr_right ?_
  constructor
  · rintro ⟨rev, hrev, heq⟩
    cases heq
    exact ⟨rfl, rev, hrev, rfl⟩
  · rintro ⟨rfl, rev, hrev, rfl⟩
    exact ⟨rev, hrev, rfl⟩

/-- **The objects changed since a cursor, after a commit.** -/
theorem changedFor_iff (ha : Appends t t' client n batch) (hv : ValidBatch t client n batch)
    (ht : WellFormed t) {c : ClientId} {since upTo : ℤ} {o : ObjectId} :
    t'.ChangedFor c since upTo o ↔ t.ChangedFor c since upTo o ∨
      (∃ rev ∈ batch, rev.objectId = o ∧ rev.createdBy ≠ c) ∧ since < n ∧ (n : ℤ) ≤ upTo := by
  rw [(ht.appends hv ha).changedFor_iff, ht.changedFor_iff, ha.revisions]
  constructor
  · intro ⟨row, hrow, ho, hby, m, hl, hlo, hhi⟩
    rcases List.mem_append.mp hrow with hrow | hrow
    · rcases ha.listedIn_iff.mp hl with hl | ⟨-, rev, hrev, hid⟩
      · exact .inl ⟨row, hrow, ho, hby, m, hl, hlo, hhi⟩
      · exact absurd ⟨row, hrow, hid.symm⟩ (hv.fresh rev hrev)
    · obtain ⟨rev, hrev, rfl⟩ := List.mem_map.mp hrow
      rcases ha.listedIn_iff.mp hl with hl | ⟨rfl, -⟩
      · exact absurd (ht.listedIn_stored hl) (hv.fresh rev hrev)
      · exact .inr ⟨⟨rev, hrev, ho, hby⟩, hlo, hhi⟩
  · rintro (⟨row, hrow, ho, hby, m, hl, hlo, hhi⟩ | ⟨⟨rev, hrev, ho, hby⟩, hlo, hhi⟩)
    · exact ⟨row, List.mem_append_left _ hrow, ho, hby, m, ha.listedIn_iff.mpr (.inl hl), hlo, hhi⟩
    · refine ⟨rev.row.stored, List.mem_append_right _ (List.mem_map_of_mem hrev), ho, hby, n, ?_,
        hlo, hhi⟩
      exact ha.listedIn_iff.mpr (.inr ⟨rfl, rev, hrev, rfl⟩)

end Appends

/-! ### The heads below a queue -/

/-- The heads of an object with those of a queue of revisions on top of them. -/
def headsOver (heads : Set RevisionId) (queue : List Revision) (o : ObjectId) : Set RevisionId :=
  {r | (r ∈ heads ∨ ∃ rev ∈ queue, rev.objectId = o ∧ rev.id = r) ∧
    ∀ rev ∈ queue, rev.objectId = o → r ∉ rev.parents}

theorem headsOver_of_untouched {heads : Set RevisionId} {queue : List Revision} {o : ObjectId}
    (ho : ∀ rev ∈ queue, rev.objectId ≠ o) : headsOver heads queue o = heads := by
  ext r
  constructor
  · rintro ⟨hr | ⟨rev, hrev, hobj, -⟩, -⟩
    · exact hr
    · exact absurd hobj (ho rev hrev)
  · intro hr
    exact ⟨.inl hr, fun rev hrev hobj => absurd hobj (ho rev hrev)⟩

/-! ### Commits -/

/-- A push takes the tables from `t` to `t'`: it commits `batch`, or nothing when that
is empty, and may register clients. -/
def Commits (t t' : Tables) (client : ClientId) (n : ℕ) (batch : List Revision) : Prop :=
  ∃ clients, (batch = [] ∧ t' = { t with clients := clients }) ∨
    ValidBatch { t with clients := clients } client n batch ∧
      Appends { t with clients := clients } t' client n batch

namespace Commits

variable {t t' : Tables} {client : ClientId} {n : ℕ} {batch : List Revision}

theorem nothing (t : Tables) (clients : List ClientId) (client : ClientId) (n : ℕ) :
    Commits t { t with clients := clients } client n [] := ⟨clients, .inl ⟨rfl, rfl⟩⟩

theorem of_pushed {clients : List ClientId} {resp : PushResponse}
    (h : Pushed { t with clients := clients } t' client n batch resp) :
    Commits t t' client n batch := by
  refine ⟨clients, ?_⟩
  rcases h.commits with ⟨hb, ht', -⟩ | ⟨hv, ha, -⟩
  · exact .inl ⟨hb, ht'⟩
  · exact .inr ⟨hv, ha⟩

theorem wellFormed (h : Commits t t' client n batch) (ht : WellFormed t) : WellFormed t' := by
  obtain ⟨clients, ⟨-, rfl⟩ | ⟨hv, ha⟩⟩ := h
  · exact ht.withClients clients
  · exact (ht.withClients clients).appends hv ha

theorem storedAs_iff (h : Commits t t' client n batch) {r : RevisionId} {o : ObjectId} :
    t'.StoredAs r o ↔ t.StoredAs r o ∨ ∃ rev ∈ batch, rev.id = r ∧ rev.objectId = o := by
  obtain ⟨clients, ⟨rfl, rfl⟩ | ⟨-, ha⟩⟩ := h
  · simp [Tables.StoredAs]
  · exact ha.storedAs_iff

theorem stored_iff (h : Commits t t' client n batch) {r : RevisionId} :
    t'.Stored r ↔ t.Stored r ∨ ∃ rev ∈ batch, rev.id = r := by
  obtain ⟨clients, ⟨rfl, rfl⟩ | ⟨-, ha⟩⟩ := h
  · simp [Tables.Stored]
  · exact ha.stored_iff

theorem parent_iff (h : Commits t t' client n batch) {x y : RevisionId} :
    t'.Parent x y ↔ t.Parent x y ∨ ∃ rev ∈ batch, rev.id = y ∧ x ∈ rev.parents := by
  obtain ⟨clients, ⟨rfl, rfl⟩ | ⟨-, ha⟩⟩ := h
  · simp [Tables.Parent]
  · exact ha.parent_iff

/-- What is committed was not there before. -/
theorem fresh (h : Commits t t' client n batch) : ∀ rev ∈ batch, ¬ t.Stored rev.id := by
  obtain ⟨clients, ⟨rfl, -⟩ | ⟨hv, -⟩⟩ := h
  · exact fun rev hrev => nomatch hrev
  · exact hv.fresh

theorem accepts (h : Commits t t' client n batch) :
    ∃ clients, Accepts { t with clients := clients } client batch := by
  obtain ⟨clients, ⟨rfl, -⟩ | ⟨hv, -⟩⟩ := h
  · exact ⟨clients, .nil⟩
  · exact ⟨clients, hv.accepts⟩

theorem grows_transactions (h : Commits t t' client n batch) :
    t.transactions ⊆ t'.transactions := by
  obtain ⟨clients, ⟨-, rfl⟩ | ⟨-, ha⟩⟩ := h
  · exact List.Subset.refl _
  · exact ha.grows.transactions

theorem mem_headsOf (h : Commits t t' client n batch) {o : ObjectId} {r : RevisionId} :
    r ∈ t'.headsOf o ↔ (r ∈ t.headsOf o ∨ ∃ rev ∈ batch, rev.objectId = o ∧ rev.id = r) ∧
      ∀ rev ∈ batch, rev.objectId = o → r ∉ rev.parents := by
  obtain ⟨clients, ⟨rfl, rfl⟩ | ⟨-, ha⟩⟩ := h
  · simp [Tables.headsOf]
  · exact ha.mem_headsOf

theorem listedIn_iff (h : Commits t t' client n batch) {r : RevisionId} {m : ℕ} :
    t'.ListedIn r m ↔ t.ListedIn r m ∨ m = n ∧ ∃ rev ∈ batch, rev.id = r := by
  obtain ⟨clients, ⟨rfl, rfl⟩ | ⟨-, ha⟩⟩ := h
  · simp [Tables.ListedIn]
  · exact ha.listedIn_iff

theorem changedFor_iff (h : Commits t t' client n batch) (ht : WellFormed t) {c : ClientId}
    {since upTo : ℤ} {o : ObjectId} : t'.ChangedFor c since upTo o ↔ t.ChangedFor c since upTo o ∨
      (∃ rev ∈ batch, rev.objectId = o ∧ rev.createdBy ≠ c) ∧ since < n ∧ (n : ℤ) ≤ upTo := by
  obtain ⟨clients, ⟨rfl, rfl⟩ | ⟨hv, ha⟩⟩ := h
  · simp [Tables.ChangedFor]
  · exact ha.changedFor_iff hv (ht.withClients clients)

theorem revisions_eq (h : Commits t t' client n batch) :
    t'.revisions = t.revisions ++ batch.map fun rev => rev.row.stored := by
  obtain ⟨clients, ⟨rfl, rfl⟩ | ⟨-, ha⟩⟩ := h
  · simp
  · exact ha.revisions

theorem maxTransactionId_le (h : Commits t t' client n batch) :
    t.maxTransactionId ≤ t'.maxTransactionId :=
  Tables.maxTransactionId_le_iff.mpr fun x hx =>
    Tables.maxTransactionId_le_iff.mp le_rfl x (h.grows_transactions hx)

/-- The rows of an object that a commit does not touch. -/
theorem row_of_untouched (h : Commits t t' client n batch) {o : ObjectId}
    (ho : ∀ rev ∈ batch, rev.objectId ≠ o) {row : RevisionRow} (hrow : row.objectId = o) :
    row ∈ t'.revisions ↔ row ∈ t.revisions := by
  rw [h.revisions_eq, List.mem_append]
  refine or_iff_left ?_
  intro hnew
  obtain ⟨rev, hrev, rfl⟩ := List.mem_map.mp hnew
  exact ho rev hrev hrow

theorem headsOf (h : Commits t t' client n batch) {o : ObjectId} :
    t'.headsOf o = headsOver (t.headsOf o) batch o := by
  ext r
  exact h.mem_headsOf

/-- The heads of an object that a commit does not touch. -/
theorem headsOf_of_untouched (h : Commits t t' client n batch) {o : ObjectId}
    (ho : ∀ rev ∈ batch, rev.objectId ≠ o) : t'.headsOf o = t.headsOf o :=
  h.headsOf.trans (headsOver_of_untouched ho)

end Commits

/-- What any number of pushes, of whatever clients, can make of the tables. -/
def Tables.Later : Tables → Tables → Prop :=
  Relation.ReflTransGen fun t t' => ∃ client n batch, Commits t t' client n batch

end Rustend
