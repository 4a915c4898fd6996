import Rustend.Server.Changes
import Rustend.Server.Batch

/-!
# Reading a revision back

A revision is written as one row and one row for each of its parents, numbered by
`pos as i16`, and it is rebuilt from its row and its parents in the order of these numbers.
The numbers of the parents from 32768 on are negative, so such parents come first.

## Main definitions

* `Revision.kept` — the revision as the columns keep it.
* `Tables.Keeps` — the rows of a revision.
* `ReadsBack` — what was read, rebuilt, is the revision.

## Main results

* `Revision.ordered_parents_iff` — the parents by position.
* `ConnInv.pushRevisions_readsBack_iff` — **when an accepted revision is read back as it was
  pushed.**
-/

namespace Rustend

/-! ### Positions -/

theorem asI16_eq (k : ℕ) :
    asI16 k = if (k : ℤ) % 65536 < 32768 then (k : ℤ) % 65536 else (k : ℤ) % 65536 - 65536 := rfl

theorem asI16_of_lt {k : ℕ} (h : k < 32768) : asI16 k = k := by
  rw [asI16_eq]
  split <;> omega

namespace Revision

variable {rev : Revision} {rows : List ParentRow}

theorem mem_parentRows_iff {e : ParentRow} : e ∈ rev.parentRows ↔
    ∃ k, rev.parents[k]? = some e.parentId ∧ e.position = asI16 k ∧ e.revisionId = rev.id := by
  unfold parentRows
  rw [List.mem_map]
  constructor
  · rintro ⟨⟨p, k⟩, hx, rfl⟩
    refine ⟨k, List.mk_mem_zipIdx_iff_getElem?.mp hx, ?_⟩
    simp only [and_self]
  · intro ⟨k, hk, hpos, hid⟩
    refine ⟨(e.parentId, k), List.mk_mem_zipIdx_iff_getElem?.mpr hk, ?_⟩
    rw [← hpos, ← hid]

/-- Parents within the range are numbered in their order. -/
theorem parentRows_sorted (hlen : rev.parents.length ≤ 32768) :
    rev.parentRows.Pairwise fun a b => a.position < b.position := by
  unfold parentRows
  rw [List.pairwise_map, List.pairwise_iff_getElem]
  intro i j hi hj hij
  rw [List.length_zipIdx] at hi hj
  simp only [List.getElem_zipIdx, Nat.zero_add]
  rw [asI16_of_lt (by omega), asI16_of_lt (by omega)]
  omega

/-- **The parents by position** are the parents in their order, up to 32768 of them. -/
theorem ordered_parents_iff (hn : rev.parents.Nodup) (hperm : rows.Perm rev.parentRows)
    (hsorted : rows.Pairwise fun a b => a.position ≤ b.position) :
    rows.map (·.parentId) = rev.parents ↔ rev.parents.length ≤ 32768 := by
  constructor
  · intro hrows
    by_contra hlen
    have hlen : 32768 < rev.parents.length := by omega
    -- some row has the least position there is, so the first row has it
    have hleast : (⟨rev.id, rev.parents[32768], -32768⟩ : ParentRow) ∈ rows :=
      hperm.mem_iff.mpr (mem_parentRows_iff.mpr ⟨32768, List.getElem?_eq_getElem hlen, rfl, rfl⟩)
    cases hcons : rows with
    | nil =>
      rw [hcons] at hleast
      cases hleast
    | cons first rest =>
      rw [hcons] at hsorted hleast hrows
      have hfirst : first.position ≤ -32768 := by
        rcases List.mem_cons.mp hleast with rfl | hrest
        · exact le_rfl
        · exact (List.pairwise_cons.mp hsorted).1 _ hrest
      have hmem : first ∈ rev.parentRows := by
        rw [← hperm.mem_iff, hcons]
        exact List.mem_cons_self
      obtain ⟨k, hk, hpos, -⟩ := mem_parentRows_iff.mp hmem
      -- but the first parent has position zero
      have hzero : rev.parents[0]? = some first.parentId := by rw [← hrows]; rfl
      have hk0 : k = 0 := by
        obtain ⟨hi, hki⟩ := List.getElem?_eq_some_iff.mp hk
        obtain ⟨hj, hkj⟩ := List.getElem?_eq_some_iff.mp hzero
        exact (List.Nodup.getElem_inj_iff hn).mp (hki.trans hkj.symm)
      rw [hpos, hk0] at hfirst
      exact absurd hfirst (by decide)
  · intro hlen
    have heq : rows = rev.parentRows := by
      refine List.Perm.eq_of_pairwise (fun a b ha hb hab hba => ?_) hsorted
        ((parentRows_sorted hlen).imp fun h => h.le) hperm
      obtain ⟨i, hi, hpi, hida⟩ := mem_parentRows_iff.mp (hperm.mem_iff.mp ha)
      obtain ⟨j, hj, hpj, hidb⟩ := mem_parentRows_iff.mp hb
      have hi' := (List.getElem?_eq_some_iff.mp hi).1
      have hj' := (List.getElem?_eq_some_iff.mp hj).1
      rw [asI16_of_lt (by omega)] at hpi hpj
      obtain rfl : i = j := by omega
      have hp : a.parentId = b.parentId := Option.some.inj (hi.symm.trans hj)
      obtain ⟨_, _, _⟩ := a
      obtain ⟨_, _, _⟩ := b
      rw [ParentRow.mk.injEq]
      exact ⟨hida.trans hidb.symm, hp, hpi.trans hpj.symm⟩
    rw [heq, map_parentId_parentRows]

end Revision

/-! ### What the tables keep of a revision -/

/-- The revision as the columns keep it, its time in microseconds. -/
def Revision.kept (rev : Revision) : Revision := { rev with createdAt := storedTime rev.createdAt }

/-- The tables hold the rows of `rev`, and no other parent of it. -/
structure Tables.Keeps (t : Tables) (rev : Revision) : Prop where
  row : rev.row.stored ∈ t.revisions
  parents : ∀ e, e.revisionId = rev.id → (e ∈ t.revisionParents ↔ e ∈ rev.parentRows)

section Keeps

variable {t t' : Tables} {client : ClientId} {n : ℕ} {batch : List Revision} {rev : Revision}

theorem Tables.Keeps.stored (h : t.Keeps rev) : t.Stored rev.id := ⟨_, h.row, rfl⟩

/-- A commit keeps what it inserts. -/
theorem Appends.keeps (ha : Appends t t' client n batch) (hv : ValidBatch t client n batch)
    (ht : WellFormed t) (hrev : rev ∈ batch) : t'.Keeps rev where
  row := by
    rw [ha.revisions]
    exact List.mem_append_right _ (List.mem_map_of_mem hrev)
  parents e hid := by
    rw [ha.revisionParents, List.mem_append, List.mem_flatMap]
    constructor
    · rintro (he | ⟨other, hother, he⟩)
      · obtain ⟨o, hstored, -⟩ := ht.parents e he
        exact absurd (hid ▸ hstored.stored) (hv.fresh rev hrev)
      · have heq : other.id = rev.id := (mem_parentRows he).1.symm.trans hid
        rwa [← List.inj_on_of_nodup_map hv.ids hother hrev heq]
    · intro he
      exact .inr ⟨rev, hrev, he⟩

/-- A commit leaves alone what was kept before. -/
theorem Commits.keeps (hc : Commits t t' client n batch) (h : t.Keeps rev) : t'.Keeps rev := by
  have hfresh : ∀ other ∈ batch, other.id ≠ rev.id :=
    fun other hother heq => hc.fresh other hother (heq ▸ h.stored)
  obtain ⟨clients, ⟨-, rfl⟩ | ⟨-, ha⟩⟩ := hc
  · exact ⟨h.row, h.parents⟩
  refine ⟨ha.grows.revisions h.row, fun e hid => ?_⟩
  rw [ha.revisionParents, List.mem_append, List.mem_flatMap]
  constructor
  · rintro (he | ⟨other, hother, he⟩)
    · exact (h.parents e hid).mp he
    · exact absurd ((mem_parentRows he).1.symm.trans hid) (hfresh other hother)
  · intro he
    exact .inl ((h.parents e hid).mpr he)

theorem Tables.Later.keeps (hl : t.Later t') (ht : WellFormed t) (h : t.Keeps rev) :
    WellFormed t' ∧ t'.Keeps rev := by
  induction hl with
  | refl => exact ⟨ht, h⟩
  | tail _ hstep ih =>
    obtain ⟨client, n, batch, hstep⟩ := hstep
    exact ⟨hstep.wellFormed ih.1, hstep.keeps ih.2⟩

end Keeps

/-! ### Reading -/

/-- What was read of a revision, rebuilt, is the revision as it was pushed. -/
def ReadsBack (rows : List RevisionRow) (parents : List RevisionId) (rev : Revision) : Prop :=
  (rows.filter fun row => row.id = rev.id).map (rowToRevisionSync · parents) = [rev.kept]

instance (rows : List RevisionRow) (parents : List RevisionId) (rev : Revision) :
    Decidable (ReadsBack rows parents rev) :=
  inferInstanceAs (Decidable (_ = _))

/-- A row and its parents, rebuilt. -/
theorem rowToRevisionSync_stored {rev : Revision} {parents : List RevisionId} :
    rowToRevisionSync rev.row.stored parents = rev.kept ↔ parents = rev.parents := by
  constructor
  · intro h
    have hlineage := congrArg (fun r => r.lineage.parents) h
    rw [Revision.parents, ← show rev.kept.lineage = rev.lineage from rfl, ← hlineage]
    unfold rowToRevisionSync
    split <;> rfl
  · rintro rfl
    obtain ⟨id, objectId, objectType, lineage, createdAt, createdBy, content⟩ := rev
    cases lineage <;> cases content <;> rfl

section Read

variable {t : Tables} {rev : Revision}

/-- The row of a kept revision is read once. -/
theorem Tables.Keeps.readsBack_iff (h : t.Keeps rev) (ht : WellFormed t) {ids : List RevisionId}
    (hid : rev.id ∈ ids) {parents : List RevisionId} :
    ReadsBack (t.revisions.filter (·.id ∈ ids)) parents rev ↔ parents = rev.parents := by
  have hrows : (t.revisions.filter (·.id ∈ ids)).filter (fun row => row.id = rev.id) =
      [rev.row.stored] := by
    have hn : t.revisions.Nodup := .of_map _ ht.ids
    refine List.perm_singleton.mp ((List.perm_ext_iff_of_nodup ((hn.filter _).filter _)
      (List.nodup_singleton _)).mpr fun row => ?_)
    simp only [List.mem_filter, decide_eq_true_eq, List.mem_singleton]
    constructor
    · rintro ⟨⟨hrow, -⟩, heq⟩
      exact ht.row_unique hrow h.row heq
    · rintro rfl
      exact ⟨⟨h.row, hid⟩, rfl⟩
  unfold ReadsBack
  rw [hrows, List.map_singleton, List.singleton_inj, rowToRevisionSync_stored]

/-- The parent rows of a kept revision are those it was pushed with. -/
theorem Tables.Keeps.perm_parentRows (h : t.Keeps rev) (ht : WellFormed t) (hn : rev.parents.Nodup)
    {rows : List ParentRow} (hperm : rows.Perm (t.revisionParents.filter (·.revisionId = rev.id))) :
    rows.Perm rev.parentRows := by
  refine hperm.trans ((List.perm_ext_iff_of_nodup ?_ ?_).mpr fun e => ?_)
  · exact (List.Nodup.of_map _ ht.parents_nodup).filter _
  · exact .of_map (·.parentId) (map_parentId_parentRows rev ▸ hn)
  · rw [List.mem_filter, decide_eq_true_iff]
    constructor
    · intro ⟨he, hid⟩
      exact (h.parents e hid).mp he
    · intro he
      have hid := (mem_parentRows he).1
      exact ⟨(h.parents e hid).mpr he, hid⟩

theorem Tables.Keeps.parentsOf_iff (h : t.Keeps rev) (ht : WellFormed t) (hn : rev.parents.Nodup) :
    t.parentsOf rev.id = rev.parents ↔ rev.parents.length ≤ 32768 := by
  have htotal : Std.Total fun a b : ParentRow => a.position ≤ b.position :=
    ⟨fun a b => le_total a.position b.position⟩
  have htrans : IsTrans ParentRow fun a b => a.position ≤ b.position := ⟨fun _ _ _ => le_trans⟩
  exact Revision.ordered_parents_iff hn (h.perm_parentRows ht hn (List.perm_insertionSort _ _))
    (List.pairwise_insertionSort _ _)

theorem Tables.Keeps.parentsBatch_iff (h : t.Keeps rev) (ht : WellFormed t) (hn : rev.parents.Nodup)
    {ids : List RevisionId} (hid : rev.id ∈ ids) :
    (groupRows (·.revisionId) (·.parentId) (t.parentsBatch ids) rev.id).getD [] = rev.parents ↔
      rev.parents.length ≤ 32768 := by
  rw [t.groupRows_parentsBatch hid, h.parentsOf_iff ht hn]

/-- Rows and parents of a kept revision, read at two moments. -/
theorem Tables.Keeps.reads {c₁ c₂ : Conn} (h₁ : c₁.tables.Keeps rev) (ht₁ : WellFormed c₁.tables)
    (h₂ : c₂.tables.Keeps rev) (ht₂ : WellFormed c₂.tables) (hn : rev.parents.Nodup)
    {ids ids' : List RevisionId} (hid : rev.id ∈ ids) (hid' : rev.id ∈ ids') :
    ∃ rows byId parents, (getRevisionRowsByIds ids).run Stmt.eval c₁ = (.ok rows, c₁) ∧
      (getParentsBatch ids').run Stmt.eval c₂ = (.ok byId, c₂) ∧
      (getParents rev.id).run Stmt.eval c₂ = (.ok parents, c₂) ∧
      (ReadsBack rows ((byId rev.id).getD []) rev ↔ rev.parents.length ≤ 32768) ∧
      (ReadsBack rows parents rev ↔ rev.parents.length ≤ 32768) := by
  have hbatch : (getParentsBatch ids').run Stmt.eval c₂ =
      (.ok (groupRows (·.revisionId) (·.parentId) (c₂.tables.parentsBatch ids')), c₂) := by
    have hne : ids'.isEmpty = false := by
      rw [List.isEmpty_eq_false_iff]
      exact List.ne_nil_of_mem hid'
    rw [getParentsBatch, hne]
    rfl
  refine ⟨c₁.tables.revisions.filter (·.id ∈ ids), _, c₂.tables.parentsOf rev.id, rfl, hbatch, rfl,
    ?_, ?_⟩
  · rw [h₁.readsBack_iff ht₁ hid, h₂.parentsBatch_iff ht₂ hn hid']
  · rw [h₁.readsBack_iff ht₁ hid, h₂.parentsOf_iff ht₂ hn]

end Read

/-! ### After a push -/

section Push

variable {c c' : Conn} {client : ClientId} {revisions : List Revision} {resp : PushResponse}
  {rev : Revision}

/-- The tables keep an accepted revision. -/
theorem ConnInv.pushRevisions_keeps (h : ConnInv c)
    (hrun : (Rustend.pushRevisions client revisions).run Stmt.eval c = (.ok resp, c'))
    (hrev : rev ∈ revisions) (hacc : rev.id ∈ resp.accepted) :
    WellFormed c'.tables ∧ c'.tables.Keeps rev ∧ rev.parents.Nodup := by
  have hs := h.sieved hrun
  generalize sieve c.tables client revisions = s at hs
  rw [hs.accepted] at hacc
  obtain ⟨a, ha, hid⟩ := List.mem_map.mp hacc
  have hmem : rev ∈ s.1 := by
    rcases List.mem_append.mp (hs.entries.mem_iff.mpr hrev) with hrev | hrev
    · exact hrev
    · exact absurd hid (hs.apart a ha rev hrev)
  rcases hs.written with ⟨hnil, -⟩ | ⟨hv, happ, -⟩
  · rw [hnil] at hmem
    cases hmem
  · exact ⟨h.tables.appends hv happ, happ.keeps hv h.tables hmem, hv.accepts.parents_nodup rev hmem⟩

/-- **When an accepted revision is read back as it was pushed**: when it has at most 32768
parents, whatever was pushed since, whichever other revisions are read with it, and
whether its parents are read alone or with theirs. -/
theorem ConnInv.pushRevisions_readsBack_iff (h : ConnInv c)
    (hrun : (Rustend.pushRevisions client revisions).run Stmt.eval c = (.ok resp, c'))
    (hrev : rev ∈ revisions) (hacc : rev.id ∈ resp.accepted) {c₁ c₂ : Conn}
    (h₁ : c'.tables.Later c₁.tables) (h₂ : c'.tables.Later c₂.tables) {ids ids' : List RevisionId}
    (hid : rev.id ∈ ids) (hid' : rev.id ∈ ids') :
    ∃ rows byId parents, (getRevisionRowsByIds ids).run Stmt.eval c₁ = (.ok rows, c₁) ∧
      (getParentsBatch ids').run Stmt.eval c₂ = (.ok byId, c₂) ∧
      (getParents rev.id).run Stmt.eval c₂ = (.ok parents, c₂) ∧
      (ReadsBack rows ((byId rev.id).getD []) rev ↔ rev.parents.length ≤ 32768) ∧
      (ReadsBack rows parents rev ↔ rev.parents.length ≤ 32768) := by
  obtain ⟨ht, hkeeps, hn⟩ := h.pushRevisions_keeps hrun hrev hacc
  obtain ⟨ht₁, hkeeps₁⟩ := h₁.keeps ht hkeeps
  obtain ⟨ht₂, hkeeps₂⟩ := h₂.keeps ht hkeeps
  exact hkeeps₁.reads ht₁ hkeeps₂ ht₂ hn hid hid'

/-- A merge whose parents are not in the order of their ids is read back as it was pushed. -/
theorem ConnInv.pushRevisions_readsBack_merge : ∃ resp c' rows byId parents,
    (Rustend.pushRevisions ⟨⟨7⟩⟩ [Run.raceRevision 1 .root, Run.raceRevision 2 .root,
      Run.raceRevision 3 (.merge ⟨⟨2⟩⟩ ⟨⟨1⟩⟩ [])]).run Stmt.eval registered = (.ok resp, c') ∧
    (getRevisionRowsByIds [⟨⟨3⟩⟩, ⟨⟨1⟩⟩]).run Stmt.eval c' = (.ok rows, c') ∧
    (getParentsBatch [⟨⟨3⟩⟩, ⟨⟨1⟩⟩]).run Stmt.eval c' = (.ok byId, c') ∧
    (getParents ⟨⟨3⟩⟩).run Stmt.eval c' = (.ok parents, c') ∧
    ReadsBack rows ((byId ⟨⟨3⟩⟩).getD []) (Run.raceRevision 3 (.merge ⟨⟨2⟩⟩ ⟨⟨1⟩⟩ [])) ∧
    ReadsBack rows parents (Run.raceRevision 3 (.merge ⟨⟨2⟩⟩ ⟨⟨1⟩⟩ [])) := by
  have hacc : ((Rustend.pushRevisions ⟨⟨7⟩⟩ [Run.raceRevision 1 .root, Run.raceRevision 2 .root,
      Run.raceRevision 3 (.merge ⟨⟨2⟩⟩ ⟨⟨1⟩⟩ [])]).run Stmt.eval registered).1.toOption.map
      (·.accepted) = some [⟨⟨1⟩⟩, ⟨⟨2⟩⟩, ⟨⟨3⟩⟩] := by decide +kernel
  rcases hrun : (Rustend.pushRevisions ⟨⟨7⟩⟩ [Run.raceRevision 1 .root, Run.raceRevision 2 .root,
    Run.raceRevision 3 (.merge ⟨⟨2⟩⟩ ⟨⟨1⟩⟩ [])]).run Stmt.eval registered with ⟨e | resp, c'⟩
  · rw [hrun] at hacc
    cases hacc
  · rw [hrun] at hacc
    have hacc : resp.accepted = [⟨⟨1⟩⟩, ⟨⟨2⟩⟩, ⟨⟨3⟩⟩] := Option.some.inj hacc
    have hmem : (⟨⟨3⟩⟩ : RevisionId) ∈ resp.accepted := by
      rw [hacc]
      decide
    have hrev : Run.raceRevision 3 (.merge ⟨⟨2⟩⟩ ⟨⟨1⟩⟩ []) ∈ [Run.raceRevision 1 .root,
        Run.raceRevision 2 .root, Run.raceRevision 3 (.merge ⟨⟨2⟩⟩ ⟨⟨1⟩⟩ [])] := by simp
    have hid : (⟨⟨3⟩⟩ : RevisionId) ∈ [(⟨⟨3⟩⟩ : RevisionId), ⟨⟨1⟩⟩] := List.mem_cons_self
    obtain ⟨rows, byId, parents, hrows, hbyId, hparents, hbatch, hsingle⟩ :=
      registered_inv.pushRevisions_readsBack_iff hrun hrev hmem .refl .refl hid hid
    exact ⟨resp, c', rows, byId, parents, hrun, hrows, hbyId, hparents, hbatch.mpr (by decide),
      hsingle.mpr (by decide)⟩

/-! ### A wide merge -/

/-- Client 7 pushes one revision, and it is accepted. -/
def PushesOne (c c' : Conn) : Prop :=
  ∃ rev resp, (Rustend.pushRevisions ⟨⟨7⟩⟩ [rev]).run Stmt.eval c = (.ok resp, c') ∧
    resp.accepted = [rev.id]

/-- The first `k` roots of object 10 have been pushed one by one. -/
structure HoldsRoots (c : Conn) (k : ℕ) : Prop where
  pushed : Relation.ReflTransGen PushesOne registered c
  inv : ConnInv c
  clients : ⟨⟨7⟩⟩ ∈ c.tables.clients
  nextval : c.nextval = k + 1
  storedAs : ∀ r o, c.tables.StoredAs r o ↔ o = ⟨⟨10⟩⟩ ∧ ∃ n : ℕ, 1 ≤ n ∧ n ≤ k ∧ r = ⟨⟨n⟩⟩

theorem ofNat_id_inj {m n : ℕ} (hm : m < 2 ^ 64) (hn : n < 2 ^ 64)
    (h : (⟨⟨m⟩⟩ : RevisionId) = ⟨⟨n⟩⟩) : m = n := by
  have hbits : (m : BitVec 128) = (n : BitVec 128) := congrArg (·.uuid.bits) h
  have hnat := congrArg BitVec.toNat hbits
  simp only [BitVec.natCast_eq_ofNat, BitVec.toNat_ofNat] at hnat
  omega

theorem HoldsRoots.registered : HoldsRoots registered 0 where
  pushed := .refl
  inv := registered_inv
  clients := by decide
  nextval := rfl
  storedAs r o := by
    have hempty : Rustend.registered.tables.revisions = [] := rfl
    unfold Tables.StoredAs
    rw [hempty]
    simp

/-- One revision of object 10 on the roots is accepted. -/
theorem HoldsRoots.push {k : ℕ} (h : HoldsRoots c k) (hk : k < 2 ^ 32) (lineage : Lineage)
    (hn : lineage.parents.Nodup)
    (hp : ∀ p ∈ lineage.parents, ∃ n : ℕ, 1 ≤ n ∧ n ≤ k ∧ p = ⟨⟨n⟩⟩) : ∃ resp c',
    (Rustend.pushRevisions ⟨⟨7⟩⟩ [Run.raceRevision (k + 1) lineage]).run Stmt.eval c =
        (.ok resp, c') ∧
      resp.accepted = [(Run.raceRevision (k + 1) lineage).id] ∧ ConnInv c' ∧
      Appends c.tables c'.tables ⟨⟨7⟩⟩ c.nextval [Run.raceRevision (k + 1) lineage] ∧
      c'.nextval = c.nextval + 1 := by
  refine h.inv.pushRevisions_writable (List.cons_ne_nil _ _) ⟨?_, ?_, ?_, ?_, h.clients, ?_⟩
  · exact List.nodup_singleton _
  · intro rev hrev hstored
    obtain ⟨row, hrow, hid⟩ := hstored
    obtain ⟨-, n, -, hnk, heq⟩ := (h.storedAs _ _).mp ⟨row, hrow, hid, rfl⟩
    rw [List.mem_singleton.mp hrev] at heq
    have := ofNat_id_inj (by omega) (by omega) heq
    omega
  · refine Accepts.nil.snoc rfl hn fun p hpm => ?_
    exact .inl ((h.storedAs _ _).mpr ⟨rfl, hp p hpm⟩)
  · intro rev hrev
    rw [List.mem_singleton.mp hrev]
    exact (by decide : (Run.raceRevision 0 .root).row.storable = true)
  · rw [h.nextval]
    unfold i64Max
    omega

theorem HoldsRoots.succ {k : ℕ} (h : HoldsRoots c k) (hk : k < 2 ^ 32) :
    ∃ c', HoldsRoots c' (k + 1) := by
  obtain ⟨resp, c', hrun, hacc, hinv, happ, hnext⟩ := h.push hk .root List.nodup_nil
    fun _ hp => nomatch hp
  refine ⟨c', h.pushed.tail ⟨_, resp, hrun, hacc⟩, hinv, happ.clients ▸ h.clients, ?_,
    fun r o => ?_⟩
  · rw [hnext, h.nextval]
  · rw [happ.storedAs_iff, h.storedAs]
    constructor
    · rintro (⟨ho, n, hn, hnk, hr⟩ | ⟨rev, hrev, hid, ho⟩)
      · exact ⟨ho, n, hn, by omega, hr⟩
      · rw [List.mem_singleton.mp hrev] at hid ho
        exact ⟨ho.symm, k + 1, by omega, le_rfl, hid.symm⟩
    · rintro ⟨ho, n, hn, hnk, hr⟩
      rcases Nat.lt_or_ge k n with hlt | hle
      · obtain rfl : n = k + 1 := by omega
        exact .inr ⟨_, List.mem_singleton_self _, hr.symm, ho.symm⟩
      · exact .inl ⟨ho, n, hn, hle, hr⟩

theorem exists_holdsRoots : ∀ k : ℕ, k < 2 ^ 32 → ∃ c, HoldsRoots c k
  | 0, _ => ⟨_, .registered⟩
  | k + 1, hk =>
    let ⟨_, h⟩ := exists_holdsRoots k (by omega)
    h.succ (by omega)

/-- The merge of the first `k + 2` roots of object 10. -/
def wideMerge (k : ℕ) : Revision :=
  Run.raceRevision (k + 3) (.merge ⟨⟨1⟩⟩ ⟨⟨2⟩⟩ ((List.range' 3 k).map fun n : ℕ => ⟨⟨n⟩⟩))

theorem wideMerge_parents (k : ℕ) :
    (wideMerge k).parents = (List.range' 1 (k + 2)).map fun n : ℕ => ⟨⟨n⟩⟩ := by
  unfold wideMerge Run.raceRevision Revision.parents
  simp [List.range'_succ]

/-- **The order of the parents is lost**: a merge of 32769 roots is accepted, and it is not
read back as it was pushed. -/
theorem pushRevisions_scrambled : ∃ c c' resp rows byId parents,
    Relation.ReflTransGen PushesOne registered c ∧
    (Rustend.pushRevisions ⟨⟨7⟩⟩ [wideMerge 32767]).run Stmt.eval c = (.ok resp, c') ∧
    resp.accepted = [(wideMerge 32767).id] ∧
    (getRevisionRowsByIds [(wideMerge 32767).id]).run Stmt.eval c' = (.ok rows, c') ∧
    (getParentsBatch [(wideMerge 32767).id]).run Stmt.eval c' = (.ok byId, c') ∧
    (getParents (wideMerge 32767).id).run Stmt.eval c' = (.ok parents, c') ∧
    ¬ ReadsBack rows ((byId (wideMerge 32767).id).getD []) (wideMerge 32767) ∧
    ¬ ReadsBack rows parents (wideMerge 32767) := by
  have hlen : ¬ (wideMerge 32767).parents.length ≤ 32768 := by
    rw [wideMerge_parents, List.length_map, List.length_range']
    omega
  obtain ⟨c, hc⟩ := exists_holdsRoots 32769 (by omega)
  have hparents : ∀ p ∈ (wideMerge 32767).parents, ∃ n : ℕ, 1 ≤ n ∧ n ≤ 32769 ∧ p = ⟨⟨n⟩⟩ := by
    intro p hp
    rw [wideMerge_parents, List.mem_map] at hp
    obtain ⟨n, hn, rfl⟩ := hp
    rw [List.mem_range'_1] at hn
    exact ⟨n, by omega, by omega, rfl⟩
  have hnodup : (wideMerge 32767).parents.Nodup := by
    rw [wideMerge_parents]
    refine List.Nodup.map_on (fun m hm n hn heq => ?_) List.nodup_range'
    rw [List.mem_range'_1] at hm hn
    exact ofNat_id_inj (by omega) (by omega) heq
  obtain ⟨resp, c', hrun, hacc, -⟩ := hc.push (by omega) _ hnodup hparents
  obtain ⟨ht, hkeeps, -⟩ := hc.inv.pushRevisions_keeps hrun List.mem_cons_self
    (hacc ▸ List.mem_cons_self)
  have hid : (wideMerge 32767).id ∈ [(wideMerge 32767).id] := List.mem_singleton_self _
  obtain ⟨rows, byId, parents, hrows, hbyId, hread, hbatch, hsingle⟩ :=
    hkeeps.reads ht hkeeps ht hnodup hid hid
  exact ⟨c, c', resp, rows, byId, parents, hc.pushed, hrun, hacc, hrows, hbyId, hread,
    mt hbatch.mp hlen, mt hsingle.mp hlen⟩

end Push

end Rustend
