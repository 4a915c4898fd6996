import Rustend.Server.History

/-!
# Sessions of the database

What the database keeps true while any number of sessions have transactions open,
and the proof rules for the statements of one of them.

The rules serve two readings.  With `alone` false the other sessions may commit
whatever keeps the invariant, and any statement may fail.  With `alone` true
nobody else acts and nothing fails for outside reasons, so the committed tables
stay what they were and a statement fails only when it violates a constraint.

## Main definitions

* `DbInv` — the invariant of the database.
* `sessionEnv` — one session among others.
* `At`, `Lasting` — what a session knows, and what it cannot lose.

## Main results

* `triple_read`, `triple_write`, `triple_insertTransaction`, `triple_begin`,
  `triple_rollback`, `triple_commit` — **the rules for statements.**
-/

namespace Rustend

open Interleave

/-! ### The invariant -/

namespace Db

/-- Session `i` has revision `r` among its uncommitted rows. -/
def Holds (d : Db) (i : ℕ) (r : RevisionId) : Prop :=
  ∃ w, d.opened i = some w ∧ ∃ row ∈ w.revisions, row.id = r

/-- Session `i` has drawn the transaction id `n` and not committed it yet. -/
def Draws (d : Db) (i n : ℕ) : Prop :=
  ∃ w, d.opened i = some w ∧ ∃ x ∈ w.transactions, x.id = n

end Db

/-- The invariant of the database: the committed tables are well formed, and no two
sessions are about to commit the same key. -/
structure DbInv (d : Db) : Prop where
  tables : WellFormed d.tables
  nextval_pos : 1 ≤ d.nextval
  txn_lt : ∀ x ∈ d.tables.transactions, x.id < d.nextval
  opened_lt : ∀ i, d.opened i ≠ none → i < d.sessions
  holds_fresh : ∀ i r, d.Holds i r → ¬ d.tables.Stored r
  holds_unique : ∀ i j r, d.Holds i r → d.Holds j r → i = j
  draws_lt : ∀ i n, d.Draws i n → n < d.nextval
  draws_fresh : ∀ i n, d.Draws i n → ∀ x ∈ d.tables.transactions, x.id ≠ n
  draws_unique : ∀ i j n, d.Draws i n → d.Draws j n → i = j

theorem DbInv.empty : DbInv Db.empty where
  tables := WellFormed.empty
  nextval_pos := le_rfl
  txn_lt := by simp [Db.empty]
  opened_lt := by simp [Db.empty]
  holds_fresh := by rintro i r ⟨w, hw, -⟩; cases hw
  holds_unique := by rintro i j r ⟨w, hw, -⟩; cases hw
  draws_lt := by rintro i n ⟨w, hw, -⟩; cases hw
  draws_fresh := by rintro i n ⟨w, hw, -⟩; cases hw
  draws_unique := by rintro i j n ⟨w, hw, -⟩; cases hw

/-- Session `i` may have the writes `w` open, when the committed tables are `t` and
the sequence stands at `n`. -/
structure Db.MayHold (d : Db) (i : ℕ) (t : Tables) (n : ℕ) (w : Writes) : Prop where
  fresh : ∀ row ∈ w.revisions, ¬ t.Stored row.id
  others : ∀ row ∈ w.revisions, ∀ j, j ≠ i → ¬ d.Holds j row.id
  drawn : ∀ x ∈ w.transactions, x.id < n
  drawn_fresh : ∀ x ∈ w.transactions, ∀ y ∈ t.transactions, y.id ≠ x.id
  drawn_others : ∀ x ∈ w.transactions, ∀ j, j ≠ i → ¬ d.Draws j x.id

section WithConn

variable {d : Db} {i : ℕ} {c : Conn}

@[simp] theorem Db.withConn_tables : (d.withConn i c).tables = c.tables := rfl

@[simp] theorem Db.withConn_nextval : (d.withConn i c).nextval = c.nextval := rfl

@[simp] theorem Db.withConn_opened_self : (d.withConn i c).opened i = c.tx :=
  Function.update_self ..

theorem Db.withConn_opened_of_ne {j : ℕ} (hj : j ≠ i) :
    (d.withConn i c).opened j = d.opened j := Function.update_of_ne hj ..

theorem Db.withConn_holds_of_ne {j : ℕ} (hj : j ≠ i) {r : RevisionId} :
    (d.withConn i c).Holds j r ↔ d.Holds j r := by
  rw [Db.Holds, Db.withConn_opened_of_ne hj, Db.Holds]

theorem Db.withConn_draws_of_ne {j : ℕ} (hj : j ≠ i) {n : ℕ} :
    (d.withConn i c).Draws j n ↔ d.Draws j n := by
  rw [Db.Draws, Db.withConn_opened_of_ne hj, Db.Draws]

/-- **What keeps the invariant**: session `i` commits only what it held, and holds
only what nobody else does. -/
theorem DbInv.withConn (h : DbInv d) (ht : WellFormed c.tables) (hn : d.nextval ≤ c.nextval)
    (hrev : ∀ r, c.tables.Stored r → d.tables.Stored r ∨ d.Holds i r)
    (htxn : ∀ x ∈ c.tables.transactions, x ∈ d.tables.transactions ∨ d.Draws i x.id)
    (hopen : ∀ w, c.tx = some w → d.MayHold i c.tables c.nextval w) : DbInv (d.withConn i c) := by
  have hself : ∀ r, (d.withConn i c).Holds i r →
      ¬ c.tables.Stored r ∧ ∀ j, j ≠ i → ¬ d.Holds j r := by
    rintro r ⟨w, hw, row, hrow, rfl⟩
    rw [Db.withConn_opened_self] at hw
    exact ⟨(hopen w hw).fresh row hrow, (hopen w hw).others row hrow⟩
  have hdraw : ∀ n, (d.withConn i c).Draws i n →
      n < c.nextval ∧ (∀ y ∈ c.tables.transactions, y.id ≠ n) ∧ ∀ j, j ≠ i → ¬ d.Draws j n := by
    rintro n ⟨w, hw, x, hx, rfl⟩
    rw [Db.withConn_opened_self] at hw
    have := hopen w hw
    exact ⟨this.drawn x hx, this.drawn_fresh x hx, this.drawn_others x hx⟩
  exact
    { tables := ht
      nextval_pos := h.nextval_pos.trans hn
      txn_lt := fun x hx => by
        rcases htxn x hx with hx | hx
        · exact (h.txn_lt x hx).trans_le hn
        · exact (h.draws_lt i _ hx).trans_le hn
      opened_lt := fun j hj => by
        simp only [Db.withConn] at hj ⊢
        by_cases hji : j = i
        · omega
        · rw [Function.update_of_ne hji] at hj
          exact (h.opened_lt j hj).trans_le (le_max_left _ _)
      holds_fresh := fun j r hr hs => by
        by_cases hji : j = i
        · subst hji
          exact (hself r hr).1 hs
        · -- what has just been committed was held by session `i`
          rw [Db.withConn_holds_of_ne hji] at hr
          rcases hrev r hs with hs | hs
          · exact h.holds_fresh j r hr hs
          · exact hji (h.holds_unique j i r hr hs)
      holds_unique := fun j k r hj hk => by
        -- only session `i` holds other revisions than before
        by_cases hji : j = i <;> by_cases hki : k = i
        · rw [hji, hki]
        · subst hji
          rw [Db.withConn_holds_of_ne hki] at hk
          exact absurd hk ((hself r hj).2 k hki)
        · subst hki
          rw [Db.withConn_holds_of_ne hji] at hj
          exact absurd hj ((hself r hk).2 j hji)
        · rw [Db.withConn_holds_of_ne hji] at hj
          rw [Db.withConn_holds_of_ne hki] at hk
          exact h.holds_unique j k r hj hk
      draws_lt := fun j n hj => by
        by_cases hji : j = i
        · subst hji
          exact (hdraw n hj).1
        · rw [Db.withConn_draws_of_ne hji] at hj
          exact (h.draws_lt j n hj).trans_le hn
      draws_fresh := fun j n hj x hx hxn => by
        by_cases hji : j = i
        · subst hji
          exact (hdraw n hj).2.1 x hx hxn
        · rw [Db.withConn_draws_of_ne hji] at hj
          rcases htxn x hx with hx | hx
          · exact h.draws_fresh j n hj x hx hxn
          · rw [hxn] at hx
            exact hji (h.draws_unique j i n hj hx)
      draws_unique := fun j k n hj hk => by
        -- only session `i` has drawn other ids than before
        by_cases hji : j = i <;> by_cases hki : k = i
        · rw [hji, hki]
        · subst hji
          rw [Db.withConn_draws_of_ne hki] at hk
          exact absurd hk ((hdraw n hj).2.2 k hki)
        · subst hki
          rw [Db.withConn_draws_of_ne hji] at hj
          exact absurd hj ((hdraw n hk).2.2 j hji)
        · rw [Db.withConn_draws_of_ne hji] at hj
          rw [Db.withConn_draws_of_ne hki] at hk
          exact h.draws_unique j k n hj hk }

/-- What a session has open, it may hold. -/
theorem DbInv.mayHold (h : DbInv d) {w : Writes} (hw : d.opened i = some w) :
    d.MayHold i d.tables d.nextval w where
  fresh row hrow := h.holds_fresh i _ ⟨w, hw, row, hrow, rfl⟩
  others row hrow j hj hh := hj (h.holds_unique j i _ hh ⟨w, hw, row, hrow, rfl⟩)
  drawn x hx := h.draws_lt i _ ⟨w, hw, x, hx, rfl⟩
  drawn_fresh x hx := h.draws_fresh i _ ⟨w, hw, x, hx, rfl⟩
  drawn_others x hx j hj hh := hj (h.draws_unique j i _ hh ⟨w, hw, x, hx, rfl⟩)

/-- Only the keys of the writes matter. -/
theorem Db.MayHold.congr {t : Tables} {n : ℕ} {w w' : Writes} (h : d.MayHold i t n w)
    (hr : w'.revisions = w.revisions) (hx : w'.transactions = w.transactions) :
    d.MayHold i t n w' := by
  refine ⟨?_, ?_, ?_, ?_, ?_⟩
  · rw [hr]; exact h.fresh
  · rw [hr]; exact h.others
  · rw [hx]; exact h.drawn
  · rw [hx]; exact h.drawn_fresh
  · rw [hx]; exact h.drawn_others

/-- A statement that need not wait meets no open transaction it would wait for. -/
theorem DbInv.not_waitsFor (h : DbInv d) {op : Stmt} (hw : d.waits i op = false) {j : ℕ}
    (hj : j ≠ i) {w : Writes} (ho : d.opened j = some w) : op.waitsFor w = false := by
  have hlt : j < d.sessions := h.opened_lt j (by rw [ho]; exact Option.some_ne_none w)
  simp only [Db.waits, List.any_eq_false, List.mem_range] at hw
  simpa [hj, ho] using hw j hlt

/-- A revision that is not stored, and that nobody else is inserting, may be
inserted. -/
theorem DbInv.mayInsert (h : DbInv d) {row : RevisionRow} {w : Writes}
    (hw : d.opened i = some w) (hwait : d.waits i (.insertRevision row) = false)
    (hnew : ¬ d.tables.Stored row.id) :
    d.MayHold i d.tables d.nextval { w with revisions := w.revisions ++ [row.stored] } := by
  have hm := h.mayHold hw
  refine ⟨?_, ?_, hm.drawn, hm.drawn_fresh, hm.drawn_others⟩
  · intro r hr
    rcases List.mem_append.mp hr with hr | hr
    · exact hm.fresh r hr
    · rw [List.mem_singleton.mp hr]; exact hnew
  · intro r hr j hj hh
    rcases List.mem_append.mp hr with hr | hr
    · exact hm.others r hr j hj hh
    · rw [List.mem_singleton.mp hr] at hh
      obtain ⟨v, hv, a, ha, hid⟩ := hh
      have : v.revisions.any (·.id = row.id) = false := h.not_waitsFor hwait hj hv
      exact (List.any_eq_false.mp this a ha) (decide_eq_true hid)

/-- The next value of the sequence may be drawn. -/
theorem DbInv.mayDraw (h : DbInv d) {w : Writes} (hw : d.opened i = some w) (client : ClientId) :
    d.MayHold i d.tables (d.nextval + 1)
      { w with transactions := w.transactions ++ [⟨d.nextval, client⟩] } := by
  have hm := h.mayHold hw
  refine ⟨hm.fresh, hm.others, ?_, ?_, ?_⟩ <;> intro x hx <;>
    rcases List.mem_append.mp hx with hx | hx
  · exact (hm.drawn x hx).trans (Nat.lt_succ_self _)
  · rw [List.mem_singleton.mp hx]; exact Nat.lt_succ_self _
  · exact hm.drawn_fresh x hx
  · rw [List.mem_singleton.mp hx]; exact fun y hy => (h.txn_lt y hy).ne
  · exact hm.drawn_others x hx
  · rw [List.mem_singleton.mp hx]; exact fun j _ hj => (h.draws_lt j _ hj).false

/-- Leaving the tables alone keeps the invariant, if what is then open may be held. -/
theorem DbInv.withTx (h : DbInv d) {tx : Option Writes} {n : ℕ} (hn : d.nextval ≤ n)
    (hopen : ∀ w, tx = some w → d.MayHold i d.tables n w) :
    DbInv (d.withConn i ⟨d.tables, n, tx⟩) :=
  h.withConn h.tables hn (fun _ hr => .inl hr) (fun _ hx => .inl hx) hopen

end WithConn

/-! ### Steps of a session -/

/-- The statement does not end a transaction. -/
def Stmt.plain : Stmt → Bool
  | .rollback | .commit => false
  | _ => true

/-- A statement is answered by its evaluation, or it fails for outside reasons. -/
theorem Db.exec_cases {d d' : Db} {i : ℕ} {op : Stmt} {ch : Outcome}
    {r : Except ServerError op.Res} (h : d.exec i op ch = some (r, d')) :
    (d.waits i op = false ∧ r = (op.eval (d.conn i)).1 ∧
        d' = d.withConn i (op.eval (d.conn i)).2) ∨
      (ch ≠ .proceed ∧ r = .error (.database .connection) ∧
        ((op.plain = true ∧ d' = d) ∨
          (op.plain = false ∧ d' = d.withConn i { d.conn i with tx := none }) ∨
          (op.commits = true ∧ d' = d.withConn i (op.eval (d.conn i)).2))) := by
  cases ch with
  | proceed =>
    simp only [Db.exec] at h
    split at h
    · cases h
    · next hw => cases h; exact .inl ⟨by simpa using hw, rfl, rfl⟩
  | fail =>
    simp only [Db.exec] at h
    split at h
    · next hop =>
      cases h
      refine .inr ⟨nofun, rfl, .inr (.inl ⟨?_, rfl⟩)⟩
      rcases hop with rfl | rfl <;> rfl
    · next hop =>
      cases h
      refine .inr ⟨nofun, rfl, .inl ⟨?_, rfl⟩⟩
      cases op <;> simp_all [Stmt.plain]
  | lost =>
    simp only [Db.exec] at h
    split at h
    · next hop => cases h; exact .inr ⟨nofun, rfl, .inr (.inr ⟨hop, rfl⟩)⟩
    · cases h

/-- The transactions of other sessions stay as they are. -/
theorem Db.exec_opened_of_ne {d d' : Db} {i j : ℕ} {op : Stmt} {ch : Outcome}
    {r : Except ServerError op.Res} (h : d.exec i op ch = some (r, d')) (hj : j ≠ i) :
    d'.opened j = d.opened j := by
  rcases Db.exec_cases h with ⟨-, -, rfl⟩ | ⟨-, -, ⟨-, rfl⟩ | ⟨-, rfl⟩ | ⟨-, rfl⟩⟩
  · exact Db.withConn_opened_of_ne hj
  · rfl
  · exact Db.withConn_opened_of_ne hj
  · exact Db.withConn_opened_of_ne hj

/-- A statement that only reads leaves the database as it was, or writes back the connection. -/
theorem Db.exec_read {d d' : Db} {i : ℕ} {op : Stmt} {ch : Outcome} {r : Except ServerError op.Res}
    (hop : op.plain = true) (hq : ∀ c, (op.eval c).2 = c) (h : d.exec i op ch = some (r, d')) :
    d' = d ∨ d' = d.withConn i (d.conn i) := by
  rcases Db.exec_cases h with ⟨-, -, rfl⟩ | ⟨-, -, ⟨-, rfl⟩ | ⟨hpl, -⟩ | ⟨-, rfl⟩⟩
  · rw [hq]
    exact .inr rfl
  · exact .inl rfl
  · rw [hop] at hpl
    cases hpl
  · rw [hq]
    exact .inr rfl

/-- Session `i` among others.  The others keep the invariant and the committed
rows, and leave the session's transaction alone; so does the session to them, and
what it does to the committed tables is within `effect`. -/
def sessionEnv (alone : Prop) (i : ℕ) (effect : Tables → Tables → Prop) :
    Env sql ServerError Db where
  exec op d r d' := ∃ ch, (alone → ch = .proceed) ∧ d.exec i op ch = some (r, d')
  rely d d' := (alone → d' = d) ∧
    (DbInv d → DbInv d' ∧ Grows d.tables d'.tables ∧ d'.opened i = d.opened i)
  guar d d' := DbInv d → DbInv d' ∧ Grows d.tables d'.tables ∧
    (∀ j, j ≠ i → d'.opened j = d.opened j) ∧ effect d.tables d'.tables
  rely_refl _ := ⟨fun _ => rfl, fun h => ⟨h, .refl _, rfl⟩⟩
  rely_trans d₁ d₂ d₃ h h' := by
    refine ⟨fun ha => (h'.1 ha).trans (h.1 ha), fun hd => ?_⟩
    obtain ⟨h₂, hg, ho⟩ := h.2 hd
    obtain ⟨h₃, hg', ho'⟩ := h'.2 h₂
    exact ⟨h₃, hg.trans hg', ho'.trans ho⟩

/-- What session `i` knows between two statements: the invariant, its own
transaction, a fact about the committed tables, and, when it is alone, what these
tables and the sequence are. -/
structure At (alone : Prop) (t₀ : Tables) (n₀ i : ℕ) (tx : Option Writes) (P : Tables → Prop)
    (d : Db) : Prop where
  inv : DbInv d
  opened : d.opened i = tx
  holds : P d.tables
  frame : alone → d.tables = t₀ ∧ d.nextval = n₀

/-- A fact that no commit of the others takes away from a session whose open
transaction is `tx`. -/
def Lasting (tx : Option Writes) (P : Tables → Prop) : Prop :=
  ∀ t t', WellFormed t → WellFormed t' → Grows t t' →
    (∀ w, tx = some w → ∀ row ∈ w.revisions, ¬ t'.Stored row.id) → P t → P t'

theorem Lasting.const {tx : Option Writes} (p : Prop) : Lasting tx fun _ => p :=
  fun _ _ _ _ _ _ h => h

theorem Lasting.and {tx : Option Writes} {P Q : Tables → Prop} (hP : Lasting tx P)
    (hQ : Lasting tx Q) : Lasting tx fun t => P t ∧ Q t :=
  fun t t' ht ht' hg hw h => ⟨hP t t' ht ht' hg hw h.1, hQ t t' ht ht' hg hw h.2⟩

/-- Only the rows of `revisions` in the transaction matter. -/
theorem Lasting.congr {w w' : Writes} {P : Tables → Prop} (h : Lasting (some w) P)
    (hr : w'.revisions = w.revisions) : Lasting (some w') P := by
  intro t t' ht ht' hg hown
  refine h t t' ht ht' hg fun v hv => ?_
  cases hv
  rw [← hr]
  exact hown w' rfl

section Rules

variable {alone : Prop} {t₀ : Tables} {n₀ i : ℕ} {effect : Tables → Tables → Prop}
  {tx : Option Writes} {P : Tables → Prop} {d d' : Db}

theorem DbInv.opened_fresh (h : DbInv d) {w : Writes} (hw : d.opened i = some w) :
    ∀ row ∈ w.revisions, ¬ d.tables.Stored row.id := (h.mayHold hw).fresh

theorem stable_at (hP : Lasting tx P) :
    Stable (sessionEnv alone i effect) (At alone t₀ n₀ i tx P) := by
  rintro d d' ⟨hal, hrel⟩ h
  obtain ⟨hinv, hg, ho⟩ := hrel h.inv
  refine ⟨hinv, ho.trans h.opened, ?_, fun ha => hal ha ▸ h.frame ha⟩
  refine hP _ _ h.inv.tables hinv.tables hg (fun w hw => ?_) h.holds
  exact hinv.opened_fresh (ho.trans (h.opened.trans hw))

theorem At.mono {Q : Tables → Prop} (h : At alone t₀ n₀ i tx P d)
    (hPQ : ∀ t, WellFormed t → (alone → t = t₀) → P t → Q t) : At alone t₀ n₀ i tx Q d :=
  ⟨h.inv, h.opened, hPQ _ h.inv.tables (fun ha => (h.frame ha).1) h.holds, h.frame⟩

/-- A step that changes only the session's own transaction respects the others. -/
theorem At.withTx (heff : ∀ t, effect t t) (h : At alone t₀ n₀ i tx P d) (v : Option Writes)
    {n : ℕ} (hn : d.nextval ≤ n)
    (hopen : ∀ w, v = some w → d.MayHold i d.tables n w) :
    (sessionEnv alone i effect).guar d (d.withConn i ⟨d.tables, n, v⟩) ∧
      DbInv (d.withConn i ⟨d.tables, n, v⟩) :=
  ⟨fun _ => ⟨h.inv.withTx hn hopen, .refl _, fun _ hj => Db.withConn_opened_of_ne hj, heff _⟩,
    h.inv.withTx hn hopen⟩

/-- A step that leaves the connection as it was. -/
theorem At.kept (heff : ∀ t, effect t t) (h : At alone t₀ n₀ i tx P d)
    (hd : d' = d ∨ d' = d.withConn i (d.conn i)) :
    (sessionEnv alone i effect).guar d d' ∧ At alone t₀ n₀ i tx P d' := by
  rcases hd with rfl | rfl
  · exact ⟨fun hd => ⟨hd, .refl _, fun _ _ => rfl, heff _⟩, h⟩
  · obtain ⟨hg, hinv⟩ := h.withTx heff (d.conn i).tx le_rfl fun w hw => h.inv.mayHold hw
    exact ⟨hg, hinv, Db.withConn_opened_self.trans h.opened, h.holds, h.frame⟩

/-- **Reading.**  A read is answered from the committed tables, and fails only for
outside reasons. -/
theorem triple_read (heff : ∀ t, effect t t) (op : Stmt) (hop : op.plain = true)
    {q : Tables → op.Res} (hq : ∀ c, op.eval c = (.ok (q c.tables), c))
    {Q : op.Res → Tables → Prop} (hP : Lasting tx P) (hQ : ∀ a, Lasting tx (Q a))
    (h : ∀ t, WellFormed t → (alone → t = t₀) → P t → Q (q t) t) :
    Triple (sessionEnv alone i effect) (At alone t₀ n₀ i tx P) (.perform (S := sql) op)
      (Ends (fun a => At alone t₀ n₀ i tx (Q a))
        fun _ d => At alone t₀ n₀ i tx P d ∧ ¬ alone) := by
  refine Triple.perform (stable_at hP) ?_ ?_
  · rintro (e | a)
    · exact fun d d' hr hd => ⟨stable_at hP d d' hr hd.1, hd.2⟩
    · exact stable_at (hQ a)
  · rintro d r d' hd ⟨ch, hch, hx⟩
    rcases Db.exec_cases hx with ⟨-, rfl, rfl⟩ | ⟨hne, rfl, hd'⟩
    · obtain ⟨hg, hk⟩ := hd.kept heff (.inr rfl)
      rw [hq]
      exact ⟨hg, hk.inv, hk.opened, h _ hd.inv.tables (fun ha => (hd.frame ha).1) hd.holds,
        hk.frame⟩
    · have hal : ¬ alone := fun ha => hne (hch ha)
      rcases hd' with ⟨-, rfl⟩ | ⟨hpl, -⟩ | ⟨-, rfl⟩
      · exact ⟨(hd.kept heff (.inl rfl)).1, hd, hal⟩
      · rw [hop] at hpl; cases hpl
      · obtain ⟨hg, hk⟩ := hd.kept heff (.inr rfl)
        rw [hq]
        exact ⟨hg, hk, hal⟩

/-- The statement writes within the open transaction, as `f` says. -/
structure Stmt.WritesBy (op : Stmt) (f : Tables → Writes → Except DbError Writes) : Prop where
  plain : op.plain = true
  inside : op.commits = false
  conn : ∀ c, (op.eval c).2 = (c.write (f c.tables)).2
  error : ∀ c e, (op.eval c).1 = .error e ↔ (c.write (f c.tables)).1 = .error e

/-- **Writing.**  A write extends the session's own transaction; it fails only when
the tables refuse it, or for outside reasons. -/
theorem triple_write (heff : ∀ t, effect t t) {op : Stmt}
    {f : Tables → Writes → Except DbError Writes} (hop : op.WritesBy f) {w : Writes}
    {Q : Writes → Tables → Prop} (hP : Lasting (some w) P) (hQ : ∀ w', Lasting (some w') (Q w'))
    (hold : ∀ d w', DbInv d → d.opened i = some w → d.waits i op = false →
      f d.tables w = .ok w' → d.MayHold i d.tables d.nextval w')
    (h : ∀ t w', WellFormed t → (∀ row ∈ w'.revisions, ¬ t.Stored row.id) → P t →
      f t w = .ok w' → Q w' t) :
    Triple (sessionEnv alone i effect) (At alone t₀ n₀ i (some w) P) (.perform (S := sql) op)
      (Ends (fun _ d => ∃ w', At alone t₀ n₀ i (some w') (Q w') d)
        fun _ d => At alone t₀ n₀ i (some w) P d ∧ (alone → ∃ e, f t₀ w = .error e)) := by
  refine Triple.perform (stable_at hP) ?_ ?_
  · rintro (e | a)
    · exact fun d d' hr hd => ⟨stable_at hP d d' hr hd.1, hd.2⟩
    · rintro d d' hr ⟨w', hd⟩
      exact ⟨w', stable_at (hQ w') d d' hr hd⟩
  · rintro d r d' hd ⟨ch, hch, hx⟩
    rcases Db.exec_cases hx with ⟨hnw, hr, rfl⟩ | ⟨hne, rfl, hd'⟩
    · have hc : d.conn i = ⟨d.tables, d.nextval, some w⟩ := by rw [Db.conn, hd.opened]
      rcases hf : f d.tables w with e | w'
      · -- the tables refuse
        have hw : (d.conn i).write (f (d.conn i).tables) = (.error (.database e), d.conn i) := by
          simp [hc, Conn.write, hf]
        have : r = .error (.database e) := hr.trans ((hop.error _ _).mpr (by rw [hw]))
        subst this
        rw [hop.conn, hw]
        obtain ⟨hg, hk⟩ := hd.kept heff (.inr rfl)
        exact ⟨hg, hk, fun ha => ⟨e, (hd.frame ha).1 ▸ hf⟩⟩
      · have hw : (d.conn i).write (f (d.conn i).tables) =
            (.ok (), ⟨d.tables, d.nextval, some w'⟩) := by simp [hc, Conn.write, hf]
        have hmay := hold d w' hd.inv hd.opened hnw hf
        rw [hop.conn, hw]
        obtain ⟨hg, hinv⟩ := hd.withTx heff (some w') le_rfl fun v hv => by
          cases hv; exact hmay
        refine ⟨hg, ?_⟩
        rcases r with e | a
        · have := (hop.error _ _).mp hr.symm
          rw [hw] at this
          cases this
        · exact ⟨w', hinv, Db.withConn_opened_self, h _ w' hd.inv.tables hmay.fresh hd.holds hf,
            hd.frame⟩
    · -- a failure for outside reasons, which nothing meets that is alone
      rcases hd' with ⟨-, rfl⟩ | ⟨hpl, -⟩ | ⟨heffect, -⟩
      · exact ⟨(hd.kept heff (.inl rfl)).1, hd, fun ha => absurd (hch ha) hne⟩
      · rw [hop.plain] at hpl; cases hpl
      · rw [hop.inside] at heffect; cases heffect

/-- **Drawing a transaction id.**  The sequence advances even when the statement
fails. -/
theorem triple_insertTransaction (heff : ∀ t, effect t t) {client : ClientId} {w : Writes}
    (hP : ∀ w', w'.revisions = w.revisions → Lasting (some w') P) :
    Triple (sessionEnv alone i effect) (At alone t₀ n₀ i (some w) P)
      (.perform (S := sql) (.insertTransaction client))
      (Ends
        (fun (n : ℕ) => At alone t₀ (n₀ + 1) i
          (some { w with transactions := w.transactions ++ [⟨n, client⟩] })
          fun t => P t ∧ 1 ≤ n ∧ n ≤ i64Max ∧
            (alone → n = n₀ ∧ ∀ x ∈ t₀.transactions, x.id < n))
        fun _ d => (∃ n, At alone t₀ n i (some w) P d) ∧
          (alone → i64Max < n₀ ∨ client ∉ t₀.clients)) := by
  refine Triple.perform (stable_at (hP w rfl)) ?_ ?_
  · rintro (e | n)
    · rintro d d' hr ⟨⟨n, hd⟩, he⟩
      exact ⟨⟨n, stable_at (hP w rfl) d d' hr hd⟩, he⟩
    · exact stable_at ((hP { w with transactions := w.transactions ++ [⟨n, client⟩] } rfl).and
        (.const _))
  · rintro d r d' hd ⟨ch, hch, hx⟩
    have hc : d.conn i = ⟨d.tables, d.nextval, some w⟩ := by rw [Db.conn, hd.opened]
    have hmay := hd.inv.mayHold hd.opened
    rcases Db.exec_cases hx with ⟨-, hr, hd'⟩ | ⟨hne, rfl, hd'⟩
    · simp only [Stmt.eval, Conn.insertTransaction, hc] at hr hd'
      split at hr
      · next hlim =>
        -- the sequence is used up
        rw [if_pos hlim] at hd'
        subst hr hd'
        obtain ⟨hg, hk⟩ := hd.kept heff (.inr (by rw [hc]))
        exact ⟨hg, ⟨n₀, hk⟩, fun ha => .inl ((hd.frame ha).2 ▸ hlim)⟩
      · next hlim =>
        rw [if_neg hlim] at hd'
        split at hr
        · next hcl =>
          -- the client is not registered, and the id is drawn nevertheless
          rw [if_pos hcl] at hd'
          subst hr hd'
          obtain ⟨hg, hinv⟩ := hd.withTx heff (some w) (Nat.le_succ d.nextval) fun v hv => by
            cases hv
            exact { hmay with drawn := fun x hx => (hmay.drawn x hx).trans (Nat.lt_succ_self _) }
          refine ⟨hg, ⟨n₀ + 1, hinv, Db.withConn_opened_self, hd.holds, fun ha => ?_⟩, fun ha => ?_⟩
          · exact ⟨(hd.frame ha).1, congrArg (· + 1) (hd.frame ha).2⟩
          · exact .inr ((hd.frame ha).1 ▸ hcl)
        · next hcl =>
          rw [if_neg hcl] at hd'
          subst hr hd'
          obtain ⟨hg, hinv⟩ := hd.withTx heff
            (some { w with transactions := w.transactions ++ [⟨d.nextval, client⟩] })
            (Nat.le_succ d.nextval) fun v hv => by cases hv; exact hd.inv.mayDraw hd.opened client
          refine ⟨hg, hinv, Db.withConn_opened_self, ⟨hd.holds, hd.inv.nextval_pos, ?_, ?_⟩, ?_⟩
          · exact Nat.le_of_not_lt hlim
          · exact fun ha => ⟨(hd.frame ha).2, (hd.frame ha).1 ▸ hd.inv.txn_lt⟩
          · exact fun ha => ⟨(hd.frame ha).1, congrArg (· + 1) (hd.frame ha).2⟩
    · rcases hd' with ⟨-, rfl⟩ | ⟨hpl, -⟩ | ⟨h, -⟩
      · exact ⟨(hd.kept heff (.inl rfl)).1, ⟨n₀, hd⟩, fun ha => absurd (hch ha) hne⟩
      · cases hpl
      · cases h

/-- **Opening a transaction.** -/
theorem triple_begin (heff : ∀ t, effect t t) (hP : Lasting none P) :
    Triple (sessionEnv alone i effect) (At alone t₀ n₀ i none P) (.perform (S := sql) .begin)
      (Ends (fun _ => At alone t₀ n₀ i (some {}) P)
        fun _ d => At alone t₀ n₀ i none P d ∧ ¬ alone) := by
  have hP' : Lasting (some {}) P := fun t t' ht ht' hg _ h => hP t t' ht ht' hg (by simp) h
  refine Triple.perform (stable_at hP) ?_ ?_
  · rintro (e | a)
    · exact fun d d' hr hd => ⟨stable_at hP d d' hr hd.1, hd.2⟩
    · exact stable_at hP'
  · rintro d r d' hd ⟨ch, hch, hx⟩
    rcases Db.exec_cases hx with ⟨-, rfl, rfl⟩ | ⟨hne, rfl, hd'⟩
    · obtain ⟨hg, hinv⟩ := hd.withTx heff (some {}) le_rfl fun v hv => by
        cases hv; exact ⟨by simp, by simp, by simp, by simp, by simp⟩
      exact ⟨hg, hinv, Db.withConn_opened_self, hd.holds, hd.frame⟩
    · rcases hd' with ⟨-, rfl⟩ | ⟨hpl, -⟩ | ⟨h, -⟩
      · exact ⟨(hd.kept heff (.inl rfl)).1, hd, fun ha => hne (hch ha)⟩
      · cases hpl
      · cases h

/-- **Giving up a transaction.**  However the `ROLLBACK` is answered, nothing of
the transaction remains. -/
theorem triple_rollback (heff : ∀ t, effect t t) (hP : Lasting none P) (hP' : Lasting tx P) :
    Triple (sessionEnv alone i effect) (At alone t₀ n₀ i tx P) (.perform (S := sql) .rollback)
      fun _ => At alone t₀ n₀ i none P := by
  refine Triple.perform (stable_at hP') (fun _ => stable_at hP) ?_
  rintro d r d' hd ⟨ch, hch, hx⟩
  obtain ⟨hg, hinv⟩ := hd.withTx heff none le_rfl nofun
  have hd'' : d' = d.withConn i ⟨d.tables, d.nextval, none⟩ := by
    rcases Db.exec_cases hx with ⟨-, -, rfl⟩ | ⟨-, -, ⟨h, -⟩ | ⟨-, rfl⟩ | ⟨h, -⟩⟩
    · rfl
    · cases h
    · rfl
    · cases h
  subst hd''
  exact ⟨hg, hinv, Db.withConn_opened_self, hd.holds, hd.frame⟩

/-- **Committing.**  What the transaction wrote becomes the committed tables, and
that may be so although the session is told that the commit failed. -/
theorem triple_commit (heff : ∀ t, effect t t) {w : Writes} {Q : Tables → Prop}
    (hP : Lasting (some w) P) (hQ : Lasting none Q)
    (h : ∀ d, At alone t₀ n₀ i (some w) P d →
      WellFormed (d.tables.view w) ∧ effect d.tables (d.tables.view w) ∧ Q (d.tables.view w)) :
    Triple (sessionEnv alone i effect) (At alone t₀ n₀ i (some w) P)
      (.perform (S := sql) .commit)
      (Ends (fun _ => At alone (t₀.view w) n₀ i none Q)
        fun _ d => DbInv d ∧ d.opened i = none ∧ ¬ alone) := by
  refine Triple.perform (stable_at hP) ?_ ?_
  · rintro (e | a)
    · rintro d d' ⟨-, hr⟩ ⟨hinv, ho, hal⟩
      exact ⟨(hr hinv).1, (hr hinv).2.2.trans ho, hal⟩
    · exact stable_at hQ
  · rintro d r d' hd ⟨ch, hch, hx⟩
    have hc : d.conn i = ⟨d.tables, d.nextval, some w⟩ := by rw [Db.conn, hd.opened]
    have hev : Stmt.commit.eval (d.conn i) = (.ok (), ⟨d.tables.view w, d.nextval, none⟩) := by
      rw [hc]; rfl
    obtain ⟨hwf, he, hq⟩ := h d hd
    have hinv : DbInv (d.withConn i ⟨d.tables.view w, d.nextval, none⟩) := by
      refine hd.inv.withConn hwf le_rfl ?_ ?_ nofun
      · rintro r ⟨row, hrow, rfl⟩
        rcases List.mem_append.mp hrow with hrow | hrow
        · exact .inl ⟨row, hrow, rfl⟩
        · exact .inr ⟨w, hd.opened, row, hrow, rfl⟩
      · intro x hx
        rcases List.mem_append.mp hx with hx | hx
        · exact .inl hx
        · exact .inr ⟨w, hd.opened, x, hx, rfl⟩
    have hg : (sessionEnv alone i effect).guar d
        (d.withConn i ⟨d.tables.view w, d.nextval, none⟩) :=
      fun _ => ⟨hinv, Grows.view _ _, fun _ hj => Db.withConn_opened_of_ne hj, he⟩
    rcases Db.exec_cases hx with ⟨-, hr, rfl⟩ | ⟨hne, rfl, hd'⟩
    · -- the session is told that it has committed
      rw [hev] at hr ⊢
      subst hr
      refine ⟨hg, hinv, Db.withConn_opened_self, hq, fun ha => ?_⟩
      exact ⟨congrArg (·.view w) (hd.frame ha).1, (hd.frame ha).2⟩
    · have hal : ¬ alone := fun ha => hne (hch ha)
      rcases hd' with ⟨h, -⟩ | ⟨-, rfl⟩ | ⟨-, rfl⟩
      · cases h
      · -- the commit has failed, and nothing is left of the transaction
        rw [hc]
        obtain ⟨hg', hinv'⟩ := hd.withTx heff none le_rfl nofun
        exact ⟨hg', hinv', Db.withConn_opened_self, hal⟩
      · -- the commit has succeeded, and its reply is lost
        rw [hev]
        exact ⟨hg, hinv, Db.withConn_opened_self, hal⟩

end Rules

end Rustend
