import Rustend.Client.Endpoint

/-!
# What becomes of a payload on its way

A payload comes from the stores of a client over the text of a request into a column of the
server, and over the text of a response into the stores of another client.  On each of these
ways it may come out as another value, or not at all: a store has no integers beyond 2^53,
a text may be nested too deep to be read, some doubles are read as their neighbours, and the
numbers of a column are not doubles.

What the ways make of payloads is a parameter.  Where the requests of a client are answered by
`httpServer` and its transactions by `IdbOp.eval`, the parameter is `Carriage.faithful`: it is
assumed there that every value is kept.  Over any other carriage, the results are about the
payloads that all of its ways keep.

## Main definitions

* `Carriage`, `Carriage.server` — the ways of a payload, and the server with them.
* `Carriage.faithful` — the assumption that every value is kept.
* `Carriage.Keeps` — the payloads that are kept.
* `Judged` — what a response says of a batch.

## Main results

* `Carriage.faithful_server` — over the faithful carriage, the server is `httpServer`.
* `ConnInv.changes_judged` — what a push is answered.
* `Carriage.Keeps.changes`, `Carriage.Keeps.changesQuery` — **kept payloads are pushed and pulled
  as they are.**
-/

namespace Rustend

open Interleave

/-- The ways that a payload takes. -/
structure Carriage extends Texts where
  /-- What a column gives back of a value, if it can be decoded. -/
  column : Json → Option Json
  /-- What an object store gives back of a value, if it can be converted; else the message. -/
  store : Json → Except String Json

namespace Carriage

variable (carriage : Carriage)

/-- A row as it is decoded. -/
def decoded (row : RevisionRow) : Option RevisionRow :=
  match row.data with
  | some v => (carriage.column v).map fun v => { row with data := some v }
  | none => some row

/-- A revision as an object store gives it back. -/
def stored (rev : Revision) : Except String Revision :=
  match rev.content with
  | .active v => (carriage.store v).map fun v => { rev with content := .active v }
  | .deleted => .ok rev

/-- What an object store gives back of revisions that are put one after another, up to the first
one that cannot be converted, and how they come out. -/
def storedAll : List Revision → List Revision × Except String Unit
  | [] => ([], .ok ())
  | rev :: revisions =>
      match carriage.stored rev with
      | .ok rev => (rev :: (storedAll revisions).1, (storedAll revisions).2)
      | .error msg => ([], .error msg)

/-- The answer to a statement of a handler, and whether the handler has panicked: it does so on
a row that cannot be decoded. -/
def eval : (op : Stmt) → Conn × Bool → Except ServerError op.Res × (Conn × Bool)
  | .selectRevisionRows ids, (c, panicked) =>
      match (c.tables.revisions.filter (·.id ∈ ids)).mapM carriage.decoded with
      | some rows => (.ok rows, (c, panicked))
      | none => (.error (.database .connection), (c, true))
  | op, (c, panicked) => ((op.eval c).1, ((op.eval c).2, panicked))

/-- The server behind the texts and over the columns.  Only a pull reads payloads, and a handler
that panics does not respond. -/
def server (client : ClientId) : Net Conn where
  changes := (carriage.toTexts.server client).changes
  changesQuery body c :=
    match carriage.pull body with
    | .ok body' =>
        let x := (authenticated client (serve (.pull client body'))).run carriage.eval (c, false)
        if x.2.2 then (.error (.network "connection closed"), x.2.1)
        else (.ok ((intoResponse x.1).received carriage.pulled), x.2.1)
    | .error _ => (carriage.toTexts.server client).changesQuery body c

/-- **Everything is kept**: each text is read and says what was written, and each column and each
store gives back what it was given. -/
def faithful : Carriage where
  toTexts := Texts.exact
  column := some
  store := .ok

end Carriage

/-- The payload, if there is one, is in `K`. -/
def Content.Within (K : Json → Prop) : Content → Prop
  | .active v => K v
  | .deleted => True

/-- **Payloads of `K` are kept on all ways**, and with them what else a body says, wherever the
body gets through at all. -/
structure Carriage.Keeps (carriage : Carriage) (K : Json → Prop) : Prop where
  push : ∀ body body', (∀ rev ∈ body.revisions, rev.content.Within K) →
    carriage.push body = .ok body' → body' = body
  pushed : ∀ body resp, carriage.pushed body = .ok resp → body = .pushed resp
  pulled : ∀ body resp, (∀ sent, body = .pulled sent →
      ∀ u ∈ sent.objectUpdates, ∀ rev ∈ u.heads, rev.content.Within K) →
    carriage.pulled body = .ok resp → body = .pulled resp
  column : ∀ v, K v → carriage.column v = some v
  store : ∀ v, K v → carriage.store v = .ok v

/-- The payload of a row is in `K`, or it has none because it is a tombstone. -/
def RevisionRow.Within (K : Json → Prop) (row : RevisionRow) : Prop :=
  match row.data with
  | some v => K v
  | none => row.deleted = true

/-- The payloads in the rows are in `K`. -/
def Tables.Within (K : Json → Prop) (t : Tables) : Prop := ∀ row ∈ t.revisions, row.Within K

/-! ### What a push is answered -/

/-- A check names its reason. -/
theorem verdict_duplicate {t : Tables} {client : ClientId} {st : PushState} {rev : Revision}
    (h : verdict t client st rev = some .duplicateRevisionId) : t.Stored rev.id := by
  unfold verdict at h
  split at h
  · cases h
  split at h
  · assumption
  split at h
  · cases h
  obtain ⟨p, -, hp⟩ := List.exists_of_findSome?_eq_some h
  unfold parentVerdict at hp
  split at hp
  · cases hp
  · split at hp <;> cases hp

/-- Every rejection is of an entry of the batch, for the reason that a check has found. -/
theorem check_rejected {t : Tables} {client : ClientId} : ∀ (revisions : List Revision)
    (st : PushState), ∀ e ∈ (revisions.foldl (PushState.check t client) st).rejected,
      e ∈ st.rejected ∨ ∃ rev ∈ revisions, rev.id = e.revisionId ∧
        ∃ st', verdict t client st' rev = some e.reason
  | [], _, _, he => .inl he
  | rev :: revisions, st, e, he => by
    rcases check_rejected revisions (st.check t client rev) e he with hst | ⟨x, hx, hid, hv⟩
    · unfold PushState.check at hst
      split at hst
      · next reason hreason =>
        rcases List.mem_append.mp hst with hst | hnew
        · exact .inl hst
        · rw [List.mem_singleton.mp hnew]
          exact .inr ⟨rev, List.mem_cons_self, rfl, st, hreason⟩
      · exact .inl hst
    · exact .inr ⟨x, List.mem_cons_of_mem _ hx, hid, hv⟩

/-- What a response says of a batch. -/
structure Judged (revisions : List Revision) (t : Tables) (resp : PushResponse) : Prop where
  accepted : ∀ r ∈ resp.accepted, r ∈ revisions.map (·.id) ∧ t.Stored r
  rejected : ∀ e ∈ resp.rejected, e.revisionId ∈ revisions.map (·.id) ∧
    (e.reason = .duplicateRevisionId → t.Stored e.revisionId)

/-- **A push commits some of its batch, and what it answers is so.** -/
theorem ConnInv.changes_judged {c : Conn} (h : ConnInv c) (client : ClientId)
    (revisions : List Revision) : ∃ x c' batch,
    (httpServer client).changes ⟨revisions⟩ c = (x, c') ∧ ConnInv c' ∧ batch ⊆ revisions ∧
      Commits c.tables c'.tables client c.nextval batch ∧
      ∀ resp, parsed x = some resp → Judged revisions c'.tables resp := by
  obtain ⟨clients, -, hrun⟩ := run_authenticated client (Rustend.pushRevisions client revisions) c
  obtain ⟨x, c', hx, hconn, hserved⟩ := h.changes client revisions
  rcases hserved with ⟨resp, batch, hresp, -, hsub, hacc, hcommits⟩ | ⟨hnone, clients', -, ht, -⟩
  · refine ⟨x, c', batch, hx, hconn, hsub.subset, hcommits, fun resp' hresp' => ?_⟩
    obtain rfl : resp' = resp := Option.some.inj (hresp'.symm.trans hresp)
    refine ⟨fun r hr => ?_, fun e he => ?_⟩
    · rw [hacc] at hr
      obtain ⟨rev, hrev, rfl⟩ := List.mem_map.mp hr
      exact ⟨List.mem_map_of_mem (hsub.subset hrev),
        hcommits.stored_iff.mpr (.inr ⟨rev, hrev, rfl⟩)⟩
    -- the rejections are what the checks have found
    have hreply : parsed (.ok (respond ((Rustend.pushRevisions client revisions).run Stmt.eval
        (c.withClients clients)).1)) = some resp' := by
      rw [← hrun, ← hresp']
      exact congrArg (fun y => parsed y.1) hx
    rcases hy : (Rustend.pushRevisions client revisions).run Stmt.eval (c.withClients clients) with
      ⟨err | answer, c''⟩
    · rw [hy, parsed_respond] at hreply
      cases hreply
    · rw [hy, parsed_respond] at hreply
      cases hreply
      obtain ⟨-, hrej, -⟩ := pushRevisions_collected rfl hy
      rw [hrej] at he
      rcases check_rejected revisions {} e he with hnil | ⟨rev, hrev, hid, st, hv⟩
      · cases hnil
      · refine ⟨hid ▸ List.mem_map_of_mem hrev, fun hreason => ?_⟩
        rw [hreason] at hv
        have hold : c.tables.Stored rev.id := verdict_duplicate hv
        exact hcommits.stored_iff.mpr (.inl (hid ▸ hold))
  · refine ⟨x, c', [], hx, hconn, List.nil_subset _, ?_, fun resp hresp => ?_⟩
    · rw [ht]
      exact .nothing c.tables clients' client c.nextval
    · rw [hnone] at hresp
      cases hresp

/-! ### What the client gets -/

section Carriage

variable {α β : Type} {carriage : Carriage} {K : Json → Prop} {client : ClientId} {c : Conn}

theorem body_of_parsed {resp : HttpResponse α} {a : α} (h : parsed (.ok resp) = some a) :
    resp.body = .ok a := by
  simp only [parsed] at h
  split at h
  · rcases hbody : resp.body with msg | a'
    · rw [hbody] at h
      cases h
    · rw [hbody] at h
      exact congrArg Except.ok (Option.some.inj h)
  · cases h

/-- What a client gets is the reply of the handler, if its parser takes no other for it. -/
theorem parsed_received {reply : α → ServerReply} {parse : Body → Except String α}
    {r : Except ServerError α} {a : α}
    (hparse : ∀ a', r = .ok a' → parse (intoResponse (.ok (reply a'))).body = .ok a → a' = a)
    (h : parsed (.ok ((intoResponse (r.map reply)).received parse)) = some a) : r = .ok a := by
  cases r with
  | error e =>
    have hnone : parsed (.ok ((intoResponse (.error e)).received parse)) = none := parsed_status
    rw [Except.map, hnone] at h
    cases h
  | ok a' =>
    have hbody : parse (intoResponse (.ok (reply a'))).body = .ok a := body_of_parsed h
    rw [hparse a' rfl hbody]

/-- A refused request registers its client. -/
theorem overHttp_error {request : β → ServerRequest} {parse : Body → Except String α} {status : ℕ}
    (hempty : ∀ a, parse .empty ≠ .ok a) : ∃ x clients,
    overHttp client (.error status) request parse c = (x, c.withClients clients) ∧
      parsed x = none := by
  obtain ⟨clients, hrun, -⟩ := run_upsertClient client c
  refine ⟨_, clients, by rw [overHttp, hrun], Option.eq_none_iff_forall_ne_some.mpr fun a ha => ?_⟩
  exact hempty a (body_of_parsed ha)

/-! ### Kept payloads -/

/-- The statement leaves the rows of `revisions` alone. -/
def LeavesRows (op : Stmt) : Prop :=
  ∀ c : Conn, (op.eval c).2.tables.revisions = c.tables.revisions

theorem issues_pull (req : PullRequest) :
    (authenticated client (serve (.pull client req))).Issues LeavesRows := by
  have hups : LeavesRows (.upsertClient client) := by
    intro c
    by_cases hmem : client ∈ c.tables.clients <;> simp only [Stmt.eval, hmem, if_true, if_false]
  refine .bind (.perform hups) fun _ => .bind ?_ fun _ => trivial
  unfold pullChanges
  split
  · trivial
  refine .bind (.bind (.perform fun _ => rfl) fun _ => trivial) fun upTo =>
    .bind ?_ fun _ => trivial
  unfold fetchObjectUpdates
  split
  · trivial
  refine .bind (.perform fun _ => rfl) fun changed => ?_
  split
  · trivial
  refine .bind (.perform fun _ => rfl) fun rows => .bind (.perform fun _ => rfl) fun _ => ?_
  refine .bind ?_ fun _ => trivial
  unfold getParentsBatch
  split
  · trivial
  · exact .bind (.perform fun _ => rfl) fun _ => trivial

/-- A kept row is rebuilt with a kept content. -/
theorem RevisionRow.Within.content {row : RevisionRow} (hrow : row.Within K)
    (parents : List RevisionId) : (rowToRevisionSync row parents).content.Within K := by
  obtain ⟨id, objectId, objectType, deleted, data, createdAt, createdBy⟩ := row
  cases deleted with
  | true => trivial
  | false =>
    cases data with
    | none => cases hrow
    | some v => exact hrow

/-- A conversion that keeps all entries keeps the list. -/
theorem mapM_eq_self {f : α → Option α} : ∀ {xs : List α}, (∀ x ∈ xs, f x = some x) →
    xs.mapM f = some xs
  | [], _ => rfl
  | x :: xs, h => by
    obtain ⟨hx, hxs⟩ := List.forall_mem_cons.mp h
    rw [List.mapM_cons, hx, mapM_eq_self hxs]
    rfl

/-- Over rows that decode as they are, a statement answers as it does without a column. -/
theorem Carriage.eval_of_decoded {op : Stmt} {panicked : Bool}
    (h : ∀ row ∈ c.tables.revisions, carriage.decoded row = some row) :
    carriage.eval op (c, panicked) = ((op.eval c).1, ((op.eval c).2, panicked)) := by
  cases op with
  | selectRevisionRows ids =>
    have hrows : (c.tables.revisions.filter (·.id ∈ ids)).mapM carriage.decoded =
        some (c.tables.revisions.filter (·.id ∈ ids)) :=
      mapM_eq_self fun row hrow => h row (List.mem_of_mem_filter hrow)
    simp only [Carriage.eval, hrows, Stmt.eval]
  | _ => rfl

/-- **Over the faithful carriage, the server is `httpServer`.** -/
theorem Carriage.faithful_server (client : ClientId) :
    Carriage.faithful.server client = httpServer client := by
  have hdecoded : ∀ row : RevisionRow, Carriage.faithful.decoded row = some row := by
    rintro ⟨id, objectId, objectType, deleted, data, createdAt, createdBy⟩
    cases data <;> rfl
  have hstep : ∀ (op : Stmt) (c : Conn) (y : Conn × Bool), y = (c, false) →
      (Carriage.faithful.eval op y).1 = (op.eval c).1 ∧
        (Carriage.faithful.eval op y).2 = ((op.eval c).2, false) := by
    rintro op c _ rfl
    rw [Carriage.eval_of_decoded fun row _ => hdecoded row]
    exact ⟨rfl, rfl⟩
  have hpull : ∀ req c, (Carriage.faithful.server client).changesQuery req c =
      (Texts.exact.server client).changesQuery req c := by
    intro req c
    obtain ⟨hr, hs⟩ := Program.run_related (R := fun c y => y = (c, false)) hstep
      (authenticated client (serve (.pull client req))) (s := c) rfl
    have hrun : (authenticated client (serve (.pull client req))).run Carriage.faithful.eval
        (c, false) = (((authenticated client (serve (.pull client req))).run Stmt.eval c).1,
          (((authenticated client (serve (.pull client req))).run Stmt.eval c).2, false)) :=
      Prod.ext hr hs
    have hread : Carriage.faithful.pull req = .ok req := rfl
    simp only [Carriage.server, hread]
    rw [hrun]
    rfl
  rw [← Texts.server_exact]
  exact congrArg (Net.mk _) (funext₂ hpull)

namespace Carriage.Keeps

variable (h : carriage.Keeps K)
include h

theorem decoded {row : RevisionRow} (hrow : row.Within K) : carriage.decoded row = some row := by
  obtain ⟨id, objectId, objectType, deleted, data, createdAt, createdBy⟩ := row
  cases data with
  | none => rfl
  | some v => simp only [Carriage.decoded, h.column v hrow, Option.map_some]

theorem stored {rev : Revision} (hrev : rev.content.Within K) : carriage.stored rev = .ok rev := by
  obtain ⟨id, objectId, objectType, lineage, createdAt, createdBy, content⟩ := rev
  cases content with
  | deleted => rfl
  | active v =>
    simp only [Carriage.stored, h.store v hrev]
    rfl

theorem storedAll : ∀ {revisions : List Revision}, (∀ rev ∈ revisions, rev.content.Within K) →
    carriage.storedAll revisions = (revisions, .ok ())
  | [], _ => rfl
  | rev :: revisions, hkept => by
    obtain ⟨hrev, hkept⟩ := List.forall_mem_cons.mp hkept
    simp only [Carriage.storedAll, h.stored hrev, storedAll hkept]

/-- A pull over kept rows runs as it does without columns. -/
theorem run_pull (client : ClientId) (hc : c.tables.Within K) (req : PullRequest) :
    (authenticated client (serve (.pull client req))).run carriage.eval (c, false) =
      (((authenticated client (serve (.pull client req))).run Stmt.eval c).1,
        (((authenticated client (serve (.pull client req))).run Stmt.eval c).2, false)) := by
  have hkept : ∀ (op : Stmt) (c : Conn), LeavesRows op → c.tables.Within K →
      (op.eval c).2.tables.Within K := fun op c hop hc => by
    unfold Tables.Within
    rw [hop c]
    exact hc
  have hstep : ∀ (op : Stmt) (c : Conn) (y : Conn × Bool), y = (c, false) →
      c.tables.Within K → (carriage.eval op y).1 = (op.eval c).1 ∧
        (carriage.eval op y).2 = ((op.eval c).2, false) := by
    rintro op c _ rfl hc
    rw [Carriage.eval_of_decoded fun row hrow => h.decoded (hc row hrow)]
    exact ⟨rfl, rfl⟩
  obtain ⟨hr, hs⟩ := Program.run_related_along (R := fun c y => y = (c, false)) hstep _
    (Program.Issues.along (I := fun c : Conn => c.tables.Within K) hkept (issues_pull req) hc) rfl
  exact Prod.ext hr hs

/-- **A push of kept payloads** commits some of its batch as it is, or is refused, and what it is
answered is so. -/
theorem changes (client : ClientId) (hc : ConnInv c) {revisions : List Revision}
    (hkept : ∀ rev ∈ revisions, rev.content.Within K) : ∃ x c' batch,
    (carriage.server client).changes ⟨revisions⟩ c = (x, c') ∧ ConnInv c' ∧ batch ⊆ revisions ∧
      Commits c.tables c'.tables client c.nextval batch ∧
      ∀ resp, parsed x = some resp → Judged revisions c'.tables resp := by
  rcases hread : carriage.push ⟨revisions⟩ with status | body
  · obtain ⟨x, clients, hx, hnone⟩ : ∃ x clients,
        (carriage.server client).changes ⟨revisions⟩ c = (x, c.withClients clients) ∧
          parsed x = none := by
      simp only [Carriage.server, Texts.server, hread]
      exact overHttp_error fun resp hresp => nomatch h.pushed _ resp hresp
    refine ⟨x, c.withClients clients, [], hx, hc.withClients clients, List.nil_subset _,
      .nothing c.tables clients client c.nextval, fun resp hresp => ?_⟩
    rw [hnone] at hresp
    cases hresp
  · obtain rfl : body = ⟨revisions⟩ := h.push _ _ hkept hread
    obtain ⟨y, c', batch, hy, hconn, hsub, hcommits, hjudged⟩ := hc.changes_judged client revisions
    have hserved : (carriage.server client).changes ⟨revisions⟩ c =
        (.ok ((intoResponse (((authenticated client (pushRevisions client revisions)).run
          Stmt.eval c).1.map .pushed)).received carriage.pushed), c') := by
      simp only [Carriage.server, Texts.server, hread]
      exact (overHttp_ok rfl).trans (congrArg (Prod.mk _) (congrArg Prod.snd hy))
    refine ⟨_, c', batch, hserved, hconn, hsub, hcommits, fun resp hresp => hjudged resp ?_⟩
    have hr := parsed_received (fun a _ ha => by cases h.pushed _ _ ha; rfl) hresp
    rw [show y = _ from (congrArg Prod.fst hy).symm]
    simp only [httpServer, hr]
    rfl

/-- **A pull over kept payloads** is answered with the rows as they are, or not at all. -/
theorem changesQuery (client : ClientId) (hc : ConnInv c) (hrows : c.tables.Within K)
    (req : PullRequest) :
    ∃ x clients, (carriage.server client).changesQuery req c = (x, c.withClients clients) ∧
      ((∃ updates since passes, parsed x = some ⟨⟨c.tables.maxTransactionId⟩, updates⟩ ∧
          Answers (c.withClients clients).tables client since c.tables.maxTransactionId passes
            updates) ∨
        parsed x = none) := by
  rcases hread : carriage.pull req with status | body
  · obtain ⟨x, clients, hx, hnone⟩ : ∃ x clients,
        (carriage.server client).changesQuery req c = (x, c.withClients clients) ∧
          parsed x = none := by
      simp only [Carriage.server, Texts.server, hread]
      refine overHttp_error fun resp hresp => ?_
      cases h.pulled _ resp (fun _ hsent => by cases hsent) hresp
    exact ⟨x, clients, hx, .inr hnone⟩
  obtain ⟨y, clients, hy, hserved⟩ := hc.changesQuery client body
  have hrun : (carriage.server client).changesQuery req c =
      (.ok ((intoResponse (((authenticated client (pullChanges client body)).run
        Stmt.eval c).1.map .pulled)).received carriage.pulled), c.withClients clients) := by
    simp only [Carriage.server, hread]
    rw [h.run_pull client hrows]
    simp only [serve, run_reply, Bool.false_eq_true, if_false]
    exact congrArg (Prod.mk _) (congrArg Prod.snd hy)
  refine ⟨_, clients, hrun, ?_⟩
  rw [show y = .ok (respond _) from (congrArg Prod.fst hy).symm, parsed_respond] at hserved
  generalize ((authenticated client (pullChanges client body)).run Stmt.eval c).1 = r at hserved ⊢
  rcases hparsed : parsed (.ok ((intoResponse (r.map .pulled)).received carriage.pulled)) with
    _ | resp
  · exact .inr rfl
  left
  cases r with
  | error e => cases hparsed.symm.trans parsed_status
  | ok sent =>
    rcases hserved with ⟨updates, hsent, -, hans⟩ | hnone
    · obtain rfl : sent = ⟨⟨c.tables.maxTransactionId⟩, updates⟩ := Option.some.inj hsent
      -- the heads in the response are rows
      have hkept : ∀ u ∈ updates, ∀ rev ∈ u.heads, rev.content.Within K := fun u hu rev hrev => by
        obtain ⟨row, hrow, parents, rfl, -⟩ := hans.rows u hu rev hrev
        exact (hrows row hrow).content parents
      have hresp := parsed_received (fun a ha hbody => by
        cases ha
        cases h.pulled _ _ (fun _ hsent => by cases hsent; exact hkept) hbody
        rfl) hparsed
      cases hresp
      exact ⟨updates, _, _, rfl, hans⟩
    · cases hnone

end Carriage.Keeps

end Carriage

end Rustend
