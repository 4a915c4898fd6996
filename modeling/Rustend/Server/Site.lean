import Rustend.Server.Http
import Rustend.Server.Serial

/-!
# Runs of the site

A request over HTTP is a question to the provider, the registration of a client, and what
the handler does; the last two are sessions of the server that is modelled without HTTP.
So every run of the site is, for the database, a run of that server, and whatever holds
of its runs holds of the site.  What HTTP adds is who may do what: the client of a push
is the one that the provider has named for the address of the request.

## Main definitions

* `ServesAs`, `FilesOp` — what a request asks for, by its route.
* `Stage` — where the program of a request stands, and the two sessions it stands for.
* `Follow` — a run of the server without HTTP that follows a run of the site.
* `SiteEffect` — what one step may do.
* `SentBy` — the session that has sent a row, with the client that the provider named for it.

## Main results

* `Follow.next` — **each step of the site is followed.**
* `SiteRun.follow` — every run of the site is followed.
* `SiteRun.step_effect` — what a step does to the database, the users and the files.
* `SiteRun.authentic` — **what is stored was sent from an address that the provider took
  for its author.**
* `SiteRun.gate` — **an address that nobody vouches for changes nothing.**
* `SiteRun.mayChange` — **what may change, and at whose request.**
-/

namespace Rustend

open Interleave

/-! ### What a request asks for -/

section Requests

variable (fw : Framework)

/-- The request of the sync protocol that an authenticated request stands for. -/
inductive ServesAs (info : AuthInfo) (req : HttpRequest) : ServerRequest → Prop where
  | push {body : PushRequest} : matchRoute req.path = some .changes → req.method = .post →
      fw.jsonPush req = .ok body → ServesAs info req (.push info.clientId body.revisions)
  | pull {body : PullRequest} : matchRoute req.path = some .changesQuery → req.method = .post →
      fw.jsonPull req = .ok body → ServesAs info req (.pull info.clientId body)
  | getObject {id : String} {object : Uuid} : matchRoute req.path = some (.objects id) →
      req.method.isGet = true → fw.pathUuid id = .ok object →
      ServesAs info req (.getObject ⟨object⟩)

/-- The statement on the files that a request stands for. -/
inductive FilesOp (req : HttpRequest) : SiteOp → Prop where
  | get {id : String} {object : Uuid} : matchRoute req.path = some (.files id) →
      req.method.isGet = true → fw.pathUuid id = .ok object → FilesOp req (.selectFile object)
  | upload {id : String} {object : Uuid} {data : List UInt8} :
      matchRoute req.path = some (.files id) → req.method = .post →
      fw.pathUuid id = .ok object → fw.bytes req = .ok data →
      FilesOp req (.upsertFile object data)
  | delete {id : String} {object : Uuid} : matchRoute req.path = some (.files id) →
      req.method = .delete → fw.pathUuid id = .ok object → FilesOp req (.deleteFile object)

variable {fw} {info : AuthInfo} {req : HttpRequest}

/-- **A route serves one request, makes one statement, or just answers.** -/
theorem router_cases (fw : Framework) (info : AuthInfo) (req : HttpRequest) :
    (∃ sreq, ServesAs fw info req sreq ∧ router fw info req = served sreq) ∨
    (∃ op respond, FilesOp fw req op ∧ router fw info req = onFiles op respond) ∨
    ∃ resp, router fw info req = answered resp := by
  unfold router
  split
  · exact .inr (.inr ⟨_, rfl⟩)
  · split
    · exact .inr (.inr ⟨_, rfl⟩)
    · exact .inr (.inr ⟨_, rfl⟩)
  · next hroute =>
    split
    · next hmethod =>
      unfold Handlers.pushChanges
      split
      · next body hbody => exact .inl ⟨_, .push hroute hmethod hbody, rfl⟩
      · exact .inr (.inr ⟨_, rfl⟩)
    · exact .inr (.inr ⟨_, rfl⟩)
  · next hroute =>
    split
    · next hmethod =>
      unfold Handlers.pullChanges
      split
      · next body hbody => exact .inl ⟨_, .pull hroute hmethod hbody, rfl⟩
      · exact .inr (.inr ⟨_, rfl⟩)
    · exact .inr (.inr ⟨_, rfl⟩)
  · next id hroute =>
    split
    · next hmethod =>
      unfold Handlers.getObject
      split
      · next object hid => exact .inl ⟨_, .getObject hroute hmethod hid, rfl⟩
      · exact .inr (.inr ⟨_, rfl⟩)
    · exact .inr (.inr ⟨_, rfl⟩)
  · next id hroute =>
    split
    · next hmethod =>
      unfold Handlers.getFile
      split
      · next object hid => exact .inr (.inl ⟨_, _, .get hroute hmethod hid, rfl⟩)
      · exact .inr (.inr ⟨_, rfl⟩)
    split
    · next hmethod =>
      unfold Handlers.uploadFile
      split
      · next object hid =>
        split
        · next data hdata => exact .inr (.inl ⟨_, _, .upload hroute hmethod hid hdata, rfl⟩)
        · exact .inr (.inr ⟨_, rfl⟩)
      · exact .inr (.inr ⟨_, rfl⟩)
    split
    · next hmethod =>
      unfold Handlers.deleteFile
      split
      · next object hid => exact .inr (.inl ⟨_, _, .delete hroute hmethod hid, rfl⟩)
      · exact .inr (.inr ⟨_, rfl⟩)
    · exact .inr (.inr ⟨_, rfl⟩)

end Requests

/-! ### A push over HTTP -/

/-- The framework, on requests whose body is a push of one revision. -/
def pushFramework : Framework where
  parseIp s := if s = "10.0.0.1" then some (.v4 0x0a000001) else none
  pathUuid _ := .error 400
  jsonPush _ := .ok ⟨[Run.raceRevision 1 .root]⟩
  jsonPull _ := .error 422
  bytes req := .ok req.body

/-- The JSON text of a push of one revision. -/
def pushText : String :=
  "\x7b\"revisions\":[\x7b\"id\":\"00000000-0000-0000-0000-000000000001\"," ++
  "\"object_id\":\"00000000-0000-0000-0000-00000000000a\",\"object_type\":\"trip\"," ++
  "\"lineage\":\"Root\",\"created_at\":\"1970-01-01T00:00:00Z\"," ++
  "\"created_by\":\"00000000-0000-0000-0000-000000000007\"," ++
  "\"content\":\x7b\"Active\":null\x7d\x7d]\x7d"

/-- A push from the address 10.0.0.1. -/
def pushRequest : HttpRequest where
  peer := some (.v4 0x0a000001)
  headers := [("content-type", "application/json".toUTF8.toList)]
  method := .post
  path := ["changes"]
  body := pushText.toUTF8.toList

/-- The provider takes the address for client 7, and every statement is executed. -/
def pushLabels : List (Label ℕ SiteOutcome HttpRequest) :=
  [.start 0 pushRequest, .step 0 (.provider (.ok ⟨⟨⟨7⟩⟩, ⟨⟨70⟩⟩, ["writer"]⟩))] ++
    List.replicate 8 (.step 0 (.sql .proceed))

/-- The status of the response to the request of session `i`, once there is one. -/
def statusOf (c : Config (sql.sum outside) ServerError ℕ HttpRequest WebResponse Site) (i : ℕ) :
    Option ℕ :=
  match c.procs i with
  | some (_, .done (.ok resp)) => some resp.status
  | _ => none

theorem statusOf_eq_some {c : Config (sql.sum outside) ServerError ℕ HttpRequest WebResponse Site}
    {i status : ℕ} (h : statusOf c i = some status) :
    ∃ req resp, c.procs i = some (req, .done (.ok resp)) ∧ resp.status = status := by
  unfold statusOf at h
  split at h
  · next req resp hi => exact ⟨req, resp, hi, Option.some.inj h⟩
  · cases h

/-! ### Stages -/

/-- A session of the server without HTTP. -/
abbrev Session := Option (ServerRequest × Sql ServerReply)

/-- What is left of a request of the sync protocol, and of its response. -/
abbrev serving (q : Sql ServerReply) : Web WebResponse :=
  q.inl.settle fun r => answered (intoResponse r)

section Stages

variable (fw : Framework) (store : ServerStore)

/-- Where the program of a request stands: what the provider has said, the session that
registers the client, the one that serves the request, and what is left of the program. -/
inductive Stage (req : HttpRequest) :
    Option (IpAddr × AuthInfo) → Session → Session → Web WebResponse → Prop where
  | asking {ip : IpAddr} : extractIp fw store req = some ip →
      Stage req none none none
        (.call (S := sql.sum outside) (.inr (.authenticate ip)) (onAuthenticated fw req))
  | turnedAway {resp : WebResponse} : resp = unauthenticated ∨ resp = providerError →
      Stage req none none none (answered resp)
  | registering {ip : IpAddr} {info : AuthInfo} : extractIp fw store req = some ip →
      Stage req (some (ip, info)) none none (registerThen fw info req)
  | serving {ip : IpAddr} {info : AuthInfo} {p q : Sql ServerReply} {sreq : ServerRequest} :
      extractIp fw store req = some ip → ServesAs fw info req sreq →
      Stage req (some (ip, info)) (some (.register info.clientId, p)) (some (sreq, q)) (serving q)
  | filing {ip : IpAddr} {info : AuthInfo} {p : Sql ServerReply} {op : SiteOp}
      {respond : op.Res → WebResponse} : extractIp fw store req = some ip → FilesOp fw req op →
      Stage req (some (ip, info)) (some (.register info.clientId, p)) none (onFiles op respond)
  | answered {ip : IpAddr} {info : AuthInfo} {p : Sql ServerReply} {resp : WebResponse} :
      extractIp fw store req = some ip →
      Stage req (some (ip, info)) (some (.register info.clientId, p)) none (answered resp)

/-- The server without HTTP follows the site: its database is the site's, and its sessions
are those that the requests stand for. -/
structure Follow (c : Config (sql.sum outside) ServerError ℕ HttpRequest WebResponse Site)
    (d : Config sql ServerError ℕ ServerRequest ServerReply Db) : Prop where
  shared : d.shared = c.shared.db
  idle : ∀ i, c.procs i = none →
    c.shared.granted i = none ∧ d.procs (2 * i) = none ∧ d.procs (2 * i + 1) = none
  stage : ∀ i req p, c.procs i = some (req, p) →
    Stage fw store req (c.shared.granted i) (d.procs (2 * i)) (d.procs (2 * i + 1)) p

variable {fw store} {c c' : Config (sql.sum outside) ServerError ℕ HttpRequest WebResponse Site}
  {d d' d'' : Config sql ServerError ℕ ServerRequest ServerReply Db}

theorem Follow.init : Follow fw store (Config.init Site.empty) (Config.init Db.empty) :=
  ⟨rfl, fun _ _ => ⟨rfl, rfl, rfl⟩, fun i req p h => by cases h⟩

/-- A request starts with the question to the provider, or it is turned away. -/
theorem stage_launch (req : HttpRequest) :
    Stage fw store req none none none (authService fw store req) := by
  unfold authService
  split
  · exact .turnedAway (.inl rfl)
  · next ip hip => exact .asking hip

/-- What the other sessions of the site stand for is left alone. -/
theorem Follow.update (h : Follow fw store c d) {i : ℕ} {req : HttpRequest}
    {p : Web WebResponse} (hprocs : c'.procs = Function.update c.procs i (some (req, p)))
    (hgranted : ∀ j, j ≠ i → c'.shared.granted j = c.shared.granted j)
    (hshared : d'.shared = c'.shared.db)
    (hothers : ∀ j, j ≠ i → d'.procs (2 * j) = d.procs (2 * j) ∧
      d'.procs (2 * j + 1) = d.procs (2 * j + 1))
    (hstage : Stage fw store req (c'.shared.granted i) (d'.procs (2 * i))
      (d'.procs (2 * i + 1)) p) :
    Follow fw store c' d' := by
  refine ⟨hshared, fun j hj => ?_, fun j req' q hj => ?_⟩ <;>
    rw [hprocs, Function.update_apply] at hj <;> split at hj
  · cases hj
  · next hji =>
    rw [hgranted j hji, (hothers j hji).1, (hothers j hji).2]
    exact h.idle j hj
  · next hji =>
    subst hji
    cases hj
    exact hstage
  · next hji =>
    rw [hgranted j hji, (hothers j hji).1, (hothers j hji).2]
    exact h.stage j req' q hj

/-- Starting a session of the server. -/
theorem Run.start (hd : Run d) {k : ℕ} (hk : d.procs k = none) (sreq : ServerRequest) :
    Run { d with procs := Function.update d.procs k (some (sreq, serve sreq)) } := by
  refine hd.next (l := .start k sreq) trivial ?_
  simp only [Config.next, hk]

/-- Answering its pending statement. -/
theorem Run.answer (hd : Run d) {k : ℕ} {sreq : ServerRequest} {op : Stmt}
    {next : Except ServerError op.Res → Sql ServerReply}
    (hk : d.procs k = some (sreq, .call (S := sql) op next)) {o : Outcome}
    {x : Except ServerError op.Res × Db} (hx : d.shared.exec k op o = some x) :
    Run { shared := x.2, procs := Function.update d.procs k (some (sreq, next x.1)) } := by
  refine hd.next (l := .step k o) trivial ?_
  simp only [Config.next, hk, postgres, hx, Option.map_some]

theorem odd_ne_even {i j : ℕ} : 2 * j + 1 ≠ 2 * i := by omega

/-- The statement that registers a client is a session of its own. -/
theorem Run.registering (hd : Run d) {k : ℕ} {client : ClientId} (hk : d.procs k = none)
    {o : Outcome} {x : Except ServerError Unit × Db}
    (hx : d.shared.exec k (.upsertClient client) o = some x) :
    ∃ d' q, Run d' ∧ d'.shared = x.2 ∧ d'.procs k = some (.register client, q) ∧
      ∀ j, j ≠ k → d'.procs j = d.procs j := by
  have hstart := hd.start hk (.register client)
  have hstep := @Run.answer _ hstart k (.register client) (.upsertClient client) _
    (Function.update_self ..) _ _ hx
  refine ⟨_, _, hstep, rfl, Function.update_self .., fun j hj => ?_⟩
  simp only [Function.update_of_ne hj]

theorem autocommit_cases {α : Type} {a : α} {done failed s' : Site} {ch : SiteOutcome}
    {r : Except ServerError α} (h : autocommit a done failed ch = some (r, s')) :
    s' = done ∨ s' = failed := by
  rcases ch with o | answer
  · cases o <;> cases h
    · exact .inl rfl
    · exact .inr rfl
    · exact .inl rfl
  · cases h

/-- A statement on the files leaves everything else alone. -/
theorem FilesOp.exec {req : HttpRequest} {op : SiteOp} (h : FilesOp fw req op) {s s' : Site}
    {i : ℕ} {ch : SiteOutcome} {r : Except ServerError op.Res}
    (hx : s.exec i ch (.inr op) = some (r, s')) :
    s'.db = s.db ∧ s'.users = s.users ∧ s'.granted = s.granted := by
  cases h <;> rcases autocommit_cases hx with rfl | rfl <;> exact ⟨rfl, rfl, rfl⟩

/-- **Each step of the site is followed**, by as many steps of the server as it takes. -/
theorem Follow.next (h : Follow fw store c d) (hd : Run d)
    {l : Label ℕ SiteOutcome HttpRequest} (hn : c.next site (authService fw store) l = some c') :
    ∃ d', Run d' ∧ Follow fw store c' d' := by
  rcases Config.next_cases hn with ⟨i, req, -, hi, hs, hp⟩ |
    ⟨i, ch, req, op, next, r, -, hi, hx, hp⟩
  · obtain ⟨hg, hreg, hsrv⟩ := h.idle i hi
    refine ⟨d, hd, h.update hp (fun j _ => by rw [hs]) (by rw [hs]; exact h.shared)
      (fun j _ => ⟨rfl, rfl⟩) ?_⟩
    rw [hs, hg, hreg, hsrv]
    exact stage_launch req
  have hstage := h.stage i req _ hi
  generalize hgm : Program.call op next = p at hstage
  generalize hgr : c.shared.granted i = g at hstage
  generalize hrg : d.procs (2 * i) = reg at hstage
  generalize hsv : d.procs (2 * i + 1) = srv at hstage
  cases hstage with
  | turnedAway => cases hgm
  | answered => cases hgm
  | @asking ip hip =>
    -- the provider answers, and the database does not notice
    cases hgm
    rcases ch with o | e | info <;>
      simp only [site, Site.exec, Option.some.injEq, Prod.mk.injEq, reduceCtorEq] at hx
    · obtain ⟨rfl, hs⟩ := hx
      refine ⟨d, hd, h.update hp (fun j _ => by rw [← hs]) (by rw [← hs]; exact h.shared)
        (fun j _ => ⟨rfl, rfl⟩) ?_⟩
      rw [← hs, hgr, hrg, hsv]
      cases e with
      | unauthenticated => exact .turnedAway (.inl rfl)
      | internal msg => exact .turnedAway (.inr rfl)
    · obtain ⟨rfl, hs⟩ := hx
      refine ⟨d, hd, h.update hp (fun j hj => ?_) (by rw [← hs]; exact h.shared)
        (fun j _ => ⟨rfl, rfl⟩) ?_⟩
      · rw [← hs]
        exact Function.update_of_ne hj ..
      · rw [← hs, hrg, hsv]
        dsimp only
        rw [Function.update_self]
        exact .registering hip
  | @registering ip info hip =>
    -- a session that registers the client, and perhaps the start of another
    cases hgm
    rcases ch with o | a <;> simp only [site, Site.exec, reduceCtorEq] at hx
    obtain ⟨x, hexec, heq⟩ := Option.map_eq_some_iff.mp hx
    obtain ⟨rfl, hs⟩ := Prod.mk.inj heq
    obtain ⟨d₁, q, hd₁, hshared, hreg, hothers⟩ := Run.registering hd hrg (h.shared ▸ hexec)
    have hgranted : c'.shared.granted = c.shared.granted := by rw [← hs]
    have hdb : c'.shared.db = x.2 := by rw [← hs]
    have hsrv : d₁.procs (2 * i + 1) = none := (hothers _ odd_ne_even).trans hsv
    have hrest : ∀ j, j ≠ i → d₁.procs (2 * j) = d.procs (2 * j) ∧
        d₁.procs (2 * j + 1) = d.procs (2 * j + 1) :=
      fun j hj => ⟨hothers _ (by omega), hothers _ odd_ne_even⟩
    have hstay : ∀ {resp : Web WebResponse}, Stage fw store req (some (ip, info))
        (some (.register info.clientId, q)) none resp →
        c'.procs = Function.update c.procs i (some (req, resp)) →
        ∃ d', Run d' ∧ Follow fw store c' d' := by
      intro resp hresp hprocs
      refine ⟨d₁, hd₁, h.update hprocs (fun j _ => by rw [hgranted]) (hshared.trans hdb.symm)
        hrest ?_⟩
      rw [hgranted, hgr, hreg, hsrv]
      exact hresp
    rcases hx1 : x.1 with e | u
    · rw [hx1] at hp
      exact hstay (.answered hip) hp
    rw [hx1] at hp
    rcases router_cases fw info req with
      ⟨sreq, hserves, hrouter⟩ | ⟨op, respond, hfiles, hrouter⟩ | ⟨resp, hrouter⟩
    · -- the handler starts
      have hp' : c'.procs = Function.update c.procs i (some (req, serving (serve sreq))) :=
        hp.trans (by dsimp only; rw [hrouter]; rfl)
      refine ⟨_, Run.start hd₁ hsrv sreq, h.update hp' (fun j _ => by rw [hgranted])
        (hshared.trans hdb.symm) (fun j hj => ?_) ?_⟩
      · dsimp only
        rw [Function.update_of_ne (by omega), Function.update_of_ne (by omega)]
        exact hrest j hj
      · dsimp only
        rw [hgranted, hgr, Function.update_of_ne (by omega), hreg, Function.update_self]
        exact .serving hip hserves
    · exact hstay (.filing hip hfiles) (hp.trans (by dsimp only; rw [hrouter]))
    · exact hstay (.answered hip) (hp.trans (by dsimp only; rw [hrouter]))
  | @serving ip info q₀ q sreq hip hserves =>
    -- the handler's statement is the session's
    cases q with
    | done r => cases hgm
    | call op' next' =>
      cases hgm
      rcases ch with o | a <;> simp only [site, Site.exec, reduceCtorEq] at hx
      obtain ⟨x, hexec, heq⟩ := Option.map_eq_some_iff.mp hx
      obtain ⟨rfl, hs⟩ := Prod.mk.inj heq
      have hgranted : c'.shared.granted = c.shared.granted := by rw [← hs]
      refine ⟨_, Run.answer hd hsv (h.shared ▸ hexec), h.update hp (fun j _ => by rw [hgranted])
        (by rw [← hs]) (fun j hj => ?_) ?_⟩
      · dsimp only
        rw [Function.update_of_ne (by omega), Function.update_of_ne (by omega)]
        exact ⟨rfl, rfl⟩
      · dsimp only
        rw [hgranted, hgr, Function.update_of_ne (by omega), hrg, Function.update_self]
        exact .serving hip hserves
  | @filing ip info q op respond hip hfiles =>
    cases hgm
    obtain ⟨hdb, -, hgranted⟩ := hfiles.exec hx
    refine ⟨d, hd, h.update hp (fun j _ => by rw [hgranted]) (by rw [hdb]; exact h.shared)
      (fun j _ => ⟨rfl, rfl⟩) ?_⟩
    rw [hgranted, hgr, hrg, hsv]
    cases r with
    | ok a => exact .answered hip
    | error e => exact .answered hip

/-- **Every run of the site is followed** by a run of the server without HTTP. -/
theorem SiteRun.follow (hc : SiteRun fw store c) : ∃ d, Run d ∧ Follow fw store c d := by
  induction hc with
  | init => exact ⟨_, .init, .init⟩
  | next _ _ hn ih =>
    obtain ⟨d, hd, h⟩ := ih
    exact h.next hd hn

/-! ### What a step does -/

/-- A registration adds the client, if it changes the tables at all. -/
theorem Db.exec_upsertClient {db db' : Db} {k : ℕ} {client : ClientId} {o : Outcome}
    {r : Except ServerError Unit} (hx : db.exec k (.upsertClient client) o = some (r, db')) :
    db'.tables = db.tables ∨
      db'.tables = { db.tables with clients := db.tables.clients ++ [client] } := by
  have hdone : (db.withConn k ((Stmt.upsertClient client).eval (db.conn k)).2).tables = db.tables ∨
      (db.withConn k ((Stmt.upsertClient client).eval (db.conn k)).2).tables =
        { db.tables with clients := db.tables.clients ++ [client] } := by
    rw [Db.withConn_tables, Stmt.eval]
    split
    · exact .inl rfl
    · exact .inr rfl
  rcases Db.exec_cases hx with ⟨-, -, rfl⟩ | ⟨-, -, ⟨-, rfl⟩ | ⟨hpl, -⟩ | ⟨-, rfl⟩⟩
  · exact hdone
  · exact .inl rfl
  · cases hpl
  · exact hdone

/-- What a step of a session does, for a request of which the provider has said `g`. -/
inductive SiteEffect (fw : Framework) (store : ServerStore) (req : HttpRequest)
    (g : Option (IpAddr × AuthInfo)) (s s' : Site) : Prop where
  | asks : s'.db = s.db → s'.users = s.users → s'.files = s.files → SiteEffect fw store req g s s'
  | registers {ip : IpAddr} {info : AuthInfo} : extractIp fw store req = some ip →
      g = some (ip, info) →
      (s'.db.tables = s.db.tables ∨
        s'.db.tables = { s.db.tables with clients := s.db.tables.clients ++ [info.clientId] }) →
      (s'.users = s.users ∨ s'.users = upsertRow s.users info.clientId info.userId) →
      s'.files = s.files → SiteEffect fw store req g s s'
  | serves {ip : IpAddr} {info : AuthInfo} {sreq : ServerRequest} :
    extractIp fw store req = some ip →
      g = some (ip, info) → ServesAs fw info req sreq →
      sreq.Effect s.db.tables s'.db.tables → s'.users = s.users → s'.files = s.files →
      SiteEffect fw store req g s s'
  | stores {op : SiteOp} : FilesOp fw req op → s'.db = s.db → s'.users = s.users →
      ((∃ object, op = .selectFile object) → s'.files = s.files) → SiteEffect fw store req g s s'

/-- **What a step of a session does**, whoever it is and whatever comes of its request. -/
theorem SiteRun.step_effect (hc : SiteRun fw store c) {i : ℕ} {ch : SiteOutcome} {req : HttpRequest}
    {p : Web WebResponse} (hi : c.procs i = some (req, p))
    (hn : c.next site (authService fw store) (.step i ch) = some c') :
    SiteEffect fw store req (c.shared.granted i) c.shared c'.shared := by
  obtain ⟨d, hd, h⟩ := hc.follow
  have hstage := h.stage i req p hi
  rcases Config.next_cases hn with ⟨_, _, hl, -⟩ | ⟨j, ch', req', op, next, r, hl, hj, hx, hp⟩
  · cases hl
  cases hl
  rw [hi] at hj
  cases hj
  generalize hgm : Program.call op next = p at hstage
  generalize c.shared.granted i = g at hstage
  generalize hrg : d.procs (2 * i) = reg at hstage
  generalize hsv : d.procs (2 * i + 1) = srv at hstage
  cases hstage with
  | turnedAway => cases hgm
  | answered => cases hgm
  | @asking ip hip =>
    cases hgm
    rcases ch with o | e | info <;>
      simp only [site, Site.exec, Option.some.injEq, Prod.mk.injEq, reduceCtorEq] at hx <;>
      (obtain ⟨-, hs⟩ := hx; rw [← hs]; exact .asks rfl rfl rfl)
  | @registering ip info hip =>
    cases hgm
    rcases ch with o | a <;> simp only [site, Site.exec, reduceCtorEq] at hx
    obtain ⟨x, hexec, heq⟩ := Option.map_eq_some_iff.mp hx
    obtain ⟨rfl, hs⟩ := Prod.mk.inj heq
    have htables := Db.exec_upsertClient hexec
    rw [← hs]
    refine .registers hip rfl htables ?_ rfl
    dsimp only
    split
    · exact .inl rfl
    · exact .inr rfl
  | @serving ip info q₀ q sreq hip hserves =>
    cases q with
    | done r => cases hgm
    | call op' next' =>
      cases hgm
      rcases ch with o | a <;> simp only [site, Site.exec, reduceCtorEq] at hx
      obtain ⟨x, hexec, heq⟩ := Option.map_eq_some_iff.mp hx
      obtain ⟨rfl, hs⟩ := Prod.mk.inj heq
      -- what the session of the server may do to the tables
      rw [← h.shared] at hexec
      have hstep : d.next postgres serve (.step (2 * i + 1) o) = some
          ⟨x.2, Function.update d.procs (2 * i + 1) (some (sreq, next' x.1))⟩ := by
        simp only [Config.next, hsv, postgres, hexec, Option.map_some]
      have heff := (hd.guar compatible DbInv.empty (fun _ => rfl) trivial hstep hsv hd.dbInv).2.2.2
      dsimp only at heff
      rw [h.shared] at heff
      rw [← hs]
      exact .serves hip rfl hserves heff rfl rfl
  | @filing ip info q op respond hip hfiles =>
    cases hgm
    obtain ⟨hdb, husers, -⟩ := hfiles.exec hx
    refine .stores hfiles hdb husers ?_
    rintro ⟨object, rfl⟩
    -- a read leaves the files, however it comes out
    rcases autocommit_cases hx with hs | hs <;> exact congrArg Site.files hs

/-- The commit of a push over HTTP. -/
theorem SiteRun.push_commit : ∃ c c', SiteRun pushFramework .new c ∧
    c.next site (authService pushFramework .new) (.step 0 (.sql .proceed)) = some c' ∧
    c.shared.db.tables.revisions = [] ∧
    c'.shared.db.tables.revisions = [(Run.raceRevision 1 .root).row.stored] := by
  have h : ((Config.init Site.empty).runLabels site (authService pushFramework .new)
      pushLabels.dropLast).bind (fun c => (c.next site (authService pushFramework .new)
        (.step 0 (.sql .proceed))).map fun c' =>
          (c.shared.db.tables.revisions, c'.shared.db.tables.revisions)) =
      some ([], [(Run.raceRevision 1 .root).row.stored]) := by
    decide +kernel
  obtain ⟨c, hrun, h⟩ := Option.bind_eq_some_iff.mp h
  obtain ⟨c', hn, heq⟩ := Option.map_eq_some_iff.mp h
  obtain ⟨hbefore, hafter⟩ := Prod.mk.inj heq
  exact ⟨c, c', Reachable.runLabels .init (fun _ _ _ => trivial) hrun, hn, hbefore, hafter⟩

/-! ### Who may do what -/

/-- The session `i` of `c` has sent the row: it serves a `POST /changes` with the row's revision in
its body, and the provider has named the row's author for the address of that request. -/
def SentBy (fw : Framework) (store : ServerStore)
    (c : Config (sql.sum outside) ServerError ℕ HttpRequest WebResponse Site) (i : ℕ)
    (row : RevisionRow) : Prop :=
  ∃ req p ip info body rev, c.procs i = some (req, p) ∧ extractIp fw store req = some ip ∧
    c.shared.granted i = some (ip, info) ∧ info.clientId = row.createdBy ∧
    matchRoute req.path = some .changes ∧ req.method = .post ∧ fw.jsonPush req = .ok body ∧
    rev ∈ body.revisions ∧ row = rev.row.stored

/-- A step that stores a row is one of a session that has sent it. -/
theorem SiteRun.sentBy_step (hc : SiteRun fw store c) {l : Label ℕ SiteOutcome HttpRequest}
    (hn : c.next site (authService fw store) l = some c') {row : RevisionRow}
    (hnew : row ∉ c.shared.db.tables.revisions) (hrow : row ∈ c'.shared.db.tables.revisions) :
    ∃ i ch, l = .step i ch ∧ SentBy fw store c i row := by
  rcases Config.next_cases hn with ⟨i, req, -, -, hs, -⟩ | ⟨i, ch, req, op, next, r, rfl, hi, -, -⟩
  · rw [hs] at hrow
    exact absurd hrow hnew
  refine ⟨i, ch, rfl, req, .call op next, ?_⟩
  cases SiteRun.step_effect hc hi hn with
  | asks hdb =>
    rw [hdb] at hrow
    exact absurd hrow hnew
  | registers _ _ htables =>
    rcases htables with ht | ht <;> rw [ht] at hrow <;> exact absurd hrow hnew
  | stores _ hdb =>
    rw [hdb] at hrow
    exact absurd hrow hnew
  | @serves ip info sreq hip hg hserves heff =>
    cases hserves with
    | pull =>
      rw [show c'.shared.db.tables = _ from heff] at hrow
      exact absurd hrow hnew
    | getObject =>
      rw [show c'.shared.db.tables = _ from heff] at hrow
      exact absurd hrow hnew
    | @push body hroute hmethod hbody =>
      rcases heff with ht | ⟨n, batch, hsub, hv, ha⟩
      · rw [ht] at hrow
        exact absurd hrow hnew
      · rw [ha.revisions] at hrow
        obtain ⟨rev, hrev, rfl⟩ := List.mem_map.mp ((List.mem_append.mp hrow).resolve_left hnew)
        exact ⟨ip, info, body, rev, hi, hip, hg, (hv.accepts.createdBy rev hrev).symm, hroute,
          hmethod, hbody, hsub.subset hrev, rfl⟩

/-- What the provider has said stays. -/
theorem SiteRun.granted_next (hc : SiteRun fw store c) {l : Label ℕ SiteOutcome HttpRequest}
    (hn : c.next site (authService fw store) l = some c') {i : ℕ} {g : IpAddr × AuthInfo}
    (hg : c.shared.granted i = some g) : c'.shared.granted i = some g := by
  obtain ⟨d, -, h⟩ := hc.follow
  rcases Config.next_cases hn with ⟨_, _, -, -, hs, -⟩ | ⟨j, ch, req, op, next, r, -, hj, hx, -⟩
  · rw [hs, hg]
  have hstage := h.stage j req _ hj
  generalize hgm : Program.call op next = p at hstage
  generalize hgj : c.shared.granted j = gj at hstage
  generalize d.procs (2 * j) = reg at hstage
  generalize d.procs (2 * j + 1) = srv at hstage
  cases hstage with
  | turnedAway => cases hgm
  | answered => cases hgm
  | @asking ip hip =>
    -- only a session of which nothing has been said asks
    have hij : i ≠ j := by
      rintro rfl
      rw [hg] at hgj
      cases hgj
    cases hgm
    rcases ch with o | e | info <;>
      simp only [site, Site.exec, Option.some.injEq, Prod.mk.injEq, reduceCtorEq] at hx
    · rw [← hx.2, hg]
    · rw [← hx.2, ← hg]
      exact Function.update_of_ne hij ..
  | registering =>
    cases hgm
    rcases ch with o | a <;> simp only [site, Site.exec, reduceCtorEq] at hx
    obtain ⟨x, -, heq⟩ := Option.map_eq_some_iff.mp hx
    rw [← (Prod.mk.inj heq).2, hg]
  | @serving ip info q₀ q sreq =>
    cases q with
    | done r => cases hgm
    | call op' next' =>
      cases hgm
      rcases ch with o | a <;> simp only [site, Site.exec, reduceCtorEq] at hx
      obtain ⟨x, -, heq⟩ := Option.map_eq_some_iff.mp hx
      rw [← (Prod.mk.inj heq).2, hg]
  | filing _ hfiles =>
    cases hgm
    rw [(hfiles.exec hx).2.2, hg]

/-- A session that has sent a row has still sent it. -/
theorem SentBy.next {i : ℕ} {row : RevisionRow} (h : SentBy fw store c i row)
    (hc : SiteRun fw store c) {l : Label ℕ SiteOutcome HttpRequest}
    (hn : c.next site (authService fw store) l = some c') : SentBy fw store c' i row := by
  obtain ⟨req, p, ip, info, body, rev, hi, hip, hg, hrest⟩ := h
  obtain ⟨p', hp'⟩ := Config.next_procs hn hi
  exact ⟨req, p', ip, info, body, rev, hp', hip, SiteRun.granted_next hc hn hg, hrest⟩

/-- **What is stored was sent from an address that the provider took for its author**: each
row of `revisions` was sent by a session, and whichever step has stored it, or will store
another, is a step of a session that has sent that row. -/
theorem SiteRun.authentic (hc : SiteRun fw store c) :
    (∀ row ∈ c.shared.db.tables.revisions, ∃ i, SentBy fw store c i row) ∧
    ∀ l c', c.next site (authService fw store) l = some c' →
      ∀ row ∈ c'.shared.db.tables.revisions, row ∉ c.shared.db.tables.revisions →
        ∃ i ch, l = .step i ch ∧ SentBy fw store c i row := by
  refine ⟨?_, fun l c' hn row hrow hnew => SiteRun.sentBy_step hc hn hnew hrow⟩
  induction hc with
  | init => exact fun row hrow => nomatch hrow
  | @next c c' l hc _ hn ih =>
    intro row hrow
    by_cases hold : row ∈ c.shared.db.tables.revisions
    · obtain ⟨i, hi⟩ := ih row hold
      exact ⟨i, hi.next hc hn⟩
    · obtain ⟨i, ch, -, hi⟩ := SiteRun.sentBy_step hc hn hold hrow
      exact ⟨i, hi.next hc hn⟩

/-- The commit of a push, and the session that has sent what it stores. -/
theorem SiteRun.authentic_push : ∃ c c', SiteRun pushFramework .new c ∧
    c.next site (authService pushFramework .new) (.step 0 (.sql .proceed)) = some c' ∧
    c.shared.db.tables.revisions = [] ∧
    c'.shared.db.tables.revisions = [(Run.raceRevision 1 .root).row.stored] ∧
    SentBy pushFramework .new c 0 (Run.raceRevision 1 .root).row.stored ∧
    ∃ i, SentBy pushFramework .new c' i (Run.raceRevision 1 .root).row.stored := by
  obtain ⟨c, c', hc, hn, hbefore, hafter⟩ := SiteRun.push_commit
  have hrow : (Run.raceRevision 1 .root).row.stored ∈ c'.shared.db.tables.revisions := by
    rw [hafter]
    exact List.mem_singleton_self _
  obtain ⟨i, ch, hl, hi⟩ := (SiteRun.authentic hc).2 _ c' hn _ hrow (by rw [hbefore]; exact nofun)
  cases hl
  exact ⟨c, c', hc, hn, hbefore, hafter, hi, (SiteRun.authentic (hc.next trivial hn)).1 _ hrow⟩

/-- **An address that the provider has not vouched for** changes nothing, and learns nothing
but that it is refused. -/
theorem SiteRun.gate (hc : SiteRun fw store c) {i : ℕ} {req : HttpRequest} {p : Web WebResponse}
    (hi : c.procs i = some (req, p)) (hg : c.shared.granted i = none) :
    (∀ r, p = .done r → r = .ok unauthenticated ∨ r = .ok providerError) ∧
    ∀ ch c', c.next site (authService fw store) (.step i ch) = some c' →
      c'.shared.db = c.shared.db ∧ c'.shared.users = c.shared.users ∧
        c'.shared.files = c.shared.files := by
  obtain ⟨d, -, h⟩ := hc.follow
  have hstage := h.stage i req p hi
  rw [hg] at hstage
  generalize d.procs (2 * i) = reg at hstage
  generalize d.procs (2 * i + 1) = srv at hstage
  cases hstage with
  | @asking ip hip =>
    refine ⟨fun r hr => (by cases hr), fun ch c' hn => ?_⟩
    rcases Config.next_cases hn with ⟨_, _, hl, -⟩ | ⟨j, ch', req', op, next, r, hl, hj, hx, -⟩
    · cases hl
    · cases hl
      rw [hi] at hj
      cases hj
      rcases ch with o | e | info <;>
        simp only [site, Site.exec, Option.some.injEq, Prod.mk.injEq, reduceCtorEq] at hx <;>
        (obtain ⟨-, hs⟩ := hx; rw [← hs]; exact ⟨rfl, rfl, rfl⟩)
  | @turnedAway resp hresp =>
    refine ⟨fun r hr => ?_, fun ch c' hn => ?_⟩
    · cases hr
      rcases hresp with rfl | rfl
      · exact .inl rfl
      · exact .inr rfl
    · rcases Config.next_cases hn with ⟨_, _, hl, -⟩ | ⟨j, ch', req', op, next, r, hl, hj, -, -⟩
      · cases hl
      · cases hl
        rw [hi] at hj
        cases hj

/-- A request that the provider refuses. -/
theorem SiteRun.gate_refused : ∃ c req p, SiteRun pushFramework .new c ∧
    c.procs 0 = some (req, p) ∧ statusOf c 0 = some 401 ∧
    ∀ r, p = .done r → r = .ok unauthenticated ∨ r = .ok providerError := by
  have h : ((Config.init Site.empty).runLabels site (authService pushFramework .new)
      [.start 0 pushRequest, .step 0 (.provider (.error .unauthenticated))]).map
      (fun c => (statusOf c 0, (c.shared.granted 0).isSome)) = some (some 401, false) := by
    decide +kernel
  obtain ⟨c, hrun, heq⟩ := Option.map_eq_some_iff.mp h
  obtain ⟨hstatus, hg⟩ := Prod.mk.inj heq
  have hc : SiteRun pushFramework .new c := Reachable.runLabels .init (fun _ _ _ => trivial) hrun
  obtain ⟨req, resp, hi, -⟩ := statusOf_eq_some hstatus
  have hgate := SiteRun.gate hc hi (Option.not_isSome_iff_eq_none.mp (by simp [hg]))
  exact ⟨c, req, _, hc, hi, hstatus, hgate.1⟩

/-- The tables without the registered clients. -/
def Tables.history (t : Tables) : Tables := { t with clients := [] }

/-- **What may change, and at whose request**: the history of revisions only with a
`POST /changes`, the files only with a `POST` or a `DELETE` of a file, and the clients and
their users only by what the provider has said of the address of the request. -/
theorem SiteRun.mayChange (hc : SiteRun fw store c) {i : ℕ} {ch : SiteOutcome} {req : HttpRequest}
    {p : Web WebResponse} (hi : c.procs i = some (req, p))
    (hn : c.next site (authService fw store) (.step i ch) = some c') :
    (c'.shared.db.tables.history ≠ c.shared.db.tables.history →
      matchRoute req.path = some .changes ∧ req.method = .post) ∧
    (c'.shared.files ≠ c.shared.files →
      (∃ id, matchRoute req.path = some (.files id)) ∧
        (req.method = .post ∨ req.method = .delete)) ∧
    (c'.shared.db.tables.clients ≠ c.shared.db.tables.clients ∨ c'.shared.users ≠ c.shared.users →
      ∃ ip info, extractIp fw store req = some ip ∧ c.shared.granted i = some (ip, info) ∧
        (c'.shared.db.tables.clients = c.shared.db.tables.clients ∨
          c'.shared.db.tables.clients = c.shared.db.tables.clients ++ [info.clientId]) ∧
        (c'.shared.users = c.shared.users ∨
          c'.shared.users = upsertRow c.shared.users info.clientId info.userId)) := by
  cases SiteRun.step_effect hc hi hn with
  | asks hdb husers hfiles =>
    rw [hdb, husers, hfiles]
    simp
  | @registers ip info hip hg htables husers hfiles =>
    refine ⟨fun hne => absurd ?_ hne, fun hne => absurd hfiles hne,
      fun _ => ⟨ip, info, hip, hg, ?_, husers⟩⟩
    · rcases htables with ht | ht
      · rw [ht]
      · rw [ht]
        rfl
    · exact htables.imp (congrArg Tables.clients) (congrArg Tables.clients)
  | @serves ip info sreq hip hg hserves heff husers hfiles =>
    rw [husers, hfiles]
    cases hserves with
    | push hroute hmethod hbody =>
      refine ⟨fun _ => ⟨hroute, hmethod⟩, fun hne => absurd rfl hne, fun hne => absurd ?_
        (hne.resolve_right fun hu => hu rfl)⟩
      rcases heff with ht | ⟨n, batch, -, -, ha⟩
      · rw [ht]
      · exact ha.clients
    | pull =>
      rw [show c'.shared.db.tables = _ from heff]
      simp
    | getObject =>
      rw [show c'.shared.db.tables = _ from heff]
      simp
  | stores hop hdb husers hread =>
    rw [hdb, husers]
    refine ⟨fun hne => absurd rfl hne, fun hne => ?_, fun hne => by simp at hne⟩
    cases hop with
    | get => exact absurd (hread ⟨_, rfl⟩) hne
    | @upload id object data hroute hmethod => exact ⟨⟨id, hroute⟩, .inl hmethod⟩
    | @delete id object hroute hmethod => exact ⟨⟨id, hroute⟩, .inr hmethod⟩

/-- The commit of a push changes the history. -/
theorem SiteRun.mayChange_commit : ∃ (c c' : Config (sql.sum outside) ServerError ℕ HttpRequest
    WebResponse Site) (req : HttpRequest) (p : Web WebResponse), SiteRun pushFramework .new c ∧
    c.next site (authService pushFramework .new) (.step 0 (.sql .proceed)) = some c' ∧
    c'.shared.db.tables.history ≠ c.shared.db.tables.history ∧ c.procs 0 = some (req, p) ∧
    matchRoute req.path = some .changes ∧ req.method = .post := by
  obtain ⟨c, c', hc, hn, hbefore, hafter⟩ := SiteRun.push_commit
  have hne : c'.shared.db.tables.history ≠ c.shared.db.tables.history := by
    intro hsame
    have hrevs : c'.shared.db.tables.history.revisions = c.shared.db.tables.history.revisions :=
      congrArg Tables.revisions hsame
    replace hrevs : c'.shared.db.tables.revisions = c.shared.db.tables.revisions := hrevs
    rw [hbefore, hafter] at hrevs
    cases hrevs
  obtain ⟨req, p, hi⟩ : ∃ req p, c.procs 0 = some (req, p) := by
    rcases Config.next_cases hn with ⟨_, _, hl, -⟩ | ⟨j, _, req, op, next, r, hl, hj, -⟩
    · cases hl
    · cases hl
      exact ⟨req, _, hj⟩
  exact ⟨c, c', req, p, hc, hn, hne, hi, (SiteRun.mayChange hc hi hn).1 hne⟩

end Stages

end Rustend
