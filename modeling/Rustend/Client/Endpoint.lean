import Rustend.Client.World
import Rustend.Server.Site

/-!
# The server that a client meets

The results about clients take the server as a function from their requests to its
responses.  That function is what the whole server does over HTTP: it tells the request
apart by its address, asks the provider, registers the client, finds the route, reads the
body and runs the handler, and the client parses what comes back.

Bodies travel as texts.  What the server reads in the text of a request, and what a client
parses out of the text of a response, is not always what was written: a body may be too
large, a value nested too deep, and some doubles come out as their neighbours.  So the
texts are a parameter of the function.

## Main definitions

* `Texts`, `Texts.server` — what is read in the bodies, and the server behind them.
* `Texts.exact` — the texts that say what was written.
* `Solo`, `Solo.answer` — the site with one request at a time.
* `Caller`, `Caller.net` — the HTTP requests of a client, and the server over HTTP.

## Main results

* `Texts.server_exact` — behind exact texts, the server is `httpServer`.
* `run_authService` — an authenticated request runs its route.
* `Caller.sameClient` — **a client runs against the site as it does against the handlers.**
-/

namespace Rustend

open Interleave

/-! ### The texts of the bodies -/

/-- What the two sides read in each other's bodies. -/
structure Texts where
  /-- What the server's extractor reads in the text of a push, or the status with which it
  refuses the text. -/
  push : PushRequest → Except ℕ PushRequest
  /-- The same for a pull. -/
  pull : PullRequest → Except ℕ PullRequest
  /-- What a client that has pushed parses out of the text of a response. -/
  pushed : Body → Except String PushResponse
  /-- The same after a pull. -/
  pulled : Body → Except String PullResponse

/-- The texts that say what was written. -/
def Texts.exact : Texts where
  push := .ok
  pull := .ok
  pushed
    | .pushed resp => .ok resp
    | _ => .error "missing field"
  pulled
    | .pulled resp => .ok resp
    | _ => .error "missing field"

/-- A response, as a client receives it that parses bodies with `parse`. -/
def WebResponse.received {α : Type} (parse : Body → Except String α) (resp : WebResponse) :
    HttpResponse α :=
  ⟨resp.status, parse resp.body⟩

/-- A request of which the extractor has read the body, or which it has refused; either way
the client has been registered before. -/
def overHttp {α β : Type} (client : ClientId) (read : Except ℕ β) (request : β → ServerRequest)
    (parse : Body → Except String α) (c : Conn) :
    Except ClientError (HttpResponse α) × Conn :=
  match read with
  | .ok body =>
      let x := (authenticated client (serve (request body))).run Stmt.eval c
      (.ok ((intoResponse x.1).received parse), x.2)
  | .error status =>
      (.ok (WebResponse.received parse ⟨status, .empty⟩),
        ((upsertClient client).run Stmt.eval c).2)

/-- The server behind the texts, to requests authenticated as `client`. -/
def Texts.server (texts : Texts) (client : ClientId) : Net Conn where
  changes body :=
    overHttp client (texts.push body) (fun body => .push client body.revisions) texts.pushed
  changesQuery body := overHttp client (texts.pull body) (.pull client) texts.pulled

section Texts

variable {α β : Type} {parse : Body → Except String α} {client : ClientId} {c : Conn}

/-- A handler, and what the server makes of its reply. -/
theorem run_reply (handler : Sql α) (reply : α → ServerReply) :
    (authenticated client (handler >>= fun a => pure (reply a))).run Stmt.eval c =
      (((authenticated client handler).run Stmt.eval c).1.map reply,
        ((authenticated client handler).run Stmt.eval c).2) := by
  obtain ⟨clients, hups, -⟩ := run_upsertClient client c
  unfold authenticated
  rw [Program.run_bind_ok _ _ hups, Program.run_bind_ok _ _ hups]
  rcases hrun : handler.run Stmt.eval (c.withClients clients) with ⟨e | a, c'⟩
  · rw [Program.run_bind_error _ _ hrun, hrun]
    rfl
  · rw [Program.run_bind_ok _ _ hrun, hrun]
    rfl

/-- A request whose body is read runs its handler. -/
theorem overHttp_ok {request : β → ServerRequest} {body : β} {handler : Sql α}
    {reply : α → ServerReply}
    (hserve : serve (request body) = handler >>= fun a => pure (reply a)) :
    overHttp client (.ok body) request parse c =
      (.ok ((intoResponse (((authenticated client handler).run Stmt.eval c).1.map reply)).received
        parse), ((authenticated client handler).run Stmt.eval c).2) := by
  simp only [overHttp, hserve, run_reply]

/-- What the texts say that were written, is received. -/
theorem received_eq_respond {reply : α → ServerReply}
    (hok : ∀ a, (intoResponse (.ok (reply a))).received parse = ⟨200, .ok a⟩)
    (herror : ∀ e : ServerError, parse e.intoResponse.body = .error "missing field")
    (r : Except ServerError α) : (intoResponse (r.map reply)).received parse = respond r := by
  cases r with
  | ok a => exact hok a
  | error e => exact congrArg (HttpResponse.mk e.status) (herror e)

/-- **Behind exact texts, the server is `httpServer`.** -/
theorem Texts.server_exact (client : ClientId) : Texts.exact.server client = httpServer client := by
  have hpush : ∀ body c, (Texts.exact.server client).changes body c =
      (httpServer client).changes body c := fun body c =>
    (overHttp_ok rfl).trans (Prod.ext (congrArg Except.ok
      (received_eq_respond (fun _ => rfl) (fun _ => rfl) _)) rfl)
  have hpull : ∀ body c, (Texts.exact.server client).changesQuery body c =
      (httpServer client).changesQuery body c := fun body c =>
    (overHttp_ok rfl).trans (Prod.ext (congrArg Except.ok
      (received_eq_respond (fun _ => rfl) (fun _ => rfl) _)) rfl)
  exact congrArg₂ Net.mk (funext₂ hpush) (funext₂ hpull)

end Texts

/-! ### The site -/

/-- The site while it serves one request at a time. -/
structure Solo where
  conn : Conn
  users : List (ClientId × UserId)
  files : List (Uuid × List UInt8)

/-- What a request of the server does there, if the provider takes every address for `info`. -/
def Solo.answer (info : AuthInfo) : (op : (Signature.sum sql outside).Op) → Solo →
    Except ServerError ((sql.sum outside).Res op) × Solo
  | .inl stmt, s => ((stmt.eval s.conn).1, { s with conn := (stmt.eval s.conn).2 })
  | .inr (.authenticate _), s => (.ok (.ok info), s)
  | .inr (.upsertClient id userId), s =>
      (.ok (), { s with
        conn := (Stmt.eval (.upsertClient id) s.conn).2
        users := upsertRow s.users id userId })
  | .inr (.upsertFile id data), s => (.ok (), { s with files := upsertRow s.files id data })
  | .inr (.selectFile id), s => (.ok ((s.files.find? (·.1 = id)).map (·.2)), s)
  | .inr (.deleteFile id), s => (.ok (), { s with files := s.files.filter (·.1 ≠ id) })

/-- The HTTP requests of a client, which come from its address and go to their routes, and how
it parses the responses. -/
structure Caller (fw : Framework) (store : ServerStore) where
  ip : IpAddr
  changes : PushRequest → HttpRequest
  changesQuery : PullRequest → HttpRequest
  pushed : Body → Except String PushResponse
  pulled : Body → Except String PullResponse
  changes_ip : ∀ body, extractIp fw store (changes body) = some ip
  changes_path : ∀ body, (changes body).path = ["changes"]
  changes_post : ∀ body, (changes body).method = .post
  changesQuery_ip : ∀ body, extractIp fw store (changesQuery body) = some ip
  changesQuery_path : ∀ body, (changesQuery body).path = ["changes", "query"]
  changesQuery_post : ∀ body, (changesQuery body).method = .post

/-- What the extractors read in the requests of the client, and the client in their responses. -/
def Caller.texts {fw : Framework} {store : ServerStore} (caller : Caller fw store) : Texts where
  push body := fw.jsonPush (caller.changes body)
  pull body := fw.jsonPull (caller.changesQuery body)
  pushed := caller.pushed
  pulled := caller.pulled

/-- The site serves a request and the client parses the response.  The site always responds. -/
def Solo.fetch {α : Type} (fw : Framework) (store : ServerStore) (info : AuthInfo)
    (parse : Body → Except String α) (req : HttpRequest) (s : Solo) :
    Except ClientError (HttpResponse α) × Solo :=
  match (authService fw store req).run (Solo.answer info) s with
  | (.ok resp, s') => (.ok (resp.received parse), s')
  | (.error _, s') => (.error (.network "no response"), s')

/-- The server over HTTP, to a client that the provider takes for `info`. -/
def Caller.net {fw : Framework} {store : ServerStore} (caller : Caller fw store)
    (info : AuthInfo) : Net Solo where
  changes body := Solo.fetch fw store info caller.pushed (caller.changes body)
  changesQuery body := Solo.fetch fw store info caller.pulled (caller.changesQuery body)

section Endpoint

variable {fw : Framework} {store : ServerStore} {req : HttpRequest} {info : AuthInfo} {ip : IpAddr}

/-- The site after the client of `info` has been registered. -/
def Solo.registered (s : Solo) (info : AuthInfo) : Solo :=
  { s with
    conn := ((upsertClient info.clientId).run Stmt.eval s.conn).2
    users := upsertRow s.users info.clientId info.userId }

/-- **An authenticated request** runs its route once the client is registered. -/
theorem run_authService (hip : extractIp fw store req = some ip) (s : Solo) :
    (authService fw store req).run (Solo.answer info) s =
      (router fw info req).run (Solo.answer info) (s.registered info) := by
  unfold authService
  rw [hip]
  rfl

/-- A request of the sync protocol runs on the connection. -/
theorem run_served (sreq : ServerRequest) (s : Solo) :
    (served sreq).run (Solo.answer info) s =
      (.ok (intoResponse ((serve sreq).run Stmt.eval s.conn).1),
        { s with conn := ((serve sreq).run Stmt.eval s.conn).2 }) := by
  have hrun : ((serve sreq).inl (T := outside)).run (Solo.answer info) s =
      (((serve sreq).run Stmt.eval s.conn).1,
        { s with conn := ((serve sreq).run Stmt.eval s.conn).2 }) :=
    Program.run_inl Solo.conn (fun s conn => { s with conn := conn }) (fun _ _ => rfl)
      (fun _ _ _ => rfl) (fun _ => rfl) (fun _ _ => rfl) (serve sreq) s
  unfold served
  rw [Program.run_settle, hrun]
  rfl

/-- Authentication and a handler, as the clients' server runs them. -/
theorem run_authenticated_eq {α : Type} (handler : Sql α) (s : Solo) :
    (authenticated info.clientId handler).run Stmt.eval s.conn =
      handler.run Stmt.eval (s.registered info).conn := by
  obtain ⟨clients, hrun, -⟩ := run_upsertClient info.clientId s.conn
  unfold authenticated Solo.registered
  rw [Program.run_bind_ok _ _ hrun, hrun]

/-- **What a client gets out of a request** whose route reads a body of the sync protocol. -/
theorem fetch_eq {α β : Type} {parse : Body → Except String α} {read : Except ℕ β}
    {request : β → ServerRequest} (hip : extractIp fw store req = some ip)
    (hrouter : router fw info req = match read with
      | .ok body => served (request body)
      | .error status => refused status) (s : Solo) :
    Solo.fetch fw store info parse req s =
      ((overHttp info.clientId read request parse s.conn).1,
        { s.registered info with
          conn := (overHttp info.clientId read request parse s.conn).2 }) := by
  unfold Solo.fetch overHttp
  rw [run_authService hip, hrouter]
  cases read with
  | ok body =>
    dsimp only
    rw [run_served, run_authenticated_eq]
  | error status => rfl

end Endpoint

/-- The rows of other keys stay. -/
theorem mem_upsertRow {κ ν : Type} [DecidableEq κ] {rows : List (κ × ν)} {key : κ} {value : ν}
    {row : κ × ν} (hne : row.1 ≠ key) : row ∈ upsertRow rows key value ↔ row ∈ rows := by
  unfold upsertRow
  split
  · rw [List.mem_map]
    constructor
    · rintro ⟨x, hx, rfl⟩
      split at hne
      · exact absurd rfl hne
      · rwa [if_neg (by assumption)]
    · exact fun h => ⟨row, h, if_neg hne⟩
  · rw [List.mem_append, List.mem_singleton, or_iff_left]
    rintro rfl
    exact hne rfl

/-- A client with its server in the two models: the same stores, the same connection, and
beside it only the user of this client has changed. -/
structure SameClient (info : AuthInfo) (s₀ : Solo) (x : ClientDb × Conn) (y : ClientDb × Solo) :
    Prop where
  stores : y.1 = x.1
  conn : y.2.conn = x.2
  files : y.2.files = s₀.files
  users : ∀ row : ClientId × UserId, row.1 ≠ info.clientId → (row ∈ y.2.users ↔ row ∈ s₀.users)

section SameClient

variable {fw : Framework} {store : ServerStore} {caller : Caller fw store} {info : AuthInfo}
variable {s₀ : Solo}

/-- A request of the sync protocol keeps the two models the same. -/
theorem SameClient.registered {db : ClientDb} {c c' : Conn} {s : Solo}
    (h : SameClient info s₀ (db, c) (db, s)) :
    SameClient info s₀ (db, c') (db, { s.registered info with conn := c' }) where
  stores := rfl
  conn := rfl
  files := h.files
  users row hne := (mem_upsertRow hne).trans (h.users row hne)

theorem Caller.router_changes (caller : Caller fw store) (info : AuthInfo) (body : PushRequest) :
    router fw info (caller.changes body) = Handlers.pushChanges fw info (caller.changes body) := by
  have hroute : matchRoute (caller.changes body).path = some .changes := by
    rw [caller.changes_path]
    rfl
  unfold router
  rw [hroute]
  exact if_pos (caller.changes_post body)

theorem Caller.router_changesQuery (caller : Caller fw store) (info : AuthInfo)
    (body : PullRequest) :
    router fw info (caller.changesQuery body) =
      Handlers.pullChanges fw info (caller.changesQuery body) := by
  have hroute : matchRoute (caller.changesQuery body).path = some .changesQuery := by
    rw [caller.changesQuery_path]
    rfl
  unfold router
  rw [hroute]
  exact if_pos (caller.changesQuery_post body)

/-- A push request through the site. -/
theorem Caller.net_changes (caller : Caller fw store) (info : AuthInfo) (body : PushRequest)
    (s : Solo) :
    (caller.net info).changes body s =
      (((caller.texts.server info.clientId).changes body s.conn).1,
        { s.registered info with
          conn := ((caller.texts.server info.clientId).changes body s.conn).2 }) := by
  refine fetch_eq (caller.changes_ip body) ?_ s
  rw [caller.router_changes, Handlers.pushChanges]
  simp only [Caller.texts]
  cases fw.jsonPush (caller.changes body) <;> rfl

/-- A pull request through the site. -/
theorem Caller.net_changesQuery (caller : Caller fw store) (info : AuthInfo)
    (body : PullRequest) (s : Solo) :
    (caller.net info).changesQuery body s =
      (((caller.texts.server info.clientId).changesQuery body s.conn).1,
        { s.registered info with
          conn := ((caller.texts.server info.clientId).changesQuery body s.conn).2 }) := by
  refine fetch_eq (caller.changesQuery_ip body) ?_ s
  rw [caller.router_changesQuery, Handlers.pullChanges]
  simp only [Caller.texts]
  cases fw.jsonPull (caller.changesQuery body) <;> rfl

/-- One request of a client, in the two models. -/
theorem SameClient.answer (op : ClientOp) {x : ClientDb × Conn} {y : ClientDb × Solo}
    (h : SameClient info s₀ x y) :
    (Rustend.answer (caller.net info) op y).1 =
      (Rustend.answer (caller.texts.server info.clientId) op x).1 ∧
    SameClient info s₀ (Rustend.answer (caller.texts.server info.clientId) op x).2
      (Rustend.answer (caller.net info) op y).2 := by
  obtain ⟨db, c⟩ := x
  obtain ⟨db', s⟩ := y
  obtain rfl : db' = db := h.stores
  obtain rfl : s.conn = c := h.conn
  cases op with
  | idb op => exact ⟨rfl, rfl, rfl, h.files, h.users⟩
  | postChanges body =>
    have hnet := caller.net_changes info body s
    refine ⟨congrArg (·.1) hnet, ?_⟩
    show SameClient info s₀ _ (db', ((caller.net info).changes body s).2)
    rw [hnet]
    exact h.registered
  | postChangesQuery body =>
    have hnet := caller.net_changesQuery info body s
    refine ⟨congrArg (·.1) hnet, ?_⟩
    show SameClient info s₀ _ (db', ((caller.net info).changesQuery body s).2)
    rw [hnet]
    exact h.registered

/-- **A client runs against the site as it does against the handlers**: whatever it does, it
gets the same results and ends with the same stores, the connection is in the same state,
and no file and no user of another client has changed. -/
theorem Caller.sameClient {α : Type} (caller : Caller fw store) (info : AuthInfo)
    (p : Browser α) (db : ClientDb) (s : Solo) :
    (p.run (answer (caller.net info)) (db, s)).1 =
      (p.run (answer (caller.texts.server info.clientId)) (db, s.conn)).1 ∧
    SameClient info s (p.run (answer (caller.texts.server info.clientId)) (db, s.conn)).2
      (p.run (answer (caller.net info)) (db, s)).2 :=
  Program.run_related (fun op _ _ h => h.answer op) p ⟨rfl, rfl, rfl, fun _ _ => Iff.rfl⟩

end SameClient

/-! ### A sync over HTTP -/

/-- A trip of client `a`, with what its odometer shows. -/
def tripOf (a : ClientId) (n : ℕ) (odometer : Number) : Revision :=
  ⟨⟨⟨n⟩⟩, ⟨⟨n⟩⟩, "trip", .root, 0, a, .active (.number odometer)⟩

/-- The double that is written as `907.3038322028689`. -/
def written907 : Number := .float (7980728907462233 / 2 ^ 43)

/-- The double as which this text is read. -/
def read907 : Number := .float (7980728907462232 / 2 ^ 43)

/-- The framework, on the push of such a trip and a pull of everything. -/
def tripFramework : Framework :=
  { pushFramework with
    jsonPush := fun _ => .ok ⟨[tripOf ⟨⟨7⟩⟩ 1 read907]⟩
    jsonPull := fun _ => .ok ⟨none, none, none, none⟩ }

/-- Client 7, behind the address 10.0.0.1: it pushes this trip and pulls everything. -/
def tripCaller : Caller tripFramework .new where
  ip := .v4 0x0a000001
  changes _ := { pushRequest with
    body := ("\x7b\"revisions\":[\x7b\"id\":\"00000000-0000-0000-0000-000000000001\"," ++
      "\"object_id\":\"00000000-0000-0000-0000-000000000001\",\"object_type\":\"trip\"," ++
      "\"lineage\":\"Root\",\"created_at\":\"1970-01-01T00:00:00Z\"," ++
      "\"created_by\":\"00000000-0000-0000-0000-000000000007\"," ++
      "\"content\":\x7b\"Active\":907.3038322028689\x7d\x7d]\x7d").toUTF8.toList }
  changesQuery _ := { pushRequest with
    path := ["changes", "query"]
    body := ("\x7b\"since\":null,\"object_types\":null," ++
      "\"created_at\":null,\"filter\":null\x7d").toUTF8.toList }
  pushed := Texts.exact.pushed
  pulled := Texts.exact.pulled
  changes_ip _ := rfl
  changes_path _ := rfl
  changes_post _ := rfl
  changesQuery_ip _ := rfl
  changesQuery_path _ := rfl
  changesQuery_post _ := rfl

/-- Client 7 with its trip, which is pending. -/
def withTrip : ClientDb := (ClientDb.opened ⟨⟨7⟩⟩ ⟨⟨1⟩⟩).written (tripOf ⟨⟨7⟩⟩ 1 written907)

/-- The server after client 8 has pushed a trip. -/
def afterTrip : Conn :=
  ((httpServer ⟨⟨8⟩⟩).changes ⟨[tripOf ⟨⟨8⟩⟩ 2 (.posInt 12)]⟩ (Db.empty.conn 0)).2

/-- **A sync through the site**: the trip is accepted, and the one of client 8 comes in; but the
server has read another double than client 7 holds. -/
theorem Caller.sameClient_trip : ∃ db s, (Repository.sync ⟨none, none, none, none⟩).run
      (answer (tripCaller.net ⟨⟨⟨7⟩⟩, ⟨⟨70⟩⟩, []⟩)) (withTrip, ⟨afterTrip, [(⟨⟨8⟩⟩, ⟨⟨80⟩⟩)], []⟩) =
        (.ok ⟨1, 1, 0, []⟩, (db, s)) ∧
    db.revisions.records = [.fromRevision (tripOf ⟨⟨7⟩⟩ 1 written907) .synced,
      .fromRevision (tripOf ⟨⟨8⟩⟩ 2 (.posInt 12)) .synced] ∧
    s.conn.tables.revisions =
      [(tripOf ⟨⟨8⟩⟩ 2 (.posInt 12)).row, (tripOf ⟨⟨7⟩⟩ 1 read907).row] ∧
    (⟨⟨8⟩⟩, ⟨⟨80⟩⟩) ∈ s.users := by
  have hsame := Caller.sameClient tripCaller ⟨⟨⟨7⟩⟩, ⟨⟨70⟩⟩, []⟩
    (Repository.sync ⟨none, none, none, none⟩) withTrip ⟨afterTrip, [(⟨⟨8⟩⟩, ⟨⟨80⟩⟩)], []⟩
  rcases hrun : (Repository.sync ⟨none, none, none, none⟩).run
      (answer (tripCaller.net ⟨⟨⟨7⟩⟩, ⟨⟨70⟩⟩, []⟩))
      (withTrip, ⟨afterTrip, [(⟨⟨8⟩⟩, ⟨⟨80⟩⟩)], []⟩) with
    ⟨r, db, s⟩
  rw [hrun] at hsame
  obtain ⟨hr, hstores, hconn, -, husers⟩ := hsame
  have hother : (⟨⟨8⟩⟩ : ClientId) ≠ ⟨⟨7⟩⟩ := by decide
  have hsynced : r = .ok ⟨1, 1, 0, []⟩ := hr.trans (by decide +kernel)
  subst hsynced
  refine ⟨db, s, hrun, (congrArg (·.revisions.records) hstores).trans ?_,
    (congrArg (·.tables.revisions) hconn).trans ?_,
    (husers (⟨⟨8⟩⟩, ⟨⟨80⟩⟩) hother).mpr (List.mem_singleton_self _)⟩
  · decide +kernel
  · decide +kernel

end Rustend
