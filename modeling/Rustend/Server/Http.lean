import Rustend.Lib.Layers
import Rustend.Server.Alone
import Rustend.Server.Durable

/-!
# The server over HTTP

The router and its authentication layer.  Every request is first told apart by the IP
address it comes from; the address is put to the auth provider, the client that the
provider names is registered, and only then does the handler of the route run.

What the server uses but does not define is a parameter: how addresses and UUIDs are
parsed, and what the extractors of the framework make of a body.  The provider is part of
the surroundings: it may answer every question as it likes.

## Main definitions

* `extractIp`, `authService` — the authentication layer.
* `router` — the routes and their handlers, as programs.
* `Site`, `site` — the database with the `files` table and the users of the clients, and
  the provider, as a `Machine`.
* `SiteRun` — the reachable configurations.
-/

namespace Rustend

open Interleave

/-! ### Requests and responses -/

/-- An IP address, by its bits. -/
inductive IpAddr where
  | v4 (bits : BitVec 32)
  | v6 (bits : BitVec 128)
  deriving DecidableEq

/-- What the provider knows of an address. -/
structure AuthInfo where
  clientId : ClientId
  userId : UserId
  roles : List String
  deriving DecidableEq

/-- Why the provider does not name a client. -/
inductive AuthError where
  | unauthenticated
  | internal (msg : String)
  deriving DecidableEq

/-- Where the server takes the address of a request from. -/
inductive IpSource where
  | connectInfo
  | forwardedFor
  | realIp
  deriving DecidableEq

/-- The part of `ServerStore` that is not the database or the provider. -/
structure ServerStore where
  ipSource : IpSource
  deriving DecidableEq

/-- The address of the peer is that of the request. -/
def ServerStore.new : ServerStore := ⟨.connectInfo⟩

/-- Behind a proxy that sets `X-Forwarded-For`. -/
def ServerStore.trustForwardedFor (store : ServerStore) : ServerStore :=
  { store with ipSource := .forwardedFor }

/-- Behind a proxy that sets `X-Real-IP`. -/
def ServerStore.trustRealIp (store : ServerStore) : ServerStore :=
  { store with ipSource := .realIp }

/-- The methods that the router tells apart. -/
inductive Method where
  | get
  | head
  | post
  | delete
  | other
  deriving DecidableEq

/-- A request as it reaches the server: the peer's address, the header fields with their
names in lower case, the segments of the path, and the body. -/
structure HttpRequest where
  peer : Option IpAddr
  headers : List (String × List UInt8)
  method : Method
  path : List String
  body : List UInt8
  deriving DecidableEq

/-- The bodies of the server's responses. -/
inductive Body where
  | empty
  /-- `{"error": msg}`. -/
  | error (msg : String)
  | whoami (resp : WhoAmIResponse)
  | pushed (resp : PushResponse)
  | pulled (resp : PullResponse)
  | object (update : ObjectUpdate)
  | file (data : List UInt8)

/-- A response, with the body still as the handler gives it to the framework. -/
structure WebResponse where
  status : ℕ
  body : Body

/-- The functions of the framework and of the standard library that the server relies on.
An extractor that refuses a request answers with a status of its own. -/
structure Framework where
  parseIp : String → Option IpAddr
  pathUuid : String → Except ℕ Uuid
  jsonPush : HttpRequest → Except ℕ PushRequest
  jsonPull : HttpRequest → Except ℕ PullRequest
  bytes : HttpRequest → Except ℕ (List UInt8)

/-! ### The address of a request -/

/-- The first value of a header field. -/
def HttpRequest.header (req : HttpRequest) (name : String) : Option (List UInt8) :=
  (req.headers.find? (·.1 = name)).map (·.2)

/-- `HeaderValue::to_str`: the value is a text if all of it is visible ASCII or a tab. -/
def headerText (value : List UInt8) : Option (List Char) :=
  if value.all fun b => b = 9 || (32 ≤ b && b < 127) then
    some (value.map fun b => Char.ofNat b.toNat)
  else none

/-- `str::trim`, on the texts of header values. -/
def trimText (text : List Char) : List Char :=
  ((text.dropWhile Char.isWhitespace).reverse.dropWhile Char.isWhitespace).reverse

section Server

variable (fw : Framework)

/-- `extract_ip`. -/
def extractIp (store : ServerStore) (req : HttpRequest) : Option IpAddr :=
  match store.ipSource with
  | .connectInfo => req.peer
  | .forwardedFor =>
      ((req.header "x-forwarded-for").bind headerText).bind fun s =>
        fw.parseIp (String.ofList (trimText (s.takeWhile (· ≠ ','))))
  | .realIp =>
      ((req.header "x-real-ip").bind headerText).bind fun s =>
        fw.parseIp (String.ofList (trimText s))

/-! ### The requests that the server makes -/

/-- The question to the provider, the registration of a client with its user, and the
statements on the `files` table. -/
inductive SiteOp where
  | authenticate (ip : IpAddr)
  | upsertClient (id : ClientId) (userId : UserId)
  | upsertFile (objectId : Uuid) (data : List UInt8)
  | selectFile (objectId : Uuid)
  | deleteFile (objectId : Uuid)
  deriving DecidableEq

/-- What these requests answer. -/
abbrev SiteOp.Res : SiteOp → Type
  | .authenticate _ => Except AuthError AuthInfo
  | .selectFile _ => Option (List UInt8)
  | _ => Unit

/-- The requests beside the SQL of the sync protocol. -/
abbrev outside : Signature where
  Op := SiteOp
  Res := SiteOp.Res

/-- A part of the server.  It always has a response. -/
abbrev Web := Program (sql.sum outside) ServerError

/-! ### Errors as responses -/

/-- The answer to an address that is unknown. -/
def unauthenticated : WebResponse := ⟨401, .error "unauthenticated"⟩

/-- The answer when the provider or the registration fails. -/
def providerError : WebResponse := ⟨500, .error "internal server error"⟩

/-- The text of an error, as far as clients may see it. -/
def ServerError.message : ServerError → String
  | .database _ => "internal server error"
  | .duplicateRevision => "revision already exists"
  | .unknownParent parent => "unknown parent revision: " ++ parent
  | .malformedData msg => "malformed data: " ++ msg
  | .notFound => "not found"

/-- `into_response` of an error. -/
def ServerError.intoResponse (e : ServerError) : WebResponse := ⟨e.status, .error e.message⟩

/-- `into_response` of what a handler of the sync protocol returns. -/
def intoResponse : Except ServerError ServerReply → WebResponse
  | .ok .registered => ⟨200, .empty⟩
  | .ok (.pushed resp) => ⟨200, .pushed resp⟩
  | .ok (.pulled resp) => ⟨200, .pulled resp⟩
  | .ok (.object update) => ⟨200, .object update⟩
  | .error e => e.intoResponse

/-- A response that needs nothing more. -/
def answered (resp : WebResponse) : Web WebResponse := .done (.ok resp)

/-- The response of an extractor that refuses the request. -/
def refused (status : ℕ) : Web WebResponse := answered ⟨status, .empty⟩

/-- A request of the sync protocol, served and turned into a response. -/
def served (req : ServerRequest) : Web WebResponse :=
  (serve req).inl.settle fun r => answered (intoResponse r)

/-- A statement on the `files` table, and the response to its answer. -/
def onFiles (op : SiteOp) (respond : op.Res → WebResponse) : Web WebResponse :=
  .call (S := sql.sum outside) (.inr op) fun
    | .ok a => answered (respond a)
    | .error e => answered e.intoResponse

/-! ### Handlers -/

namespace Handlers

variable (auth : AuthInfo) (req : HttpRequest)

/-- Who the provider has said that the client is. -/
def whoami : Web WebResponse :=
  answered ⟨200, .whoami ⟨auth.clientId, auth.userId, auth.roles⟩⟩

/-- `POST /changes`. -/
def pushChanges : Web WebResponse :=
  match fw.jsonPush req with
  | .ok body => served (.push auth.clientId body.revisions)
  | .error status => refused status

/-- `POST /changes/query`. -/
def pullChanges : Web WebResponse :=
  match fw.jsonPull req with
  | .ok body => served (.pull auth.clientId body)
  | .error status => refused status

/-- `GET /objects/{id}`. -/
def getObject (id : String) : Web WebResponse :=
  match fw.pathUuid id with
  | .ok id => served (.getObject ⟨id⟩)
  | .error status => refused status

/-- `GET /files/{id}`: the stored bytes, or that there are none. -/
def getFile (id : String) : Web WebResponse :=
  match fw.pathUuid id with
  | .ok id => onFiles (.selectFile id) fun
      | some data => ⟨200, .file data⟩
      | none => ⟨404, .empty⟩
  | .error status => refused status

/-- `POST /files/{id}`: the body takes the place of what was stored. -/
def uploadFile (id : String) : Web WebResponse :=
  match fw.pathUuid id with
  | .ok id =>
      match fw.bytes req with
      | .ok data => onFiles (.upsertFile id data) fun _ => ⟨204, .empty⟩
      | .error status => refused status
  | .error status => refused status

/-- `DELETE /files/{id}`, whether or not something was stored. -/
def deleteFile (id : String) : Web WebResponse :=
  match fw.pathUuid id with
  | .ok id => onFiles (.deleteFile id) fun _ => ⟨204, .empty⟩
  | .error status => refused status

end Handlers

/-! ### The router -/

/-- A route of the server. -/
inductive Route where
  | whoami
  | changes
  | changesQuery
  | objects (id : String)
  | files (id : String)
  deriving DecidableEq

/-- The route of a path; a parameter is one segment that is not empty. -/
def matchRoute : List String → Option Route
  | ["whoami"] => some .whoami
  | ["changes"] => some .changes
  | ["changes", "query"] => some .changesQuery
  | ["objects", id] => if id.isEmpty then none else some (.objects id)
  | ["files", id] => if id.isEmpty then none else some (.files id)
  | _ => none

/-- `HEAD` is served like `GET`. -/
def Method.isGet (method : Method) : Bool := method = .get || method = .head

/-- What the routes answer to a request that has been authenticated. -/
def router (auth : AuthInfo) (req : HttpRequest) : Web WebResponse :=
  match matchRoute req.path with
  | none => refused 404
  | some .whoami => if req.method.isGet then Handlers.whoami auth else refused 405
  | some .changes => if req.method = .post then Handlers.pushChanges fw auth req else refused 405
  | some .changesQuery =>
      if req.method = .post then Handlers.pullChanges fw auth req else refused 405
  | some (.objects id) => if req.method.isGet then Handlers.getObject fw id else refused 405
  | some (.files id) =>
      if req.method.isGet then Handlers.getFile fw id
      else if req.method = .post then Handlers.uploadFile fw req id
      else if req.method = .delete then Handlers.deleteFile fw id
      else refused 405

/-- The registration of the client that the provider has named, and then the routes. -/
def registerThen (info : AuthInfo) (req : HttpRequest) : Web WebResponse :=
  .call (S := sql.sum outside) (.inr (.upsertClient info.clientId info.userId)) fun
    | .ok _ => router fw info req
    | .error _ => answered providerError

/-- What becomes of the provider's answer. -/
def onAuthenticated (req : HttpRequest) : Except ServerError (Except AuthError AuthInfo) →
    Web WebResponse
  | .ok (.ok info) => registerThen fw info req
  | .ok (.error .unauthenticated) => answered unauthenticated
  | .ok (.error (.internal _)) => answered providerError
  | .error _ => answered providerError

/-- `AuthService::call`. -/
def authService (store : ServerStore) (req : HttpRequest) : Web WebResponse :=
  match extractIp fw store req with
  | none => answered unauthenticated
  | some ip => .call (S := sql.sum outside) (.inr (.authenticate ip)) (onAuthenticated fw req)

end Server

/-! ### The site -/

/-- Put `value` in the row of `key`. -/
def upsertRow {κ ν : Type} [DecidableEq κ] (rows : List (κ × ν)) (key : κ) (value : ν) :
    List (κ × ν) :=
  if key ∈ rows.map (·.1) then rows.map fun row => if row.1 = key then (key, value) else row
  else rows ++ [(key, value)]

/-- The database, with the column `user_id` of `clients` and the table `files`; and the
addresses that the provider has vouched for, by the session that asked. -/
structure Site where
  db : Db
  users : List (ClientId × UserId)
  files : List (Uuid × List UInt8)
  granted : ℕ → Option (IpAddr × AuthInfo)

/-- How a request of the server comes out. -/
inductive SiteOutcome where
  /-- A statement comes out like this. -/
  | sql (o : Outcome)
  /-- The provider answers this. -/
  | provider (answer : Except AuthError AuthInfo)
  deriving DecidableEq

/-- A statement that commits by itself: it is executed, or it fails, or it is executed
and its reply is lost. -/
def autocommit {α : Type} (a : α) (done failed : Site) :
    SiteOutcome → Option (Except ServerError α × Site)
  | .sql .proceed => some (.ok a, done)
  | .sql .fail => some (.error (.database .connection), failed)
  | .sql .lost => some (.error (.database .connection), done)
  | .provider _ => none

/-- What a request of session `i` does.  The registration runs on a connection of its own,
and so does the handler. -/
def Site.exec (s : Site) (i : ℕ) (ch : SiteOutcome) :
    (op : (Signature.sum sql outside).Op) →
      Option (Except ServerError ((sql.sum outside).Res op) × Site)
  | .inl stmt =>
      match ch with
      | .sql o => (s.db.exec (2 * i + 1) stmt o).map fun x => (x.1, { s with db := x.2 })
      | .provider _ => none
  | .inr (.authenticate ip) =>
      match ch with
      | .provider (.ok info) =>
          some (.ok (.ok info), { s with granted := Function.update s.granted i (some (ip, info)) })
      | .provider (.error e) => some (.ok (.error e), s)
      | .sql _ => none
  | .inr (.upsertClient id userId) =>
      match ch with
      | .sql o => (s.db.exec (2 * i) (.upsertClient id) o).map fun x =>
          (x.1, { s with
            db := x.2
            users := if o = .fail then s.users else upsertRow s.users id userId })
      | .provider _ => none
  | .inr (.upsertFile id data) =>
      autocommit () { s with files := upsertRow s.files id data } s ch
  | .inr (.selectFile id) =>
      autocommit ((s.files.find? (·.1 = id)).map (·.2)) s s ch
  | .inr (.deleteFile id) =>
      autocommit () { s with files := s.files.filter (·.1 ≠ id) } s ch

/-- The site, answering the requests of many sessions. -/
def site : Machine (sql.sum outside) ServerError ℕ SiteOutcome Site where
  exec i ch op s := s.exec i ch op

/-- Nothing stored, nobody known. -/
def Site.empty : Site := ⟨Db.empty, [], [], fun _ => none⟩

/-- The configurations that any interleaving of requests reaches. -/
abbrev SiteRun (fw : Framework) (store : ServerStore)
    (c : Config (sql.sum outside) ServerError ℕ HttpRequest WebResponse Site) : Prop :=
  Reachable site (authService fw store) (fun _ _ => True) Site.empty c

end Rustend
