import NellDB.Data.Interleaving
import NellDB.Server.Auth
import NellDB.Server.Binary
import NellDB.Server.Broadcast
import NellDB.Server.Reconcile
import NellDB.Server.Respond

namespace NellDB

open Data

/-! The handler of a server, from the HTTP request to the store: the content type,
the routes, the signature, the methods and the bodies. -/

inductive SyncRoute where
  | pull
  | push
  | check
  | binCheck
  | binPush
  | ws
  deriving DecidableEq

/-- A path, by the pattern of the two muxes that it matches.  The outer one redirects
`/sync` and whatever is not clean. -/
inductive RequestPath where
  | health
  | ready
  | sync (route : SyncRoute)
  | unknownSync
  | redirected
  | unknown
  deriving DecidableEq

/-- How the upgrader answers a request that is no handshake. -/
inductive UpgradeRefusal where
  | badRequest
  | methodNotAllowed
  | internalServerError
  deriving DecidableEq

namespace UpgradeRefusal

def status : UpgradeRefusal → Nat
  | badRequest => 400
  | methodNotAllowed => 405
  | internalServerError => 500

def message : UpgradeRefusal → String
  | badRequest => "Bad Request"
  | methodNotAllowed => "Method Not Allowed"
  | internalServerError => "Internal Server Error"

end UpgradeRefusal

/-- `received` is what can be read of the body; if it is `broken`, reading then
fails.  Without an `upgradeRefusal` the upgrader accepts the request as a handshake. -/
structure HttpRequest where
  method : GoString
  path : RequestPath
  col : GoString
  header : Header
  received : Bytes
  broken : Bool
  remoteAddr : GoString
  upgradeRefusal : Option UpgradeRefusal

def HttpRequest.signed (request : HttpRequest) : Request where
  header := request.header
  body := if request.broken then .failing else .content request.received

def methodPost : GoString := ascii ['P', 'O', 'S', 'T']

def contentTypeHeader : GoString :=
  ascii ['C', 'o', 'n', 't', 'e', 'n', 't', '-', 'T', 'y', 'p', 'e']

def octetStream : GoString :=
  ascii ['a', 'p', 'p', 'l', 'i', 'c', 'a', 't', 'i', 'o', 'n', '/',
    'o', 'c', 't', 'e', 't', '-', 's', 't', 'r', 'e', 'a', 'm']

def applicationJSON : GoString :=
  ascii ['a', 'p', 'p', 'l', 'i', 'c', 'a', 't', 'i', 'o', 'n', '/', 'j', 's', 'o', 'n']

/-- What the JSON decoder finds at the start of a text. -/
inductive Scan (α : Type) where
  | value (decoded : α)
  | invalid
  | incomplete

structure CheckQuery where
  vector : KnowledgeVector
  limit : Int
  cursor : GoString

structure SyncCodec where
  pull : Bytes → Scan HLC
  push : Bytes → Scan (List Record)
  check : Bytes → Scan CheckQuery

/-- Decoding through a reader that fails behind `MaxBodyBytes`. -/
def decodeBody {α : Type} (scan : Bytes → Scan α) (body : Bytes) : Except BodyError α :=
  match scan (body.take maxBodyBytes) with
  | .value decoded => .ok decoded
  | .invalid => .error .badRequest
  | .incomplete => .error (if body.length > maxBodyBytes then .tooLarge else .badRequest)

inductive Content where
  | error (message : String)
  | readFailed
  | vectorRefused (failure : KnowledgeVector.DecodeError)
  | health (nodeID : GoString)
  | ready (nodeID : GoString) (docCount : Nat)
  | changes (records : List Record)
  | pushed (accepted total : Nat)
  | missing (nodeID : GoString) (reply : CheckReply)
  | frames (bytes : Bytes)
  | redirect
  | upgraded

structure Reply where
  status : Nat
  content : Content

namespace Reply

def error (status : Nat) (message : String) : Reply := ⟨status, .error message⟩

def methodNotAllowed : Reply := error 405 "method not allowed"

def ofBodyError (failure : BodyError) : Reply := error failure.status failure.message

/-- `writeJSON` of a value with records in it. -/
def writeJSON (records : List Record) (content : Content) : Reply :=
  if records.all Record.hasJson then ⟨200, content⟩ else error 500 "internal error"

end Reply

/-- What a request leads to: the reply, the server after it, and the records that
are broadcast. -/
structure Outcome where
  reply : Reply
  server : Server
  broadcast : Option (List Record)

/-- The body that a handler reads, and whether reading ends in a failure. -/
structure ServedBody where
  received : Bytes
  broken : Bool

structure SiteConfig where
  mac : Bytes → Bytes → Bytes
  secret : Bytes
  codec : SyncCodec

namespace Server

def replies (server : Server) (reply : Reply) : Outcome := ⟨reply, server, none⟩

def servePull (codec : SyncCodec) (server : Server) (col : GoString) (body : Bytes) : Outcome :=
  match decodeBody codec.pull body with
  | .error failure => server.replies (.ofBodyError failure)
  | .ok since =>
      let (all, store) := server.store.getChangesSince since
      let changes := NellDB.handlePull all (orDefault col)
      ⟨.writeJSON changes (.changes changes), { server with store }, none⟩

def servePush (codec : SyncCodec) (server : Server) (body : Bytes) : Outcome :=
  match decodeBody codec.push body with
  | .error failure => server.replies (.ofBodyError failure)
  | .ok changes =>
      let ((accepted, total), final) := server.handlePush changes
      ⟨⟨200, .pushed accepted total⟩, final, pushBroadcast changes⟩

def serveCheck (codec : SyncCodec) (server : Server) (all : List Record) (body : Bytes) :
    Outcome :=
  match decodeBody codec.check body with
  | .error failure => server.replies (.ofBodyError failure)
  | .ok query =>
      let reply := NellDB.handleCheck all query.vector query.limit query.cursor
      server.replies (.writeJSON reply.missing (.missing server.nodeID reply))

def serveBinCheck (server : Server) (all : List Record) (body : ServedBody) : Outcome :=
  if body.broken then
    server.replies ⟨400, .readFailed⟩
  else
    match NellDB.handleBinCheck all body.received with
    | .error failure => server.replies ⟨400, .vectorRefused failure⟩
    | .ok bytes => server.replies ⟨200, .frames bytes⟩

/-- A body that breaks off ends the loop like one that is cut short. -/
def serveBinPush (server : Server) (body : Bytes) : Outcome :=
  let (bytes, final) := server.handleBinPush body
  ⟨⟨200, .frames bytes⟩, final, server.binPushBroadcast body⟩

def serveWebSocket (server : Server) (request : HttpRequest) : Outcome :=
  match request.upgradeRefusal with
  | none => server.replies ⟨101, .upgraded⟩
  | some refusal => server.replies (.error refusal.status refusal.message)

/-- The check of the method that all handlers but `handleWebSocket` begin with. -/
def postOnly (server : Server) (request : HttpRequest) (outcome : Outcome) : Outcome :=
  if request.method ≠ methodPost then server.replies .methodNotAllowed else outcome

/-- The inner mux.  `listing` is the slice that the check handlers find. -/
def serveSync (codec : SyncCodec) (server : Server) (request : HttpRequest)
    (listing : Listing server.store (orDefault request.col)) (body : ServedBody) :
    SyncRoute → Outcome
  | .pull => server.postOnly request (server.servePull codec request.col body.received)
  | .push => server.postOnly request (server.servePush codec body.received)
  | .check => server.postOnly request (server.serveCheck codec listing.ordered body.received)
  | .binCheck => server.postOnly request (server.serveBinCheck listing.ordered body)
  | .binPush => server.postOnly request (server.serveBinPush body.received)
  | .ws => server.serveWebSocket request

/-- The sync routes behind `HMACAuth`. -/
def authenticated (cfg : SiteConfig) (now : Int) (server : Server) (request : HttpRequest)
    (next : ServedBody → Outcome) : Outcome :=
  match hmacAuth cfg.mac cfg.secret now request.signed with
  | .error failure => server.replies (.error failure.status failure.message)
  | .ok (.original _) => next ⟨request.received, request.broken⟩
  | .ok (.buffered reader) => next ⟨reader.remaining, false⟩

/-- The outer mux. -/
def serve (cfg : SiteConfig) (now : Int) (server : Server) (request : HttpRequest)
    (listing : Listing server.store (orDefault request.col)) : Outcome :=
  match request.path with
  | .health => server.replies ⟨200, .health server.nodeID⟩
  | .ready =>
      server.replies ⟨200, .ready server.nodeID (server.store.list defaultCollection).card⟩
  | .sync route => server.authenticated cfg now request fun body =>
      server.serveSync cfg.codec request listing body route
  | .unknownSync => server.authenticated cfg now request fun _ =>
      server.replies (.error 404 "404 page not found")
  | .redirected => server.replies ⟨307, .redirect⟩
  | .unknown => server.replies (.error 404 "404 page not found")

/-- `Handler`: `requireJSON` around the outer mux. -/
def handler (cfg : SiteConfig) (now : Int) (server : Server) (request : HttpRequest)
    (listing : Listing server.store (orDefault request.col)) : Outcome :=
  let contentType := Header.get request.header contentTypeHeader
  if request.method = methodPost ∧ contentType ≠ octetStream ∧ contentType ≠ applicationJSON then
    server.replies (.error 415 "unsupported content type")
  else
    server.serve cfg now request listing

end Server

/-! The server with its WebSocket connections.  Each is served by a goroutine of its
own.  Once its read loop has ended, a deferred call takes its address out of the map of
the peers; other goroutines may run in between. -/

inductive ConnectionPhase where
  | reading
  | ended
  | removed
  deriving DecidableEq

structure Connection where
  remoteAddr : GoString
  phase : ConnectionPhase
  -- The request that opened it.
  openedAt : Int
  opener : HttpRequest

structure Site where
  server : Server
  peers : FiniteMap GoString Nat
  connections : List Connection
  -- What has come in so far; no step looks at it.
  requests : List (Int × HttpRequest)
  messages : List (Connection × List Record)

inductive SiteEvent where
  | request (now : Int) (request : HttpRequest)
  | message (number : Nat) (changes : List Record)
  | ended (number : Nat)
  | removed (number : Nat)

namespace Site

def start (server : Server) : Site where
  server
  peers := ∅
  connections := []
  requests := []
  messages := []

def register (site : Site) (now : Int) (request : HttpRequest) : Site :=
  { site with
    peers := site.peers.insert request.remoteAddr site.connections.length
    connections := site.connections ++ [⟨request.remoteAddr, .reading, now, request⟩] }

def answer (site : Site) (now : Int) (request : HttpRequest) (outcome : Outcome) : Site :=
  let served : Site :=
    { site with server := outcome.server, requests := site.requests ++ [(now, request)] }
  match outcome.reply.content with
  | .upgraded => served.register now request
  | _ => served

theorem answer_server (site : Site) (now : Int) (request : HttpRequest) (outcome : Outcome) :
    (site.answer now request outcome).server = outcome.server := by
  unfold answer
  dsimp only
  split <;> rfl

def receive (site : Site) (connection : Connection) (changes : List Record) : Site :=
  { site with
    server := site.server.handleWebSocket changes
    messages := site.messages ++ [(connection, changes)] }

/-- A read has failed. -/
def leaveLoop (site : Site) (number : Nat) (connection : Connection) : Site :=
  { site with connections := site.connections.set number { connection with phase := .ended } }

/-- `delete(s.peers, remoteAddr)`, whichever connection stands there. -/
def removePeer (site : Site) (number : Nat) (connection : Connection) : Site :=
  { site with
    peers := site.peers.erase connection.remoteAddr
    connections := site.connections.set number { connection with phase := .removed } }

inductive Step (cfg : SiteConfig) : Site → SiteEvent → Site → Prop
  | request (site : Site) (now : Int) (request : HttpRequest)
      (listing : Listing site.server.store (orDefault request.col)) :
      Step cfg site (.request now request)
        (site.answer now request (site.server.handler cfg now request listing))
  | message (site : Site) (number : Nat) (changes : List Record) (connection : Connection)
      (found : site.connections[number]? = some connection)
      (reading : connection.phase = .reading) :
      Step cfg site (.message number changes) (site.receive connection changes)
  | ended (site : Site) (number : Nat) (connection : Connection)
      (found : site.connections[number]? = some connection)
      (reading : connection.phase = .reading) :
      Step cfg site (.ended number) (site.leaveLoop number connection)
  | removed (site : Site) (number : Nat) (connection : Connection)
      (found : site.connections[number]? = some connection)
      (hasEnded : connection.phase = .ended) :
      Step cfg site (.removed number) (site.removePeer number connection)

def Reached (cfg : SiteConfig) (server : Server) (site : Site) : Prop :=
  Run (Step cfg) (fun _ _ => True) (start server) site

end Site

/-! Whatever the server takes in was signed. -/

/-- The request carries a signature of its body and of a time close to `now`. -/
def HttpRequest.Authentic (cfg : SiteConfig) (now : Int) (request : HttpRequest) : Prop :=
  ∃ ts, atoi (Header.get request.header timestampHeader) = some ts ∧ WithinSkew now ts ∧
    request.broken = false ∧ Header.get request.header signatureHeader =
      signBody cfg.mac cfg.secret ts request.received

/-- The records that a body asks the server to take in. -/
def SyncRoute.pushes (codec : SyncCodec) (body : Bytes) : SyncRoute → List Record
  | .push =>
      match decodeBody codec.push body with
      | .ok changes => changes
      | .error _ => []
  | .binPush => Server.decodePush body.length body
  | _ => []

def HttpRequest.pushes (codec : SyncCodec) (request : HttpRequest) : List Record :=
  match request.path with
  | .sync route => route.pushes codec request.received
  | _ => []

/-- Whatever is new in a server comes from some records. -/
structure Server.Absorbs (before after : Server) (source : Record → Prop) : Prop where
  stored : ∀ position held, after.store.records.lookup position = some held →
    before.store.records.lookup position = some held ∨ ∃ r, source r ∧ held = r.defaulted
  marked : ∀ writer clock, Watermark.Reached after.kv writer clock →
    Watermark.Reached before.kv writer clock ∨
      ∃ r, source r ∧ r.updatedBy = writer ∧ clock ≤ r.clock

namespace Server.Absorbs

variable {before middle after : Server} {source other : Record → Prop}

theorem of_same (records : after.store.records = before.store.records)
    (kv : after.kv = before.kv) : Absorbs before after source where
  stored _ _ found := .inl (records ▸ found)
  marked _ _ reached := .inl (kv ▸ reached)

theorem mono (absorbs : Absorbs before after source) (wider : ∀ r, source r → other r) :
    Absorbs before after other where
  stored position held found := (absorbs.stored position held found).imp_right
    fun ⟨r, isSource, same⟩ => ⟨r, wider r isSource, same⟩
  marked writer clock reached := (absorbs.marked writer clock reached).imp_right
    fun ⟨r, isSource, same⟩ => ⟨r, wider r isSource, same⟩

theorem trans (first : Absorbs before middle source) (second : Absorbs middle after source) :
    Absorbs before after source where
  stored position held found := by
    rcases second.stored position held found with earlier | new
    · exact first.stored position held earlier
    · exact .inr new
  marked writer clock reached := by
    rcases second.marked writer clock reached with earlier | new
    · exact first.marked writer clock earlier
    · exact .inr new

theorem ingestAll (server : Server) (changes : List Record) :
    Absorbs server (server.ingestAll changes) (· ∈ changes) where
  stored position held found := by
    rw [Server.ingestAll_store] at found
    rcases MemoryStore.lookup_putAll_source found with before | ⟨r, member, rfl, _⟩
    · exact .inl before
    · exact .inr ⟨r, member, rfl⟩
  marked writer clock reached := by
    rcases (Server.reached_ingestAll_iff _ _ _ _).mp reached with
      before | ⟨r, member, same, below⟩
    · exact .inl before
    · exact .inr ⟨r, member, same, below⟩

end Server.Absorbs

namespace Server

variable {cfg : SiteConfig} {now : Int} {server : Server} {request : HttpRequest}

theorem absorbs_replies (reply : Reply) {source : Record → Prop} :
    server.Absorbs (server.replies reply).server source :=
  .of_same rfl rfl

theorem absorbs_postOnly {outcome : Outcome} {source : Record → Prop}
    (absorbs : server.Absorbs outcome.server source) :
    server.Absorbs (server.postOnly request outcome).server source := by
  unfold postOnly
  split
  next => exact absorbs_replies _
  next => exact absorbs

theorem absorbs_servePush (codec : SyncCodec) (body : Bytes) :
    server.Absorbs (server.servePush codec body).server (· ∈ SyncRoute.push.pushes codec body) := by
  unfold servePush SyncRoute.pushes
  cases decodeBody codec.push body with
  | error => exact absorbs_replies _
  | ok changes =>
      change server.Absorbs (server.handlePush changes).2 (· ∈ changes)
      rw [handlePush_server]
      exact .ingestAll server changes

theorem absorbs_serveSync (codec : SyncCodec)
    (listing : Listing server.store (orDefault request.col)) (body : ServedBody)
    (route : SyncRoute) :
    server.Absorbs (server.serveSync codec request listing body route).server
      (· ∈ route.pushes codec body.received) := by
  cases route with
  | pull =>
      refine absorbs_postOnly ?_
      unfold servePull
      cases decodeBody codec.pull body.received with
      | error => exact absorbs_replies _
      | ok since => exact .of_same (server.store.getChangesSince_records since) rfl
  | push => exact absorbs_postOnly (absorbs_servePush codec body.received)
  | check =>
      refine absorbs_postOnly ?_
      unfold serveCheck
      cases decodeBody codec.check body.received <;> exact absorbs_replies _
  | binCheck =>
      refine absorbs_postOnly ?_
      unfold serveBinCheck
      cases body.broken with
      | true => exact absorbs_replies _
      | false =>
          cases NellDB.handleBinCheck listing.ordered body.received <;> exact absorbs_replies _
  | binPush =>
      refine absorbs_postOnly ?_
      change server.Absorbs (server.handleBinPush body.received).2 _
      rw [handleBinPush_server]
      exact .ingestAll server _
  | ws =>
      unfold serveSync serveWebSocket
      cases request.upgradeRefusal <;> exact absorbs_replies _

/-- Behind `HMACAuth` a request is refused, or it is authentic and its body is handed
on as a whole. -/
theorem authenticated_cases (keyed : cfg.secret ≠ [])
    (nonempty : ∀ message, cfg.mac cfg.secret message ≠ []) (next : ServedBody → Outcome) :
    (∃ status message, server.authenticated cfg now request next =
      server.replies (.error status message)) ∨
    request.Authentic cfg now ∧
      server.authenticated cfg now request next = next ⟨request.received, false⟩ := by
  unfold authenticated
  cases verdict : hmacAuth cfg.mac cfg.secret now request.signed with
  | error failure => exact .inl ⟨_, _, rfl⟩
  | ok handed =>
      obtain ⟨ts, body, parsed, within, read, signature, rfl⟩ :=
        (hmacAuth_ok_iff keyed nonempty now request.signed handed).mp verdict
      refine .inr ?_
      cases broken : request.broken with
      | true =>
          rw [HttpRequest.signed, broken] at read
          cases read
      | false =>
          rw [HttpRequest.signed, broken] at read
          cases read
          exact ⟨⟨ts, parsed, within, broken, signature⟩, rfl⟩

theorem authenticated_of_authentic (keyed : cfg.secret ≠ [])
    (nonempty : ∀ message, cfg.mac cfg.secret message ≠ [])
    (authentic : request.Authentic cfg now) (next : ServedBody → Outcome) :
    server.authenticated cfg now request next = next ⟨request.received, false⟩ := by
  obtain ⟨ts, parsed, within, whole, signature⟩ := authentic
  have read : request.signed.body.readAll = some request.received := by
    rw [HttpRequest.signed, whole]
    rfl
  have passes := (hmacAuth_ok_iff keyed nonempty now request.signed _).mpr
    ⟨ts, request.received, parsed, within, read, signature, rfl⟩
  unfold authenticated
  rw [passes]
  rfl

theorem authenticated_of_open (unkeyed : cfg.secret = []) (next : ServedBody → Outcome) :
    server.authenticated cfg now request next = next ⟨request.received, request.broken⟩ := by
  have passes : hmacAuth cfg.mac cfg.secret now request.signed =
      .ok (.original request.signed.body) := if_pos unkeyed
  unfold authenticated
  rw [passes]

theorem handler_of_octetStream (octets : Header.get request.header contentTypeHeader = octetStream)
    (listing : Listing server.store (orDefault request.col)) {route : SyncRoute}
    (isRoute : request.path = .sync route) :
    server.handler cfg now request listing = server.authenticated cfg now request fun body =>
      server.serveSync cfg.codec request listing body route := by
  unfold handler
  dsimp only
  rw [if_neg (by simp [octets])]
  unfold serve
  simp only [isRoute]

/-- The step lemma of a request: what it changes, and that it opens a connection only
if it is authentic. -/
theorem handler_absorbs (keyed : cfg.secret ≠ [])
    (nonempty : ∀ message, cfg.mac cfg.secret message ≠ [])
    (listing : Listing server.store (orDefault request.col)) :
    server.Absorbs (server.handler cfg now request listing).server
      (fun r => request.Authentic cfg now ∧ r ∈ request.pushes cfg.codec) ∧
    ((server.handler cfg now request listing).reply.content = .upgraded →
      request.Authentic cfg now) := by
  have refused (reply : Reply) (failed : reply.content ≠ .upgraded) :
      server.Absorbs (server.replies reply).server
        (fun r => request.Authentic cfg now ∧ r ∈ request.pushes cfg.codec) ∧
      ((server.replies reply).reply.content = .upgraded → request.Authentic cfg now) :=
    ⟨absorbs_replies reply, fun upgraded => absurd upgraded failed⟩
  unfold handler
  dsimp only
  split
  next => exact refused _ nofun
  next =>
      unfold serve
      split
      next => exact refused _ nofun
      next => exact refused _ nofun
      next route isRoute =>
          rcases @authenticated_cases cfg now server request keyed nonempty
            (fun body => server.serveSync cfg.codec request listing body route) with
            ⟨status, message, isError⟩ | ⟨authentic, served⟩
          · rw [isError]
            exact refused _ nofun
          · rw [served]
            refine ⟨(absorbs_serveSync cfg.codec listing _ route).mono ?_, fun _ => authentic⟩
            intro r member
            rw [HttpRequest.pushes, isRoute]
            exact ⟨authentic, member⟩
      next =>
          rcases @authenticated_cases cfg now server request keyed nonempty
            (fun _ => server.replies (.error 404 "404 page not found")) with
            ⟨status, message, isError⟩ | ⟨_, served⟩
          · rw [isError]
            exact refused _ nofun
          · rw [served]
            exact refused _ nofun
      next => exact refused _ nofun
      next => exact refused _ nofun

end Server

namespace Site

variable {cfg : SiteConfig} {site next : Site} {event : SiteEvent}

/-- The record came in the body of an authentic request, or over a connection that
an authentic request opened. -/
def Licensed (cfg : SiteConfig) (site : Site) (r : Record) : Prop :=
  (∃ now request, (now, request) ∈ site.requests ∧ request.Authentic cfg now ∧
    r ∈ request.pushes cfg.codec) ∨
  ∃ connection changes, (connection, changes) ∈ site.messages ∧
    connection.opener.Authentic cfg connection.openedAt ∧ r ∈ changes

theorem Licensed.mono {r : Record} (licensed : site.Licensed cfg r)
    (requests : site.requests ⊆ next.requests) (messages : site.messages ⊆ next.messages) :
    next.Licensed cfg r := by
  rcases licensed with ⟨now, request, served, licence⟩ | ⟨connection, changes, sent, licence⟩
  · exact .inl ⟨now, request, requests served, licence⟩
  · exact .inr ⟨connection, changes, messages sent, licence⟩

structure Signed (cfg : SiteConfig) (first : Server) (site : Site) : Prop where
  absorbs : first.Absorbs site.server (site.Licensed cfg)
  opened : ∀ connection ∈ site.connections,
    connection.opener.Authentic cfg connection.openedAt

variable {first : Server}

theorem signed_start (cfg : SiteConfig) (first : Server) : Signed cfg first (start first) where
  absorbs := .of_same rfl rfl
  opened _ member := nomatch member

theorem Signed.serve (signed : Signed cfg first site) {now : Int} {request : HttpRequest}
    {server : Server} (absorbs : site.server.Absorbs server
      (fun r => request.Authentic cfg now ∧ r ∈ request.pushes cfg.codec)) :
    Signed cfg first
      { site with server, requests := site.requests ++ [(now, request)] } where
  absorbs := by
    refine (signed.absorbs.mono fun r licensed => ?_).trans (absorbs.mono fun r licence => ?_)
    · exact licensed.mono (List.subset_append_left _ _) (List.Subset.refl _)
    · exact .inl ⟨now, request, List.mem_append_right _ (List.mem_singleton_self _), licence⟩
  opened := signed.opened

theorem Signed.register (signed : Signed cfg first site) {now : Int} {request : HttpRequest}
    (authentic : request.Authentic cfg now) : Signed cfg first (site.register now request) where
  absorbs := signed.absorbs
  opened connection member := by
    rcases List.mem_append.mp member with before | isNew
    · exact signed.opened connection before
    · rw [List.mem_singleton.mp isNew]
      exact authentic

theorem Signed.receive (signed : Signed cfg first site) {connection : Connection}
    (member : connection ∈ site.connections) (changes : List Record) :
    Signed cfg first (site.receive connection changes) where
  absorbs := by
    have ingests : site.server.Absorbs (site.server.handleWebSocket changes) (· ∈ changes) := by
      rw [Server.handleWebSocket_server]
      exact .ingestAll site.server changes
    refine (signed.absorbs.mono fun r licensed => ?_).trans (ingests.mono fun r isChange => ?_)
    · exact licensed.mono (List.Subset.refl _) (List.subset_append_left _ _)
    · exact .inr ⟨connection, changes, List.mem_append_right _ (List.mem_singleton_self _),
        signed.opened connection member, isChange⟩
  opened := signed.opened

theorem Step.signed (step : Step cfg site event next) (keyed : cfg.secret ≠ [])
    (nonempty : ∀ message, cfg.mac cfg.secret message ≠ []) (signed : Signed cfg first site) :
    Signed cfg first next := by
  cases step with
  | request now request listing =>
      obtain ⟨absorbs, opens⟩ :=
        @Server.handler_absorbs cfg now site.server request keyed nonempty listing
      unfold answer
      dsimp only
      split
      next upgraded => exact (signed.serve absorbs).register (opens upgraded)
      next => exact signed.serve absorbs
  | message number changes connection found =>
      exact signed.receive (List.mem_of_getElem? found) changes
  | ended number connection found | removed number connection found =>
      refine ⟨signed.absorbs, fun other member => ?_⟩
      rcases List.mem_or_eq_of_mem_set member with before | rfl
      · exact signed.opened other before
      · exact signed.opened connection (List.mem_of_getElem? found)

theorem Reached.signed (keyed : cfg.secret ≠ [])
    (nonempty : ∀ message, cfg.mac cfg.secret message ≠ []) (reached : Reached cfg first site) :
    Signed cfg first site :=
  Run.keeps (fun signed _ step => step.signed keyed nonempty signed) reached
    (signed_start cfg first)

end Site

/-- A server with a secret takes nothing in unsigned.  After any requests, messages and
ends of connections, whatever it stores and whatever its vector has reached was there
at the start, came in the body of a request with a valid signature, or over a
connection that such a request opened. -/
theorem site_takes_only_signed {cfg : SiteConfig} (keyed : cfg.secret ≠ [])
    (nonempty : ∀ message, cfg.mac cfg.secret message ≠ []) {first : Server} {site : Site}
    (reached : Site.Reached cfg first site) :
    (∀ position held, site.server.store.records.lookup position = some held →
      first.store.records.lookup position = some held ∨
        ∃ r, site.Licensed cfg r ∧ held = r.defaulted) ∧
    ∀ writer clock, Watermark.Reached site.server.kv writer clock →
      Watermark.Reached first.kv writer clock ∨
        ∃ r, site.Licensed cfg r ∧ r.updatedBy = writer ∧ clock ≤ r.clock := by
  have signed := reached.signed keyed nonempty
  exact ⟨signed.absorbs.stored, signed.absorbs.marked⟩

/-- A client pushes one note with a signed request. -/
theorem site_takes_only_signed_note :
    ∃ (cfg : SiteConfig) (first : Server) (site : Site) (held r : Record),
      site.Reached cfg first ∧ site.server.store.records.lookup held.key = some held ∧
      site.Licensed cfg r ∧ held = r.defaulted := by
  let codec : SyncCodec := ⟨fun _ => .invalid, fun _ => .invalid, fun _ => .invalid⟩
  let cfg : SiteConfig := ⟨fun key message => key ++ message, ascii ['k'], codec⟩
  let first := newServer (newMemoryStore (ascii ['s']) 1000) (ascii ['s'])
  let note := plainNote (ascii ['x']) 2000
  let body := wireFrames [note]
  let header := Header.set (Header.set (Header.set ∅ contentTypeHeader octetStream)
    timestampHeader (itoa 1700000000)) signatureHeader
    (signBody cfg.mac cfg.secret 1700000000 body)
  let request : HttpRequest :=
    ⟨methodPost, .sync .binPush, [], header, body, false, ascii ['a'], some .badRequest⟩
  let listing : Listing first.store (orDefault request.col) := ⟨[], by decide +kernel, .nil⟩
  let site := (Site.start first).answer (1700000001 * 10 ^ 9) request
    (first.handler cfg (1700000001 * 10 ^ 9) request listing)
  have reached : site.Reached cfg first := .step .start trivial
    (.request (.start first) (1700000001 * 10 ^ 9) request listing)
  have stored : site.server.store.records.lookup note.key = some note := by
    rw [Site.answer_server]
    decide +kernel
  have absent : first.store.records.lookup note.key = none := by decide +kernel
  have nonempty (message : Bytes) : cfg.mac cfg.secret message ≠ [] := List.cons_ne_nil _ _
  rcases (site_takes_only_signed (List.cons_ne_nil _ _) nonempty reached).1 note.key note stored
    with before | ⟨r, licensed, same⟩
  · rw [absent] at before
    cases before
  · exact ⟨cfg, first, site, note, r, reached, stored, licensed, same⟩

end NellDB
