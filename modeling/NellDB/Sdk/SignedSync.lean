import NellDB.Sdk.Sync
import NellDB.Sdk.Transport
import NellDB.Server.Handler

namespace NellDB

open Data

/-! `Sync` over HTTP: the requests of a replicator, signed by its transport if there is
a secret, against the handler of a server. -/

/-- When a request is sent, by the client's clock, and served, by the server's. -/
structure Exchange where
  sentAt : Int
  servedAt : Int
  remoteAddr : GoString

def binRequest (route : SyncRoute) (col : GoString) (body : Bytes) (remoteAddr : GoString) :
    HttpRequest where
  method := methodPost
  path := .sync route
  col := col
  header := Header.set ∅ contentTypeHeader octetStream
  received := body
  broken := false
  remoteAddr := remoteAddr
  upgradeRefusal := some .badRequest

/-- The header that goes out: `SetAuthSecret` installs the signing transport. -/
def outgoingHeader (cfg : SiteConfig) (now : Int) (request : HttpRequest) : Option Header :=
  if cfg.secret = [] then
    some request.header
  else
    (signingRoundTrip cfg.mac cfg.secret now request.signed).map Request.header

inductive HttpFailure where
  | unsent
  | server (status : Nat) (content : Content)
  | response
  | pull (failure : PullError)

/-- The bytes of a binary reply. -/
def Content.binary : Content → Option Bytes
  | frames bytes => some bytes
  | _ => none

namespace DocDB

def pushOver (platform : Platform) (env : CallEnv) (cfg : SiteConfig) (exchange : Exchange)
    (db : DocDB) (server : Server) (all : List Record)
    (listing : Listing server.store (orDefault db.collection)) :
    Except HttpFailure Nat × DocDB × Server :=
  let request := binRequest .binPush db.collection (wireFrames (shared all)) exchange.remoteAddr
  match outgoingHeader cfg exchange.sentAt request with
  | none => (.error .unsent, db, server)
  | some header =>
      let outcome := server.handler cfg exchange.servedAt { request with header } listing
      if outcome.reply.status ≠ 200 then
        (.error (.server outcome.reply.status outcome.reply.content), db, outcome.server)
      else
        match outcome.reply.content.binary with
        | none => (.error .response, db, outcome.server)
        | some bytes =>
            if bytes.length < 4 then
              (.error .response, db, outcome.server)
            else
              (.ok (fieldValue (bytes.take 4)),
                db.finishSync platform env ((shared all).foldl seeClock HLC.zero),
                outcome.server)

def pullOver (platform : Platform) (envs : Nat → CallEnv) (last : CallEnv) (cfg : SiteConfig)
    (exchange : Exchange) (db : DocDB) (server : Server)
    (entries : KnowledgeVector.Entries db.vector)
    (listing : Listing server.store (orDefault db.collection)) :
    (Nat × Option HttpFailure) × DocDB × Server :=
  let request := binRequest .binCheck db.collection (KnowledgeVector.marshalBinary entries)
    exchange.remoteAddr
  match outgoingHeader cfg exchange.sentAt request with
  | none => ((0, some .unsent), db, server)
  | some header =>
      let outcome := server.handler cfg exchange.servedAt { request with header } listing
      if outcome.reply.status ≠ 200 then
        ((0, some (.server outcome.reply.status outcome.reply.content)), db, outcome.server)
      else
        match outcome.reply.content.binary with
        | none => ((0, some .response), db, outcome.server)
        | some bytes =>
            let received := db.receive platform envs last bytes false
            ((received.1.1, received.1.2.map .pull), received.2, outcome.server)

end DocDB

/-- How a client sees the failures of a pull over HTTP. -/
def SyncError.overHttp : SyncError → HttpFailure
  | refused failure => .server 400 (.vectorRefused failure)
  | pull failure => .pull failure

section

variable {cfg : SiteConfig} {exchange : Exchange}
  (nonempty : ∀ message, cfg.mac cfg.secret message ≠ [])
  (within : WithinSkew exchange.servedAt (unixSeconds exchange.sentAt))

include nonempty within

/-- The middlewares hand a replicator's request on as it is, with or without a secret. -/
theorem handler_outgoing (server : Server) (route : SyncRoute) (col : GoString) (body : Bytes)
    (listing : Listing server.store (orDefault col)) :
    let request := binRequest route col body exchange.remoteAddr
    ∃ header, outgoingHeader cfg exchange.sentAt request = some header ∧
      server.handler cfg exchange.servedAt { request with header } listing =
        server.serveSync cfg.codec { request with header } listing ⟨body, false⟩ route := by
  intro request
  by_cases unkeyed : cfg.secret = []
  · refine ⟨request.header, if_pos unkeyed, ?_⟩
    rw [@Server.handler_of_octetStream cfg exchange.servedAt server request
      (Header.get_set _ _ _) listing route rfl]
    exact Server.authenticated_of_open unkeyed _
  · let ts := unixSeconds exchange.sentAt
    let stamped := Header.set request.header timestampHeader (itoa ts)
    let signature := signBody cfg.mac cfg.secret ts body
    let sent : HttpRequest :=
      { request with header := Header.set stamped signatureHeader signature }
    have octets : Header.get sent.header contentTypeHeader = octetStream := by
      have notSignature : contentTypeHeader ≠ signatureHeader := by decide
      have notTimestamp : contentTypeHeader ≠ timestampHeader := by decide
      rw [Header.get_set_of_ne _ notSignature, Header.get_set_of_ne _ notTimestamp]
      exact Header.get_set _ _ _
    have authentic : sent.Authentic cfg exchange.servedAt := by
      refine ⟨ts, ?_, within, rfl, Header.get_set _ _ _⟩
      rw [Header.get_set_of_ne _ timestampHeader_ne_signatureHeader, Header.get_set]
      exact atoi_itoa ts
    refine ⟨sent.header, if_neg unkeyed, ?_⟩
    rw [@Server.handler_of_octetStream cfg exchange.servedAt server sent octets listing route rfl]
    exact Server.authenticated_of_authentic unkeyed nonempty authentic _

theorem DocDB.pushOver_eq (platform : Platform) (env : CallEnv) (db : DocDB) (server : Server)
    (all : List Record) (listing : Listing server.store (orDefault db.collection)) :
    db.pushOver platform env cfg exchange server all listing =
      (.ok (db.push platform env server all).1, (db.push platform env server all).2) := by
  obtain ⟨header, outgoing, served⟩ := handler_outgoing nonempty within server .binPush
    db.collection (wireFrames (shared all)) listing
  have width : (server.handleBinPush (wireFrames (shared all))).1.length = 4 :=
    length_bigEndian 4 _
  unfold DocDB.pushOver DocDB.push
  dsimp only
  rw [outgoing]
  dsimp only
  rw [served]
  simp [Server.serveSync, Server.postOnly, binRequest, Server.serveBinPush, Content.binary, width]

theorem DocDB.pullOver_eq (platform : Platform) (envs : Nat → CallEnv) (last : CallEnv)
    (db : DocDB) (server : Server) (entries : KnowledgeVector.Entries db.vector)
    (listing : Listing server.store (orDefault db.collection)) :
    db.pullOver platform envs last cfg exchange server entries listing =
      let pulled := db.pull platform envs last listing.ordered entries
      ((pulled.1.1, pulled.1.2.map SyncError.overHttp), pulled.2, server) := by
  obtain ⟨header, outgoing, served⟩ := handler_outgoing nonempty within server .binCheck
    db.collection (KnowledgeVector.marshalBinary entries) listing
  unfold DocDB.pullOver DocDB.pull
  dsimp only
  rw [outgoing]
  dsimp only
  rw [served]
  simp only [Server.serveSync, Server.postOnly, binRequest, Server.serveBinCheck]
  cases handleBinCheck listing.ordered (KnowledgeVector.marshalBinary entries) with
  | error failure => simp [Server.replies, SyncError.overHttp]
  | ok reply => simp [Server.replies, Content.binary, Function.comp_def, SyncError.overHttp]

end

/-- A `Sync` through the signing transport, the content type check, the routes and the
authentication is the plain `Sync`: the same counts, the same client and the same
server.  The two sides have one secret or none, and both requests arrive within the
skew. -/
theorem signed_sync_transparent {platform : Platform} {db : DocDB} {server : Server}
    (run : SyncRun platform db server) (named : db.collection ≠ []) {cfg : SiteConfig}
    (nonempty : ∀ message, cfg.mac cfg.secret message ≠ []) {pushing pulling : Exchange}
    (pushWithin : WithinSkew pushing.servedAt (unixSeconds pushing.sentAt))
    (pullWithin : WithinSkew pulling.servedAt (unixSeconds pulling.sentAt))
    (listing : Listing server.store (orDefault db.collection)) :
    let pushed := (db.push platform run.pushEnv server run.all).2.1
    db.pushOver platform run.pushEnv cfg pushing server run.all listing =
      (.ok run.pushed, pushed, run.finalServer) ∧
    ∃ found : Listing run.finalServer.store (orDefault pushed.collection),
      found.ordered = run.listing.ordered ∧
      pushed.pullOver platform run.envs run.last cfg pulling run.finalServer run.entries found =
        ((run.pulled, run.failure.map SyncError.overHttp), run.client, run.finalServer) := by
  intro pushed
  have collection : orDefault pushed.collection = db.collection := by
    rw [← orDefault_of_ne named]
    exact congrArg orDefault (DocDB.finishSync_collection db _ _)
  have complete : (run.listing.ordered : Multiset Record) =
      run.finalServer.store.listAll (orDefault pushed.collection) := by
    rw [collection]
    exact run.listing.complete
  refine ⟨DocDB.pushOver_eq nonempty pushWithin platform run.pushEnv db server run.all listing,
    ⟨run.listing.ordered, complete, run.listing.sorted⟩, rfl, ?_⟩
  exact DocDB.pullOver_eq nonempty pullWithin platform run.envs run.last pushed run.finalServer
    run.entries _

/-- A client with no documents pulls a note with signed requests. -/
theorem signed_sync_transparent_note :
    let r : Record := { Record.zero with
      collection := defaultCollection, id := [120], updatedBy := ascii ['m'] }
    let server := (newServer (newMemoryStore [] 0) []).ingest r
    let codec : SyncCodec := ⟨fun _ => .invalid, fun _ => .invalid, fun _ => .invalid⟩
    let cfg : SiteConfig := ⟨fun key message => key ++ message, ascii ['k'], codec⟩
    let exchange : Exchange := ⟨1700000000 * 10 ^ 9, 1700000001 * 10 ^ 9, []⟩
    ∃ (pushed : DocDB) (entries : KnowledgeVector.Entries pushed.vector)
      (found : Listing server.store (orDefault pushed.collection)) (client : DocDB),
      pushed.pullOver .revOnly (fun _ => .at 1000) (.at 1000) cfg exchange server entries found =
        ((1, none), client, server) := by
  intro r server codec cfg exchange
  let db := newDocDB .revOnly (newMemoryStore [] 0) (ascii ['n']) [] []
  let run : SyncRun .revOnly db server :=
    ⟨[], by decide +kernel, .at 1000, fun _ => .at 1000, .at 1000,
      ⟨[r], by decide +kernel, List.pairwise_singleton _ _⟩, KnowledgeVector.noEntries⟩
  have named : db.collection ≠ [] := by decide
  have nonempty (message : Bytes) : cfg.mac cfg.secret message ≠ [] := List.cons_ne_nil _ _
  have within : WithinSkew exchange.servedAt (unixSeconds exchange.sentAt) := by
    unfold WithinSkew
    decide +kernel
  let listing : Listing server.store (orDefault db.collection) :=
    ⟨[r], by decide +kernel, List.pairwise_singleton _ _⟩
  obtain ⟨_, found, _, pulls⟩ :=
    signed_sync_transparent run named nonempty within within listing
  have one : run.pulled = 1 := by decide +kernel
  have succeeds : run.failure = none := by decide +kernel
  rw [one, succeeds] at pulls
  exact ⟨_, run.entries, found, run.client, pulls⟩

end NellDB
