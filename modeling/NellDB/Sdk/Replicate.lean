import NellDB.Data.Interleaving
import NellDB.Sdk.Commit
import NellDB.Server.Wire

namespace NellDB

open Data

/-! Clients that replicate one collection with a server over the binary
protocol.  The steps of several pushes and pulls interleave record by record. -/

/-- A push under way: the records that the server has still to apply. -/
structure Upload (ι : Type) where
  client : ι
  remaining : List Record
  maxSent : HLC

/-- A pull under way: the records that the client has still to ingest, and the
error that ends it. -/
structure Download (ι : Type) where
  client : ι
  remaining : List Record
  failure : Option PullError
  maxSeen : HLC

/-- `requests` are the bodies of checks that are not answered yet; `written`
lists the local writes of each client, the latest first. -/
structure System (ι : Type) where
  server : Server
  clients : ι → DocDB
  written : ι → List Record
  requests : Multiset (ι × Bytes)
  uploads : Multiset (Upload ι)
  downloads : Multiset (Download ι)

def DocDB.finishSync (platform : Platform) (db : DocDB) (env : CallEnv) (clock : HLC) :
    DocDB :=
  if clock.greaterThan HLC.zero then db.advanceClock platform env clock else db

theorem DocDB.finishSync_cases (platform : Platform) (db : DocDB) (env : CallEnv)
    (clock : HLC) :
    db.finishSync platform env clock = db ∨
      ∃ kept : Record, db.Bookkeeping kept ∧
        db.finishSync platform env clock =
          { db with
            store := db.store.afterPut kept
            lastSeenClock := clock } := by
  unfold finishSync advanceClock
  split
  next =>
      split
      next =>
          right
          exact ⟨metaClock platform { db with lastSeenClock := clock } env clock,
            ⟨rfl, rfl, rfl⟩, rfl⟩
      next => exact .inl rfl
  next => exact .inl rfl

inductive SyncAction (ι : Type) where
  | call (client : ι) (issued : LocalCall)
  | answer (client : ι) (body : Bytes)
  | transfer

namespace System

variable {ι : Type}

/-- `push` of the slice `all`; the server works on the body as it decodes it. -/
def beginPush (sys : System ι) (client : ι) (all : List Record) : System ι :=
  let filtered := all.filter fun r => !isInternalID r.id
  let body := wireFrames filtered
  let upload : Upload ι :=
    { client
      remaining := Server.decodePush body.length body
      maxSent := filtered.foldl seeClock HLC.zero }
  { sys with uploads := upload ::ₘ sys.uploads }

/-- A check is answered and the client reads the reply. -/
def answer (sys : System ι) (client : ι) (others : Multiset (ι × Bytes)) (reply : Bytes) :
    System ι :=
  let frames := readFrames reply.length reply
  let download : Download ι :=
    { client
      remaining := frames.1
      failure := frames.2
      maxSeen := HLC.zero }
  { sys with
    requests := others
    downloads := download ::ₘ sys.downloads }

theorem uploads_beginPush (sys : System ι) (client : ι) {all : List Record}
    (fits : ∀ r ∈ all.filter (fun r => !isInternalID r.id), FitsWire r) :
    (sys.beginPush client all).uploads =
      ⟨client, all.filter fun r => !isInternalID r.id,
        (all.filter fun r => !isInternalID r.id).foldl seeClock HLC.zero⟩ ::ₘ
          sys.uploads := by
  simp only [beginPush, decodePush_wireFrames fits (length_le_wireFrames _)]

theorem downloads_answer (sys : System ι) (client : ι) (others : Multiset (ι × Bytes))
    {records : List Record} (fits : ∀ r ∈ records, FitsWire r) :
    (sys.answer client others (wireFrames records)).downloads =
      ⟨client, records, none, HLC.zero⟩ ::ₘ sys.downloads := by
  simp only [answer, readFrames_wireFrames fits (length_le_wireFrames _)]

variable [DecidableEq ι]

def setClient (sys : System ι) (client : ι) (db : DocDB) : System ι :=
  { sys with clients := Function.update sys.clients client db }

def call (platform : Platform) (sys : System ι) (client : ι) (issued : LocalCall) :
    System ι :=
  let db := sys.clients client
  { sys.setClient client (db.call platform issued) with
    written := Function.update sys.written client
      ((db.writes platform issued).toList ++ sys.written client) }

/-- Slices come in any map order, and each call finds its own environment. -/
inductive Step (platform : Platform) : System ι → SyncAction ι → System ι → Prop
  | call (sys : System ι) (client : ι) (issued : LocalCall) :
      Step platform sys (.call client issued) (sys.call platform client issued)
  | beginPush (sys : System ι) (client : ι) (all : List Record)
      (listed : (all : Multiset Record) =
        (sys.clients client).store.listAll (sys.clients client).collection) :
      Step platform sys .transfer (sys.beginPush client all)
  | applyPush (sys : System ι) (client : ι) (r : Record) (rest : List Record)
      (maxSent : HLC) (others : Multiset (Upload ι))
      (waiting : sys.uploads = ⟨client, r :: rest, maxSent⟩ ::ₘ others) :
      Step platform sys .transfer { sys with
        server := sys.server.ingest r
        uploads := ⟨client, rest, maxSent⟩ ::ₘ others }
  | endPush (sys : System ι) (env : CallEnv) (client : ι) (maxSent : HLC)
      (others : Multiset (Upload ι))
      (waiting : sys.uploads = ⟨client, [], maxSent⟩ ::ₘ others) :
      Step platform sys .transfer { sys.setClient client
          ((sys.clients client).finishSync platform env maxSent) with
        uploads := others }
  | beginPull (sys : System ι) (client : ι)
      (entries : KnowledgeVector.Entries (sys.clients client).vector) :
      Step platform sys .transfer { sys with
        requests := (client, KnowledgeVector.marshalBinary entries) ::ₘ sys.requests }
  | answer (sys : System ι) (client : ι) (body : Bytes) (others : Multiset (ι × Bytes))
      (listing : Listing sys.server.store (sys.clients client).collection) (reply : Bytes)
      (waiting : sys.requests = (client, body) ::ₘ others)
      (answered : handleBinCheck listing.ordered body = .ok reply) :
      Step platform sys (.answer client body) (sys.answer client others reply)
  | ingest (sys : System ι) (env : CallEnv) (client : ι) (r : Record) (rest : List Record)
      (failure : Option PullError) (maxSeen : HLC) (others : Multiset (Download ι))
      (waiting : sys.downloads = ⟨client, r :: rest, failure, maxSeen⟩ ::ₘ others) :
      Step platform sys .transfer { sys.setClient client
          ((sys.clients client).ingestRemote platform env r) with
        downloads := ⟨client, rest, failure, seeClock maxSeen r⟩ ::ₘ others }
  | endPull (sys : System ι) (env : CallEnv) (client : ι) (maxSeen : HLC)
      (others : Multiset (Download ι))
      (waiting : sys.downloads = ⟨client, [], none, maxSeen⟩ ::ₘ others) :
      Step platform sys .transfer { sys.setClient client
          ((sys.clients client).finishSync platform env maxSeen) with
        downloads := others }
  | failPull (sys : System ι) (client : ι) (failure : PullError) (maxSeen : HLC)
      (others : Multiset (Download ι))
      (waiting : sys.downloads = ⟨client, [], some failure, maxSeen⟩ ::ₘ others) :
      Step platform sys .transfer { sys with downloads := others }

def Reaches (platform : Platform) (allowed : System ι → SyncAction ι → Prop) :
    System ι → System ι → Prop :=
  Run (Step platform) allowed

def start (platform : Platform) (serverNode : GoString) (nodes : ι → GoString)
    (collection : GoString) (now : Int64) : System ι where
  server := newServer (newMemoryStore serverNode now) serverNode
  clients client :=
    newDocDB platform (newMemoryStore (nodes client) now) (nodes client) collection []
  written _ := []
  requests := 0
  uploads := 0
  downloads := 0

/-- Every local write is stamped after the earlier ones of its client. -/
def Increasing (platform : Platform) (sys : System ι) : SyncAction ι → Prop
  | .call client issued => ∀ r, (sys.clients client).writes platform issued = some r →
      ∀ earlier ∈ sys.written client, r.clock.greaterThan earlier.clock = true
  | _ => True

/-- Local writes fit the binary format, and no check is answered with a record
while an older one of the same writer waits in a push, unless the server or the
client has that one covered. -/
def Orderly (platform : Platform) (sys : System ι) : SyncAction ι → Prop
  | .call client issued => ∀ r, (sys.clients client).writes platform issued = some r →
      FitsWire r
  | .answer client body => ∀ kv, KnowledgeVector.unmarshalBinary body = .ok kv →
      ∀ r ∈ sys.server.store.listAll (sys.clients client).collection,
        Server.unseen kv r = true → ∀ upload ∈ sys.uploads, ∀ waiting ∈ upload.remaining,
          waiting.updatedBy = r.updatedBy → waiting.clock ≤ r.clock →
          sys.server.store.Covers waiting ∨ (sys.clients client).store.Covers waiting
  | .transfer => True

end System

end NellDB
