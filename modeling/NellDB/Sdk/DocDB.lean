import NellDB.Sdk.Doc

namespace NellDB

open Data

def metaClockID : GoString := ascii ['m', 'e', 't', 'a', ':', 'c', 'l', 'o', 'c', 'k']

def metaVectorID : GoString :=
  ascii ['m', 'e', 't', 'a', ':', 'v', 'e', 'c', 't', 'o', 'r']

def isInternalID (id : GoString) : Bool :=
  id.take 5 = ascii ['m', 'e', 't', 'a', ':']

inductive SdkError where
  | context
  | missingID
  | conflict
  | marshal
  | marshalFinal
  | notFound
  | putMany (index : Nat) (id : Option Value) (cause : SdkError)

structure MapOrder where
  clocks : KnowledgeVector → List HLC
  complete : ∀ kv clock, clock ∈ clocks kv ↔ ∃ nodeID, kv.lookup nodeID = some clock

def MapOrder.byNode : MapOrder where
  clocks kv := kv.sortedKeys.filterMap fun nodeID => kv.lookup nodeID
  complete kv clock := by
    rw [List.mem_filterMap]
    constructor
    · rintro ⟨nodeID, _, found⟩
      exact ⟨nodeID, found⟩
    · rintro ⟨nodeID, found⟩
      refine ⟨nodeID, ?_, found⟩
      rw [FiniteMap.mem_sortedKeys]
      exact Finmap.mem_of_lookup_eq_some found

/-- What a call finds outside the database: whether its context is cancelled,
the readings of the system clock in the order they are taken, and the order of
a map iteration. -/
structure CallEnv where
  cancelled : Bool
  missing : Int64
  fresh : Int64
  tick : Int64
  metaFresh : Int64
  metaTick : Int64
  order : MapOrder

def CallEnv.at (now : Int64) : CallEnv where
  cancelled := false
  missing := now
  fresh := now
  tick := now
  metaFresh := now
  metaTick := now
  order := .byNode

/-- The libraries the SDK is built on. -/
structure Platform where
  json : JsonCodec
  sha1 : Bytes → Bytes

/-- Documents of nothing but a revision, with the digests of the empty string
and of the empty object. -/
def Platform.revOnly : Platform where
  json := .revOnly
  sha1 body :=
    if body = [] then
      [0xda, 0x39, 0xa3, 0xee, 0x5e, 0x6b, 0x4b, 0x0d, 0x32, 0x55,
        0xbf, 0xef, 0x95, 0x60, 0x18, 0x90, 0xaf, 0xd8, 0x07, 0x09]
    else
      [0xbf, 0x21, 0xa9, 0xe8, 0xfb, 0xc5, 0xa3, 0x84, 0x6f, 0xb0,
        0x5b, 0x4f, 0xa0, 0x85, 0x9e, 0x09, 0x17, 0xb2, 0x20, 0x2f]

/-- The same for documents that also hold an id. -/
def Platform.idRev : Platform := { Platform.revOnly with json := .idRev }

structure DocDB where
  store : MemoryStore
  nodeID : GoString
  collection : GoString
  named : collection ≠ []
  revs : FiniteMap GoString GoString
  vector : KnowledgeVector
  lastSeenClock : HLC

def laterClock (maxClock clock : HLC) : HLC :=
  if clock.greaterThan maxClock then clock else maxClock

def seeClock (maxClock : HLC) (r : Record) : HLC := laterClock maxClock r.clock

namespace DocDB

def readMetaVector (platform : Platform) (db : DocDB) : Option KnowledgeVector :=
  match db.store.get db.collection metaVectorID with
  | .error _ => none
  | .ok r => platform.json.unmarshalVector r.payload

def readMetaClock (platform : Platform) (db : DocDB) : Option HLC :=
  match db.store.get db.collection metaClockID with
  | .error _ => none
  | .ok r => platform.json.unmarshalClock r.payload

/-- `reindex` for one order `all` of the records that `List` returns. -/
def reindex (platform : Platform) (db : DocDB) (all : List Record) : DocDB :=
  let revs := all.foldl (fun revs r =>
    revs.insert r.id ((r.readRev platform.json).getD revImported)) ∅
  let lastSeenClock := match db.readMetaClock platform with
    | some persisted => laterClock (all.foldl seeClock HLC.zero) persisted
    | none => all.foldl seeClock HLC.zero
  { db with revs, lastSeenClock }

end DocDB

def newDocDB (platform : Platform) (store : MemoryStore) (nodeID collection : GoString)
    (all : List Record) : DocDB :=
  let db : DocDB :=
    { store, nodeID
      collection := orDefault collection
      named := orDefault_ne_nil collection
      revs := ∅
      vector := ∅
      lastSeenClock := HLC.zero }
  let db := { db with vector := (db.readMetaVector platform).getD ∅ }
  db.reindex platform all

namespace DocDB

def metaVector (platform : Platform) (db : DocDB) (env : CallEnv)
    (kv : KnowledgeVector) : Record :=
  let clk := (env.order.clocks kv).foldl HLC.update (newHLC env.metaFresh)
  { Record.zero with
    collection := db.collection
    id := metaVectorID
    type := typeText
    payload := platform.json.marshalVector kv
    clock := clk.tick env.metaTick
    updatedBy := db.nodeID }

def writeMetaVector (platform : Platform) (db : DocDB) (env : CallEnv)
    (kv : KnowledgeVector) : DocDB :=
  { db with store := db.store.afterPut (db.metaVector platform env kv) }

/-- An absent entry reads as the zero clock. -/
def observeVector (platform : Platform) (db : DocDB) (env : CallEnv)
    (nodeID : GoString) (clock : HLC) : DocDB :=
  if nodeID = [] then
    db
  else
    let existing := (db.vector.lookup nodeID).getD HLC.zero
    if clock.greaterThan existing then
      let vector := db.vector.insert nodeID clock
      writeMetaVector platform { db with vector } env vector
    else
      db

def metaClock (platform : Platform) (db : DocDB) (env : CallEnv) (clock : HLC) :
    Record :=
  let clk := (newHLC env.metaFresh).update clock
  { Record.zero with
    collection := db.collection
    id := metaClockID
    type := typeText
    payload := platform.json.marshalClock clock
    clock := clk.tick env.metaTick
    updatedBy := db.nodeID }

def writeMetaClock (platform : Platform) (db : DocDB) (env : CallEnv) (clock : HLC) :
    DocDB :=
  { db with store := db.store.afterPut (db.metaClock platform env clock) }

def advanceClock (platform : Platform) (db : DocDB) (env : CallEnv) (clock : HLC) :
    DocDB :=
  if clock.greaterThan db.lastSeenClock then
    writeMetaClock platform { db with lastSeenClock := clock } env clock
  else
    db

/-- The stamp of a local write: a fresh clock, merged with the clock of the
document's stored record. -/
def stampFor (env : CallEnv) (existing : Option HLC) : HLC :=
  let clk := newHLC env.fresh
  let clk := match existing with
    | some clock => clk.update clock
    | none => clk
  clk.tick env.tick

def storedClock (db : DocDB) (id : GoString) : Option HLC :=
  match db.store.get db.collection id with
  | .ok existing => some existing.clock
  | .error _ => none

/-- The revision a write continues from, or a conflict. -/
def baseRev (db : DocDB) (id incomingRev : GoString) (requireExisting : Bool) :
    Except SdkError GoString :=
  let current := db.revs.lookup id
  let curRev := current.getD []
  if incomingRev ≠ [] ∧ curRev ≠ [] ∧ incomingRev ≠ curRev then
    .error .conflict
  else if requireExisting ∧ incomingRev ≠ [] ∧ current = none then
    .error .conflict
  else
    .ok (if incomingRev = [] then curRev else incomingRev)

/-- How every write ends: the record is stored, its revision cached and its
writer's clock observed. -/
def commit (platform : Platform) (db : DocDB) (env : CallEnv) (r : Record)
    (id rev writer : GoString) : DocDB :=
  let db := { db with
    store := db.store.afterPut r
    revs := db.revs.insert id rev }
  db.observeVector platform env writer r.clock

/-- The first part of `Put`: the revision check and the record that is still to be
stamped. -/
def check (platform : Platform) (db : DocDB) (env : CallEnv) (doc : Doc) :
    Except SdkError (GoString × Record) := do
  if env.cancelled then
    throw .context
  let id := doc.stringField fieldID
  if id = [] then
    throw .missingID
  let base ← db.baseRev id (doc.stringField fieldRev) true
  let body := doc.splitDoc
  let raw ← (platform.json.marshal body).elim (.error .marshal) .ok
  let newRev := genRev platform.sha1 base raw
  let final ← (platform.json.marshal (body.insert fieldRev (.string newRev))).elim
    (.error .marshalFinal) .ok
  return (newRev, {
    collection := db.collection
    id
    type := doc.recType
    payload := final
    vector := doc.vector
    clock := HLC.zero
    updatedBy := db.nodeID
    deleted := doc.isDeleted })

def stamp (db : DocDB) (env : CallEnv) (draft : Record) : Record :=
  { draft with clock := stampFor env (db.storedClock draft.id) }

/-- The record that `Put` writes and its new revision. -/
def prepare (platform : Platform) (db : DocDB) (env : CallEnv) (doc : Doc) :
    Except SdkError (GoString × Record) :=
  (db.check platform env doc).map fun checked => (checked.1, db.stamp env checked.2)

/-- `Put` returns the new revision and stamps it into the document. -/
def put (platform : Platform) (db : DocDB) (env : CallEnv) (doc : Doc) :
    Except SdkError (GoString × Doc) × DocDB :=
  match db.prepare platform env doc with
  | .error failure => (.error failure, db)
  | .ok (newRev, written) =>
      (.ok (newRev, doc.insert fieldRev (.string newRev)),
        db.commit platform env written written.id newRev db.nodeID)

def get (platform : Platform) (db : DocDB) (cancelled : Bool) (id : GoString) :
    Except SdkError Doc :=
  if cancelled then
    .error .context
  else
    match db.store.get db.collection id with
    | .error _ => .error .notFound
    | .ok r => if r.deleted then .error .notFound else .ok (r.joinDoc platform.json id)

/-- The tombstone that `Remove` writes and its new revision.  `wantRev` is
empty for a call with a plain id. -/
def prepareRemove (platform : Platform) (db : DocDB) (env : CallEnv)
    (id wantRev : GoString) : Except SdkError (GoString × Record) := do
  if env.cancelled then
    throw .context
  if id = [] then
    throw .missingID
  let base ← db.baseRev id wantRev false
  let stored : Record := match db.store.get db.collection id with
    | .ok r => r
    | .error _ =>
        { Record.zero with
          collection := db.collection
          id
          type := typeText
          clock := newHLC env.missing }
  return (genRev platform.sha1 base [], { stored with
    deleted := true
    updatedBy := db.nodeID
    clock := stampFor env (some stored.clock) })

def remove (platform : Platform) (db : DocDB) (env : CallEnv) (id wantRev : GoString) :
    Except SdkError GoString × DocDB :=
  match db.prepareRemove platform env id wantRev with
  | .error failure => (.error failure, db)
  | .ok (newRev, tombstone) =>
      (.ok newRev, db.commit platform env tombstone id newRev db.nodeID)

end DocDB

inductive LocalCall where
  | put (env : CallEnv) (doc : Doc)
  | remove (env : CallEnv) (id wantRev : GoString)

namespace LocalCall

def env : LocalCall → CallEnv
  | put env _ => env
  | remove env _ _ => env

def id : LocalCall → GoString
  | put _ doc => doc.stringField fieldID
  | remove _ id _ => id

end LocalCall

namespace DocDB

def call (platform : Platform) (db : DocDB) : LocalCall → DocDB
  | .put env doc => (db.put platform env doc).2
  | .remove env id wantRev => (db.remove platform env id wantRev).2

def writes (platform : Platform) (db : DocDB) : LocalCall → Option Record
  | .put env doc => (db.prepare platform env doc).toOption.map Prod.snd
  | .remove env id wantRev =>
      (db.prepareRemove platform env id wantRev).toOption.map Prod.snd

structure BulkSnap where
  id : GoString
  rev : Option GoString

def BulkSnap.restore (revs : FiniteMap GoString GoString) (snap : BulkSnap) :
    FiniteMap GoString GoString :=
  match snap.rev with
  | some rev => revs.insert snap.id rev
  | none => revs.erase snap.id

def rollback (db : DocDB) (prev : List BulkSnap) : DocDB :=
  { db with revs := prev.foldl BulkSnap.restore db.revs }

/-- The loop of `PutMany`; each call has its own environment. -/
def putEach (platform : Platform) (db : DocDB) : (index : Nat) →
    List (CallEnv × Doc) → Except SdkError (List GoString) × DocDB
  | _, [] => (.ok [], db)
  | index, (env, doc) :: rest =>
      match db.put platform env doc with
      | (.error failure, db) =>
          (.error (.putMany index (doc.lookup fieldID) failure), db)
      | (.ok (rev, _), db) =>
          match db.putEach platform (index + 1) rest with
          | (.error failure, db) => (.error failure, db)
          | (.ok revs, db) => (.ok (rev :: revs), db)

def putMany (platform : Platform) (db : DocDB) (cancelled : Bool)
    (docs : List (CallEnv × Doc)) : Except SdkError (List GoString) × DocDB :=
  if cancelled then
    (.error .context, db)
  else
    let prev := docs.map fun (_, doc) =>
      let id := doc.stringField fieldID
      BulkSnap.mk id (db.revs.lookup id)
    match db.putEach platform 0 docs with
    | (.error failure, db) => (.error failure, db.rollback prev)
    | (.ok revs, db) => (.ok revs, db)

def ingestRemote (platform : Platform) (db : DocDB) (env : CallEnv) (r : Record) :
    DocDB :=
  if isInternalID r.id then
    db
  else
    let rev := (r.readRev platform.json).getD revRemote
    db.commit platform env r r.id rev r.updatedBy

end DocDB

end NellDB
