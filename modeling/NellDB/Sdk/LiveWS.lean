import NellDB.Data.Interleaving
import NellDB.Sdk.Commit
import NellDB.Server.Push

namespace NellDB

open Data

/-! Live replication: clients and a server that pass records on over WebSocket
connections. -/

structure Change where
  id : GoString
  rev : GoString
  deleted : Bool
  doc : Option Doc

/-- The record that the send loop builds when the store has none. -/
def Change.rebuild (change : Change) (payload : Bytes) : Record :=
  { Record.zero with
    id := change.id
    deleted := change.deleted
    payload }

namespace DocDB

/-- What a successful call broadcasts to the changes feed. -/
def publish (platform : Platform) (db : DocDB) : LocalCall → Option Change
  | .put env doc =>
      match (db.put platform env doc).1 with
      | .error _ => none
      | .ok (rev, stamped) =>
          some ⟨doc.stringField fieldID, rev, doc.isDeleted, some stamped⟩
  | .remove env id wantRev =>
      match (db.remove platform env id wantRev).1 with
      | .error _ => none
      | .ok rev =>
          let doc : Doc := Finmap.singleton fieldID (.string id)
          some ⟨id, rev, true,
            some ((doc.insert fieldRev (.string rev)).insert fieldDeleted (.bool true))⟩

def publishRemote (platform : Platform) (r : Record) : Option Change :=
  if isInternalID r.id then
    none
  else
    let doc := r.joinDoc platform.json r.id
    some ⟨r.id, (r.readRev platform.json).getD revRemote, r.deleted,
      some (if r.deleted then doc.insert fieldDeleted (.bool true) else doc)⟩

def outgoing (platform : Platform) (db : DocDB) (change : Change) : Option Record :=
  if isInternalID change.id then
    none
  else
    match db.store.get db.collection change.id with
    | .ok r => some r
    | .error _ => change.doc.map fun doc =>
        change.rebuild ((platform.json.marshal doc).getD [])

end DocDB

/-- A message that the receive loop of a connection is working on. -/
structure Receipt where
  changes : List Record
  remaining : List Record
  accepted : Nat

/-- Messages in flight are kept as their receiver decodes them.  `written`
lists the records that local calls wrote, `accepted` the records that a store
took over from a message. -/
structure LiveWS (ι : Type) where
  server : Server
  clients : ι → DocDB
  feeds : ι → List Change
  toServer : Multiset (List Record)
  receipts : Multiset Receipt
  toClients : Multiset (ι × List Record)
  written : List Record
  accepted : List Record

inductive LiveAction (ι : Type) where
  | call (client : ι) (issued : LocalCall)
  | exchange

namespace LiveWS

variable {ι : Type}

def new (platform : Platform) (nodeID collection : ι → GoString) (now : ι → Int64)
    (serverID : GoString) (serverNow : Int64) : LiveWS ι where
  server := newServer (newMemoryStore serverID serverNow) serverID
  clients i := newDocDB platform (newMemoryStore (nodeID i) (now i)) (nodeID i)
    (collection i) []
  feeds _ := []
  toServer := 0
  receipts := 0
  toClients := 0
  written := []
  accepted := []

/-- One WebSocket message with one record; one that has no JSON is not sent. -/
def message (sent : Option Record) : Multiset (List Record) :=
  match sent with
  | some r => if r.hasJson then {[r.overJson]} else 0
  | none => 0

def broadcast (peers : Finset ι) (changes : List Record) : Multiset (ι × List Record) :=
  if changes.all Record.hasJson then
    peers.val.map fun peer => (peer, changes.map Record.overJson)
  else
    0

def noteAccepted (accepts : Bool) (r : Record) (accepted : List Record) : List Record :=
  if accepts then r :: accepted else accepted

def apply (sys : LiveWS ι) (receipt : Receipt) (r : Record) (rest : List Record)
    (others : Multiset Receipt) : LiveWS ι :=
  let accepts := (sys.server.store.put r).1
  { sys with
    server := sys.server.ingest r
    receipts := { receipt with
      remaining := rest
      accepted := if accepts then receipt.accepted + 1 else receipt.accepted } ::ₘ others
    accepted := noteAccepted accepts r sys.accepted }

theorem forall_mem_noteAccepted {good : Record → Prop} {accepts : Bool} {r : Record}
    {accepted : List Record} (first : good r) (others : ∀ other ∈ accepted, good other) :
    ∀ other ∈ noteAccepted accepts r accepted, good other := by
  cases accepts with
  | false => exact others
  | true => exact List.forall_mem_cons.mpr ⟨first, others⟩

variable [DecidableEq ι]

def setClient (sys : LiveWS ι) (client : ι) (db : DocDB) (feed : List Change) : LiveWS ι :=
  { sys with
    clients := Function.update sys.clients client db
    feeds := Function.update sys.feeds client feed }

def call (platform : Platform) (sys : LiveWS ι) (client : ι) (issued : LocalCall)
    (feed : List Change) : LiveWS ι :=
  let db := sys.clients client
  { sys.setClient client (db.call platform issued) feed with
    written := (db.writes platform issued).toList ++ sys.written }

def send (platform : Platform) (sys : LiveWS ι) (client : ι) (change : Change)
    (rest : List Change) : LiveWS ι :=
  { sys with
    feeds := Function.update sys.feeds client rest
    toServer := message ((sys.clients client).outgoing platform change) + sys.toServer }

def ingest (platform : Platform) (sys : LiveWS ι) (env : CallEnv) (client : ι) (r : Record)
    (feed : List Change) (toClients : Multiset (ι × List Record)) : LiveWS ι :=
  let db := sys.clients client
  let accepts := !isInternalID r.id && (db.store.put r).1
  { sys.setClient client (db.ingestRemote platform env r) feed with
    toClients
    accepted := noteAccepted accepts r sys.accepted }

/-- A full subscriber misses the change. -/
def Feeds (feed : List Change) (change : Option Change) (next : List Change) : Prop :=
  next = feed ∨ next = feed ++ change.toList

/-- Messages of one connection may overtake each other and get lost; the peers
of a broadcast are the clients connected at the time. -/
inductive Step (platform : Platform) : LiveWS ι → LiveAction ι → LiveWS ι → Prop
  | call (sys : LiveWS ι) (client : ι) (issued : LocalCall) (feed : List Change)
      (feeds : Feeds (sys.feeds client) ((sys.clients client).publish platform issued) feed) :
      Step platform sys (.call client issued) (sys.call platform client issued feed)
  | send (sys : LiveWS ι) (client : ι) (change : Change) (rest : List Change)
      (waiting : sys.feeds client = change :: rest) :
      Step platform sys .exchange (sys.send platform client change rest)
  | receive (sys : LiveWS ι) (changes : List Record) (others : Multiset (List Record))
      (waiting : sys.toServer = changes ::ₘ others) :
      Step platform sys .exchange { sys with
        toServer := others
        receipts := ⟨changes, changes, 0⟩ ::ₘ sys.receipts }
  | apply (sys : LiveWS ι) (receipt : Receipt) (r : Record) (rest : List Record)
      (others : Multiset Receipt) (waiting : sys.receipts = receipt ::ₘ others)
      (next : receipt.remaining = r :: rest) :
      Step platform sys .exchange (sys.apply receipt r rest others)
  | finish (sys : LiveWS ι) (receipt : Receipt) (others : Multiset Receipt)
      (peers : Finset ι) (waiting : sys.receipts = receipt ::ₘ others)
      (applied : receipt.remaining = []) :
      Step platform sys .exchange { sys with
        receipts := others
        toClients := (if 0 < receipt.accepted then broadcast peers receipt.changes else 0) +
          sys.toClients }
  | ingest (sys : LiveWS ι) (env : CallEnv) (client : ι) (r : Record) (rest : List Record)
      (others : Multiset (ι × List Record)) (feed : List Change)
      (waiting : sys.toClients = (client, r :: rest) ::ₘ others)
      (feeds : Feeds (sys.feeds client) (DocDB.publishRemote platform r) feed) :
      Step platform sys .exchange
        (sys.ingest platform env client r feed ((client, rest) ::ₘ others))
  | loseToServer (sys : LiveWS ι) (changes : List Record) (others : Multiset (List Record))
      (waiting : sys.toServer = changes ::ₘ others) :
      Step platform sys .exchange { sys with toServer := others }
  | loseToClient (sys : LiveWS ι) (sent : ι × List Record)
      (others : Multiset (ι × List Record)) (waiting : sys.toClients = sent ::ₘ others) :
      Step platform sys .exchange { sys with toClients := others }

/-! A property of records that every way of passing them on keeps. -/

structure Passable (good : Record → Prop) (collection : ι → GoString) : Prop where
  overJson : ∀ {r}, good r → good r.overJson
  defaulted : ∀ {r}, good r → good r.defaulted
  rebuilt : ∀ {r}, good r → ∀ client, r.defaulted.collection ≠ collection client →
    ∀ payload, good ({ Record.zero with id := r.id, deleted := r.deleted, payload } :
      Record).overJson

/-- What one client stores, and what its send loop may build. -/
structure Sends (good : Record → Prop) (db : DocDB) (feed : List Change) : Prop where
  stored : ∀ {id r}, isInternalID id = false → db.stored id = some r → good r
  feed : ∀ change ∈ feed, isInternalID change.id = false → db.stored change.id = none →
    ∀ payload, good (change.rebuild payload).overJson

structure Carries (good : Record → Prop) (collection : ι → GoString) (sys : LiveWS ι) :
    Prop where
  sameCollection : ∀ i, (sys.clients i).collection = collection i
  sends : ∀ i, Sends good (sys.clients i) (sys.feeds i)
  toServer : ∀ changes ∈ sys.toServer, ∀ r ∈ changes, good r
  changes : ∀ receipt ∈ sys.receipts, ∀ r ∈ receipt.changes, good r
  remaining : ∀ receipt ∈ sys.receipts, ∀ r ∈ receipt.remaining, good r
  toClients : ∀ sent ∈ sys.toClients, ∀ r ∈ sent.2, good r

namespace Sends

variable {good : Record → Prop} {db : DocDB} {feed : List Change}

theorem commit (sends : Sends good db feed) {r : Record} (isGood : good r.defaulted)
    (platform : Platform) (env : CallEnv) (id rev writer : GoString) :
    Sends good (db.commit platform env r id rev writer) feed where
  stored document found := by
    rw [DocDB.commit_stored platform db env r _ _ _ document,
      MemoryStore.afterPut_records] at found
    rcases Champion.lookup_enter_source found with before | ⟨rfl, _⟩
    · exact sends.stored document before
    · exact isGood
  feed change member document absent := by
    rw [DocDB.commit_stored platform db env r _ _ _ document,
      MemoryStore.afterPut_records] at absent
    refine sends.feed change member document ?_
    cases before : db.stored change.id with
    | none => rfl
    | some held =>
        obtain ⟨later, found, _⟩ :=
          Champion.lookup_enter_le Record.key Record.stamp before r.defaulted
        exact absurd (absent.symm.trans found) (by simp)

theorem publish (sends : Sends good db feed) {published : Option Change}
    (covered : ∀ change, published = some change → isInternalID change.id = false →
      db.stored change.id = none → ∀ payload, good (change.rebuild payload).overJson)
    {next : List Change} (feeds : Feeds feed published next) : Sends good db next where
  stored := sends.stored
  feed change member := by
    rcases feeds with rfl | rfl
    · exact sends.feed change member
    · rcases List.mem_append.mp member with old | new
      · exact sends.feed change old
      · exact covered change (Option.mem_toList.mp new)

theorem outgoing (sends : Sends good db feed)
    (overJson : ∀ {r}, good r → good r.overJson) {platform : Platform} {change : Change}
    (member : change ∈ feed) {r : Record} (sent : db.outgoing platform change = some r) :
    good r.overJson := by
  unfold DocDB.outgoing at sent
  cases document : isInternalID change.id with
  | true => simp [document] at sent
  | false =>
      rw [document, DocDB.get_eq] at sent
      cases held : db.stored change.id with
      | none =>
          rw [held] at sent
          obtain ⟨doc, _, rfl⟩ := Option.map_eq_some_iff.mp sent
          exact sends.feed change member document held _
      | some stored =>
          rw [held] at sent
          cases sent
          exact overJson (sends.stored document held)

end Sends

namespace Carries

variable {good : Record → Prop} {collection : ι → GoString} {sys : LiveWS ι}

theorem setClient (carries : sys.Carries good collection) {client : ι} {db : DocDB}
    {feed : List Change} (same : db.collection = collection client)
    (sends : Sends good db feed) : (sys.setClient client db feed).Carries good collection where
  sameCollection :=
    (Function.forall_update_iff sys.clients fun i other => other.collection = collection i).mpr
      ⟨same, fun i _ => carries.sameCollection i⟩
  sends i := by
    by_cases isClient : i = client
    · subst i
      simpa [LiveWS.setClient] using sends
    · simpa [LiveWS.setClient, isClient] using carries.sends i
  toServer := carries.toServer
  changes := carries.changes
  remaining := carries.remaining
  toClients := carries.toClients

omit [DecidableEq ι] in
/-- After an ingest the store has a record at the id, unless the record is of
another collection. -/
theorem sends_ingest (carries : sys.Carries good collection)
    (passable : Passable good collection) (platform : Platform) (env : CallEnv) (client : ι)
    {r : Record} (isGood : good r) {feed : List Change}
    (feeds : Feeds (sys.feeds client) (DocDB.publishRemote platform r) feed) :
    Sends good ((sys.clients client).ingestRemote platform env r) feed := by
  have before := carries.sends client
  unfold DocDB.publishRemote at feeds
  unfold DocDB.ingestRemote
  cases document : isInternalID r.id with
  | true =>
      rw [document, if_pos rfl] at feeds
      refine before.publish ?_ feeds
      intro change published
      cases published
  | false =>
      rw [document, if_neg Bool.false_ne_true] at feeds
      refine (before.commit (passable.defaulted isGood) platform env _ _ _).publish ?_ feeds
      intro change published _ absent payload
      cases published
      refine passable.rebuilt isGood client ?_ payload
      intro inside
      rw [DocDB.commit_stored platform _ env r _ _ _ document] at absent
      obtain ⟨held, found, _⟩ := (sys.clients client).store.covers_afterPut r
      rw [Record.key, inside, ← carries.sameCollection client] at found
      exact absurd (absent.symm.trans found) (by simp)

theorem send (carries : sys.Carries good collection) (passable : Passable good collection)
    (platform : Platform) {client : ι} {change : Change} {rest : List Change}
    (waiting : sys.feeds client = change :: rest) :
    (sys.send platform client change rest).Carries good collection := by
  have before := carries.sends client
  rw [waiting] at before
  have after : Sends good (sys.clients client) rest :=
    ⟨before.stored, fun other member => before.feed other (List.mem_cons_of_mem change member)⟩
  have moved := carries.setClient (carries.sameCollection client) after
  rw [LiveWS.setClient, Function.update_eq_self] at moved
  refine { moved with toServer := ?_ }
  intro changes member
  rcases Multiset.mem_add.mp member with new | old
  · unfold message at new
    cases sent : (sys.clients client).outgoing platform change with
    | none => simp [sent] at new
    | some r =>
        rw [sent] at new
        cases encodes : r.hasJson with
        | false => simp [encodes] at new
        | true =>
            simp only [encodes, if_true, Multiset.mem_singleton] at new
            subst changes
            intro other isSent
            rw [List.mem_singleton.mp isSent]
            exact before.outgoing passable.overJson List.mem_cons_self sent
  · exact carries.toServer changes old

omit [DecidableEq ι] in
theorem broadcast (passable : Passable good collection) {changes : List Record}
    (areGood : ∀ r ∈ changes, good r) {peers : Finset ι} {sent : ι × List Record}
    (member : sent ∈ LiveWS.broadcast peers changes) : ∀ r ∈ sent.2, good r := by
  unfold LiveWS.broadcast at member
  split at member
  next =>
      obtain ⟨peer, _, rfl⟩ := Multiset.mem_map.mp member
      intro r isSent
      obtain ⟨change, isChange, rfl⟩ := List.mem_map.mp isSent
      exact passable.overJson (areGood change isChange)
  next => simp at member

theorem exchange (carries : sys.Carries good collection)
    (passable : Passable good collection) {platform : Platform} {next : LiveWS ι}
    (step : Step platform sys .exchange next) : next.Carries good collection := by
  cases step with
  | send client change rest waiting => exact carries.send passable platform waiting
  | receive changes others waiting =>
      have areGood := carries.toServer
      rw [waiting] at areGood
      obtain ⟨first, later⟩ := Multiset.forall_mem_cons.mp areGood
      exact { carries with
        toServer := later
        changes := Multiset.forall_mem_cons.mpr ⟨first, carries.changes⟩
        remaining := Multiset.forall_mem_cons.mpr ⟨first, carries.remaining⟩ }
  | apply receipt r rest others waiting isNext =>
      have changes := carries.changes
      have remaining := carries.remaining
      rw [waiting] at changes remaining
      obtain ⟨first, later⟩ := Multiset.forall_mem_cons.mp remaining
      rw [isNext] at first
      refine { carries with changes := ?_, remaining := ?_ }
      · exact Multiset.forall_mem_cons.mpr (Multiset.forall_mem_cons.mp changes)
      · exact Multiset.forall_mem_cons.mpr
          ⟨fun other member => first other (List.mem_cons_of_mem r member), later⟩
  | finish receipt others peers waiting applied =>
      have changes := carries.changes
      have remaining := carries.remaining
      rw [waiting] at changes remaining
      refine { carries with
        changes := (Multiset.forall_mem_cons.mp changes).2
        remaining := (Multiset.forall_mem_cons.mp remaining).2
        toClients := ?_ }
      intro sent member
      rcases Multiset.mem_add.mp member with new | old
      · split at new
        next => exact broadcast passable (Multiset.forall_mem_cons.mp changes).1 new
        next => simp at new
      · exact carries.toClients sent old
  | ingest env client r rest others feed waiting feeds =>
      have areGood := carries.toClients
      rw [waiting] at areGood
      obtain ⟨first, later⟩ := Multiset.forall_mem_cons.mp areGood
      have sends := carries.sends_ingest passable platform env client
        (first r List.mem_cons_self) feeds
      have same : ((sys.clients client).ingestRemote platform env r).collection =
          collection client := by
        rw [DocDB.ingestRemote_collection, carries.sameCollection]
      exact { carries.setClient same sends with
        toClients := Multiset.forall_mem_cons.mpr
          ⟨fun other member => first other (List.mem_cons_of_mem r member), later⟩ }
  | loseToServer changes others waiting =>
      have areGood := carries.toServer
      rw [waiting] at areGood
      exact { carries with toServer := (Multiset.forall_mem_cons.mp areGood).2 }
  | loseToClient sent others waiting =>
      have areGood := carries.toClients
      rw [waiting] at areGood
      exact { carries with toClients := (Multiset.forall_mem_cons.mp areGood).2 }

end Carries

end LiveWS

end NellDB
