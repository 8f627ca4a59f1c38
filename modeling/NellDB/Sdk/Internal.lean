import NellDB.Data.Interleaving
import NellDB.LogStore.Isolation
import NellDB.Sdk.Replicate
import NellDB.Sdk.Revisions
import NellDB.Server.Reconcile
import NellDB.Server.Respond

namespace NellDB

open Data

/-! Nodes whose database and server share one store, and the records that the
database keeps for itself. -/

structure Node where
  db : DocDB
  serverID : GoString
  kv : KnowledgeVector

namespace Node

def server (node : Node) : Server := ⟨node.serverID, node.db.store, node.kv⟩

def ingestAll (node : Node) (changes : List Record) : Node :=
  let server := node.server.ingestAll changes
  { node with
    db := { node.db with store := server.store }
    kv := server.kv }

theorem ingestAll_store (node : Node) (changes : List Record) :
    (node.ingestAll changes).db.store = node.db.store.putAll changes :=
  node.server.ingestAll_store changes

end Node

/-- `replies` are the records that reconciling servers have received from their
peers; each may still be stored by any of them. -/
structure Network (ι : Type) where
  nodes : ι → Node
  replies : List Record

inductive NodeAction (ι : Type) where
  | operate (i : ι) (operation : DocOperation)
  | finishSync (i : ι)
  | endDestroy (i : ι)
  | reopen (i : ι)
  | push (i : ι) (changes : List Record)
  | respond (i : ι) (request : SyncRequest)
  | reply (peer : ι)
  | ingest (i : ι)

namespace Network

variable {ι : Type}

def setDB [DecidableEq ι] (net : Network ι) (i : ι) (db : DocDB) : Network ι :=
  { net with nodes := Function.update net.nodes i { net.nodes i with db } }

def ingestAll [DecidableEq ι] (net : Network ι) (i : ι) (changes : List Record) : Network ι :=
  { net with nodes := Function.update net.nodes i ((net.nodes i).ingestAll changes) }

def new (platform : Platform) (nodeID collection : ι → GoString) (now : ι → Int64) :
    Network ι where
  nodes i :=
    let store := newMemoryStore (nodeID i) (now i)
    { db := newDocDB platform store (nodeID i) (collection i) []
      serverID := nodeID i
      kv := (newServer store (nodeID i)).kv }
  replies := []

variable [DecidableEq ι]

/-- A reconciliation may ask with any vector and cursor, and stores the records
of a reply one by one. -/
inductive Step (platform : Platform) (net : Network ι) :
    NodeAction ι → Network ι → Prop
  | operate (i : ι) (operation : DocOperation) :
      Step platform net (.operate i operation)
        (net.setDB i ((net.nodes i).db.perform platform operation))
  | finishSync (i : ι) (env : CallEnv) (clock : HLC) :
      Step platform net (.finishSync i)
        (net.setDB i ((net.nodes i).db.finishSync platform env clock))
  | endDestroy (i : ι) :
      Step platform net (.endDestroy i) (net.setDB i { (net.nodes i).db with
        revs := ∅
        lastSeenClock := HLC.zero
        vector := ∅ })
  | reopen (i : ι) (all : List Record)
      (listed : (all : Multiset Record) =
        (net.nodes i).db.store.list (net.nodes i).db.collection) :
      Step platform net (.reopen i) (net.setDB i
        (newDocDB platform (net.nodes i).db.store (net.nodes i).db.nodeID
          (net.nodes i).db.collection all))
  | push (i : ι) (changes : List Record) :
      Step platform net (.push i changes) (net.ingestAll i changes)
  | respond (i : ι) (request : SyncRequest) (records : List Record) (store : MemoryStore)
      (responds : Responds (net.nodes i).db.store request records store) :
      Step platform net (.respond i request)
        (net.setDB i { (net.nodes i).db with store })
  | reply (peer : ι) (caller : Server) (cursor : GoString) (reply : CheckReply)
      (answered : Answered (net.nodes peer).db.store caller cursor reply) :
      Step platform net (.reply peer) { net with replies := reply.missing ++ net.replies }
  | ingest (i : ι) (r : Record) (received : r ∈ net.replies) :
      Step platform net (.ingest i) (net.ingestAll i [r])

end Network

/-! Runs in which users write and push documents only, and nobody asks a server
for the collection of the database that shares its store. -/

structure Record.IsDocument (names : GoString → Prop) (r : Record) : Prop where
  document : isInternalID r.id = false
  used : names r.defaulted.collection

def DocOperation.OnDocuments (names : GoString → Prop) : DocOperation → Prop
  | .single (.call call) => isInternalID call.id = false
  | .single (.ingest _ r) => names r.defaulted.collection
  | .putMany _ docs => ∀ entry ∈ docs, isInternalID (entry.2.stringField fieldID) = false

def NodeAction.OnDocuments {ι : Type} (names : GoString → Prop) : NodeAction ι → Prop
  | .operate _ operation => operation.OnDocuments names
  | .push _ changes => ∀ r ∈ changes, r.IsDocument names
  | _ => True

def NodeAction.AsksElsewhere {ι : Type} (net : Network ι) : NodeAction ι → Prop
  | .respond i request => request.collection ≠ (net.nodes i).db.collection
  | .reply peer => defaultCollection ≠ (net.nodes peer).db.collection
  | _ => True

structure Network.Confined {ι : Type} (names : GoString → Prop) (net : Network ι)
    (action : NodeAction ι) : Prop where
  documents : action.OnDocuments names
  elsewhere : action.AsksElsewhere net

/-- Every bookkeeping record of the store is the database's own. -/
structure TidyStore (names : GoString → Prop) (collection nodeID : GoString)
    (store : MemoryStore) : Prop where
  used : names collection
  isolated : Isolated names store
  own : ∀ {position stored}, store.records.lookup position = some stored →
    isInternalID stored.id = true → stored.collection = collection ∧ stored.updatedBy = nodeID

structure Record.Admissible (names : GoString → Prop) (collection nodeID : GoString)
    (r : Record) : Prop where
  used : names r.defaulted.collection
  own : isInternalID r.id = true →
    r.defaulted.collection = collection ∧ r.updatedBy = nodeID

theorem Record.IsDocument.admissible {names : GoString → Prop} {r : Record}
    (document : r.IsDocument names) (collection nodeID : GoString) :
    r.Admissible names collection nodeID where
  used := document.used
  own isInternal := absurd isInternal (by simp [document.document])

namespace TidyStore

variable {names : GoString → Prop} {collection nodeID : GoString} {store : MemoryStore}

theorem afterPut (tidy : TidyStore names collection nodeID store) (separate : Separate names)
    {r : Record} (admissible : r.Admissible names collection nodeID) :
    TidyStore names collection nodeID (store.afterPut r) where
  used := tidy.used
  isolated := by
    have used : names (Write.put r).collection := admissible.used
    exact tidy.isolated.write separate used
  own {position stored} found isInternal := by
    have source : position = (Write.put r).key ∧ stored = (store.write (.put r)).1 ∨
        store.records.lookup position = some stored := MemoryStore.lookup_write_source found
    rcases source with ⟨_, rfl⟩ | before
    · rcases store.write_put_cases r with won | kept
      · rw [won] at isInternal ⊢
        exact admissible.own isInternal
      · exact tidy.own kept isInternal
    · exact tidy.own before isInternal

theorem putAll (tidy : TidyStore names collection nodeID store) (separate : Separate names)
    {records : List Record} (admissible : ∀ r ∈ records, r.Admissible names collection nodeID) :
    TidyStore names collection nodeID (store.putAll records) := by
  induction records generalizing store with
  | nil => exact tidy
  | cons r rest ih =>
      have first := tidy.afterPut separate (admissible r List.mem_cons_self)
      exact ih first fun other member => admissible other (List.mem_cons_of_mem r member)

theorem document_of_ne (tidy : TidyStore names collection nodeID store) {position : GoString}
    {stored : Record} (found : store.records.lookup position = some stored)
    (other : stored.collection ≠ collection) : isInternalID stored.id = false := by
  cases isInternal : isInternalID stored.id with
  | false => rfl
  | true => exact absurd (tidy.own found isInternal).1 other

theorem document_of_listed (tidy : TidyStore names collection nodeID store)
    {asked : GoString} {r : Record} (listed : r ∈ store.listAll asked)
    (other : orDefault asked ≠ collection) :
    r.collection = orDefault asked ∧ isInternalID r.id = false := by
  have inside := tidy.isolated.collection_of_mem_listAll listed
  obtain ⟨keys, _, _, found⟩ :=
    (mem_listAll_iff tidy.isolated.wellFormed asked r).mp listed
  exact ⟨inside, tidy.document_of_ne found (inside ▸ other)⟩

theorem document_of_responds (tidy : TidyStore names collection nodeID store)
    {request : SyncRequest} {records : List Record} {next : MemoryStore}
    (responds : Responds store request records next) (other : request.collection ≠ collection)
    {r : Record} (member : r ∈ records) : isInternalID r.id = false := by
  rcases responds.mem member with listed | ⟨inside, _, found⟩
  · have named : orDefault request.collection = request.collection := by
      cases request <;> exact orDefault_orDefault _
    exact (tidy.document_of_listed listed (named.symm ▸ other)).2
  · exact tidy.document_of_ne found (inside ▸ other)

/-- An answer may rebuild the index of changes and nothing else. -/
theorem responds (tidy : TidyStore names collection nodeID store)
    {request : SyncRequest} {records : List Record} {next : MemoryStore}
    (responds : Responds store request records next) :
    TidyStore names collection nodeID next where
  used := tidy.used
  isolated := tidy.isolated.of_eq responds.records_eq.1 responds.records_eq.2
  own := by
    rw [responds.records_eq.1]
    exact tidy.own

end TidyStore

namespace DocDB

structure Tidy (names : GoString → Prop) (collection nodeID : GoString) (db : DocDB) :
    Prop where
  sameCollection : db.collection = collection
  sameNode : db.nodeID = nodeID
  store : TidyStore names collection nodeID db.store

variable {names : GoString → Prop} {collection nodeID : GoString} {db : DocDB}

theorem Bookkeeping.admissible {r : Record} (kept : db.Bookkeeping r)
    (tidy : db.Tidy names collection nodeID) : r.Admissible names collection nodeID := by
  have inside : r.defaulted.collection = collection := by
    rw [Record.defaulted_of_named (kept.collection ▸ db.named), kept.collection,
      tidy.sameCollection]
  exact ⟨inside ▸ tidy.store.used, fun _ => ⟨inside, kept.updatedBy.trans tidy.sameNode⟩⟩

theorem LocalWrite.admissible {env : CallEnv} {id : GoString} {r : Record}
    (written : db.LocalWrite env id r) (document : isInternalID id = false)
    (tidy : db.Tidy names collection nodeID) (separate : Separate names) :
    r.Admissible names collection nodeID := by
  have inside : r.collection = db.collection := by
    rcases written.origin with same | ⟨held, found, same⟩
    · exact same
    · rw [same]
      refine tidy.store.isolated.collection_eq separate ?_ found
      exact tidy.sameCollection ▸ tidy.store.used
  have isDocument : r.IsDocument names := by
    refine ⟨written.id_eq inside ▸ document, ?_⟩
    rw [Record.defaulted_of_named written.named, inside, tidy.sameCollection]
    exact tidy.store.used
  exact isDocument.admissible collection nodeID

namespace Tidy

theorem commit (tidy : db.Tidy names collection nodeID) (separate : Separate names)
    {r : Record} (admissible : r.Admissible names collection nodeID) (platform : Platform)
    (env : CallEnv) (id rev writer : GoString) :
    (db.commit platform env r id rev writer).Tidy names collection nodeID := by
  have stored := tidy.store.afterPut separate admissible
  refine ⟨?_, ?_, ?_⟩
  · rw [commit_collection, tidy.sameCollection]
  · rw [commit_nodeID, tidy.sameNode]
  · obtain ⟨_, _, result | ⟨kept, bookkeeping, result⟩⟩ :=
      commit_cases platform db env r id rev writer
    · rw [result]
      exact stored
    · rw [result]
      exact stored.afterPut separate (bookkeeping.admissible tidy)

theorem call (tidy : db.Tidy names collection nodeID) (separate : Separate names)
    {call : LocalCall} (document : isInternalID call.id = false) (platform : Platform) :
    (db.call platform call).Tidy names collection nodeID := by
  rcases call_cases platform tidy.store.isolated.wellFormed call with
    ⟨_, same⟩ | ⟨r, rev, _, written, same⟩
  · rw [same]
    exact tidy
  · rw [same]
    exact tidy.commit separate (written.admissible document tidy separate) platform _ _ _ _

theorem ingestRemote (tidy : db.Tidy names collection nodeID) (separate : Separate names)
    {r : Record} (used : names r.defaulted.collection) (platform : Platform) (env : CallEnv) :
    (db.ingestRemote platform env r).Tidy names collection nodeID := by
  unfold DocDB.ingestRemote
  cases document : isInternalID r.id with
  | true => exact tidy
  | false =>
      have isDocument : r.IsDocument names := ⟨document, used⟩
      exact tidy.commit separate (isDocument.admissible collection nodeID) platform _ _ _ _

theorem perform (tidy : db.Tidy names collection nodeID) (separate : Separate names)
    {operation : DocOperation} (documents : operation.OnDocuments names)
    (platform : Platform) :
    (db.perform platform operation).Tidy names collection nodeID := by
  cases operation with
  | single action =>
      cases action with
      | call issued => exact tidy.call separate documents platform
      | ingest env r => exact tidy.ingestRemote separate documents platform env
  | putMany cancelled docs =>
      refine putMany_keeps ?_ ?_ tidy cancelled
      · intro db entry member tidy
        have document : isInternalID (LocalCall.put entry.1 entry.2).id = false :=
          documents entry member
        exact tidy.call separate document platform
      · intro db prev tidy
        exact ⟨tidy.sameCollection, tidy.sameNode, tidy.store⟩

theorem finishSync (tidy : db.Tidy names collection nodeID) (separate : Separate names)
    (platform : Platform) (env : CallEnv) (clock : HLC) :
    (db.finishSync platform env clock).Tidy names collection nodeID := by
  rcases finishSync_cases platform db env clock with same | ⟨kept, bookkeeping, same⟩
  · rw [same]
    exact tidy
  · rw [same]
    exact ⟨tidy.sameCollection, tidy.sameNode,
      tidy.store.afterPut separate (bookkeeping.admissible tidy)⟩

end Tidy

end DocDB

/-! A coerced id is internal when the id is. -/

theorem isInternalID_coerce (id : GoString) :
    isInternalID (Utf8.coerce id) = isInternalID id := by
  have plain : ∀ byte ∈ ascii ['m', 'e', 't', 'a', ':'], byte < 0x80 := by
    decide +kernel
  have same : (Utf8.coerce id).take 5 = ascii ['m', 'e', 't', 'a', ':'] ↔
      id.take 5 = ascii ['m', 'e', 't', 'a', ':'] := Utf8.take_coerce_eq_iff plain
  exact decide_eq_decide.mpr same

namespace Network

variable {ι : Type} [DecidableEq ι] {names : GoString → Prop}

structure Tidy (names : GoString → Prop) (start : ι → Node) (net : Network ι) : Prop where
  nodes : ∀ i, (net.nodes i).db.Tidy names (start i).db.collection (start i).db.nodeID
  replies : ∀ r ∈ net.replies, r.IsDocument names

namespace Tidy

variable {start : ι → Node} {net : Network ι}

omit [DecidableEq ι] in
theorem new (platform : Platform) (nodeID collection : ι → GoString) (now : ι → Int64)
    (used : ∀ i, names (orDefault (collection i))) :
    (Network.new platform nodeID collection now).Tidy names
      (Network.new platform nodeID collection now).nodes where
  nodes i :=
    { sameCollection := rfl
      sameNode := rfl
      store :=
        { used := used i
          isolated := isolated_newMemoryStore names (nodeID i) (now i)
          own := fun found => by
            simp [Network.new, newDocDB, DocDB.reindex, newMemoryStore] at found } }
  replies := by simp [Network.new]

theorem setDB (tidy : net.Tidy names start) {i : ι} {db : DocDB}
    (tidyDB : db.Tidy names (start i).db.collection (start i).db.nodeID) :
    (net.setDB i db).Tidy names start where
  nodes :=
    (Function.forall_update_iff net.nodes fun j node =>
      node.db.Tidy names (start j).db.collection (start j).db.nodeID).mpr
        ⟨tidyDB, fun j _ => tidy.nodes j⟩
  replies := tidy.replies

theorem ingestAll (tidy : net.Tidy names start) (separate : Separate names) {i : ι}
    {changes : List Record} (documents : ∀ r ∈ changes, r.IsDocument names) :
    (net.ingestAll i changes).Tidy names start := by
  have before := tidy.nodes i
  have store := before.store.putAll separate fun r member =>
    (documents r member).admissible _ _
  rw [← Node.ingestAll_store] at store
  refine ⟨?_, tidy.replies⟩
  exact (Function.forall_update_iff net.nodes fun j node =>
    node.db.Tidy names (start j).db.collection (start j).db.nodeID).mpr
      ⟨⟨before.sameCollection, before.sameNode, store⟩, fun j _ => tidy.nodes j⟩

omit [DecidableEq ι] in
theorem reply (tidy : net.Tidy names start) (usesDefault : names defaultCollection) {peer : ι}
    (other : defaultCollection ≠ (net.nodes peer).db.collection) {caller : Server}
    {cursor : GoString} {reply : CheckReply}
    (answered : Answered (net.nodes peer).db.store caller cursor reply) :
    ({ net with replies := reply.missing ++ net.replies } : Network ι).Tidy names start := by
  refine ⟨tidy.nodes, fun r member => ?_⟩
  rcases List.mem_append.mp member with new | old
  · obtain ⟨listing, rfl, _⟩ := answered
    obtain ⟨sent, isMissing, rfl⟩ := List.mem_map.mp new
    have before := tidy.nodes peer
    rw [before.sameCollection] at other
    have listed : sent ∈ (net.nodes peer).db.store.listAll defaultCollection :=
      listing.mem_iff.mp (mem_of_mem_handleCheck isMissing)
    obtain ⟨inside, document⟩ := before.store.document_of_listed listed other
    refine ⟨(isInternalID_coerce sent.id).trans document, ?_⟩
    have kept : sent.overJson.defaulted.collection = defaultCollection := by
      rw [Record.defaulted, Record.overJson, inside]
      rfl
    exact kept ▸ usesDefault
  · exact tidy.replies r old

theorem step (tidy : net.Tidy names start) (separate : Separate names)
    (usesDefault : names defaultCollection) {platform : Platform} {action : NodeAction ι}
    {next : Network ι} (confined : net.Confined names action)
    (step : Step platform net action next) : next.Tidy names start := by
  cases step with
  | operate i operation =>
      exact tidy.setDB ((tidy.nodes i).perform separate confined.documents platform)
  | finishSync i env clock =>
      exact tidy.setDB ((tidy.nodes i).finishSync separate platform env clock)
  | endDestroy i =>
      have before := tidy.nodes i
      exact tidy.setDB ⟨before.sameCollection, before.sameNode, before.store⟩
  | reopen i all =>
      have before := tidy.nodes i
      refine tidy.setDB ⟨?_, before.sameNode, before.store⟩
      exact (orDefault_of_ne (net.nodes i).db.named).trans before.sameCollection
  | push i changes => exact tidy.ingestAll separate confined.documents
  | respond i request records store responds =>
      have before := tidy.nodes i
      exact tidy.setDB ⟨before.sameCollection, before.sameNode,
        before.store.responds responds⟩
  | reply peer caller cursor reply answered =>
      exact tidy.reply usesDefault confined.elsewhere answered
  | ingest i r received =>
      refine tidy.ingestAll separate fun other member => ?_
      rw [List.mem_singleton.mp member]
      exact tidy.replies r received

end Tidy

end Network

/-- Bookkeeping records stay with their node: no answer about another
collection contains one, and those that are stored are the node's own. -/
theorem internal_records_stay {ι : Type} [DecidableEq ι] (platform : Platform)
    {names : GoString → Prop} (separate : Separate names)
    (usesDefault : names defaultCollection) {start net : Network ι}
    (tidy : start.Tidy names start.nodes)
    (run : Run (Network.Step platform) (Network.Confined names) start net) (i : ι) :
    (∀ request records store, request.collection ≠ (net.nodes i).db.collection →
      Responds (net.nodes i).db.store request records store →
        ∀ r ∈ records, isInternalID r.id = false) ∧
    ∀ id, isInternalID id = true → ∀ r, (net.nodes i).db.stored id = some r →
      r.updatedBy = (start.nodes i).db.nodeID := by
  have final := (run.keeps (fun before confined step =>
    Network.Tidy.step before separate usesDefault confined step) tidy).nodes i
  refine ⟨?_, ?_⟩
  · intro request records store other responds r member
    rw [final.sameCollection] at other
    exact final.store.document_of_responds responds other member
  · intro id isInternal r found
    have inside : r.collection = (net.nodes i).db.collection :=
      final.store.isolated.collection_eq separate
        (final.sameCollection ▸ final.store.used) found
    have keyed : r.key = flatKey (net.nodes i).db.collection id :=
      final.store.isolated.wellFormed.keyed found
    rw [Record.key, inside] at keyed
    have sameID := flatKey_right_injective _ keyed
    exact (final.store.own found (sameID ▸ isInternal)).2

/-- Two databases of notes.  The first writes one, its server is asked for the default
collection, and the second reconciles with it. -/
theorem internal_records_stay_notes :
    let notes := ascii ['n', 'o', 't', 'e', 's']
    let start : Network (Fin 2) :=
      .new .revOnly ![ascii ['a'], ascii ['b']] (fun _ => notes) fun _ => 0
    let shared := plainNote (ascii ['d']) 1500
    ∃ net, Run (Network.Step .revOnly) (Network.Confined fun name =>
        name = defaultCollection ∨ name = notes) start net ∧
      (net.nodes 1).db.store.records.lookup shared.key = some shared ∧
      (∀ records store, Responds (net.nodes 0).db.store (.check [] ∅ 0 []) records store →
        ∀ r ∈ records, isInternalID r.id = false) ∧
      ∃ r, (net.nodes 0).db.stored metaVectorID = some r ∧ r.updatedBy = ascii ['a'] := by
  intro notes start shared
  have separate : Separate fun name => name = defaultCollection ∨ name = notes := by
    rintro _ _ (rfl | rfl) (rfl | rfl) <;> decide +kernel
  have tidy : start.Tidy (fun name => name = defaultCollection ∨ name = notes) start.nodes :=
    .new _ _ _ _ fun _ => .inr rfl
  let putX : DocOperation :=
    .single (.call (.put (.at 1000) (Finmap.singleton fieldID (.string (ascii ['x'])))))
  let written := start.setDB 0 ((start.nodes 0).db.perform .revOnly putX)
  let pushed := written.ingestAll 0 [shared]
  let listing : Listing (pushed.nodes 0).db.store defaultCollection :=
    ⟨[shared], by decide +kernel, List.pairwise_singleton _ _⟩
  let responded := pushed.setDB 0 { (pushed.nodes 0).db with store := (pushed.nodes 0).db.store }
  let again : Listing (responded.nodes 0).db.store defaultCollection :=
    ⟨[shared], by decide +kernel, List.pairwise_singleton _ _⟩
  let reply := (handleCheck again.ordered (responded.nodes 1).server.kv.overJson 0 []).overJson
  let asked : Network (Fin 2) := { responded with replies := reply.missing ++ responded.replies }
  have received : shared ∈ asked.replies := by decide +kernel
  have document : isInternalID (ascii ['x']) = false := by decide +kernel
  have isDocument : ∀ r ∈ [shared], r.IsDocument fun name =>
      name = defaultCollection ∨ name = notes := by
    intro r member
    rw [List.mem_singleton.mp member]
    exact ⟨by decide +kernel, .inl (by decide +kernel)⟩
  have elsewhere (net : Network (Fin 2)) (same : (net.nodes 0).db.collection = notes) :
      defaultCollection ≠ (net.nodes 0).db.collection := by
    rw [same]
    decide +kernel
  have run : Run (Network.Step .revOnly) (Network.Confined fun name =>
      name = defaultCollection ∨ name = notes) start (asked.ingestAll 1 [shared]) := by
    have writes : Run (Network.Step .revOnly) (Network.Confined fun name =>
        name = defaultCollection ∨ name = notes) start written :=
      Run.start.extend (.operate 0 putX) ⟨document, trivial⟩
    have pushes := writes.extend (.push 0 [shared]) ⟨isDocument, trivial⟩
    have responds := pushes.extend
      (.respond 0 (.check [] ∅ 0 []) _ _ (.check listing))
      ⟨trivial, elsewhere pushed (by decide +kernel)⟩
    have answers := responds.extend
      (.reply 0 (responded.nodes 1).server [] reply (.reply again rfl (by decide +kernel)))
      ⟨trivial, elsewhere responded (by decide +kernel)⟩
    exact answers.extend (.ingest 1 shared received) ⟨trivial, trivial⟩
  have kept : ((asked.ingestAll 1 [shared]).nodes 0).db.stored metaVectorID =
      (written.nodes 0).db.stored metaVectorID := by decide +kernel
  have writesVector : ((written.nodes 0).db.stored metaVectorID).isSome = true := by decide +kernel
  have taken : ((asked.ingestAll 1 [shared]).nodes 1).db.store.records.lookup shared.key =
      some shared := by decide +kernel
  have collection : ((asked.ingestAll 1 [shared]).nodes 0).db.collection = notes := by
    decide +kernel
  obtain ⟨r, found⟩ := Option.isSome_iff_exists.mp writesVector
  obtain ⟨answers, own⟩ := internal_records_stay .revOnly separate (.inl rfl) tidy run 0
  refine ⟨_, run, taken, ?_, r, kept.trans found, ?_⟩
  · intro records store responds
    exact answers (.check [] ∅ 0 []) records store (elsewhere _ collection) responds
  · exact own metaVectorID (by decide +kernel) r (kept.trans found)

/-- Databases on the default collection: the server hands out the record of the
vector, and a reconciling peer stores it in place of its own. -/
theorem internal_records_replicate :
    let start : Network (Fin 2) := .new .revOnly ![ascii ['a'], ascii ['b']] (fun _ => [])
      fun _ => 0
    let allowed (_ : Network (Fin 2)) (action : NodeAction (Fin 2)) :=
      action.OnDocuments fun name => name = defaultCollection
    ∃ net, Run (Network.Step .revOnly) allowed start net ∧
      (∃ records, Responds (net.nodes 0).db.store (.check [] ∅ 0 []) records
          (net.nodes 0).db.store ∧ ∃ r ∈ records, r.id = metaVectorID) ∧
      ∃ r, (net.nodes 1).db.stored metaVectorID = some r ∧ r.updatedBy = ascii ['a'] := by
  intro start allowed
  let put (now : Int64) (id : GoString) : DocOperation :=
    .single (.call (.put (.at now) (Finmap.singleton fieldID (.string id))))
  let written := start.setDB 1 ((start.nodes 1).db.perform .revOnly (put 1000 (ascii ['y'])))
  let both := written.setDB 0
    ((written.nodes 0).db.perform .revOnly (put 2000 (ascii ['x'])))
  let held (id : GoString) : Record := ((both.nodes 0).db.stored id).getD Record.zero
  let listing : Listing (both.nodes 0).db.store defaultCollection :=
    { ordered := [held (ascii ['x']), held metaVectorID]
      complete := by decide +kernel
      sorted := by decide +kernel }
  let reply := (handleCheck listing.ordered (both.nodes 1).server.kv.overJson 0 []).overJson
  have answered : Answered (both.nodes 0).db.store (both.nodes 1).server [] reply :=
    .reply listing rfl (by decide +kernel)
  let asked : Network (Fin 2) := { both with replies := reply.missing ++ both.replies }
  let leaked := (held metaVectorID).overJson
  have received : leaked ∈ asked.replies := by decide +kernel
  have documents : isInternalID (ascii ['x']) = false ∧ isInternalID (ascii ['y']) = false := by
    decide +kernel
  refine ⟨asked.ingestAll 1 [leaked], ?_, ?_, leaked, ?_, ?_⟩
  · have writes : Run (Network.Step .revOnly) allowed start both := by
      refine .step (.step .start ?_ (.operate 1 _)) ?_ (.operate 0 _)
      · exact documents.2
      · exact documents.1
    refine .step (.step writes ?_ (.reply 0 _ _ _ answered)) ?_ (.ingest 1 _ received)
    · trivial
    · trivial
  · refine ⟨_, .check listing, held metaVectorID, ?_, ?_⟩
    · decide +kernel
    · decide +kernel
  · decide +kernel
  · decide +kernel

end NellDB
