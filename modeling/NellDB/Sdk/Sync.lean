import NellDB.Data.Iteration
import NellDB.Sdk.Pull
import NellDB.Store.Merge

namespace NellDB

open Data

/-! `Sync`: a push, then a pull. -/

inductive SyncError where
  | refused (failure : KnowledgeVector.DecodeError)
  | pull (failure : PullError)

namespace DocDB

/-- `push` of the slice `all`: the accepted count, the client and the server. -/
def push (platform : Platform) (env : CallEnv) (db : DocDB) (server : Server)
    (all : List Record) : Nat × DocDB × Server :=
  let answer := server.handleBinPush (wireFrames (shared all))
  (fieldValue (answer.1.take 4),
    db.finishSync platform env ((shared all).foldl seeClock HLC.zero), answer.2)

/-- `pull` from a server whose sorted slice is `ordered`. -/
def pull (platform : Platform) (envs : Nat → CallEnv) (last : CallEnv) (db : DocDB)
    (ordered : List Record) (entries : KnowledgeVector.Entries db.vector) :
    (Nat × Option SyncError) × DocDB :=
  match handleBinCheck ordered (KnowledgeVector.marshalBinary entries) with
  | .error failure => ((0, some (.refused failure)), db)
  | .ok reply =>
      let outcome := db.receive platform envs last reply false
      ((outcome.1.1, outcome.1.2.map .pull), outcome.2)

end DocDB

/-- One call of `Sync`: the slices in the orders in which they come, and the
environments of the calls. -/
structure SyncRun (platform : Platform) (db : DocDB) (server : Server) where
  all : List Record
  listed : (all : Multiset Record) = db.store.listAll db.collection
  pushEnv : CallEnv
  envs : Nat → CallEnv
  last : CallEnv
  listing : Listing (db.push platform pushEnv server all).2.2.store db.collection
  entries : KnowledgeVector.Entries (db.push platform pushEnv server all).2.1.vector

namespace SyncRun

variable {platform : Platform} {db : DocDB} {server : Server}

section

variable (run : SyncRun platform db server)

def pushed : Nat := (db.push platform run.pushEnv server run.all).1

def pulls : (Nat × Option SyncError) × DocDB :=
  (db.push platform run.pushEnv server run.all).2.1.pull platform run.envs run.last
    run.listing.ordered run.entries

def pulled : Nat := run.pulls.1.1

def failure : Option SyncError := run.pulls.1.2

def client : DocDB := run.pulls.2

def finalServer : Server := (db.push platform run.pushEnv server run.all).2.2

end

end SyncRun

namespace Server

/-- A push of records that are all covered is refused record by record. -/
theorem applyChanges_covered {server : Server} (tracked : Tracked server.store)
    {changes : List Record} (named : ∀ r ∈ changes, r.collection ≠ [])
    (covers : ∀ r ∈ changes, server.store.Covers r) :
    (server.applyChanges changes).1 = 0 ∧
      SameContents (server.applyChanges changes).2.store server.store := by
  induction changes generalizing server with
  | nil => exact ⟨rfl, .refl server.store⟩
  | cons r rest ih =>
      obtain ⟨refused, same⟩ := put_covered tracked (named r List.mem_cons_self)
        (covers r List.mem_cons_self)
      obtain ⟨none, final⟩ := @ih (server.ingest r) (same.tracked tracked)
        (fun other member => named other (List.mem_cons_of_mem r member))
        (fun other member => same.covers (covers other (List.mem_cons_of_mem r member)))
      refine ⟨?_, final.trans same⟩
      simp only [applyChanges, refused, Bool.false_eq_true, if_false, none]

theorem ingestAll_kv_eq_iff (server : Server) (changes : List Record) :
    (server.ingestAll changes).kv = server.kv ↔
      ∀ r ∈ changes, Watermark.Reached server.kv r.updatedBy r.clock := by
  constructor
  · intro same r member
    have reached := (server.reached_ingestAll_iff changes r.updatedBy r.clock).mpr
      (.inr ⟨r, member, rfl, le_rfl⟩)
    rwa [same] at reached
  · intro reached
    induction changes generalizing server with
    | nil => rfl
    | cons r rest ih =>
        have kept : (server.ingest r).kv = server.kv := by
          change server.kv.update r.updatedBy r.clock = server.kv
          rw [KnowledgeVector.update_eq_raise,
            Watermark.raise_of_reached (reached r List.mem_cons_self)]
        refine (ih (server.ingest r) ?_).trans kept
        rw [kept]
        exact fun other member => reached other (List.mem_cons_of_mem r member)

end Server

namespace DocDB

/-! The clock that a client has seen: it is written down again only if a sync
brings a later one. -/

theorem laterClock_eq_max (first second : HLC) : laterClock first second = max first second := by
  unfold laterClock
  simp only [HLC.greaterThan_iff]
  split
  next later => exact (max_eq_right later.le).symm
  next notLater => exact (max_eq_left (not_lt.mp notLater)).symm

theorem foldl_seeClock_le_iff {records : List Record} {start bound : HLC} :
    records.foldl seeClock start ≤ bound ↔
      start ≤ bound ∧ ∀ r ∈ records, r.clock ≤ bound := by
  induction records generalizing start with
  | nil => simp
  | cons r rest ih =>
      rw [List.foldl_cons, ih, seeClock, laterClock_eq_max, max_le_iff, List.forall_mem_cons,
        and_assoc]

def horizon (db : DocDB) : HLC := max HLC.zero db.lastSeenClock

section

variable {platform : Platform}

theorem finishSync_of_le {db : DocDB} {clock : HLC} (seen : clock ≤ db.horizon)
    (env : CallEnv) : db.finishSync platform env clock = db := by
  unfold finishSync advanceClock
  split
  next positive =>
      split
      next later =>
          rw [HLC.greaterThan_iff] at positive later
          exact absurd seen (not_le.mpr (max_lt positive later))
      next => rfl
  next => rfl

theorem horizon_finishSync (db : DocDB) (env : CallEnv) (clock : HLC) :
    (db.finishSync platform env clock).horizon = max db.horizon clock := by
  by_cases seen : clock ≤ db.horizon
  · rw [finishSync_of_le seen, max_eq_left seen]
  · have past := not_le.mp seen
    have positive : HLC.zero < clock := (le_max_left _ _).trans_lt past
    have later : db.lastSeenClock < clock := (le_max_right _ _).trans_lt past
    have advanced : db.finishSync platform env clock =
        writeMetaClock platform { db with lastSeenClock := clock } env clock :=
      (if_pos ((HLC.greaterThan_iff _ _).mpr positive)).trans
        (if_pos ((HLC.greaterThan_iff _ _).mpr later))
    rw [advanced, max_eq_right past.le]
    exact max_eq_right positive.le

theorem commit_lastSeenClock (db : DocDB) (env : CallEnv) (r : Record)
    (id rev writer : GoString) :
    (db.commit platform env r id rev writer).lastSeenClock = db.lastSeenClock := by
  obtain ⟨_, _, stored | ⟨_, _, stored⟩⟩ := commit_cases platform db env r id rev writer
  · rw [stored]
  · rw [stored]

theorem ingestEach_horizon (envs : Nat → CallEnv) (index : Nat) (db : DocDB)
    (records : List Record) :
    (db.ingestEach platform envs index records).horizon = db.horizon := by
  induction records generalizing db index with
  | nil => rfl
  | cons r rest ih =>
      rw [ingestEach, ih]
      unfold horizon ingestRemote
      split
      next => rfl
      next => rw [commit_lastSeenClock]

theorem finishSync_collection (db : DocDB) (env : CallEnv) (clock : HLC) :
    (db.finishSync platform env clock).collection = db.collection := by
  rcases finishSync_cases platform db env clock with same | ⟨_, _, same⟩
  · rw [same]
  · rw [same]

theorem finishSync_nodeID (db : DocDB) (env : CallEnv) (clock : HLC) :
    (db.finishSync platform env clock).nodeID = db.nodeID := by
  rcases finishSync_cases platform db env clock with same | ⟨_, _, same⟩
  · rw [same]
  · rw [same]

theorem ingestEach_nodeID (envs : Nat → CallEnv) (index : Nat) (db : DocDB)
    (records : List Record) :
    (db.ingestEach platform envs index records).nodeID = db.nodeID := by
  induction records generalizing db index with
  | nil => rfl
  | cons r rest ih => rw [ingestEach, ih, ingestRemote_nodeID]

end

end DocDB

/-! What one sync does when all that it sends fits the wire. -/

/-- The documents of a client: what it pushes. -/
def DocDB.documents (db : DocDB) : Set Record :=
  {r | r ∈ db.store.listAll db.collection ∧ isInternalID r.id = false}

/-- What the sync sends fits the wire: the documents, the vector and the records
that it has not reached.  And so does the vector once these records have raised
it, which names no writers but `writers`. -/
structure SyncFits (writers : Finset GoString) (db : DocDB) (server : Server) : Prop where
  few : writers.card < 2 ^ 16
  short : ∀ writer ∈ writers, writer.length < 2 ^ 16
  vector : ∀ writer ∈ db.vector.keys, writer ∈ writers
  client : ∀ r ∈ db.documents, FitsWire r
  streamed : ∀ r, Stands server.store db.collection db.documents r →
    ¬ Watermark.Reached db.vector r.updatedBy r.clock → FitsWire r
  raised : ∀ r, Stands server.store db.collection db.documents r →
    isInternalID r.id = false → r.updatedBy ≠ [] →
      (db.vector.lookup r.updatedBy).getD HLC.zero < r.clock → r.updatedBy ∈ writers

theorem KnowledgeVector.unmarshalBinary_of_writers {kv : KnowledgeVector}
    (entries : Entries kv) {writers : Finset GoString} (few : writers.card < 2 ^ 16)
    (short : ∀ writer ∈ writers, writer.length < 2 ^ 16)
    (inside : ∀ writer ∈ kv.keys, writer ∈ writers) :
    unmarshalBinary (marshalBinary entries) = .ok kv := by
  apply unmarshalBinary_of_few entries
  · intro entry member
    have found := (entries.complete entry.1 entry.2).mp member
    exact short _ (inside _ (Finmap.mem_keys.mpr (Finmap.mem_of_lookup_eq_some found)))
  · have length := Iteration.length_order ⟨entries.order, entries.distinct, entries.complete⟩
    calc entries.order.length
      _ = kv.keys.card := length
      _ ≤ writers.card := Finset.card_le_card inside
      _ < 2 ^ 16 := few

namespace SyncRun

section

variable {platform : Platform} {db : DocDB} {server : Server}
  (run : SyncRun platform db server)

theorem mem_shared_iff {r : Record} : r ∈ shared run.all ↔ r ∈ db.documents := by
  unfold shared DocDB.documents
  rw [List.mem_filter, Set.mem_ofPred_eq, ← run.listed, Multiset.mem_coe, Bool.not_eq_true']

/-- The records that the server streams to the pull. -/
def streamed : List Record := run.listing.ordered.filter (Server.unseen db.vector)

theorem mem_streamed_iff {r : Record} :
    r ∈ run.streamed ↔ r ∈ run.finalServer.store.listAll db.collection ∧
      ¬ Watermark.Reached db.vector r.updatedBy r.clock := by
  unfold streamed
  rw [List.mem_filter, Server.unseen_iff, ← Multiset.mem_coe, run.listing.complete]
  rfl

def maxSent : HLC := (shared run.all).foldl seeClock HLC.zero

def maxSeen : HLC := run.streamed.foldl seeClock HLC.zero

variable {writers : Finset GoString} (fits : SyncFits writers db server)

include fits

theorem decodePush_shared :
    Server.decodePush (wireFrames (shared run.all)).length (wireFrames (shared run.all)) =
      shared run.all := by
  refine decodePush_wireFrames (fun r member => ?_) (length_le_wireFrames _)
  exact fits.client r (run.mem_shared_iff.mp member)

theorem finalServer_eq : run.finalServer = server.ingestAll (shared run.all) := by
  unfold finalServer DocDB.push
  rw [Server.handleBinPush_server, run.decodePush_shared fits]

end

end SyncRun

theorem DocDB.pull_of_fits (platform : Platform) (envs : Nat → CallEnv) (last : CallEnv)
    {db : DocDB} {ordered : List Record} {entries : KnowledgeVector.Entries db.vector}
    (decoded : KnowledgeVector.unmarshalBinary (KnowledgeVector.marshalBinary entries) =
      .ok db.vector)
    (fits : ∀ r ∈ ordered.filter (Server.unseen db.vector), FitsWire r) :
    let sent := ordered.filter (Server.unseen db.vector)
    db.pull platform envs last ordered entries =
      ((sent.length, none),
        (db.ingestEach platform envs 0 sent).finishSync platform last
          (sent.foldl seeClock HLC.zero)) := by
  intro sent
  have reads : readFrames (wireFrames sent).length (wireFrames sent) = (sent, none) :=
    readFrames_wireFrames fits (length_le_wireFrames sent)
  have reply : handleBinCheck ordered (KnowledgeVector.marshalBinary entries) =
      .ok (wireFrames sent) := by
    unfold handleBinCheck
    rw [decoded]
    rfl
  unfold pull
  rw [reply]
  simp only [receive, reads, Bool.false_eq_true, if_false, Option.map_none]

namespace SyncRun

section

variable {platform : Platform} {db : DocDB} {server : Server}
  (run : SyncRun platform db server) {writers : Finset GoString}
  (wellFormed : WellFormed db.store) (tracked : Tracked server.store)
  (fits : SyncFits writers db server)

include wellFormed in
theorem document_named {r : Record} (member : r ∈ db.documents) : r.collection ≠ [] :=
  wellFormed.named ((mem_listAll_iff_listed wellFormed _ r).mp member.1).2

include wellFormed tracked fits in
/-- What the server lists after the push, in terms of what both sides hold
before it. -/
theorem mem_finalServer_listAll_iff {r : Record} :
    r ∈ run.finalServer.store.listAll db.collection ↔
      Stands server.store db.collection db.documents r := by
  have apart : (shared run.all).Pairwise fun p q => p.key ≠ q.key :=
    (List.pairwise_map.mp (nodup_keys_of_listed wellFormed run.listed)).filter _
  rw [run.finalServer_eq fits, Server.ingestAll_store, mem_listAll_putAll_iff tracked.wellFormed
    (fun p member => document_named wellFormed (run.mem_shared_iff.mp member))
    (apart.imp fun different first second => different (first.trans second.symm))]
  exact stands_congr fun p _ => run.mem_shared_iff

include tracked fits in
theorem finalServer_tracked : Tracked run.finalServer.store := by
  rw [run.finalServer_eq fits, Server.ingestAll_store]
  exact tracked.putAll _

include tracked fits in
theorem streamed_named {r : Record} (sent : r ∈ run.streamed) : r.collection ≠ [] := by
  have final := (run.finalServer_tracked tracked fits).wellFormed
  exact final.named ((mem_listAll_iff_listed final _ r).mp (run.mem_streamed_iff.mp sent).1).2

include wellFormed tracked fits

theorem streamed_fits {r : Record} (sent : r ∈ run.streamed) : FitsWire r := by
  obtain ⟨listed, unreached⟩ := run.mem_streamed_iff.mp sent
  exact fits.streamed r ((run.mem_finalServer_listAll_iff wellFormed tracked fits).mp listed)
    unreached

theorem pulls_eq :
    run.pulls = ((run.streamed.length, none),
      ((db.finishSync platform run.pushEnv run.maxSent).ingestEach platform run.envs 0
        run.streamed).finishSync platform run.last run.maxSeen) := by
  have vector : (db.push platform run.pushEnv server run.all).2.1.vector = db.vector :=
    DocDB.finishSync_vector db run.pushEnv run.maxSent
  have decoded := KnowledgeVector.unmarshalBinary_of_writers run.entries fits.few fits.short
    (by rw [vector]; exact fits.vector)
  have fitting : ∀ r ∈ run.listing.ordered.filter
      (Server.unseen (db.push platform run.pushEnv server run.all).2.1.vector),
      FitsWire r := by
    rw [vector]
    exact fun r => run.streamed_fits wellFormed tracked fits
  unfold pulls
  rw [DocDB.pull_of_fits platform run.envs run.last decoded fitting, vector]
  rfl

theorem client_eq :
    run.client = ((db.finishSync platform run.pushEnv run.maxSent).ingestEach platform run.envs 0
      run.streamed).finishSync platform run.last run.maxSeen := by
  unfold client
  rw [run.pulls_eq wellFormed tracked fits]

theorem client_collection : run.client.collection = db.collection := by
  rw [run.client_eq wellFormed tracked fits, DocDB.finishSync_collection,
    DocDB.ingestEach_collection, DocDB.finishSync_collection]

theorem client_puts :
    ∃ puts, db.Puts run.streamed puts ∧ run.client.store = db.store.putAll puts := by
  let pushed := db.finishSync platform run.pushEnv run.maxSent
  obtain ⟨first, before, afterPush⟩ := DocDB.puts_finishSync platform db run.pushEnv run.maxSent
  obtain ⟨second, ingests, afterPull⟩ :=
    DocDB.puts_ingestEach platform run.envs 0 pushed run.streamed
  obtain ⟨third, after, final⟩ := DocDB.puts_finishSync platform
    (pushed.ingestEach platform run.envs 0 run.streamed) run.last run.maxSeen
  have ingests : db.Puts run.streamed second :=
    ingests.of_same (DocDB.finishSync_collection db _ _) (DocDB.finishSync_nodeID db _ _)
  have after : db.Puts [] third := by
    refine after.of_same ?_ ?_
    · rw [DocDB.ingestEach_collection, DocDB.finishSync_collection]
    · rw [DocDB.ingestEach_nodeID, DocDB.finishSync_nodeID]
  refine ⟨first ++ second ++ third, ?_, ?_⟩
  · have written := (before.append ingests).append after
    rwa [List.nil_append, List.append_nil] at written
  · rw [run.client_eq wellFormed tracked fits, final, afterPull, afterPush]
    simp only [MemoryStore.putAll, List.foldl_append]

theorem client_wellFormed : WellFormed run.client.store := by
  obtain ⟨puts, _, store⟩ := run.client_puts wellFormed tracked fits
  rw [store]
  exact wellFormed.putAll puts

theorem client_horizon :
    run.client.horizon = max (max db.horizon run.maxSent) run.maxSeen := by
  rw [run.client_eq wellFormed tracked fits, DocDB.horizon_finishSync, DocDB.ingestEach_horizon,
    DocDB.horizon_finishSync]

theorem reached_client_iff (writer : GoString) (clock : HLC) :
    Watermark.Reached run.client.vector writer clock ↔
      Watermark.Reached db.vector writer clock ∨
        ∃ r ∈ run.streamed, isInternalID r.id = false ∧ r.updatedBy = writer ∧ writer ≠ [] ∧
          clock ≤ r.clock ∧ (db.vector.lookup writer).getD HLC.zero < r.clock := by
  rw [run.client_eq wellFormed tracked fits, DocDB.finishSync_vector,
    DocDB.reached_ingestEach_iff, DocDB.finishSync_vector]

theorem document_source {r : Record} (member : r ∈ run.client.documents) :
    r ∈ db.documents ∨ r ∈ run.streamed := by
  obtain ⟨listed, document⟩ := member
  obtain ⟨puts, written, store⟩ := run.client_puts wellFormed tracked fits
  rw [run.client_collection wellFormed tracked fits, store] at listed
  have named {p : Record} (isPut : p ∈ puts) : p.collection ≠ [] :=
    written.named (fun _ => run.streamed_named tracked fits) isPut
  rcases listAll_putAll_source wellFormed listed with before | ⟨p, isPut, rfl⟩
  · exact .inl ⟨before, document⟩
  · rw [Record.defaulted_of_named (named isPut)] at document ⊢
    exact .inr ((written.mem_iff document).mp isPut)

/-- The documents of its own collection that the client lists after the sync. -/
theorem mem_client_documents_iff {r : Record} (inside : r.collection = db.collection)
    (document : isInternalID r.id = false) :
    r ∈ run.client.documents ↔ Stands db.store db.collection
      {p | p ∈ run.streamed ∧ isInternalID p.id = false} r := by
  obtain ⟨puts, written, store⟩ := run.client_puts wellFormed tracked fits
  have final := (run.finalServer_tracked tracked fits).wellFormed
  have distinct : (run.streamed.map Record.key).Nodup :=
    (nodup_keys_of_listed final run.listing.complete).sublist (List.filter_sublist.map _)
  unfold DocDB.documents
  rw [Set.mem_ofPred_eq, run.client_collection wellFormed tracked fits, store,
    mem_listAll_putAll_iff wellFormed
      (fun p => written.named fun _ => run.streamed_named tracked fits)
      (written.alone distinct inside document)]
  rw [and_iff_left document]
  refine stands_congr fun p same => ?_
  constructor
  · intro isPut
    have isDocument := written.document_of_key inside document isPut same
    exact ⟨(written.mem_iff isDocument).mp isPut, isDocument⟩
  · rintro ⟨sent, isDocument⟩
    exact (written.mem_iff isDocument).mpr sent

end

end SyncRun

end NellDB
