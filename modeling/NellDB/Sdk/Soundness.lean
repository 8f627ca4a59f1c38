import NellDB.Sdk.Replicate

namespace NellDB

open Data

/-! The replicated system moves as a relay of records. -/

namespace System

variable {ι : Type}

/-- Documents are shared, bookkeeping records are not. -/
def scheme (nodes : ι → GoString) (distinct : Function.Injective nodes)
    (collection : GoString) :
    Relay.Scheme ι GoString GoString Record (HLC ×ₗ GoString) HLC where
  key := Record.key
  rank := Record.stamp
  author := Record.updatedBy
  time := Record.clock
  name := nodes
  shared key := ∃ id, isInternalID id = false ∧ key = flatKey collection id
  name_injective := distinct
  attributed {first second} equal :=
    ((Record.stamp_eq_iff first second).mp equal).symm

def relay (sys : System ι) : Relay.State ι GoString GoString Record HLC where
  hub := sys.server.store.records
  table client := (sys.clients client).store.records
  marks client := (sys.clients client).vector
  written := sys.written
  requests := sys.requests.map fun request =>
    (request.1, (KnowledgeVector.unmarshalBinary request.2).toOption.getD ∅)
  uploads := sys.uploads.map fun upload => (upload.client, upload.remaining)
  downloads := sys.downloads.map fun download => (download.client, download.remaining)

/-- What the steps of the system rely on besides the relay. -/
structure Uniform (nodes : ι → GoString) (collection : GoString) (sys : System ι) :
    Prop where
  named : collection ≠ []
  nodeID : ∀ client, (sys.clients client).nodeID = nodes client
  sameCollection : ∀ client, (sys.clients client).collection = collection
  clientStore : ∀ client, SingleCollection (sys.clients client).store collection
  serverStore : SingleCollection sys.server.store collection
  inside : ∀ client, ∀ r ∈ sys.written client, r.collection = collection
  fits : ∀ client, ∀ r ∈ sys.written client, FitsWire r
  observed : ∀ client nodeID clock, (sys.clients client).vector.lookup nodeID = some clock →
    ∃ writer, ∃ r ∈ sys.written writer, r.updatedBy = nodeID

variable {nodes : ι → GoString} {distinct : Function.Injective nodes}
variable {collection : GoString} {sys : System ι}

theorem shared_key_iff {r : Record} (inside : r.collection = collection) :
    (scheme nodes distinct collection).shared r.key ↔ isInternalID r.id = false := by
  constructor
  · rintro ⟨id, document, same⟩
    rw [Record.key, inside] at same
    rw [flatKey_right_injective collection same]
    exact document
  · intro document
    exact ⟨r.id, document, by rw [Record.key, inside]⟩

theorem at_node_iff (uniform : Uniform nodes collection sys) (client : ι) (r : Record) :
    Relay.At (scheme nodes distinct collection) (relay sys) (.node client) r ↔
      r ∈ (sys.clients client).store.listAll (sys.clients client).collection ∧
        isInternalID r.id = false := by
  have single := uniform.clientStore client
  rw [uniform.sameCollection client, single.mem_listAll_iff uniform.named]
  constructor
  · rintro ⟨isShared, found⟩
    have found : (sys.clients client).store.records.lookup r.key = some r := found
    exact ⟨found, (shared_key_iff (single.inside found)).mp isShared⟩
  · rintro ⟨found, document⟩
    exact ⟨(shared_key_iff (single.inside found)).mpr document, found⟩

theorem fits_of_at (uniform : Uniform nodes collection sys)
    (sound : Relay.Sound (scheme nodes distinct collection) (relay sys))
    {place : Relay.Place ι} {r : Record}
    (present : Relay.At (scheme nodes distinct collection) (relay sys) place r) :
    r.collection = collection ∧ FitsWire r ∧ isInternalID r.id = false := by
  obtain ⟨isShared, writer, member⟩ := sound.written place r present
  have inside := uniform.inside writer r member
  exact ⟨inside, uniform.fits writer r member, (shared_key_iff inside).mp isShared⟩

theorem relay_start (platform : Platform) (serverNode : GoString) (nodes : ι → GoString)
    (collection : GoString) (now : Int64) :
    relay (start platform serverNode nodes collection now) =
      Relay.State.start ι GoString GoString Record HLC := by
  have vector (client : ι) : (newDocDB platform (newMemoryStore (nodes client) now)
      (nodes client) collection []).vector = ∅ := by
    simp [newDocDB, DocDB.reindex, DocDB.readMetaVector, MemoryStore.get, newMemoryStore]
  simp only [relay, start, Relay.State.start, vector, Multiset.map_zero]
  rfl

theorem uniform_start (platform : Platform) (serverNode : GoString) (nodes : ι → GoString)
    (collection : GoString) (now : Int64) :
    Uniform nodes (orDefault collection)
      (start platform serverNode nodes collection now) where
  named := orDefault_ne_nil collection
  nodeID _ := rfl
  sameCollection _ := rfl
  clientStore client := singleCollection_newMemoryStore (nodes client) _ now
  serverStore := singleCollection_newMemoryStore serverNode _ now
  inside _ _ member := by simp [start] at member
  fits _ _ member := by simp [start] at member
  observed client nodeID clock found := by
    have marks := congrFun (congrArg Relay.State.marks
      (relay_start platform serverNode nodes collection now)) client
    have empty : ((start platform serverNode nodes collection now).clients client).vector =
        ∅ := marks
    simp [empty] at found

variable [DecidableEq ι]

theorem relay_setClient (sys : System ι) (client : ι) (db : DocDB) :
    relay (sys.setClient client db) = { relay sys with
      table := Function.update (relay sys).table client db.store.records
      marks := Function.update (relay sys).marks client db.vector } := by
  unfold relay setClient
  congr 1
  · funext other
    by_cases same : other = client
    · subst other
      simp
    · simp [Function.update_of_ne same]
  · funext other
    by_cases same : other = client
    · subst other
      simp
    · simp [Function.update_of_ne same]

theorem note_setClient {client : ι} {db next : DocDB} {kept : Record}
    (inside : kept.collection = collection) (internal : isInternalID kept.id = true)
    (named : collection ≠ []) (store : next.store = db.store.afterPut kept)
    (vector : next.vector = db.vector) :
    Relay.Step (scheme nodes distinct collection) (relay (sys.setClient client db))
      (relay (sys.setClient client next)) := by
  have isPrivate : ¬ (scheme nodes distinct collection).shared kept.key := by
    rw [shared_key_iff inside, internal]
    decide
  have step : Relay.Step _ (relay (sys.setClient client db)) _ :=
    .note (c := client) isPrivate
  have records : next.store.records =
      (scheme nodes distinct collection).enter db.store.records kept := by
    rw [store, MemoryStore.afterPut_records, Record.defaulted_of_named (inside ▸ named)]
    rfl
  rw [relay_setClient, relay_setClient] at *
  simpa [records, vector] using step

variable (nodes distinct) in
theorem exists_commit_path (sys : System ι) (client : ι) {db : DocDB}
    (sameCollection : db.collection = collection) (platform : Platform) (env : CallEnv)
    (r : Record) (id rev writer : GoString) :
    ∃ base : DocDB, base.store = db.store.afterPut r ∧
      Relay.Raised db.vector writer r.clock base.vector ∧
      Relation.ReflTransGen (Relay.Step (scheme nodes distinct collection))
        (relay (sys.setClient client base))
        (relay (sys.setClient client (db.commit platform env r id rev writer))) := by
  obtain ⟨vector, raised, outcome⟩ := DocDB.commit_cases platform db env r id rev writer
  let base : DocDB := { db with
    store := db.store.afterPut r
    revs := db.revs.insert id rev
    vector }
  refine ⟨base, rfl, raised, ?_⟩
  rcases outcome with stored | ⟨kept, kind, stored⟩
  · rw [stored]
  · refine .single (note_setClient (kind.collection.trans sameCollection) kind.internal
      ?_ ?_ ?_)
    · exact sameCollection ▸ db.named
    · rw [stored]
    · rw [stored]

theorem setClient_write {client : ι} {db : DocDB} {r : Record}
    (authored : r.updatedBy = nodes client) (inside : r.collection = collection)
    (named : collection ≠ [])
    (later : ∀ earlier ∈ sys.written client, earlier.clock < r.clock)
    (store : db.store = (sys.clients client).store.afterPut r)
    (raised : Relay.Raised (sys.clients client).vector (nodes client) r.clock db.vector) :
    Relay.Step (scheme nodes distinct collection) (relay sys)
      (relay ({ sys with
        written := Function.update sys.written client (r :: sys.written client) }.setClient
          client db)) := by
  have step : Relay.Step (scheme nodes distinct collection) (relay sys) _ :=
    .write (c := client) authored later raised
  have records : db.store.records = (scheme nodes distinct collection).enter
      (sys.clients client).store.records r := by
    rw [store, MemoryStore.afterPut_records, Record.defaulted_of_named (inside ▸ named)]
    rfl
  rw [relay_setClient, records]
  exact step

/-! Every step of the system is matched by steps of the relay. -/

theorem Uniform.setClient (uniform : Uniform nodes collection sys) {client : ι} {db : DocDB}
    (nodeID : db.nodeID = nodes client) (same : db.collection = collection)
    (single : SingleCollection db.store collection)
    (observed : ∀ nodeID clock, db.vector.lookup nodeID = some clock →
      ∃ writer, ∃ r ∈ sys.written writer, r.updatedBy = nodeID) :
    Uniform nodes collection (sys.setClient client db) := by
  have each (holds : ι → DocDB → Prop) (changed : holds client db)
      (others : ∀ other, holds other (sys.clients other)) :
      ∀ other, holds other ((sys.setClient client db).clients other) :=
    (Function.forall_update_iff sys.clients holds).mpr
      ⟨changed, fun other _ => others other⟩
  refine ⟨uniform.named, ?_, ?_, ?_, uniform.serverStore, uniform.inside, uniform.fits, ?_⟩
  · exact each (fun other db => db.nodeID = nodes other) nodeID uniform.nodeID
  · exact each (fun _ db => db.collection = collection) same uniform.sameCollection
  · exact each (fun _ db => SingleCollection db.store collection) single uniform.clientStore
  · exact each (fun _ db => ∀ nodeID clock, db.vector.lookup nodeID = some clock →
      ∃ writer, ∃ r ∈ sys.written writer, r.updatedBy = nodeID) observed uniform.observed

theorem Uniform.write (uniform : Uniform nodes collection sys) (client : ι) {r : Record}
    (inside : r.collection = collection) (fits : FitsWire r) :
    Uniform nodes collection { sys with
      written := Function.update sys.written client (r :: sys.written client) } := by
  have source {writer : ι} {q : Record} (member : q ∈ Function.update sys.written client
      (r :: sys.written client) writer) : q = r ∨ q ∈ sys.written writer := by
    by_cases same : writer = client
    · subst writer
      rw [Function.update_self] at member
      exact List.mem_cons.mp member
    · rw [Function.update_of_ne same] at member
      exact .inr member
  refine ⟨uniform.named, uniform.nodeID, uniform.sameCollection, uniform.clientStore,
    uniform.serverStore, ?_, ?_, ?_⟩
  · intro writer q member
    rcases source member with rfl | before
    · exact inside
    · exact uniform.inside writer q before
  · intro writer q member
    rcases source member with rfl | before
    · exact fits
    · exact uniform.fits writer q before
  · intro other nodeID clock found
    obtain ⟨writer, q, member, same⟩ := uniform.observed other nodeID clock found
    refine ⟨writer, q, ?_, same⟩
    by_cases isClient : writer = client
    · subst writer
      simp [member]
    · simpa [Function.update_of_ne isClient] using member

structure Follows (nodes : ι → GoString) (distinct : Function.Injective nodes)
    (collection : GoString) (sys next : System ι) : Prop where
  uniform : Uniform nodes collection next
  relayed : Relation.ReflTransGen (Relay.Step (scheme nodes distinct collection))
    (relay sys) (relay next)

theorem follows_call (uniform : Uniform nodes collection sys) {platform : Platform}
    {client : ι} {issued : LocalCall}
    (increasing : Increasing platform sys (.call client issued))
    (orderly : Orderly platform sys (.call client issued)) :
    Follows nodes distinct collection sys (sys.call platform client issued) := by
  have same := uniform.sameCollection client
  have single := uniform.clientStore client
  rcases DocDB.call_cases platform single.wellFormed issued with
    ⟨nothing, unchanged⟩ | ⟨r, rev, writes, written, result⟩
  · have idle : sys.call platform client issued = sys := by
      simp [System.call, System.setClient, nothing, unchanged]
    rw [idle]
    exact ⟨uniform, .refl⟩
  · have inside := written.inside same single
    have author : r.updatedBy = nodes client :=
      written.updatedBy.trans (uniform.nodeID client)
    have next : sys.call platform client issued = { sys with
        written := Function.update sys.written client (r :: sys.written client) }.setClient
          client ((sys.clients client).commit platform issued.env r issued.id rev
            (sys.clients client).nodeID) := by
      simp [System.call, System.setClient, writes, result]
    rw [next]
    constructor
    · refine (uniform.write client inside (orderly r writes)).setClient ?_ ?_ ?_ ?_
      · rw [DocDB.commit_nodeID]
        exact uniform.nodeID client
      · rw [DocDB.commit_collection]
        exact same
      · exact single.commit same inside platform _ _ _ _
      · intro nodeID clock found
        rcases DocDB.lookup_commit_vector found with ⟨old, before⟩ | rfl
        · exact (uniform.write client inside (orderly r writes)).observed client nodeID old
            before
        · exact ⟨client, r, by simp, written.updatedBy⟩
    · obtain ⟨base, store, raised, onward⟩ := exists_commit_path nodes distinct { sys with
          written := Function.update sys.written client (r :: sys.written client) } client same
        platform issued.env r issued.id rev (sys.clients client).nodeID
      refine .head (setClient_write author inside uniform.named ?_ store ?_) onward
      · intro earlier member
        exact (HLC.greaterThan_iff _ _).mp (increasing r writes earlier member)
      · rw [← uniform.nodeID client]
        exact raised

theorem follows_beginPush (uniform : Uniform nodes collection sys)
    (sound : Relay.Sound (scheme nodes distinct collection) (relay sys))
    {client : ι} {all : List Record} (listed : (all : Multiset Record) =
      (sys.clients client).store.listAll (sys.clients client).collection) :
    Follows nodes distinct collection sys (sys.beginPush client all) := by
  have complete (r : Record) : r ∈ all.filter (fun r => !isInternalID r.id) ↔
      Relay.At (scheme nodes distinct collection) (relay sys) (.node client) r := by
    rw [at_node_iff uniform, ← listed, Multiset.mem_coe, List.mem_filter, Bool.not_eq_true']
  have uploads := uploads_beginPush sys client fun r member =>
    (fits_of_at uniform sound ((complete r).mp member)).2.1
  refine ⟨{ uniform with }, .single ?_⟩
  have step : Relay.Step _ (relay sys) _ := .upload (c := client) complete
  unfold relay
  rw [uploads, Multiset.map_cons]
  exact step

theorem follows_applyPush (uniform : Uniform nodes collection sys)
    (sound : Relay.Sound (scheme nodes distinct collection) (relay sys))
    {client : ι} {r : Record} {rest : List Record} {maxSent : HLC}
    {others : Multiset (Upload ι)}
    (waiting : sys.uploads = ⟨client, r :: rest, maxSent⟩ ::ₘ others) :
    Follows nodes distinct collection sys { sys with
      server := sys.server.ingest r
      uploads := ⟨client, rest, maxSent⟩ ::ₘ others } := by
  have present : Relay.At (scheme nodes distinct collection) (relay sys) (.upload client) r :=
    ⟨r :: rest, by simp [relay, waiting], List.mem_cons_self⟩
  obtain ⟨inside, _, _⟩ := fits_of_at uniform sound present
  have waits : (relay sys).uploads = (client, r :: rest) ::ₘ
      others.map fun upload => (upload.client, upload.remaining) := by
    simp [relay, waiting]
  have records : (sys.server.ingest r).store.records =
      (scheme nodes distinct collection).enter sys.server.store.records r := by
    rw [Server.ingest, MemoryStore.afterPut_records,
      Record.defaulted_of_named (inside ▸ uniform.named)]
    rfl
  refine ⟨{ uniform with
    serverStore := uniform.serverStore.afterPut uniform.named inside }, .single ?_⟩
  have step : Relay.Step (scheme nodes distinct collection) (relay sys) _ := .apply waits
  simpa [relay, records] using step

theorem follows_finishSync (uniform : Uniform nodes collection sys) (platform : Platform)
    (env : CallEnv) (client : ι) (clock : HLC) :
    Follows nodes distinct collection sys
      (sys.setClient client ((sys.clients client).finishSync platform env clock)) := by
  have unchanged : sys.setClient client (sys.clients client) = sys := by
    simp [System.setClient]
  rcases DocDB.finishSync_cases platform (sys.clients client) env clock with
    idle | ⟨kept, kind, result⟩
  · rw [idle, unchanged]
    exact ⟨uniform, .refl⟩
  · have same := uniform.sameCollection client
    have keptInside := kind.collection.trans same
    rw [result]
    constructor
    · exact uniform.setClient (uniform.nodeID client) same
        ((uniform.clientStore client).afterPut uniform.named keptInside)
        (uniform.observed client)
    · refine .single ?_
      have step : Relay.Step (scheme nodes distinct collection)
          (relay (sys.setClient client (sys.clients client)))
          (relay (sys.setClient client { sys.clients client with
            store := (sys.clients client).store.afterPut kept
            lastSeenClock := clock })) :=
        note_setClient keptInside kind.internal uniform.named rfl rfl
      rw [unchanged] at step
      exact step

theorem Follows.trans {first second third : System ι}
    (left : Follows nodes distinct collection first second)
    (right : Follows nodes distinct collection second third) :
    Follows nodes distinct collection first third :=
  ⟨right.uniform, left.relayed.trans right.relayed⟩

theorem follows_endPush (uniform : Uniform nodes collection sys) (platform : Platform)
    (env : CallEnv) {client : ι} {maxSent : HLC} {others : Multiset (Upload ι)}
    (waiting : sys.uploads = ⟨client, [], maxSent⟩ ::ₘ others) :
    Follows nodes distinct collection sys { sys.setClient client
        ((sys.clients client).finishSync platform env maxSent) with uploads := others } := by
  have waits : (relay sys).uploads = (client, []) ::ₘ
      others.map fun upload => (upload.client, upload.remaining) := by
    simp [relay, waiting]
  have settled : Follows nodes distinct collection sys { sys with uploads := others } := by
    refine ⟨{ uniform with }, .single ?_⟩
    exact Relay.Step.settle waits
  exact settled.trans (follows_finishSync settled.uniform platform env client maxSent)

theorem follows_beginPull (uniform : Uniform nodes collection sys) {client : ι}
    (entries : KnowledgeVector.Entries (sys.clients client).vector) :
    Follows nodes distinct collection sys { sys with
      requests := (client, KnowledgeVector.marshalBinary entries) ::ₘ sys.requests } := by
  have fits (entry : GoString × HLC) (member : entry ∈ entries.order) :
      entry.1.length < 2 ^ 16 := by
    obtain ⟨writer, r, written, same⟩ := uniform.observed client entry.1 entry.2
      ((entries.complete entry.1 entry.2).mp member)
    exact same ▸ (uniform.fits writer r written).binary.updatedBy
  have known (source : GoString) (bound : HLC) (reached : Watermark.Reached
      ((KnowledgeVector.unmarshalBinary
        (KnowledgeVector.marshalBinary entries)).toOption.getD ∅) source bound) :
      Watermark.Reached (sys.clients client).vector source bound := by
    obtain ⟨mark, found, below⟩ := reached
    cases received : KnowledgeVector.unmarshalBinary
        (KnowledgeVector.marshalBinary entries) with
    | error failure => simp [received, Except.toOption] at found
    | ok decoded =>
        simp only [received, Except.toOption, Option.getD_some] at found
        exact ⟨mark, KnowledgeVector.lookup_of_unmarshalBinary entries fits received found,
          below⟩
  refine ⟨{ uniform with }, .single ?_⟩
  have step : Relay.Step (scheme nodes distinct collection) (relay sys) _ :=
    .request (c := client) known
  simpa [relay] using step

theorem follows_answer (uniform : Uniform nodes collection sys)
    (sound : Relay.Sound (scheme nodes distinct collection) (relay sys))
    {platform : Platform} {client : ι} {body reply : Bytes} {others : Multiset (ι × Bytes)}
    (orderly : Orderly platform sys (.answer client body))
    (listing : Listing sys.server.store (sys.clients client).collection)
    (waiting : sys.requests = (client, body) ::ₘ others)
    (answered : handleBinCheck listing.ordered body = .ok reply) :
    Follows nodes distinct collection sys (sys.answer client others reply) := by
  cases received : KnowledgeVector.unmarshalBinary body with
  | error failure => simp [handleBinCheck, received, bind, Except.bind] at answered
  | ok kv =>
      simp only [handleBinCheck, received, bind, Except.bind, pure, Except.pure,
        Except.ok.injEq] at answered
      subst reply
      have listed (r : Record) : r ∈ listing.ordered ↔
          Relay.At (scheme nodes distinct collection) (relay sys) .hub r := by
        rw [← Multiset.mem_coe, listing.complete, uniform.sameCollection client]
        exact uniform.serverStore.mem_listAll_iff uniform.named r
      have complete (r : Record) : r ∈ listing.ordered.filter (Server.unseen kv) ↔
          Relay.At (scheme nodes distinct collection) (relay sys) .hub r ∧
            ¬ Watermark.Reached kv r.updatedBy r.clock := by
        rw [List.mem_filter, listed, Server.unseen_iff]
      have downloads := downloads_answer sys client others fun r member =>
        (fits_of_at uniform sound ((complete r).mp member).1).2.1
      have inOrder : Relay.InOrder (scheme nodes distinct collection) (relay sys) client
          (listing.ordered.filter (Server.unseen kv)) := by
        intro r member sender older waits sameWriter below
        obtain ⟨isListed, unseen⟩ := List.mem_filter.mp member
        obtain ⟨remaining, flying, isWaiting⟩ := waits
        obtain ⟨upload, isUpload, same⟩ := Multiset.mem_map.mp flying
        cases same
        rw [← Multiset.mem_coe, listing.complete] at isListed
        exact orderly kv received r isListed unseen upload isUpload older isWaiting
          sameWriter below
      have waits : (relay sys).requests = (client, kv) ::ₘ others.map fun request =>
          (request.1, (KnowledgeVector.unmarshalBinary request.2).toOption.getD ∅) := by
        simp [relay, waiting, received, Except.toOption]
      refine ⟨{ uniform with }, .single ?_⟩
      have step : Relay.Step (scheme nodes distinct collection) (relay sys) _ :=
        .answer waits (listing.sorted.sublist List.filter_sublist) complete inOrder
      unfold relay
      rw [downloads, Multiset.map_cons]
      exact step

theorem setClient_ingest {client : ι} {db : DocDB} {r : Record} {rest : List Record}
    {failure : Option PullError} {maxSeen : HLC} {others : Multiset (Download ι)}
    (waiting : sys.downloads = ⟨client, r :: rest, failure, maxSeen⟩ ::ₘ others)
    (inside : r.collection = collection) (named : collection ≠ [])
    (store : db.store = (sys.clients client).store.afterPut r)
    (raised : Relay.Raised (sys.clients client).vector r.updatedBy r.clock db.vector) :
    Relay.Step (scheme nodes distinct collection) (relay sys)
      (relay ({ sys with
        downloads := ⟨client, rest, failure, seeClock maxSeen r⟩ ::ₘ others }.setClient
          client db)) := by
  have waits : (relay sys).downloads = (client, r :: rest) ::ₘ
      others.map fun download => (download.client, download.remaining) := by
    simp [relay, waiting]
  have step : Relay.Step (scheme nodes distinct collection) (relay sys) _ :=
    .ingest waits raised
  have records : db.store.records = (scheme nodes distinct collection).enter
      (sys.clients client).store.records r := by
    rw [store, MemoryStore.afterPut_records, Record.defaulted_of_named (inside ▸ named)]
    rfl
  rw [relay_setClient, records]
  simpa [relay] using step

theorem follows_ingest (uniform : Uniform nodes collection sys)
    (sound : Relay.Sound (scheme nodes distinct collection) (relay sys))
    (platform : Platform) (env : CallEnv) {client : ι} {r : Record} {rest : List Record}
    {failure : Option PullError} {maxSeen : HLC} {others : Multiset (Download ι)}
    (waiting : sys.downloads = ⟨client, r :: rest, failure, maxSeen⟩ ::ₘ others) :
    Follows nodes distinct collection sys { sys.setClient client
        ((sys.clients client).ingestRemote platform env r) with
      downloads := ⟨client, rest, failure, seeClock maxSeen r⟩ ::ₘ others } := by
  have present : Relay.At (scheme nodes distinct collection) (relay sys)
      (.download client) r :=
    ⟨r :: rest, by simp [relay, waiting], List.mem_cons_self⟩
  obtain ⟨_, writer, member⟩ := sound.written _ r present
  obtain ⟨inside, _, document⟩ := fits_of_at uniform sound present
  have same := uniform.sameCollection client
  have result : (sys.clients client).ingestRemote platform env r =
      (sys.clients client).commit platform env r r.id
        ((r.readRev platform.json).getD revRemote) r.updatedBy := by
    simp [DocDB.ingestRemote, document]
  rw [result]
  constructor
  · have onward : Uniform nodes collection { sys with
        downloads := ⟨client, rest, failure, seeClock maxSeen r⟩ ::ₘ others } :=
      { uniform with }
    refine onward.setClient ?_ ?_ ?_ ?_
    · rw [DocDB.commit_nodeID]
      exact uniform.nodeID client
    · rw [DocDB.commit_collection]
      exact same
    · exact (uniform.clientStore client).commit same inside platform _ _ _ _
    · intro nodeID clock found
      rcases DocDB.lookup_commit_vector found with ⟨old, before⟩ | rfl
      · exact uniform.observed client nodeID old before
      · exact ⟨writer, r, member, rfl⟩
  · obtain ⟨base, store, raised, onward⟩ := exists_commit_path nodes distinct { sys with
        downloads := ⟨client, rest, failure, seeClock maxSeen r⟩ ::ₘ others } client same
      platform env r r.id ((r.readRev platform.json).getD revRemote) r.updatedBy
    exact .head (setClient_ingest waiting inside uniform.named store raised) onward

theorem follows_finish (uniform : Uniform nodes collection sys) {client : ι}
    {failure : Option PullError} {maxSeen : HLC} {others : Multiset (Download ι)}
    (waiting : sys.downloads = ⟨client, [], failure, maxSeen⟩ ::ₘ others) :
    Follows nodes distinct collection sys { sys with downloads := others } := by
  have waits : (relay sys).downloads = (client, []) ::ₘ
      others.map fun download => (download.client, download.remaining) := by
    simp [relay, waiting]
  refine ⟨{ uniform with }, .single ?_⟩
  exact Relay.Step.finish waits

theorem follows_step (uniform : Uniform nodes collection sys)
    (sound : Relay.Sound (scheme nodes distinct collection) (relay sys))
    {platform : Platform} {action : SyncAction ι} {next : System ι}
    (increasing : Increasing platform sys action) (orderly : Orderly platform sys action)
    (step : Step platform sys action next) :
    Follows nodes distinct collection sys next := by
  cases step with
  | call client issued => exact follows_call uniform increasing orderly
  | beginPush client all listed => exact follows_beginPush uniform sound listed
  | applyPush client r rest maxSent others waiting =>
      exact follows_applyPush uniform sound waiting
  | endPush env client maxSent others waiting =>
      exact follows_endPush uniform platform env waiting
  | beginPull client entries => exact follows_beginPull uniform entries
  | answer client body others listing reply waiting answered =>
      exact follows_answer uniform sound orderly listing waiting answered
  | ingest env client r rest failure maxSeen others waiting =>
      exact follows_ingest uniform sound platform env waiting
  | endPull env client maxSeen others waiting =>
      have finished : Follows nodes distinct collection sys _ := follows_finish uniform waiting
      exact finished.trans (follows_finishSync finished.uniform platform env client maxSeen)
  | failPull client failure maxSeen others waiting => exact follows_finish uniform waiting

variable (distinct) in
theorem sound_of_reaches {platform : Platform} {serverNode : GoString} {now : Int64}
    (run : Reaches platform (fun sys action =>
      Increasing platform sys action ∧ Orderly platform sys action)
      (start platform serverNode nodes collection now) sys) :
    Uniform nodes (orDefault collection) sys ∧
      Relay.Sound (scheme nodes distinct (orDefault collection)) (relay sys) := by
  induction run with
  | start =>
      refine ⟨uniform_start platform serverNode nodes collection now, ?_⟩
      rw [relay_start]
      exact Relay.sound_start
  | step _ permitted taken ih =>
      have follows := follows_step ih.1 ih.2 permitted.1 permitted.2 taken
      exact ⟨follows.uniform, ih.2.steps follows.relayed⟩

end System

/-- In a run whose checks are answered in order, the vector of a client is sound:
it reaches no record of the server that the client does not hold or beat. -/
theorem vector_sound {ι : Type} [DecidableEq ι] (platform : Platform)
    (serverNode : GoString) {nodes : ι → GoString} (distinct : Function.Injective nodes)
    (collection : GoString) (now : Int64) {sys : System ι}
    (run : System.Reaches platform (fun sys action =>
      System.Increasing platform sys action ∧ System.Orderly platform sys action)
      (System.start platform serverNode nodes collection now) sys)
    (client : ι) {key : GoString} {r : Record} {seen : HLC}
    (stored : sys.server.store.records.lookup key = some r)
    (entry : (sys.clients client).vector.lookup r.updatedBy = some seen)
    (reached : r.clock.greaterThan seen = false) :
    (sys.clients client).store.HoldsOrBeats r := by
  obtain ⟨_, sound⟩ := System.sound_of_reaches distinct run
  have placed : r.key = key := sound.keyedHub stored
  have atHub : Relay.At (System.scheme nodes distinct (orDefault collection)) sys.relay
      .hub r := by
    rw [← placed] at stored
    exact stored
  obtain ⟨held, found, outcome⟩ := sound.held_or_beaten (b := client) atHub
    ⟨seen, entry, (HLC.greaterThan_eq_false_iff _ _).mp reached⟩
  exact ⟨held, found, outcome.imp_right (beats_iff held r).mpr⟩

theorem vector_sound_push_pull :
    let nodes : Bool → GoString := fun client => if client then ascii ['b'] else ascii ['a']
    ∃ sys r, System.Reaches .revOnly (fun sys action =>
        System.Increasing .revOnly sys action ∧ System.Orderly .revOnly sys action)
        (System.start .revOnly [] nodes [] 0) sys ∧
      sys.server.store.records.lookup r.key = some r ∧
      (sys.clients true).store.HoldsOrBeats r := by
  intro nodes
  let started : System Bool := System.start .revOnly [] nodes [] 0
  let putX : LocalCall := .put (.at 1000) (Finmap.singleton fieldID (.string (ascii ['x'])))
  let one := started.call .revOnly false putX
  let x := ((one.clients false).stored (ascii ['x'])).getD Record.zero
  let kept := ((one.clients false).stored metaVectorID).getD Record.zero
  have fits : FitsWire x := ⟨by decide +kernel, by decide +kernel⟩
  have writes : (started.clients false).writes .revOnly putX = some x := by decide +kernel
  have listed : (([x, kept] : List Record) : Multiset Record) =
      (one.clients false).store.listAll (one.clients false).collection := by
    decide +kernel
  let pushing := one.beginPush false [x, kept]
  have uploads : pushing.uploads = ⟨false, [x], x.clock⟩ ::ₘ 0 := by
    have filtered : [x, kept].filter (fun r => !isInternalID r.id) = [x] := by
      decide +kernel
    have sent : [x].foldl seeClock HLC.zero = x.clock := by decide +kernel
    rw [System.uploads_beginPush, filtered, sent]
    · rfl
    · rw [filtered]
      simpa using fits
  let pushed : System Bool := { pushing with
    server := pushing.server.ingest x
    uploads := ⟨false, [], x.clock⟩ ::ₘ 0 }
  let entries : KnowledgeVector.Entries (pushed.clients true).vector :=
    KnowledgeVector.noEntries
  let asking : System Bool := { pushed with
    requests := (true, KnowledgeVector.marshalBinary entries) ::ₘ pushed.requests }
  let listing : Listing asking.server.store (asking.clients true).collection :=
    ⟨[x], by decide +kernel, List.pairwise_singleton _ _⟩
  let told := asking.answer true 0 (wireFrames [x])
  have answered : handleBinCheck listing.ordered (KnowledgeVector.marshalBinary entries) =
      .ok (wireFrames [x]) := by
    decide +kernel
  have downloads : told.downloads = ⟨true, [x], none, HLC.zero⟩ ::ₘ 0 :=
    asking.downloads_answer true 0 (by simpa using fits)
  let pulled : System Bool := { told.setClient true
      ((told.clients true).ingestRemote .revOnly (.at 1002) x) with
    downloads := ⟨true, [], none, seeClock HLC.zero x⟩ ::ₘ 0 }
  have run : System.Reaches .revOnly (fun sys action =>
      System.Increasing .revOnly sys action ∧ System.Orderly .revOnly sys action)
      started pulled := by
    have wrote : System.Reaches .revOnly (fun sys action =>
        System.Increasing .revOnly sys action ∧ System.Orderly .revOnly sys action)
        started one := by
      refine .step .start ⟨?_, ?_⟩ (.call started false putX)
      · intro r _ earlier member
        simp [started, System.start] at member
      · intro r isWritten
        rw [writes, Option.some.injEq] at isWritten
        exact isWritten ▸ fits
    have begins := wrote.extend (.beginPush one false [x, kept] listed) ⟨trivial, trivial⟩
    have applies := begins.extend (.applyPush pushing false x [] x.clock 0 uploads)
      ⟨trivial, trivial⟩
    have asks := applies.extend (.beginPull pushed true entries) ⟨trivial, trivial⟩
    have answers := asks.extend (.answer asking true _ 0 listing _ rfl answered) ⟨trivial, by
      intro kv _ r _ _ upload flying waiting member
      rw [Multiset.mem_singleton.mp flying] at member
      simp at member⟩
    exact answers.extend (.ingest told (.at 1002) true x [] none HLC.zero 0 downloads)
      ⟨trivial, trivial⟩
  have distinct : Function.Injective nodes := by decide
  have stored : pulled.server.store.records.lookup x.key = some x := by decide +kernel
  have entry : (pulled.clients true).vector.lookup x.updatedBy = some x.clock := by
    decide +kernel
  exact ⟨pulled, x, run, stored,
    vector_sound .revOnly [] distinct [] 0 run true stored entry (by decide +kernel)⟩

/-- A check that is answered between two records of a push, sent in map order,
raises the mark of their writer past the record that is still to come. -/
theorem vector_unsound_mid_push :
    let nodes : Bool → GoString := fun client => if client then ascii ['b'] else ascii ['a']
    ∃ sys, System.Reaches .revOnly (System.Increasing .revOnly)
        (System.start .revOnly [] nodes [] 0) sys ∧
      ∃ key r seen, sys.server.store.records.lookup key = some r ∧
        isInternalID r.id = false ∧
        (sys.clients true).vector.lookup r.updatedBy = some seen ∧
        r.clock.greaterThan seen = false ∧ ¬ (sys.clients true).store.HoldsOrBeats r := by
  intro nodes
  let started : System Bool := System.start .revOnly [] nodes [] 0
  let putX : LocalCall := .put (.at 1000) (Finmap.singleton fieldID (.string (ascii ['x'])))
  let putY : LocalCall := .put (.at 1001) (Finmap.singleton fieldID (.string (ascii ['y'])))
  let one := started.call .revOnly false putX
  let two := one.call .revOnly false putY
  let x := ((two.clients false).stored (ascii ['x'])).getD Record.zero
  let y := ((two.clients false).stored (ascii ['y'])).getD Record.zero
  let kept := ((two.clients false).stored metaVectorID).getD Record.zero
  have fitsX : FitsWire x := ⟨by decide +kernel, by decide +kernel⟩
  have fitsY : FitsWire y := ⟨by decide +kernel, by decide +kernel⟩
  have listed : (([y, x, kept] : List Record) : Multiset Record) =
      (two.clients false).store.listAll (two.clients false).collection := by
    decide +kernel
  let pushing := two.beginPush false [y, x, kept]
  have uploads : pushing.uploads = ⟨false, [y, x], y.clock⟩ ::ₘ 0 := by
    have filtered : [y, x, kept].filter (fun r => !isInternalID r.id) = [y, x] := by
      decide +kernel
    have sent : [y, x].foldl seeClock HLC.zero = y.clock := by decide +kernel
    rw [System.uploads_beginPush, filtered, sent]
    · rfl
    · rw [filtered]
      simpa using ⟨fitsY, fitsX⟩
  let half : System Bool := { pushing with
    server := pushing.server.ingest y
    uploads := ⟨false, [x], y.clock⟩ ::ₘ 0 }
  let entries : KnowledgeVector.Entries (half.clients true).vector :=
    KnowledgeVector.noEntries
  let asking : System Bool := { half with
    requests := (true, KnowledgeVector.marshalBinary entries) ::ₘ half.requests }
  let listing : Listing asking.server.store (asking.clients true).collection :=
    ⟨[y], by decide +kernel, List.pairwise_singleton _ _⟩
  let told := asking.answer true 0 (wireFrames [y])
  have answered : handleBinCheck listing.ordered (KnowledgeVector.marshalBinary entries) =
      .ok (wireFrames [y]) := by
    decide +kernel
  have downloads : told.downloads = ⟨true, [y], none, HLC.zero⟩ ::ₘ 0 :=
    asking.downloads_answer true 0 (by simpa using fitsY)
  let misled : System Bool := { told.setClient true
      ((told.clients true).ingestRemote .revOnly (.at 1002) y) with
    downloads := ⟨true, [], none, seeClock HLC.zero y⟩ ::ₘ 0 }
  let pushed : System Bool := { misled with
    server := misled.server.ingest x
    uploads := ⟨false, [], y.clock⟩ ::ₘ 0 }
  refine ⟨pushed, ?_, x.key, x, y.clock, ?_, ?_, ?_, ?_, ?_⟩
  · have first : System.Reaches .revOnly (System.Increasing .revOnly) started one := by
      refine .step .start ?_ (.call started false putX)
      intro r _ earlier member
      simp [started, System.start] at member
    have second : System.Increasing .revOnly one (.call false putY) := by
      intro r writes earlier member
      have stamp : ((one.clients false).writes .revOnly putY).map Record.clock =
          some ⟨1001, 1⟩ := by
        decide +kernel
      have before : (one.written false).map Record.clock = [⟨1000, 1⟩] := by
        decide +kernel
      have clock : r.clock = ⟨1001, 1⟩ := by
        rw [writes] at stamp
        exact Option.some.inj stamp
      have older : earlier.clock = ⟨1000, 1⟩ := by
        have mapped := List.mem_map_of_mem (f := Record.clock) member
        rw [before] at mapped
        exact List.mem_singleton.mp mapped
      rw [clock, older]
      decide
    have wrote := first.extend (.call one false putY) second
    have begins := wrote.extend (.beginPush two false [y, x, kept] listed) trivial
    have applies := begins.extend (.applyPush pushing false y [x] y.clock 0 uploads) trivial
    have asks := applies.extend (.beginPull half true entries) trivial
    have answers := asks.extend (.answer asking true _ 0 listing _ rfl answered) trivial
    have ingests := answers.extend
      (.ingest told (.at 1002) true y [] none HLC.zero 0 downloads) trivial
    exact ingests.extend (.applyPush misled false x [] y.clock 0 rfl) trivial
  · decide +kernel
  · decide +kernel
  · decide +kernel
  · decide +kernel
  · rintro ⟨held, found, _⟩
    have absent : (pushed.clients true).store.records.lookup x.key = none := by
      decide +kernel
    rw [absent] at found
    contradiction

end NellDB
