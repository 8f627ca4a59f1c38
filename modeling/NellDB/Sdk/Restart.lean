import NellDB.Sdk.History

namespace NellDB

open Data

/-! The knowledge vector across a restart. -/

/-- The JSON library reads the vector back from its own text. -/
def JsonCodec.Carries (json : JsonCodec) (kv : KnowledgeVector) : Prop :=
  json.unmarshalVector (json.marshalVector kv) = some kv

namespace DocDB

theorem readMetaVector_eq (platform : Platform) (db : DocDB) :
    db.readMetaVector platform =
      (db.stored metaVectorID).bind fun r => platform.json.unmarshalVector r.payload := by
  unfold readMetaVector
  rw [get_eq]
  cases db.stored metaVectorID <;> rfl

/-- What a restart reads is what the database holds. -/
def Recoverable (platform : Platform) (db : DocDB) : Prop :=
  (db.readMetaVector platform).getD ∅ = db.vector

theorem reopen_vector (platform : Platform) (db : DocDB) (all : List Record) :
    (db.reopen platform all).vector = (db.readMetaVector platform).getD ∅ := by
  have same : orDefault db.collection = db.collection := orDefault_of_ne db.named
  unfold reopen newDocDB reindex readMetaVector
  dsimp only
  rw [same]

theorem recoverable_newDocDB (platform : Platform) (store : MemoryStore)
    (nodeID collection : GoString) (all : List Record) :
    (newDocDB platform store nodeID collection all).Recoverable platform := rfl

/-- The clock that a call stamps on its record. -/
def stampOf (db : DocDB) : LocalCall → HLC
  | .put env doc => stampFor env (db.storedClock (doc.stringField fieldID))
  | .remove env id _ => stampFor env (some ((db.storedClock id).getD (newHLC env.missing)))

theorem prepareRemove_clock {platform : Platform} {db : DocDB} {env : CallEnv}
    {id wantRev newRev : GoString} {tombstone : Record}
    (prepared : db.prepareRemove platform env id wantRev = .ok (newRev, tombstone)) :
    tombstone.clock = db.stampOf (.remove env id wantRev) := by
  rw [(prepareRemove_ready prepared).tombstone, stampOf, storedClock_eq, removeTarget]
  cases db.stored id <;> rfl

theorem writes_clock {platform : Platform} {db : DocDB} {call : LocalCall} {r : Record}
    (writes : db.writes platform call = some r) : r.clock = db.stampOf call := by
  cases call with
  | put env doc =>
      cases prepared : db.prepare platform env doc with
      | error failure => simp [DocDB.writes, prepared, Except.toOption] at writes
      | ok result =>
          simp only [DocDB.writes, prepared, Except.toOption, Option.map_some,
            Option.some.injEq] at writes
          subst r
          have valid := prepare_ok prepared
          rw [valid.clock, valid.id]
          rfl
  | remove env id wantRev =>
      cases prepared : db.prepareRemove platform env id wantRev with
      | error failure => simp [DocDB.writes, prepared, Except.toOption] at writes
      | ok result =>
          simp only [DocDB.writes, prepared, Except.toOption, Option.map_some,
            Option.some.injEq] at writes
          subst r
          exact prepareRemove_clock prepared

/-- The stored record of the vector is older than the next one: by the wall time
of a reading of the system clock, or through a clock that is merged into it. -/
def Overwrites (db : DocDB) (env : CallEnv) (vector : KnowledgeVector) : Prop :=
  ∀ clock, db.storedClock metaVectorID = some clock →
    clock.wallTime < env.metaFresh ∨ clock.wallTime < env.metaTick ∨
      (∀ nodeID entry, vector.lookup nodeID = some entry → entry.HasRoomForTwo) ∧
        ∃ nodeID entry, vector.lookup nodeID = some entry ∧ clock ≤ entry.succ

theorem Overwrites.lt_clock {db : DocDB} {env : CallEnv} {vector : KnowledgeVector}
    (overwrites : db.Overwrites env vector) (platform : Platform) (writer : DocDB)
    {clock : HLC} (found : db.storedClock metaVectorID = some clock) :
    clock < (writer.metaVector platform env vector).clock := by
  change clock < ((env.order.clocks vector).foldl HLC.update
    (newHLC env.metaFresh)).tick env.metaTick
  rcases overwrites clock found with fresh | tick | ⟨rooms, nodeID, entry, present, below⟩
  · apply HLC.lt_of_wallTime_lt
    have merged := HLC.wallTime_le_foldl_update (newHLC env.metaFresh)
      (env.order.clocks vector)
    exact Int64.lt_of_lt_of_le fresh (Int64.le_trans merged (HLC.wallTime_le_tick _ _))
  · exact HLC.lt_tick_of_wallTime_lt tick _
  · have room : ∀ clock ∈ env.order.clocks vector, clock.HasRoomForTwo := by
      intro clock member
      obtain ⟨nodeID, held⟩ := (env.order.complete vector clock).mp member
      exact rooms nodeID clock held
    have member : entry ∈ env.order.clocks vector :=
      (env.order.complete vector entry).mpr ⟨nodeID, present⟩
    calc clock ≤ entry.succ := below
      _ ≤ (env.order.clocks vector).foldl HLC.update (newHLC env.metaFresh) :=
        HLC.succ_le_foldl_update member room
      _ < _ := HLC.lt_tick (HLC.hasRoom_foldl_update (HLC.hasRoom_newHLC _) room) env.metaTick

/-- Where the observation raises the vector, the new vector can be stored. -/
def Persists (platform : Platform) (db : DocDB) (env : CallEnv) (writer : GoString)
    (clock : HLC) : Prop :=
  writer ≠ [] → (db.vector.lookup writer).getD HLC.zero < clock →
    platform.json.Carries (db.vector.insert writer clock) ∧
      db.Overwrites env (db.vector.insert writer clock)

/-- Besides, nothing else is written to the key of the vector. -/
def PersistsAction (platform : Platform) (db : DocDB) : DocAction → Prop
  | .call call =>
      call.id ≠ metaVectorID ∧
        db.Persists platform call.env db.nodeID (db.stampOf call)
  | .ingest env r =>
      isInternalID r.id = true ∨
        r.defaulted.key ≠ flatKey db.collection metaVectorID ∧
          db.Persists platform env r.updatedBy r.clock

theorem stored_writeMetaVector (platform : Platform) {db : DocDB} {env : CallEnv}
    {kv : KnowledgeVector} (overwrites : db.Overwrites env kv) :
    (db.writeMetaVector platform env kv).stored metaVectorID =
      some (db.metaVector platform env kv) := by
  have same : (db.metaVector platform env kv).defaulted = db.metaVector platform env kv :=
    Record.defaulted_of_named db.named
  have later : ∀ held, db.store.records.lookup (db.metaVector platform env kv).key = some held →
      held.stamp < (db.metaVector platform env kv).stamp := by
    intro held found
    apply Record.stamp_lt_of_clock_lt
    apply overwrites.lt_clock
    rw [storedClock_eq]
    exact congrArg (Option.map Record.clock) found
  change (db.store.afterPut (db.metaVector platform env kv)).records.lookup
    (db.metaVector platform env kv).key = _
  rw [MemoryStore.afterPut_records, same,
    Champion.enter_eq_insert fun held found => .inr (later held found), Finmap.lookup_insert]

theorem Recoverable.observeVector {platform : Platform} {db : DocDB}
    (recoverable : db.Recoverable platform) {env : CallEnv} {writer : GoString} {clock : HLC}
    (persists : db.Persists platform env writer clock) :
    (db.observeVector platform env writer clock).Recoverable platform := by
  unfold DocDB.observeVector
  split
  next => exact recoverable
  next named =>
      dsimp only
      split
      next newer =>
          obtain ⟨carries, overwrites⟩ :=
            persists named ((HLC.greaterThan_iff _ _).mp newer)
          have written := @stored_writeMetaVector platform
            { db with vector := db.vector.insert writer clock } env _ overwrites
          unfold Recoverable
          rw [readMetaVector_eq, written]
          change ((platform.json.unmarshalVector (platform.json.marshalVector
            (db.vector.insert writer clock))).getD ∅) = db.vector.insert writer clock
          rw [carries, Option.getD_some]
      next => exact recoverable

/-- An incoming record of a later clock than the vector holds for its writer. -/
theorem ingestRemote_of_newer {platform : Platform} {db : DocDB} {env : CallEnv} {r : Record}
    (document : isInternalID r.id = false) (named : r.updatedBy ≠ [])
    (newer : (db.vector.lookup r.updatedBy).getD HLC.zero < r.clock) :
    db.ingestRemote platform env r =
      writeMetaVector platform { db with
        store := db.store.afterPut r
        revs := db.revs.insert r.id ((r.readRev platform.json).getD revRemote)
        vector := db.vector.insert r.updatedBy r.clock } env
        (db.vector.insert r.updatedBy r.clock) := by
  have later : r.clock.greaterThan ((db.vector.lookup r.updatedBy).getD HLC.zero) = true :=
    (HLC.greaterThan_iff _ _).mpr newer
  rw [ingestRemote, if_neg (by rw [document]; exact Bool.false_ne_true), commit,
    DocDB.observeVector, if_neg named]
  exact if_pos later

theorem Recoverable.commit {platform : Platform} {db : DocDB}
    (recoverable : db.Recoverable platform) {env : CallEnv} {r : Record}
    {id rev writer : GoString}
    (apart : r.defaulted.key ≠ flatKey db.collection metaVectorID)
    (persists : db.Persists platform env writer r.clock) :
    (db.commit platform env r id rev writer).Recoverable platform := by
  have untouched : (db.store.afterPut r).records.lookup
      (flatKey db.collection metaVectorID) = db.stored metaVectorID := by
    rw [MemoryStore.afterPut_records, Champion.lookup_enter_of_ne _ apart.symm]
    rfl
  have sameStored : DocDB.stored { db with
      store := db.store.afterPut r
      revs := db.revs.insert id rev } metaVectorID = db.stored metaVectorID := untouched
  unfold DocDB.commit
  apply Recoverable.observeVector
  · unfold Recoverable at recoverable ⊢
    rw [readMetaVector_eq] at recoverable ⊢
    rw [sameStored]
    exact recoverable
  · intro named newer
    obtain ⟨carries, overwrites⟩ := persists named newer
    refine ⟨carries, ?_⟩
    intro clock found
    apply overwrites
    rw [storedClock_eq] at found ⊢
    rw [sameStored] at found
    exact found

theorem Recoverable.act {platform : Platform} {db : DocDB} (wellFormed : WellFormed db.store)
    (recoverable : db.Recoverable platform) {action : DocAction}
    (persists : db.PersistsAction platform action) :
    (db.act platform action).Recoverable platform := by
  cases action with
  | call call =>
      obtain ⟨elsewhere, persists⟩ := persists
      rcases call_cases platform wellFormed call with
        ⟨_, same⟩ | ⟨r, rev, writes, written, same⟩
      · rw [DocDB.act, same]
        exact recoverable
      · rw [DocDB.act, same]
        apply recoverable.commit
        · rw [Record.defaulted_of_named written.named, written.placed]
          exact fun equal => elsewhere (flatKey_right_injective _ equal)
        · rw [writes_clock writes]
          exact persists
  | ingest env r =>
      rw [DocDB.act, DocDB.ingestRemote]
      split
      next => exact recoverable
      next document =>
          obtain ⟨apart, persists⟩ := persists.resolve_left document
          exact recoverable.commit apart persists

end DocDB

/-- In a run whose steps can all store the vector they raise, a restart at any
point recovers the vector in memory. -/
theorem vector_survives_restart (platform : Platform) {store : MemoryStore}
    (wellFormed : WellFormed store) (nodeID collection : GoString) (all : List Record)
    {db : DocDB}
    (run : Run (fun before action after => after = before.act platform action)
      (DocDB.PersistsAction platform) (newDocDB platform store nodeID collection all) db)
    (listing : List Record) : (db.reopen platform listing).vector = db.vector := by
  have kept : WellFormed db.store ∧ db.Recoverable platform := by
    induction run with
    | start =>
        exact ⟨wellFormed, DocDB.recoverable_newDocDB platform store nodeID collection all⟩
    | step _ persists taken ih =>
        obtain ⟨formed, recoverable⟩ := ih
        rw [taken]
        exact ⟨formed.act platform _, recoverable.act formed persists⟩
  rw [DocDB.reopen_vector]
  exact kept.2

/-- A codec that reads the vectors of a list back. -/
def Platform.reading (vectors : List KnowledgeVector) : Platform :=
  { Platform.revOnly with
    json := { JsonCodec.revOnly with
      unmarshalVector text := vectors.find? fun kv => JsonCodec.vectorText kv = text } }

def peerRecord (id writer : GoString) (clock : HLC) : Record :=
  { Record.zero with
    collection := defaultCollection
    id
    type := typeText
    clock
    updatedBy := writer }

def aheadVector : KnowledgeVector := Finmap.singleton (ascii ['m']) ⟨2000, 0⟩

def bothVector : KnowledgeVector := aheadVector.insert (ascii ['k']) ⟨500, 0⟩

/-- A database that has ingested one record of a peer whose clock is ahead. -/
def aheadDB : DocDB :=
  (newDocDB (.reading [aheadVector, bothVector]) (newMemoryStore [] 0) (ascii ['n']) []
    []).act (.reading [aheadVector, bothVector])
    (.ingest (.at 1000) (peerRecord (ascii ['x']) (ascii ['m']) ⟨2000, 0⟩))

def secondPeer : Record := peerRecord (ascii ['y']) (ascii ['k']) ⟨500, 0⟩

theorem vector_aheadDB : aheadDB.vector = aheadVector := rfl

theorem sortedKeys_bothVector :
    bothVector.sortedKeys = [ascii ['k'], ascii ['m']] := by
  have keys : bothVector.keys = [ascii ['k'], ascii ['m']].toFinset := rfl
  rw [FiniteMap.sortedKeys, keys, List.toFinset_sort]
  · decide
  · decide

theorem carries_bothVector :
    (Platform.reading [aheadVector, bothVector]).json.Carries bothVector := by
  have text : JsonCodec.vectorText bothVector =
      [123] ++ [44].intercalate ([ascii ['k'], ascii ['m']].map fun nodeID =>
        JsonCodec.quoted nodeID ++ [58] ++
          JsonCodec.clockText ((bothVector.lookup nodeID).getD HLC.zero)) ++ [125] := by
    rw [JsonCodec.vectorText, sortedKeys_bothVector]
  have other : JsonCodec.vectorText aheadVector ≠ JsonCodec.vectorText bothVector := by
    rw [text]
    decide +kernel
  change List.find? (fun kv => decide (JsonCodec.vectorText kv =
    JsonCodec.vectorText bothVector)) [aheadVector, bothVector] = some bothVector
  rw [List.find?_cons_of_neg (by simpa using other), List.find?_cons_of_pos (by simp)]

theorem carries_aheadVector :
    (Platform.reading [aheadVector, bothVector]).json.Carries aheadVector := by
  unfold JsonCodec.Carries
  decide +kernel

/-- The database before it writes the raised vector. -/
def secondDB : DocDB :=
  { aheadDB with
    store := aheadDB.store.afterPut secondPeer
    revs := aheadDB.revs.insert secondPeer.id revRemote
    vector := bothVector }

theorem ingest_secondPeer (env : CallEnv) :
    aheadDB.act (.reading [aheadVector, bothVector]) (.ingest env secondPeer) =
      secondDB.writeMetaVector (.reading [aheadVector, bothVector]) env bothVector := by
  have unread : secondPeer.readRev
      (Platform.reading [aheadVector, bothVector]).json = none := rfl
  have raised : aheadDB.vector.insert secondPeer.updatedBy secondPeer.clock = bothVector := by
    rw [vector_aheadDB]
    rfl
  rw [DocDB.act, DocDB.ingestRemote_of_newer (by decide) (by decide) (by decide),
    raised, unread, Option.getD_none]
  rfl

theorem persists_firstPeer :
    (newDocDB (.reading [aheadVector, bothVector]) (newMemoryStore [] 0) (ascii ['n']) []
      []).PersistsAction (.reading [aheadVector, bothVector])
      (.ingest (.at 1000) (peerRecord (ascii ['x']) (ascii ['m']) ⟨2000, 0⟩)) := by
  refine .inr ⟨by decide, ?_⟩
  intro _ _
  constructor
  · exact carries_aheadVector
  · intro clock found
    have absent : (newDocDB (.reading [aheadVector, bothVector]) (newMemoryStore [] 0)
        (ascii ['n']) [] []).storedClock metaVectorID = none := rfl
    exact absurd (absent.symm.trans found) (by simp)

/-- The second peer is observed once the system time has passed the clock that
is ahead. -/
theorem persists_secondPeer :
    aheadDB.PersistsAction (.reading [aheadVector, bothVector])
      (.ingest (.at 3000) secondPeer) := by
  refine .inr ⟨by decide, ?_⟩
  intro _ _
  rw [vector_aheadDB]
  refine ⟨carries_bothVector, ?_⟩
  intro clock found
  have stored : aheadDB.storedClock metaVectorID = some ⟨2000, 2⟩ := by decide +kernel
  cases stored.symm.trans found
  left
  decide

theorem vector_survives_restart_two_peers :
    let platform := Platform.reading [aheadVector, bothVector]
    let db := aheadDB.act platform (.ingest (.at 3000) secondPeer)
    (aheadDB.reopen platform []).vector = aheadVector ∧
      (db.reopen platform []).vector = bothVector := by
  intro platform db
  have first : Run (fun before action after => after = before.act platform action)
      (DocDB.PersistsAction platform)
      (newDocDB platform (newMemoryStore [] 0) (ascii ['n']) [] []) aheadDB :=
    .step .start persists_firstPeer rfl
  have raised : db.vector = bothVector := by
    change (aheadDB.act platform (.ingest (.at 3000) secondPeer)).vector = bothVector
    rw [ingest_secondPeer]
    rfl
  refine ⟨?_, ?_⟩
  · rw [← vector_aheadDB]
    exact vector_survives_restart platform (wellFormed_newMemoryStore [] 0) (ascii ['n']) [] []
      first []
  · rw [← raised]
    exact vector_survives_restart platform (wellFormed_newMemoryStore [] 0) (ascii ['n']) [] []
      (.step first persists_secondPeer rfl) []

/-- The clock of the vector's record is again one past the clock that is ahead. -/
theorem metaVector_bothVector_clock (platform : Platform) (db : DocDB) :
    (db.metaVector platform (.at 1001) bothVector).clock = ⟨2000, 2⟩ := by
  change ((bothVector.sortedKeys.filterMap fun nodeID => bothVector.lookup nodeID).foldl
    HLC.update (newHLC 1001)).tick 1001 = _
  rw [sortedKeys_bothVector]
  rfl

/-- The new record of the vector ties with the stored one of the same writer. -/
theorem stored_secondPeer :
    (secondDB.writeMetaVector (.reading [aheadVector, bothVector]) (.at 1001)
      bothVector).stored metaVectorID = secondDB.stored metaVectorID := by
  let written := secondDB.metaVector (.reading [aheadVector, bothVector]) (.at 1001) bothVector
  have clock : secondDB.storedClock metaVectorID = some ⟨2000, 2⟩ := by decide +kernel
  have writer : (secondDB.stored metaVectorID).map Record.updatedBy = some (ascii ['n']) := by
    decide +kernel
  rw [DocDB.storedClock_eq] at clock
  obtain ⟨old, found, isClock⟩ := Option.map_eq_some_iff.mp clock
  rw [found, Option.map_some, Option.some.injEq] at writer
  have behind : ¬ old.stamp < written.stamp := by
    have sameClock : written.clock = ⟨2000, 2⟩ := metaVector_bothVector_clock _ secondDB
    have sameWriter : written.updatedBy = ascii ['n'] := rfl
    rw [Record.stamp, Record.stamp, sameClock, sameWriter, isClock, writer]
    exact lt_irrefl _
  have present : secondDB.store.records.lookup written.key = some old := found
  change (secondDB.store.afterPut written).records.lookup written.key = _
  rw [MemoryStore.afterPut_records, Record.defaulted_of_named secondDB.named,
    Champion.lookup_enter_of_some present, Champion.prefer, if_neg behind, found]

/-- A second peer is observed a millisecond after the one that is ahead: the
stored vector stays as it was, and a restart forgets the second peer. -/
theorem restart_forgets_peer :
    let platform := Platform.reading [aheadVector, bothVector]
    let first : DocAction :=
      .ingest (.at 1000) (peerRecord (ascii ['x']) (ascii ['m']) ⟨2000, 0⟩)
    let second : DocAction := .ingest (.at 1001) secondPeer
    let db := aheadDB.act platform second
    ([first, second].flatMap DocAction.readings).Pairwise (· ≤ ·) ∧
      platform.json.Carries aheadVector ∧ platform.json.Carries bothVector ∧
      Run (fun before action after => after = before.act platform action) (fun _ _ => True)
        (newDocDB platform (newMemoryStore [] 0) (ascii ['n']) [] []) db ∧
      db.vector = bothVector ∧
      ∀ listing, (db.reopen platform listing).vector = aheadVector ∧
        (db.reopen platform listing).vector ≠ db.vector := by
  intro platform first second db
  have wrote : db = secondDB.writeMetaVector platform (.at 1001) bothVector :=
    ingest_secondPeer (.at 1001)
  have held : db.vector = bothVector := by
    rw [wrote]
    rfl
  have payload : ((secondDB.stored metaVectorID).bind fun r =>
      platform.json.unmarshalVector r.payload) = some aheadVector := by
    decide +kernel
  have recovered : (db.readMetaVector platform).getD ∅ = aheadVector := by
    rw [DocDB.readMetaVector_eq, wrote, stored_secondPeer, payload, Option.getD_some]
  have run : Run (fun before action after => after = before.act platform action)
      (fun _ _ => True) (newDocDB platform (newMemoryStore [] 0) (ascii ['n']) [] []) aheadDB :=
    .step .start trivial (show aheadDB = DocDB.act platform _ first from rfl)
  refine ⟨by decide, carries_aheadVector, carries_bothVector,
    .step run trivial (show db = aheadDB.act platform second from rfl), held, ?_⟩
  · intro listing
    rw [DocDB.reopen_vector, recovered, held]
    exact ⟨rfl, by decide⟩

end NellDB
