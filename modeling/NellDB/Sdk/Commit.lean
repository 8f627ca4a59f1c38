import NellDB.Data.RelayInvariant
import NellDB.Sdk.DocDB
import NellDB.Store.Index

namespace NellDB

open Data

namespace DocDB

/-! What is stored at a document's key. -/

def stored (db : DocDB) (id : GoString) : Option Record :=
  db.store.records.lookup (flatKey db.collection id)

theorem get_eq (db : DocDB) (id : GoString) :
    db.store.get db.collection id =
      (db.stored id).elim (.error (.recordNotFound id db.collection)) .ok := by
  unfold MemoryStore.get stored
  rw [orDefault_of_ne db.named]
  dsimp only
  cases db.store.records.lookup (flatKey db.collection id) <;> rfl

theorem get_eq_of_stored (platform : Platform) {db other : DocDB} {id : GoString}
    (same : other.stored id = db.stored id) (cancelled : Bool) :
    other.get platform cancelled id = db.get platform cancelled id := by
  unfold DocDB.get
  rw [get_eq, get_eq, same]
  cases db.stored id <;> rfl

theorem storedClock_eq (db : DocDB) (id : GoString) :
    db.storedClock id = (db.stored id).map Record.clock := by
  unfold storedClock
  rw [get_eq]
  cases db.stored id <;> rfl

theorem lookup_afterPut_of_ne (s : MemoryStore) {r : Record} {collection id : GoString}
    (sameCollection : r.collection = collection) (named : collection ≠ [])
    (apart : id ≠ r.id) :
    (s.afterPut r).records.lookup (flatKey collection id) =
      s.records.lookup (flatKey collection id) := by
  rw [MemoryStore.afterPut_records]
  apply Champion.lookup_enter_of_ne
  rw [Record.defaulted_of_named (sameCollection ▸ named), Record.key, sameCollection]
  exact fun same => apart (flatKey_right_injective collection same)

/-- A record that the database keeps for itself. -/
structure Bookkeeping (db : DocDB) (r : Record) : Prop where
  collection : r.collection = db.collection
  internal : isInternalID r.id = true
  updatedBy : r.updatedBy = db.nodeID

section

variable (platform : Platform) (db : DocDB) (env : CallEnv)

theorem observeVector_cases (nodeID : GoString) (clock : HLC) :
    db.observeVector platform env nodeID clock = db ∨
      ∃ r : Record, db.Bookkeeping r ∧ (db.vector.lookup nodeID).getD HLC.zero < clock ∧
        db.observeVector platform env nodeID clock =
          { db with
            vector := db.vector.insert nodeID clock
            store := db.store.afterPut r } := by
  by_cases anonymous : nodeID = []
  · exact .inl (if_pos anonymous)
  by_cases newer : clock.greaterThan ((db.vector.lookup nodeID).getD HLC.zero) = true
  · let vector := db.vector.insert nodeID clock
    refine .inr ⟨metaVector platform { db with vector } env vector, ⟨rfl, rfl, rfl⟩,
      (HLC.greaterThan_iff _ _).mp newer, ?_⟩
    exact (if_neg anonymous).trans (if_pos newer)
  · exact .inl ((if_neg anonymous).trans (if_neg newer))

theorem observeVector_stored (nodeID : GoString) (clock : HLC) {other : GoString}
    (apart : other ≠ metaVectorID) :
    (db.observeVector platform env nodeID clock).stored other = db.stored other := by
  unfold observeVector
  split
  next => rfl
  next =>
      dsimp only
      split
      next => exact lookup_afterPut_of_ne db.store rfl db.named apart
      next => rfl

/-- The vector and its record are all that an observation touches. -/
theorem observeVector_frame (nodeID : GoString) (clock : HLC) :
    (db.observeVector platform env nodeID clock).revs = db.revs ∧
      (db.observeVector platform env nodeID clock).nodeID = db.nodeID ∧
      (db.observeVector platform env nodeID clock).collection = db.collection := by
  rcases observeVector_cases platform db env nodeID clock with same | ⟨_, _, _, same⟩
  · rw [same]
    exact ⟨rfl, rfl, rfl⟩
  · rw [same]
    exact ⟨rfl, rfl, rfl⟩

variable (r : Record) (id rev writer : GoString)

@[simp] theorem commit_revs :
    (db.commit platform env r id rev writer).revs = db.revs.insert id rev := by
  unfold commit
  exact (observeVector_frame platform _ env writer r.clock).1

@[simp] theorem commit_nodeID :
    (db.commit platform env r id rev writer).nodeID = db.nodeID := by
  unfold commit
  exact (observeVector_frame platform _ env writer r.clock).2.1

@[simp] theorem commit_collection :
    (db.commit platform env r id rev writer).collection = db.collection := by
  unfold commit
  exact (observeVector_frame platform _ env writer r.clock).2.2

theorem ingestRemote_collection :
    (db.ingestRemote platform env r).collection = db.collection := by
  unfold ingestRemote
  split
  next => rfl
  next => rw [commit_collection]

theorem ingestRemote_nodeID :
    (db.ingestRemote platform env r).nodeID = db.nodeID := by
  unfold ingestRemote
  split
  next => rfl
  next => rw [commit_nodeID]

theorem commit_stored_of_ne {other : GoString} (apart : other ≠ metaVectorID) :
    (db.commit platform env r id rev writer).stored other =
      (db.store.afterPut r).records.lookup (flatKey db.collection other) := by
  unfold commit
  rw [observeVector_stored _ _ _ _ _ apart]
  rfl

theorem commit_stored {other : GoString} (document : isInternalID other = false) :
    (db.commit platform env r id rev writer).stored other =
      (db.store.afterPut r).records.lookup (flatKey db.collection other) := by
  apply commit_stored_of_ne
  rintro rfl
  exact absurd document (by decide)

/-- A commit stores the record and then, at most, the record of the vector. -/
theorem commit_cases :
    ∃ vector, Relay.Raised db.vector writer r.clock vector ∧
      let stored := { db with
        store := db.store.afterPut r
        revs := db.revs.insert id rev
        vector }
      db.commit platform env r id rev writer = stored ∨
        ∃ kept : Record, db.Bookkeeping kept ∧
          db.commit platform env r id rev writer =
            { stored with store := stored.store.afterPut kept } := by
  unfold commit
  rcases observeVector_cases platform _ env writer r.clock with
    same | ⟨kept, kind, newer, same⟩
  · exact ⟨db.vector, ⟨fun before => before, fun after => .inl after⟩, .inl same⟩
  · refine ⟨db.vector.insert writer r.clock, ⟨?_, ?_⟩,
      .inr ⟨kept, ⟨kind.collection, kind.internal, kind.updatedBy⟩, same⟩⟩
    · rintro source bound ⟨mark, found, below⟩
      by_cases isWriter : source = writer
      · subst source
        rw [found] at newer
        exact ⟨r.clock, Finmap.lookup_insert _, below.trans newer.le⟩
      · exact ⟨mark, by rw [Finmap.lookup_insert_of_ne _ isWriter, found], below⟩
    · rintro source bound ⟨mark, found, below⟩
      rcases FiniteMap.lookup_insert_cases found with ⟨isWriter, rfl⟩ | ⟨_, before⟩
      · exact .inr ⟨isWriter, below⟩
      · exact .inl ⟨mark, before, below⟩

end

theorem lookup_commit_vector {platform : Platform} {db : DocDB} {env : CallEnv} {r : Record}
    {id rev writer nodeID : GoString} {clock : HLC}
    (found : (db.commit platform env r id rev writer).vector.lookup nodeID = some clock) :
    (∃ old, db.vector.lookup nodeID = some old) ∨ nodeID = writer := by
  obtain ⟨vector, raised, outcome⟩ := commit_cases platform db env r id rev writer
  have same : (db.commit platform env r id rev writer).vector = vector := by
    rcases outcome with stored | ⟨_, _, stored⟩
    · rw [stored]
    · rw [stored]
  rw [same] at found
  rcases raised.added ⟨clock, found, le_rfl⟩ with ⟨old, before, _⟩ | ⟨isWriter, _⟩
  · exact .inl ⟨old, before⟩
  · exact .inr isWriter

theorem covers_commit {platform : Platform} {db : DocDB} {env : CallEnv} {id : GoString}
    {r : Record} (covers : db.store.Covers r) (written : Record) (rev writer : GoString) :
    (db.commit platform env written id rev writer).store.Covers r := by
  obtain ⟨_, _, stored | ⟨kept, _, stored⟩⟩ :=
    commit_cases platform db env written id rev writer
  · rw [stored]
    exact covers.afterPut written
  · rw [stored]
    exact (covers.afterPut written).afterPut kept

theorem baseRev_current {db : DocDB} {id rev : GoString}
    (cached : db.revs.lookup id = some rev) : db.baseRev id rev true = .ok rev := by
  by_cases empty : rev = []
  · simp [baseRev, cached, empty]
  · simp [baseRev, cached, empty]

theorem baseRev_stale {db : DocDB} {id current rev : GoString} {requireExisting : Bool}
    (cached : db.revs.lookup id = some current) (cachedRev : current ≠ [])
    (named : rev ≠ []) (stale : rev ≠ current) :
    db.baseRev id rev requireExisting = .error .conflict := by
  simp [baseRev, cached, cachedRev, named, stale]

/-- What `Put` and `Remove` write for a document. -/
structure LocalWrite (db : DocDB) (env : CallEnv) (id : GoString) (r : Record) :
    Prop where
  placed : r.key = flatKey db.collection id
  named : r.collection ≠ []
  origin : r.collection = db.collection ∨
    ∃ held, db.stored id = some held ∧ r.collection = held.collection
  updatedBy : r.updatedBy = db.nodeID
  clock : ∃ existing, r.clock = stampFor env existing ∧
    ∀ clock, db.storedClock id = some clock → existing = some clock

theorem LocalWrite.inside {db : DocDB} {env : CallEnv} {id collection : GoString} {r : Record}
    (written : db.LocalWrite env id r) (same : db.collection = collection)
    (single : SingleCollection db.store collection) : r.collection = collection := by
  rcases written.origin with isOwn | ⟨held, found, isHeld⟩
  · exact isOwn.trans same
  · exact isHeld.trans (single.inside found)

theorem LocalWrite.id_eq {db : DocDB} {env : CallEnv} {id : GoString} {r : Record}
    (written : db.LocalWrite env id r) (inside : r.collection = db.collection) : r.id = id := by
  have placed := written.placed
  rw [Record.key, inside] at placed
  exact flatKey_right_injective db.collection placed

structure Prepared (platform : Platform) (db : DocDB) (env : CallEnv) (doc : Doc)
    (newRev : GoString) (written : Record) : Prop where
  active : env.cancelled = false
  id : written.id = doc.stringField fieldID
  identified : written.id ≠ []
  collection : written.collection = db.collection
  updatedBy : written.updatedBy = db.nodeID
  clock : written.clock = stampFor env (db.storedClock written.id)
  accepted : ∃ base, db.baseRev written.id (doc.stringField fieldRev) true = .ok base
  carried : written.readRev platform.json = some newRev
  revised : newRev ≠ []

theorem readRev_of_marshal {json : JsonCodec} {body : Doc} {rev : GoString}
    {r : Record} (valid : Utf8.Valid rev)
    (marshalled : json.marshal (body.insert fieldRev (.string rev)) = some r.payload) :
    r.readRev json = some rev := by
  obtain ⟨decoded, unmarshalled, carried⟩ :=
    json.unmarshal_marshal (Finmap.lookup_insert body) valid marshalled
  have nonempty : r.payload ≠ [] := by
    intro empty
    rw [empty, json.unmarshal_nil] at unmarshalled
    contradiction
  simp only [Record.readRev, nonempty, if_false, unmarshalled, carried]

/-- Where a put stops before it writes, or what it goes on with. -/
inductive PrepareOutcome (platform : Platform) (db : DocDB) (env : CallEnv) (doc : Doc) :
    Except SdkError (GoString × Record) → Prop
  | context : PrepareOutcome platform db env doc (.error .context)
  | missingID : PrepareOutcome platform db env doc (.error .missingID)
  | refused (failure : SdkError)
      (refuses : db.baseRev (doc.stringField fieldID) (doc.stringField fieldRev) true =
        .error failure) :
      PrepareOutcome platform db env doc (.error failure)
  | marshal : PrepareOutcome platform db env doc (.error .marshal)
  | marshalFinal : PrepareOutcome platform db env doc (.error .marshalFinal)
  | ready (base raw : GoString) (written : Record) (active : env.cancelled = false)
      (identified : doc.stringField fieldID ≠ [])
      (accepted : db.baseRev (doc.stringField fieldID) (doc.stringField fieldRev) true =
        .ok base)
      (marshalled : platform.json.marshal (doc.splitDoc.insert fieldRev
        (.string (genRev platform.sha1 base raw))) = some written.payload)
      (id : written.id = doc.stringField fieldID)
      (collection : written.collection = db.collection)
      (updatedBy : written.updatedBy = db.nodeID)
      (clock : written.clock = stampFor env (db.storedClock written.id)) :
      PrepareOutcome platform db env doc (.ok (genRev platform.sha1 base raw, written))

theorem prepare_outcome (platform : Platform) (db : DocDB) (env : CallEnv) (doc : Doc) :
    PrepareOutcome platform db env doc (db.prepare platform env doc) := by
  unfold prepare check
  cases active : env.cancelled with
  | true => exact .context
  | false =>
      simp only [Bool.false_eq_true, if_false]
      split
      next => exact .missingID
      next identified =>
          cases accepted : db.baseRev (doc.stringField fieldID)
              (doc.stringField fieldRev) true with
          | error failure => exact .refused failure accepted
          | ok base =>
              cases first : platform.json.marshal doc.splitDoc with
              | none => exact .marshal
              | some raw =>
                  simp only [bind, Except.bind, Option.elim_some]
                  cases second : platform.json.marshal (doc.splitDoc.insert fieldRev
                      (.string (genRev platform.sha1 base raw))) with
                  | none => exact .marshalFinal
                  | some final =>
                      exact .ready base raw _ active identified accepted second rfl rfl rfl rfl

theorem prepare_ok {platform : Platform} {db : DocDB} {env : CallEnv} {doc : Doc}
    {newRev : GoString} {written : Record}
    (prepared : db.prepare platform env doc = .ok (newRev, written)) :
    Prepared platform db env doc newRev written := by
  have outcome := prepare_outcome platform db env doc
  rw [prepared] at outcome
  cases outcome with
  | ready base raw _ active identified accepted marshalled id collection updatedBy clock =>
      exact ⟨active, id, id ▸ identified, collection, updatedBy, clock,
        ⟨base, id.symm ▸ accepted⟩, readRev_of_marshal (valid_genRev _ _ _) marshalled,
        genRev_ne_nil _ _ _⟩

theorem Prepared.localWrite {platform : Platform} {db : DocDB} {env : CallEnv}
    {doc : Doc} {newRev : GoString} {written : Record}
    (prepared : Prepared platform db env doc newRev written) :
    LocalWrite db env written.id written where
  placed := by rw [Record.key, prepared.collection]
  named := prepared.collection ▸ db.named
  origin := .inl prepared.collection
  updatedBy := prepared.updatedBy
  clock := ⟨_, prepared.clock, fun _ found => found⟩

theorem put_cases (platform : Platform) (db : DocDB) (env : CallEnv) (doc : Doc) :
    (∃ failure, db.prepare platform env doc = .error failure ∧
      db.put platform env doc = (.error failure, db)) ∨
      ∃ newRev written, db.prepare platform env doc = .ok (newRev, written) ∧
        Prepared platform db env doc newRev written ∧
        db.put platform env doc =
          (.ok (newRev, doc.insert fieldRev (.string newRev)),
            db.commit platform env written written.id newRev db.nodeID) := by
  unfold put
  cases prepared : db.prepare platform env doc with
  | error failure => exact .inl ⟨failure, rfl, rfl⟩
  | ok result => exact .inr ⟨result.1, result.2, rfl, prepare_ok prepared, rfl⟩

structure RemovePrepared (db : DocDB) (env : CallEnv) (id wantRev : GoString)
    (tombstone : Record) : Prop where
  active : env.cancelled = false
  identified : id ≠ []
  deleted : tombstone.deleted = true
  accepted : ∃ base, db.baseRev id wantRev false = .ok base
  written : LocalWrite db env id tombstone

/-- The record that `Remove` turns into a tombstone. -/
def removeTarget (db : DocDB) (env : CallEnv) (id : GoString) : Record :=
  (db.stored id).getD
    { Record.zero with
      collection := db.collection
      id
      type := typeText
      clock := newHLC env.missing }

/-- What a removal that goes ahead has checked and what it writes. -/
structure RemoveReady (platform : Platform) (db : DocDB) (env : CallEnv)
    (id wantRev newRev : GoString) (tombstone : Record) : Prop where
  active : env.cancelled = false
  identified : id ≠ []
  accepted : ∃ base, db.baseRev id wantRev false = .ok base ∧
    newRev = genRev platform.sha1 base []
  tombstone : tombstone = { db.removeTarget env id with
    deleted := true
    updatedBy := db.nodeID
    clock := stampFor env (some (db.removeTarget env id).clock) }

theorem prepareRemove_ready {platform : Platform} {db : DocDB} {env : CallEnv}
    {id wantRev newRev : GoString} {tombstone : Record}
    (prepared : db.prepareRemove platform env id wantRev = .ok (newRev, tombstone)) :
    RemoveReady platform db env id wantRev newRev tombstone := by
  unfold prepareRemove at prepared
  simp only [bind, Except.bind, pure, Except.pure, throw, throwThe,
    MonadExceptOf.throw] at prepared
  split at prepared
  next => contradiction
  next active =>
      split at prepared
      next => contradiction
      next identified =>
          cases accepted : db.baseRev id wantRev false with
          | error failure => simp [accepted] at prepared
          | ok base =>
              simp only [accepted, Except.ok.injEq, Prod.mk.injEq] at prepared
              obtain ⟨rfl, rfl⟩ := prepared
              refine ⟨by simpa using active, identified, ⟨base, accepted, rfl⟩, ?_⟩
              unfold removeTarget
              cases found : db.stored id with
              | none => simp only [get_eq, found, Option.elim_none, Option.getD_none]
              | some r => simp only [get_eq, found, Option.elim_some, Option.getD_some]

theorem prepareRemove_ok {platform : Platform} {db : DocDB} {env : CallEnv}
    {id wantRev newRev : GoString} {tombstone : Record} (wellFormed : WellFormed db.store)
    (prepared : db.prepareRemove platform env id wantRev = .ok (newRev, tombstone)) :
    RemovePrepared db env id wantRev tombstone := by
  obtain ⟨active, identified, ⟨base, accepted, _⟩, rfl⟩ := prepareRemove_ready prepared
  refine ⟨active, identified, rfl, ⟨base, accepted⟩, ?_⟩
  unfold removeTarget
  cases found : db.stored id with
  | none =>
      refine ⟨rfl, db.named, .inl rfl, rfl, some (newHLC env.missing), rfl, ?_⟩
      intro clock present
      rw [storedClock_eq, found] at present
      contradiction
  | some r =>
      have placed : r.key = flatKey db.collection id := wellFormed.keyed found
      have named : r.collection ≠ [] := wellFormed.named found
      refine ⟨placed, named, .inr ⟨r, found, rfl⟩, rfl, some r.clock, rfl, ?_⟩
      intro clock present
      rw [storedClock_eq, found] at present
      exact present

theorem remove_cases (platform : Platform) {db : DocDB} (wellFormed : WellFormed db.store)
    (env : CallEnv) (id wantRev : GoString) :
    (∃ failure, db.prepareRemove platform env id wantRev = .error failure ∧
      db.remove platform env id wantRev = (.error failure, db)) ∨
      ∃ newRev tombstone,
        db.prepareRemove platform env id wantRev = .ok (newRev, tombstone) ∧
        RemovePrepared db env id wantRev tombstone ∧
        db.remove platform env id wantRev =
          (.ok newRev, db.commit platform env tombstone id newRev db.nodeID) := by
  unfold remove
  cases prepared : db.prepareRemove platform env id wantRev with
  | error failure => exact .inl ⟨failure, rfl, rfl⟩
  | ok result =>
      exact .inr ⟨result.1, result.2, rfl, prepareRemove_ok wellFormed prepared, rfl⟩

/-- A call changes nothing, or commits the record it writes. -/
theorem call_cases (platform : Platform) {db : DocDB} (wellFormed : WellFormed db.store)
    (call : LocalCall) :
    db.writes platform call = none ∧ db.call platform call = db ∨
      ∃ r rev, db.writes platform call = some r ∧ LocalWrite db call.env call.id r ∧
        db.call platform call = db.commit platform call.env r call.id rev db.nodeID := by
  cases call with
  | put env doc =>
      rcases put_cases platform db env doc with
        ⟨failure, refused, result⟩ | ⟨newRev, written, prepared, valid, result⟩
      · left
        simp [writes, DocDB.call, refused, result, Except.toOption]
      · refine .inr ⟨written, newRev, ?_, ?_, ?_⟩
        · simp [writes, prepared, Except.toOption]
        · have isLocal := valid.localWrite
          rw [valid.id] at isLocal
          exact isLocal
        · rw [DocDB.call, result, valid.id]
          rfl
  | remove env id wantRev =>
      rcases remove_cases platform wellFormed env id wantRev with
        ⟨failure, refused, result⟩ | ⟨newRev, tombstone, prepared, valid, result⟩
      · left
        simp [writes, DocDB.call, refused, result, Except.toOption]
      · refine .inr ⟨tombstone, newRev, ?_, valid.written, ?_⟩
        · simp [writes, prepared, Except.toOption]
        · rw [DocDB.call, result]
          rfl

end DocDB

theorem WellFormed.commit {db : DocDB} (wellFormed : WellFormed db.store)
    (platform : Platform) (env : CallEnv) (r : Record) (id rev writer : GoString) :
    WellFormed (db.commit platform env r id rev writer).store := by
  unfold DocDB.commit
  rcases DocDB.observeVector_cases platform _ env writer r.clock with same | ⟨_, _, _, same⟩
  · rw [same]
    exact wellFormed.afterPut r
  · rw [same]
    exact (wellFormed.afterPut r).afterPut _

theorem SingleCollection.commit {db : DocDB} {collection : GoString}
    (single : SingleCollection db.store collection) (same : db.collection = collection)
    {r : Record} (inside : r.collection = collection) (platform : Platform) (env : CallEnv)
    (id rev writer : GoString) :
    SingleCollection (db.commit platform env r id rev writer).store collection := by
  have named : collection ≠ [] := same ▸ db.named
  obtain ⟨_, _, stored | ⟨kept, kind, stored⟩⟩ :=
    DocDB.commit_cases platform db env r id rev writer
  · rw [stored]
    exact single.afterPut named inside
  · rw [stored]
    exact (single.afterPut named inside).afterPut named (kind.collection.trans same)

theorem SingleCollection.ingestRemote {db : DocDB} {collection : GoString}
    (single : SingleCollection db.store collection) (same : db.collection = collection)
    {r : Record} (inside : r.collection = collection) (platform : Platform) (env : CallEnv) :
    SingleCollection (db.ingestRemote platform env r).store collection := by
  unfold DocDB.ingestRemote
  split
  next => exact single
  next => exact single.commit same inside platform env _ _ _

theorem WellFormed.call {db : DocDB} (wellFormed : WellFormed db.store)
    (platform : Platform) (call : LocalCall) :
    WellFormed (db.call platform call).store := by
  rcases DocDB.call_cases platform wellFormed call with ⟨_, same⟩ | ⟨r, rev, _, _, same⟩
  · rw [same]
    exact wellFormed
  · rw [same]
    exact wellFormed.commit platform call.env r call.id rev db.nodeID

theorem WellFormed.ingestRemote {db : DocDB} (wellFormed : WellFormed db.store)
    (platform : Platform) (env : CallEnv) (r : Record) :
    WellFormed (db.ingestRemote platform env r).store := by
  unfold DocDB.ingestRemote
  split
  next => exact wellFormed
  next => exact wellFormed.commit platform env r _ _ _

end NellDB
