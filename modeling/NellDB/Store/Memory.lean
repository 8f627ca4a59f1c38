import NellDB.Store.Conflict

namespace NellDB

open Data

abbrev RecordMap := FiniteMap GoString Record

abbrev CollectionIndex := FiniteMap GoString (Finset GoString)

def indexKey (colIndex : CollectionIndex) (key collection : GoString) :
    CollectionIndex :=
  match colIndex.lookup collection with
  | none => colIndex.insert collection {key}
  | some keys => colIndex.insert collection (insert key keys)

inductive StoreError where
  | recordNotFound (id collection : GoString)
  deriving DecidableEq, Repr

structure ClockKey where
  clock : HLC
  key : GoString
  deriving DecidableEq, Repr

structure MemoryStore where
  nodeID : GoString
  clock : HLC
  records : RecordMap
  kv : KnowledgeVector
  colIndex : CollectionIndex
  changesIdx : List ClockKey
  changesDirty : Bool

def newMemoryStore (nodeID : GoString) (now : Int64) : MemoryStore where
  nodeID := nodeID
  clock := newHLC now
  records := ∅
  kv := ∅
  colIndex := ∅
  changesIdx := []
  changesDirty := true

namespace MemoryStore

/-- `Put` returns the accepted flag and the record now stored at the key. -/
def put (s : MemoryStore) (incoming : Record) : Bool × Record × MemoryStore :=
  let incoming := incoming.defaulted
  let clock := s.clock.update incoming.clock
  let key := incoming.key
  match s.records.lookup key with
  | none =>
      (true, incoming, { s with
        clock
        records := s.records.insert key incoming
        colIndex := indexKey s.colIndex key incoming.collection
        kv := s.kv.update incoming.updatedBy incoming.clock
        changesDirty := true })
  | some existing =>
      let winner := resolveConflict existing incoming
      (incomingWins existing incoming, winner, { s with
        clock
        records := s.records.insert key winner
        kv := s.kv.update winner.updatedBy winner.clock
        changesDirty := true })

/-- The store after a `Put`, for callers that ignore its results. -/
def afterPut (s : MemoryStore) (incoming : Record) : MemoryStore :=
  (s.put incoming).2.2

def putAll (s : MemoryStore) (incoming : List Record) : MemoryStore :=
  incoming.foldl afterPut s

def putLocal (s : MemoryStore) (document : Record) (now : Int64) :
    Record × MemoryStore :=
  let clock := s.clock.tick now
  let written := { document.defaulted with clock, updatedBy := s.nodeID }
  let key := written.key
  let colIndex := match s.records.lookup key with
    | none => indexKey s.colIndex key written.collection
    | some _ => s.colIndex
  (written, { s with
    clock, colIndex
    records := s.records.insert key written
    kv := s.kv.update s.nodeID written.clock
    changesDirty := true })

def get (s : MemoryStore) (collection id : GoString) : Except StoreError Record :=
  let collection := orDefault collection
  match s.records.lookup (flatKey collection id) with
  | none => .error (.recordNotFound id collection)
  | some stored => .ok stored

def delete (s : MemoryStore) (collection id : GoString) (now : Int64) :
    Record × MemoryStore :=
  let collection := orDefault collection
  let key := flatKey collection id
  let clock := s.clock.tick now
  let stored := s.records.lookup key
  let base := stored.getD { Record.zero with collection, id }
  let tombstone := { base with clock, updatedBy := s.nodeID, deleted := true }
  let colIndex := match stored with
    | none => indexKey s.colIndex key collection
    | some _ => s.colIndex
  (tombstone, { s with
    clock, colIndex
    records := s.records.insert key tombstone
    kv := s.kv.update s.nodeID tombstone.clock
    changesDirty := true })

/-- The records `ListAll` returns.  A call returns them in the iteration order
of a map, so its result is any list with this multiset. -/
def listAll (s : MemoryStore) (collection : GoString) : Multiset Record :=
  match s.colIndex.lookup (orDefault collection) with
  | none => 0
  | some keys => keys.val.map fun key => (s.records.lookup key).getD Record.zero

def list (s : MemoryStore) (collection : GoString) : Multiset Record :=
  (s.listAll collection).filter fun stored => stored.deleted = false

theorem afterPut_defaulted (s : MemoryStore) (r : Record) :
    s.afterPut r.defaulted = s.afterPut r := by
  unfold afterPut put
  rw [Record.defaulted_defaulted]

/-- What `Put` does to the store, new key or not: the record that it returns is
stored and observed; only the index of the collection may stay as it is. -/
theorem put_state (s : MemoryStore) (incoming : Record) :
    (s.put incoming).2.2 = { s with
      clock := s.clock.update incoming.clock
      records := s.records.insert incoming.defaulted.key (s.put incoming).2.1
      colIndex := (s.put incoming).2.2.colIndex
      kv := s.kv.update (s.put incoming).2.1.updatedBy (s.put incoming).2.1.clock
      changesDirty := true } := by
  unfold put
  dsimp only
  cases s.records.lookup incoming.defaulted.key <;> rfl

theorem afterPut_records (s : MemoryStore) (incoming : Record) :
    (s.afterPut incoming).records =
      Champion.enter Record.key Record.stamp s.records incoming.defaulted := by
  cases present : s.records.lookup incoming.defaulted.key with
  | none => simp [afterPut, put, Champion.enter, present]
  | some existing =>
      simp [afterPut, put, Champion.enter, present, resolveConflict_eq_prefer]

theorem put_accepts_iff (s : MemoryStore) (incoming : Record) :
    (s.put incoming).1 = true ↔
      ∀ existing, s.records.lookup incoming.defaulted.key = some existing →
        existing.stamp < incoming.defaulted.stamp := by
  cases present : s.records.lookup incoming.defaulted.key with
  | none => simp [put, present]
  | some existing => simp [put, present, incomingWins_iff]

theorem putAll_records (s : MemoryStore) (incoming : List Record) :
    (s.putAll incoming).records =
      Champion.enterAll Record.key Record.stamp s.records
        (incoming.map Record.defaulted) := by
  induction incoming generalizing s with
  | nil => rfl
  | cons head rest ih =>
      have step := ih (s.afterPut head)
      rw [afterPut_records] at step
      exact step

theorem lookup_putAll_source {s : MemoryStore} {incoming : List Record} {position : GoString}
    {stored : Record} (found : (s.putAll incoming).records.lookup position = some stored) :
    s.records.lookup position = some stored ∨
      ∃ q ∈ incoming, q.defaulted = stored ∧ stored.key = position := by
  rw [putAll_records] at found
  rcases Champion.lookup_enterAll_source found with before | ⟨entered, placed⟩
  · exact .inl before
  · obtain ⟨q, member, same⟩ := List.mem_map.mp entered
    exact .inr ⟨q, member, same, placed⟩

/-- The store holds the record, or one that beats it, at the record's key. -/
def HoldsOrBeats (s : MemoryStore) (r : Record) : Prop :=
  ∃ held, s.records.lookup r.key = some held ∧ (held = r ∨ Beats held r)

/-- The store holds a record stamped at least as high at the record's key. -/
def Covers (s : MemoryStore) (r : Record) : Prop :=
  Champion.Covers Record.key Record.stamp s.records r

theorem HoldsOrBeats.covers {s : MemoryStore} {r : Record}
    (held : s.HoldsOrBeats r) : s.Covers r := by
  obtain ⟨stored, found, rfl | beats⟩ := held
  · exact ⟨stored, found, le_rfl⟩
  · exact ⟨stored, found, ((beats_iff stored r).mp beats).le⟩

theorem HoldsOrBeats.afterPut {s : MemoryStore} {r : Record} (holds : s.HoldsOrBeats r)
    (incoming : Record) : (s.afterPut incoming).HoldsOrBeats r := by
  obtain ⟨held, found, above⟩ := holds
  unfold HoldsOrBeats
  rw [afterPut_records]
  by_cases same : r.key = incoming.defaulted.key
  · rw [same] at found ⊢
    rw [Champion.lookup_enter_of_some found, Champion.prefer]
    split
    next newer =>
        -- a record is replaced only by one that beats it
        have below : r.stamp ≤ held.stamp := by
          rcases above with rfl | beats
          · exact le_rfl
          · exact ((beats_iff held r).mp beats).le
        exact ⟨incoming.defaulted, rfl, .inr ((beats_iff _ _).mpr (below.trans_lt newer))⟩
    next => exact ⟨held, rfl, above⟩
  · rw [Champion.lookup_enter_of_ne _ same]
    exact ⟨held, found, above⟩

/-- Where stamps identify records, covering a record is holding or beating it. -/
theorem Covers.holdsOrBeats {s : MemoryStore} {r : Record} (covers : s.Covers r)
    (agree : ∀ held, s.records.lookup r.key = some held →
      held.updatedBy = r.updatedBy → held.clock = r.clock → held = r) :
    s.HoldsOrBeats r := by
  obtain ⟨held, found, above⟩ := covers
  refine ⟨held, found, ?_⟩
  rcases lt_or_eq_of_le above with below | equal
  · exact .inr ((beats_iff held r).mpr below)
  · obtain ⟨sameClock, sameWriter⟩ := (Record.stamp_eq_iff r held).mp equal
    exact .inl (agree held found sameWriter.symm sameClock.symm)

theorem Covers.afterPut {s : MemoryStore} {r : Record} (covers : s.Covers r)
    (incoming : Record) : (s.afterPut incoming).Covers r := by
  unfold MemoryStore.Covers
  rw [afterPut_records]
  exact Champion.Covers.enter covers incoming.defaulted

theorem covers_afterPut (s : MemoryStore) (incoming : Record) :
    (s.afterPut incoming).Covers incoming.defaulted := by
  unfold Covers
  rw [afterPut_records]
  exact Champion.covers_enter_self s.records incoming.defaulted

theorem Covers.putAll {s : MemoryStore} {r : Record} (covers : s.Covers r)
    (incoming : List Record) : (s.putAll incoming).Covers r := by
  unfold MemoryStore.Covers
  rw [putAll_records]
  exact Champion.Covers.enterAll covers _

theorem covers_putAll (s : MemoryStore) {incoming : List Record} {r : Record}
    (member : r ∈ incoming) : (s.putAll incoming).Covers r.defaulted := by
  unfold Covers
  rw [putAll_records]
  exact Champion.covers_enterAll_of_mem Record.key Record.stamp s.records
    (List.mem_map_of_mem member)

end MemoryStore

end NellDB
