import NellDB.LogStore.Archive

namespace NellDB

open Data

/-! With collection names free of colons, the collection index is a scan of the
records. -/

def ColonFree (name : GoString) : Prop := ∀ byte ∈ ascii [':'], byte ∉ name

instance (name : GoString) : Decidable (ColonFree name) :=
  inferInstanceAs (Decidable (∀ byte ∈ ascii [':'], byte ∉ name))

theorem separate_colonFree : Separate ColonFree := by
  intro first second _ free goesOn
  have colon : ∀ byte ∈ ascii [':'], byte ∈ second := by
    intro byte member
    exact goesOn.subset (List.mem_append_right first member)
  obtain ⟨byte, member⟩ : ∃ byte, byte ∈ ascii [':'] := ⟨_, List.mem_cons_self⟩
  exact free byte member (colon byte member)

/-- Collections are apart, and every record is listed under its own. -/
structure Catalogued (names : GoString → Prop) (memory : MemoryStore) : Prop where
  isolated : Isolated names memory
  listed : ∀ {position stored}, memory.records.lookup position = some stored →
    Listed memory.colIndex stored.collection position

namespace Catalogued

variable {names : GoString → Prop} {memory : MemoryStore}

theorem newMemoryStore (names : GoString → Prop) (nodeID : GoString) (now : Int64) :
    Catalogued names (newMemoryStore nodeID now) where
  isolated := isolated_newMemoryStore names nodeID now
  listed found := by simp [NellDB.newMemoryStore] at found

theorem insert (catalogued : Catalogued names memory) (separate : Separate names)
    {next : MemoryStore} {r : Record} (wellFormed : WellFormed next)
    (isUsed : names r.collection) (records : next.records = memory.records.insert r.key r)
    (colIndex : next.colIndex = memory.colIndex ∨
      next.colIndex = indexKey memory.colIndex r.key r.collection)
    (own : Listed next.colIndex r.collection r.key) : Catalogued names next := by
  refine ⟨catalogued.isolated.insert separate wellFormed isUsed records colIndex, ?_⟩
  intro position stored found
  rw [records] at found
  rcases FiniteMap.lookup_insert_cases found with ⟨rfl, rfl⟩ | ⟨_, stored⟩
  · exact own
  · have before := catalogued.listed stored
    rcases colIndex with kept | added
    · rw [kept]
      exact before
    · rw [added, listed_indexKey_iff]
      exact .inl before

theorem write (catalogued : Catalogued names memory) (separate : Separate names)
    {call : Write} (isUsed : names call.collection) :
    Catalogued names (memory.write call).2 := by
  have isolated := catalogued.isolated
  have own := isolated.write_collection separate isUsed
  have placed := isolated.write_key call
  refine catalogued.insert separate (isolated.wellFormed.write call) (own.symm ▸ isUsed) ?_ ?_ ?_
  · rw [placed, memory.write_records]
  · rw [placed, own]
    exact (memory.write_colIndex call).imp_right And.right
  · rw [placed, own]
    cases present : memory.records.lookup call.key with
    | none =>
        rw [MemoryStore.write_colIndex_of_absent present]
        exact exists_indexKey_self _ _ _
    | some stored =>
        rw [MemoryStore.write_colIndex_of_present present,
          ← isolated.collection_eq separate isUsed present]
        exact catalogued.listed present

theorem mergeRecord (catalogued : Catalogued names memory) (separate : Separate names)
    {loaded : Record} (isUsed : names loaded.defaulted.collection) :
    Catalogued names (mergeRecord memory loaded) := by
  have isolated := catalogued.isolated
  have wellFormed := isolated.wellFormed.mergeRecord loaded
  have listed : Listed (NellDB.mergeRecord memory loaded).colIndex
      loaded.defaulted.collection loaded.defaulted.key := exists_indexKey_self _ _ _
  cases present : memory.records.lookup loaded.defaulted.key with
  | none =>
      refine catalogued.insert separate wellFormed isUsed ?_ (.inr rfl) listed
      simp [NellDB.mergeRecord, present]
  | some existing =>
      have records : (NellDB.mergeRecord memory loaded).records =
          memory.records.insert loaded.defaulted.key
            (resolveConflict existing loaded.defaulted) := by
        simp [NellDB.mergeRecord, present]
      unfold resolveConflict at records
      split at records
      next => exact catalogued.insert separate wellFormed isUsed records (.inr rfl) listed
      next =>
          -- the stored record stays; it has the key and the collection of the loaded one
          have placed := isolated.wellFormed.keyed present
          have same : existing.collection = loaded.defaulted.collection :=
            isolated.collection_eq separate isUsed present
          rw [← placed] at records
          rw [← placed, ← same] at listed
          refine catalogued.insert separate wellFormed (same ▸ isUsed) records (.inr ?_) listed
          rw [placed, same]
          rfl

theorem mergeAll (catalogued : Catalogued names memory) (separate : Separate names)
    {loaded : List Record} (isUsed : ∀ r ∈ loaded, names r.defaulted.collection) :
    Catalogued names (mergeAll memory loaded) := by
  induction loaded generalizing memory with
  | nil => exact catalogued
  | cons head rest ih =>
      have first := catalogued.mergeRecord separate (isUsed head List.mem_cons_self)
      exact ih first fun r member => isUsed r (List.mem_cons_of_mem head member)

theorem compacted (catalogued : Catalogued names memory) (coherent : Coherent memory)
    {cutoff : Int64} (orders : CompactOrders (memory.keep cutoff)) :
    Catalogued names (memory.compacted orders) where
  isolated :=
    { wellFormed := (coherent.compacted orders).wellFormed
      used := fun found => catalogued.isolated.used (MemoryStore.lookup_keep found)
      listed := by
        intro collection keys key stored indexed member found
        obtain ⟨r, kept, same⟩ :=
          (memory.listed_compacted_iff orders collection key).mp ⟨keys, indexed, member⟩
        rw [show (memory.keep cutoff).lookup key = _ from found, Option.some.injEq] at kept
        rw [kept]
        exact same }
  listed {position stored} found :=
    (memory.listed_compacted_iff orders stored.collection position).mpr ⟨stored, found, rfl⟩

theorem getChangesSince (catalogued : Catalogued names memory) (since : HLC) :
    Catalogued names (memory.getChangesSince since).2 where
  isolated := catalogued.isolated.of_eq (memory.getChangesSince_records since)
    (memory.getChangesSince_colIndex since)
  listed := by
    rw [memory.getChangesSince_records, memory.getChangesSince_colIndex]
    exact catalogued.listed

theorem writes (catalogued : Catalogued names memory) (separate : Separate names)
    {calls : List Write} (isUsed : ∀ call ∈ calls, names call.collection) :
    Catalogued names (memory.writes calls) := by
  induction calls generalizing memory with
  | nil => exact catalogued
  | cons call rest ih =>
      have first := catalogued.write separate (isUsed call List.mem_cons_self)
      exact ih first fun other member => isUsed other (List.mem_cons_of_mem call member)

end Catalogued

/-- `ListAll` and `List` answer as a scan of the records does, and the knowledge
vector has reached every record. -/
structure IndexScan (memory : MemoryStore) : Prop where
  listAll : ∀ collection r, r ∈ memory.listAll collection ↔
    (∃ position, memory.records.lookup position = some r) ∧ r.collection = orDefault collection
  listAllOnce : ∀ collection, (memory.listAll collection).Nodup
  list : ∀ collection r, r ∈ memory.list collection ↔
    (∃ position, memory.records.lookup position = some r) ∧
      r.collection = orDefault collection ∧ r.deleted = false
  listOnce : ∀ collection, (memory.list collection).Nodup
  known : ∀ position r, memory.records.lookup position = some r →
    ∃ clock, memory.kv.lookup r.updatedBy = some clock ∧ r.clock.greaterThan clock = false

theorem Catalogued.mem_listAll_iff {names : GoString → Prop} {memory : MemoryStore}
    (catalogued : Catalogued names memory) (collection : GoString) (r : Record) :
    r ∈ memory.listAll collection ↔
      (∃ position, memory.records.lookup position = some r) ∧
        r.collection = orDefault collection := by
  have wellFormed := catalogued.isolated.wellFormed
  rw [NellDB.mem_listAll_iff wellFormed]
  constructor
  · rintro ⟨keys, indexed, member, found⟩
    exact ⟨⟨r.key, found⟩, catalogued.isolated.listed indexed member found⟩
  · rintro ⟨⟨position, found⟩, same⟩
    obtain ⟨keys, indexed, member⟩ := catalogued.listed found
    rw [wellFormed.keyed found, ← same]
    exact ⟨keys, indexed, member, found⟩

theorem Catalogued.indexScan {names : GoString → Prop} {memory : MemoryStore}
    (catalogued : Catalogued names memory) (coherent : Coherent memory) :
    IndexScan memory where
  listAll := catalogued.mem_listAll_iff
  listAllOnce := nodup_listAll coherent.wellFormed
  list collection r := by
    rw [MemoryStore.list, Multiset.mem_filter, catalogued.mem_listAll_iff, and_assoc]
  listOnce collection := (nodup_listAll coherent.wellFormed collection).filter _
  known position r found := by
    obtain ⟨clock, present, below⟩ := coherent.known found
    exact ⟨clock, present, (HLC.greaterThan_eq_false_iff _ _).mpr below⟩

/-- The calls of a run that use names without colons, on a file system that
works but for what a compaction survives. -/
structure LogAction.Plain (zstd : Zstd) (log : FileLog) (action : LogAction) : Prop where
  harmless : action.Harmless
  fits : action.Fits zstd log
  colonFree : ∀ call faults, action = .write call faults → ColonFree call.collection

/-- The memory and the file of such a run. -/
structure Shelved (memory : MemoryStore) (written : List Record) : Prop where
  catalogued : Catalogued ColonFree memory
  colonFree : ∀ r ∈ written, ColonFree r.collection

theorem Shelved.advance {zstd : Zstd} {log : FileLog} {written : List Record}
    {action : LogAction} {next : MemoryStore} {later : List Record}
    (plain : action.Plain zstd log) (archive : Archive zstd log written)
    (shelved : Shelved log.memory written)
    (advance : Advance log.memory written action next later) : Shelved next later := by
  cases advance with
  | same => exact shelved
  | write call faults =>
      have isUsed := plain.colonFree call faults rfl
      refine ⟨shelved.catalogued.write separate_colonFree isUsed, ?_⟩
      intro r member
      rcases List.mem_append.mp member with earlier | last
      · exact shelved.colonFree r earlier
      · rw [List.mem_singleton.mp last,
          shelved.catalogued.isolated.write_collection separate_colonFree isUsed]
        exact isUsed
  | changesSince since =>
      exact ⟨shelved.catalogued.getChangesSince since, shelved.colonFree⟩
  | compacted faults orders =>
      refine ⟨shelved.catalogued.compacted archive.coherent orders, ?_⟩
      intro r member
      have found := (orders.mem_kept_iff archive.coherent.wellFormed r).mp member
      exact shelved.colonFree r (archive.stored (MemoryStore.lookup_keep found))
  | replayed opening faults perm =>
      refine ⟨(Catalogued.newMemoryStore _ _ _).mergeAll separate_colonFree ?_,
        shelved.colonFree⟩
      intro r member
      have inWritten := perm.mem_iff.mp member
      rw [Record.defaulted_of_named (archive.named r inWritten)]
      exact shelved.colonFree r inWritten

/-- In every run of either backend whose collection names are free of colons,
the collection index is a scan of the records. -/
theorem collections_as_scanned :
    (∀ (nodeID : GoString) (now : Int64) (calls : List Write),
      (∀ call ∈ calls, ColonFree call.collection) →
        IndexScan ((newMemoryStore nodeID now).writes calls)) ∧
    ∀ (zstd : Zstd) (log : FileLog),
      FileLog.Reached zstd (fun log action => action.Plain zstd log) [] log →
        IndexScan log.memory := by
  constructor
  · intro nodeID now calls colonFree
    have catalogued := (Catalogued.newMemoryStore ColonFree nodeID now).writes
      separate_colonFree colonFree
    exact catalogued.indexScan ((coherent_newMemoryStore nodeID now).writes calls)
  · intro zstd log reached
    obtain ⟨written, archive, shelved⟩ := Archive.run
      (fun plain => ⟨plain.harmless, plain.fits⟩)
      (fun opening => ⟨Catalogued.newMemoryStore _ opening.nodeID opening.now, by simp⟩)
      (fun plain archive shelved advance => Shelved.advance plain archive shelved advance)
      reached
    exact shelved.catalogued.indexScan archive.coherent

/-- An id with a colon, written and then compacted. -/
theorem collections_as_scanned_colon_id :
    let opening : Opening := ⟨ascii ['n'], 1000, 0, 12, by decide⟩
    let incoming : Record := { Record.zero with
      collection := ascii ['a'], id := ascii ['b', ':', 'c'], clock := ⟨2000, 0⟩ }
    let start := FileLog.opened (opening.store [] opening.fresh)
    let log := (start.write .stored [] (.put incoming)).2
    let orders : CompactOrders (log.memory.keep (9000 - milliseconds 0)) :=
      ⟨.sorted _, .sorted _, .sorted _⟩
    let compacted := (log.compact .stored 9000 0 orders .none).2
    incoming ∈ compacted.memory.list (ascii ['a']) := by
  intro opening incoming start log orders compacted
  have fits : LogAction.Fits .stored start (.write (.put incoming) []) := by
    refine ⟨by decide +kernel, ?_⟩
    have small : Record.FitsStored (start.memory.write (.put incoming)).1 := by
      decide +kernel
    exact small.fitsFrame.compressed
  have written : LogAction.Plain .stored start (.write (.put incoming) []) := by
    refine ⟨rfl, fits, ?_⟩
    rintro call faults same
    cases same
    decide +kernel
  have compacts : LogAction.Plain .stored log (.compact 9000 0 .none) := by
    refine ⟨⟨rfl, rfl⟩, trivial, ?_⟩
    rintro call faults same
    cases same
  have reached : FileLog.Reached .stored (fun log action => action.Plain .stored log) []
      compacted :=
    .run (.empty rfl) (.step (.step .start written (.write (.put incoming) [])) compacts
      (.compact 9000 0 .none orders))
  have stored : compacted.memory.records.lookup incoming.key = some incoming := by
    decide +kernel
  clear_value compacted
  exact ((collections_as_scanned.2 .stored compacted reached).list _ _).mpr
    ⟨⟨incoming.key, stored⟩, rfl, rfl⟩

end NellDB
