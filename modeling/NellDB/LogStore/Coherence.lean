import NellDB.LogStore.Faults
import NellDB.LogStore.Isolation
import NellDB.LogStore.Recovery

namespace NellDB

open Data

/-! What a step of a log can do to its memory, whatever fails. -/

inductive MemoryMove (memory : MemoryStore) : MemoryStore → Prop
  | same : MemoryMove memory memory
  | write (call : Write) : MemoryMove memory (memory.write call).2
  | changesSince (since : HLC) : MemoryMove memory (memory.getChangesSince since).2
  | compacted {cutoff : Int64} (orders : CompactOrders (memory.keep cutoff)) :
      MemoryMove memory (memory.compacted orders)
  | replayed (opening : Opening) (merged : List Record) :
      MemoryMove memory (mergeAll opening.fresh merged)

theorem OpenLog.memory {zstd : Zstd} {opening : Opening} {file : Bytes} {ls : LogStore}
    (reads : OpenLog zstd opening file (.ok ls)) :
    ∃ merged, ls.memory = mergeAll opening.fresh merged := by
  cases reads with
  | empty => exact ⟨[], rfl⟩
  | replayed => exact ⟨_, rfl⟩

theorem FileLog.Step.move {zstd : Zstd} {log next : FileLog} {action : LogAction}
    (step : FileLog.Step zstd log action next) : MemoryMove log.memory next.memory := by
  cases step with
  | write call faults =>
      rw [write_memory]
      exact .write call
  | changesSince since => exact .changesSince since
  | flushTick faults =>
      rw [flushTick_memory]
      exact .same
  | compact now threshold faults orders =>
      have outcome := log.compact_outcome zstd now threshold orders faults
      generalize log.compact zstd now threshold orders faults = result at outcome ⊢
      cases outcome with
      | failed => exact .same
      | done => exact .compacted orders
  | reopen opening faults reads =>
      obtain ⟨merged, same⟩ := reads.memory
      rw [show (opened _).memory = _ from same]
      exact .replayed opening merged

/-- The indexes of a store agree with its records. -/
structure Coherent (memory : MemoryStore) : Prop where
  wellFormed : WellFormed memory
  known : ∀ {position stored}, memory.records.lookup position = some stored →
    Watermark.Reached memory.kv stored.updatedBy stored.clock
  fresh : memory.Fresh

theorem coherent_newMemoryStore (nodeID : GoString) (now : Int64) :
    Coherent (newMemoryStore nodeID now) where
  wellFormed := wellFormed_newMemoryStore nodeID now
  known found := by simp [newMemoryStore] at found
  fresh := MemoryStore.fresh_of_dirty rfl

/-! Writes. -/

theorem MemoryStore.write_kv (memory : MemoryStore) (call : Write) :
    (memory.write call).2.kv = Watermark.raise memory.kv
      (memory.write call).1.updatedBy (memory.write call).1.clock := by
  cases call with
  | put incoming =>
      have kv := congrArg MemoryStore.kv (memory.put_state incoming)
      exact kv.trans (KnowledgeVector.update_eq_raise _ _ _)
  | putLocal document now => exact KnowledgeVector.update_eq_raise _ _ _
  | delete collection id now => exact KnowledgeVector.update_eq_raise _ _ _

theorem MemoryStore.write_changesDirty (memory : MemoryStore) (call : Write) :
    (memory.write call).2.changesDirty = true := by
  cases call with
  | put incoming => rw [write, put_state]
  | putLocal document now => rfl
  | delete collection id now => rfl

theorem Coherent.write {memory : MemoryStore} (coherent : Coherent memory) (call : Write) :
    Coherent (memory.write call).2 where
  wellFormed := coherent.wellFormed.write call
  known := by
    intro position stored found
    rw [memory.write_kv, Watermark.reached_raise_iff]
    rcases MemoryStore.lookup_write_source found with ⟨_, rfl⟩ | before
    · exact .inr ⟨rfl, le_rfl⟩
    · exact .inl (coherent.known before)
  fresh := MemoryStore.fresh_of_dirty (memory.write_changesDirty call)

theorem Coherent.writes {memory : MemoryStore} (coherent : Coherent memory)
    (calls : List Write) : Coherent (memory.writes calls) := by
  induction calls generalizing memory with
  | nil => exact coherent
  | cons call rest ih => exact ih (coherent.write call)

/-! Replay. -/

theorem WellFormed.mergeRecord {memory : MemoryStore} (wellFormed : WellFormed memory)
    (loaded : Record) : WellFormed (mergeRecord memory loaded) := by
  have named : loaded.defaulted.collection ≠ [] := orDefault_ne_nil loaded.collection
  cases present : memory.records.lookup loaded.defaulted.key with
  | none =>
      refine wellFormed.insert named ?_ (.inr ⟨loaded.defaulted.collection, rfl⟩)
      simp [NellDB.mergeRecord, present]
  | some existing =>
      have records : (NellDB.mergeRecord memory loaded).records =
          memory.records.insert loaded.defaulted.key
            (resolveConflict existing loaded.defaulted) := by
        simp [NellDB.mergeRecord, present]
      unfold resolveConflict at records
      split at records
      next => exact wellFormed.insert named records (.inr ⟨loaded.defaulted.collection, rfl⟩)
      next =>
          have placed := wellFormed.keyed present
          rw [← placed] at records
          refine wellFormed.insert (wellFormed.named present) records
            (.inr ⟨loaded.defaulted.collection, ?_⟩)
          rw [placed]
          rfl

theorem Coherent.mergeRecord {memory : MemoryStore} (coherent : Coherent memory)
    (dirty : memory.changesDirty = true) (loaded : Record) :
    Coherent (mergeRecord memory loaded) where
  wellFormed := coherent.wellFormed.mergeRecord loaded
  known := by
    intro position stored found
    rw [mergeRecord_kv, Watermark.reached_raise_iff]
    rw [mergeRecord_records] at found
    rcases Champion.lookup_enter_source found with before | ⟨rfl, _⟩
    · exact .inl (coherent.known before)
    · exact .inr ⟨rfl, le_rfl⟩
  fresh := MemoryStore.fresh_of_dirty dirty

theorem Coherent.mergeAll {memory : MemoryStore} (coherent : Coherent memory)
    (dirty : memory.changesDirty = true) (loaded : List Record) :
    Coherent (mergeAll memory loaded) := by
  induction loaded generalizing memory with
  | nil => exact coherent
  | cons head rest ih => exact ih (coherent.mergeRecord dirty head) dirty

/-! Compaction. -/

theorem foldl_update_eq_raiseAll (entries : List (GoString × Record))
    (kv : KnowledgeVector) :
    entries.foldl (fun kv entry => kv.update entry.2.updatedBy entry.2.clock) kv =
      Watermark.raiseAll kv (entries.map fun entry => entry.2.report) := by
  induction entries generalizing kv with
  | nil => rfl
  | cons entry rest ih =>
      rw [List.foldl_cons, ih, KnowledgeVector.update_eq_raise]
      rfl

theorem MemoryStore.compacted_kv (memory : MemoryStore) {cutoff : Int64}
    (orders : CompactOrders (memory.keep cutoff)) :
    (memory.compacted orders).kv =
      Watermark.raiseAll ∅ (orders.vector.order.map fun entry => entry.2.report) :=
  foldl_update_eq_raiseAll _ _

theorem MemoryStore.compacted_colIndex (memory : MemoryStore) {cutoff : Int64}
    (orders : CompactOrders (memory.keep cutoff)) :
    (memory.compacted orders).colIndex =
      indexAll ∅ (orders.index.order.map fun entry => (entry.1, entry.2.collection)) := by
  rw [indexAll, List.foldl_map]
  rfl

theorem MemoryStore.listed_compacted_iff (memory : MemoryStore) {cutoff : Int64}
    (orders : CompactOrders (memory.keep cutoff)) (collection key : GoString) :
    Listed (memory.compacted orders).colIndex collection key ↔
      ∃ r, (memory.keep cutoff).lookup key = some r ∧ r.collection = collection := by
  have none : ¬ Listed ∅ collection key := by
    rintro ⟨keys, found, _⟩
    simp at found
  rw [memory.compacted_colIndex, listed_indexAll_iff, List.mem_map]
  constructor
  · rintro (listed | ⟨⟨position, r⟩, member, same⟩)
    · exact absurd listed none
    · cases same
      exact ⟨r, (orders.index.complete position r).mp member, rfl⟩
  · rintro ⟨r, found, rfl⟩
    exact .inr ⟨(key, r), (orders.index.complete key r).mpr found, rfl⟩

theorem MemoryStore.lookup_keep {memory : MemoryStore} {cutoff : Int64}
    {position : GoString} {stored : Record}
    (found : (memory.keep cutoff).lookup position = some stored) :
    memory.records.lookup position = some stored :=
  (FiniteMap.lookup_filter_iff.mp found).1

theorem Coherent.compacted {memory : MemoryStore} (coherent : Coherent memory)
    {cutoff : Int64} (orders : CompactOrders (memory.keep cutoff)) :
    Coherent (memory.compacted orders) where
  wellFormed :=
    { keyed := fun found => coherent.wellFormed.keyed (MemoryStore.lookup_keep found)
      named := fun found => coherent.wellFormed.named (MemoryStore.lookup_keep found)
      indexed := by
        intro collection keys key found member
        obtain ⟨r, kept, _⟩ :=
          (memory.listed_compacted_iff orders collection key).mp ⟨keys, found, member⟩
        exact ⟨r, kept⟩ }
  known := by
    intro position stored found
    rw [memory.compacted_kv, Watermark.reached_raiseAll_iff]
    refine .inr ⟨stored.report, ?_, rfl, le_rfl⟩
    exact List.mem_map_of_mem ((orders.vector.complete position stored).mpr found)
  fresh := MemoryStore.fresh_of_dirty rfl

theorem Coherent.getChangesSince {memory : MemoryStore} (coherent : Coherent memory)
    (since : HLC) : Coherent (memory.getChangesSince since).2 where
  wellFormed := coherent.wellFormed.of_eq (memory.getChangesSince_records since)
    (memory.getChangesSince_colIndex since)
  known := by
    rw [memory.getChangesSince_records, memory.getChangesSince_kv]
    exact coherent.known
  fresh := coherent.fresh.getChangesSince since

theorem Coherent.move {memory next : MemoryStore} (coherent : Coherent memory)
    (move : MemoryMove memory next) : Coherent next := by
  cases move with
  | same => exact coherent
  | write call => exact coherent.write call
  | changesSince since => exact coherent.getChangesSince since
  | compacted orders => exact coherent.compacted orders
  | replayed opening merged =>
      exact (coherent_newMemoryStore opening.nodeID opening.now).mergeAll rfl merged

theorem FileLog.Reached.coherent {zstd : Zstd} {allowed : FileLog → LogAction → Prop}
    {file : Bytes} {log : FileLog} (reached : FileLog.Reached zstd allowed file log) :
    Coherent log.memory := by
  obtain ⟨reads, run⟩ := reached
  induction run with
  | start =>
      obtain ⟨merged, same⟩ := reads.memory
      rw [show (opened _).memory = _ from same]
      exact (coherent_newMemoryStore _ _).mergeAll rfl merged
  | step _ _ taken ih => exact ih.move taken.move

/-! The answers to queries for changes. -/

inductive StoreCall where
  | write (call : Write)
  | changesSince (since : HLC)
  deriving DecidableEq, Repr

namespace MemoryStore

def perform (memory : MemoryStore) : StoreCall → MemoryStore
  | .write call => (memory.write call).2
  | .changesSince since => (memory.getChangesSince since).2

def performs (memory : MemoryStore) (calls : List StoreCall) : MemoryStore :=
  calls.foldl perform memory

end MemoryStore

theorem Coherent.performs {memory : MemoryStore} (coherent : Coherent memory)
    (calls : List StoreCall) : Coherent (memory.performs calls) := by
  induction calls generalizing memory with
  | nil => exact coherent
  | cons call rest ih =>
      cases call with
      | write call => exact ih (coherent.write call)
      | changesSince since => exact ih (coherent.getChangesSince since)

theorem Coherent.scanSince {memory : MemoryStore} (coherent : Coherent memory) (since : HLC) :
    ScanSince memory.records since (memory.getChangesSince since).1 :=
  MemoryStore.scanSince_getChangesSince coherent.fresh coherent.wellFormed.keyed since

/-- In every run of either backend, whatever fails, a query for changes answers
as a scan of the records does. -/
theorem changes_as_scanned :
    (∀ (nodeID : GoString) (now : Int64) (calls : List StoreCall) (since : HLC),
      let memory := (newMemoryStore nodeID now).performs calls
      ScanSince memory.records since (memory.getChangesSince since).1) ∧
    ∀ (zstd : Zstd) (file : Bytes) (log : FileLog),
      FileLog.Reached zstd (fun _ _ => True) file log → ∀ since,
        ScanSince log.memory.records since (log.getChangesSince since).1 := by
  constructor
  · intro nodeID now calls since memory
    exact ((coherent_newMemoryStore nodeID now).performs calls).scanSince since
  · intro zstd file log reached since
    exact reached.coherent.scanSince since

/-- Two records of one clock, written to a log in between two queries. -/
theorem changes_as_scanned_tie :
    let opening : Opening := ⟨ascii ['n'], 1000, 0, 12, by decide⟩
    let first : Record := { Record.zero with id := ascii ['x'], clock := ⟨2000, 0⟩ }
    let second : Record := { Record.zero with id := ascii ['y'], clock := ⟨2000, 0⟩ }
    let start := FileLog.opened (opening.store [] opening.fresh)
    let queried := ((start.write .stored [] (.put second)).2.getChangesSince ⟨0, 0⟩).2
    let log := (queried.write .stored [] (.put first)).2
    ScanSince log.memory.records ⟨1000, 5⟩ (log.getChangesSince ⟨1000, 5⟩).1 ∧
      first.defaulted ∈ (log.getChangesSince ⟨1000, 5⟩).1 ∧
      second.defaulted ∈ (log.getChangesSince ⟨1000, 5⟩).1 := by
  intro opening first second start queried log
  have reached : FileLog.Reached .stored (fun _ _ => True) [] log :=
    .run (.empty rfl) (.step (.step (.step .start trivial (.write (.put second) [])) trivial
      (.changesSince ⟨0, 0⟩)) trivial (.write (.put first) []))
  have scan := changes_as_scanned.2 _ _ log reached ⟨1000, 5⟩
  refine ⟨scan, (scan.complete _).mpr ⟨⟨first.defaulted.key, ?_⟩, rfl⟩,
    (scan.complete _).mpr ⟨⟨second.defaulted.key, ?_⟩, rfl⟩⟩
  · decide +kernel
  · decide +kernel

/-! Failed writes. -/

/-- The queries of the store answer as before. -/
structure SameAnswers (before after : MemoryStore) : Prop where
  get : ∀ collection id, after.get collection id = before.get collection id
  list : ∀ collection, after.list collection = before.list collection
  listAll : ∀ collection, after.listAll collection = before.listAll collection
  changes : ∀ since, (after.getChangesSince since).1 = (before.getChangesSince since).1
  kv : after.kv = before.kv

/-- The store already holds, at the key of the call, what the call stores. -/
def Write.Repeats (memory : MemoryStore) : Write → Prop
  | .put incoming => ∃ existing,
      memory.records.lookup incoming.defaulted.key = some existing ∧
        incomingWins existing incoming.defaulted = false
  | .putLocal document now => memory.records.lookup document.defaulted.key =
      some { document.defaulted with
        clock := memory.clock.tick now, updatedBy := memory.nodeID }
  | .delete collection id now => ∃ existing,
      memory.records.lookup (flatKey (orDefault collection) id) = some existing ∧
        existing.deleted = true ∧ existing.clock = memory.clock.tick now ∧
        existing.updatedBy = memory.nodeID

theorem Write.repeats_iff (memory : MemoryStore) (call : Write) :
    call.Repeats memory ↔ memory.records.lookup call.key = some (memory.write call).1 := by
  cases call with
  | put incoming =>
      change _ ↔ memory.records.lookup incoming.defaulted.key = _
      cases present : memory.records.lookup incoming.defaulted.key with
      | none => simp [Repeats, present]
      | some existing =>
          simp only [Repeats, present, MemoryStore.write, MemoryStore.put, resolveConflict]
          cases wins : incomingWins existing incoming.defaulted with
          | false => simp [wins]
          | true =>
              have different : existing ≠ incoming.defaulted := by
                rintro rfl
                exact lt_irrefl _ ((incomingWins_iff _ _).mp wins)
              simp [wins, different]
  | putLocal document now => exact Iff.rfl
  | delete collection id now =>
      change _ ↔ memory.records.lookup (flatKey (orDefault collection) id) = _
      cases present : memory.records.lookup (flatKey (orDefault collection) id) with
      | none => simp [Repeats, present]
      | some existing =>
          simp only [Repeats, present, MemoryStore.write, MemoryStore.delete,
            Option.some.injEq, exists_eq_left', Option.getD_some]
          constructor
          · rintro ⟨deleted, clock, writer⟩
            rw [← deleted, ← clock, ← writer]
          · intro same
            rw [same]
            exact ⟨rfl, rfl, rfl⟩

theorem MemoryStore.getChangesSince_congr {s t : MemoryStore} (records : t.records = s.records)
    (fresh : s.Fresh) (freshToo : t.Fresh) (since : HLC) :
    (t.getChangesSince since).1 = (s.getChangesSince since).1 := by
  rw [getChangesSince_eq fresh, getChangesSince_eq freshToo]
  unfold rebuildChangesIndex
  rw [records]

theorem Coherent.sameAnswers_write_iff {memory : MemoryStore} (coherent : Coherent memory)
    (call : Write) : SameAnswers memory (memory.write call).2 ↔ call.Repeats memory := by
  rw [Write.repeats_iff]
  constructor
  · intro same
    have answer := same.get call.collection call.id
    have key : flatKey (orDefault call.collection) call.id = call.key := by
      cases call <;> simp [Write.key, Write.collection]
    unfold MemoryStore.get at answer
    dsimp only at answer
    rw [key, memory.write_records, Finmap.lookup_insert] at answer
    cases present : memory.records.lookup call.key with
    | none => simp [present] at answer
    | some stored =>
        simp only [present, Except.ok.injEq] at answer
        rw [answer]
  · intro held
    have records : (memory.write call).2.records = memory.records := by
      rw [memory.write_records, FiniteMap.insert_of_lookup held]
    have colIndex : (memory.write call).2.colIndex = memory.colIndex := by
      rcases memory.write_colIndex call with same | ⟨absent, _⟩
      · exact same
      · rw [held] at absent
        contradiction
    have kv : (memory.write call).2.kv = memory.kv := by
      rw [memory.write_kv, Watermark.raise_of_reached (coherent.known held)]
    have listAll : ∀ collection,
        (memory.write call).2.listAll collection = memory.listAll collection := by
      intro collection
      rw [MemoryStore.listAll, records, colIndex, ← MemoryStore.listAll]
    refine ⟨?_, ?_, listAll, ?_, kv⟩
    · intro collection id
      rw [MemoryStore.get, records, ← MemoryStore.get]
    · intro collection
      rw [MemoryStore.list, listAll, ← MemoryStore.list]
    · exact MemoryStore.getChangesSince_congr records coherent.fresh (coherent.write call).fresh

/-- A write whose append fails leaves the answers as they were exactly when the
store held its result already. -/
theorem failed_write_visible_unless_repeated (zstd : Zstd) (file : Bytes) (log : FileLog)
    (reached : FileLog.Reached zstd (fun _ _ => True) file log) (call : Write)
    (faults : List (Option Nat)) (failure : WriteError) (next : FileLog)
    (failed : log.write zstd faults call = (some failure, next)) :
    SameAnswers log.memory next.memory ↔ call.Repeats log.memory := by
  have memory := log.write_memory zstd faults call
  rw [failed] at memory
  rw [memory]
  exact reached.coherent.sameAnswers_write_iff call

/-- A record put a second time, when the disk is full. -/
theorem failed_write_visible_unless_repeated_again :
    let opening : Opening := ⟨ascii ['n'], 1000, 0, 12, by decide⟩
    let incoming : Record := { Record.zero with id := ascii ['x'], clock := ⟨2000, 0⟩ }
    let start := FileLog.opened (opening.store [] opening.fresh)
    let log := (start.write .stored [] (.put incoming)).2
    ∃ next, log.write .stored [some 0] (.put incoming) = (some .flush, next) ∧
      SameAnswers log.memory next.memory := by
  intro opening incoming start log
  have reached : FileLog.Reached .stored (fun _ _ => True) [] log :=
    .run (.empty rfl) (.step .start trivial (.write (.put incoming) []))
  have failed : (log.write .stored [some 0] (.put incoming)).1 = some .flush := by
    decide +kernel
  obtain ⟨next, done⟩ : ∃ next,
      log.write .stored [some 0] (.put incoming) = (some .flush, next) :=
    ⟨_, by rw [← failed]⟩
  have repeats : Write.Repeats log.memory (.put incoming) :=
    ⟨incoming.defaulted, by decide +kernel, by decide +kernel⟩
  exact ⟨next, done,
    (failed_write_visible_unless_repeated _ _ log reached _ _ _ next done).mpr repeats⟩

/-- A put whose flush fails is answered by `Get` all the same. -/
theorem failed_write_visible :
    let opening : Opening := ⟨ascii ['n'], 1000, 0, 12, by decide⟩
    let incoming : Record := { Record.zero with id := ascii ['x'], clock := ⟨2000, 0⟩ }
    let log := FileLog.opened (opening.store [] opening.fresh)
    let result := log.write .stored [some 0] (.put incoming)
    result.1 = some .flush ∧
      (log.memory.get [] (ascii ['x'])).toOption = none ∧
      (result.2.memory.get [] (ascii ['x'])).toOption = some incoming.defaulted := by
  decide +kernel

end NellDB
