import NellDB.LogStore.Coherence

namespace NellDB

open Data

/-! A compacted log holds the kept records, in some order, and replays to them. -/

theorem mergeAll_colIndex (memory : MemoryStore) (loaded : List Record) :
    (mergeAll memory loaded).colIndex = indexAll memory.colIndex
      (loaded.map fun r => (r.defaulted.key, r.defaulted.collection)) := by
  induction loaded generalizing memory with
  | nil => rfl
  | cons head rest ih => exact ih (mergeRecord memory head)

theorem map_defaulted_of_named {records : List Record}
    (named : ∀ r ∈ records, r.collection ≠ []) : records.map Record.defaulted = records := by
  refine (List.map_congr_left ?_).trans (List.map_id records)
  exact fun r member => Record.defaulted_of_named (named r member)

namespace CompactOrders

variable {memory : MemoryStore} {cutoff : Int64}

/-- The records in the order in which their frames are written. -/
def kept (orders : CompactOrders (memory.keep cutoff)) : List Record :=
  orders.frames.order.map Prod.snd

theorem mem_kept_iff (wellFormed : WellFormed memory)
    (orders : CompactOrders (memory.keep cutoff)) (r : Record) :
    r ∈ orders.kept ↔ (memory.keep cutoff).lookup r.key = some r := by
  unfold kept
  rw [List.mem_map]
  constructor
  · rintro ⟨⟨position, stored⟩, member, rfl⟩
    have found := (orders.frames.complete position stored).mp member
    rw [wellFormed.keyed (MemoryStore.lookup_keep found)]
    exact found
  · intro found
    exact ⟨(r.key, r), (orders.frames.complete r.key r).mpr found, rfl⟩

theorem kept_named (wellFormed : WellFormed memory)
    (orders : CompactOrders (memory.keep cutoff)) :
    ∀ r ∈ orders.kept, r.collection ≠ [] := by
  intro r member
  have found := (orders.mem_kept_iff wellFormed r).mp member
  exact wellFormed.named (MemoryStore.lookup_keep found)

end CompactOrders

/-- Two stores with the same records, collection index and knowledge vector. -/
structure SameIndexes (first second : MemoryStore) : Prop where
  records : first.records = second.records
  colIndex : first.colIndex = second.colIndex
  kv : first.kv = second.kv

theorem WellFormed.replay_compacted {memory : MemoryStore} (wellFormed : WellFormed memory)
    {cutoff : Int64} (orders : CompactOrders (memory.keep cutoff)) {merged : List Record}
    (perm : merged.Perm orders.kept) (opening : Opening) :
    SameIndexes (mergeAll opening.fresh merged) (memory.compacted orders) := by
  have members : ∀ r, r ∈ merged ↔ (memory.keep cutoff).lookup r.key = some r := by
    intro r
    rw [perm.mem_iff, orders.mem_kept_iff wellFormed]
  have named : ∀ r ∈ merged, r.collection ≠ [] := fun r member =>
    orders.kept_named wellFormed r (perm.mem_iff.mp member)
  have keyed : Champion.WellKeyed Record.key (memory.keep cutoff) := fun found =>
    wellFormed.keyed (MemoryStore.lookup_keep found)
  -- an entry of the map, as a loop over it visits it
  have entries : ∀ iteration : Iteration (memory.keep cutoff), ∀ position r,
      (position, r) ∈ iteration.order ↔ r ∈ merged ∧ position = r.key := by
    intro iteration position r
    rw [iteration.complete, members]
    constructor
    · intro found
      have placed := keyed found
      rw [placed]
      exact ⟨found, rfl⟩
    · rintro ⟨found, rfl⟩
      exact found
  refine ⟨?_, ?_, ?_⟩
  · rw [mergeAll_records, map_defaulted_of_named named]
    exact Champion.enterAll_eq_of_entries keyed members
  · rw [mergeAll_colIndex, memory.compacted_colIndex]
    apply indexAll_congr
    rintro ⟨key, collection⟩
    rw [List.mem_map, List.mem_map]
    constructor
    · rintro ⟨r, member, same⟩
      rw [Record.defaulted_of_named (named r member)] at same
      cases same
      exact ⟨(r.key, r), (entries orders.index r.key r).mpr ⟨member, rfl⟩, rfl⟩
    · rintro ⟨⟨position, r⟩, visited, same⟩
      cases same
      obtain ⟨member, rfl⟩ := (entries orders.index position r).mp visited
      refine ⟨r, member, ?_⟩
      rw [Record.defaulted_of_named (named r member)]
  · rw [mergeAll_kv, memory.compacted_kv]
    apply Watermark.raiseAll_congr
    intro report
    rw [List.mem_map, List.mem_map]
    constructor
    · rintro ⟨r, member, rfl⟩
      exact ⟨(r.key, r), (entries orders.vector r.key r).mpr ⟨member, rfl⟩, rfl⟩
    · rintro ⟨⟨position, r⟩, visited, rfl⟩
      exact ⟨r, ((entries orders.vector position r).mp visited).1, rfl⟩

theorem openLog_frames {zstd : Zstd} {records : List Record}
    (fits : ∀ r ∈ records, FitsFrame zstd r) (opening : Opening) :
    (∃ outcome, OpenLog zstd opening (frames zstd records) outcome) ∧
      ∀ outcome, OpenLog zstd opening (frames zstd records) outcome →
        ∃ merged, merged.Perm records ∧ outcome = .ok
          (opening.store (frames zstd records) (mergeAll opening.fresh merged)) := by
  have outcomes := openLog_outcomes fits scanFrames_nil opening
  rw [List.append_nil] at outcomes
  exact outcomes

/-- After a compaction that succeeds, the memory holds the records but for the
old tombstones, and every `OpenLog` on the new file rebuilds the same memory. -/
theorem compacted_file_agrees (zstd : Zstd) (file : Bytes) (log : FileLog)
    (reached : FileLog.Reached zstd (fun _ _ => True) file log)
    (fits : ∀ position r, log.memory.records.lookup position = some r → FitsFrame zstd r)
    (now threshold : Int64)
    (orders : CompactOrders (log.memory.keep (now - milliseconds threshold)))
    (faults : CompactFaults) (count : Nat) (next : FileLog)
    (done : log.compact zstd now threshold orders faults = (.ok count, next)) :
    (∀ position r, next.memory.records.lookup position = some r ↔
      log.memory.records.lookup position = some r ∧
        ¬ (r.deleted = true ∧ r.clock.wallTime < now - milliseconds threshold)) ∧
    count = next.memory.records.keys.card ∧
    ∀ opening, (∃ outcome, OpenLog zstd opening next.writer.file outcome) ∧
      ∀ outcome, OpenLog zstd opening next.writer.file outcome →
        ∃ ls, outcome = .ok ls ∧ SameIndexes ls.memory next.memory := by
  have outcome := log.compact_outcome zstd now threshold orders faults
  rw [done] at outcome
  cases outcome with
  | done =>
      have wellFormed := reached.coherent.wellFormed
      refine ⟨?_, ?_, ?_⟩
      · intro position r
        refine FiniteMap.lookup_filter_iff.trans (and_congr_right fun _ => ?_)
        cases deleted : r.deleted <;> simp [Record.expired, deleted]
      · exact orders.frames.length_order
      · intro opening
        have keptFit : ∀ r ∈ orders.kept, FitsFrame zstd r := by
          intro r member
          have found := (orders.mem_kept_iff wellFormed r).mp member
          exact fits r.key r (MemoryStore.lookup_keep found)
        obtain ⟨opens, outcomes⟩ := openLog_frames keptFit opening
        refine ⟨opens, ?_⟩
        intro outcome reads
        obtain ⟨merged, perm, rfl⟩ := outcomes outcome reads
        exact ⟨_, rfl, wellFormed.replay_compacted orders perm opening⟩

/-- A log with an old tombstone and a live record. -/
theorem compacted_file_agrees_tombstone :
    let opening : Opening := ⟨ascii ['n'], 1000, 0, 12, by decide⟩
    let tombstone : Record := { Record.zero with
      id := ascii ['x'], clock := ⟨2000, 0⟩, deleted := true }
    let live : Record := { Record.zero with id := ascii ['y'], clock := ⟨2000, 0⟩ }
    let start := FileLog.opened (opening.store [] opening.fresh)
    let log := ((start.write .stored [] (.put tombstone)).2.write .stored [] (.put live)).2
    let orders : CompactOrders (log.memory.keep (9000 - milliseconds 1000000000)) :=
      ⟨.sorted _, .sorted _, .sorted _⟩
    let next := (log.compact .stored 9000 1000000000 orders .none).2
    next.memory.records.lookup tombstone.defaulted.key = none ∧
      next.memory.records.lookup live.defaulted.key = some live.defaulted ∧
      ∃ outcome, OpenLog .stored opening next.writer.file outcome := by
  intro opening tombstone live start log orders next
  have reached : FileLog.Reached .stored (fun _ _ => True) [] log :=
    .run (.empty rfl) (.step (.step .start trivial (.write (.put tombstone) [])) trivial
      (.write (.put live) []))
  have sizes : ∀ entry ∈ log.memory.records.entries, entry.2.FitsStored := by
    decide +kernel
  have succeeds : (log.compact .stored 9000 1000000000 orders .none).1 = .ok 1 := by
    decide +kernel
  have dropped : next.memory.records.lookup tombstone.defaulted.key = none := by
    decide +kernel
  have kept : next.memory.records.lookup live.defaulted.key = some live.defaulted := by
    decide +kernel
  have done : log.compact .stored 9000 1000000000 orders .none = (.ok 1, next) := by
    rw [← succeeds]
  clear_value next orders log
  obtain ⟨_, _, replays⟩ := compacted_file_agrees .stored [] log reached
    (fun _ _ found => fitsFrame_of_entries sizes found) 9000 1000000000 orders .none 1 next done
  exact ⟨dropped, kept, (replays opening).1⟩

end NellDB
