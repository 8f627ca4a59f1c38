import NellDB.Data.Iteration
import NellDB.LogStore.Append

namespace NellDB

open Data

def milliseconds (duration : Int64) : Int64 := duration / 1000000

def Record.expired (cutoff : Int64) (r : Record) : Bool :=
  r.deleted && decide (r.clock.wallTime < cutoff)

def MemoryStore.keep (memory : MemoryStore) (cutoff : Int64) : RecordMap :=
  memory.records.filter fun r => !r.expired cutoff

/-- The orders of the three loops over the kept records. -/
structure CompactOrders (keep : RecordMap) where
  frames : Iteration keep
  index : Iteration keep
  vector : Iteration keep

/-- The records, the indexes and the knowledge vector of the kept records. -/
def MemoryStore.compacted (memory : MemoryStore) {cutoff : Int64}
    (orders : CompactOrders (memory.keep cutoff)) : MemoryStore :=
  { memory with
    records := memory.keep cutoff
    changesDirty := true
    colIndex := orders.index.order.foldl (fun colIndex entry =>
      indexKey colIndex entry.1 entry.2.collection) ∅
    kv := orders.vector.order.foldl (fun kv entry =>
      kv.update entry.2.updatedBy entry.2.clock) ∅ }

namespace LogStore

/-- A compaction whose file operations all succeed.  It returns the number of
records kept; the new log holds their frames and nothing else. -/
def compact (zstd : Zstd) (ls : LogStore) (now threshold : Int64)
    (orders : CompactOrders (ls.memory.keep (now - milliseconds threshold))) :
    Nat × LogStore :=
  (orders.frames.order.length, { ls with
    writer := ⟨(orders.frames.order.map fun entry => frame zstd entry.2).flatten, []⟩
    memory := ls.memory.compacted orders })

end LogStore

/-! What a put does to the record at its key. -/

def settle (existing : Option Record) (incoming : Record) : Bool × Record :=
  match existing with
  | none => (true, incoming)
  | some stored => (incomingWins stored incoming, resolveConflict stored incoming)

theorem MemoryStore.put_eq_settle (memory : MemoryStore) (incoming : Record) :
    ((memory.put incoming).1, (memory.put incoming).2.1) =
      settle (memory.records.lookup incoming.defaulted.key) incoming.defaulted := by
  cases present : memory.records.lookup incoming.defaulted.key with
  | none => simp [put, settle, present]
  | some stored => simp [put, settle, present]

/-- What is stored at a key without and with compactions: the same, or two
tombstones of one stamp, or a tombstone from before the limit and nothing. -/
inductive Matches (limit : Int) : Option Record → Option Record → Prop
  | same (stored : Option Record) : Matches limit stored stored
  | tombstones (plainDeleted : plain.deleted = true)
      (compactedDeleted : compacted.deleted = true)
      (stamps : plain.stamp = compacted.stamp) :
      Matches limit (some plain) (some compacted)
  | dropped (deleted : plain.deleted = true)
      (old : plain.clock.wallTime.toInt < limit) : Matches limit (some plain) none

namespace Matches

theorem mono {limit later : Int} {plain compacted : Option Record}
    (matched : Matches limit plain compacted) (ordered : limit ≤ later) :
    Matches later plain compacted := by
  cases matched with
  | same => exact .same plain
  | tombstones plainDeleted compactedDeleted stamps =>
      exact .tombstones plainDeleted compactedDeleted stamps
  | dropped deleted old => exact .dropped deleted (old.trans_le ordered)

theorem settle {limit : Int} {plain compacted : Option Record}
    (matched : Matches limit plain compacted) (incoming : Record)
    (recent : limit ≤ incoming.clock.wallTime.toInt) :
    (settle plain incoming).1 = (settle compacted incoming).1 ∧
      Matches limit (some (NellDB.settle plain incoming).2)
        (some (NellDB.settle compacted incoming).2) := by
  cases matched with
  | same => exact ⟨rfl, .same _⟩
  | @tombstones stored other storedDeleted otherDeleted stamps =>
      have flags : incomingWins stored incoming = incomingWins other incoming := by
        rw [Bool.eq_iff_iff, incomingWins_iff, incomingWins_iff, stamps]
      refine ⟨flags, ?_⟩
      simp only [NellDB.settle, resolveConflict, flags]
      split
      next => exact .same _
      next => exact .tombstones storedDeleted otherDeleted stamps
  | @dropped tombstone deleted old =>
      have beaten : incomingWins tombstone incoming = true := by
        rw [incomingWins_iff]
        apply Record.stamp_lt_of_clock_lt
        apply HLC.lt_of_wallTime_lt
        rw [Int64.lt_iff_toInt_lt]
        omega
      refine ⟨beaten, ?_⟩
      simp only [NellDB.settle, resolveConflict, beaten, if_true]
      exact .same _

theorem filter {limit : Int} {cutoff : Int64} (below : cutoff.toInt ≤ limit)
    {plain : Option Record} {before after : RecordMap} {key : GoString}
    (kept : after = before.filter fun r => !r.expired cutoff)
    (matched : Matches limit plain (before.lookup key)) :
    Matches limit plain (after.lookup key) := by
  cases found : before.lookup key with
  | none =>
      have absent : after.lookup key = none := by
        rw [Option.eq_none_iff_forall_ne_some]
        intro r present
        rw [kept, FiniteMap.lookup_filter_iff, found] at present
        exact absurd present.1 (by simp)
      rw [absent, ← found]
      exact matched
  | some r =>
      by_cases old : r.expired cutoff = true
      · have absent : after.lookup key = none := by
          rw [Option.eq_none_iff_forall_ne_some]
          intro other present
          rw [kept, FiniteMap.lookup_filter_iff, found] at present
          obtain ⟨same, isKept⟩ := present
          cases same
          simp [old] at isKept
        obtain ⟨deleted, early⟩ : r.deleted = true ∧ r.clock.wallTime < cutoff := by
          simpa [Record.expired] using old
        have beyond : r.clock.wallTime.toInt < limit := by
          rw [Int64.lt_iff_toInt_lt] at early
          omega
        rw [absent]
        rw [found] at matched
        cases matched with
        | same => exact .dropped deleted beyond
        | tombstones plainDeleted _ stamps =>
            refine .dropped plainDeleted ?_
            rw [((Record.stamp_eq_iff _ _).mp stamps).1]
            exact beyond
      · have present : after.lookup key = some r := by
          rw [kept, FiniteMap.lookup_filter_iff]
          exact ⟨found, by simpa using old⟩
        rw [present, ← found]
        exact matched

end Matches

/-- Two stores that differ in old tombstones only. -/
structure AgreeSince (limit : Int) (plain compacted : MemoryStore) : Prop where
  clock : plain.clock = compacted.clock
  nodeID : plain.nodeID = compacted.nodeID
  records : ∀ key, Matches limit (plain.records.lookup key) (compacted.records.lookup key)

namespace AgreeSince

variable {limit : Int} {plain compacted : MemoryStore}

/-- What a write leaves at its key does not depend on old tombstones. -/
theorem result (agree : AgreeSince limit plain compacted) {call : Write}
    (recent : ∀ incoming, call = .put incoming → limit ≤ incoming.clock.wallTime.toInt) :
    Matches limit (some (plain.write call).1) (some (compacted.write call).1) := by
  cases call with
  | put incoming =>
      have settled := ((agree.records incoming.defaulted.key).settle incoming.defaulted
        (recent incoming rfl)).2
      rw [← MemoryStore.put_eq_settle, ← MemoryStore.put_eq_settle] at settled
      exact settled
  | putLocal document now =>
      simp only [MemoryStore.write, MemoryStore.putLocal, agree.clock, agree.nodeID]
      exact .same _
  | delete collection id now =>
      refine .tombstones rfl rfl ?_
      rw [Record.stamp_eq_iff]
      exact ⟨congrArg (HLC.tick · now) agree.clock, agree.nodeID⟩

theorem write (agree : AgreeSince limit plain compacted) {call : Write}
    (recent : ∀ incoming, call = .put incoming → limit ≤ incoming.clock.wallTime.toInt) :
    AgreeSince limit (plain.write call).2 (compacted.write call).2 where
  clock := by
    cases call with
    | put incoming => rw [MemoryStore.write_clock_of_put, MemoryStore.write_clock_of_put,
        agree.clock]
    | putLocal document now => exact congrArg (HLC.tick · now) agree.clock
    | delete collection id now => exact congrArg (HLC.tick · now) agree.clock
  nodeID := by rw [MemoryStore.write_nodeID, MemoryStore.write_nodeID, agree.nodeID]
  records key := by
    rw [MemoryStore.write_records, MemoryStore.write_records]
    by_cases same : key = call.key
    · rw [same, Finmap.lookup_insert, Finmap.lookup_insert]
      exact agree.result recent
    · rw [Finmap.lookup_insert_of_ne _ same, Finmap.lookup_insert_of_ne _ same]
      exact agree.records key

theorem mono (agree : AgreeSince limit plain compacted) {later : Int}
    (ordered : limit ≤ later) : AgreeSince later plain compacted :=
  ⟨agree.clock, agree.nodeID, fun key => (agree.records key).mono ordered⟩

end AgreeSince

/-! One run twice, with compactions in the second. -/

inductive Op where
  | put (incoming : Record)
  | putLocal (document : Record)
  | delete (collection id : GoString)

def Op.at (now : Int64) : Op → Write
  | put incoming => .put incoming
  | putLocal document => .putLocal document now
  | delete collection id => .delete collection id now

def WithinHorizon (threshold now : Int64) (r : Record) : Prop :=
  now.toInt - (milliseconds threshold).toInt ≤ r.clock.wallTime.toInt

def CutoffExact (threshold now : Int64) : Prop :=
  (now - milliseconds threshold).toInt = now.toInt - (milliseconds threshold).toInt

inductive Twins (zstd : Zstd) (threshold : Int64) (start : LogStore) :
    Int64 → LogStore → LogStore → Prop
  | start (now : Int64) : Twins zstd threshold start now start start
  | call {time now : Int64} {plain compacted : LogStore}
      (run : Twins zstd threshold start time plain compacted) (later : time ≤ now) (op : Op)
      (horizon : ∀ incoming, op = .put incoming → WithinHorizon threshold now incoming) :
      Twins zstd threshold start now (plain.write zstd (op.at now))
        (compacted.write zstd (op.at now))
  | compact {time now : Int64} {plain compacted : LogStore}
      (run : Twins zstd threshold start time plain compacted) (later : time ≤ now)
      (exactly : CutoffExact threshold now)
      (orders : CompactOrders (compacted.memory.keep (now - milliseconds threshold))) :
      Twins zstd threshold start now plain (compacted.compact zstd now threshold orders).2

theorem Twins.agree {zstd : Zstd} {threshold : Int64} {start : LogStore} {now : Int64}
    {plain compacted : LogStore} (run : Twins zstd threshold start now plain compacted) :
    AgreeSince (now.toInt - (milliseconds threshold).toInt) plain.memory compacted.memory := by
  induction run with
  | start now => exact ⟨rfl, rfl, fun key => .same _⟩
  | @call time now plain compacted _ later op horizon ih =>
      rw [LogStore.write_memory, LogStore.write_memory]
      rw [Int64.le_iff_toInt_le] at later
      refine (ih.mono (by omega)).write ?_
      intro incoming isPut
      cases op with
      | put arrived =>
          cases isPut
          exact horizon incoming rfl
      | putLocal document => contradiction
      | delete collection id => contradiction
  | @compact time now plain compacted _ later exactly orders ih =>
      rw [Int64.le_iff_toInt_le] at later
      have agree := ih.mono (show time.toInt - (milliseconds threshold).toInt ≤
        now.toInt - (milliseconds threshold).toInt by omega)
      exact ⟨agree.clock, agree.nodeID, fun key =>
        (agree.records key).filter exactly.le rfl⟩

/-- Within the tombstone horizon, compactions do not change the live records,
the stamps of the tombstones that are left, or the answer to a put. -/
theorem compaction_invisible (zstd : Zstd) (threshold : Int64) (start : LogStore)
    {now : Int64} {plain compacted : LogStore}
    (run : Twins zstd threshold start now plain compacted) :
    (∀ key r, r.deleted = false → (plain.memory.records.lookup key = some r ↔
      compacted.memory.records.lookup key = some r)) ∧
    (∀ key tombstone, compacted.memory.records.lookup key = some tombstone →
      tombstone.deleted = true → ∃ other, plain.memory.records.lookup key = some other ∧
        other.deleted = true ∧ other.clock = tombstone.clock ∧
        other.updatedBy = tombstone.updatedBy) ∧
    ∀ later incoming, now ≤ later → WithinHorizon threshold later incoming →
      (plain.put zstd incoming).1 = (compacted.put zstd incoming).1 := by
  have agree := run.agree
  refine ⟨?_, ?_, ?_⟩
  · intro key r live
    have matched := agree.records key
    constructor
    · intro found
      rw [found] at matched
      generalize compacted.memory.records.lookup key = other at matched
      cases matched with
      | same => rfl
      | tombstones deleted _ _ => simp [live] at deleted
      | dropped deleted _ => simp [live] at deleted
    · intro found
      rw [found] at matched
      generalize plain.memory.records.lookup key = other at matched
      cases matched with
      | same => rfl
      | tombstones _ deleted _ => simp [live] at deleted
  · intro key tombstone found deleted
    have matched := agree.records key
    rw [found] at matched
    generalize plain.memory.records.lookup key = other at matched
    cases matched with
    | same => exact ⟨tombstone, rfl, deleted, rfl, rfl⟩
    | tombstones otherDeleted _ stamps =>
        exact ⟨_, rfl, otherDeleted, (Record.stamp_eq_iff _ _).mp stamps⟩
  · intro later incoming ordered horizon
    have recent : now.toInt - (milliseconds threshold).toInt ≤
        incoming.defaulted.clock.wallTime.toInt := by
      rw [Int64.le_iff_toInt_le] at ordered
      unfold WithinHorizon at horizon
      rw [Record.defaulted_clock]
      omega
    have settled :=
      ((agree.records incoming.defaulted.key).settle incoming.defaulted recent).1
    rw [← MemoryStore.put_eq_settle, ← MemoryStore.put_eq_settle] at settled
    exact settled

/-- An old tombstone is dropped before a newer record of its key arrives. -/
theorem compaction_invisible_dropped_tombstone :
    let tombstone : Record := { Record.zero with
      collection := defaultCollection, id := ascii ['x'], clock := ⟨100, 0⟩
      updatedBy := ascii ['w'], deleted := true }
    let incoming : Record := { Record.zero with
      collection := defaultCollection, id := ascii ['x'], clock := ⟨4500, 0⟩
      updatedBy := ascii ['w'] }
    let start : LogStore := ⟨newMemoryStore (ascii ['n']) 0, ⟨[], []⟩, 0⟩
    let plain := start.write .stored (.put tombstone)
    let orders : CompactOrders (plain.memory.keep (5000 - milliseconds 1000000000)) :=
      ⟨.sorted _, .sorted _, .sorted _⟩
    let compacted := (plain.compact .stored 5000 1000000000 orders).2
    plain.memory.records.lookup tombstone.key = some tombstone ∧
      compacted.memory.records.lookup tombstone.key = none ∧
      (plain.put .stored incoming).1 = (compacted.put .stored incoming).1 := by
  intro tombstone incoming start plain orders compacted
  have written : Twins .stored 1000000000 start 100 plain plain := by
    refine .call (.start 100) (by decide) (.put tombstone) ?_
    intro arrived isPut
    cases isPut
    unfold WithinHorizon
    decide
  have exactly : CutoffExact 1000000000 5000 := by
    unfold CutoffExact
    decide
  have run : Twins .stored 1000000000 start 5000 plain compacted :=
    .compact written (by decide) exactly orders
  have horizon : WithinHorizon 1000000000 5000 incoming := by
    unfold WithinHorizon
    decide
  exact ⟨by decide, by decide, (compaction_invisible .stored 1000000000 start run).2.2 5000
    incoming (by decide) horizon⟩

end NellDB
