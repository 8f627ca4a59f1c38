import NellDB.Data.BufferedWriter
import NellDB.Store.Memory

namespace NellDB

open Data

/-- The compression library.  Decoding undoes encoding. -/
structure Zstd where
  encodeAll : Bytes → Bytes
  decodeAll : Bytes → Option Bytes
  decodeAll_encodeAll : ∀ raw, decodeAll (encodeAll raw) = some raw

namespace Zstd

/-- A frame header without content size, for a window of 128 KiB. -/
def rawHeader : Bytes := [0x28, 0xB5, 0x2F, 0xFD, 0x00, 0x38]

def rawBlocks : Bytes → Bytes
  | [] => [1, 0, 0]
  | byte :: rest => 8 :: 0 :: 0 :: byte :: rawBlocks rest

def readRawBlocks : Bytes → Option Bytes
  | a :: b :: c :: rest =>
      if [a, b, c] = [1, 0, 0] then
        if rest = [] then some [] else none
      else if [a, b, c] = [8, 0, 0] then
        match rest with
        | byte :: rest => (readRawBlocks rest).map (byte :: ·)
        | [] => none
      else
        none
  | _ => none

theorem readRawBlocks_rawBlocks (raw : Bytes) :
    readRawBlocks (rawBlocks raw) = some raw := by
  induction raw with
  | nil => rfl
  | cons byte rest ih => simp [rawBlocks, readRawBlocks, ih]

theorem length_rawBlocks (raw : Bytes) : (rawBlocks raw).length = 4 * raw.length + 3 := by
  induction raw with
  | nil => rfl
  | cons byte rest ih =>
      simp only [rawBlocks, List.length_cons, ih]
      omega

/-- The encoder that stores every byte as a raw block of its own, and the
decoder of such frames. -/
def stored : Zstd where
  encodeAll raw := rawHeader ++ rawBlocks raw
  decodeAll input :=
    if input = [] then
      some []
    else if input.take 6 = rawHeader then
      readRawBlocks (input.drop 6)
    else
      none
  decodeAll_encodeAll raw := by
    simp [rawHeader, readRawBlocks_rawBlocks]

theorem length_stored (raw : Bytes) :
    (stored.encodeAll raw).length = 4 * raw.length + 9 := by
  simp only [stored, List.length_append, length_rawBlocks]
  exact Nat.add_comm 6 _

end Zstd

/-- The log-backed store.  Its indexes and their updates are those of the
memory store; every write is also appended to the log. -/
structure LogStore where
  memory : MemoryStore
  writer : BufferedWriter Byte
  flushInterval : Int

/-- One frame of the log: both lengths, then the compressed record. -/
def frame (zstd : Zstd) (r : Record) : Bytes :=
  bigEndian 4 r.marshalBinary.length ++
    bigEndian 4 (zstd.encodeAll r.marshalBinary).length ++
    zstd.encodeAll r.marshalBinary

namespace LogStore

def append (zstd : Zstd) (ls : LogStore) (r : Record) : LogStore :=
  let raw := r.marshalBinary
  let compressed := zstd.encodeAll raw
  let header := bigEndian 4 raw.length ++ bigEndian 4 compressed.length
  let writer := (ls.writer.write header).write compressed
  if ls.flushInterval ≤ 0 then
    { ls with writer := writer.flush }
  else
    { ls with writer }

def put (zstd : Zstd) (ls : LogStore) (incoming : Record) :
    Bool × Record × LogStore :=
  let (accepted, winner, memory) := ls.memory.put incoming
  (accepted, winner, append zstd { ls with memory } winner)

def putLocal (zstd : Zstd) (ls : LogStore) (document : Record) (now : Int64) :
    Record × LogStore :=
  let (written, memory) := ls.memory.putLocal document now
  (written, append zstd { ls with memory } written)

def delete (zstd : Zstd) (ls : LogStore) (collection id : GoString) (now : Int64) :
    Record × LogStore :=
  let (tombstone, memory) := ls.memory.delete collection id now
  (tombstone, append zstd { ls with memory } tombstone)

def get (ls : LogStore) (collection id : GoString) : Except StoreError Record :=
  ls.memory.get collection id

def listAll (ls : LogStore) (collection : GoString) : Multiset Record :=
  ls.memory.listAll collection

def list (ls : LogStore) (collection : GoString) : Multiset Record :=
  ls.memory.list collection

/-- The background flusher of group commit, started only for a positive
interval. -/
def flushTick (ls : LogStore) : LogStore :=
  if ls.flushInterval > 0 then { ls with writer := ls.writer.flush } else ls

def close (ls : LogStore) : Bytes := ls.writer.flush.file

end LogStore

inductive Write where
  | put (incoming : Record)
  | putLocal (document : Record) (now : Int64)
  | delete (collection id : GoString) (now : Int64)
  deriving DecidableEq, Repr

namespace Write

def collection : Write → GoString
  | put incoming => orDefault incoming.collection
  | putLocal document _ => orDefault document.collection
  | delete collection _ _ => orDefault collection

def id : Write → GoString
  | put incoming => incoming.id
  | putLocal document _ => document.id
  | delete _ id _ => id

def key (call : Write) : GoString := flatKey call.collection call.id

def reading : Write → Option Int64
  | put _ => none
  | putLocal _ now => some now
  | delete _ _ now => some now

end Write

inductive LogEvent where
  | write (call : Write)
  | flushTick
  deriving DecidableEq, Repr

def LogEvent.call : LogEvent → Option Write
  | write call => some call
  | flushTick => none

namespace MemoryStore

/-- The record a write leaves at its key, and the store after it. -/
def write (memory : MemoryStore) : Write → Record × MemoryStore
  | .put incoming => (memory.put incoming).2
  | .putLocal document now => memory.putLocal document now
  | .delete collection id now => memory.delete collection id now

def writes (memory : MemoryStore) : List Write → MemoryStore
  | [] => memory
  | call :: rest => (memory.write call).2.writes rest

def journal (memory : MemoryStore) : List Write → List Record
  | [] => []
  | call :: rest => (memory.write call).1 :: (memory.write call).2.journal rest

/-! What a write changes. -/

theorem write_records (memory : MemoryStore) (call : Write) :
    (memory.write call).2.records =
      memory.records.insert call.key (memory.write call).1 := by
  cases call with
  | put incoming => exact congrArg MemoryStore.records (memory.put_state incoming)
  | putLocal document now => rfl
  | delete collection id now => rfl

theorem lookup_write_source {memory : MemoryStore} {call : Write} {position : GoString}
    {stored : Record}
    (found : (memory.write call).2.records.lookup position = some stored) :
    position = call.key ∧ stored = (memory.write call).1 ∨
      memory.records.lookup position = some stored := by
  rw [write_records] at found
  rcases FiniteMap.lookup_insert_cases found with new | ⟨_, before⟩
  · exact .inl new
  · exact .inr before

theorem write_nodeID (memory : MemoryStore) (call : Write) :
    (memory.write call).2.nodeID = memory.nodeID := by
  cases call with
  | put incoming => rw [write, put_state]
  | putLocal document now => rfl
  | delete collection id now => rfl

theorem write_clock_of_put (memory : MemoryStore) (incoming : Record) :
    (memory.write (.put incoming)).2.clock = memory.clock.update incoming.clock :=
  congrArg MemoryStore.clock (memory.put_state incoming)

theorem write_clock_of_reading (memory : MemoryStore) {call : Write} {now : Int64}
    (read : call.reading = some now) :
    (memory.write call).2.clock = memory.clock.tick now ∧
      (memory.write call).1.clock = memory.clock.tick now := by
  cases call with
  | put incoming => contradiction
  | putLocal document reading =>
      cases read
      exact ⟨rfl, rfl⟩
  | delete collection id reading =>
      cases read
      exact ⟨rfl, rfl⟩

theorem write_colIndex_of_absent {memory : MemoryStore} {call : Write}
    (absent : memory.records.lookup call.key = none) :
    (memory.write call).2.colIndex =
      indexKey memory.colIndex call.key call.collection := by
  cases call with
  | put incoming =>
      change memory.records.lookup incoming.defaulted.key = none at absent
      change _ = indexKey memory.colIndex incoming.defaulted.key incoming.defaulted.collection
      simp [write, put, absent]
  | putLocal document now =>
      change memory.records.lookup document.defaulted.key = none at absent
      simp only [write, putLocal]
      split
      next => rfl
      next stored present => exact absurd (absent.symm.trans present) (by simp)
  | delete collection id now =>
      change memory.records.lookup (flatKey (orDefault collection) id) = none at absent
      change _ =
        indexKey memory.colIndex (flatKey (orDefault collection) id) (orDefault collection)
      simp [write, delete, absent]

theorem write_colIndex_of_present {memory : MemoryStore} {call : Write} {stored : Record}
    (present : memory.records.lookup call.key = some stored) :
    (memory.write call).2.colIndex = memory.colIndex := by
  cases call with
  | put incoming =>
      change memory.records.lookup incoming.defaulted.key = some stored at present
      simp [write, put, present]
  | putLocal document now =>
      simp only [write, putLocal]
      split
      next absent => exact absurd (absent.symm.trans present) (by simp)
      next => rfl
  | delete collection id now =>
      change memory.records.lookup (flatKey (orDefault collection) id) = some stored at present
      simp [write, delete, present]

theorem write_colIndex (memory : MemoryStore) (call : Write) :
    (memory.write call).2.colIndex = memory.colIndex ∨
      memory.records.lookup call.key = none ∧ (memory.write call).2.colIndex =
        indexKey memory.colIndex call.key call.collection := by
  cases present : memory.records.lookup call.key with
  | none => exact .inr ⟨rfl, write_colIndex_of_absent present⟩
  | some stored => exact .inl (write_colIndex_of_present present)

theorem write_put_cases (memory : MemoryStore) (incoming : Record) :
    (memory.write (.put incoming)).1 = incoming.defaulted ∨
      memory.records.lookup incoming.defaulted.key =
        some (memory.write (.put incoming)).1 := by
  cases present : memory.records.lookup incoming.defaulted.key with
  | none => simp [write, put, present]
  | some existing =>
      simp only [write, put, present, resolveConflict]
      split
      next => exact .inl rfl
      next => exact .inr rfl

@[simp] theorem length_journal (memory : MemoryStore) (calls : List Write) :
    (memory.journal calls).length = calls.length := by
  induction calls generalizing memory with
  | nil => rfl
  | cons call rest ih => simp [journal, ih]

theorem journal_take (memory : MemoryStore) (calls : List Write) (count : Nat) :
    memory.journal (calls.take count) = (memory.journal calls).take count := by
  induction calls generalizing memory count with
  | nil => simp [journal]
  | cons call rest ih =>
      cases count with
      | zero => rfl
      | succ count => simp [journal, ih]

end MemoryStore

namespace LogStore

def write (zstd : Zstd) (ls : LogStore) : Write → LogStore
  | .put incoming => (ls.put zstd incoming).2.2
  | .putLocal document now => (ls.putLocal zstd document now).2
  | .delete collection id now => (ls.delete zstd collection id now).2

def returned (zstd : Zstd) (ls : LogStore) : Write → Record
  | .put incoming => (ls.put zstd incoming).2.1
  | .putLocal document now => (ls.putLocal zstd document now).1
  | .delete collection id now => (ls.delete zstd collection id now).1

def step (zstd : Zstd) (ls : LogStore) : LogEvent → LogStore
  | .write call => ls.write zstd call
  | .flushTick => ls.flushTick

def run (zstd : Zstd) (ls : LogStore) (events : List LogEvent) : LogStore :=
  events.foldl (step zstd) ls

@[simp] theorem append_memory (zstd : Zstd) (ls : LogStore) (r : Record) :
    (ls.append zstd r).memory = ls.memory := by
  unfold append
  dsimp only
  split <;> rfl

@[simp] theorem append_stream (zstd : Zstd) (ls : LogStore) (r : Record) :
    (ls.append zstd r).writer.stream = ls.writer.stream ++ frame zstd r := by
  unfold append
  dsimp only
  split <;> simp [frame]

theorem write_memory (zstd : Zstd) (ls : LogStore) (call : Write) :
    (ls.write zstd call).memory = (ls.memory.write call).2 := by
  cases call <;> exact append_memory zstd _ _

theorem returned_eq (zstd : Zstd) (ls : LogStore) (call : Write) :
    ls.returned zstd call = (ls.memory.write call).1 := by
  cases call <;> rfl

theorem write_stream (zstd : Zstd) (ls : LogStore) (call : Write) :
    (ls.write zstd call).writer.stream =
      ls.writer.stream ++ frame zstd (ls.memory.write call).1 := by
  cases call <;> exact append_stream zstd _ _

theorem flushTick_memory (ls : LogStore) : ls.flushTick.memory = ls.memory := by
  unfold flushTick
  split <;> rfl

theorem flushTick_stream (ls : LogStore) :
    ls.flushTick.writer.stream = ls.writer.stream := by
  unfold flushTick
  split <;> simp

theorem run_memory (zstd : Zstd) (ls : LogStore) (events : List LogEvent) :
    (ls.run zstd events).memory =
      ls.memory.writes (events.filterMap LogEvent.call) := by
  induction events generalizing ls with
  | nil => rfl
  | cons event rest ih =>
      have onward := ih (ls.step zstd event)
      cases event with
      | write call =>
          simp only [step, write_memory] at onward
          exact onward
      | flushTick =>
          simp only [step, flushTick_memory] at onward
          exact onward

/-- The stream grows by one frame for each write, flushed or not. -/
theorem run_stream (zstd : Zstd) (ls : LogStore) (events : List LogEvent) :
    (ls.run zstd events).writer.stream =
      ls.writer.stream ++
        ((ls.memory.journal (events.filterMap LogEvent.call)).map
          (frame zstd)).flatten := by
  induction events generalizing ls with
  | nil => exact (List.append_nil _).symm
  | cons event rest ih =>
      have onward := ih (ls.step zstd event)
      cases event with
      | write call =>
          simp only [step, write_memory, write_stream, List.append_assoc] at onward
          exact onward
      | flushTick =>
          simp only [step, flushTick_memory, flushTick_stream] at onward
          exact onward

end LogStore

end NellDB
