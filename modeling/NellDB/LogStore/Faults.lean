import NellDB.Data.FailingWriter
import NellDB.Data.Interleaving
import NellDB.LogStore.Compact
import NellDB.LogStore.Scan
import NellDB.Store.Changes

namespace NellDB

open Data

/-! The log-backed store over a file system that may fail. -/

structure FileLog where
  memory : MemoryStore
  writer : FailingWriter Byte
  flushInterval : Int

inductive WriteError where
  | header
  | data
  | flush
  deriving DecidableEq, Repr

/-- The text that goes before the error of the file system. -/
def WriteError.context : WriteError → String
  | header => "write header: "
  | data => "write data: "
  | flush => ""

/-- The header and the body of a frame are written one after the other. -/
def writeFrame (zstd : Zstd) (w : FailingWriter Byte) (r : Record) :
    Option WriteError × FailingWriter Byte :=
  let raw := r.marshalBinary
  let compressed := zstd.encodeAll raw
  match w.write (bigEndian 4 raw.length ++ bigEndian 4 compressed.length) with
  | (false, w) => (some .header, w)
  | (true, w) =>
      match w.write compressed with
      | (false, w) => (some .data, w)
      | (true, w) => (none, w)

namespace FileLog

/-- The store that `OpenLog` returns. -/
def opened (ls : LogStore) : FileLog where
  memory := ls.memory
  writer := .onto ls.writer.file []
  flushInterval := ls.flushInterval

def append (zstd : Zstd) (log : FileLog) (faults : List (Option Nat)) (r : Record) :
    Option WriteError × FileLog :=
  match writeFrame zstd { log.writer with schedule := faults } r with
  | (some failure, writer) => (some failure, { log with writer })
  | (none, writer) =>
      if log.flushInterval ≤ 0 then
        match writer.flush with
        | (false, writer) => (some .flush, { log with writer })
        | (true, writer) => (none, { log with writer })
      else
        (none, { log with writer })

def put (zstd : Zstd) (log : FileLog) (faults : List (Option Nat)) (incoming : Record) :
    Bool × Record × Option WriteError × FileLog :=
  let (accepted, winner, memory) := log.memory.put incoming
  (accepted, winner, append zstd { log with memory } faults winner)

def putLocal (zstd : Zstd) (log : FileLog) (faults : List (Option Nat)) (document : Record)
    (now : Int64) : Record × Option WriteError × FileLog :=
  let (written, memory) := log.memory.putLocal document now
  (written, append zstd { log with memory } faults written)

def delete (zstd : Zstd) (log : FileLog) (faults : List (Option Nat))
    (collection id : GoString) (now : Int64) : Record × Option WriteError × FileLog :=
  let (tombstone, memory) := log.memory.delete collection id now
  (tombstone, append zstd { log with memory } faults tombstone)

def write (zstd : Zstd) (log : FileLog) (faults : List (Option Nat)) :
    Write → Option WriteError × FileLog
  | .put incoming => (log.put zstd faults incoming).2.2
  | .putLocal document now => (log.putLocal zstd faults document now).2
  | .delete collection id now => (log.delete zstd faults collection id now).2

def getChangesSince (log : FileLog) (since : HLC) : List Record × FileLog :=
  let (changes, memory) := log.memory.getChangesSince since
  (changes, { log with memory })

/-- The background flusher ignores the error of a flush. -/
def flushTick (log : FileLog) (faults : List (Option Nat)) : FileLog :=
  if log.flushInterval > 0 then
    { log with writer := (FailingWriter.flush { log.writer with schedule := faults }).2 }
  else
    log

/-- What `Close` leaves in the file. -/
def close (log : FileLog) (faults : List (Option Nat)) : Bytes :=
  (FailingWriter.flush { log.writer with schedule := faults }).2.file

end FileLog

/-! Compaction. -/

inductive CompactError where
  | flush
  | noFile
  | create
  | temp (failure : WriteError)
  | rename
  | reopen
  deriving DecidableEq, Repr

def CompactError.context : CompactError → String
  | flush => "compact: flush: "
  | noFile => "invalid memory address or nil pointer dereference"
  | create => "compact: create temp file: "
  | temp .flush => "compact: flush temp: "
  | temp failure => "compact: " ++ failure.context
  | rename => "compact: rename: "
  | reopen => "compact: reopen: "

/-- Which file operations of a compaction fail.  Errors of `Close` and `Remove`
are ignored by the code. -/
structure CompactFaults where
  flush : List (Option Nat)
  create : Bool
  temp : List (Option Nat)
  rename : Bool
  reopen : Bool
  deriving DecidableEq, Repr

def CompactFaults.none : CompactFaults := ⟨[], false, [], false, false⟩

def writeFrames (zstd : Zstd) (w : FailingWriter Byte) :
    List Record → Option WriteError × FailingWriter Byte
  | [] => (none, w)
  | r :: rest =>
      match writeFrame zstd w r with
      | (some failure, w) => (some failure, w)
      | (none, w) => writeFrames zstd w rest

/-- The temporary file with the kept records. -/
def writeTemp (zstd : Zstd) (faults : List (Option Nat)) (kept : List Record) :
    Except WriteError Bytes :=
  match writeFrames zstd (.onto [] faults) kept with
  | (some failure, _) => .error failure
  | (none, w) =>
      match w.flush with
      | (false, _) => .error .flush
      | (true, w) => .ok w.file

namespace FileLog

/-- The store as one whose file operations succeed. -/
def store (log : FileLog) : LogStore where
  memory := log.memory
  writer := log.writer.plain
  flushInterval := log.flushInterval

/-- The old handle is closed before the rename.  If the rename fails, the old
file is opened again; otherwise the new one is. -/
def replaceFile (zstd : Zstd) (log : FileLog) (now threshold : Int64)
    (orders : CompactOrders (log.memory.keep (now - milliseconds threshold)))
    (faults : CompactFaults) (temp : Bytes) : Except CompactError Nat × FileLog :=
  if faults.rename then
    let writer : FailingWriter Byte := .onto log.writer.file []
    if faults.reopen then
      (.error .rename, { log with writer := { writer with handle := .missing } })
    else
      (.error .rename, { log with writer })
  else if faults.reopen then
    (.error .reopen, { log with writer := { log.writer with file := temp, handle := .closed } })
  else
    (.ok orders.frames.order.length, { log with
      writer := .onto temp []
      memory := (log.store.compact zstd now threshold orders).2.memory })

def compact (zstd : Zstd) (log : FileLog) (now threshold : Int64)
    (orders : CompactOrders (log.memory.keep (now - milliseconds threshold)))
    (faults : CompactFaults) : Except CompactError Nat × FileLog :=
  match FailingWriter.flush { log.writer with schedule := faults.flush } with
  | (false, writer) => (.error .flush, { log with writer })
  | (true, writer) =>
      if writer.handle = .missing then
        (.error .noFile, { log with writer })
      else if faults.create then
        (.error .create, { log with writer })
      else
        match writeTemp zstd faults.temp (orders.frames.order.map Prod.snd) with
        | .error failure => (.error (.temp failure), { log with writer })
        | .ok temp => replaceFile zstd { log with writer } now threshold orders faults temp

end FileLog

/-! What the operations do to the memory, and to the file if they succeed. -/

theorem writeFrame_ok {zstd : Zstd} {w next : FailingWriter Byte} {r : Record}
    (done : writeFrame zstd w r = (none, next)) :
    next.plain = (w.plain.write (bigEndian 4 r.marshalBinary.length ++
        bigEndian 4 (zstd.encodeAll r.marshalBinary).length)).write
          (zstd.encodeAll r.marshalBinary) ∧
      next.failed = false ∧ next.handle = w.handle := by
  unfold writeFrame at done
  dsimp only at done
  split at done
  next => simp at done
  next first headerDone =>
      split at done
      next => simp at done
      next bodyDone =>
          cases done
          obtain ⟨headerPlain, _, _, headerHandle⟩ := FailingWriter.write_ok headerDone
          obtain ⟨bodyPlain, _, intact, bodyHandle⟩ := FailingWriter.write_ok bodyDone
          rw [bodyPlain, headerPlain]
          exact ⟨rfl, intact, bodyHandle.trans headerHandle⟩

theorem writeFrame_stream {zstd : Zstd} {w next : FailingWriter Byte} {r : Record}
    (done : writeFrame zstd w r = (none, next)) :
    next.plain.stream = w.plain.stream ++ frame zstd r := by
  rw [(writeFrame_ok done).1, BufferedWriter.stream_write, BufferedWriter.stream_write]
  simp [frame]

theorem writeFrames_ok {zstd : Zstd} {w next : FailingWriter Byte} {records : List Record}
    (done : writeFrames zstd w records = (none, next)) :
    next.plain.stream = w.plain.stream ++ frames zstd records := by
  induction records generalizing w with
  | nil =>
      cases done
      simp [frames]
  | cons r rest ih =>
      unfold writeFrames at done
      split at done
      next => simp at done
      next first firstDone =>
          rw [ih done, writeFrame_stream firstDone]
          simp [frames]

theorem writeTemp_ok {zstd : Zstd} {faults : List (Option Nat)} {kept : List Record}
    {temp : Bytes} (done : writeTemp zstd faults kept = .ok temp) :
    temp = frames zstd kept := by
  unfold writeTemp at done
  split at done
  next => simp at done
  next written =>
      split at done
      next => simp at done
      next flushed =>
          cases done
          have file := congrArg BufferedWriter.file (FailingWriter.flush_ok flushed).1
          rw [BufferedWriter.file_flush, writeFrames_ok written] at file
          exact file

namespace FileLog

theorem append_memory (zstd : Zstd) (log : FileLog) (faults : List (Option Nat))
    (r : Record) : (log.append zstd faults r).2.memory = log.memory := by
  unfold append
  split
  next => rfl
  next =>
      split
      next => split <;> rfl
      next => rfl

theorem write_memory (zstd : Zstd) (log : FileLog) (faults : List (Option Nat))
    (call : Write) : (log.write zstd faults call).2.memory = (log.memory.write call).2 := by
  cases call with
  | put incoming => exact append_memory zstd _ faults _
  | putLocal document now => exact append_memory zstd _ faults _
  | delete collection id now => exact append_memory zstd _ faults _

/-- An append that succeeds is one of a store whose file operations succeed. -/
theorem append_ok {zstd : Zstd} {log next : FileLog} {faults : List (Option Nat)} {r : Record}
    (done : log.append zstd faults r = (none, next)) :
    next.store = log.store.append zstd r ∧ next.writer.failed = false ∧
      next.writer.handle = log.writer.handle := by
  unfold append at done
  unfold LogStore.append
  dsimp only
  split at done
  next => simp at done
  next framed frameDone =>
      obtain ⟨plain, intact, handle⟩ := writeFrame_ok frameDone
      split at done
      next eager =>
          rw [if_pos (show log.store.flushInterval ≤ 0 from eager)]
          split at done
          next => simp at done
          next flushed flushDone =>
              cases done
              obtain ⟨flushPlain, _, stillIntact, stillHandle⟩ :=
                FailingWriter.flush_ok flushDone
              rw [plain] at flushPlain
              refine ⟨?_, stillIntact, stillHandle.trans handle⟩
              exact congrArg (LogStore.mk log.memory · log.flushInterval) flushPlain
      next lazy =>
          rw [if_neg (show ¬ log.store.flushInterval ≤ 0 from lazy)]
          cases done
          refine ⟨?_, intact, handle⟩
          exact congrArg (LogStore.mk log.memory · log.flushInterval) plain

theorem write_ok {zstd : Zstd} {log next : FileLog} {faults : List (Option Nat)}
    {call : Write} (done : log.write zstd faults call = (none, next)) :
    next.store = log.store.write zstd call ∧ next.writer.failed = false ∧
      next.writer.handle = log.writer.handle := by
  cases call with
  | put incoming => exact append_ok done
  | putLocal document now => exact append_ok done
  | delete collection id now => exact append_ok done

theorem flushTick_memory (log : FileLog) (faults : List (Option Nat)) :
    (log.flushTick faults).memory = log.memory := by
  unfold flushTick
  split <;> rfl

/-- A compaction that fails changes no more than the writer. -/
inductive CompactOutcome (zstd : Zstd) (log : FileLog) {cutoff : Int64}
    (orders : CompactOrders (log.memory.keep cutoff)) :
    Except CompactError Nat × FileLog → Prop
  | failed (failure : CompactError) (writer : FailingWriter Byte) :
      CompactOutcome zstd log orders (.error failure, { log with writer })
  | done : CompactOutcome zstd log orders (.ok orders.frames.order.length, { log with
      writer := .onto (frames zstd (orders.frames.order.map Prod.snd)) []
      memory := log.memory.compacted orders })

theorem compact_outcome (zstd : Zstd) (log : FileLog) (now threshold : Int64)
    (orders : CompactOrders (log.memory.keep (now - milliseconds threshold)))
    (faults : CompactFaults) :
    CompactOutcome zstd log orders (log.compact zstd now threshold orders faults) := by
  unfold compact
  split
  next => exact .failed .flush _
  next =>
      split
      next => exact .failed .noFile _
      next =>
          split
          next => exact .failed .create _
          next =>
              split
              next failure _ => exact .failed (.temp failure) _
              next temp written =>
                  rw [writeTemp_ok written]
                  unfold replaceFile
                  split
                  next => split <;> exact .failed .rename _
                  next =>
                      split
                      next => exact .failed .reopen _
                      next => exact .done

end FileLog

/-! The life of a log: calls, background flushes, compactions, and closing and
opening it again. -/

inductive LogAction where
  | write (call : Write) (faults : List (Option Nat))
  | changesSince (since : HLC)
  | flushTick (faults : List (Option Nat))
  | compact (now threshold : Int64) (faults : CompactFaults)
  | reopen (opening : Opening) (faults : List (Option Nat))

namespace FileLog

inductive Step (zstd : Zstd) : FileLog → LogAction → FileLog → Prop
  | write (call : Write) (faults : List (Option Nat)) :
      Step zstd log (.write call faults) (log.write zstd faults call).2
  | changesSince (since : HLC) :
      Step zstd log (.changesSince since) (log.getChangesSince since).2
  | flushTick (faults : List (Option Nat)) :
      Step zstd log (.flushTick faults) (log.flushTick faults)
  | compact (now threshold : Int64) (faults : CompactFaults)
      (orders : CompactOrders (log.memory.keep (now - milliseconds threshold))) :
      Step zstd log (.compact now threshold faults)
        (log.compact zstd now threshold orders faults).2
  | reopen (opening : Opening) (faults : List (Option Nat))
      (reads : OpenLog zstd opening (log.close faults) (.ok ls)) :
      Step zstd log (.reopen opening faults) (opened ls)

/-- The states that a log opened on `file` can reach. -/
inductive Reached (zstd : Zstd) (allowed : FileLog → LogAction → Prop) (file : Bytes) :
    FileLog → Prop
  | run {opening : Opening} {ls : LogStore} (reads : OpenLog zstd opening file (.ok ls))
      (run : Run (Step zstd) allowed (opened ls) log) : Reached zstd allowed file log

end FileLog

end NellDB
