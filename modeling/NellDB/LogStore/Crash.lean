import NellDB.LogStore.Survival

namespace NellDB

open Data

/-! A process that dies in the middle of an operation of a log that flushes
after every write. -/

theorem file_writeFrame (zstd : Zstd) (w : FailingWriter Byte) (r : Record) :
    w.file <+: (writeFrame zstd w r).2.file ∧
      (writeFrame zstd w r).2.file <+: w.plain.stream ++ frame zstd r := by
  let header := bigEndian 4 r.marshalBinary.length ++
    bigEndian 4 (zstd.encodeAll r.marshalBinary).length
  have grows := w.file_write header
  have parts : w.plain.stream ++ frame zstd r =
      w.plain.stream ++ header ++ zstd.encodeAll r.marshalBinary := by
    simp [frame, header]
  rw [parts]
  unfold writeFrame
  dsimp only
  split
  next done =>
      rw [show w.write header = _ from done] at grows
      exact ⟨grows.1, grows.2.trans (List.prefix_append ..)⟩
  next first done =>
      have stream := congrArg BufferedWriter.stream (FailingWriter.write_ok done).1
      rw [BufferedWriter.stream_write] at stream
      rw [show w.write header = _ from done] at grows
      have growsOn := first.file_write (zstd.encodeAll r.marshalBinary)
      rw [stream] at growsOn
      split
      next doneToo =>
          rw [doneToo] at growsOn
          exact ⟨grows.1.trans growsOn.1, growsOn.2⟩
      next doneToo =>
          rw [doneToo] at growsOn
          exact ⟨grows.1.trans growsOn.1, growsOn.2⟩

namespace FileLog

theorem file_append (zstd : Zstd) (log : FileLog) (faults : List (Option Nat)) (r : Record) :
    log.writer.file <+: (log.append zstd faults r).2.writer.file ∧
      (log.append zstd faults r).2.writer.file <+:
        log.writer.plain.stream ++ frame zstd r := by
  have grows := file_writeFrame zstd { log.writer with schedule := faults } r
  unfold append
  split
  next framed =>
      rw [framed] at grows
      exact grows
  next writer framed =>
      have stream := writeFrame_stream framed
      rw [framed] at grows
      split
      next =>
          have flushes := writer.file_flush
          rw [stream] at flushes
          split
          next done =>
              rw [done] at flushes
              exact ⟨grows.1.trans flushes.1, flushes.2⟩
          next done =>
              rw [done] at flushes
              exact ⟨grows.1.trans flushes.1, flushes.2⟩
      next => exact grows

theorem file_write (zstd : Zstd) (log : FileLog) (faults : List (Option Nat)) (call : Write) :
    log.writer.file <+: (log.write zstd faults call).2.writer.file ∧
      (log.write zstd faults call).2.writer.file <+:
        log.writer.plain.stream ++ frame zstd (log.memory.write call).1 := by
  cases call with
  | put incoming =>
      exact file_append zstd { log with memory := (log.memory.put incoming).2.2 } faults _
  | putLocal document now =>
      exact file_append zstd { log with memory := (log.memory.putLocal document now).2 }
        faults _
  | delete collection id now =>
      exact file_append zstd { log with memory := (log.memory.delete collection id now).2 }
        faults _

/-- The name of the log stands for the old file until the rename, and for the
whole temporary file from then on. -/
theorem file_compact (zstd : Zstd) (log : FileLog) {now threshold : Int64}
    (orders : CompactOrders (log.memory.keep (now - milliseconds threshold)))
    (faults : CompactFaults) {file : Bytes}
    (left : (log.compact zstd now threshold orders faults).2.writer.file = file) :
    (log.writer.file <+: file ∧ file <+: log.writer.plain.stream) ∨
      file = frames zstd orders.kept := by
  have flushes := FailingWriter.file_flush { log.writer with schedule := faults.flush }
  rw [← left]
  unfold compact
  split
  next done =>
      rw [done] at flushes
      exact .inl flushes
  next done =>
      rw [done] at flushes
      split
      next => exact .inl flushes
      next =>
          split
          next => exact .inl flushes
          next =>
              split
              next => exact .inl flushes
              next temp written =>
                  unfold replaceFile
                  split
                  next => split <;> exact .inl flushes
                  next => split <;> exact .inr (writeTemp_ok written)

/-- The file that the death of the process in the middle of an action leaves,
and the memory that the whole action would have left.  What reached the file is
what reaches it if the action's file operations fail from there on. -/
inductive Interrupted (zstd : Zstd) (log : FileLog) : LogAction → Bytes → MemoryStore → Prop
  | write (call : Write) (faults : List (Option Nat)) :
      Interrupted zstd log (.write call faults) (log.write zstd faults call).2.writer.file
        (log.memory.write call).2
  | changesSince (since : HLC) :
      Interrupted zstd log (.changesSince since) log.writer.file
        (log.memory.getChangesSince since).2
  | flushTick (faults : List (Option Nat)) :
      Interrupted zstd log (.flushTick faults) (log.flushTick faults).writer.file log.memory
  | compact (now threshold : Int64) (faults : CompactFaults)
      (orders : CompactOrders (log.memory.keep (now - milliseconds threshold))) :
      Interrupted zstd log (.compact now threshold faults)
        (log.compact zstd now threshold orders faults).2.writer.file
        (log.memory.compacted orders)
  | close (opening : Opening) (faults : List (Option Nat)) :
      Interrupted zstd log (.reopen opening faults) (log.close faults) log.memory

end FileLog

namespace LogStore

theorem buffer_append (zstd : Zstd) {ls : LogStore} (eager : ls.flushInterval ≤ 0)
    (r : Record) : (ls.append zstd r).writer.buffer = [] := by
  unfold append
  dsimp only
  rw [if_pos eager]
  rfl

theorem buffer_write (zstd : Zstd) {ls : LogStore} (eager : ls.flushInterval ≤ 0)
    (call : Write) : (ls.write zstd call).writer.buffer = [] := by
  cases call with
  | put incoming =>
      exact @buffer_append zstd { ls with memory := (ls.memory.put incoming).2.2 } eager _
  | putLocal document now =>
      exact @buffer_append zstd { ls with memory := (ls.memory.putLocal document now).2 }
        eager _
  | delete collection id now =>
      exact @buffer_append zstd { ls with memory := (ls.memory.delete collection id now).2 }
        eager _

end LogStore

namespace FileLog

/-- A log that flushes after every write has nothing in the buffer between the
operations. -/
def Flushed (log : FileLog) : Prop :=
  log.flushInterval ≤ 0 → log.writer.buffer = []

theorem flushed_opened (ls : LogStore) : (opened ls).Flushed := fun _ => rfl

theorem Flushed.step {zstd : Zstd} {log next : FileLog} {action : LogAction}
    (flushed : log.Flushed) (working : log.writer.Working) (harmless : action.Harmless)
    (step : Step zstd log action next) : next.Flushed := by
  cases step with
  | write call faults =>
      cases harmless
      obtain ⟨writer, done, _⟩ := write_clear zstd working call
      have store := (write_ok done).1
      rw [done]
      intro eager
      have emptied := congrArg (fun ls => ls.writer.buffer) store
      refine emptied.trans ?_
      exact LogStore.buffer_write zstd eager call
  | changesSince since => exact flushed
  | flushTick faults =>
      unfold flushTick
      split
      next lazy => exact fun eager => absurd eager (Int.not_le.mpr lazy)
      next => exact flushed
  | compact now threshold faults orders =>
      rcases compact_harmless zstd working orders harmless with
        ⟨failure, writer, result, _, plain⟩ | result
      · rw [result]
        exact fun _ => congrArg BufferedWriter.buffer plain
      · rw [result]
        exact fun _ => rfl
  | reopen opening faults reads => exact flushed_opened _

/-- The run lemma.  The writer works in every state of the run, so a step finds
it as the step lemma needs it. -/
theorem Reached.flushed {zstd : Zstd} {log : FileLog}
    (reached : Reached zstd (fun log action => action.Steady zstd log) [] log) :
    log.Flushed := by
  obtain ⟨reads, run⟩ := reached
  induction run with
  | start => exact flushed_opened _
  | step earlier steady taken ih =>
      obtain ⟨written, archive, _⟩ := (Reached.run reads earlier).durable
      exact ih.step archive.working steady.harmless taken

end FileLog

/-- Every opening of the file succeeds, with the records and the knowledge
vector of the memory. -/
structure Recovers (zstd : Zstd) (file : Bytes) (memory : MemoryStore) : Prop where
  opens : ∀ opening, ∃ outcome, OpenLog zstd opening file outcome
  agrees : ∀ opening outcome, OpenLog zstd opening file outcome →
    ∃ ls, outcome = .ok ls ∧ ls.memory.records = memory.records ∧ ls.memory.kv = memory.kv

namespace Durable

variable {zstd : Zstd} {memory : MemoryStore} {written : List Record}

theorem recovers_torn (durable : Durable memory written)
    (fits : ∀ r ∈ written, FitsFrame zstd r) {torn : Bytes}
    (stops : ∀ fuel offset, scanFrames fuel offset torn = []) :
    Recovers zstd (frames zstd written ++ torn) memory where
  opens opening := (openLog_outcomes fits stops opening).1
  agrees opening outcome reads := by
    obtain ⟨merged, perm, rfl⟩ := (openLog_outcomes fits stops opening).2 outcome reads
    have replayed := durable.journaled.of_replay perm durable.room opening.nodeID opening.now
    refine ⟨_, rfl, ?_, ?_⟩
    · exact replayed.records.trans durable.journaled.records.symm
    · exact replayed.kv.trans durable.journaled.kv.symm

theorem recovers (durable : Durable memory written)
    (fits : ∀ r ∈ written, FitsFrame zstd r) : Recovers zstd (frames zstd written) memory := by
  have whole := durable.recovers_torn fits scanFrames_nil
  rw [List.append_nil] at whole
  exact whole

end Durable

/-- The frame that a write appends is in the file as a whole, or is skipped. -/
theorem recovers_write {zstd : Zstd} {memory next : MemoryStore} {written : List Record}
    {r : Record} {file : Bytes} (before : Durable memory written)
    (after : Durable next (written ++ [r])) (fits : ∀ r ∈ written, FitsFrame zstd r)
    (fitsLast : FitsFrame zstd r) (keeps : frames zstd written <+: file)
    (grows : file <+: frames zstd written ++ frame zstd r) :
    Recovers zstd file memory ∨ Recovers zstd file next := by
  obtain ⟨torn, rfl⟩ := keeps
  have begins : torn <+: frame zstd r :=
    (List.prefix_append_right_inj (frames zstd written)).mp grows
  by_cases whole : torn = frame zstd r
  · right
    rw [whole, ← frames_append_singleton]
    apply after.recovers
    intro stored member
    rcases List.mem_append.mp member with earlier | last
    · exact fits stored earlier
    · rw [List.mem_singleton.mp last]
      exact fitsLast
  · left
    exact before.recovers_torn fits (scanFrames_torn fitsLast.compressed begins whole)

/-- If the process dies in the middle of a write, a compaction, a flush or the
closing of a log that flushes after every write, and that no failure of the disk has
touched, then every later opening finds the store as it was before the action, or
as the whole action leaves it. -/
theorem crash_atomic (zstd : Zstd) (log : FileLog)
    (reached : FileLog.Reached zstd (fun log action => action.Steady zstd log) [] log)
    (eager : log.flushInterval ≤ 0) (action : LogAction) (file : Bytes) (after : MemoryStore)
    (interrupted : FileLog.Interrupted zstd log action file after)
    (fits : action.Fits zstd log)
    (room : ∀ call faults, action = .write call faults →
      call.HasRoom log.memory ∧ (log.memory.write call).1.clock.HasRoom) :
    Recovers zstd file log.memory ∨ Recovers zstd file after := by
  obtain ⟨written, archive, durable⟩ := reached.durable
  have emptied := reached.flushed eager
  have onDisk : log.writer.file = frames zstd written := by
    rw [← archive.stream]
    simp [BufferedWriter.stream, FailingWriter.plain, emptied]
  have unchanged : ∀ {left : Bytes}, log.writer.file <+: left →
      left <+: log.writer.plain.stream → Recovers zstd left log.memory := by
    intro left keeps grows
    rw [onDisk] at keeps
    rw [archive.stream] at grows
    rw [grows.eq_of_length_le keeps.length_le]
    exact durable.recovers archive.fits
  cases interrupted with
  | write call faults =>
      obtain ⟨callRoom, resultRoom⟩ := room call faults rfl
      obtain ⟨keeps, grows⟩ := log.file_write zstd faults call
      rw [onDisk] at keeps
      rw [archive.stream] at grows
      have advanced : LogAction.Steady zstd log (.write call []) := by
        refine ⟨rfl, fits, ?_⟩
        rintro _ _ ⟨⟩
        exact ⟨callRoom, resultRoom⟩
      have fitsLast := (archive.write fits).fits (log.memory.write call).1 (by simp)
      exact recovers_write durable (durable.advance advanced archive (.write call []))
        archive.fits fitsLast keeps grows
  | changesSince since =>
      exact .inl (unchanged (List.prefix_refl _) (List.prefix_append ..))
  | flushTick faults =>
      left
      unfold FileLog.flushTick
      split
      next lazy => exact absurd eager (Int.not_le.mpr lazy)
      next => exact unchanged (List.prefix_refl _) (List.prefix_append ..)
  | compact now threshold faults orders =>
      rcases log.file_compact zstd orders faults rfl with ⟨keeps, grows⟩ | replaced
      · exact .inl (unchanged keeps grows)
      · right
        rw [replaced]
        have compacted := archive.compacted orders
        apply Durable.recovers _ compacted.fits
        have wellFormed := archive.coherent.wellFormed
        refine ⟨durable.journaled.compacted wellFormed orders, ?_⟩
        intro r member
        exact durable.room r (orders.mem_kept_of_mem durable.journaled wellFormed member)
  | close opening faults =>
      obtain ⟨keeps, grows⟩ := FailingWriter.file_flush { log.writer with schedule := faults }
      exact .inl (unchanged keeps grows)

/-- Five bytes of a frame reach the file. -/
theorem crash_atomic_torn_put :
    let opening : Opening := ⟨ascii ['n'], 1000, 0, 12, by decide⟩
    let incoming : Record := { Record.zero with id := ascii ['x'], clock := ⟨2000, 0⟩ }
    let log := FileLog.opened (opening.store [] opening.fresh)
    let file := (log.write .stored [some 5] (.put incoming)).2.writer.file
    file.length = 5 ∧ (Recovers .stored file log.memory ∨
      Recovers .stored file (log.memory.write (.put incoming)).2) := by
  intro opening incoming log file
  have fits : LogAction.Fits .stored log (.write (.put incoming) [some 5]) := by
    refine ⟨by decide +kernel, ?_⟩
    have small : Record.FitsStored (log.memory.write (.put incoming)).1 := by
      decide +kernel
    exact small.fitsFrame.compressed
  have room : (Write.put incoming).HasRoom log.memory ∧
      (log.memory.write (.put incoming)).1.clock.HasRoom := by
    decide +kernel
  have torn : file.length = 5 := by
    decide +kernel
  refine ⟨torn, crash_atomic .stored log (.run (.empty rfl) .start) (by decide) _ file _
    (.write (.put incoming) [some 5]) fits ?_⟩
  rintro call faults ⟨⟩
  exact room

end NellDB
