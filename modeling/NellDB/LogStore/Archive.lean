import NellDB.LogStore.Compaction

namespace NellDB

open Data

/-! What a log does while the file system works, or fails in a way that a
compaction survives. -/

/-- At most the calls fail that come before the old handle is given up. -/
def CompactFaults.Harmless (faults : CompactFaults) : Prop :=
  faults.flush = [] ∧ faults.reopen = false

def LogAction.Harmless : LogAction → Prop
  | .write _ faults => faults = []
  | .changesSince _ => True
  | .flushTick faults => faults = []
  | .compact _ _ faults => faults.Harmless
  | .reopen _ faults => faults = []

/-- The file, with what is still buffered, is the frames of the written
records, and every stored record is among them. -/
structure Archive (zstd : Zstd) (log : FileLog) (written : List Record) : Prop where
  coherent : Coherent log.memory
  working : log.writer.Working
  stream : log.writer.plain.stream = frames zstd written
  fits : ∀ r ∈ written, FitsFrame zstd r
  named : ∀ r ∈ written, r.collection ≠ []
  stored : ∀ {position r}, log.memory.records.lookup position = some r → r ∈ written

/-- What an action does to the memory and to the written records. -/
inductive Advance (memory : MemoryStore) (written : List Record) :
    LogAction → MemoryStore → List Record → Prop
  | same (action : LogAction) : Advance memory written action memory written
  | write (call : Write) (faults : List (Option Nat)) :
      Advance memory written (.write call faults) (memory.write call).2
        (written ++ [(memory.write call).1])
  | changesSince (since : HLC) :
      Advance memory written (.changesSince since) (memory.getChangesSince since).2 written
  | compacted {now threshold : Int64} (faults : CompactFaults)
      (orders : CompactOrders (memory.keep (now - milliseconds threshold))) :
      Advance memory written (.compact now threshold faults) (memory.compacted orders)
        orders.kept
  | replayed (opening : Opening) (faults : List (Option Nat)) {merged : List Record}
      (perm : merged.Perm written) :
      Advance memory written (.reopen opening faults) (mergeAll opening.fresh merged) written

theorem frames_append_singleton (zstd : Zstd) (written : List Record) (r : Record) :
    frames zstd (written ++ [r]) = frames zstd written ++ frame zstd r := by
  simp [frames]

theorem writeFrame_clear (zstd : Zstd) {w : FailingWriter Byte} (working : w.Working)
    (clear : w.schedule = []) (r : Record) :
    ∃ next, writeFrame zstd w r = (none, next) ∧ next.schedule = [] := by
  unfold writeFrame
  dsimp only
  obtain ⟨first, done, stillClear⟩ := FailingWriter.write_clear working clear
    (bigEndian 4 r.marshalBinary.length ++
      bigEndian 4 (zstd.encodeAll r.marshalBinary).length)
  obtain ⟨_, _, intact, handle⟩ := FailingWriter.write_ok done
  obtain ⟨second, doneToo, clearToo⟩ := FailingWriter.write_clear
    (working.of_ok intact handle) stillClear (zstd.encodeAll r.marshalBinary)
  rw [done]
  dsimp only
  rw [doneToo]
  exact ⟨second, rfl, clearToo⟩

namespace FileLog

/-- An append that nothing disturbs. -/
theorem append_clear (zstd : Zstd) {log : FileLog} (working : log.writer.Working)
    (r : Record) :
    ∃ writer, log.append zstd [] r = (none, { log with writer }) ∧ writer.Working ∧
      writer.schedule = [] ∧ writer.plain.stream = log.writer.plain.stream ++ frame zstd r := by
  obtain ⟨writer, done, clear⟩ : ∃ writer, log.append zstd [] r = (none, { log with writer }) ∧
      writer.schedule = [] := by
    obtain ⟨framed, frameDone, clear⟩ := writeFrame_clear zstd (working.schedule []) rfl r
    obtain ⟨_, intact, handle⟩ := writeFrame_ok frameDone
    unfold append
    rw [frameDone]
    dsimp only
    split
    next =>
        obtain ⟨flushed, flushDone, stillClear⟩ :=
          FailingWriter.flush_clear ((working.schedule []).of_ok intact handle) clear
        rw [flushDone]
        exact ⟨flushed, rfl, stillClear⟩
    next => exact ⟨framed, rfl, clear⟩
  obtain ⟨store, intact, handle⟩ := append_ok done
  refine ⟨writer, done, working.of_ok intact handle, clear, ?_⟩
  have stream := LogStore.append_stream zstd log.store r
  rw [← store] at stream
  exact stream

theorem write_clear (zstd : Zstd) {log : FileLog} (working : log.writer.Working)
    (call : Write) :
    ∃ writer, log.write zstd [] call =
        (none, { log with memory := (log.memory.write call).2, writer }) ∧
      writer.Working ∧ writer.schedule = [] ∧ writer.plain.stream =
        log.writer.plain.stream ++ frame zstd (log.memory.write call).1 := by
  cases call with
  | put incoming =>
      exact @append_clear zstd { log with memory := (log.memory.put incoming).2.2 } working _
  | putLocal document now =>
      exact @append_clear zstd { log with memory := (log.memory.putLocal document now).2 }
        working _
  | delete collection id now =>
      exact @append_clear zstd { log with memory := (log.memory.delete collection id now).2 }
        working _

theorem flushTick_clear {log : FileLog} (working : log.writer.Working) :
    (log.flushTick []).writer.Working ∧
      (log.flushTick []).writer.plain.stream = log.writer.plain.stream := by
  unfold flushTick
  split
  next =>
      obtain ⟨flushed, done, _⟩ := FailingWriter.flush_clear (working.schedule []) rfl
      obtain ⟨plain, _, intact, handle⟩ := FailingWriter.flush_ok done
      rw [done]
      refine ⟨(working.schedule []).of_ok intact handle, ?_⟩
      dsimp only
      rw [plain, BufferedWriter.stream_flush]
      rfl
  next => exact ⟨working, rfl⟩

theorem close_clear {log : FileLog} (working : log.writer.Working) :
    log.close [] = log.writer.plain.stream := by
  obtain ⟨flushed, done, _⟩ := FailingWriter.flush_clear (working.schedule []) rfl
  have file := congrArg BufferedWriter.file (FailingWriter.flush_ok done).1
  rw [BufferedWriter.file_flush] at file
  unfold close
  rw [done]
  exact file

/-- A compaction that fails before the old handle is given up, or gets it back,
has flushed the writer and done nothing else. -/
theorem compact_harmless (zstd : Zstd) {log : FileLog} (working : log.writer.Working)
    {now threshold : Int64}
    (orders : CompactOrders (log.memory.keep (now - milliseconds threshold)))
    {faults : CompactFaults} (harmless : faults.Harmless) :
    (∃ failure writer,
      log.compact zstd now threshold orders faults = (.error failure, { log with writer }) ∧
        writer.Working ∧ writer.plain = log.writer.plain.flush) ∨
    log.compact zstd now threshold orders faults = (.ok orders.frames.order.length, { log with
      writer := .onto (frames zstd orders.kept) []
      memory := log.memory.compacted orders }) := by
  obtain ⟨noFlush, noReopen⟩ := harmless
  obtain ⟨flushed, done, _⟩ := FailingWriter.flush_clear (working.schedule faults.flush) noFlush
  obtain ⟨plain, _, intact, handle⟩ := FailingWriter.flush_ok done
  have flushedWorking := (working.schedule faults.flush).of_ok intact handle
  have present : flushed.handle ≠ .missing := by
    rw [flushedWorking.usable]
    decide
  unfold compact
  rw [done]
  dsimp only
  rw [if_neg present]
  split
  next => exact .inl ⟨.create, flushed, rfl, flushedWorking, plain⟩
  next =>
      split
      next failure _ => exact .inl ⟨.temp failure, flushed, rfl, flushedWorking, plain⟩
      next temp written =>
          rw [writeTemp_ok written]
          unfold replaceFile
          rw [noReopen]
          split
          next =>
              refine .inl ⟨.rename, .onto flushed.file [], rfl, FailingWriter.working_onto _ _, ?_⟩
              exact congrArg (BufferedWriter.mk · []) (congrArg BufferedWriter.file plain)
          next => exact .inr rfl

end FileLog

/-- The record that a write appends fits its frame. -/
def LogAction.Fits (zstd : Zstd) (log : FileLog) : LogAction → Prop
  | .write call _ => call.FitsBinary log.memory.nodeID ∧
      (zstd.encodeAll (log.memory.write call).1.marshalBinary).length < 2 ^ 32
  | _ => True

namespace Archive

variable {zstd : Zstd} {log next : FileLog} {written : List Record}

/-- Only the writer has changed. -/
theorem rewritten (archive : Archive zstd log written) {writer : FailingWriter Byte}
    (working : writer.Working) (stream : writer.plain.stream = log.writer.plain.stream) :
    Archive zstd { log with writer } written :=
  ⟨archive.coherent, working, stream.trans archive.stream, archive.fits, archive.named,
    archive.stored⟩

theorem write (archive : Archive zstd log written) {call : Write}
    (fits : LogAction.Fits zstd log (.write call [])) :
    Archive zstd (log.write zstd [] call).2 (written ++ [(log.memory.write call).1]) := by
  have coherent := archive.coherent.write call
  obtain ⟨writer, done, working, _, stream⟩ := FileLog.write_clear zstd archive.working call
  rw [done]
  have storedFit : StoredFit log.memory := fun position stored found =>
    (archive.fits stored (archive.stored found)).binary
  have held : (log.memory.write call).2.records.lookup call.key =
      some (log.memory.write call).1 := by
    rw [log.memory.write_records, Finmap.lookup_insert]
  refine ⟨coherent, working, ?_, ?_, ?_, ?_⟩
  · rw [stream, archive.stream, frames_append_singleton]
  · intro r member
    rcases List.mem_append.mp member with earlier | last
    · exact archive.fits r earlier
    · rw [List.mem_singleton.mp last]
      exact ⟨write_fits storedFit fits.1, fits.2⟩
  · intro r member
    rcases List.mem_append.mp member with earlier | last
    · exact archive.named r earlier
    · rw [List.mem_singleton.mp last]
      exact coherent.wellFormed.named held
  · intro position r found
    rcases MemoryStore.lookup_write_source found with ⟨_, rfl⟩ | before
    · exact List.mem_append_right _ (List.mem_singleton_self _)
    · exact List.mem_append_left _ (archive.stored before)

theorem compacted (archive : Archive zstd log written) {cutoff : Int64}
    (orders : CompactOrders (log.memory.keep cutoff)) :
    Archive zstd { log with
      writer := .onto (frames zstd orders.kept) []
      memory := log.memory.compacted orders } orders.kept where
  coherent := archive.coherent.compacted orders
  working := FailingWriter.working_onto _ _
  stream := List.append_nil _
  fits r member := by
    have found := (orders.mem_kept_iff archive.coherent.wellFormed r).mp member
    exact archive.fits r (archive.stored (MemoryStore.lookup_keep found))
  named := orders.kept_named archive.coherent.wellFormed
  stored {position r} found := by
    have placed := archive.coherent.wellFormed.keyed (MemoryStore.lookup_keep found)
    rw [orders.mem_kept_iff archive.coherent.wellFormed, placed]
    exact found

/-- A log of frames that was just opened. -/
theorem opened {records merged : List Record} (fits : ∀ r ∈ records, FitsFrame zstd r)
    (named : ∀ r ∈ records, r.collection ≠ []) (perm : merged.Perm records)
    (opening : Opening) :
    Archive zstd (.opened (opening.store (frames zstd records)
      (mergeAll opening.fresh merged))) records where
  coherent := (coherent_newMemoryStore opening.nodeID opening.now).mergeAll rfl merged
  working := FailingWriter.working_onto _ _
  stream := List.append_nil _
  fits := fits
  named := named
  stored {position r} found := by
    have mergedNamed : ∀ r ∈ merged, r.collection ≠ [] := fun r member =>
      named r (perm.mem_iff.mp member)
    change (mergeAll opening.fresh merged).records.lookup position = some r at found
    rw [mergeAll_records, map_defaulted_of_named mergedNamed] at found
    exact perm.mem_iff.mp (Champion.isChampion_enterAll found).member

theorem step (archive : Archive zstd log written) {action : LogAction}
    (harmless : action.Harmless) (fits : action.Fits zstd log)
    (step : FileLog.Step zstd log action next) :
    ∃ later, Archive zstd next later ∧ Advance log.memory written action next.memory later := by
  cases step with
  | write call faults =>
      cases harmless
      refine ⟨_, archive.write fits, ?_⟩
      rw [FileLog.write_memory]
      exact .write call []
  | changesSince since =>
      refine ⟨written, ⟨archive.coherent.getChangesSince since, archive.working,
        archive.stream, archive.fits, archive.named, ?_⟩, .changesSince since⟩
      intro position r found
      rw [show (log.getChangesSince since).2.memory.records = _ from
        log.memory.getChangesSince_records since] at found
      exact archive.stored found
  | flushTick faults =>
      cases harmless
      obtain ⟨working, stream⟩ := FileLog.flushTick_clear archive.working
      refine ⟨written, ⟨?_, working, stream.trans archive.stream, archive.fits,
        archive.named, ?_⟩, ?_⟩
      all_goals rw [FileLog.flushTick_memory]
      · exact archive.coherent
      · exact archive.stored
      · exact .same _
  | compact now threshold faults orders =>
      rcases FileLog.compact_harmless zstd archive.working orders harmless with
        ⟨failure, writer, result, working, plain⟩ | result
      · rw [result]
        refine ⟨written, archive.rewritten working ?_, .same _⟩
        rw [plain, BufferedWriter.stream_flush]
      · rw [result]
        exact ⟨_, archive.compacted orders, .compacted faults orders⟩
  | reopen opening faults reads =>
      cases harmless
      rw [FileLog.close_clear archive.working, archive.stream] at reads
      obtain ⟨merged, perm, opened⟩ := (openLog_frames archive.fits opening).2 _ reads
      cases opened
      exact ⟨written, .opened archive.fits archive.named perm opening,
        .replayed opening [] perm⟩

/-- What every harmless step keeps of the memory and the written records holds
in every state of a log that was opened on an empty file. -/
theorem run {allowed : FileLog → LogAction → Prop}
    {invariant : MemoryStore → List Record → Prop}
    (harmless : ∀ {log action}, allowed log action → action.Harmless ∧ action.Fits zstd log)
    (initial : ∀ opening : Opening, invariant opening.fresh [])
    (kept : ∀ {log : FileLog} {written action next later}, allowed log action →
      Archive zstd log written → invariant log.memory written →
      Advance log.memory written action next later → invariant next later)
    (reached : FileLog.Reached zstd allowed [] log) :
    ∃ written, Archive zstd log written ∧ invariant log.memory written := by
  obtain ⟨reads, run⟩ := reached
  induction run with
  | start =>
      rw [openLog_nil reads]
      exact ⟨[], .opened (by simp) (by simp) (List.Perm.refl []) _, initial _⟩
  | step _ permitted taken ih =>
      obtain ⟨written, archive, holds⟩ := ih
      obtain ⟨isHarmless, fits⟩ := harmless permitted
      obtain ⟨later, archived, advance⟩ := archive.step isHarmless fits taken
      exact ⟨later, archived, kept permitted archive holds advance⟩

end Archive

end NellDB
