import NellDB.LogStore.Archive

namespace NellDB

open Data

/-! What a compaction that fails leaves behind. -/

/-- A step on a file system that works but for what a compaction survives, with
records that fit their frames and counters that have room. -/
structure LogAction.Steady (zstd : Zstd) (log : FileLog) (action : LogAction) : Prop where
  harmless : action.Harmless
  fits : action.Fits zstd log
  room : ∀ call faults, action = .write call faults →
    call.HasRoom log.memory ∧ (log.memory.write call).1.clock.HasRoom

/-- The memory is what the written records determine. -/
structure Durable (memory : MemoryStore) (written : List Record) : Prop where
  journaled : Journaled memory written
  room : ∀ r ∈ written, r.clock.HasRoom

theorem Journaled.getChangesSince {memory : MemoryStore} {written : List Record}
    (journaled : Journaled memory written) (since : HLC) :
    Journaled (memory.getChangesSince since).2 written where
  records := (memory.getChangesSince_records since).trans journaled.records
  kv := (memory.getChangesSince_kv since).trans journaled.kv
  clock := by
    rw [memory.getChangesSince_clock]
    exact journaled.clock
  separated := journaled.separated
  named := journaled.named

theorem CompactOrders.mem_kept_of_mem {memory : MemoryStore} {cutoff : Int64}
    {written : List Record} (journaled : Journaled memory written)
    (wellFormed : WellFormed memory) (orders : CompactOrders (memory.keep cutoff))
    {r : Record} (member : r ∈ orders.kept) : r ∈ written := by
  have found := (orders.mem_kept_iff wellFormed r).mp member
  exact (journaled.mem_of_lookup (MemoryStore.lookup_keep found)).1

theorem Journaled.compacted {memory : MemoryStore} {written : List Record}
    (journaled : Journaled memory written) (wellFormed : WellFormed memory) {cutoff : Int64}
    (orders : CompactOrders (memory.keep cutoff)) :
    Journaled (memory.compacted orders) orders.kept where
  records := by
    refine (Champion.enterAll_eq_of_entries ?_ (orders.mem_kept_iff wellFormed)).symm
    exact fun found => wellFormed.keyed (MemoryStore.lookup_keep found)
  kv := by
    rw [memory.compacted_kv]
    apply Watermark.raiseAll_congr
    intro report
    rw [CompactOrders.kept, List.map_map, List.mem_map, List.mem_map]
    constructor
    · rintro ⟨⟨position, r⟩, visited, rfl⟩
      have found := (orders.vector.complete position r).mp visited
      exact ⟨(position, r), (orders.frames.complete position r).mpr found, rfl⟩
    · rintro ⟨⟨position, r⟩, visited, rfl⟩
      have found := (orders.frames.complete position r).mp visited
      exact ⟨(position, r), (orders.vector.complete position r).mpr found, rfl⟩
  clock r member := journaled.clock r (orders.mem_kept_of_mem journaled wellFormed member)
  separated first second left right :=
    journaled.separated first second (orders.mem_kept_of_mem journaled wellFormed left)
      (orders.mem_kept_of_mem journaled wellFormed right)
  named := orders.kept_named wellFormed

theorem Durable.advance {zstd : Zstd} {log : FileLog} {written : List Record}
    {action : LogAction} {next : MemoryStore} {later : List Record}
    (steady : action.Steady zstd log) (archive : Archive zstd log written)
    (durable : Durable log.memory written)
    (advance : Advance log.memory written action next later) : Durable next later := by
  cases advance with
  | same => exact durable
  | write call faults =>
      obtain ⟨callRoom, resultRoom⟩ := steady.room call faults rfl
      refine ⟨durable.journaled.write callRoom, ?_⟩
      intro r member
      rcases List.mem_append.mp member with earlier | last
      · exact durable.room r earlier
      · rw [List.mem_singleton.mp last]
        exact resultRoom
  | changesSince since => exact ⟨durable.journaled.getChangesSince since, durable.room⟩
  | compacted faults orders =>
      have wellFormed := archive.coherent.wellFormed
      refine ⟨durable.journaled.compacted wellFormed orders, ?_⟩
      intro r member
      exact durable.room r (orders.mem_kept_of_mem durable.journaled wellFormed member)
  | replayed opening faults perm =>
      exact ⟨durable.journaled.of_replay perm durable.room _ _, durable.room⟩

theorem FileLog.Reached.durable {zstd : Zstd} {log : FileLog}
    (reached : FileLog.Reached zstd (fun log action => action.Steady zstd log) [] log) :
    ∃ written, Archive zstd log written ∧ Durable log.memory written :=
  Archive.run (fun steady => ⟨steady.harmless, steady.fits⟩)
    (fun opening => ⟨journaled_newMemoryStore opening.nodeID opening.now, by simp⟩)
    (fun steady archive durable advance => Durable.advance steady archive durable advance)
    reached

/-! One file operation of a compaction fails. -/

inductive FailingCall where
  | flush (count : Nat)
  | create
  | write (index count : Nat)
  | close
  | rename
  | reopen
  deriving DecidableEq, Repr

namespace FailingCall

def faults : FailingCall → CompactFaults
  | flush count => { CompactFaults.none with flush := [some count] }
  | create => { CompactFaults.none with create := true }
  | write index count =>
      { CompactFaults.none with temp := List.replicate index none ++ [some count] }
  | close => .none
  | rename => { CompactFaults.none with rename := true }
  | reopen => { CompactFaults.none with reopen := true }

/-- Neither the flush of the old log nor the opening of the new one fails. -/
def Survivable (call : FailingCall) : Prop :=
  (∀ count, call ≠ flush count) ∧ call ≠ reopen

theorem Survivable.harmless {call : FailingCall} (survivable : call.Survivable) :
    call.faults.Harmless := by
  cases call with
  | flush count => exact absurd rfl (survivable.1 count)
  | create => exact ⟨rfl, rfl⟩
  | write index count => exact ⟨rfl, rfl⟩
  | close => exact ⟨rfl, rfl⟩
  | rename => exact ⟨rfl, rfl⟩
  | reopen => exact absurd rfl survivable.2

end FailingCall

/-- The memory is as before, every `OpenLog` on the file recovers what the
compaction would have kept, and a put on the working file system succeeds and
adds its frame to the file, at once or with the next flush. -/
structure Usable (zstd : Zstd) (cutoff : Int64) (before after : FileLog) : Prop where
  memory : after.memory = before.memory
  opens : ∀ opening, ∃ outcome, OpenLog zstd opening after.writer.file outcome
  recovers : ∀ opening outcome, OpenLog zstd opening after.writer.file outcome →
    ∃ ls, outcome = .ok ls ∧ ∀ position r, before.memory.records.lookup position = some r →
      r.expired cutoff = false → ls.memory.records.lookup position = some r
  appends : ∀ incoming, ∃ accepted winner next flushed,
    after.put zstd [] incoming = (accepted, winner, none, next) ∧
      next.writer.flush = (true, flushed) ∧
      flushed.file = after.writer.file ++ frame zstd winner

theorem file_writeFrame_unusable (zstd : Zstd) {w : FailingWriter Byte}
    (shut : w.handle ≠ .usable) (r : Record) :
    (writeFrame zstd w r).2.file = w.file ∧ (writeFrame zstd w r).2.handle ≠ .usable := by
  have header := FailingWriter.file_write_unusable shut
    (bigEndian 4 r.marshalBinary.length ++
      bigEndian 4 (zstd.encodeAll r.marshalBinary).length)
  unfold writeFrame
  dsimp only
  split
  next done =>
      rw [done] at header
      exact header
  next done =>
      rw [done] at header
      have body := FailingWriter.file_write_unusable header.2
        (zstd.encodeAll r.marshalBinary)
      split
      next doneToo =>
          rw [doneToo] at body
          exact ⟨body.1.trans header.1, body.2⟩
      next doneToo =>
          rw [doneToo] at body
          exact ⟨body.1.trans header.1, body.2⟩

namespace FileLog

/-! The put that follows. -/

theorem put_of_working (zstd : Zstd) {log : FileLog} (working : log.writer.Working)
    (emptied : log.writer.buffer = []) (incoming : Record) :
    ∃ accepted winner next flushed,
      log.put zstd [] incoming = (accepted, winner, none, next) ∧
        next.writer.flush = (true, flushed) ∧
        flushed.file = log.writer.file ++ frame zstd winner := by
  obtain ⟨writer, appended, stillWorking, clear, stream⟩ := @append_clear zstd
    { log with memory := (log.memory.put incoming).2.2 } working (log.memory.put incoming).2.1
  obtain ⟨flushed, done, _⟩ := FailingWriter.flush_clear stillWorking clear
  have file := congrArg BufferedWriter.file (FailingWriter.flush_ok done).1
  rw [BufferedWriter.file_flush, stream] at file
  refine ⟨(log.memory.put incoming).1, (log.memory.put incoming).2.1,
    { log with memory := (log.memory.put incoming).2.2, writer }, flushed, ?_, done, ?_⟩
  · unfold put
    dsimp only
    rw [appended]
  · rw [show flushed.file = _ from file]
    simp [BufferedWriter.stream, FailingWriter.plain, emptied]

theorem append_failed (zstd : Zstd) {log : FileLog} (failed : log.writer.failed = true)
    (faults : List (Option Nat)) (r : Record) :
    (log.append zstd faults r).1 = some .header := by
  have stuck : FailingWriter.failed { log.writer with schedule := faults } = true := failed
  unfold append writeFrame
  dsimp only
  rw [FailingWriter.write_failed stuck]

theorem file_append_unusable (zstd : Zstd) {log : FileLog}
    (shut : log.writer.handle ≠ .usable) (faults : List (Option Nat)) (r : Record) :
    (log.append zstd faults r).2.writer.file = log.writer.file ∧
      (log.append zstd faults r).2.writer.handle ≠ .usable := by
  have kept := file_writeFrame_unusable zstd (w := { log.writer with schedule := faults }) shut r
  unfold append
  split
  next framed =>
      rw [framed] at kept
      exact kept
  next framed =>
      rw [framed] at kept
      split
      next =>
          have flushed := FailingWriter.file_flush_unusable kept.2
          split
          next done =>
              rw [done] at flushed
              exact ⟨flushed.1.trans kept.1, flushed.2⟩
          next done =>
              rw [done] at flushed
              exact ⟨flushed.1.trans kept.1, flushed.2⟩
      next => exact kept

end FileLog

theorem writeFrames_clear (zstd : Zstd) {w : FailingWriter Byte} (working : w.Working)
    (clear : w.schedule = []) (records : List Record) :
    ∃ next, writeFrames zstd w records = (none, next) ∧ next.Working ∧
      next.schedule = [] := by
  induction records generalizing w with
  | nil => exact ⟨w, rfl, working, clear⟩
  | cons r rest ih =>
      obtain ⟨first, done, stillClear⟩ := writeFrame_clear zstd working clear r
      obtain ⟨_, intact, handle⟩ := writeFrame_ok done
      unfold writeFrames
      rw [done]
      exact ih (working.of_ok intact handle) stillClear

theorem writeTemp_clear (zstd : Zstd) (kept : List Record) :
    ∃ temp, writeTemp zstd [] kept = .ok temp := by
  obtain ⟨written, done, working, clear⟩ :=
    writeFrames_clear zstd (FailingWriter.working_onto [] []) rfl kept
  obtain ⟨flushed, flushDone, _⟩ := FailingWriter.flush_clear working clear
  unfold writeTemp
  rw [done]
  dsimp only
  rw [flushDone]
  exact ⟨flushed.file, rfl⟩

section Compaction

variable {zstd : Zstd} {log next : FileLog} {now threshold : Int64}
variable {orders : CompactOrders (log.memory.keep (now - milliseconds threshold))}

theorem usable_of_survivable {written : List Record} (archive : Archive zstd log written)
    (durable : Durable log.memory written) {call : FailingCall}
    (survivable : call.Survivable) {failure : CompactError}
    (failed : log.compact zstd now threshold orders call.faults = (.error failure, next)) :
    Usable zstd (now - milliseconds threshold) log next := by
  rcases FileLog.compact_harmless zstd archive.working orders survivable.harmless with
    ⟨_, writer, result, working, plain⟩ | result
  · rw [result] at failed
    cases failed
    have file : writer.file = frames zstd written := by
      rw [← archive.stream, ← BufferedWriter.file_flush, ← plain]
      rfl
    have emptied : writer.buffer = [] := congrArg BufferedWriter.buffer plain
    obtain ⟨opens, outcomes⟩ : (∀ opening, ∃ outcome, OpenLog zstd opening writer.file outcome) ∧
        ∀ opening outcome, OpenLog zstd opening writer.file outcome →
          ∃ merged, merged.Perm written ∧ outcome = .ok
            (opening.store writer.file (mergeAll opening.fresh merged)) := by
      rw [file]
      exact ⟨fun opening => (openLog_frames archive.fits opening).1,
        fun opening => (openLog_frames archive.fits opening).2⟩
    refine ⟨rfl, opens, ?_, FileLog.put_of_working zstd working emptied⟩
    intro opening outcome reads
    obtain ⟨merged, perm, rfl⟩ := outcomes opening outcome reads
    have replayed := durable.journaled.of_replay perm durable.room opening.nodeID opening.now
    refine ⟨_, rfl, ?_⟩
    intro position r found _
    rw [durable.journaled.records, ← replayed.records] at found
    exact found
  · rw [result] at failed
    cases failed

theorem not_usable_of_failed {after : FileLog} (failed : after.writer.failed = true)
    (cutoff : Int64) (before : FileLog) : ¬ Usable zstd cutoff before after := by
  intro usable
  obtain ⟨accepted, winner, last, flushed, answered, _⟩ := usable.appends Record.zero
  have refused := @FileLog.append_failed zstd
    { after with memory := (after.memory.put Record.zero).2.2 } failed []
    (after.memory.put Record.zero).2.1
  have error : (after.put zstd [] Record.zero).2.2.1 = some .header := refused
  rw [answered] at error
  contradiction

theorem not_usable_of_unusable {after : FileLog} (shut : after.writer.handle ≠ .usable)
    (cutoff : Int64) (before : FileLog) : ¬ Usable zstd cutoff before after := by
  intro usable
  obtain ⟨accepted, winner, last, flushed, answered, done, file⟩ :=
    usable.appends Record.zero
  have kept := @FileLog.file_append_unusable zstd
    { after with memory := (after.memory.put Record.zero).2.2 } shut []
    (after.memory.put Record.zero).2.1
  have same : (after.put zstd [] Record.zero).2.2.2.writer.file = after.writer.file ∧
      (after.put zstd [] Record.zero).2.2.2.writer.handle ≠ .usable := kept
  rw [answered] at same
  have stays := (FailingWriter.file_flush_unusable same.2).1
  rw [done] at stays
  have longer := congrArg List.length (file.symm.trans (stays.trans same.1))
  rw [List.length_append, length_frame] at longer
  omega

/-- With the flush done and no other failure scheduled, a compaction gets as far
as the replacement of the file. -/
theorem compact_of_flushed {faults : CompactFaults} {flushed : FailingWriter Byte}
    (done : FailingWriter.flush { log.writer with schedule := faults.flush } =
      (true, flushed)) (usable : flushed.handle = .usable) (noCreate : faults.create = false)
    (noTemp : faults.temp = []) :
    ∃ temp, log.compact zstd now threshold orders faults =
      FileLog.replaceFile zstd { log with writer := flushed } now threshold orders faults
        temp := by
  obtain ⟨temp, written⟩ := writeTemp_clear zstd (orders.frames.order.map Prod.snd)
  refine ⟨temp, ?_⟩
  unfold FileLog.compact
  rw [done]
  dsimp only
  rw [if_neg (by rw [usable]; decide), if_neg (by rw [noCreate]; decide), noTemp, written]

theorem not_usable_of_flush (working : log.writer.Working) {count : Nat}
    {failure : CompactError}
    (failed : log.compact zstd now threshold orders (FailingCall.flush count).faults =
      (.error failure, next)) (cutoff : Int64) : ¬ Usable zstd cutoff log next := by
  cases result : FailingWriter.flush
      { log.writer with schedule := (FailingCall.flush count).faults.flush } with
  | mk succeeded flushed =>
      cases succeeded with
      | false =>
          unfold FileLog.compact at failed
          rw [result] at failed
          cases failed
          exact not_usable_of_failed (FailingWriter.failed_of_flush result) cutoff log
      | true =>
          -- there was nothing to flush, and nothing else fails
          have handle := (FailingWriter.flush_ok result).2.2.2.trans working.usable
          obtain ⟨temp, replaced⟩ := @compact_of_flushed zstd log now threshold orders
            _ _ result handle rfl rfl
          rw [replaced] at failed
          cases failed

theorem not_usable_of_reopen (working : log.writer.Working) {failure : CompactError}
    (failed : log.compact zstd now threshold orders FailingCall.reopen.faults =
      (.error failure, next)) (cutoff : Int64) : ¬ Usable zstd cutoff log next := by
  obtain ⟨flushed, done, _⟩ := FailingWriter.flush_clear (working.schedule []) rfl
  have handle := (FailingWriter.flush_ok done).2.2.2.trans working.usable
  obtain ⟨temp, replaced⟩ := @compact_of_flushed zstd log now threshold orders
    FailingCall.reopen.faults _ done handle rfl rfl
  rw [replaced] at failed
  cases failed
  have shut : Handle.closed ≠ .usable := by decide
  exact not_usable_of_unusable shut cutoff log

end Compaction

/-- In a run on a file system that worked so far, a compaction that one failing
call stops leaves a usable log exactly when that call is neither the flush of
the old log nor the opening of the new one. -/
theorem failed_compaction_usable_iff (zstd : Zstd) (log : FileLog)
    (reached : FileLog.Reached zstd (fun log action => action.Steady zstd log) [] log)
    (now threshold : Int64)
    (orders : CompactOrders (log.memory.keep (now - milliseconds threshold)))
    (call : FailingCall) (failure : CompactError) (next : FileLog)
    (failed : log.compact zstd now threshold orders call.faults = (.error failure, next)) :
    Usable zstd (now - milliseconds threshold) log next ↔ call.Survivable := by
  obtain ⟨written, archive, durable⟩ := reached.durable
  constructor
  · intro usable
    refine ⟨?_, ?_⟩
    · rintro count rfl
      exact not_usable_of_flush archive.working failed _ usable
    · rintro rfl
      exact not_usable_of_reopen archive.working failed _ usable
  · intro survivable
    exact usable_of_survivable archive durable survivable failed

/-- The rename fails. -/
theorem failed_compaction_usable_iff_rename :
    let opening : Opening := ⟨ascii ['n'], 1000, 0, 12, by decide⟩
    let incoming : Record := { Record.zero with id := ascii ['x'], clock := ⟨2000, 0⟩ }
    let start := FileLog.opened (opening.store [] opening.fresh)
    let log := (start.write .stored [] (.put incoming)).2
    let orders : CompactOrders (log.memory.keep (9000 - milliseconds 0)) :=
      ⟨.sorted _, .sorted _, .sorted _⟩
    ∃ next, log.compact .stored 9000 0 orders FailingCall.rename.faults =
        (.error .rename, next) ∧
      Usable .stored (9000 - milliseconds 0) log next := by
  intro opening incoming start log orders
  have fits : LogAction.Fits .stored start (.write (.put incoming) []) := by
    refine ⟨by decide +kernel, ?_⟩
    have small : Record.FitsStored (start.memory.write (.put incoming)).1 := by
      decide +kernel
    exact small.fitsFrame.compressed
  have steady : LogAction.Steady .stored start (.write (.put incoming) []) := by
    refine ⟨rfl, fits, ?_⟩
    rintro call faults same
    cases same
    decide +kernel
  have reached : FileLog.Reached .stored (fun log action => action.Steady .stored log) []
      log :=
    .run (.empty rfl) (.step .start steady (.write (.put incoming) []))
  have failed : (log.compact .stored 9000 0 orders FailingCall.rename.faults).1 =
      .error .rename := by
    decide +kernel
  have survivable : FailingCall.rename.Survivable := by
    refine ⟨?_, by decide⟩
    rintro count ⟨⟩
  clear_value orders log
  obtain ⟨next, done⟩ : ∃ next, log.compact .stored 9000 0 orders FailingCall.rename.faults =
      (.error .rename, next) :=
    ⟨_, by rw [← failed]⟩
  exact ⟨next, done, (failed_compaction_usable_iff .stored log reached 9000 0 orders .rename
    .rename next done).mpr survivable⟩

/-- The new log cannot be opened.  The next put fails, although the file system
works again. -/
theorem failed_compaction_unusable :
    let opening : Opening := ⟨ascii ['n'], 1000, 0, 12, by decide⟩
    let incoming : Record := { Record.zero with id := ascii ['x'], clock := ⟨2000, 0⟩ }
    let start := FileLog.opened (opening.store [] opening.fresh)
    let log := (start.write .stored [] (.put incoming)).2
    let orders : CompactOrders (log.memory.keep (9000 - milliseconds 0)) :=
      ⟨.sorted _, .sorted _, .sorted _⟩
    let result := log.compact .stored 9000 0 orders FailingCall.reopen.faults
    result.1 = .error .reopen ∧
      (result.2.put .stored [] incoming).2.2.1 = some .flush := by
  decide +kernel

end NellDB
