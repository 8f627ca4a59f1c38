import NellDB.LogStore.Crash

namespace NellDB

open Data

/-! What is in the file of a log that flushes after every write, while the disk
may fail at any time.  After the first failure the file stays as it is. -/

namespace FileLog

variable {zstd : Zstd} {log next : FileLog}

theorem append_of_failed (zstd : Zstd) (failed : log.writer.failed = true)
    (faults : List (Option Nat)) (r : Record) :
    log.append zstd faults r =
      (some .header, { log with writer := { log.writer with schedule := faults } }) := by
  have stuck : FailingWriter.failed { log.writer with schedule := faults } = true := failed
  unfold append writeFrame
  dsimp only
  rw [FailingWriter.write_failed stuck]

theorem failed_of_append {faults : List (Option Nat)} {r : Record} {failure : WriteError}
    (refused : log.append zstd faults r = (some failure, next)) :
    next.writer.failed = true := by
  unfold append at refused
  split at refused
  next framed =>
      cases refused
      unfold writeFrame at framed
      dsimp only at framed
      split at framed
      next header =>
          cases framed
          exact FailingWriter.failed_of_write header
      next =>
          split at framed
          next body =>
              cases framed
              exact FailingWriter.failed_of_write body
          next => simp at framed
  next =>
      split at refused
      next =>
          split at refused
          next flushed =>
              cases refused
              exact FailingWriter.failed_of_flush flushed
          next => simp at refused
      next => simp at refused

theorem append_flushInterval (zstd : Zstd) (log : FileLog) (faults : List (Option Nat))
    (r : Record) : (log.append zstd faults r).2.flushInterval = log.flushInterval := by
  unfold append
  split
  next => rfl
  next =>
      split
      next => split <;> rfl
      next => rfl

theorem put_memory (zstd : Zstd) (log : FileLog) (faults : List (Option Nat))
    (incoming : Record) :
    (log.put zstd faults incoming).2.2.2.memory = log.memory.afterPut incoming :=
  append_memory zstd _ faults _

theorem compact_of_failed (failed : log.writer.failed = true) {now threshold : Int64}
    (orders : CompactOrders (log.memory.keep (now - milliseconds threshold)))
    (faults : CompactFaults) :
    log.compact zstd now threshold orders faults = (.error .flush,
      { log with writer := { log.writer with schedule := faults.flush } }) := by
  have stuck : FailingWriter.failed { log.writer with schedule := faults.flush } = true :=
    failed
  unfold compact
  rw [FailingWriter.flush_failed stuck]

end FileLog

/-- Behind the frames of the written records there is at most a torn one, and
then no further write succeeds. -/
inductive Backs (zstd : Zstd) (written : List Record) (w : FailingWriter Byte) : Prop
  | whole (file : w.file = frames zstd written) (emptied : w.buffer = [])
  | torn (torn : Bytes) (file : w.file = frames zstd written ++ torn)
      (stops : ∀ fuel offset, scanFrames fuel offset torn = []) (failed : w.failed = true)

structure Backed (zstd : Zstd) (log : FileLog) (written : List Record) : Prop where
  eager : log.flushInterval ≤ 0
  coherent : Coherent log.memory
  stored : ∀ {position r}, log.memory.records.lookup position = some r → FitsFrame zstd r
  fits : ∀ r ∈ written, FitsFrame zstd r
  named : ∀ r ∈ written, r.collection ≠ []
  backs : Backs zstd written log.writer

namespace Backs

variable {zstd : Zstd} {written : List Record} {w : FailingWriter Byte}

theorem schedule (backs : Backs zstd written w) (schedule : List (Option Nat)) :
    Backs zstd written { w with schedule } := by
  cases backs with
  | whole file emptied => exact .whole file emptied
  | torn torn file stops failed => exact .torn torn file stops failed

theorem intact (backs : Backs zstd written w) (working : w.failed = false) :
    w.file = frames zstd written ∧ w.buffer = [] := by
  cases backs with
  | whole file emptied => exact ⟨file, emptied⟩
  | torn torn file stops failed => rw [working] at failed; contradiction

/-- What an append leaves that starts behind whole frames and fails. -/
theorem of_between {next : FailingWriter Byte} {r : Record} (fits : FitsFrame zstd r)
    (keeps : frames zstd written <+: next.file)
    (grows : next.file <+: frames zstd written ++ frame zstd r)
    (failed : next.failed = true) :
    Backs zstd written next ∨ Backs zstd (written ++ [r]) next := by
  obtain ⟨torn, file⟩ := keeps
  rw [← file] at grows
  have begins : torn <+: frame zstd r :=
    (List.prefix_append_right_inj (frames zstd written)).mp grows
  by_cases whole : torn = frame zstd r
  · right
    refine .torn [] ?_ scanFrames_nil failed
    rw [← file, whole, frames_append_singleton, List.append_nil]
  · left
    exact .torn torn file.symm (scanFrames_torn fits.compressed begins whole) failed

/-- An append that succeeds adds its frame; one that fails may have done so. -/
theorem append {log : FileLog} {r : Record} (backs : Backs zstd written log.writer)
    (eager : log.flushInterval ≤ 0) (fits : FitsFrame zstd r) (faults : List (Option Nat)) :
    Backs zstd (written ++ [r]) (log.append zstd faults r).2.writer ∨
      (log.append zstd faults r).1 ≠ none ∧
        Backs zstd written (log.append zstd faults r).2.writer := by
  cases broken : log.writer.failed with
  | true =>
      right
      rw [FileLog.append_of_failed zstd broken]
      refine ⟨?_, backs.schedule faults⟩
      intro same
      cases same
  | false =>
      obtain ⟨file, emptied⟩ := backs.intact broken
      have stream : log.writer.plain.stream = frames zstd written := by
        simp [BufferedWriter.stream, FailingWriter.plain, file, emptied]
      obtain ⟨keeps, grows⟩ := log.file_append zstd faults r
      rw [file] at keeps
      rw [stream] at grows
      cases result : log.append zstd faults r with
      | mk answer next =>
          rw [result] at keeps grows
          cases answer with
          | none =>
              left
              have plain := congrArg LogStore.writer (FileLog.append_ok result).1
              have empties : next.writer.buffer = [] :=
                (congrArg BufferedWriter.buffer plain).trans
                  (LogStore.buffer_append zstd eager r)
              have streams := (congrArg BufferedWriter.stream plain).trans
                (LogStore.append_stream zstd log.store r)
              refine .whole ?_ empties
              calc next.writer.file
                  = next.store.writer.stream := by
                    simp [FileLog.store, BufferedWriter.stream, FailingWriter.plain, empties]
                _ = log.store.writer.stream ++ frame zstd r := streams
                _ = frames zstd (written ++ [r]) := by
                    rw [frames_append_singleton, ← stream]
                    rfl
          | some failure =>
              have failed := FileLog.failed_of_append result
              rcases of_between fits keeps grows failed with before | after
              · right
                refine ⟨?_, before⟩
                intro same
                cases same
              · exact .inl after

end Backs

namespace Backed

variable {zstd : Zstd} {log : FileLog} {written : List Record}

/-- Every opening finds at least what the written records amount to. -/
theorem recovers (backed : Backed zstd log written) (opening : Opening) :
    (∃ outcome, OpenLog zstd opening log.writer.file outcome) ∧
      ∀ outcome, OpenLog zstd opening log.writer.file outcome →
        ∃ ls, outcome = .ok ls ∧ ∀ r ∈ written, ls.memory.Covers r := by
  obtain ⟨torn, file, stops⟩ : ∃ torn, log.writer.file = frames zstd written ++ torn ∧
      ∀ fuel offset, scanFrames fuel offset torn = [] := by
    cases backed.backs with
    | whole file emptied => exact ⟨[], by rw [file, List.append_nil], scanFrames_nil⟩
    | torn torn file stops failed => exact ⟨torn, file, stops⟩
  rw [file]
  obtain ⟨opens, outcomes⟩ := openLog_outcomes backed.fits stops opening
  refine ⟨opens, ?_⟩
  intro outcome reads
  obtain ⟨merged, perm, rfl⟩ := outcomes outcome reads
  refine ⟨_, rfl, ?_⟩
  intro r member
  have merges : r.defaulted ∈ merged.map Record.defaulted :=
    List.mem_map_of_mem (perm.mem_iff.mpr member)
  have covers := Champion.covers_enterAll_of_mem Record.key Record.stamp
    opening.fresh.records merges
  rw [← mergeAll_records, Record.defaulted_of_named (backed.named r member)] at covers
  exact covers

theorem put (backed : Backed zstd log written) {incoming : Record}
    (fits : FitsFrame zstd incoming.defaulted) (faults : List (Option Nat)) :
    ∃ later, written <+: later ∧
      Backed zstd (log.put zstd faults incoming).2.2.2 later ∧
      ((log.put zstd faults incoming).2.2.1 = none →
        ∃ winner ∈ later, winner.key = incoming.defaulted.key ∧
          incoming.defaulted.stamp ≤ winner.stamp) := by
  have memory := log.put_memory zstd faults incoming
  have coherent : Coherent (log.memory.afterPut incoming) :=
    backed.coherent.write (.put incoming)
  have stored : ∀ {position r},
      (log.memory.afterPut incoming).records.lookup position = some r → FitsFrame zstd r := by
    intro position r found
    rw [MemoryStore.afterPut_records] at found
    rcases Champion.lookup_enter_source found with before | ⟨rfl, _⟩
    · exact backed.stored before
    · exact fits
  -- the winner is what the memory holds at the key
  have held : (log.memory.afterPut incoming).records.lookup incoming.defaulted.key =
      some (log.memory.put incoming).2.1 := by
    unfold MemoryStore.afterPut
    rw [log.memory.put_state incoming, Finmap.lookup_insert]
  have appended := @Backs.append zstd written
    { log with memory := (log.memory.put incoming).2.2 } (log.memory.put incoming).2.1
    backed.backs backed.eager (stored held) faults
  have eager := (FileLog.append_flushInterval zstd
    { log with memory := (log.memory.put incoming).2.2 } faults
    (log.memory.put incoming).2.1).trans_le backed.eager
  have kept : ∀ {later : List Record}, (∀ r ∈ later, FitsFrame zstd r) →
      (∀ r ∈ later, r.collection ≠ []) →
      Backs zstd later (log.put zstd faults incoming).2.2.2.writer →
      Backed zstd (log.put zstd faults incoming).2.2.2 later := by
    intro later fits named backs
    refine ⟨eager, ?_, ?_, fits, named, backs⟩
    · rw [memory]
      exact coherent
    · rw [memory]
      exact stored
  rcases appended with backs | ⟨refused, backs⟩
  · refine ⟨written ++ [(log.memory.put incoming).2.1], List.prefix_append ..,
      kept ?_ ?_ backs, fun _ => ⟨(log.memory.put incoming).2.1, by simp, ?_, ?_⟩⟩
    · exact List.forall_mem_append.mpr
        ⟨backed.fits, List.forall_mem_singleton.mpr (stored held)⟩
    · exact List.forall_mem_append.mpr
        ⟨backed.named, List.forall_mem_singleton.mpr (coherent.wellFormed.named held)⟩
    · exact coherent.wellFormed.keyed held
    · obtain ⟨stored, found, above⟩ := log.memory.covers_afterPut incoming
      rw [held] at found
      cases found
      exact above
  · exact ⟨written, List.prefix_refl _, kept backed.fits backed.named backs,
      fun done => absurd done refused⟩

theorem changesSince (backed : Backed zstd log written) (since : HLC) :
    Backed zstd (log.getChangesSince since).2 written where
  eager := backed.eager
  coherent := backed.coherent.getChangesSince since
  stored found := by
    rw [show (log.getChangesSince since).2.memory.records = _ from
      log.memory.getChangesSince_records since] at found
    exact backed.stored found
  fits := backed.fits
  named := backed.named
  backs := backed.backs

theorem flushTick (backed : Backed zstd log written) (faults : List (Option Nat)) :
    log.flushTick faults = log :=
  if_neg (Int.not_lt.mpr backed.eager)

/-- A compaction leaves the old file or the new one, and the memory is that of
the new one only with the new file. -/
theorem compact (backed : Backed zstd log written) {now threshold : Int64}
    (orders : CompactOrders (log.memory.keep (now - milliseconds threshold)))
    (faults : CompactFaults) :
    Backed zstd (log.compact zstd now threshold orders faults).2 written ∧
        (log.compact zstd now threshold orders faults).2.memory = log.memory ∨
      Backed zstd (log.compact zstd now threshold orders faults).2 orders.kept ∧
        ((log.compact zstd now threshold orders faults).2.memory = log.memory ∨
          (log.compact zstd now threshold orders faults).2.memory =
            log.memory.compacted orders) := by
  have same : ∀ {writer : FailingWriter Byte}, Backs zstd written writer →
      Backed zstd { log with writer } written := fun backs =>
    ⟨backed.eager, backed.coherent, backed.stored, backed.fits, backed.named, backs⟩
  cases broken : log.writer.failed with
  | true =>
      rw [FileLog.compact_of_failed broken]
      exact .inl ⟨same (backed.backs.schedule faults.flush), rfl⟩
  | false =>
      obtain ⟨file, emptied⟩ := backed.backs.intact broken
      have backs := backed.backs.schedule faults.flush
      have fits : ∀ r ∈ orders.kept, FitsFrame zstd r := by
        intro r member
        have found := (orders.mem_kept_iff backed.coherent.wellFormed r).mp member
        exact backed.stored (MemoryStore.lookup_keep found)
      have named := orders.kept_named backed.coherent.wellFormed
      have flushes : FailingWriter.flush { log.writer with schedule := faults.flush } =
          (true, { log.writer with schedule := faults.flush }) :=
        FailingWriter.flush_empty broken emptied
      unfold FileLog.compact
      rw [flushes]
      dsimp only
      split
      next => exact .inl ⟨same backs, rfl⟩
      next =>
          split
          next => exact .inl ⟨same backs, rfl⟩
          next =>
              split
              next => exact .inl ⟨same backs, rfl⟩
              next temp written =>
                  have replaced : temp = frames zstd orders.kept := writeTemp_ok written
                  unfold FileLog.replaceFile
                  split
                  next => split <;> exact .inl ⟨same (.whole file rfl), rfl⟩
                  next =>
                      split
                      next =>
                          exact .inr ⟨⟨backed.eager, backed.coherent, backed.stored, fits,
                            named, .whole replaced emptied⟩, .inl rfl⟩
                      next =>
                          refine .inr ⟨⟨backed.eager, ?_, ?_, fits, named,
                            .whole replaced rfl⟩, .inr rfl⟩
                          · exact backed.coherent.compacted orders
                          · exact fun found => backed.stored (MemoryStore.lookup_keep found)

end Backed

/-! What a server does to its log. -/

/-- It puts records, reads the changes, flushes and compacts. -/
def LogAction.Serves (fitting : Record → Prop) : LogAction → Prop
  | .write (.put incoming) _ => fitting incoming.defaulted
  | .write _ _ => False
  | .changesSince _ => True
  | .flushTick _ => True
  | .compact _ _ _ => True
  | .reopen _ _ => False

/-- A compaction does not find an expired tombstone at the key. -/
def LogAction.Spares (key : GoString) (log : FileLog) : LogAction → Prop
  | .compact now threshold _ => ∀ stored, log.memory.records.lookup key = some stored →
      stored.expired (now - milliseconds threshold) = false
  | _ => True

/-- The record or a newer one under its key is among the written ones. -/
def Written (written : List Record) (r : Record) : Prop :=
  ∃ winner ∈ written, winner.key = r.key ∧ r.stamp ≤ winner.stamp

theorem Written.mono {written later : List Record} {r : Record} (isWritten : Written written r)
    (kept : written <+: later) : Written later r := by
  obtain ⟨winner, member, newer⟩ := isWritten
  exact ⟨winner, kept.subset member, newer⟩

/-- Both in the memory and in the file. -/
structure Preserved (zstd : Zstd) (r : Record) (log : FileLog) : Prop where
  covers : log.memory.Covers r
  backed : ∃ written, Backed zstd log written ∧ Written written r

namespace MemoryStore

variable {memory : MemoryStore} {cutoff : Int64} {r : Record}

theorem Covers.lookup_keep (covers : memory.Covers r)
    (spares : ∀ stored, memory.records.lookup r.key = some stored →
      stored.expired cutoff = false) :
    ∃ stored, (memory.keep cutoff).lookup r.key = some stored ∧ r.stamp ≤ stored.stamp := by
  obtain ⟨stored, found, newer⟩ := covers
  refine ⟨stored, FiniteMap.lookup_filter_iff.mpr ⟨found, ?_⟩, newer⟩
  rw [spares stored found]
  rfl

theorem Covers.written_kept (covers : memory.Covers r) (wellFormed : WellFormed memory)
    (orders : CompactOrders (memory.keep cutoff))
    (spares : ∀ stored, memory.records.lookup r.key = some stored →
      stored.expired cutoff = false) : Written orders.kept r := by
  obtain ⟨stored, found, newer⟩ := covers.lookup_keep spares
  have placed := wellFormed.keyed (MemoryStore.lookup_keep found)
  refine ⟨stored, (orders.mem_kept_iff wellFormed stored).mpr ?_, placed, newer⟩
  rw [placed]
  exact found

end MemoryStore

namespace Backed

variable {zstd : Zstd} {log next : FileLog} {written : List Record} {action : LogAction}

theorem step (backed : Backed zstd log written) (serves : action.Serves (FitsFrame zstd))
    (step : FileLog.Step zstd log action next) :
    ∃ later, Backed zstd next later ∧ ∀ r, action.Spares r.key log →
      log.memory.Covers r → Written written r → next.memory.Covers r ∧ Written later r := by
  cases step with
  | write call faults =>
      cases call with
      | put incoming =>
          obtain ⟨later, kept, stays, _⟩ := backed.put serves faults
          refine ⟨later, stays, ?_⟩
          intro r _ covers isWritten
          refine ⟨?_, isWritten.mono kept⟩
          rw [show (log.write zstd faults (.put incoming)).2.memory = _ from
            log.put_memory zstd faults incoming]
          exact covers.afterPut incoming
      | putLocal document now => exact absurd serves id
      | delete collection id now => exact absurd serves False.elim
  | changesSince since =>
      refine ⟨written, backed.changesSince since, ?_⟩
      intro r _ covers isWritten
      refine ⟨?_, isWritten⟩
      unfold MemoryStore.Covers at covers ⊢
      rw [← log.memory.getChangesSince_records since] at covers
      exact covers
  | flushTick faults =>
      rw [backed.flushTick faults]
      exact ⟨written, backed, fun r _ covers isWritten => ⟨covers, isWritten⟩⟩
  | compact now threshold faults orders =>
      rcases backed.compact orders faults with ⟨stays, same⟩ | ⟨stays, memory⟩
      · refine ⟨written, stays, ?_⟩
        intro r _ covers isWritten
        rw [same]
        exact ⟨covers, isWritten⟩
      · refine ⟨orders.kept, stays, ?_⟩
        intro r spares covers _
        refine ⟨?_, covers.written_kept backed.coherent.wellFormed orders spares⟩
        rcases memory with same | compacted
        · rw [same]
          exact covers
        · rw [compacted]
          exact covers.lookup_keep spares
  | reopen opening faults reads => exact absurd serves id

theorem run (backed : Backed zstd log written)
    (run : Run (FileLog.Step zstd) (fun _ action => action.Serves (FitsFrame zstd)) log next) :
    ∃ later, Backed zstd next later := by
  induction run with
  | start => exact ⟨written, backed⟩
  | step _ serves taken ih =>
      obtain ⟨later, stays⟩ := ih
      obtain ⟨last, result, _⟩ := stays.step serves taken
      exact ⟨last, result⟩

/-- A log that was just opened on whole frames. -/
theorem opened {records merged : List Record} (fits : ∀ r ∈ records, FitsFrame zstd r)
    (named : ∀ r ∈ records, r.collection ≠ []) (perm : merged.Perm records)
    {opening : Opening} (eager : opening.flushInterval ≤ 0) :
    Backed zstd (.opened (opening.store (frames zstd records)
      (mergeAll opening.fresh merged))) records := by
  have archive := Archive.opened fits named perm opening
  exact ⟨eager, archive.coherent, fun found => fits _ (archive.stored found), fits, named,
    .whole rfl rfl⟩

end Backed

namespace Preserved

variable {zstd : Zstd} {log next : FileLog} {r : Record}

theorem run (preserved : Preserved zstd r log)
    (run : Run (FileLog.Step zstd)
      (fun log action => action.Serves (FitsFrame zstd) ∧ action.Spares r.key log) log next) :
    Preserved zstd r next := by
  induction run with
  | start => exact preserved
  | step _ permitted taken ih =>
      obtain ⟨covers, written, backed, isWritten⟩ := ih
      obtain ⟨later, stays, keeps⟩ := backed.step permitted.1 taken
      obtain ⟨stillCovers, stillWritten⟩ := keeps r permitted.2 covers isWritten
      exact ⟨stillCovers, later, stays, stillWritten⟩

theorem recovers (preserved : Preserved zstd r log) (opening : Opening) :
    (∃ outcome, OpenLog zstd opening log.writer.file outcome) ∧
      ∀ outcome, OpenLog zstd opening log.writer.file outcome →
        ∃ ls, outcome = .ok ls ∧ ls.memory.Covers r := by
  obtain ⟨_, written, backed, winner, member, placed, newer⟩ := preserved
  obtain ⟨opens, outcomes⟩ := backed.recovers opening
  refine ⟨opens, ?_⟩
  intro outcome reads
  obtain ⟨ls, ok, covers⟩ := outcomes outcome reads
  exact ⟨ls, ok, (covers winner member).of_le placed.symm newer⟩

end Preserved

/-! After the first failure. -/

/-- The writer has failed, with this file, and the memory covers the record. -/
structure Stuck (file : Bytes) (r : Record) (log : FileLog) : Prop where
  failed : log.writer.failed = true
  same : log.writer.file = file
  covers : log.memory.Covers r

theorem Stuck.step {zstd : Zstd} {file : Bytes} {r : Record} {log next : FileLog}
    {action : LogAction} (stuck : Stuck file r log)
    (serves : action.Serves fun _ => True) (step : FileLog.Step zstd log action next) :
    Stuck file r next := by
  cases step with
  | write call faults =>
      cases call with
      | put incoming =>
          have result := @FileLog.append_of_failed
            { log with memory := (log.memory.put incoming).2.2 } zstd stuck.failed faults
            (log.memory.put incoming).2.1
          change Stuck file r (FileLog.append zstd
            { log with memory := (log.memory.put incoming).2.2 } faults
            (log.memory.put incoming).2.1).2
          rw [result]
          exact ⟨stuck.failed, stuck.same, stuck.covers.afterPut incoming⟩
      | putLocal document now => exact absurd serves id
      | delete collection id now => exact absurd serves False.elim
  | changesSince since =>
      refine ⟨stuck.failed, stuck.same, ?_⟩
      have covers := stuck.covers
      unfold MemoryStore.Covers at covers ⊢
      rw [← log.memory.getChangesSince_records since] at covers
      exact covers
  | flushTick faults =>
      unfold FileLog.flushTick
      split
      next =>
          have broken : FailingWriter.failed { log.writer with schedule := faults } = true :=
            stuck.failed
          rw [FailingWriter.flush_failed broken]
          exact ⟨stuck.failed, stuck.same, stuck.covers⟩
      next => exact stuck
  | compact now threshold faults orders =>
      rw [FileLog.compact_of_failed stuck.failed]
      exact ⟨stuck.failed, stuck.same, stuck.covers⟩
  | reopen opening faults reads => exact absurd serves id

theorem Backed.preserved_put {zstd : Zstd} {log : FileLog} {written : List Record}
    (backed : Backed zstd log written) {incoming : Record}
    (fits : FitsFrame zstd incoming.defaulted) (faults : List (Option Nat))
    (done : (log.put zstd faults incoming).2.2.1 = none) :
    Preserved zstd incoming.defaulted (log.put zstd faults incoming).2.2.2 := by
  obtain ⟨later, _, stays, isWritten⟩ := backed.put fits faults
  refine ⟨?_, later, stays, isWritten done⟩
  rw [log.put_memory zstd faults incoming]
  exact log.memory.covers_afterPut incoming

end NellDB
