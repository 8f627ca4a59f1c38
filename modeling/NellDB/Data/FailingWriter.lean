import NellDB.Data.BufferedWriter

namespace NellDB.Data

/-! A buffered writer over an append-only file whose writes may fail.  The
first failure is remembered, and every later call reports it. -/

/-- The file handle: open, closed, or never obtained. -/
inductive Handle where
  | usable
  | closed
  | missing
  deriving DecidableEq, Repr

/-- The schedule says what the coming file writes do: `none` is a success,
`some count` a failure after at most `count` elements.  Writes beyond its end
succeed. -/
structure FailingWriter (α : Type u) where
  file : List α
  buffer : List α
  failed : Bool
  handle : Handle
  schedule : List (Option Nat)

namespace FailingWriter

/-- A new writer for an open file. -/
def onto (file : List α) (schedule : List (Option Nat)) : FailingWriter α where
  file := file
  buffer := []
  failed := false
  handle := .usable
  schedule := schedule

/-- The writer as one whose writes succeed. -/
def plain (w : FailingWriter α) : BufferedWriter α := ⟨w.file, w.buffer⟩

/-- One write to the file: whether it succeeds and how much of it arrives. -/
def deliver (w : FailingWriter α) (data : List α) : Bool × Nat × FailingWriter α :=
  if w.handle = .usable then
    match w.schedule with
    | [] => (true, data.length, { w with file := w.file ++ data })
    | none :: rest =>
        (true, data.length, { w with file := w.file ++ data, schedule := rest })
    | some count :: rest =>
        (false, count, { w with file := w.file ++ data.take count, schedule := rest })
  else
    (false, 0, w)

def flush (w : FailingWriter α) : Bool × FailingWriter α :=
  if w.failed then
    (false, w)
  else if w.buffer.isEmpty then
    (true, w)
  else
    match w.deliver w.buffer with
    | (true, _, w) => (true, { w with buffer := [] })
    | (false, sent, w) => (false, { w with buffer := w.buffer.drop sent, failed := true })

/-- A write that bypasses the buffer. -/
def writeThrough (w : FailingWriter α) (data : List α) : Bool × FailingWriter α :=
  match w.deliver data with
  | (true, _, w) => (true, w)
  | (false, _, w) => (false, { w with failed := true })

/-- What a write has left over after it filled and flushed the buffer. -/
def writeRest (w : FailingWriter α) (rest : List α) : Bool × FailingWriter α :=
  if rest.length ≤ BufferedWriter.capacity then
    (true, { w with buffer := rest })
  else
    w.writeThrough rest

def write (w : FailingWriter α) (data : List α) : Bool × FailingWriter α :=
  if w.failed then
    (false, w)
  else if data.length ≤ w.plain.available then
    (true, { w with buffer := w.buffer ++ data })
  else if w.buffer.isEmpty then
    w.writeThrough data
  else
    match flush { w with buffer := w.buffer ++ data.take w.plain.available } with
    | (false, flushed) => (false, flushed)
    | (true, flushed) => flushed.writeRest (data.drop w.plain.available)

/-- Nothing has failed and the file is open. -/
structure Working (w : FailingWriter α) : Prop where
  intact : w.failed = false
  usable : w.handle = .usable

theorem working_onto (file : List α) (schedule : List (Option Nat)) :
    (onto file schedule).Working :=
  ⟨rfl, rfl⟩

/-! What a successful call has done. -/

theorem deliver_ok {w next : FailingWriter α} {data : List α} {sent : Nat}
    (done : w.deliver data = (true, sent, next)) :
    next.plain = ⟨w.file ++ data, w.buffer⟩ ∧ next.failed = w.failed ∧
      next.handle = w.handle := by
  unfold deliver at done
  split at done
  next =>
      split at done
      next =>
          cases done
          exact ⟨rfl, rfl, rfl⟩
      next =>
          cases done
          exact ⟨rfl, rfl, rfl⟩
      next => simp at done
  next => simp at done

theorem writeThrough_ok {w next : FailingWriter α} {data : List α}
    (done : w.writeThrough data = (true, next)) :
    next.plain = ⟨w.file ++ data, w.buffer⟩ ∧ next.failed = w.failed ∧
      next.handle = w.handle := by
  unfold writeThrough at done
  split at done
  next delivered =>
      cases done
      exact deliver_ok delivered
  next => simp at done

theorem flush_ok {w next : FailingWriter α} (done : w.flush = (true, next)) :
    next.plain = w.plain.flush ∧ w.failed = false ∧ next.failed = false ∧
      next.handle = w.handle := by
  unfold flush at done
  split at done
  next => simp at done
  next intact =>
      rw [Bool.not_eq_true] at intact
      split at done
      next empty =>
          cases done
          have nothing : w.buffer = [] := List.isEmpty_iff.mp empty
          refine ⟨?_, intact, intact, rfl⟩
          simp [plain, BufferedWriter.flush, nothing]
      next =>
          split at done
          next delivered =>
              cases done
              obtain ⟨same, failed, handle⟩ := deliver_ok delivered
              have file := congrArg BufferedWriter.file same
              refine ⟨?_, intact, failed.trans intact, handle⟩
              exact congrArg (BufferedWriter.mk · []) file
          next => simp at done

theorem writeRest_ok {w next : FailingWriter α} {rest : List α} (emptied : w.buffer = [])
    (done : w.writeRest rest = (true, next)) :
    next.plain = (if rest.length ≤ BufferedWriter.capacity then
        BufferedWriter.mk w.file rest
      else
        BufferedWriter.mk (w.file ++ rest) []) ∧
      next.failed = w.failed ∧ next.handle = w.handle := by
  unfold writeRest at done
  split at done
  next short =>
      cases done
      rw [if_pos short]
      exact ⟨rfl, rfl, rfl⟩
  next long =>
      rw [if_neg long, ← emptied]
      exact writeThrough_ok done

theorem write_ok {w next : FailingWriter α} {data : List α}
    (done : w.write data = (true, next)) :
    next.plain = w.plain.write data ∧ w.failed = false ∧ next.failed = false ∧
      next.handle = w.handle := by
  unfold write at done
  split at done
  next => simp at done
  next intact =>
      rw [Bool.not_eq_true] at intact
      unfold BufferedWriter.write
      split at done
      next fits =>
          cases done
          exact ⟨(if_pos fits).symm, intact, intact, rfl⟩
      next tooLong =>
          rw [if_neg tooLong]
          split at done
          next empty =>
              obtain ⟨same, failed, handle⟩ := writeThrough_ok done
              have nothing : w.buffer = [] := List.isEmpty_iff.mp empty
              rw [if_pos (show w.plain.buffer.isEmpty = true from empty), same, nothing]
              exact ⟨rfl, intact, failed.trans intact, handle⟩
          next occupied =>
              rw [if_neg (show ¬ w.plain.buffer.isEmpty = true from occupied)]
              split at done
              next => simp at done
              next flushed first =>
                  obtain ⟨same, _, failed, handle⟩ := flush_ok first
                  have file := congrArg BufferedWriter.file same
                  have emptied : flushed.buffer = [] := congrArg BufferedWriter.buffer same
                  obtain ⟨rest, stillFailed, stillHandle⟩ := writeRest_ok emptied done
                  rw [rest, show flushed.file = _ from file]
                  exact ⟨rfl, intact, stillFailed.trans failed, stillHandle.trans handle⟩

theorem Working.of_ok {w next : FailingWriter α} (working : w.Working)
    (intact : next.failed = false) (handle : next.handle = w.handle) : next.Working :=
  ⟨intact, handle.trans working.usable⟩

theorem Working.schedule {w : FailingWriter α} (working : w.Working)
    (schedule : List (Option Nat)) : Working { w with schedule } :=
  ⟨working.intact, working.usable⟩

/-! Without scheduled failures every call on a working writer succeeds. -/

theorem deliver_clear {w : FailingWriter α} (working : w.Working) (clear : w.schedule = [])
    (data : List α) :
    w.deliver data = (true, data.length, { w with file := w.file ++ data }) := by
  simp [deliver, working.usable, clear]

theorem flush_clear {w : FailingWriter α} (working : w.Working) (clear : w.schedule = []) :
    ∃ next, w.flush = (true, next) ∧ next.schedule = [] := by
  unfold flush
  rw [if_neg (by simp [working.intact]), deliver_clear working clear]
  split
  next => exact ⟨w, rfl, clear⟩
  next => exact ⟨_, rfl, clear⟩

theorem writeThrough_clear {w : FailingWriter α} (working : w.Working)
    (clear : w.schedule = []) (data : List α) :
    ∃ next, w.writeThrough data = (true, next) ∧ next.schedule = [] := by
  unfold writeThrough
  rw [deliver_clear working clear]
  exact ⟨_, rfl, clear⟩

theorem write_clear {w : FailingWriter α} (working : w.Working) (clear : w.schedule = [])
    (data : List α) : ∃ next, w.write data = (true, next) ∧ next.schedule = [] := by
  unfold write
  rw [if_neg (by simp [working.intact])]
  split
  next => exact ⟨_, rfl, clear⟩
  next =>
      split
      next => exact writeThrough_clear working clear data
      next =>
          let filled := { w with buffer := w.buffer ++ data.take w.plain.available }
          have filledWorking : filled.Working := ⟨working.intact, working.usable⟩
          obtain ⟨flushed, done, stillClear⟩ := flush_clear filledWorking clear
          obtain ⟨_, _, intact, handle⟩ := flush_ok done
          have flushedWorking := filledWorking.of_ok intact handle
          rw [done]
          unfold writeRest
          dsimp only
          split
          next => exact ⟨_, rfl, stillClear⟩
          next => exact writeThrough_clear flushedWorking stillClear _

/-! A failure stays. -/

theorem write_failed {w : FailingWriter α} (failed : w.failed = true) (data : List α) :
    w.write data = (false, w) :=
  if_pos failed

theorem failed_of_flush {w next : FailingWriter α} (done : w.flush = (false, next)) :
    next.failed = true := by
  unfold flush at done
  split at done
  next failed =>
      cases done
      exact failed
  next =>
      split at done
      next => simp at done
      next =>
          split at done
          next => simp at done
          next =>
              cases done
              rfl

theorem flush_failed {w : FailingWriter α} (failed : w.failed = true) :
    w.flush = (false, w) :=
  if_pos failed

theorem flush_empty {w : FailingWriter α} (intact : w.failed = false)
    (emptied : w.buffer = []) : w.flush = (true, w) := by
  simp [flush, intact, emptied]

theorem failed_of_writeThrough {w next : FailingWriter α} {data : List α}
    (done : w.writeThrough data = (false, next)) : next.failed = true := by
  unfold writeThrough at done
  split at done
  next => simp at done
  next =>
      cases done
      rfl

theorem failed_of_write {w next : FailingWriter α} {data : List α}
    (done : w.write data = (false, next)) : next.failed = true := by
  unfold write at done
  split at done
  next failed =>
      cases done
      exact failed
  next =>
      split at done
      next => simp at done
      next =>
          split at done
          next => exact failed_of_writeThrough done
          next =>
              split at done
              next flushed =>
                  cases done
                  exact failed_of_flush flushed
              next =>
                  unfold writeRest at done
                  split at done
                  next => simp at done
                  next => exact failed_of_writeThrough done

/-! Nothing reaches a file through a handle that is not open. -/

theorem deliver_unusable {w : FailingWriter α} (shut : w.handle ≠ .usable)
    (data : List α) : w.deliver data = (false, 0, w) :=
  if_neg shut

theorem file_flush_unusable {w : FailingWriter α} (shut : w.handle ≠ .usable) :
    w.flush.2.file = w.file ∧ w.flush.2.handle ≠ .usable := by
  unfold flush
  rw [deliver_unusable shut]
  split
  next => exact ⟨rfl, shut⟩
  next =>
      split
      next => exact ⟨rfl, shut⟩
      next => exact ⟨rfl, shut⟩

theorem file_write_unusable {w : FailingWriter α} (shut : w.handle ≠ .usable)
    (data : List α) :
    (w.write data).2.file = w.file ∧ (w.write data).2.handle ≠ .usable := by
  unfold write
  split
  next => exact ⟨rfl, shut⟩
  next =>
      split
      next => exact ⟨rfl, shut⟩
      next =>
          split
          next =>
              rw [writeThrough, deliver_unusable shut]
              exact ⟨rfl, shut⟩
          next =>
              let filled := { w with buffer := w.buffer ++ data.take w.plain.available }
              have kept := file_flush_unusable (w := filled) shut
              split
              next flushed done =>
                  rw [show filled.flush = _ from done] at kept
                  exact kept
              next flushed done =>
                  rw [show filled.flush = _ from done] at kept
                  rw [writeRest]
                  split
                  next => exact kept
                  next =>
                      rw [writeThrough, deliver_unusable kept.2]
                      exact kept

/-! Whatever fails, the file keeps what it has, and grows by a beginning of what
was to be written. -/

theorem file_deliver (w : FailingWriter α) (data : List α) :
    w.file <+: (w.deliver data).2.2.file ∧ (w.deliver data).2.2.file <+: w.file ++ data := by
  unfold deliver
  split
  next =>
      split
      next => exact ⟨List.prefix_append .., List.prefix_refl _⟩
      next => exact ⟨List.prefix_append .., List.prefix_refl _⟩
      next count _ _ =>
          refine ⟨List.prefix_append .., ?_⟩
          exact (List.prefix_append_right_inj w.file).mpr (List.take_prefix count data)
  next => exact ⟨List.prefix_refl _, List.prefix_append ..⟩

theorem file_writeThrough (w : FailingWriter α) (data : List α) :
    w.file <+: (w.writeThrough data).2.file ∧
      (w.writeThrough data).2.file <+: w.file ++ data := by
  have grows := w.file_deliver data
  unfold writeThrough
  split
  next delivered =>
      rw [delivered] at grows
      exact grows
  next delivered =>
      rw [delivered] at grows
      exact grows

theorem file_flush (w : FailingWriter α) :
    w.file <+: w.flush.2.file ∧ w.flush.2.file <+: w.plain.stream := by
  unfold flush
  split
  next => exact ⟨List.prefix_refl _, List.prefix_append ..⟩
  next =>
      split
      next => exact ⟨List.prefix_refl _, List.prefix_append ..⟩
      next =>
          have grows := w.file_deliver w.buffer
          split
          next delivered =>
              rw [delivered] at grows
              exact grows
          next delivered =>
              rw [delivered] at grows
              exact grows

theorem file_writeRest (w : FailingWriter α) (rest : List α) :
    w.file <+: (w.writeRest rest).2.file ∧ (w.writeRest rest).2.file <+: w.file ++ rest := by
  unfold writeRest
  split
  next => exact ⟨List.prefix_refl _, List.prefix_append ..⟩
  next => exact w.file_writeThrough rest

theorem file_write (w : FailingWriter α) (data : List α) :
    w.file <+: (w.write data).2.file ∧ (w.write data).2.file <+: w.plain.stream ++ data := by
  have buffered : w.file <+: w.plain.stream ++ data :=
    (List.prefix_append w.file w.buffer).trans (List.prefix_append ..)
  unfold write
  split
  next => exact ⟨List.prefix_refl _, buffered⟩
  next =>
      split
      next => exact ⟨List.prefix_refl _, buffered⟩
      next =>
          split
          next empty =>
              have nothing : w.plain.stream = w.file := by
                simp [BufferedWriter.stream, plain, List.isEmpty_iff.mp empty]
              rw [nothing]
              exact w.file_writeThrough data
          next =>
              let filled := { w with buffer := w.buffer ++ data.take w.plain.available }
              have parts : filled.plain.stream ++ data.drop w.plain.available =
                  w.plain.stream ++ data := by
                simp [filled, BufferedWriter.stream, plain]
              have flushes := filled.file_flush
              split
              next done =>
                  rw [show filled.flush = _ from done] at flushes
                  refine ⟨flushes.1, flushes.2.trans ?_⟩
                  rw [← parts]
                  exact List.prefix_append ..
              next flushed done =>
                  rw [show filled.flush = _ from done] at flushes
                  have whole : flushed.file = filled.plain.stream :=
                    congrArg BufferedWriter.file (flush_ok done).1
                  have grows := flushed.file_writeRest (data.drop w.plain.available)
                  rw [← parts, ← whole]
                  exact ⟨flushes.1.trans grows.1, grows.2⟩

end FailingWriter

end NellDB.Data
