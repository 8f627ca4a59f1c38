import Mathlib.Data.List.Basic
import Mathlib.Tactic

namespace NellDB.Data

/-! A buffered writer over an append-only file, for writes that succeed. -/

structure BufferedWriter (α : Type u) where
  file : List α
  buffer : List α

namespace BufferedWriter

def capacity : Nat := 4096

def available (w : BufferedWriter α) : Nat := capacity - w.buffer.length

def flush (w : BufferedWriter α) : BufferedWriter α :=
  ⟨w.file ++ w.buffer, []⟩

/-- A write that does not fit fills the buffer and flushes it; what is left
over goes to the file directly when it exceeds a whole buffer. -/
def write (w : BufferedWriter α) (data : List α) : BufferedWriter α :=
  if data.length ≤ w.available then
    ⟨w.file, w.buffer ++ data⟩
  else if w.buffer.isEmpty then
    ⟨w.file ++ data, []⟩
  else
    let flushed := (BufferedWriter.mk w.file (w.buffer ++ data.take w.available)).flush
    let rest := data.drop w.available
    if rest.length ≤ capacity then
      ⟨flushed.file, rest⟩
    else
      ⟨flushed.file ++ rest, []⟩

/-- Everything handed to the writer, whether or not it reached the file. -/
def stream (w : BufferedWriter α) : List α := w.file ++ w.buffer

@[simp] theorem stream_flush (w : BufferedWriter α) : w.flush.stream = w.stream := by
  simp [stream, flush]

@[simp] theorem stream_write (w : BufferedWriter α) (data : List α) :
    (w.write data).stream = w.stream ++ data := by
  unfold write
  split
  next => simp [stream]
  next =>
      split
      next empty => simp [stream, List.isEmpty_iff.mp empty]
      next =>
          dsimp only
          split <;> simp [stream, flush]

@[simp] theorem file_flush (w : BufferedWriter α) : w.flush.file = w.stream := rfl

end BufferedWriter

end NellDB.Data
