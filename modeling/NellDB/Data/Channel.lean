import Mathlib.Tactic

namespace NellDB.Data

/-! Buffered channels of a fixed capacity. -/

structure Channel (capacity : Nat) (α : Type u) where
  buffer : List α
  closed : Bool
  bounded : buffer.length ≤ capacity

namespace Channel

variable {capacity : Nat} {α : Type u}

def make (capacity : Nat) (α : Type u) : Channel capacity α where
  buffer := []
  closed := false
  bounded := Nat.zero_le capacity

/-- A send that does not wait for room. -/
def trySend (ch : Channel capacity α) (value : α) : Option (Channel capacity α) :=
  if room : ch.buffer.length < capacity then
    some
      { ch with
        buffer := ch.buffer ++ [value]
        bounded := by
          rw [List.length_append]
          exact room }
  else
    none

def receive (ch : Channel capacity α) : Option (α × Channel capacity α) :=
  match ch with
  | ⟨[], _, _⟩ => none
  | ⟨value :: rest, closed, bounded⟩ =>
      some (value, ⟨rest, closed, (Nat.le_succ _).trans bounded⟩)

def close (ch : Channel capacity α) : Channel capacity α :=
  { ch with closed := true }

theorem trySend_some {ch next : Channel capacity α} {value : α}
    (sent : ch.trySend value = some next) :
    next.buffer = ch.buffer ++ [value] ∧ next.closed = ch.closed := by
  unfold trySend at sent
  split at sent
  next =>
      cases sent
      exact ⟨rfl, rfl⟩
  next => contradiction

theorem receive_some {ch next : Channel capacity α} {value : α}
    (received : ch.receive = some (value, next)) :
    ch.buffer = value :: next.buffer ∧ next.closed = ch.closed := by
  obtain ⟨buffer, closed, bounded⟩ := ch
  cases buffer with
  | nil => contradiction
  | cons head rest =>
      cases received
      exact ⟨rfl, rfl⟩

end Channel

end NellDB.Data
