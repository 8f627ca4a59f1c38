import NellDB.LogStore.Append

namespace NellDB

open Data

/-! The clock of a store only moves forward, as long as no counter wraps. -/

def Write.Wraps (memory : MemoryStore) : Write → Prop
  | .put incoming => memory.clock.UpdateWraps incoming.clock
  | .putLocal _ now => memory.clock.TickWraps now
  | .delete _ _ now => memory.clock.TickWraps now

instance (memory : MemoryStore) : (call : Write) → Decidable (call.Wraps memory)
  | .put _ => inferInstanceAs (Decidable (HLC.UpdateWraps _ _))
  | .putLocal _ _ => inferInstanceAs (Decidable (HLC.TickWraps _ _))
  | .delete _ _ _ => inferInstanceAs (Decidable (HLC.TickWraps _ _))

def NoneWraps (memory : MemoryStore) : List Write → Prop
  | [] => True
  | call :: rest => ¬ call.Wraps memory ∧ NoneWraps (memory.write call).2 rest

instance decidableNoneWraps (memory : MemoryStore) :
    (calls : List Write) → Decidable (NoneWraps memory calls)
  | [] => .isTrue trivial
  | call :: rest =>
      have := decidableNoneWraps (memory.write call).2 rest
      inferInstanceAs (Decidable (_ ∧ _))

namespace MemoryStore

def ClockBounds (memory : MemoryStore) : Prop :=
  ∀ position stored, memory.records.lookup position = some stored →
    stored.clock ≤ memory.clock

/-- The record was stored at the start, or was left by one of the writes, or
came in with one of them, whether it won or not. -/
def Seen (start : MemoryStore) (calls : List Write) (r : Record) : Prop :=
  (∃ position, start.records.lookup position = some r) ∨
    r ∈ start.journal calls ∨ Write.put r ∈ calls

theorem clockBounds_newMemoryStore (nodeID : GoString) (now : Int64) :
    (newMemoryStore nodeID now).ClockBounds := by
  intro position stored found
  simp [newMemoryStore] at found

section Step

variable {memory : MemoryStore} {call : Write} (fine : ¬ call.Wraps memory)

include fine

theorem lt_clock_of_reading {now : Int64} (read : call.reading = some now) :
    memory.clock < (memory.write call).1.clock := by
  rw [(memory.write_clock_of_reading read).2]
  cases call with
  | put incoming => contradiction
  | putLocal document reading =>
      cases read
      exact HLC.lt_tick_of_not_wraps fine
  | delete collection id reading =>
      cases read
      exact HLC.lt_tick_of_not_wraps fine

theorem le_clock_write : memory.clock ≤ (memory.write call).2.clock := by
  cases call with
  | put incoming =>
      rw [write_clock_of_put]
      exact HLC.le_update_of_not_wraps fine
  | putLocal document now => exact (HLC.lt_tick_of_not_wraps fine).le
  | delete collection id now => exact (HLC.lt_tick_of_not_wraps fine).le

theorem result_le_clock (bounds : memory.ClockBounds) :
    (memory.write call).1.clock ≤ (memory.write call).2.clock := by
  cases call with
  | put incoming =>
      rcases memory.write_put_cases incoming with won | kept
      · rw [won, write_clock_of_put]
        exact (HLC.lt_update_of_not_wraps fine).le
      · exact (bounds _ _ kept).trans (le_clock_write fine)
  | putLocal document now => exact le_rfl
  | delete collection id now => exact le_rfl

theorem ClockBounds.write (bounds : memory.ClockBounds) :
    (memory.write call).2.ClockBounds := by
  intro position stored found
  rcases lookup_write_source found with ⟨_, rfl⟩ | before
  · exact result_le_clock fine bounds
  · exact (bounds position stored before).trans (le_clock_write fine)

end Step

theorem le_clock_writes {memory : MemoryStore} {calls : List Write}
    (fine : NoneWraps memory calls) : memory.clock ≤ (memory.writes calls).clock := by
  induction calls generalizing memory with
  | nil => exact le_rfl
  | cons call rest ih => exact (le_clock_write fine.1).trans (ih fine.2)

theorem Seen.le_clock {start : MemoryStore} {calls : List Write} {r : Record}
    (seen : start.Seen calls r) (bounds : start.ClockBounds)
    (fine : NoneWraps start calls) : r.clock ≤ (start.writes calls).clock := by
  induction calls generalizing start with
  | nil =>
      rcases seen with ⟨position, found⟩ | written | ingested
      · exact bounds position r found
      · simp [journal] at written
      · simp at ingested
  | cons call rest ih =>
      obtain ⟨first, onward⟩ := fine
      have after := bounds.write first
      have later : (start.write call).2.clock ≤ (start.writes (call :: rest)).clock :=
        le_clock_writes onward
      rcases seen with ⟨position, found⟩ | written | ingested
      · exact (bounds position r found).trans ((le_clock_write first).trans later)
      · rcases List.mem_cons.mp written with rfl | inRest
        · exact (result_le_clock first bounds).trans later
        · exact ih (.inr (.inl inRest)) after onward
      · rcases List.mem_cons.mp ingested with rfl | inRest
        · have passed := HLC.lt_update_of_not_wraps first
          rw [← write_clock_of_put] at passed
          exact passed.le.trans later
        · exact ih (.inr (.inr inRest)) after onward

end MemoryStore

theorem NoneWraps.append {memory : MemoryStore} {first second : List Write}
    (fine : NoneWraps memory (first ++ second)) :
    NoneWraps memory first ∧ NoneWraps (memory.writes first) second := by
  induction first generalizing memory with
  | nil => exact ⟨trivial, fine⟩
  | cons call rest ih =>
      obtain ⟨onward, last⟩ := ih fine.2
      exact ⟨⟨fine.1, onward⟩, last⟩

/-- Of a run in which no counter wraps, the last write does not set the clock
back, and if it is local its clock is after everything seen before. -/
theorem clock_never_backwards (start : MemoryStore) (bounds : start.ClockBounds)
    (calls : List Write) (call : Write) (fine : NoneWraps start (calls ++ [call])) :
    ((start.writes calls).clock ≤ ((start.writes calls).write call).2.clock ∧
      ∀ now, call.reading = some now → ∀ r, start.Seen calls r →
        ((start.writes calls).write call).1.clock.greaterThan r.clock = true) ∧
    ∀ (zstd : Zstd) (ls : LogStore) (events : List LogEvent), ls.memory = start →
      events.filterMap LogEvent.call = calls →
      (ls.run zstd events).memory.clock ≤
          ((ls.run zstd events).write zstd call).memory.clock ∧
        ∀ now, call.reading = some now → ∀ r, start.Seen calls r →
          ((ls.run zstd events).returned zstd call).clock.greaterThan r.clock = true := by
  obtain ⟨earlier, last⟩ := fine.append
  have forward := MemoryStore.le_clock_write last.1
  have ahead : ∀ now, call.reading = some now → ∀ r, start.Seen calls r →
      ((start.writes calls).write call).1.clock.greaterThan r.clock = true := by
    intro now read r seen
    rw [HLC.greaterThan_iff]
    exact (seen.le_clock bounds earlier).trans_lt
      (MemoryStore.lt_clock_of_reading last.1 read)
  refine ⟨⟨forward, ahead⟩, ?_⟩
  intro zstd ls events sameStart sameCalls
  rw [LogStore.write_memory, LogStore.returned_eq, LogStore.run_memory, sameStart, sameCalls]
  exact ⟨forward, ahead⟩

/-- A record ahead of the local time is ingested before a local write. -/
theorem clock_never_backwards_skewed_peer :
    let start := newMemoryStore (ascii ['n']) 1000
    let incoming : Record := { Record.zero with id := ascii ['x'], clock := ⟨5000, 7⟩ }
    let memory := start.writes [.put incoming]
    let written := (memory.putLocal { Record.zero with id := ascii ['y'] } 1001).1
    written.clock = ⟨5000, 9⟩ ∧ written.clock.greaterThan incoming.clock = true := by
  intro start incoming memory written
  have fine : NoneWraps start ([.put incoming] ++
      [.putLocal { Record.zero with id := ascii ['y'] } 1001]) := by decide
  have seen : start.Seen [.put incoming] incoming := .inr (.inr List.mem_cons_self)
  have result := clock_never_backwards start
    (MemoryStore.clockBounds_newMemoryStore (ascii ['n']) 1000) _ _ fine
  exact ⟨by decide, result.1.2 1001 rfl incoming seen⟩

/-- A peer clock with the last counter value sets the store's clock back, and
the next local write is not after the ingested record. -/
theorem clock_driven_backwards :
    let start := newMemoryStore (ascii ['n']) 1000
    let incoming : Record :=
      { Record.zero with id := ascii ['x'], clock := ⟨1000, Int32.maxValue⟩ }
    let memory := (start.put incoming).2.2
    let written := (memory.putLocal { Record.zero with id := ascii ['x'] } 1000).1
    memory.clock = ⟨1000, Int32.minValue⟩ ∧ memory.clock < start.clock ∧
      written.clock.greaterThan incoming.clock = false := by
  decide

end NellDB
