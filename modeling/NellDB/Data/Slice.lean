import NellDB.Data.Bytes

namespace NellDB.Data

/-! Buffers whose accesses are checked: an access out of range gives `none`,
the run-time panic. -/

/-- A computation that may report an error, or panic. -/
abbrev Checked (ε : Type u) (α : Type u) := ExceptT ε Option α

namespace Checked

variable {ε α β : Type u}

def access (read : Option α) : Checked ε α := read.map .ok

theorem bind_access {read : Option α} {value : α} (inRange : read = some value)
    (next : α → Checked ε β) : access read >>= next = next value := by
  subst inRange
  rfl

theorem bind_ok {x : Checked ε α} {value : α} (done : x = some (.ok value))
    (next : α → Checked ε β) : x >>= next = next value := by
  subst done
  rfl

theorem bind_error {x : Checked ε α} {failure : ε} (failed : x = some (.error failure))
    (next : α → Checked ε β) : x >>= next = some (.error failure) := by
  subst failed
  rfl

end Checked

theorem exists_ok_of_bind_eq_ok {ε α β : Type u} {x : Except ε α} {next : α → Except ε β}
    {result : β} (succeeds : x >>= next = .ok result) :
    ∃ value, x = .ok value ∧ next value = .ok result := by
  cases x with
  | error failure => cases succeeds
  | ok value => exact ⟨value, rfl, succeeds⟩

def slice (b : Bytes) (low high : Nat) : Option Bytes :=
  if low ≤ high ∧ high ≤ b.length then some ((b.drop low).take (high - low)) else none

def sliceFrom (b : Bytes) (low : Nat) : Option Bytes :=
  if low ≤ b.length then some (b.drop low) else none

def readUint (width : Nat) (b : Bytes) : Option Nat :=
  if width ≤ b.length then some (fieldValue (b.take width)) else none

def uintAt (width : Nat) (b : Bytes) (off : Nat) : Option Nat :=
  (sliceFrom b off).bind (readUint width)

def writeAt (b : Bytes) (off : Nat) (field : Bytes) : Option Bytes :=
  if off + field.length ≤ b.length then
    some (b.take off ++ field ++ b.drop (off + field.length))
  else
    none

/-- Copy to the slice from an offset; what does not fit is not copied. -/
def copyAt (b : Bytes) (off : Nat) (source : Bytes) : Option Bytes :=
  if off ≤ b.length then
    some (b.take off ++ source.take (b.length - off) ++ b.drop (off + source.length))
  else
    none

theorem slice_add {b : Bytes} {low count : Nat} (inside : low + count ≤ b.length) :
    slice b low (low + count) = some ((b.drop low).take count) := by
  rw [slice, if_pos ⟨Nat.le_add_right low count, inside⟩, Nat.add_sub_cancel_left]

theorem uintAt_eq {b : Bytes} {width off : Nat} (inside : off + width ≤ b.length) :
    uintAt width b off = some (fieldValue ((b.drop off).take width)) := by
  have rest : width ≤ (b.drop off).length := by
    rw [List.length_drop]
    omega
  rw [uintAt, sliceFrom, if_pos (by omega), Option.bind_some, readUint, if_pos rest]

theorem readUint_slice {b : Bytes} {width low : Nat} (inside : low + width ≤ b.length) :
    (slice b low (low + width)).bind (readUint width) =
      some (fieldValue ((b.drop low).take width)) := by
  have whole : ((b.drop low).take width).length = width := by
    rw [List.length_take, List.length_drop]
    omega
  rw [slice_add inside, Option.bind_some, readUint, if_pos whole.ge,
    List.take_of_length_le whole.le]

/-! A buffer filled from the front: `done` is written, the rest is fresh. -/

theorem writeAt_fresh {done field : Bytes} {off count : Nat} (start : off = done.length)
    (sized : field.length = count) (room : Nat) :
    writeAt (done ++ List.replicate (count + room) 0) off field =
      some (done ++ field ++ List.replicate room 0) := by
  subst start sized
  have inside : done.length + field.length ≤
      (done ++ List.replicate (field.length + room) 0).length := by
    rw [List.length_append, List.length_replicate]
    omega
  rw [writeAt, if_pos inside, List.take_left, List.drop_append, List.drop_replicate]
  simp

theorem copyAt_fresh {done source : Bytes} {off : Nat} (start : off = done.length)
    (room : Nat) :
    copyAt (done ++ List.replicate (source.length + room) 0) off source =
      some (done ++ source ++ List.replicate room 0) := by
  subst start
  have inside : done.length ≤ (done ++ List.replicate (source.length + room) 0).length := by
    rw [List.length_append]
    omega
  have whole : source.take ((done ++ List.replicate (source.length + room) 0).length -
      done.length) = source := by
    apply List.take_of_length_le
    rw [List.length_append, List.length_replicate]
    omega
  rw [copyAt, if_pos inside, List.take_left, whole, List.drop_append, List.drop_replicate]
  simp

/-- A write that fills the next `count` bytes, with what follows it. -/
theorem bind_writeAt {α : Type} {done field : Bytes} {off count room : Nat}
    {next : Bytes → Option α} (start : off = done.length) (sized : field.length = count) :
    writeAt (done ++ List.replicate (count + room) 0) off field >>= next =
      next (done ++ field ++ List.replicate room 0) := by
  rw [writeAt_fresh start sized]
  rfl

end NellDB.Data
