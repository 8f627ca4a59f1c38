import Mathlib.Algebra.Order.Ring.Int
import Mathlib.Tactic

namespace NellDB.Data

/-! Attempts that are repeated: how many have failed since the last success, and
delays that double with each failure up to a cap. -/

/-- The failures at the end of a list of results. -/
def streak (results : List Bool) : Nat := (results.reverse.takeWhile (!·)).length

@[simp] theorem streak_success (results : List Bool) : streak (results ++ [true]) = 0 := by
  simp [streak]

@[simp] theorem streak_failure (results : List Bool) :
    streak (results ++ [false]) = streak results + 1 := by
  simp [streak]

namespace Backoff

def next (cap current : Int) : Int := min (current * 2) cap

/-- The delay after some results: a success brings it back to the start. -/
def delay (start cap : Int) (results : List Bool) : Int :=
  results.foldl (fun current success => if success then start else next cap current) start

variable {start cap : Int} {results : List Bool}

@[simp] theorem delay_success : delay start cap (results ++ [true]) = start := by
  simp [delay]

@[simp] theorem delay_failure :
    delay start cap (results ++ [false]) = next cap (delay start cap results) := by
  simp [delay]

theorem next_min (nonneg : 0 ≤ cap) (current : Int) :
    next cap (min current cap) = min (current * 2) cap := by
  unfold next
  omega

theorem next_pow (nonneg : 0 ≤ cap) (failures : Nat) :
    next cap (min (start * 2 ^ failures) cap) = min (start * 2 ^ (failures + 1)) cap := by
  rw [next_min nonneg, pow_succ, mul_assoc]

theorem delay_eq (nonneg : 0 ≤ cap) :
    delay start cap results =
      if streak results = 0 then start else min (start * 2 ^ streak results) cap := by
  induction results using List.reverseRecOn with
  | nil => rfl
  | append_singleton results success ih =>
      cases success with
      | true => rw [delay_success, streak_success, if_pos rfl]
      | false =>
          rw [delay_failure, streak_failure, if_neg (Nat.succ_ne_zero _), ih]
          split
          next first => rw [first, zero_add, pow_one, next]
          next => exact next_pow nonneg _

theorem delay_le_max (nonneg : 0 ≤ cap) : delay start cap results ≤ max start cap := by
  rw [delay_eq nonneg]
  split
  next => exact le_max_left start cap
  next => exact (min_le_right _ cap).trans (le_max_right start cap)

theorem delay_pos (positive : 0 < start) (room : 0 < cap) : 0 < delay start cap results := by
  rw [delay_eq room.le]
  split
  next => exact positive
  next => exact lt_min (by positivity) room

end Backoff

end NellDB.Data
