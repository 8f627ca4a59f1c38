import Mathlib.Algebra.Order.Field.Basic
import Mathlib.Tactic

namespace NellDB.Data

/-! Token buckets: what can be spent from a level that rises at a steady rate
and never above a limit. -/

namespace TokenBucket

section

variable {K : Type u} [LinearOrder K]

/-- How many requests were granted from one time to another. -/
def granted (start finish : K) (log : List (K × Bool)) : Nat :=
  log.countP fun entry => entry.2 ∧ start ≤ entry.1 ∧ entry.1 ≤ finish

theorem granted_cons (start finish now : K) (spent : Bool) (rest : List (K × Bool)) :
    granted start finish ((now, spent) :: rest) =
      (if spent ∧ start ≤ now ∧ now ≤ finish then 1 else 0) + granted start finish rest := by
  unfold granted
  rw [List.countP_cons, add_comm]
  congr 1
  simp

end

variable {K : Type u} [Field K] [LinearOrder K]

/-- The level after a time without spending. -/
def refill (rate burst level elapsed : K) : K := min burst (level + rate * elapsed)

theorem refill_le_burst (rate burst level elapsed : K) :
    refill rate burst level elapsed ≤ burst :=
  min_le_left _ _

theorem refill_le_add (rate burst level elapsed : K) :
    refill rate burst level elapsed ≤ level + rate * elapsed :=
  min_le_right _ _

/-- Requests that are metered from a level at a time: each is answered at its own
time, no earlier than the last, and what it spends and leaves was there. -/
inductive Metered (rate burst : K) : (time level : K) → List (K × Bool) → Prop
  | nil {time level : K} : Metered rate burst time level []
  | cons {time level now left : K} {spent : Bool} {rest : List (K × Bool)}
      (later : time ≤ now) (nonneg : 0 ≤ left)
      (covered : left + (if spent then 1 else 0) ≤ refill rate burst level (now - time))
      (onward : Metered rate burst now left rest) :
      Metered rate burst time level ((now, spent) :: rest)

/-- Nothing is granted before the metering began. -/
theorem Metered.granted_of_lt {rate burst time level : K} {log : List (K × Bool)}
    (metered : Metered rate burst time level log) {start finish : K}
    (passed : finish < time) : granted start finish log = 0 := by
  induction metered with
  | nil => rfl
  | @cons time level now left spent rest later _ _ _ ih =>
      have after : finish < now := passed.trans_le later
      rw [granted_cons, ih after, if_neg]
      rintro ⟨_, _, within⟩
      exact absurd within (not_le.mpr after)

variable [IsStrictOrderedRing K]

theorem refill_nonneg {rate burst level elapsed : K} (rising : 0 ≤ rate) (limit : 0 ≤ burst)
    (filled : 0 ≤ level) (later : 0 ≤ elapsed) : 0 ≤ refill rate burst level elapsed :=
  le_min limit (add_nonneg filled (mul_nonneg rising later))

theorem refill_mono {rate burst level elapsed longer : K} (rising : 0 ≤ rate)
    (later : elapsed ≤ longer) :
    refill rate burst level elapsed ≤ refill rate burst level longer := by
  apply min_le_min_left
  gcongr

/-- A level at zero or above is full once the time alone fills it. -/
theorem refill_eq_burst {rate burst level elapsed : K} (filled : 0 ≤ level)
    (long : burst ≤ rate * elapsed) : refill rate burst level elapsed = burst := by
  apply min_eq_left
  linarith

section

variable {rate burst : K} {time level : K} {log : List (K × Bool)}

/-- From now on no more is granted than is there and flows in. -/
theorem Metered.granted_le (metered : Metered rate burst time level log) (rising : 0 ≤ rate)
    (filled : 0 ≤ level) {start finish : K} (ahead : time ≤ finish) :
    (granted start finish log : K) ≤ level + rate * (finish - time) := by
  induction metered with
  | nil =>
      have inflow := mul_nonneg rising (sub_nonneg.mpr ahead)
      simpa [granted] using add_nonneg filled inflow
  | @cons time level now left spent rest later nonneg covered onward ih =>
      by_cases within : now ≤ finish
      · have others := ih nonneg within
        have budget := covered.trans (refill_le_add rate burst level (now - time))
        have mine : ((if spent ∧ start ≤ now ∧ now ≤ finish then 1 else 0 : Nat) : K) ≤
            if spent then 1 else 0 := by
          cases spent with
          | false => simp
          | true =>
              simp only [true_and]
              split <;> simp
        rw [granted_cons, Nat.cast_add]
        calc ((if spent ∧ start ≤ now ∧ now ≤ finish then 1 else 0 : Nat) : K) +
              granted start finish rest
            ≤ (if spent then 1 else 0) + (left + rate * (finish - now)) :=
              add_le_add mine others
          _ ≤ level + rate * (now - time) + rate * (finish - now) := by linarith
          _ = level + rate * (finish - time) := by ring
      · have after : finish < now := not_le.mp within
        have none : granted start finish ((now, spent) :: rest) = 0 := by
          rw [granted_cons, onward.granted_of_lt after, if_neg fun inside => within inside.2.2]
        rw [none, Nat.cast_zero]
        exact add_nonneg filled (mul_nonneg rising (sub_nonneg.mpr ahead))

/-- In every interval, at most the limit is granted and what flows in. -/
theorem Metered.granted_le_burst (metered : Metered rate burst time level log)
    (rising : 0 ≤ rate) (limit : 0 ≤ burst) {start finish : K} (ordered : start ≤ finish) :
    (granted start finish log : K) ≤ burst + rate * (finish - start) := by
  induction metered with
  | nil =>
      have inflow := mul_nonneg rising (sub_nonneg.mpr ordered)
      simpa [granted] using add_nonneg limit inflow
  | @cons time level now left spent rest later nonneg covered onward ih =>
      by_cases within : start ≤ now ∧ now ≤ finish
      · -- The first request of the interval: whatever came before, the level is at
        -- most the limit.
        have others : (granted start finish rest : K) ≤ left + rate * (finish - now) :=
          onward.granted_le rising nonneg within.2
        have budget := covered.trans (refill_le_burst rate burst level (now - time))
        have shorter : rate * (finish - now) ≤ rate * (finish - start) := by
          gcongr
          exact within.1
        have mine : ((if spent ∧ start ≤ now ∧ now ≤ finish then 1 else 0 : Nat) : K) =
            if spent then 1 else 0 := by
          simp only [within, and_self, and_true]
          split <;> simp
        rw [granted_cons, Nat.cast_add, mine]
        linarith
      · have outside : ¬ (spent = true ∧ start ≤ now ∧ now ≤ finish) :=
          fun inside => within inside.2
        rw [granted_cons, if_neg outside, Nat.zero_add]
        exact ih

end

end TokenBucket

end NellDB.Data
