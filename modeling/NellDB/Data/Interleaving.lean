import Mathlib.Logic.Function.Basic
import Mathlib.Tactic

namespace NellDB.Data

/-! Runs of a system whose actions may be restricted. -/

inductive Run {σ : Type u} {α : Type v} (step : σ → α → σ → Prop) (allowed : σ → α → Prop)
    (start : σ) : σ → Prop
  | start : Run step allowed start start
  | step {s next : σ} {action : α} (before : Run step allowed start s)
      (permitted : allowed s action) (taken : step s action next) :
      Run step allowed start next

/-- A run goes on with a step, which names the action that is to be allowed. -/
theorem Run.extend {σ : Type u} {α : Type v} {step : σ → α → σ → Prop}
    {allowed : σ → α → Prop} {start s next : σ} {action : α} (before : Run step allowed start s)
    (taken : step s action next) (permitted : allowed s action) : Run step allowed start next :=
  .step before permitted taken

/-- What every allowed step keeps, every run keeps. -/
theorem Run.keeps {σ : Type u} {α : Type v} {step : σ → α → σ → Prop}
    {allowed : σ → α → Prop} {invariant : σ → Prop}
    (kept : ∀ {s next action}, invariant s → allowed s action → step s action next →
      invariant next) {start s : σ} (run : Run step allowed start s)
    (initial : invariant start) : invariant s := by
  induction run with
  | start => exact initial
  | step _ permitted taken ih => exact kept ih permitted taken

theorem Run.head {σ : Type u} {α : Type v} {step : σ → α → σ → Prop}
    {allowed : σ → α → Prop} {start next final : σ} {action : α}
    (permitted : allowed start action) (taken : step start action next)
    (onward : Run step allowed next final) : Run step allowed start final := by
  induction onward with
  | start => exact .step .start permitted taken
  | step _ also takes ih => exact .step ih also takes

theorem Run.trans {σ : Type u} {α : Type v} {step : σ → α → σ → Prop}
    {allowed : σ → α → Prop} {start middle final : σ} (first : Run step allowed start middle)
    (second : Run step allowed middle final) : Run step allowed start final := by
  induction second with
  | start => exact first
  | step _ permitted taken ih => exact .step ih permitted taken

/-! Processes that take turns on a shared state. -/

structure Interleaved (ι σ φ : Type*) where
  shared : σ
  phase : ι → φ

namespace Interleaved

variable {ι σ φ : Type*} [DecidableEq ι] (advance : ι → σ → φ → σ × φ)

def move (s : Interleaved ι σ φ) (i : ι) : Interleaved ι σ φ :=
  let (shared, phase) := advance i s.shared (s.phase i)
  ⟨shared, Function.update s.phase i phase⟩

def run (s : Interleaved ι σ φ) (schedule : List ι) : Interleaved ι σ φ :=
  schedule.foldl (move advance) s

def Permitted (allowed : Interleaved ι σ φ → ι → Prop) :
    Interleaved ι σ φ → List ι → Prop
  | _, [] => True
  | s, i :: rest => allowed s i ∧ Permitted allowed (s.move advance i) rest

instance Permitted.decidable {allowed : Interleaved ι σ φ → ι → Prop}
    [∀ s i, Decidable (allowed s i)] : (s : Interleaved ι σ φ) → (schedule : List ι) →
      Decidable (Permitted advance allowed s schedule)
  | _, [] => inferInstanceAs (Decidable True)
  | s, i :: rest =>
      have : Decidable (Permitted advance allowed (s.move advance i) rest) :=
        Permitted.decidable _ rest
      inferInstanceAs (Decidable (allowed s i ∧ Permitted advance allowed _ rest))

variable {advance}

theorem moved {s : Interleaved ι σ φ} {i : ι} {shared : σ} {phase : φ}
    (result : advance i s.shared (s.phase i) = (shared, phase)) :
    (s.move advance i).shared = shared ∧ (s.move advance i).phase i = phase ∧
      ∀ j, j ≠ i → (s.move advance i).phase j = s.phase j := by
  unfold move
  rw [result]
  exact ⟨rfl, Function.update_self .., fun j other => Function.update_of_ne other ..⟩

/-- What every allowed step keeps, every permitted schedule keeps. -/
theorem Permitted.keeps {allowed : Interleaved ι σ φ → ι → Prop}
    {invariant : Interleaved ι σ φ → Prop}
    (step : ∀ s i, allowed s i → invariant s → invariant (s.move advance i))
    {s : Interleaved ι σ φ} {schedule : List ι} (permitted : Permitted advance allowed s schedule)
    (start : invariant s) : invariant (s.run advance schedule) := by
  induction schedule generalizing s with
  | nil => exact start
  | cons i rest ih => exact ih permitted.2 (step s i permitted.1 start)

end Interleaved

end NellDB.Data
