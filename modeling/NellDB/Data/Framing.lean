import Mathlib.Data.List.Basic
import Mathlib.Tactic

namespace NellDB.Data

/-! Cutting a stream of concatenated frames at an arbitrary position. -/

namespace Framing

/-- Number of leading frames that lie entirely within the first `kept`
symbols of their concatenation. -/
def wholeCount : List (List α) → Nat → Nat
  | [], _ => 0
  | frame :: rest, kept =>
      if frame.length ≤ kept then
        wholeCount rest (kept - frame.length) + 1
      else
        0

/-- The rest of a cut after its whole frames: nothing, or the beginning of a
frame that did not fit. -/
def Torn (frames : List (List α)) (torn : List α) : Prop :=
  torn = [] ∨ ∃ frame ∈ frames, torn <+: frame ∧ torn ≠ frame

theorem take_flatten_eq (frames : List (List α)) (kept : Nat) :
    ∃ torn, Torn frames torn ∧
      frames.flatten.take kept =
        (frames.take (wholeCount frames kept)).flatten ++ torn := by
  induction frames generalizing kept with
  | nil => exact ⟨[], .inl rfl, by simp [wholeCount]⟩
  | cons frame rest ih =>
      by_cases whole : frame.length ≤ kept
      · obtain ⟨torn, isTorn, cut⟩ := ih (kept - frame.length)
        have later : Torn (frame :: rest) torn := by
          rcases isTorn with empty | ⟨other, member, inside⟩
          · exact .inl empty
          · exact .inr ⟨other, List.mem_cons_of_mem frame member, inside⟩
        refine ⟨torn, later, ?_⟩
        rw [wholeCount, if_pos whole, List.flatten_cons, List.take_append,
          List.take_of_length_le whole, cut, List.take_succ_cons,
          List.flatten_cons, List.append_assoc]
      · have short : kept < frame.length := Nat.lt_of_not_le whole
        refine ⟨frame.take kept, .inr ⟨frame, List.mem_cons_self,
          List.take_prefix kept frame, ?_⟩, ?_⟩
        · intro equal
          have lengths := congrArg List.length equal
          rw [List.length_take] at lengths
          omega
        · rw [wholeCount, if_neg whole, List.flatten_cons,
            List.take_append_of_le_length short.le]
          rfl

theorem le_wholeCount {frames : List (List α)} {kept count : Nat}
    (bound : count ≤ frames.length)
    (inside : (frames.take count).flatten.length ≤ kept) :
    count ≤ wholeCount frames kept := by
  induction frames generalizing kept count with
  | nil => exact bound
  | cons frame rest ih =>
      cases count with
      | zero => exact Nat.zero_le _
      | succ count =>
          rw [List.take_succ_cons, List.flatten_cons, List.length_append] at inside
          have whole : frame.length ≤ kept := by omega
          have tail : count ≤ wholeCount rest (kept - frame.length) :=
            ih (Nat.le_of_succ_le_succ bound) (by omega)
          rw [wholeCount, if_pos whole]
          exact Nat.succ_le_succ tail

end Framing

end NellDB.Data
