import NellDB.Data.Bytes

namespace NellDB.Data

/-! Coercion of byte strings to well-formed UTF-8. -/

namespace Utf8

def between (low high : Byte) (byte : Byte) : Bool :=
  decide (low ≤ byte) && decide (byte ≤ high)

/-- The bytes a sequence that starts with `first` continues with, as ranges. -/
def continuation (first : Byte) : Option (List (Byte × Byte)) :=
  if first < 0x80 then some []
  else if between 0xC2 0xDF first then some [(0x80, 0xBF)]
  else if first = 0xE0 then some [(0xA0, 0xBF), (0x80, 0xBF)]
  else if first = 0xED then some [(0x80, 0x9F), (0x80, 0xBF)]
  else if between 0xE1 0xEF first then some [(0x80, 0xBF), (0x80, 0xBF)]
  else if first = 0xF0 then some [(0x90, 0xBF), (0x80, 0xBF), (0x80, 0xBF)]
  else if first = 0xF4 then some [(0x80, 0x8F), (0x80, 0xBF), (0x80, 0xBF)]
  else if between 0xF1 0xF3 first then
    some [(0x80, 0xBF), (0x80, 0xBF), (0x80, 0xBF)]
  else none

def matchesRanges : List (Byte × Byte) → Bytes → Bool
  | [], _ => true
  | _ :: _, [] => false
  | (low, high) :: ranges, byte :: rest =>
      between low high byte && matchesRanges ranges rest

def replacement : Bytes := [0xEF, 0xBF, 0xBD]

/-- Every byte that does not start a well-formed sequence becomes a
replacement character. -/
def coerceFrom : (fuel : Nat) → Bytes → Bytes
  | 0, _ => []
  | _ + 1, [] => []
  | fuel + 1, first :: rest =>
      match continuation first with
      | some ranges =>
          if matchesRanges ranges rest then
            first :: rest.take ranges.length ++ coerceFrom fuel (rest.drop ranges.length)
          else
            replacement ++ coerceFrom fuel rest
      | none => replacement ++ coerceFrom fuel rest

def coerce (text : Bytes) : Bytes := coerceFrom text.length text

def Valid (text : Bytes) : Prop := coerce text = text

instance (text : Bytes) : Decidable (Valid text) :=
  inferInstanceAs (Decidable (_ = _))

theorem continuation_of_ascii {first : Byte} (ascii : first < 0x80) :
    continuation first = some [] :=
  if_pos ascii

theorem valid_of_ascii {text : Bytes} (ascii : ∀ byte ∈ text, byte < 0x80) :
    Valid text := by
  unfold Valid coerce
  induction text with
  | nil => rfl
  | cons first rest ih =>
      have tail := ih fun byte member => ascii byte (List.mem_cons_of_mem first member)
      have head := continuation_of_ascii (ascii first List.mem_cons_self)
      simp [coerceFrom, head, matchesRanges, tail]

theorem coerce_cons_of_ascii {first : Byte} (ascii : first < 0x80) (rest : Bytes) :
    coerce (first :: rest) = first :: coerce rest := by
  simp [coerce, coerceFrom, continuation_of_ascii ascii, matchesRanges]

theorem exists_coerce_cons {first : Byte} (beyond : ¬ first < 0x80) (rest : Bytes) :
    ∃ head tail, coerce (first :: rest) = head :: tail ∧ ¬ head < 0x80 := by
  unfold coerce
  rw [List.length_cons, coerceFrom]
  cases continuation first with
  | none => exact ⟨0xEF, _, rfl, by decide⟩
  | some ranges =>
      dsimp only
      split
      next => exact ⟨first, _, rfl, beyond⟩
      next => exact ⟨0xEF, _, rfl, by decide⟩

theorem take_coerce_eq_iff {text start : Bytes} (ascii : ∀ byte ∈ start, byte < 0x80) :
    (coerce text).take start.length = start ↔ text.take start.length = start := by
  induction start generalizing text with
  | nil => simp
  | cons byte more ih =>
      have plain := ascii byte List.mem_cons_self
      have plainMore : ∀ other ∈ more, other < 0x80 := fun other member =>
        ascii other (List.mem_cons_of_mem byte member)
      cases text with
      | nil => rfl
      | cons first rest =>
          by_cases isAscii : first < 0x80
          · rw [coerce_cons_of_ascii isAscii]
            simp only [List.length_cons, List.take_succ_cons, List.cons.injEq, ih plainMore]
          · obtain ⟨head, tail, coerced, beyond⟩ := exists_coerce_cons isAscii rest
            rw [coerced]
            simp only [List.length_cons, List.take_succ_cons, List.cons.injEq]
            constructor
            · rintro ⟨rfl, _⟩
              exact absurd plain beyond
            · rintro ⟨rfl, _⟩
              exact absurd plain isAscii

/-! The coerced string is well formed: it consists of sequences that are kept. -/

theorem coerceFrom_of_le {text : Bytes} {fuel : Nat} (enough : text.length ≤ fuel) :
    coerceFrom fuel text = coerce text := by
  induction fuel using Nat.strong_induction_on generalizing text with
  | h fuel ih =>
      match fuel, text with
      | 0, [] => rfl
      | fuel + 1, [] => rfl
      | fuel + 1, first :: rest =>
          rw [List.length_cons, Nat.add_le_add_iff_right] at enough
          have after (count : Nat) : coerceFrom fuel (rest.drop count) =
              coerceFrom rest.length (rest.drop count) := by
            have shorter : (rest.drop count).length ≤ rest.length :=
              (List.drop_sublist count rest).length_le
            rw [ih fuel (Nat.lt_succ_self fuel) (shorter.trans enough),
              ih rest.length (Nat.lt_succ_of_le enough) shorter]
          have next := after 0
          rw [List.drop_zero] at next
          unfold coerce
          rw [List.length_cons, coerceFrom, coerceFrom]
          cases continuation first with
          | none => rw [next]
          | some ranges => simp only [after, next]

theorem matchesRanges_append {ranges : List (Byte × Byte)} {sequence : Bytes}
    (sized : sequence.length = ranges.length) (rest : Bytes) :
    matchesRanges ranges (sequence ++ rest) = matchesRanges ranges sequence := by
  induction ranges generalizing sequence with
  | nil => rfl
  | cons range ranges ih =>
      cases sequence with
      | nil => simp at sized
      | cons byte sequence =>
          rw [List.length_cons, List.length_cons, Nat.add_right_cancel_iff] at sized
          rw [List.cons_append, matchesRanges, matchesRanges, ih sized]

theorem length_le_of_matchesRanges {ranges : List (Byte × Byte)} {text : Bytes}
    (isMatch : matchesRanges ranges text = true) : ranges.length ≤ text.length := by
  induction ranges generalizing text with
  | nil => exact Nat.zero_le _
  | cons range ranges ih =>
      cases text with
      | nil => simp [matchesRanges] at isMatch
      | cons byte rest =>
          rw [matchesRanges, Bool.and_eq_true] at isMatch
          exact Nat.succ_le_succ (ih isMatch.2)

theorem coerce_sequence {first : Byte} {ranges : List (Byte × Byte)} {sequence : Bytes}
    (starts : continuation first = some ranges)
    (isMatch : matchesRanges ranges sequence = true)
    (sized : sequence.length = ranges.length) (rest : Bytes) :
    coerce (first :: (sequence ++ rest)) = first :: (sequence ++ coerce rest) := by
  have kept : matchesRanges ranges (sequence ++ rest) = true := by
    rw [matchesRanges_append sized, isMatch]
  have enough : rest.length ≤ (sequence ++ rest).length := by
    rw [List.length_append]
    exact Nat.le_add_left _ _
  unfold coerce
  rw [List.length_cons, coerceFrom]
  simp only [starts, kept, if_true]
  rw [← sized, List.take_left, List.drop_left, coerceFrom_of_le enough]
  rfl

theorem coerce_replacement (rest : Bytes) :
    coerce (replacement ++ rest) = replacement ++ coerce rest := by
  have starts : continuation 0xEF = some [(0x80, 0xBF), (0x80, 0xBF)] := rfl
  have isMatch : matchesRanges [(0x80, 0xBF), (0x80, 0xBF)] [0xBF, 0xBD] = true := by decide
  exact coerce_sequence starts isMatch rfl rest

/-- A well-formed sequence at the front is kept; otherwise the first byte is
replaced. -/
theorem coerce_cons_cases (first : Byte) (rest : Bytes) :
    (∃ ranges sequence tail, rest = sequence ++ tail ∧ continuation first = some ranges ∧
      matchesRanges ranges sequence = true ∧ sequence.length = ranges.length) ∨
    coerce (first :: rest) = replacement ++ coerce rest := by
  have unfolded : coerce (first :: rest) = coerceFrom (rest.length + 1) (first :: rest) := rfl
  cases starts : continuation first with
  | none =>
      right
      rw [unfolded, coerceFrom]
      simp only [starts]
      rfl
  | some ranges =>
      cases isMatch : matchesRanges ranges rest with
      | false =>
          right
          rw [unfolded, coerceFrom]
          simp only [starts, isMatch, Bool.false_eq_true, if_false]
          rfl
      | true =>
          left
          have sized : (rest.take ranges.length).length = ranges.length := by
            rw [List.length_take]
            exact Nat.min_eq_left (length_le_of_matchesRanges isMatch)
          refine ⟨ranges, rest.take ranges.length, rest.drop ranges.length,
            (List.take_append_drop _ _).symm, rfl, ?_, sized⟩
          rw [← matchesRanges_append sized (rest.drop ranges.length), List.take_append_drop]
          exact isMatch

theorem valid_coerce (text : Bytes) : Valid (coerce text) := by
  unfold Valid
  match text with
  | [] => rfl
  | first :: rest =>
      rcases coerce_cons_cases first rest with
        ⟨ranges, sequence, tail, rfl, starts, isMatch, sized⟩ | replaced
      · have shorter : tail.length < (first :: (sequence ++ tail)).length := by
          rw [List.length_cons, List.length_append]
          omega
        rw [coerce_sequence starts isMatch sized, coerce_sequence starts isMatch sized,
          valid_coerce tail]
      · rw [replaced, coerce_replacement, valid_coerce rest]
termination_by text.length

end Utf8

end NellDB.Data
