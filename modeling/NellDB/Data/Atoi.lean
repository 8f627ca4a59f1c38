import NellDB.Data.Decimal

namespace NellDB

open Data

/-! The parser as the library has it: with its error it also returns a number, the
nearest bound where the digits are out of range. -/

inductive AtoiError where
  | malformed
  | outOfRange
  deriving DecidableEq, Repr

/-- Digits are read until their value leaves 64 bits, whatever follows them. -/
def scanDigits : (total : Nat) → Bytes → Except AtoiError Nat
  | total, [] => .ok total
  | total, byte :: rest =>
      match digitValue byte with
      | none => .error .malformed
      | some digit =>
          if 2 ^ 64 ≤ 10 * total + digit then
            .error .outOfRange
          else
            scanDigits (10 * total + digit) rest

def parseUint (digits : Bytes) : Except AtoiError Nat :=
  if digits = [] then .error .malformed else scanDigits 0 digits

def splitSign : Bytes → Bool × Bytes
  | 45 :: digits => (true, digits)
  | 43 :: digits => (false, digits)
  | digits => (false, digits)

def strconvAtoi (text : Bytes) : Int64 × Option AtoiError :=
  let (negative, digits) := splitSign text
  match parseUint digits with
  | .error .malformed => (0, some .malformed)
  | .error .outOfRange =>
      (if negative then Int64.minValue else Int64.maxValue, some .outOfRange)
  | .ok value =>
      if negative then
        if 2 ^ 63 < value then (Int64.minValue, some .outOfRange)
        else (Int64.ofInt (-value), none)
      else
        if 2 ^ 63 ≤ value then (Int64.maxValue, some .outOfRange)
        else (Int64.ofInt value, none)

/-- The number that the digits in front of a text denote, with those before it. -/
def leadingFrom : (total : Nat) → Bytes → Nat
  | total, [] => total
  | total, byte :: rest =>
      match digitValue byte with
      | none => total
      | some digit => leadingFrom (10 * total + digit) rest

def leadingNumber (text : Bytes) : Nat := leadingFrom 0 text

def allDigits (text : Bytes) : Bool := text.all fun byte => (digitValue byte).isSome

theorem le_leadingFrom (total : Nat) (text : Bytes) : total ≤ leadingFrom total text := by
  induction text generalizing total with
  | nil => exact le_rfl
  | cons byte rest ih =>
      rw [leadingFrom]
      cases digitValue byte with
      | none => exact le_rfl
      | some digit =>
          have onward := ih (10 * total + digit)
          dsimp only
          omega

theorem scanDigits_eq {total : Nat} (fits : total < 2 ^ 64) (text : Bytes) :
    scanDigits total text =
      if 2 ^ 64 ≤ leadingFrom total text then .error .outOfRange
      else if allDigits text then .ok (leadingFrom total text) else .error .malformed := by
  induction text generalizing total with
  | nil =>
      rw [scanDigits, leadingFrom, if_neg (not_le.mpr fits)]
      rfl
  | cons byte rest ih =>
      rw [scanDigits, leadingFrom, allDigits, List.all_cons]
      cases digitValue byte with
      | none =>
          dsimp only
          rw [if_neg (not_le.mpr fits)]
          rfl
      | some digit =>
          have grows := le_leadingFrom (10 * total + digit) rest
          dsimp only
          split
          next beyond =>
              -- More digits only raise a value that has left 64 bits.
              rw [if_pos (beyond.trans grows)]
          next within =>
              rw [ih (not_le.mp within), allDigits]
              simp

theorem foldlM_digitValue (total : Nat) (text : Bytes) :
    text.foldlM (fun total digit => (digitValue digit).map (10 * total + ·)) total =
      if allDigits text then some (leadingFrom total text) else none := by
  induction text generalizing total with
  | nil => rfl
  | cons byte rest ih =>
      rw [List.foldlM_cons, leadingFrom, allDigits, List.all_cons]
      cases digitValue byte with
      | none => rfl
      | some digit => simpa [allDigits] using ih (10 * total + digit)

theorem parseUint_of_large {digits : Bytes} (large : 2 ^ 64 ≤ leadingNumber digits) :
    parseUint digits = .error .outOfRange := by
  have nonempty : digits ≠ [] := by
    rintro rfl
    exact absurd large (by decide)
  rw [parseUint, if_neg nonempty, scanDigits_eq (by decide)]
  exact if_pos large

theorem parseUint_of_lt {digits : Bytes} (small : leadingNumber digits < 2 ^ 64) :
    parseUint digits = if digits ≠ [] ∧ allDigits digits then .ok (leadingNumber digits)
      else .error .malformed := by
  unfold parseUint
  by_cases empty : digits = []
  · rw [if_pos empty, if_neg fun number => number.1 empty]
  · have within : ¬ 2 ^ 64 ≤ leadingFrom 0 digits := not_le.mpr small
    rw [if_neg empty, scanDigits_eq (by decide), if_neg within]
    simp [empty, leadingNumber]

theorem digitsValue_eq (digits : Bytes) :
    digitsValue digits = if digits ≠ [] ∧ allDigits digits then some (leadingNumber digits)
      else none := by
  unfold digitsValue
  by_cases empty : digits = []
  · rw [if_pos empty, if_neg fun number => number.1 empty]
  · rw [if_neg empty, foldlM_digitValue]
    simp [empty, leadingNumber]

/-- The two readers of digits differ only in what they say of a text they refuse. -/
theorem parseUint_ok_iff {digits : Bytes} {value : Nat} :
    parseUint digits = .ok value ↔ digitsValue digits = some value ∧ value < 2 ^ 64 := by
  rw [digitsValue_eq]
  by_cases small : leadingNumber digits < 2 ^ 64
  · rw [parseUint_of_lt small]
    split
    next =>
        rw [Except.ok.injEq, Option.some.injEq]
        constructor
        · intro same
          exact ⟨same, same ▸ small⟩
        · exact And.left
    next => simp
  · rw [parseUint_of_large (not_lt.mp small)]
    constructor
    · intro read
      cases read
    · rintro ⟨read, bound⟩
      split at read
      next =>
          cases read
          exact absurd bound small
      next => cases read

theorem splitSign_unsigned {text : Bytes} (noMinus : ∀ digits, text ≠ 45 :: digits)
    (noPlus : ∀ digits, text ≠ 43 :: digits) : splitSign text = (false, text) := by
  unfold splitSign
  split
  next digits => exact absurd rfl (noMinus digits)
  next digits => exact absurd rfl (noPlus digits)
  next => rfl

theorem strconvAtoi_unsigned {text : Bytes} (unsigned : (splitSign text).1 = false) :
    strconvAtoi text =
      match parseUint (splitSign text).2 with
      | .error .malformed => (0, some .malformed)
      | .error .outOfRange => (Int64.maxValue, some .outOfRange)
      | .ok value =>
          if 2 ^ 63 ≤ value then (Int64.maxValue, some .outOfRange)
          else (Int64.ofInt value, none) := by
  unfold strconvAtoi
  generalize splitSign text = signed at unsigned
  obtain ⟨negative, digits⟩ := signed
  cases unsigned
  rfl

def inRange (number : Int) : Option Int64 :=
  if -2 ^ 63 ≤ number ∧ number < 2 ^ 63 then some (Int64.ofInt number) else none

theorem atoi_eq_splitSign (text : Bytes) :
    atoi text = (digitsValue (splitSign text).2).bind fun value =>
      inRange (if (splitSign text).1 then -value else value) := by
  unfold atoi
  split
  next digits =>
      rw [show splitSign (45 :: digits) = (true, digits) from rfl]
      cases digitsValue digits <;> rfl
  next digits =>
      rw [show splitSign (43 :: digits) = (false, digits) from rfl]
      cases digitsValue digits <;> rfl
  next noMinus noPlus =>
      rw [splitSign_unsigned noMinus noPlus]
      cases digitsValue text <;> rfl

/-- What the parser returns without an error is what `atoi` returns. -/
theorem atoi_eq_some_iff {text : Bytes} {value : Int64} :
    atoi text = some value ↔ strconvAtoi text = (value, none) := by
  rw [atoi_eq_splitSign, strconvAtoi]
  generalize splitSign text = signed
  obtain ⟨negative, digits⟩ := signed
  dsimp only
  cases read : parseUint digits with
  | error failure =>
      have refused : (digitsValue digits).bind
          (fun number => inRange (if negative then -number else number)) = none := by
        cases valued : digitsValue digits with
        | none => rfl
        | some number =>
            have large : ¬ number < 2 ^ 64 := by
              intro small
              rw [parseUint_ok_iff.mpr ⟨valued, small⟩] at read
              cases read
            rw [Option.bind_some, inRange, if_neg]
            cases negative <;> simp <;> omega
      rw [refused]
      cases failure <;> simp
  | ok number =>
      obtain ⟨valued, _⟩ := parseUint_ok_iff.mp read
      rw [valued, Option.bind_some, inRange]
      cases negative with
      | true =>
          simp only [if_true]
          by_cases beyond : 2 ^ 63 < number
          · rw [if_neg (by omega), if_pos beyond]
            simp
          · rw [if_pos (by omega), if_neg beyond]
            simp
      | false =>
          simp only [Bool.false_eq_true, if_false]
          by_cases beyond : 2 ^ 63 ≤ number
          · rw [if_neg (by omega), if_pos beyond]
            simp
          · rw [if_pos (by omega), if_neg beyond]
            simp

end NellDB
