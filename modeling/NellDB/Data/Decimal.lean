import NellDB.Data.Bytes

namespace NellDB

open Data

/-! Decimal and hexadecimal text. -/

/-- Decimal digits; twenty are enough for every machine integer. -/
def decimalFrom : (fuel value : Nat) → Bytes
  | 0, _ => []
  | fuel + 1, value =>
      (if value < 10 then [] else decimalFrom fuel (value / 10)) ++
        [Fin.ofNat 256 (48 + value % 10)]

def itoa (value : Int64) : Bytes :=
  if value.toInt < 0 then
    ascii ['-'] ++ decimalFrom 20 value.toInt.natAbs
  else
    decimalFrom 20 value.toInt.natAbs

def digitValue (byte : Byte) : Option Nat :=
  if 48 ≤ byte.val ∧ byte.val ≤ 57 then some (byte.val - 48) else none

def digitsValue (digits : Bytes) : Option Nat :=
  if digits = [] then
    none
  else
    digits.foldlM (fun total digit => (digitValue digit).map (10 * total + ·)) 0

/-- A signed decimal number within the range of a machine integer. -/
def atoi (text : Bytes) : Option Int64 := do
  let value : Int ← match text with
    | 45 :: digits => (digitsValue digits).map fun value => -(value : Int)
    | 43 :: digits => (digitsValue digits).map fun value => (value : Int)
    | digits => (digitsValue digits).map fun value => (value : Int)
  if -2 ^ 63 ≤ value ∧ value < 2 ^ 63 then some (Int64.ofInt value) else none

def hexDigit (value : Nat) : Byte :=
  Fin.ofNat 256 (if value < 10 then 48 + value else 87 + value)

def hexEncode (bytes : Bytes) : Bytes :=
  bytes.flatMap fun byte => [hexDigit (byte.val / 16), hexDigit (byte.val % 16)]

theorem digit_decimalFrom (fuel value : Nat) :
    ∀ byte ∈ decimalFrom fuel value, 48 ≤ byte.val ∧ byte.val ≤ 57 := by
  induction fuel generalizing value with
  | zero => simp [decimalFrom]
  | succ fuel ih =>
      intro byte member
      rcases List.mem_append.mp member with leading | last
      · split at leading
        next => simp at leading
        next => exact ih _ byte leading
      · have small : value % 10 < 10 := Nat.mod_lt _ (by decide)
        rw [List.mem_singleton.mp last, Fin.val_ofNat]
        omega

theorem ascii_decimalFrom (fuel value : Nat) :
    ∀ byte ∈ decimalFrom fuel value, byte < 0x80 := by
  intro byte member
  have range := digit_decimalFrom fuel value byte member
  rw [Fin.lt_def]
  change byte.val < 128
  omega

theorem ascii_itoa (value : Int64) : ∀ byte ∈ itoa value, byte < 0x80 := by
  unfold itoa
  split
  next =>
      intro byte member
      rcases List.mem_append.mp member with sign | digits
      · rw [List.mem_singleton.mp sign]
        decide
      · exact ascii_decimalFrom _ _ byte digits
  next => exact ascii_decimalFrom _ _

theorem hexDigit_lt {value : Nat} (bound : value < 16) : hexDigit value < 0x80 := by
  unfold hexDigit
  rw [Fin.lt_def, Fin.val_ofNat]
  split
  next =>
      change (48 + value) % 256 < 128
      omega
  next =>
      change (87 + value) % 256 < 128
      omega

theorem ascii_hexEncode (bytes : Bytes) : ∀ byte ∈ hexEncode bytes, byte < 0x80 := by
  intro byte member
  obtain ⟨encoded, _, digit⟩ := List.mem_flatMap.mp member
  have high : encoded.val / 16 < 16 := by
    have bound := encoded.isLt
    omega
  have low : encoded.val % 16 < 16 := Nat.mod_lt _ (by decide)
  rcases List.mem_cons.mp digit with rfl | second
  · exact hexDigit_lt high
  · rw [List.mem_singleton.mp second]
    exact hexDigit_lt low

theorem foldlM_digitValue_decimalFrom {fuel value : Nat} (fits : value < 10 ^ fuel) :
    (decimalFrom fuel value).foldlM
      (fun total digit => (digitValue digit).map (10 * total + ·)) 0 = some value := by
  induction fuel generalizing value with
  | zero =>
      have none : value = 0 := by simpa using fits
      simp [decimalFrom, none]
  | succ fuel ih =>
      have digit : digitValue (Fin.ofNat 256 (48 + value % 10)) = some (value % 10) := by
        have byte : (Fin.ofNat 256 (48 + value % 10)).val = 48 + value % 10 := by
          rw [Fin.val_ofNat]
          omega
        rw [digitValue, byte, if_pos (by omega), Nat.add_sub_cancel_left]
      have leading : (if value < 10 then [] else decimalFrom fuel (value / 10)).foldlM
          (fun total digit => (digitValue digit).map (10 * total + ·)) 0 =
          some (value / 10) := by
        split
        next small => simp [Nat.div_eq_of_lt small]
        next =>
            rw [Nat.pow_succ] at fits
            exact ih (by omega)
      rw [decimalFrom, List.foldlM_append, leading]
      simp only [List.foldlM_cons, List.foldlM_nil, digit, Option.bind_eq_bind,
        Option.bind_some, Option.map_some, Nat.div_add_mod, Option.pure_def]

theorem decimalFrom_ne_nil (fuel value : Nat) : decimalFrom (fuel + 1) value ≠ [] := by
  simp [decimalFrom]

theorem digitsValue_decimalFrom {fuel value : Nat} (fits : value < 10 ^ (fuel + 1)) :
    digitsValue (decimalFrom (fuel + 1) value) = some value := by
  rw [digitsValue, if_neg (decimalFrom_ne_nil fuel value), foldlM_digitValue_decimalFrom fits]

theorem atoi_unsigned {digits : Bytes} (unsigned : ∀ byte ∈ digits, 48 ≤ byte.val) :
    atoi digits = ((digitsValue digits).map Int.ofNat).bind fun value =>
      if -2 ^ 63 ≤ value ∧ value < 2 ^ 63 then some (Int64.ofInt value) else none := by
  unfold atoi
  split
  next => exact absurd (unsigned 45 List.mem_cons_self) (by decide)
  next => exact absurd (unsigned 43 List.mem_cons_self) (by decide)
  next => cases digitsValue digits <;> rfl

theorem atoi_negative (digits : Bytes) :
    atoi (ascii ['-'] ++ digits) =
      ((digitsValue digits).map fun value : Nat => -(value : Int)).bind fun value =>
        if -2 ^ 63 ≤ value ∧ value < 2 ^ 63 then some (Int64.ofInt value) else none := by
  change atoi (45 :: digits) = _
  unfold atoi
  split
  next rest same =>
      cases (List.cons.inj same).2
      cases digitsValue digits <;> rfl
  next rest same => exact absurd (List.cons.inj same).1 (by decide)
  next other _ => exact absurd rfl (other digits)

/-- The range check of `atoi`. -/
theorem bind_inRange (value : Int64) :
    ((some value.toInt).bind fun number =>
      if -2 ^ 63 ≤ number ∧ number < 2 ^ 63 then some (Int64.ofInt number) else none) =
      some value := by
  rw [Option.bind_some, if_pos ⟨value.le_toInt, value.toInt_lt⟩, Int64.ofInt_toInt]

theorem atoi_itoa (value : Int64) : atoi (itoa value) = some value := by
  have above := value.le_toInt
  have below := value.toInt_lt
  have small : value.toInt.natAbs < 10 ^ 20 := by omega
  unfold itoa
  split
  next negative =>
      have magnitude : -(value.toInt.natAbs : Int) = value.toInt := by omega
      rw [atoi_negative, digitsValue_decimalFrom small, Option.map_some, magnitude]
      exact bind_inRange value
  next natural =>
      have magnitude : Int.ofNat value.toInt.natAbs = value.toInt :=
        Int.natAbs_of_nonneg (not_lt.mp natural)
      have unsigned : ∀ byte ∈ decimalFrom 20 value.toInt.natAbs, 48 ≤ byte.val :=
        fun byte member => (digit_decimalFrom _ _ byte member).1
      rw [atoi_unsigned unsigned, digitsValue_decimalFrom small, Option.map_some, magnitude]
      exact bind_inRange value

theorem itoa_injective : Function.Injective itoa := by
  intro first second same
  have parsed : some first = some second := by
    rw [← atoi_itoa first, same, atoi_itoa second]
  exact Option.some.inj parsed

/-- The text of a number is a sign and digits. -/
theorem minus_le_itoa (value : Int64) : ∀ byte ∈ itoa value, 45 ≤ byte.val := by
  have digits : ∀ byte ∈ decimalFrom 20 value.toInt.natAbs, 45 ≤ byte.val := by
    intro byte member
    have range := digit_decimalFrom _ _ byte member
    omega
  unfold itoa
  split
  next =>
      intro byte member
      rcases List.mem_append.mp member with sign | digit
      · rw [List.mem_singleton.mp sign]
        decide
      · exact digits byte digit
  next => exact digits

theorem hexDigit_injective {first second : Nat} (firstBound : first < 16)
    (secondBound : second < 16) (same : hexDigit first = hexDigit second) :
    first = second := by
  have sameValue := congrArg Fin.val same
  unfold hexDigit at sameValue
  rw [Fin.val_ofNat, Fin.val_ofNat] at sameValue
  split at sameValue <;> split at sameValue <;> omega

theorem hexEncode_injective : Function.Injective hexEncode := by
  intro first
  induction first with
  | nil =>
      intro second same
      cases second with
      | nil => rfl
      | cons byte rest => simp [hexEncode] at same
  | cons byte rest ih =>
      intro second same
      cases second with
      | nil => simp [hexEncode] at same
      | cons other others =>
          have bound := byte.isLt
          have otherBound := other.isLt
          simp only [hexEncode, List.flatMap_cons, List.cons_append, List.nil_append,
            List.cons.injEq] at same
          obtain ⟨high, low, tail⟩ := same
          have sameHigh := hexDigit_injective (by omega) (by omega) high
          have sameLow := hexDigit_injective (by omega) (by omega) low
          have sameByte : byte = other := by
            apply Fin.ext
            omega
          rw [sameByte, ih tail]

theorem hexEncode_ne_nil {bytes : Bytes} (nonempty : bytes ≠ []) : hexEncode bytes ≠ [] := by
  intro empty
  exact nonempty (hexEncode_injective empty)

end NellDB
