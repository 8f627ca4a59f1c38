import Mathlib.Data.List.Basic
import Mathlib.Tactic

namespace NellDB.Data

/-! Byte strings and unsigned big-endian fields. -/

abbrev Byte := Fin 256

abbrev Bytes := List Byte

instance neZero_256 : NeZero 256 := ⟨by decide⟩

def ascii (text : List Char) : Bytes :=
  text.map fun char => Fin.ofNat 256 char.toNat

/-- A field of `width` bytes.  The digits of `value` that do not fit are
dropped, as a narrowing integer conversion drops them. -/
def bigEndian : (width value : Nat) → Bytes
  | 0, _ => []
  | width + 1, value =>
      bigEndian width (value / 256) ++ [Fin.ofNat 256 value]

def fieldValue (field : Bytes) : Nat :=
  field.foldl (fun total byte => 256 * total + byte.val) 0

@[simp] theorem length_bigEndian (width value : Nat) :
    (bigEndian width value).length = width := by
  induction width generalizing value with
  | zero => rfl
  | succ width ih => simp [bigEndian, ih]

theorem fieldValue_concat (field : Bytes) (byte : Byte) :
    fieldValue (field ++ [byte]) = 256 * fieldValue field + byte.val := by
  simp [fieldValue]

theorem fieldValue_bigEndian_mod (width value : Nat) :
    fieldValue (bigEndian width value) = value % 256 ^ width := by
  induction width generalizing value with
  | zero => simp [bigEndian, fieldValue, Nat.mod_one]
  | succ width ih =>
      rw [bigEndian, fieldValue_concat, ih, Fin.val_ofNat,
        Nat.pow_succ', Nat.mod_mul, Nat.add_comm]

theorem fieldValue_bigEndian {width value : Nat}
    (fits : value < 256 ^ width) :
    fieldValue (bigEndian width value) = value := by
  rw [fieldValue_bigEndian_mod, Nat.mod_eq_of_lt fits]

theorem fieldValue_lt (field : Bytes) : fieldValue field < 256 ^ field.length := by
  induction field using List.reverseRecOn with
  | nil => simp [fieldValue]
  | append_singleton field byte ih =>
      have bound := byte.isLt
      rw [fieldValue_concat, List.length_append, List.length_singleton, Nat.pow_succ]
      omega

theorem bigEndian_fieldValue {field : Bytes} {width : Nat} (sized : field.length = width) :
    bigEndian width (fieldValue field) = field := by
  subst width
  induction field using List.reverseRecOn with
  | nil => rfl
  | append_singleton field byte ih =>
      have bound := byte.isLt
      have high : (256 * fieldValue field + byte.val) / 256 = fieldValue field := by omega
      have low : Fin.ofNat 256 (256 * fieldValue field + byte.val) = byte := by
        apply Fin.ext
        rw [Fin.val_ofNat]
        omega
      rw [fieldValue_concat, List.length_append, List.length_singleton, bigEndian, high, low,
        ih]

end NellDB.Data
