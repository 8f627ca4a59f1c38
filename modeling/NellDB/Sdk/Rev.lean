import NellDB.Data.Decimal
import NellDB.Data.Utf8
import NellDB.Record

namespace NellDB

open Data

/-! Revision tokens: a generation and the hash of the document body. -/

/-- The next generation; an empty or malformed previous token restarts at 1. -/
def nextGeneration (prev : GoString) : Int64 :=
  if prev = [] then
    1
  else
    match atoi (prev.takeWhile (· ≠ 45)) with
    | some generation => if generation > 0 then generation + 1 else 1
    | none => 1

def genRev (sha1 : Bytes → Bytes) (prev : GoString) (body : Bytes) : GoString :=
  itoa (nextGeneration prev) ++ ascii ['-'] ++ hexEncode (sha1 body)

theorem genRev_ne_nil (sha1 : Bytes → Bytes) (prev : GoString) (body : Bytes) :
    genRev sha1 prev body ≠ [] := by
  simp [genRev, ascii]

theorem valid_genRev (sha1 : Bytes → Bytes) (prev : GoString) (body : Bytes) :
    Utf8.Valid (genRev sha1 prev body) := by
  apply Utf8.valid_of_ascii
  intro byte member
  rcases List.mem_append.mp member with front | digest
  · rcases List.mem_append.mp front with generation | dash
    · exact ascii_itoa _ byte generation
    · rw [List.mem_singleton.mp dash]
      decide
  · exact ascii_hexEncode _ byte digest

/-- The generation in front of a new revision is read back, unless it is
negative: its text then starts with the separator. -/
theorem atoi_genRev (sha1 : Bytes → Bytes) (prev : GoString) (body : Bytes) :
    atoi ((genRev sha1 prev body).takeWhile (· ≠ 45)) =
      if (nextGeneration prev).toInt < 0 then none else some (nextGeneration prev) := by
  rw [genRev]
  generalize nextGeneration prev = generation
  split
  next negative =>
      rw [itoa, if_pos negative]
      rfl
  next natural =>
      have digits : ∀ byte ∈ itoa generation, decide (byte ≠ 45) = true := by
        intro byte member
        rw [itoa, if_neg natural] at member
        have range := digit_decimalFrom _ _ byte member
        rw [decide_eq_true_iff]
        rintro rfl
        exact absurd range.1 (by decide)
      have dash : (ascii ['-'] ++ hexEncode (sha1 body)).takeWhile
          (fun byte => decide (byte ≠ 45)) = [] := rfl
      rw [List.append_assoc, List.takeWhile_append_of_pos digits, dash, List.append_nil,
        atoi_itoa]

theorem nextGeneration_genRev (sha1 : Bytes → Bytes) (prev : GoString) (body : Bytes) :
    nextGeneration (genRev sha1 prev body) =
      if nextGeneration prev > 0 then nextGeneration prev + 1 else 1 := by
  rw [nextGeneration, if_neg (genRev_ne_nil _ _ _), atoi_genRev]
  by_cases negative : (nextGeneration prev).toInt < 0
  · have notPositive : ¬ nextGeneration prev > 0 := by
      rw [gt_iff_lt, Int64.lt_iff_toInt_lt, Int64.toInt_zero]
      omega
    rw [if_pos negative, if_neg notPositive]
  · rw [if_neg negative]

theorem genRev_ne (sha1 : Bytes → Bytes) (prev : GoString) (body : Bytes) :
    genRev sha1 prev body ≠ prev := by
  intro same
  have next := nextGeneration_genRev sha1 prev body
  rw [same] at next
  split at next
  next => grind
  next positive =>
    rw [next] at positive
    exact absurd (by decide) positive

/-- The generation that a revision starts with, zero if it has none. -/
def generation (rev : GoString) : Int :=
  ((atoi (rev.takeWhile (· ≠ 45))).getD 0).toInt

/-- A revision whose generation can be counted on. -/
def Extensible (rev : GoString) : Prop :=
  atoi (rev.takeWhile (· ≠ 45)) ≠ some Int64.maxValue

theorem toInt_succ {value : Int64} (notLast : value ≠ Int64.maxValue) :
    (value + 1).toInt = value.toInt + 1 := by
  have upper := value.toInt_lt
  have lower := value.le_toInt
  have top : value.toInt ≠ 2 ^ 63 - 1 := by
    intro last
    apply notLast
    rw [← Int64.toInt_inj, last]
    decide
  have one : (1 : Int64).toInt = 1 := by decide
  rw [Int64.toInt_add, one]
  apply Int.bmod_eq_of_le
  · omega
  · omega

theorem toInt_nextGeneration {prev : GoString} (extensible : Extensible prev) :
    (nextGeneration prev).toInt = if 0 < generation prev then generation prev + 1 else 1 := by
  have one : (1 : Int64).toInt = 1 := by decide
  unfold nextGeneration generation
  unfold Extensible at extensible
  split
  next empty =>
      subst prev
      have none : atoi (([] : GoString).takeWhile (fun byte => decide (byte ≠ 45))) = none := by
        decide
      rw [none]
      decide
  next =>
      cases read : atoi (prev.takeWhile fun byte => decide (byte ≠ 45)) with
      | none =>
          simp only [Option.getD_none]
          decide
      | some value =>
          rw [read] at extensible
          have notLast : value ≠ Int64.maxValue := fun last => extensible (last ▸ rfl)
          simp only [Option.getD_some, gt_iff_lt, Int64.lt_iff_toInt_lt, Int64.toInt_zero]
          split
          next => exact toInt_succ notLast
          next => exact one

theorem generation_genRev {prev : GoString} (extensible : Extensible prev)
    (sha1 : Bytes → Bytes) (body : Bytes) :
    generation (genRev sha1 prev body) =
      if 0 < generation prev then generation prev + 1 else 1 := by
  have next := toInt_nextGeneration extensible
  have natural : ¬ (nextGeneration prev).toInt < 0 := by
    rw [next]
    split <;> omega
  rw [generation, atoi_genRev, if_neg natural]
  exact next

theorem generation_genRev_pos {prev : GoString} (extensible : Extensible prev)
    (sha1 : Bytes → Bytes) (body : Bytes) : 0 < generation (genRev sha1 prev body) := by
  rw [generation_genRev extensible]
  split <;> omega

theorem generation_lt_genRev {prev : GoString} (extensible : Extensible prev)
    (sha1 : Bytes → Bytes) (body : Bytes) :
    generation prev < generation (genRev sha1 prev body) := by
  rw [generation_genRev extensible]
  split <;> omega

end NellDB
