import NellDB.Data.Bytes
import Mathlib.Data.Prod.Lex

namespace NellDB

open Data

/-- Hybrid logical clock: Unix milliseconds and a per-millisecond tick. -/
structure HLC where
  wallTime : Int64
  counter : Int32
  deriving DecidableEq, Repr

def newHLC (now : Int64) : HLC := ⟨now, 0⟩

namespace HLC

def zero : HLC := ⟨0, 0⟩

def tick (h : HLC) (now : Int64) : HLC :=
  if now > h.wallTime then
    ⟨now, 0⟩
  else
    ⟨h.wallTime, h.counter + 1⟩

def update (h peer : HLC) : HLC :=
  if peer.wallTime > h.wallTime then
    ⟨peer.wallTime, peer.counter + 1⟩
  else if peer.wallTime = h.wallTime ∧ peer.counter ≥ h.counter then
    ⟨h.wallTime, peer.counter + 1⟩
  else
    h

def greaterThan (a b : HLC) : Bool :=
  if a.wallTime ≠ b.wallTime then
    decide (a.wallTime > b.wallTime)
  else
    decide (a.counter > b.counter)

def encodeBinary (h : HLC) : Bytes :=
  bigEndian 8 h.wallTime.toUInt64.toNat ++
    bigEndian 4 h.counter.toUInt32.toNat

def decodeBinary (field : Bytes) : HLC where
  wallTime := (UInt64.ofNat (fieldValue (field.take 8))).toInt64
  counter := (UInt32.ofNat (fieldValue ((field.drop 8).take 4))).toInt32

/-! The order of `greaterThan` is the lexicographic order of the two fields. -/

def ordinal (h : HLC) : ℤ ×ₗ ℤ :=
  toLex (h.wallTime.toInt, h.counter.toInt)

theorem ordinal_injective : Function.Injective ordinal := by
  intro left right equal
  have fields : (left.wallTime.toInt, left.counter.toInt) =
      (right.wallTime.toInt, right.counter.toInt) := equal
  have wall := Int64.toInt_inj.mp (congrArg Prod.fst fields)
  have count := Int32.toInt_inj.mp (congrArg Prod.snd fields)
  cases left
  cases right
  simp_all

instance : LinearOrder HLC := LinearOrder.lift' ordinal ordinal_injective

theorem lt_iff (a b : HLC) :
    a < b ↔ a.wallTime < b.wallTime ∨
      a.wallTime = b.wallTime ∧ a.counter < b.counter := by
  have unfolded : a < b ↔ a.wallTime.toInt < b.wallTime.toInt ∨
      a.wallTime.toInt = b.wallTime.toInt ∧
        a.counter.toInt < b.counter.toInt :=
    Prod.Lex.toLex_lt_toLex
  rw [unfolded, Int64.toInt_inj, ← Int64.lt_iff_toInt_lt,
    ← Int32.lt_iff_toInt_lt]

theorem greaterThan_iff (a b : HLC) : a.greaterThan b = true ↔ b < a := by
  rw [lt_iff, greaterThan]
  by_cases same : a.wallTime = b.wallTime
  · have irreflexive : ¬ b.wallTime < b.wallTime := by
      rw [Int64.lt_iff_toInt_lt]
      omega
    simp [same, irreflexive]
  · have different : ¬ b.wallTime = a.wallTime := fun equal => same equal.symm
    simp [same, different]

theorem greaterThan_eq_false_iff (a b : HLC) :
    a.greaterThan b = false ↔ a ≤ b := by
  rw [← Bool.not_eq_true, greaterThan_iff, not_lt]

theorem lt_of_wallTime_lt {a b : HLC} (earlier : a.wallTime < b.wallTime) :
    a < b :=
  (lt_iff a b).mpr (.inl earlier)

def HasRoom (h : HLC) : Prop := h.counter ≠ Int32.maxValue

instance (h : HLC) : Decidable h.HasRoom :=
  inferInstanceAs (Decidable (_ ≠ _))

theorem counter_lt_succ {c : Int32} (room : c ≠ Int32.maxValue) : c < c + 1 := by
  have below : c.toInt ≠ 2 ^ 31 - 1 := by
    intro top
    exact room (Int32.toInt_inj.mp (top.trans Int32.toInt_maxValue.symm))
  have upper := c.toInt_lt
  have lower := c.le_toInt
  rw [Int32.lt_iff_toInt_lt, Int32.toInt_add, Int32.toInt_one,
    Int.bmod_eq_of_le (by omega) (by omega)]
  omega

theorem lt_tick {h : HLC} (room : h.HasRoom) (now : Int64) : h < h.tick now := by
  unfold tick
  split
  next later => exact lt_of_wallTime_lt later
  next =>
      rw [lt_iff]
      exact .inr ⟨rfl, counter_lt_succ room⟩

theorem lt_update {peer : HLC} (room : peer.HasRoom) (h : HLC) :
    peer < h.update peer := by
  unfold update
  split
  next =>
      rw [lt_iff]
      exact .inr ⟨rfl, counter_lt_succ room⟩
  next notLater =>
      split
      next same =>
          rw [lt_iff]
          exact .inr ⟨same.1, counter_lt_succ room⟩
      next behind =>
          rw [lt_iff]
          by_cases wall : peer.wallTime = h.wallTime
          · have count : ¬ peer.counter ≥ h.counter := fun ahead =>
              behind ⟨wall, ahead⟩
            refine .inr ⟨wall, ?_⟩
            rw [ge_iff_le, Int32.le_iff_toInt_le] at count
            rw [Int32.lt_iff_toInt_lt]
            omega
          · have different : peer.wallTime.toInt ≠ h.wallTime.toInt := fun equal =>
              wall (Int64.toInt_inj.mp equal)
            rw [gt_iff_lt, Int64.lt_iff_toInt_lt] at notLater
            refine .inl ?_
            rw [Int64.lt_iff_toInt_lt]
            omega

theorem le_update {peer : HLC} (room : peer.HasRoom) (h : HLC) :
    h ≤ h.update peer := by
  unfold update
  split
  next later => exact le_of_lt ((lt_iff _ _).mpr (.inl later))
  next =>
      split
      next same =>
          have ahead := same.2
          have step := counter_lt_succ room
          have passed : h.counter < peer.counter + 1 := by
            rw [ge_iff_le, Int32.le_iff_toInt_le] at ahead
            rw [Int32.lt_iff_toInt_lt] at step ⊢
            omega
          exact le_of_lt ((lt_iff _ _).mpr (.inr ⟨rfl, passed⟩))
      next => exact le_rfl

theorem lt_tick_of_wallTime_lt {earlier : HLC} {now : Int64}
    (later : earlier.wallTime < now) (h : HLC) : earlier < h.tick now := by
  apply lt_of_wallTime_lt
  unfold tick
  split
  next => exact later
  next notLater =>
      rw [gt_iff_lt, Int64.lt_iff_toInt_lt] at notLater
      rw [Int64.lt_iff_toInt_lt] at later ⊢
      change earlier.wallTime.toInt < h.wallTime.toInt
      omega

/-- The counter has room for a merge and a tick. -/
def HasRoomForTwo (h : HLC) : Prop := h.counter < Int32.maxValue - 1

instance (h : HLC) : Decidable h.HasRoomForTwo :=
  inferInstanceAs (Decidable (_ < _))

theorem HasRoomForTwo.hasRoom {h : HLC} (room : h.HasRoomForTwo) : h.HasRoom := by
  unfold HasRoomForTwo at room
  intro top
  rw [top] at room
  exact absurd room (by decide)

theorem hasRoom_update_of_room {h peer : HLC} (room : h.HasRoom)
    (peerRoom : peer.HasRoomForTwo) : (h.update peer).HasRoom := by
  have below : peer.counter + 1 ≠ Int32.maxValue := by
    unfold HasRoomForTwo at peerRoom
    intro top
    rw [← top, Int32.add_sub_cancel] at peerRoom
    exact absurd peerRoom Int32.lt_irrefl
  unfold update
  split
  next => exact below
  next =>
      split
      next => exact below
      next => exact room

theorem hasRoom_newHLC (now : Int64) : (newHLC now).HasRoom := by
  change (0 : Int32) ≠ Int32.maxValue
  decide

theorem HasRoomForTwo.hasRoom_update {peer : HLC} (room : peer.HasRoomForTwo)
    (now : Int64) : ((newHLC now).update peer).HasRoom :=
  hasRoom_update_of_room (hasRoom_newHLC now) room

/-! Clocks merged one after the other. -/

/-- Merging clocks never takes the wall time back. -/
theorem wallTime_le_update (h peer : HLC) : h.wallTime ≤ (h.update peer).wallTime := by
  unfold update
  split
  next later => exact Int64.le_of_lt later
  next =>
      split
      next => exact Int64.le_refl _
      next => exact Int64.le_refl _

theorem wallTime_le_foldl_update (h : HLC) (clocks : List HLC) :
    h.wallTime ≤ (clocks.foldl update h).wallTime := by
  induction clocks generalizing h with
  | nil => exact Int64.le_refl _
  | cons clock rest ih => exact Int64.le_trans (wallTime_le_update h clock) (ih _)

theorem wallTime_le_tick (h : HLC) (now : Int64) : h.wallTime ≤ (h.tick now).wallTime := by
  unfold tick
  split
  next later => exact Int64.le_of_lt later
  next => exact Int64.le_refl _

theorem hasRoom_foldl_update {h : HLC} (room : h.HasRoom) {clocks : List HLC}
    (rooms : ∀ clock ∈ clocks, clock.HasRoomForTwo) :
    (clocks.foldl update h).HasRoom := by
  induction clocks generalizing h with
  | nil => exact room
  | cons clock rest ih =>
      exact ih (hasRoom_update_of_room room (rooms clock List.mem_cons_self))
        fun later member => rooms later (List.mem_cons_of_mem clock member)

theorem le_foldl_update {h : HLC} {clocks : List HLC}
    (rooms : ∀ clock ∈ clocks, clock.HasRoomForTwo) : h ≤ clocks.foldl update h := by
  induction clocks generalizing h with
  | nil => exact le_rfl
  | cons clock rest ih =>
      have first := le_update (rooms clock List.mem_cons_self).hasRoom h
      exact first.trans (ih fun later member => rooms later (List.mem_cons_of_mem clock member))

/-- The clock that merging a clock reaches at least. -/
def succ (h : HLC) : HLC := ⟨h.wallTime, h.counter + 1⟩

theorem succ_le_of_lt {h later : HLC} (room : h.HasRoom) (passed : h < later) :
    h.succ ≤ later := by
  rcases (lt_iff h later).mp passed with wall | ⟨wall, count⟩
  · exact le_of_lt (lt_of_wallTime_lt wall)
  · have step := counter_lt_succ room
    by_contra behind
    rcases (lt_iff later h.succ).mp (not_le.mp behind) with back | ⟨_, between⟩
    · change later.wallTime < h.wallTime at back
      rw [wall] at back
      exact Int64.lt_irrefl back
    · have upper := h.counter.toInt_lt
      have lower := h.counter.le_toInt
      have top : h.counter.toInt ≠ 2 ^ 31 - 1 := fun last =>
        room (Int32.toInt_inj.mp (last.trans Int32.toInt_maxValue.symm))
      change later.counter < h.counter + 1 at between
      rw [Int32.lt_iff_toInt_lt, Int32.toInt_add, Int32.toInt_one,
        Int.bmod_eq_of_le (by omega) (by omega)] at between
      rw [Int32.lt_iff_toInt_lt] at count
      omega

theorem succ_le_foldl_update {h clock : HLC} {clocks : List HLC} (member : clock ∈ clocks)
    (rooms : ∀ clock ∈ clocks, clock.HasRoomForTwo) :
    clock.succ ≤ clocks.foldl update h := by
  induction clocks generalizing h with
  | nil => contradiction
  | cons head rest ih =>
      have later := fun clock member => rooms clock (List.mem_cons_of_mem head member)
      cases member with
      | head =>
          have room := (rooms clock List.mem_cons_self).hasRoom
          exact (succ_le_of_lt room (lt_update room h)).trans (le_foldl_update later)
      | tail _ member => exact ih member later

/-! When the incremented counter is at its last value, it wraps around. -/

def TickWraps (h : HLC) (now : Int64) : Prop :=
  h.counter = Int32.maxValue ∧ now ≤ h.wallTime

instance (h : HLC) (now : Int64) : Decidable (h.TickWraps now) :=
  inferInstanceAs (Decidable (_ ∧ _))

def UpdateWraps (h peer : HLC) : Prop :=
  peer.counter = Int32.maxValue ∧ h.wallTime ≤ peer.wallTime

instance (h peer : HLC) : Decidable (h.UpdateWraps peer) :=
  inferInstanceAs (Decidable (_ ∧ _))

theorem lt_tick_of_not_wraps {h : HLC} {now : Int64} (fine : ¬ h.TickWraps now) :
    h < h.tick now := by
  by_cases room : h.HasRoom
  · exact lt_tick room now
  · have full : h.counter = Int32.maxValue := not_not.mp room
    have later : h.wallTime < now := Int64.not_le.mp fun notLater => fine ⟨full, notLater⟩
    exact lt_tick_of_wallTime_lt later h

theorem update_of_wallTime_lt {h peer : HLC} (earlier : peer.wallTime < h.wallTime) :
    h.update peer = h := by
  have notLater : ¬ peer.wallTime > h.wallTime := Int64.not_lt.mpr (Int64.le_of_lt earlier)
  have different : ¬ (peer.wallTime = h.wallTime ∧ peer.counter ≥ h.counter) := by
    rintro ⟨same, _⟩
    rw [same] at earlier
    exact Int64.lt_irrefl earlier
  rw [update, if_neg notLater, if_neg different]

theorem update_of_lt {h peer : HLC} (earlier : peer < h) : h.update peer = h := by
  rcases (lt_iff peer h).mp earlier with wall | ⟨sameWall, count⟩
  · exact update_of_wallTime_lt wall
  · have notLater : ¬ peer.wallTime > h.wallTime := by
      rw [sameWall]
      exact Int64.lt_irrefl
    have behind : ¬ (peer.wallTime = h.wallTime ∧ peer.counter ≥ h.counter) := fun ahead =>
      Int32.not_le.mpr count ahead.2
    rw [update, if_neg notLater, if_neg behind]

theorem lt_update_of_not_wraps {h peer : HLC} (fine : ¬ h.UpdateWraps peer) :
    peer < h.update peer := by
  by_cases room : peer.HasRoom
  · exact lt_update room h
  · have full : peer.counter = Int32.maxValue := not_not.mp room
    have earlier : peer.wallTime < h.wallTime :=
      Int64.not_le.mp fun notEarlier => fine ⟨full, notEarlier⟩
    rw [update_of_wallTime_lt earlier]
    exact lt_of_wallTime_lt earlier

theorem le_update_of_not_wraps {h peer : HLC} (fine : ¬ h.UpdateWraps peer) :
    h ≤ h.update peer := by
  by_cases room : peer.HasRoom
  · exact le_update room h
  · have full : peer.counter = Int32.maxValue := not_not.mp room
    have earlier : peer.wallTime < h.wallTime :=
      Int64.not_le.mp fun notEarlier => fine ⟨full, notEarlier⟩
    exact (update_of_wallTime_lt earlier).ge

theorem length_encodeBinary (h : HLC) : h.encodeBinary.length = 12 := by
  simp [encodeBinary]

theorem decodeBinary_encodeBinary (h : HLC) :
    decodeBinary h.encodeBinary = h := by
  have wallField : h.encodeBinary.take 8 =
      bigEndian 8 h.wallTime.toUInt64.toNat := by
    simp [encodeBinary]
  have counterField : (h.encodeBinary.drop 8).take 4 =
      bigEndian 4 h.counter.toUInt32.toNat := by
    simp [encodeBinary]
  have wallFits : h.wallTime.toUInt64.toNat < 256 ^ 8 :=
    h.wallTime.toUInt64.toNat_lt
  have counterFits : h.counter.toUInt32.toNat < 256 ^ 4 :=
    h.counter.toUInt32.toNat_lt
  simp [decodeBinary, wallField, counterField,
    fieldValue_bigEndian wallFits, fieldValue_bigEndian counterFits]

/-- Twelve bytes of any kind are the encoding of a clock. -/
theorem encodeBinary_decodeBinary {field : Bytes} (sized : field.length = 12) :
    (decodeBinary field).encodeBinary = field := by
  have wallSized : (field.take 8).length = 8 := by
    rw [List.length_take]
    omega
  have counterSized : (field.drop 8).length = 4 := by
    rw [List.length_drop]
    omega
  have wallFits : fieldValue (field.take 8) < 2 ^ 64 := by
    simpa [wallSized] using fieldValue_lt (field.take 8)
  have counterFits : fieldValue (field.drop 8) < 2 ^ 32 := by
    simpa [counterSized] using fieldValue_lt (field.drop 8)
  have wallTime : (decodeBinary field).wallTime.toUInt64.toNat =
      fieldValue (field.take 8) := by
    simpa [decodeBinary] using wallFits
  have counter : (decodeBinary field).counter.toUInt32.toNat =
      fieldValue (field.drop 8) := by
    simpa [decodeBinary, List.take_of_length_le counterSized.le] using counterFits
  rw [encodeBinary, wallTime, counter, bigEndian_fieldValue wallSized,
    bigEndian_fieldValue counterSized, List.take_append_drop]

end HLC

end NellDB
