import NellDB.Store.Memory

namespace NellDB

open Data

/-! Stores that were given the same records agree, however the records were
ordered and repeated. -/

/-- The member of the set at the position that is greatest by clock and then
by node id. -/
structure Greatest (set : Finset Record) (position : GoString)
    (winner : Record) : Prop where
  member : winner ∈ set
  placed : winner.defaulted.key = position
  greatest : ∀ other ∈ set, other.defaulted.key = position → other ≠ winner →
    winner.clock.greaterThan other.clock = true ∨
      winner.clock = other.clock ∧ other.updatedBy < winner.updatedBy

private theorem mem_map_defaulted_iff {set : Finset Record} {sequence : List Record}
    (exhausts : ∀ r, r ∈ sequence ↔ r ∈ set) (stored : Record) :
    stored ∈ sequence.map Record.defaulted ↔
      ∃ r ∈ set, r.defaulted = stored := by
  simp only [List.mem_map, exhausts]

private theorem greatest_iff_isChampion {set : Finset Record}
    {sequence : List Record}
    (distinct : DistinctStamps (· ∈ set))
    (exhausts : ∀ r, r ∈ sequence ↔ r ∈ set) (position : GoString)
    (winner : Record) (member : winner ∈ set) :
    Greatest set position winner ↔
      Champion.IsChampion Record.key Record.stamp
        (· ∈ sequence.map Record.defaulted) position winner.defaulted := by
  have members := mem_map_defaulted_iff exhausts
  constructor
  · intro greatest
    refine ⟨(members _).mpr ⟨winner, member, rfl⟩, greatest.placed, ?_⟩
    intro stored storedMember placed
    obtain ⟨other, otherMember, rfl⟩ := (members _).mp storedMember
    by_cases same : other = winner
    · rw [same]
    · have order := greatest.greatest other otherMember placed same
      rw [HLC.greaterThan_iff, eq_comm, ← Record.stamp_lt_iff] at order
      exact order.le
  · intro champion
    refine ⟨member, champion.placed, ?_⟩
    intro other otherMember placed different
    have below := champion.greatest other.defaulted
      ((members _).mpr ⟨other, otherMember, rfl⟩) placed
    have strict : other.stamp < winner.stamp := by
      apply lt_of_le_of_ne below
      intro equal
      have fields := (Record.stamp_eq_iff other winner).mp equal
      exact different (distinct other winner otherMember member
        (placed.trans champion.placed.symm) fields.1 fields.2)
    rw [Record.stamp_lt_iff] at strict
    rw [HLC.greaterThan_iff, eq_comm]
    exact strict

private theorem separated_of_distinct {set : Finset Record} {sequence : List Record}
    (distinct : DistinctStamps (· ∈ set))
    (exhausts : ∀ r, r ∈ sequence ↔ r ∈ set) :
    Champion.Separated Record.key Record.stamp
      (· ∈ sequence.map Record.defaulted) := by
  intro left right leftMember rightMember sameKey sameStamp
  obtain ⟨first, firstMember, rfl⟩ :=
    (mem_map_defaulted_iff exhausts left).mp leftMember
  obtain ⟨second, secondMember, rfl⟩ :=
    (mem_map_defaulted_iff exhausts right).mp rightMember
  have fields := (Record.stamp_eq_iff first second).mp sameStamp
  rw [distinct first second firstMember secondMember sameKey fields.1 fields.2]

theorem put_converges (set : Finset Record)
    (distinct : DistinctStamps (· ∈ set))
    (left right : List Record)
    (leftExhausts : ∀ r, r ∈ left ↔ r ∈ set)
    (rightExhausts : ∀ r, r ∈ right ↔ r ∈ set)
    (leftNode rightNode : GoString) (leftNow rightNow : Int64) :
    ((newMemoryStore leftNode leftNow).putAll left).records =
        ((newMemoryStore rightNode rightNow).putAll right).records ∧
      ∀ position stored,
        ((newMemoryStore leftNode leftNow).putAll left).records.lookup position =
            some stored ↔
          ∃ winner, Greatest set position winner ∧ stored = winner.defaulted := by
  have leftMembers := mem_map_defaulted_iff leftExhausts
  have separated := separated_of_distinct distinct leftExhausts
  simp only [MemoryStore.putAll_records, newMemoryStore]
  refine ⟨Champion.enterAll_congr separated ?_, ?_⟩
  · intro stored
    rw [leftMembers, mem_map_defaulted_iff rightExhausts]
  · intro position stored
    constructor
    · intro found
      have champion := Champion.isChampion_enterAll found
      obtain ⟨winner, member, rfl⟩ := (leftMembers stored).mp champion.member
      exact ⟨winner, (greatest_iff_isChampion distinct leftExhausts position
        winner member).mpr champion, rfl⟩
    · rintro ⟨winner, greatest, rfl⟩
      have champion := (greatest_iff_isChampion distinct leftExhausts position
        winner greatest.member).mp greatest
      obtain ⟨held, found⟩ := Champion.isSome_lookup_enterAll Record.key
        Record.stamp champion.member
      rw [champion.placed] at found
      have heldChampion := Champion.isChampion_enterAll found
      rw [found, heldChampion.unique separated champion]

/-- Two replicas receive concurrent writes of two nodes at one clock, one of
them addressed to the empty collection. -/
theorem put_converges_concurrent_writes :
    let clock : HLC := ⟨1000, 3⟩
    let fromA : Record :=
      { Record.zero with id := ascii ['x'], clock, updatedBy := ascii ['a'] }
    let fromB : Record := { Record.zero with
      collection := defaultCollection, id := ascii ['x'], clock
      updatedBy := ascii ['b'] }
    ((newMemoryStore (ascii ['l']) 0).putAll [fromA, fromB, fromA]).records =
      ((newMemoryStore (ascii ['r']) 7).putAll [fromB, fromA]).records := by
  intro clock fromA fromB
  have distinct : DistinctStamps (· ∈ ({fromA, fromB} : Finset Record)) := by
    intro first second firstMember secondMember _ _ sameWriter
    simp only [Finset.mem_insert, Finset.mem_singleton] at firstMember secondMember
    rcases firstMember with rfl | rfl <;> rcases secondMember with rfl | rfl
    · rfl
    · exact absurd sameWriter (by decide)
    · exact absurd sameWriter (by decide)
    · rfl
  refine (put_converges {fromA, fromB} distinct _ _ ?_ ?_ _ _ 0 7).1
  · intro r
    simp
    tauto
  · intro r
    simp [or_comm]

end NellDB
