import NellDB.Store.Index

namespace NellDB

open Data

/-! What a store lists once records are put into it. -/

/-- The record is listed once `incoming` are put.  Either it is listed already
and none of them beats it at its key, or it is one of them, beats the record
that is stored, and its key is listed or new. -/
def Stands (s : MemoryStore) (collection : GoString) (incoming : Set Record)
    (r : Record) : Prop :=
  (r ∈ s.listAll collection ∧ ∀ p ∈ incoming, p.key = r.key → p.stamp ≤ r.stamp) ∨
    (r ∈ incoming ∧ (∀ held, s.records.lookup r.key = some held → held.stamp < r.stamp) ∧
      (Listed s.colIndex (orDefault collection) r.key ∨
        s.records.lookup r.key = none ∧ orDefault collection = r.collection))

theorem mem_listAll_iff_listed {s : MemoryStore} (wellFormed : WellFormed s)
    (collection : GoString) (r : Record) :
    r ∈ s.listAll collection ↔
      Listed s.colIndex (orDefault collection) r.key ∧ s.records.lookup r.key = some r := by
  rw [mem_listAll_iff wellFormed]
  constructor
  · rintro ⟨keys, indexed, member, found⟩
    exact ⟨⟨keys, indexed, member⟩, found⟩
  · rintro ⟨⟨keys, indexed, member⟩, found⟩
    exact ⟨keys, indexed, member, found⟩

theorem nodup_keys_of_listed {s : MemoryStore} (wellFormed : WellFormed s)
    {collection : GoString} {all : List Record}
    (listed : (all : Multiset Record) = s.listAll collection) : (all.map Record.key).Nodup := by
  have stored {r : Record} (member : r ∈ all) : s.records.lookup r.key = some r := by
    rw [← Multiset.mem_coe, listed, mem_listAll_iff_listed wellFormed] at member
    exact member.2
  have nodup : all.Nodup := by
    rw [← Multiset.coe_nodup, listed]
    exact nodup_listAll wellFormed collection
  refine nodup.map_on ?_
  intro first firstMember second secondMember equal
  have found := stored firstMember
  rw [equal, stored secondMember] at found
  exact (Option.some.inj found).symm

theorem listed_afterPut_iff (s : MemoryStore) (p : Record) (collection key : GoString) :
    Listed (s.afterPut p).colIndex collection key ↔
      Listed s.colIndex collection key ∨
        s.records.lookup p.defaulted.key = none ∧ key = p.defaulted.key ∧
          collection = p.defaulted.collection := by
  cases present : s.records.lookup p.defaulted.key with
  | none =>
      have colIndex : (s.afterPut p).colIndex =
          indexKey s.colIndex p.defaulted.key p.defaulted.collection := by
        simp only [MemoryStore.afterPut, MemoryStore.put, present]
      rw [colIndex, listed_indexKey_iff]
      simp only [true_and]
  | some existing =>
      have colIndex : (s.afterPut p).colIndex = s.colIndex := by
        simp only [MemoryStore.afterPut, MemoryStore.put, present]
      rw [colIndex]
      simp

/-- Only the incoming records at the key of the record matter. -/
theorem stands_congr {s : MemoryStore} {collection : GoString}
    {incoming others : Set Record} {r : Record}
    (same : ∀ p, p.key = r.key → (p ∈ incoming ↔ p ∈ others)) :
    Stands s collection incoming r ↔ Stands s collection others r := by
  have beaten : (∀ p ∈ incoming, p.key = r.key → p.stamp ≤ r.stamp) ↔
      ∀ p ∈ others, p.key = r.key → p.stamp ≤ r.stamp := by
    constructor
    · intro above p member equal
      exact above p ((same p equal).mpr member) equal
    · intro above p member equal
      exact above p ((same p equal).mp member) equal
  unfold Stands
  rw [beaten, same r rfl]

theorem stands_empty_iff {s : MemoryStore} {collection : GoString} {r : Record} :
    Stands s collection ∅ r ↔ r ∈ s.listAll collection := by
  simp [Stands]

/-- Putting what is covered already lists nothing new. -/
theorem Stands.listed_of_covers {s : MemoryStore} {collection : GoString}
    {incoming : Set Record} {r : Record} (stands : Stands s collection incoming r)
    (covers : ∀ p ∈ incoming, s.Covers p) : r ∈ s.listAll collection := by
  rcases stands with ⟨listed, _⟩ | ⟨isIncoming, beats, _⟩
  · exact listed
  · obtain ⟨held, found, above⟩ := covers r isIncoming
    exact absurd (beats held found) (not_lt.mpr above)

section

variable {s : MemoryStore} (wellFormed : WellFormed s) {p : Record} (named : p.collection ≠ [])
  {collection : GoString} {r : Record}

include named in
theorem lookup_afterPut_of_key_ne (different : r.key ≠ p.key) :
    (s.afterPut p).records.lookup r.key = s.records.lookup r.key := by
  rw [MemoryStore.afterPut_records, Record.defaulted_of_named named,
    Champion.lookup_enter_of_ne _ different]

include named in
theorem listed_afterPut_iff_of_key_ne (different : r.key ≠ p.key) :
    Listed (s.afterPut p).colIndex (orDefault collection) r.key ↔
      Listed s.colIndex (orDefault collection) r.key := by
  rw [listed_afterPut_iff, Record.defaulted_of_named named]
  exact or_iff_left fun added => different added.2.1

include wellFormed named

/-- A `Put` is not seen at another key. -/
theorem stands_afterPut_iff_of_key_ne (different : r.key ≠ p.key)
    (incoming : Set Record) :
    Stands (s.afterPut p) collection incoming r ↔ Stands s collection incoming r := by
  unfold Stands
  rw [mem_listAll_iff_listed (wellFormed.afterPut p), mem_listAll_iff_listed wellFormed,
    lookup_afterPut_of_key_ne named different, listed_afterPut_iff_of_key_ne named different]

theorem mem_listAll_afterPut_iff :
    r ∈ (s.afterPut p).listAll collection ↔ Stands s collection {p} r := by
  unfold Stands
  rw [mem_listAll_iff_listed (wellFormed.afterPut p), mem_listAll_iff_listed wellFormed]
  simp only [Set.mem_singleton_iff, forall_eq]
  by_cases same : r.key = p.key
  · rw [listed_afterPut_iff, MemoryStore.afterPut_records, Record.defaulted_of_named named, same,
      Champion.lookup_enter_self_iff]
    constructor
    · rintro ⟨listed | ⟨absent, _, isCollection⟩, ⟨found, above⟩ | ⟨rfl, beats⟩⟩
      · exact .inl ⟨⟨listed, found⟩, fun _ => above⟩
      · exact .inr ⟨rfl, beats, .inl listed⟩
      · rw [absent] at found
        contradiction
      · exact .inr ⟨rfl, beats, .inr ⟨absent, isCollection⟩⟩
    · rintro (⟨⟨listed, found⟩, above⟩ | ⟨rfl, beats, listed⟩)
      · exact ⟨.inl listed, .inl ⟨found, above rfl⟩⟩
      · exact ⟨listed.imp_right fun added => ⟨added.1, rfl, added.2⟩, .inr ⟨rfl, beats⟩⟩
  · rw [lookup_afterPut_of_key_ne named same, listed_afterPut_iff_of_key_ne named same]
    constructor
    · intro before
      exact .inl ⟨before, fun equal => absurd equal.symm same⟩
    · rintro (⟨before, _⟩ | ⟨rfl, _⟩)
      · exact before
      · exact absurd rfl same

end

/-- The listing after records of which at most one has the key of `r`. -/
theorem mem_listAll_putAll_iff {s : MemoryStore} (wellFormed : WellFormed s)
    {collection : GoString} {incoming : List Record}
    (named : ∀ p ∈ incoming, p.collection ≠ []) {r : Record}
    (alone : incoming.Pairwise fun p q => p.key = r.key → q.key ≠ r.key) :
    r ∈ (s.putAll incoming).listAll collection ↔ Stands s collection {p | p ∈ incoming} r := by
  induction incoming generalizing s with
  | nil =>
      rw [← stands_empty_iff]
      exact stands_congr fun p _ => by simp
  | cons p rest ih =>
      rw [List.pairwise_cons] at alone
      rw [List.forall_mem_cons] at named
      change r ∈ ((s.afterPut p).putAll rest).listAll collection ↔ _
      rw [ih (wellFormed.afterPut p) named.2 alone.2]
      by_cases same : r.key = p.key
      · have others : ∀ q ∈ rest, q.key ≠ r.key :=
          fun q member => alone.1 q member same.symm
        calc Stands (s.afterPut p) collection {q | q ∈ rest} r
          _ ↔ Stands (s.afterPut p) collection ∅ r := by
              refine stands_congr fun q equal => ?_
              exact iff_of_false (fun member => others q member equal) (Set.notMem_empty q)
          _ ↔ Stands s collection {p} r := by
              rw [stands_empty_iff, mem_listAll_afterPut_iff wellFormed named.1]
          _ ↔ Stands s collection {q | q ∈ p :: rest} r := by
              refine stands_congr fun q equal => ?_
              rw [Set.mem_singleton_iff, Set.mem_ofPred_eq, List.mem_cons]
              exact (or_iff_left fun member => others q member equal).symm
      · rw [stands_afterPut_iff_of_key_ne wellFormed named.1 same]
        refine stands_congr fun q equal => ?_
        rw [Set.mem_ofPred_eq, Set.mem_ofPred_eq, List.mem_cons]
        refine (or_iff_right ?_).symm
        rintro rfl
        exact same equal.symm

theorem listAll_putAll_source {s : MemoryStore} (wellFormed : WellFormed s)
    {incoming : List Record} {collection : GoString} {r : Record}
    (member : r ∈ (s.putAll incoming).listAll collection) :
    r ∈ s.listAll collection ∨ ∃ p ∈ incoming, r = p.defaulted := by
  induction incoming generalizing s with
  | nil => exact .inl member
  | cons p rest ih =>
      rcases ih (wellFormed.afterPut p) member with earlier | ⟨later, put, same⟩
      · rcases listAll_afterPut_source wellFormed earlier with before | ⟨same, _⟩
        · exact .inl before
        · exact .inr ⟨p, List.mem_cons_self, same⟩
      · exact .inr ⟨later, List.mem_cons_of_mem p put, same⟩

/-- A `Put` raises the vector of the store to the record that it leaves at the
key. -/
theorem afterPut_kv (s : MemoryStore) (r : Record) :
    ∃ winner, (s.afterPut r).records.lookup r.defaulted.key = some winner ∧
      (s.afterPut r).kv = Watermark.raise s.kv winner.updatedBy winner.clock := by
  cases present : s.records.lookup r.defaulted.key with
  | none =>
      refine ⟨r.defaulted, ?_, ?_⟩
      · rw [MemoryStore.afterPut_records, Champion.lookup_enter_of_none present]
      · simp only [MemoryStore.afterPut, MemoryStore.put, present,
          KnowledgeVector.update_eq_raise]
  | some existing =>
      refine ⟨resolveConflict existing r.defaulted, ?_, ?_⟩
      · rw [MemoryStore.afterPut_records, Champion.lookup_enter_of_some present,
          resolveConflict_eq_prefer]
      · simp only [MemoryStore.afterPut, MemoryStore.put, present,
          KnowledgeVector.update_eq_raise]

/-- The vector of the store has reached every record that is stored, as every
`Put` leaves it. -/
structure Tracked (s : MemoryStore) : Prop where
  wellFormed : WellFormed s
  reached : ∀ {position stored}, s.records.lookup position = some stored →
    Watermark.Reached s.kv stored.updatedBy stored.clock

theorem tracked_newMemoryStore (nodeID : GoString) (now : Int64) :
    Tracked (newMemoryStore nodeID now) where
  wellFormed := wellFormed_newMemoryStore nodeID now
  reached found := by simp [newMemoryStore] at found

theorem Tracked.afterPut {s : MemoryStore} (tracked : Tracked s) (r : Record) :
    Tracked (s.afterPut r) where
  wellFormed := tracked.wellFormed.afterPut r
  reached {position stored} found := by
    obtain ⟨winner, atKey, kv⟩ := afterPut_kv s r
    rw [kv, Watermark.reached_raise_iff]
    by_cases same : position = r.defaulted.key
    · rw [same, atKey, Option.some.injEq] at found
      subst stored
      exact .inr ⟨rfl, le_rfl⟩
    · rw [MemoryStore.afterPut_records, Champion.lookup_enter_of_ne _ same] at found
      exact .inl (tracked.reached found)

theorem Tracked.putAll {s : MemoryStore} (tracked : Tracked s) (incoming : List Record) :
    Tracked (s.putAll incoming) := by
  induction incoming generalizing s with
  | nil => exact tracked
  | cons r rest ih => exact ih (tracked.afterPut r)

/-! Records that a store holds or has beaten. -/

/-- The same records, index and vector; the clock too if it is ahead of the
records. -/
structure SameContents (first second : MemoryStore) : Prop where
  nodeID : first.nodeID = second.nodeID
  records : first.records = second.records
  colIndex : first.colIndex = second.colIndex
  kv : first.kv = second.kv
  clock : (∀ position stored, second.records.lookup position = some stored →
    stored.clock < second.clock) → first.clock = second.clock

namespace SameContents

variable {first second third : MemoryStore}

theorem refl (s : MemoryStore) : SameContents s s :=
  ⟨rfl, rfl, rfl, rfl, fun _ => rfl⟩

theorem trans (same : SameContents first second) (onward : SameContents second third) :
    SameContents first third where
  nodeID := same.nodeID.trans onward.nodeID
  records := same.records.trans onward.records
  colIndex := same.colIndex.trans onward.colIndex
  kv := same.kv.trans onward.kv
  clock ahead := by
    have clock := onward.clock ahead
    rw [same.clock ?_, clock]
    rw [onward.records, clock]
    exact ahead

theorem tracked (same : SameContents first second) (tracked : Tracked second) :
    Tracked first where
  wellFormed := tracked.wellFormed.of_eq same.records same.colIndex
  reached := by
    rw [same.records, same.kv]
    exact tracked.reached

theorem covers (same : SameContents first second) {r : Record} (covers : second.Covers r) :
    first.Covers r := by
  unfold MemoryStore.Covers
  rw [same.records]
  exact covers

theorem listAll (same : SameContents first second) (collection : GoString) :
    first.listAll collection = second.listAll collection := by
  unfold MemoryStore.listAll
  rw [same.records, same.colIndex]

end SameContents

/-- The `Put` of a record that is covered is refused and changes nothing. -/
theorem put_covered {s : MemoryStore} (tracked : Tracked s) {r : Record}
    (named : r.collection ≠ []) (covers : s.Covers r) :
    (s.put r).1 = false ∧ SameContents (s.afterPut r) s := by
  obtain ⟨held, found, above⟩ := covers
  have behind : ¬ held.stamp < r.stamp := not_lt.mpr above
  have loses : incomingWins held r = false := by
    rw [Bool.eq_false_iff]
    exact fun wins => behind ((incomingWins_iff held r).mp wins)
  have winner : resolveConflict held r = held := by
    rw [resolveConflict_eq_prefer, Champion.prefer, if_neg behind]
  have stored : s.put r = (false, held, { s with
      clock := s.clock.update r.clock
      records := s.records.insert r.key held
      kv := s.kv.update held.updatedBy held.clock
      changesDirty := true }) := by
    unfold MemoryStore.put
    rw [Record.defaulted_of_named named]
    simp only [found, loses, winner]
  have clock (ahead : ∀ position stored, s.records.lookup position = some stored →
      stored.clock < s.clock) : s.clock.update r.clock = s.clock :=
    HLC.update_of_lt ((Record.clock_le_of_stamp_le above).trans_lt (ahead _ held found))
  refine ⟨by rw [stored], ?_⟩
  simp only [MemoryStore.afterPut, stored, FiniteMap.insert_of_lookup found,
    KnowledgeVector.update_eq_raise, Watermark.raise_of_reached (tracked.reached found)]
  exact ⟨rfl, rfl, rfl, rfl, clock⟩

end NellDB
