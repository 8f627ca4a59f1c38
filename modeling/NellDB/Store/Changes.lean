import NellDB.Store.Memory

namespace NellDB

open Data

/-! The change index and the queries it answers. -/

namespace ClockKey

/-- Entries are sorted by clock and then by key, so their order does not depend
on the iteration that collects them. -/
def atMost (first second : ClockKey) : Bool :=
  second.clock.greaterThan first.clock ||
    decide (first.clock = second.clock ∧ first.key ≤ second.key)

end ClockKey

/-- `sort.Search`: the least index between `low` and `high` at which the
predicate holds, when it holds from some index on. -/
def searchFrom (holds : Nat → Bool) : (fuel low high : Nat) → Nat
  | 0, low, _ => low
  | fuel + 1, low, high =>
      if low < high then
        let middle := (low + high) / 2
        if holds middle then
          searchFrom holds fuel low middle
        else
          searchFrom holds fuel (middle + 1) high
      else
        low

namespace MemoryStore

def rebuildChangesIndex (s : MemoryStore) : MemoryStore :=
  let idx := s.records.sortedKeys.filterMap fun key =>
    (s.records.lookup key).map fun r => ClockKey.mk r.clock key
  { s with
    changesIdx := idx.mergeSort ClockKey.atMost
    changesDirty := false }

/-- `GetChangesSince` rebuilds a stale index before it searches it. -/
def getChangesSince (s : MemoryStore) (since : HLC) : List Record × MemoryStore :=
  let s := if s.changesDirty then s.rebuildChangesIndex else s
  let later := fun i => match s.changesIdx[i]? with
    | some entry => entry.clock.greaterThan since
    | none => true
  let idx := searchFrom later s.changesIdx.length 0 s.changesIdx.length
  ((s.changesIdx.drop idx).filterMap fun entry => s.records.lookup entry.key, s)

@[simp] theorem getChangesSince_records (s : MemoryStore) (since : HLC) :
    (s.getChangesSince since).2.records = s.records := by
  unfold getChangesSince
  dsimp only
  split
  next => rfl
  next => rfl

@[simp] theorem getChangesSince_colIndex (s : MemoryStore) (since : HLC) :
    (s.getChangesSince since).2.colIndex = s.colIndex := by
  unfold getChangesSince
  dsimp only
  split
  next => rfl
  next => rfl

@[simp] theorem getChangesSince_kv (s : MemoryStore) (since : HLC) :
    (s.getChangesSince since).2.kv = s.kv := by
  unfold getChangesSince
  dsimp only
  split
  next => rfl
  next => rfl

@[simp] theorem getChangesSince_clock (s : MemoryStore) (since : HLC) :
    (s.getChangesSince since).2.clock = s.clock := by
  unfold getChangesSince
  dsimp only
  split
  next => rfl
  next => rfl

theorem exists_of_mem_getChangesSince {s : MemoryStore} {since : HLC} {r : Record}
    (member : r ∈ (s.getChangesSince since).1) :
    ∃ position, s.records.lookup position = some r := by
  have same := s.getChangesSince_records since
  unfold getChangesSince at member same
  dsimp only at member same
  obtain ⟨entry, _, found⟩ := List.mem_filterMap.mp member
  rw [same] at found
  exact ⟨entry.key, found⟩

end MemoryStore

/-! The search finds the boundary of a predicate that stays true. -/

theorem searchFrom_spec {holds : Nat → Bool}
    (rises : ∀ {i j}, i ≤ j → holds i = true → holds j = true) {fuel low high : Nat}
    (enough : high ≤ low + fuel) (before : ∀ i < low, holds i = false)
    (after : ∀ i, high ≤ i → holds i = true) :
    (∀ i < searchFrom holds fuel low high, holds i = false) ∧
      ∀ i, searchFrom holds fuel low high ≤ i → holds i = true := by
  induction fuel generalizing low high with
  | zero =>
      refine ⟨before, fun i reached => after i ?_⟩
      exact enough.trans reached
  | succ fuel ih =>
      unfold searchFrom
      split
      next =>
          dsimp only
          split
          next found =>
              exact ih (by omega) before fun i reached => rises reached found
          next missed =>
              refine ih (by omega) ?_ after
              intro i below
              rw [Bool.not_eq_true] at missed
              cases early : holds i with
              | false => rfl
              | true =>
                  rw [rises (Nat.le_of_lt_succ below) early] at missed
                  exact missed
      next => exact ⟨before, fun i reached => after i (by omega)⟩

theorem drop_eq_filter {entries : List α} {holds : α → Bool} {boundary : Nat}
    (before : ∀ i < boundary, ∀ entry ∈ entries[i]?, holds entry = false)
    (after : ∀ i, boundary ≤ i → ∀ entry ∈ entries[i]?, holds entry = true) :
    entries.drop boundary = entries.filter holds := by
  have none : (entries.take boundary).filter holds = [] := by
    rw [List.filter_eq_nil_iff]
    intro entry member
    obtain ⟨i, inside, rfl⟩ := List.mem_iff_getElem.mp member
    rw [List.length_take] at inside
    rw [before i (by omega) _ (by rw [List.getElem_take]; exact List.getElem?_eq_getElem _)]
    exact Bool.false_ne_true
  have all : (entries.drop boundary).filter holds = entries.drop boundary := by
    rw [List.filter_eq_self]
    intro entry member
    obtain ⟨i, inside, rfl⟩ := List.mem_iff_getElem.mp member
    refine after (boundary + i) (by omega) _ ?_
    rw [List.getElem_drop]
    exact List.getElem?_eq_getElem _
  calc entries.drop boundary
      = (entries.take boundary).filter holds ++ (entries.drop boundary).filter holds := by
        rw [none, all, List.nil_append]
    _ = entries.filter holds := by rw [← List.filter_append, List.take_append_drop]

/-! A clean index lists the clock and the key of every stored record, ascending. -/

namespace ClockKey

theorem atMost_iff (first second : ClockKey) :
    first.atMost second = true ↔
      toLex (first.clock, first.key) ≤ toLex (second.clock, second.key) := by
  rw [Prod.Lex.toLex_le_toLex]
  simp [atMost, HLC.greaterThan_iff]

theorem atMost_trans (first second third : ClockKey) (left : first.atMost second = true)
    (right : second.atMost third = true) : first.atMost third = true := by
  rw [atMost_iff] at left right ⊢
  exact left.trans right

theorem atMost_total (first second : ClockKey) :
    (first.atMost second || second.atMost first) = true := by
  rw [Bool.or_eq_true, atMost_iff, atMost_iff]
  exact le_total _ _

end ClockKey

structure IndexOf (records : RecordMap) (idx : List ClockKey) : Prop where
  complete : ∀ entry, entry ∈ idx ↔
    ∃ r, records.lookup entry.key = some r ∧ r.clock = entry.clock
  distinct : (idx.map ClockKey.key).Nodup
  ascending : idx.Pairwise fun first second => first.clock ≤ second.clock

/-- The records above a bound, each once and in the order of their clocks. -/
structure ScanSince (records : RecordMap) (since : HLC) (changes : List Record) : Prop where
  complete : ∀ r, r ∈ changes ↔
    (∃ position, records.lookup position = some r) ∧ r.clock.greaterThan since = true
  once : changes.Nodup
  ascending : changes.Pairwise fun first second => first.clock ≤ second.clock

namespace MemoryStore

/-- The index is stale or the one of the records. -/
def Fresh (s : MemoryStore) : Prop :=
  s.changesDirty = false → s.changesIdx = s.rebuildChangesIndex.changesIdx

theorem indexOf_rebuildChangesIndex (s : MemoryStore) :
    IndexOf s.records s.rebuildChangesIndex.changesIdx := by
  let idx := s.records.sortedKeys.filterMap fun key =>
    (s.records.lookup key).map fun r => ClockKey.mk r.clock key
  have sorted : (idx.mergeSort ClockKey.atMost).Perm idx := List.mergeSort_perm idx _
  refine ⟨?_, ?_, ?_⟩
  · intro entry
    rw [show s.rebuildChangesIndex.changesIdx = idx.mergeSort ClockKey.atMost from rfl,
      sorted.mem_iff, List.mem_filterMap]
    constructor
    · rintro ⟨key, _, found⟩
      obtain ⟨r, present, rfl⟩ := Option.map_eq_some_iff.mp found
      exact ⟨r, present, rfl⟩
    · rintro ⟨r, present, clock⟩
      refine ⟨entry.key, ?_, ?_⟩
      · rw [FiniteMap.mem_sortedKeys]
        exact Finmap.mem_of_lookup_eq_some present
      · rw [present, Option.map_some, clock]
  · have keys : idx.map ClockKey.key = s.records.sortedKeys.filter
        fun key => (s.records.lookup key).isSome := by
      unfold idx
      induction s.records.sortedKeys with
      | nil => rfl
      | cons key rest ih => cases found : s.records.lookup key <;> simp [found, ih]
    have distinct : (idx.map ClockKey.key).Nodup := by
      rw [keys]
      exact (Finset.sort_nodup _ _).filter _
    exact (sorted.map ClockKey.key).nodup_iff.mpr distinct
  · refine (List.pairwise_mergeSort ClockKey.atMost_trans ClockKey.atMost_total idx).imp ?_
    intro first second ordered
    rw [ClockKey.atMost_iff, Prod.Lex.toLex_le_toLex] at ordered
    rcases ordered with less | ⟨same, _⟩
    · exact less.le
    · exact same.le

/-- The predicate of the search, beyond the end of the index as well. -/
def laterThan (idx : List ClockKey) (since : HLC) (i : Nat) : Bool :=
  match idx[i]? with
  | some entry => entry.clock.greaterThan since
  | none => true

theorem laterThan_of_getElem? {idx : List ClockKey} {i : Nat} {entry : ClockKey}
    (present : idx[i]? = some entry) (since : HLC) :
    laterThan idx since i = entry.clock.greaterThan since := by
  simp [laterThan, present]

theorem laterThan_rises {idx : List ClockKey}
    (ascending : idx.Pairwise fun first second => first.clock ≤ second.clock) {since : HLC}
    {i j : Nat} (ordered : i ≤ j) (later : laterThan idx since i = true) :
    laterThan idx since j = true := by
  rcases Nat.lt_or_ge j idx.length with inside | beyond
  · have below : i < idx.length := ordered.trans_lt inside
    rw [laterThan_of_getElem? (List.getElem?_eq_getElem below), HLC.greaterThan_iff] at later
    rw [laterThan_of_getElem? (List.getElem?_eq_getElem inside), HLC.greaterThan_iff]
    rcases Nat.lt_or_eq_of_le ordered with less | rfl
    · exact later.trans_le (List.pairwise_iff_getElem.mp ascending i j below inside less)
    · exact later
  · simp [laterThan, List.getElem?_eq_none beyond]

theorem drop_searchFrom {idx : List ClockKey}
    (ascending : idx.Pairwise fun first second => first.clock ≤ second.clock) (since : HLC) :
    idx.drop (searchFrom (laterThan idx since) idx.length 0 idx.length) =
      idx.filter fun entry => entry.clock.greaterThan since := by
  have beyond : ∀ i, idx.length ≤ i → laterThan idx since i = true := by
    intro i outside
    simp [laterThan, List.getElem?_eq_none outside]
  obtain ⟨before, after⟩ := searchFrom_spec (laterThan_rises ascending)
    (Nat.le_add_left idx.length 0) (fun i below => absurd below (Nat.not_lt_zero i)) beyond
  apply drop_eq_filter
  · intro i below entry present
    rw [← laterThan_of_getElem? present since]
    exact before i below
  · intro i reached entry present
    rw [← laterThan_of_getElem? present since]
    exact after i reached

/-- The answer to a query is determined by the records. -/
theorem getChangesSince_eq {s : MemoryStore} (fresh : s.Fresh) (since : HLC) :
    (s.getChangesSince since).1 = (s.rebuildChangesIndex.changesIdx.filter fun entry =>
      entry.clock.greaterThan since).filterMap fun entry => s.records.lookup entry.key := by
  -- the index that is searched, rebuilt or not
  obtain ⟨t, searched, records, indexed⟩ : ∃ t : MemoryStore,
      (if s.changesDirty then s.rebuildChangesIndex else s) = t ∧
        t.records = s.records ∧ t.changesIdx = s.rebuildChangesIndex.changesIdx := by
    cases dirty : s.changesDirty with
    | true => exact ⟨_, rfl, rfl, rfl⟩
    | false => exact ⟨_, rfl, rfl, fresh dirty⟩
  rw [← drop_searchFrom s.indexOf_rebuildChangesIndex.ascending since, ← indexed, ← records]
  unfold getChangesSince
  rw [searched]
  rfl

theorem scanSince_getChangesSince {s : MemoryStore} (fresh : s.Fresh)
    (keyed : Champion.WellKeyed Record.key s.records) (since : HLC) :
    ScanSince s.records since (s.getChangesSince since).1 := by
  have indexed := s.indexOf_rebuildChangesIndex
  rw [getChangesSince_eq fresh since]
  generalize s.rebuildChangesIndex.changesIdx = idx at indexed ⊢
  have clock : ∀ entry ∈ idx, ∀ r ∈ s.records.lookup entry.key, r.clock = entry.clock := by
    intro entry member r found
    obtain ⟨stored, present, same⟩ := (indexed.complete entry).mp member
    rw [Option.mem_def, present] at found
    cases found
    exact same
  refine ⟨?_, ?_, ?_⟩
  · intro r
    rw [List.mem_filterMap]
    constructor
    · rintro ⟨entry, member, found⟩
      obtain ⟨listed, later⟩ := List.mem_filter.mp member
      refine ⟨⟨entry.key, found⟩, ?_⟩
      rw [clock entry listed r found]
      exact later
    · rintro ⟨⟨position, found⟩, later⟩
      refine ⟨⟨r.clock, position⟩, List.mem_filter.mpr ⟨?_, later⟩, found⟩
      exact (indexed.complete _).mpr ⟨r, found, rfl⟩
  · have apart : idx.Pairwise fun first second => first.key ≠ second.key :=
      List.pairwise_map.mp indexed.distinct
    refine List.Pairwise.filterMap _ ?_ (apart.filter _)
    intro first second different r found other foundToo same
    rw [← keyed found, ← keyed foundToo, same] at different
    exact different rfl
  · rw [List.pairwise_filterMap]
    refine (List.Pairwise.and_mem.mp (indexed.ascending.filter _)).imp ?_
    rintro first second ⟨firstMember, secondMember, ordered⟩ r found other foundToo
    rw [clock first (List.mem_of_mem_filter firstMember) r found,
      clock second (List.mem_of_mem_filter secondMember) other foundToo]
    exact ordered

/-- A query leaves a clean index behind. -/
theorem Fresh.getChangesSince {s : MemoryStore} (fresh : s.Fresh) (since : HLC) :
    (s.getChangesSince since).2.Fresh := by
  intro _
  unfold MemoryStore.getChangesSince
  dsimp only
  cases dirty : s.changesDirty with
  | true => rfl
  | false => exact fresh dirty

theorem fresh_of_dirty {s : MemoryStore} (dirty : s.changesDirty = true) : s.Fresh := by
  intro clean
  rw [dirty] at clean
  contradiction

end MemoryStore

end NellDB
