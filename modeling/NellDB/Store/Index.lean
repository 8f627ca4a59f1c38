import NellDB.Store.Memory

namespace NellDB

open Data

/-! The collection index of a store only lists keys of stored records. -/

structure WellFormed (s : MemoryStore) : Prop where
  keyed : ∀ {position stored}, s.records.lookup position = some stored →
    stored.key = position
  named : ∀ {position stored}, s.records.lookup position = some stored →
    stored.collection ≠ []
  indexed : ∀ {collection keys key}, s.colIndex.lookup collection = some keys →
    key ∈ keys → ∃ stored, s.records.lookup key = some stored

theorem wellFormed_newMemoryStore (nodeID : GoString) (now : Int64) :
    WellFormed (newMemoryStore nodeID now) where
  keyed found := by simp [newMemoryStore] at found
  named found := by simp [newMemoryStore] at found
  indexed found := by simp [newMemoryStore] at found

theorem mem_lookup_indexKey {colIndex : CollectionIndex} {key collection : GoString}
    {other : GoString} {keys : Finset GoString} {listed : GoString}
    (found : (indexKey colIndex key collection).lookup other = some keys)
    (member : listed ∈ keys) :
    listed = key ∧ other = collection ∨
      ∃ old, colIndex.lookup other = some old ∧ listed ∈ old := by
  unfold indexKey at found
  by_cases same : other = collection
  · subst other
    cases present : colIndex.lookup collection with
    | none =>
        rw [present, Finmap.lookup_insert, Option.some.injEq] at found
        subst keys
        exact .inl ⟨Finset.mem_singleton.mp member, rfl⟩
    | some old =>
        rw [present, Finmap.lookup_insert, Option.some.injEq] at found
        subst keys
        rcases Finset.mem_insert.mp member with fresh | kept
        · exact .inl ⟨fresh, rfl⟩
        · exact .inr ⟨old, rfl, kept⟩
  · cases present : colIndex.lookup collection with
    | none =>
        rw [present, Finmap.lookup_insert_of_ne _ same] at found
        exact .inr ⟨keys, found, member⟩
    | some old =>
        rw [present, Finmap.lookup_insert_of_ne _ same] at found
        exact .inr ⟨keys, found, member⟩

namespace WellFormed

/-- Storing a record at its key and listing that key keeps a store well
formed. -/
theorem insert {s t : MemoryStore} (wellFormed : WellFormed s) {r : Record}
    (named : r.collection ≠ []) (records : t.records = s.records.insert r.key r)
    (colIndex : t.colIndex = s.colIndex ∨
      ∃ collection, t.colIndex = indexKey s.colIndex r.key collection) :
    WellFormed t := by
  have source : ∀ {position stored}, t.records.lookup position = some stored →
      stored = r ∧ position = r.key ∨ s.records.lookup position = some stored := by
    intro position stored found
    rw [records] at found
    rcases FiniteMap.lookup_insert_cases found with new | ⟨_, before⟩
    · exact .inl new.symm
    · exact .inr before
  have kept : ∀ {key stored}, s.records.lookup key = some stored →
      ∃ stored, t.records.lookup key = some stored := by
    intro key stored found
    rw [records]
    by_cases same : key = r.key
    · exact ⟨r, by rw [same, Finmap.lookup_insert]⟩
    · exact ⟨stored, by rw [Finmap.lookup_insert_of_ne _ same, found]⟩
  refine ⟨?_, ?_, ?_⟩
  · intro position stored found
    rcases source found with ⟨rfl, rfl⟩ | before
    · rfl
    · exact wellFormed.keyed before
  · intro position stored found
    rcases source found with ⟨rfl, _⟩ | before
    · exact named
    · exact wellFormed.named before
  · intro collection keys key found member
    rcases colIndex with same | ⟨added, indexed⟩
    · rw [same] at found
      obtain ⟨stored, present⟩ := wellFormed.indexed found member
      exact kept present
    · rw [indexed] at found
      rcases mem_lookup_indexKey found member with ⟨rfl, _⟩ | ⟨old, before, listed⟩
      · exact ⟨r, by rw [records, Finmap.lookup_insert]⟩
      · obtain ⟨stored, present⟩ := wellFormed.indexed before listed
        exact kept present

theorem of_eq {s t : MemoryStore} (wellFormed : WellFormed s)
    (records : t.records = s.records) (colIndex : t.colIndex = s.colIndex) :
    WellFormed t where
  keyed := by
    rw [records]
    exact wellFormed.keyed
  named := by
    rw [records]
    exact wellFormed.named
  indexed := by
    rw [records, colIndex]
    exact wellFormed.indexed

theorem afterPut {s : MemoryStore} (wellFormed : WellFormed s) (incoming : Record) :
    WellFormed (s.afterPut incoming) := by
  have named : incoming.defaulted.collection ≠ [] := orDefault_ne_nil incoming.collection
  cases present : s.records.lookup incoming.defaulted.key with
  | none =>
      refine wellFormed.insert named ?_ (.inr ⟨incoming.defaulted.collection, ?_⟩)
      · simp [MemoryStore.afterPut, MemoryStore.put, present]
      · simp only [MemoryStore.afterPut, MemoryStore.put, present]
  | some existing =>
      have colIndex : (s.afterPut incoming).colIndex = s.colIndex := by
        simp only [MemoryStore.afterPut, MemoryStore.put, present]
      have records : (s.afterPut incoming).records =
          s.records.insert incoming.defaulted.key
            (resolveConflict existing incoming.defaulted) := by
        simp only [MemoryStore.afterPut, MemoryStore.put, present]
      unfold resolveConflict at records
      split at records
      next => exact wellFormed.insert named records (.inl colIndex)
      next =>
          rw [← wellFormed.keyed present] at records
          exact wellFormed.insert (wellFormed.named present) records (.inl colIndex)

theorem putAll {s : MemoryStore} (wellFormed : WellFormed s) (incoming : List Record) :
    WellFormed (s.putAll incoming) := by
  induction incoming generalizing s with
  | nil => exact wellFormed
  | cons head rest ih => exact ih (wellFormed.afterPut head)

end WellFormed

theorem afterPut_colIndex (s : MemoryStore) (r : Record) :
    (s.afterPut r).colIndex = s.colIndex ∨
      s.records.lookup r.defaulted.key = none ∧ (s.afterPut r).colIndex =
        indexKey s.colIndex r.defaulted.key r.defaulted.collection := by
  cases present : s.records.lookup r.defaulted.key with
  | none =>
      right
      simp only [MemoryStore.afterPut, MemoryStore.put, present, true_and]
  | some existing =>
      left
      simp only [MemoryStore.afterPut, MemoryStore.put, present]

/-! The records that `ListAll` returns, as members of the record map. -/

theorem mem_listAll_iff {s : MemoryStore} (wellFormed : WellFormed s)
    (collection : GoString) (r : Record) :
    r ∈ s.listAll collection ↔
      ∃ keys, s.colIndex.lookup (orDefault collection) = some keys ∧ r.key ∈ keys ∧
        s.records.lookup r.key = some r := by
  unfold MemoryStore.listAll
  cases present : s.colIndex.lookup (orDefault collection) with
  | none => simp
  | some keys =>
      simp only [Multiset.mem_map, Finset.mem_val, Option.some.injEq, exists_eq_left']
      constructor
      · rintro ⟨key, member, rfl⟩
        obtain ⟨stored, found⟩ := wellFormed.indexed present member
        rw [found, Option.getD_some, wellFormed.keyed found]
        exact ⟨member, found⟩
      · rintro ⟨member, found⟩
        exact ⟨r.key, member, by rw [found, Option.getD_some]⟩

theorem nodup_listAll {s : MemoryStore} (wellFormed : WellFormed s)
    (collection : GoString) : (s.listAll collection).Nodup := by
  unfold MemoryStore.listAll
  cases present : s.colIndex.lookup (orDefault collection) with
  | none => exact Multiset.nodup_zero
  | some keys =>
      refine Multiset.Nodup.map_on ?_ keys.nodup
      intro first firstMember second secondMember equal
      obtain ⟨left, foundLeft⟩ := wellFormed.indexed present firstMember
      obtain ⟨right, foundRight⟩ := wellFormed.indexed present secondMember
      rw [foundLeft, foundRight, Option.getD_some, Option.getD_some] at equal
      rw [← wellFormed.keyed foundLeft, equal, wellFormed.keyed foundRight]

/-! A store that is used for one collection lists all its records. -/

theorem exists_indexKey_self (colIndex : CollectionIndex) (key collection : GoString) :
    ∃ keys, (indexKey colIndex key collection).lookup collection = some keys ∧
      key ∈ keys := by
  unfold indexKey
  cases colIndex.lookup collection with
  | none => exact ⟨{key}, Finmap.lookup_insert _, Finset.mem_singleton_self key⟩
  | some keys =>
      exact ⟨insert key keys, Finmap.lookup_insert _, Finset.mem_insert_self key keys⟩

theorem exists_indexKey_of_mem {colIndex : CollectionIndex} {collection listed : GoString}
    {keys : Finset GoString} (found : colIndex.lookup collection = some keys)
    (member : listed ∈ keys) (key : GoString) :
    ∃ keys, (indexKey colIndex key collection).lookup collection = some keys ∧
      listed ∈ keys := by
  unfold indexKey
  rw [found]
  exact ⟨insert key keys, Finmap.lookup_insert _, Finset.mem_insert_of_mem member⟩

/-! The key is listed under the collection. -/

def Listed (colIndex : CollectionIndex) (collection key : GoString) : Prop :=
  ∃ keys, colIndex.lookup collection = some keys ∧ key ∈ keys

theorem listed_indexKey_iff (colIndex : CollectionIndex) (key collection : GoString)
    (other listed : GoString) :
    Listed (indexKey colIndex key collection) other listed ↔
      Listed colIndex other listed ∨ listed = key ∧ other = collection := by
  constructor
  · rintro ⟨keys, found, member⟩
    rcases mem_lookup_indexKey found member with new | old
    · exact .inr new
    · exact .inl old
  · rintro (⟨keys, found, member⟩ | ⟨rfl, rfl⟩)
    · by_cases same : other = collection
      · subst same
        exact exists_indexKey_of_mem found member key
      · refine ⟨keys, ?_, member⟩
        unfold indexKey
        split
        next => rw [Finmap.lookup_insert_of_ne _ same, found]
        next => rw [Finmap.lookup_insert_of_ne _ same, found]
    · exact exists_indexKey_self colIndex listed other

def NoneEmpty (colIndex : CollectionIndex) : Prop :=
  ∀ collection keys, colIndex.lookup collection = some keys → keys.Nonempty

theorem NoneEmpty.indexKey {colIndex : CollectionIndex} (noneEmpty : NoneEmpty colIndex)
    (key collection : GoString) : NoneEmpty (indexKey colIndex key collection) := by
  intro other keys found
  by_cases same : other = collection
  · subst same
    obtain ⟨listed, present, member⟩ := exists_indexKey_self colIndex key other
    rw [found, Option.some.injEq] at present
    exact ⟨key, present ▸ member⟩
  · unfold NellDB.indexKey at found
    split at found
    next =>
        rw [Finmap.lookup_insert_of_ne _ same] at found
        exact noneEmpty other keys found
    next =>
        rw [Finmap.lookup_insert_of_ne _ same] at found
        exact noneEmpty other keys found

theorem NoneEmpty.lookup_of_listed_iff {first second : CollectionIndex}
    (noneEmpty : NoneEmpty first)
    (same : ∀ collection key, Listed first collection key ↔ Listed second collection key)
    {collection : GoString} {keys : Finset GoString}
    (found : first.lookup collection = some keys) : second.lookup collection = some keys := by
  obtain ⟨key, member⟩ := noneEmpty collection keys found
  obtain ⟨others, present, _⟩ := (same collection key).mp ⟨keys, found, member⟩
  rw [present, Option.some.injEq]
  apply Finset.ext
  intro listed
  constructor
  · intro inOthers
    obtain ⟨back, backFound, inBack⟩ :=
      (same collection listed).mpr ⟨others, present, inOthers⟩
    rw [found, Option.some.injEq] at backFound
    exact backFound ▸ inBack
  · intro inKeys
    obtain ⟨back, backFound, inBack⟩ := (same collection listed).mp ⟨keys, found, inKeys⟩
    rw [present, Option.some.injEq] at backFound
    exact backFound ▸ inBack

/-- An index without empty sets is determined by what it lists. -/
theorem NoneEmpty.ext {first second : CollectionIndex} (left : NoneEmpty first)
    (right : NoneEmpty second)
    (same : ∀ collection key, Listed first collection key ↔ Listed second collection key) :
    first = second := by
  apply Finmap.ext_lookup
  intro collection
  apply Option.ext
  intro keys
  constructor
  · exact left.lookup_of_listed_iff same
  · exact right.lookup_of_listed_iff fun collection key => (same collection key).symm

/-- The index of a list of keys and their collections. -/
def indexAll (colIndex : CollectionIndex) (pairs : List (GoString × GoString)) :
    CollectionIndex :=
  pairs.foldl (fun colIndex pair => indexKey colIndex pair.1 pair.2) colIndex

theorem listed_indexAll_iff (colIndex : CollectionIndex) (pairs : List (GoString × GoString))
    (collection key : GoString) :
    Listed (indexAll colIndex pairs) collection key ↔
      Listed colIndex collection key ∨ (key, collection) ∈ pairs := by
  induction pairs generalizing colIndex with
  | nil => simp [indexAll]
  | cons pair rest ih =>
      rw [indexAll, List.foldl_cons, ← indexAll, ih, listed_indexKey_iff, List.mem_cons,
        or_assoc, Prod.ext_iff]

theorem NoneEmpty.indexAll {colIndex : CollectionIndex} (noneEmpty : NoneEmpty colIndex)
    (pairs : List (GoString × GoString)) : NoneEmpty (indexAll colIndex pairs) := by
  induction pairs generalizing colIndex with
  | nil => exact noneEmpty
  | cons pair rest ih => exact ih (noneEmpty.indexKey pair.1 pair.2)

theorem indexAll_congr {first second : List (GoString × GoString)}
    (same : ∀ pair, pair ∈ first ↔ pair ∈ second) : indexAll ∅ first = indexAll ∅ second := by
  have empty : NoneEmpty ∅ := by
    intro collection keys found
    simp at found
  refine (empty.indexAll first).ext (empty.indexAll second) ?_
  intro collection key
  rw [listed_indexAll_iff, listed_indexAll_iff, same]

structure SingleCollection (s : MemoryStore) (collection : GoString) : Prop where
  wellFormed : WellFormed s
  inside : ∀ {position stored}, s.records.lookup position = some stored →
    stored.collection = collection
  listed : ∀ {position stored}, s.records.lookup position = some stored →
    ∃ keys, s.colIndex.lookup collection = some keys ∧ position ∈ keys

theorem singleCollection_newMemoryStore (nodeID collection : GoString) (now : Int64) :
    SingleCollection (newMemoryStore nodeID now) collection where
  wellFormed := wellFormed_newMemoryStore nodeID now
  inside found := by simp [newMemoryStore] at found
  listed found := by simp [newMemoryStore] at found

namespace SingleCollection

theorem afterPut {s : MemoryStore} {collection : GoString}
    (single : SingleCollection s collection) {r : Record} (named : collection ≠ [])
    (inside : r.collection = collection) : SingleCollection (s.afterPut r) collection := by
  have same : r.defaulted = r := Record.defaulted_of_named (inside ▸ named)
  have source {position : GoString} {stored : Record}
      (found : (s.afterPut r).records.lookup position = some stored) :
      s.records.lookup position = some stored ∨ stored = r ∧ position = r.key := by
    rw [MemoryStore.afterPut_records, same] at found
    exact Champion.lookup_enter_source found
  have kept {position : GoString} (before : ∃ keys,
      s.colIndex.lookup collection = some keys ∧ position ∈ keys) :
      ∃ keys, (s.afterPut r).colIndex.lookup collection = some keys ∧
        position ∈ keys := by
    obtain ⟨keys, found, member⟩ := before
    rcases afterPut_colIndex s r with unchanged | ⟨_, added⟩
    · exact ⟨keys, by rw [unchanged, found], member⟩
    · rw [added, same, inside]
      exact exists_indexKey_of_mem found member r.key
  refine ⟨single.wellFormed.afterPut r, ?_, ?_⟩
  · intro position stored found
    rcases source found with before | ⟨rfl, _⟩
    · exact single.inside before
    · exact inside
  · intro position stored found
    rcases source found with before | ⟨rfl, rfl⟩
    · exact kept (single.listed before)
    · cases present : s.records.lookup stored.key with
      | some existing => exact kept (single.listed present)
      | none =>
          have colIndex : (s.afterPut stored).colIndex =
              indexKey s.colIndex stored.key stored.collection := by
            rw [← same] at present
            simp only [MemoryStore.afterPut, MemoryStore.put, present, same]
          rw [colIndex, inside]
          exact exists_indexKey_self _ _ _

theorem putAll {s : MemoryStore} {collection : GoString}
    (single : SingleCollection s collection) (named : collection ≠ []) {records : List Record}
    (inside : ∀ r ∈ records, r.defaulted.collection = collection) :
    SingleCollection (s.putAll records) collection := by
  induction records generalizing s with
  | nil => exact single
  | cons head rest ih =>
      have first := single.afterPut named (inside head List.mem_cons_self)
      rw [MemoryStore.afterPut_defaulted] at first
      exact ih first fun r member => inside r (List.mem_cons_of_mem head member)

theorem mem_listAll_iff {s : MemoryStore} {collection : GoString}
    (single : SingleCollection s collection) (named : collection ≠ []) (r : Record) :
    r ∈ s.listAll collection ↔ s.records.lookup r.key = some r := by
  rw [NellDB.mem_listAll_iff single.wellFormed, orDefault_of_ne named]
  constructor
  · rintro ⟨_, _, _, found⟩
    exact found
  · intro found
    obtain ⟨keys, indexed, member⟩ := single.listed found
    exact ⟨keys, indexed, member, found⟩

end SingleCollection

/-- What is listed after a `Put` was listed before, or is the record put. -/
theorem listAll_afterPut_source {s : MemoryStore} (wellFormed : WellFormed s)
    {r q : Record} {collection : GoString} (member : q ∈ (s.afterPut r).listAll collection) :
    q ∈ s.listAll collection ∨ q = r.defaulted ∧
      (r.defaulted.collection = orDefault collection ∨
        ∃ keys, s.colIndex.lookup (orDefault collection) = some keys ∧
          r.defaulted.key ∈ keys) := by
  obtain ⟨keys, indexed, listed, found⟩ :=
    (mem_listAll_iff (wellFormed.afterPut r) _ q).mp member
  rw [MemoryStore.afterPut_records] at found
  have listedBefore : q.key = r.defaulted.key ∧ s.records.lookup r.defaulted.key = none ∧
      r.defaulted.collection = orDefault collection ∨
      ∃ keys, s.colIndex.lookup (orDefault collection) = some keys ∧ q.key ∈ keys := by
    rcases afterPut_colIndex s r with same | ⟨absent, added⟩
    · rw [same] at indexed
      exact .inr ⟨keys, indexed, listed⟩
    · rw [added] at indexed
      rcases mem_lookup_indexKey indexed listed with ⟨fresh, isCollection⟩ | before
      · exact .inl ⟨fresh, absent, isCollection.symm⟩
      · exact .inr before
  rcases Champion.lookup_enter_source found with old | ⟨rfl, _⟩
  · left
    rcases listedBefore with ⟨fresh, absent, _⟩ | ⟨oldKeys, before, kept⟩
    · rw [fresh, absent] at old
      contradiction
    · exact (mem_listAll_iff wellFormed _ q).mpr ⟨oldKeys, before, kept, old⟩
  · right
    rcases listedBefore with ⟨_, _, isCollection⟩ | before
    · exact ⟨rfl, .inl isCollection⟩
    · exact ⟨rfl, .inr before⟩

theorem listAll_afterPut_of_absent {s : MemoryStore} (wellFormed : WellFormed s)
    {r : Record} (named : r.collection ≠ []) (absent : s.records.lookup r.key = none) :
    (s.afterPut r).listAll r.collection = r ::ₘ s.listAll r.collection := by
  have same := Record.defaulted_of_named named
  have absentDefaulted : s.records.lookup r.defaulted.key = none := by
    rw [same]
    exact absent
  have records : (s.afterPut r).records =
      s.records.insert r.defaulted.key r.defaulted := by
    simp only [MemoryStore.afterPut, MemoryStore.put, absentDefaulted]
  have colIndex : (s.afterPut r).colIndex =
      indexKey s.colIndex r.defaulted.key r.defaulted.collection := by
    simp only [MemoryStore.afterPut, MemoryStore.put, absentDefaulted]
  rw [same] at records colIndex
  unfold MemoryStore.listAll
  rw [colIndex, records, orDefault_of_ne named, indexKey]
  cases present : s.colIndex.lookup r.collection with
  | none => simp
  | some keys =>
      have fresh : r.key ∉ keys := by
        intro member
        obtain ⟨stored, found⟩ := wellFormed.indexed present member
        rw [absent] at found
        contradiction
      simp only [Finmap.lookup_insert, Finset.insert_val_of_notMem fresh,
        Multiset.map_cons, Option.getD_some]
      congr 1
      apply Multiset.map_congr rfl
      intro key member
      have different : key ≠ r.key := fun same => fresh (same ▸ member)
      rw [Finmap.lookup_insert_of_ne _ different]

theorem listAll_putAll_of_absent {s : MemoryStore} (wellFormed : WellFormed s)
    {collection : GoString} (isNamed : collection ≠ []) {records : List Record}
    (sameCollection : ∀ r ∈ records, r.collection = collection)
    (absent : ∀ r ∈ records, s.records.lookup r.key = none)
    (distinct : (records.map Record.key).Nodup) :
    (s.putAll records).listAll collection = records + s.listAll collection := by
  induction records generalizing s with
  | nil => exact (zero_add _).symm
  | cons head rest ih =>
      have headCollection := sameCollection head List.mem_cons_self
      have named : head.collection ≠ [] := headCollection ▸ isNamed
      have headAbsent := absent head List.mem_cons_self
      obtain ⟨notListed, restDistinct⟩ := List.nodup_cons.mp distinct
      have restAbsent : ∀ r ∈ rest, (s.afterPut head).records.lookup r.key = none := by
        intro r member
        have different : r.key ≠ head.defaulted.key := by
          rw [Record.defaulted_of_named named]
          intro same
          exact notListed (same ▸ List.mem_map_of_mem member)
        rw [MemoryStore.afterPut_records, Champion.lookup_enter_of_ne _ different]
        exact absent r (List.mem_cons_of_mem head member)
      have onward := ih (wellFormed.afterPut head)
        (fun r member => sameCollection r (List.mem_cons_of_mem head member))
        restAbsent restDistinct
      have added := listAll_afterPut_of_absent wellFormed named headAbsent
      rw [headCollection] at added
      change ((s.afterPut head).putAll rest).listAll collection = _
      rw [onward, added, Multiset.add_cons, ← Multiset.cons_coe, Multiset.cons_add]

theorem listAll_putAll_new {collection : GoString} (isNamed : collection ≠ [])
    {records : List Record} (sameCollection : ∀ r ∈ records, r.collection = collection)
    (distinct : (records.map Record.key).Nodup) (nodeID : GoString) (now : Int64) :
    ((newMemoryStore nodeID now).putAll records).listAll collection = records := by
  rw [listAll_putAll_of_absent (wellFormed_newMemoryStore nodeID now) isNamed
    sameCollection (by simp [newMemoryStore]) distinct]
  simp [MemoryStore.listAll, newMemoryStore]

end NellDB
