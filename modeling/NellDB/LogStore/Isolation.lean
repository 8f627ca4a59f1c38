import NellDB.LogStore.Append
import NellDB.Store.Index

namespace NellDB

open Data

/-! Collections share one map of flattened keys.  They stay apart when no name
in use continues another one with a colon. -/

def Separate (names : GoString → Prop) : Prop :=
  ∀ first second, names first → names second → ¬ (first ++ ascii [':']) <+: second

/-- A name that is at most as long as another and starts the same key ends
where the other one does, or goes on there with a colon. -/
theorem eq_or_prefix_of_flatKey {first second i j : GoString}
    (same : flatKey first i = flatKey second j) (shorter : first.length ≤ second.length) :
    first = second ∨ (first ++ ascii [':']) <+: second := by
  have left : first ++ ascii [':'] <+: flatKey second j := by
    rw [← same]
    exact List.prefix_append _ i
  have right : second ++ ascii [':'] <+: flatKey second j := List.prefix_append _ j
  rcases Nat.lt_or_eq_of_le shorter with less | equal
  · right
    have inside : second <+: flatKey second j := (List.prefix_append second _).trans right
    refine List.prefix_of_prefix_length_le left inside ?_
    rw [List.length_append]
    exact less
  · left
    have first' : first <+: flatKey second j := (List.prefix_append first _).trans left
    have second' : second <+: flatKey second j := (List.prefix_append second _).trans right
    exact (List.prefix_of_prefix_length_le first' second' equal.le).eq_of_length equal

theorem Separate.flatKey_inj {names : GoString → Prop} (separate : Separate names)
    {first second i j : GoString} (firstUsed : names first) (secondUsed : names second)
    (same : flatKey first i = flatKey second j) : first = second ∧ i = j := by
  have sameName : first = second := by
    rcases Nat.le_total first.length second.length with shorter | longer
    · rcases eq_or_prefix_of_flatKey same shorter with equal | goesOn
      · exact equal
      · exact absurd goesOn (separate first second firstUsed secondUsed)
    · rcases eq_or_prefix_of_flatKey same.symm longer with equal | goesOn
      · exact equal.symm
      · exact absurd goesOn (separate second first secondUsed firstUsed)
  subst second
  exact ⟨rfl, flatKey_right_injective first same⟩

theorem WellFormed.write {memory : MemoryStore} (wellFormed : WellFormed memory)
    (call : Write) : WellFormed (memory.write call).2 := by
  cases call with
  | put incoming => exact wellFormed.afterPut incoming
  | putLocal document now =>
      refine wellFormed.insert (r := (memory.putLocal document now).1)
        (orDefault_ne_nil document.collection) rfl ?_
      rcases memory.write_colIndex (.putLocal document now) with same | ⟨_, added⟩
      · exact .inl same
      · exact .inr ⟨_, added⟩
  | delete collection id now =>
      have placed : (memory.delete collection id now).1.key =
          flatKey (orDefault collection) id := by
        cases present : memory.records.lookup (flatKey (orDefault collection) id) with
        | none => simp [MemoryStore.delete, present, Record.key]
        | some stored =>
            have keyed := wellFormed.keyed present
            simpa [MemoryStore.delete, present, Record.key] using keyed
      have named : (memory.delete collection id now).1.collection ≠ [] := by
        cases present : memory.records.lookup (flatKey (orDefault collection) id) with
        | none => simpa [MemoryStore.delete, present] using orDefault_ne_nil collection
        | some stored =>
            simpa [MemoryStore.delete, present] using wellFormed.named present
      refine wellFormed.insert named ?_ ?_
      · rw [placed]
        rfl
      · rcases memory.write_colIndex (.delete collection id now) with same | ⟨_, added⟩
        · exact .inl same
        · exact .inr ⟨_, by rw [placed]; exact added⟩

/-- Every record is stored and listed under its own collection. -/
structure Isolated (names : GoString → Prop) (memory : MemoryStore) : Prop where
  wellFormed : WellFormed memory
  used : ∀ {position stored}, memory.records.lookup position = some stored →
    names stored.collection
  listed : ∀ {collection keys key stored}, memory.colIndex.lookup collection = some keys →
    key ∈ keys → memory.records.lookup key = some stored → stored.collection = collection

theorem isolated_newMemoryStore (names : GoString → Prop) (nodeID : GoString) (now : Int64) :
    Isolated names (newMemoryStore nodeID now) where
  wellFormed := wellFormed_newMemoryStore nodeID now
  used found := by simp [newMemoryStore] at found
  listed found := by simp [newMemoryStore] at found

namespace Isolated

variable {names : GoString → Prop} {memory : MemoryStore}

theorem collection_eq (isolated : Isolated names memory) (separate : Separate names)
    {collection id : GoString} {stored : Record} (isUsed : names collection)
    (found : memory.records.lookup (flatKey collection id) = some stored) :
    stored.collection = collection :=
  (separate.flatKey_inj (isolated.used found) isUsed (isolated.wellFormed.keyed found)).1

theorem write_collection (isolated : Isolated names memory) (separate : Separate names)
    {call : Write} (isUsed : names call.collection) :
    (memory.write call).1.collection = call.collection := by
  cases call with
  | put incoming =>
      rcases memory.write_put_cases incoming with won | kept
      · rw [won]
        rfl
      · exact isolated.collection_eq separate isUsed kept
  | putLocal document now => rfl
  | delete collection id now =>
      change (memory.delete collection id now).1.collection = orDefault collection
      cases present : memory.records.lookup (flatKey (orDefault collection) id) with
      | none => simp [MemoryStore.delete, present]
      | some stored =>
          have same : stored.collection = orDefault collection :=
            isolated.collection_eq separate isUsed present
          simpa [MemoryStore.delete, present] using same

/-- Storing a record of a collection in use, and listing its key there at most,
keeps the collections apart. -/
theorem insert (isolated : Isolated names memory) (separate : Separate names)
    {next : MemoryStore} {r : Record} (wellFormed : WellFormed next)
    (isUsed : names r.collection) (records : next.records = memory.records.insert r.key r)
    (colIndex : next.colIndex = memory.colIndex ∨
      next.colIndex = indexKey memory.colIndex r.key r.collection) :
    Isolated names next := by
  have source : ∀ {position stored}, next.records.lookup position = some stored →
      position = r.key ∧ stored = r ∨ memory.records.lookup position = some stored := by
    intro position stored found
    rw [records] at found
    rcases FiniteMap.lookup_insert_cases found with new | ⟨_, before⟩
    · exact .inl new
    · exact .inr before
  have own : ∀ {previous}, memory.records.lookup r.key = some previous →
      previous.collection = r.collection :=
    fun present => isolated.collection_eq separate isUsed present
  refine ⟨wellFormed, ?_, ?_⟩
  · intro position stored found
    rcases source found with ⟨_, rfl⟩ | before
    · exact isUsed
    · exact isolated.used before
  · intro collection keys key stored indexed member found
    have listedBefore : key = r.key ∧ collection = r.collection ∨
        ∃ old, memory.colIndex.lookup collection = some old ∧ key ∈ old := by
      rcases colIndex with same | added
      · rw [same] at indexed
        exact .inr ⟨keys, indexed, member⟩
      · rw [added] at indexed
        exact mem_lookup_indexKey indexed member
    rcases source found with ⟨rfl, rfl⟩ | before
    · rcases listedBefore with ⟨_, rfl⟩ | ⟨old, indexedOld, memberOld⟩
      · rfl
      · -- the key was listed already, for a record of the same collection
        obtain ⟨previous, present⟩ := isolated.wellFormed.indexed indexedOld memberOld
        rw [← own present]
        exact isolated.listed indexedOld memberOld present
    · rcases listedBefore with ⟨rfl, rfl⟩ | ⟨old, indexedOld, memberOld⟩
      · exact own before
      · exact isolated.listed indexedOld memberOld before

theorem write_key (isolated : Isolated names memory) (call : Write) :
    (memory.write call).1.key = call.key := by
  refine (isolated.wellFormed.write call).keyed ?_
  rw [memory.write_records, Finmap.lookup_insert]

theorem write (isolated : Isolated names memory) (separate : Separate names) {call : Write}
    (isUsed : names call.collection) : Isolated names (memory.write call).2 := by
  have own := isolated.write_collection separate isUsed
  have placed := isolated.write_key call
  refine isolated.insert separate (isolated.wellFormed.write call) (own.symm ▸ isUsed) ?_ ?_
  · rw [placed, memory.write_records]
  · rw [placed, own]
    exact (memory.write_colIndex call).imp_right And.right

theorem of_eq (isolated : Isolated names memory) {next : MemoryStore}
    (records : next.records = memory.records) (colIndex : next.colIndex = memory.colIndex) :
    Isolated names next where
  wellFormed := isolated.wellFormed.of_eq records colIndex
  used := by
    rw [records]
    exact isolated.used
  listed := by
    rw [records, colIndex]
    exact isolated.listed

theorem writes (isolated : Isolated names memory) (separate : Separate names)
    {calls : List Write} (isUsed : ∀ call ∈ calls, names call.collection) :
    Isolated names (memory.writes calls) := by
  induction calls generalizing memory with
  | nil => exact isolated
  | cons call rest ih =>
      have first := isolated.write separate (isUsed call List.mem_cons_self)
      exact ih first fun other member => isUsed other (List.mem_cons_of_mem call member)

theorem collection_of_mem_listAll (isolated : Isolated names memory)
    {collection : GoString} {r : Record} (member : r ∈ memory.listAll collection) :
    r.collection = orDefault collection := by
  obtain ⟨keys, indexed, inKeys, found⟩ :=
    (mem_listAll_iff isolated.wellFormed collection r).mp member
  exact isolated.listed indexed inKeys found

end Isolated

theorem Separate.get_write {names : GoString → Prop} (separate : Separate names)
    (memory : MemoryStore) {call : Write} (isUsed : names call.collection)
    {collection id : GoString} (alsoUsed : names (orDefault collection))
    (different : (orDefault collection, id) ≠ (call.collection, call.id)) :
    (memory.write call).2.get collection id = memory.get collection id := by
  have otherKey : flatKey (orDefault collection) id ≠ call.key := by
    intro same
    obtain ⟨sameCollection, sameID⟩ := separate.flatKey_inj alsoUsed isUsed same
    exact different (by rw [sameCollection, sameID])
  simp only [MemoryStore.get, MemoryStore.write_records,
    Finmap.lookup_insert_of_ne _ otherKey]

/-- Collections with separate names are isolated in both backends. -/
theorem collections_isolated (names : GoString → Prop) (separate : Separate names)
    (nodeID : GoString) (now : Int64) (calls : List Write)
    (used : ∀ call ∈ calls, names call.collection) :
    let memory := (newMemoryStore nodeID now).writes calls
    ((∀ call, names call.collection → ∀ collection id, names (orDefault collection) →
        (orDefault collection, id) ≠ (call.collection, call.id) →
        (memory.write call).2.get collection id = memory.get collection id) ∧
      (∀ collection, ∀ r ∈ memory.listAll collection, r.collection = orDefault collection) ∧
      ∀ collection, ∀ r ∈ memory.list collection, r.collection = orDefault collection) ∧
    ∀ (zstd : Zstd) (ls : LogStore) (events : List LogEvent),
      ls.memory = newMemoryStore nodeID now → events.filterMap LogEvent.call = calls →
      let log := ls.run zstd events
      (∀ call, names call.collection → ∀ collection id, names (orDefault collection) →
        (orDefault collection, id) ≠ (call.collection, call.id) →
        (log.write zstd call).get collection id = log.get collection id) ∧
      (∀ collection, ∀ r ∈ log.listAll collection, r.collection = orDefault collection) ∧
      ∀ collection, ∀ r ∈ log.list collection, r.collection = orDefault collection := by
  intro memory
  have isolated : Isolated names memory :=
    (isolated_newMemoryStore names nodeID now).writes separate used
  have frame : ∀ call, names call.collection → ∀ collection id,
      names (orDefault collection) → (orDefault collection, id) ≠ (call.collection, call.id) →
      (memory.write call).2.get collection id = memory.get collection id :=
    fun call isUsed collection id alsoUsed different =>
      separate.get_write memory isUsed alsoUsed different
  have listed : ∀ collection, ∀ r ∈ memory.listAll collection,
      r.collection = orDefault collection :=
    fun collection r member => isolated.collection_of_mem_listAll member
  have live : ∀ collection, ∀ r ∈ memory.list collection,
      r.collection = orDefault collection :=
    fun collection r member => listed collection r (Multiset.mem_of_mem_filter member)
  refine ⟨⟨frame, listed, live⟩, ?_⟩
  intro zstd ls events sameStart sameCalls log
  have sameMemory : log.memory = memory := by
    rw [LogStore.run_memory, sameStart, sameCalls]
  unfold LogStore.get LogStore.listAll LogStore.list
  simp only [LogStore.write_memory, sameMemory]
  exact ⟨frame, listed, live⟩

/-- Two collections without colons, one id with a colon. -/
theorem collections_isolated_colon_id :
    let first : Record :=
      { Record.zero with collection := ascii ['a'], id := ascii ['b', ':', 'c'] }
    let second : Record := { Record.zero with collection := ascii ['b'], id := ascii ['c'] }
    let memory := (newMemoryStore (ascii ['n']) 0).writes [.put first]
    (memory.write (.put second)).2.get (ascii ['a']) (ascii ['b', ':', 'c']) = .ok first := by
  intro first second memory
  have separate : Separate (· ∈ [ascii ['a'], ascii ['b']]) := by
    unfold Separate
    have apart : ∀ one ∈ [ascii ['a'], ascii ['b']], ∀ other ∈ [ascii ['a'], ascii ['b']],
        ¬ (one ++ ascii [':']) <+: other := by decide
    exact fun one other inOne inOther => apart one inOne other inOther
  have used : ∀ call ∈ [Write.put first], call.collection ∈ [ascii ['a'], ascii ['b']] := by
    decide
  have result := collections_isolated _ separate (ascii ['n']) 0 [.put first] used
  rw [result.1.1 (.put second) (by decide) (ascii ['a']) (ascii ['b', ':', 'c']) (by decide)
    (by decide)]
  rfl

/-- A write to the collection `a:b` replaces a record of the collection `a`,
which then lists it. -/
theorem collections_collide :
    let first : Record :=
      { Record.zero with collection := ascii ['a'], id := ascii ['b', ':', 'c'] }
    let second : Record :=
      { Record.zero with collection := ascii ['a', ':', 'b'], id := ascii ['c'] }
    let before := (newMemoryStore (ascii ['n']) 0).afterPut first
    let written := (before.putLocal second 1).1
    let after := (before.putLocal second 1).2
    before.get (ascii ['a']) (ascii ['b', ':', 'c']) = .ok first ∧
      after.get (ascii ['a']) (ascii ['b', ':', 'c']) = .ok written ∧
      written.collection = ascii ['a', ':', 'b'] ∧ written ∈ after.listAll (ascii ['a']) := by
  decide

end NellDB
