import NellDB.Data.Sorting
import NellDB.LogStore.Append
import NellDB.Sdk.Views

namespace NellDB

open Data

/-! The parallel scans, for any number of workers, against sequential ones. -/

namespace DocDB

/-- What `AllDocs` collects before `Skip` and `Limit`. -/
def scanRows (platform : Platform) (db : DocDB) (rng : DocRange) (numWorkers : Nat)
    (arrival : Arrival) (all : List Record) : List DocRow :=
  parallelScan numWorkers arrival (List.filterMap (db.rangeRow platform rng)) all

def liveInRange (db : DocDB) (rng : DocRange) : Multiset Record :=
  (db.store.list db.collection).filter fun r => rng.contains r.id = true

/-- The rows of the live records in the range. -/
def rowsInRange (platform : Platform) (db : DocDB) (rng : DocRange) : Multiset DocRow :=
  (db.liveInRange rng).map fun r => db.makeRow platform r.id r rng.includeDocs

theorem filterMap_rangeRow (platform : Platform) (db : DocDB) (rng : DocRange)
    {all : List Record} (live : ∀ r ∈ all, r.deleted = false) :
    all.filterMap (db.rangeRow platform rng) =
      (all.filter fun r => rng.contains r.id).map fun r =>
        db.makeRow platform r.id r rng.includeDocs := by
  induction all with
  | nil => rfl
  | cons r rest ih =>
      have onward := ih fun other member => live other (List.mem_cons_of_mem r member)
      have isLive := live r List.mem_cons_self
      cases inside : rng.contains r.id with
      | true => simp [rangeRow, isLive, inside, onward]
      | false => simp [rangeRow, isLive, inside, onward]

theorem coe_scanRows {platform : Platform} {db : DocDB} {rng : DocRange} {numWorkers : Nat}
    (positive : 0 < numWorkers) (arrival : Arrival) {all : List Record}
    (listing : (all : Multiset Record) = db.store.list db.collection) :
    (db.scanRows platform rng numWorkers arrival all : Multiset DocRow) =
      db.rowsInRange platform rng := by
  have live : ∀ r ∈ all, r.deleted = false := by
    intro r member
    rw [← Multiset.mem_coe, listing] at member
    exact (Multiset.mem_filter.mp member).2
  have scanned : (db.scanRows platform rng numWorkers arrival all).Perm
      (all.filterMap (db.rangeRow platform rng)) :=
    perm_parallelScan positive arrival (fun _ => List.filterMap_flatten.symm) all
  rw [filterMap_rangeRow platform db rng live] at scanned
  rw [rowsInRange, liveInRange, ← listing, Multiset.filter_coe, Multiset.map_coe]
  simpa using Multiset.coe_eq_coe.mpr scanned

/-- `AllDocs` without `Keys` pages what its workers collected. -/
theorem allDocs_scanRows {rng : DocRange} (noKeys : rng.keys = []) (platform : Platform)
    (db : DocDB) (env : ScanEnv) (all : List Record) :
    db.allDocs platform env false all rng =
      .ok ⟨(db.scanRows platform rng (scanWorkers env all) env.arrival all).length, 0,
        rng.page (db.scanRows platform rng (scanWorkers env all) env.arrival all)⟩ := by
  simp [allDocs, noKeys, scanRows]

end DocDB

/-! Similarity search. -/

section

variable {σ : Type} [LinearOrder σ] (similarity : List UInt32 → List UInt32 → σ)
  (queryVector : List UInt32)

/-- Descending similarity, then ascending id. -/
def RanksBefore (first second : Record) : Prop :=
  similarity queryVector second.vector < similarity queryVector first.vector ∨
    similarity queryVector first.vector = similarity queryVector second.vector ∧
      first.id < second.id

/-- All candidates of the collection in the order of the ranking. -/
structure IsRanking (s : MemoryStore) (collection : GoString) (ranking : List Record) :
    Prop where
  complete : ∀ r, r ∈ ranking ↔
    MemoryStore.isCandidate (orDefault collection) r = true ∧
      ∃ key, s.records.lookup key = some r
  ordered : ranking.Pairwise (RanksBefore similarity queryVector)

/-- The first `limit` entries, or all if the limit is not positive. -/
def firstOf (limit : Int) (entries : List α) : List α :=
  if limit ≤ 0 then entries else entries.take limit.toNat

/-- The first `limit` entries of the one ranking of the collection. -/
def TopOfRanking (s : MemoryStore) (collection : GoString) (limit : Int)
    (result : List Record) : Prop :=
  ∃ ranking, IsRanking similarity queryVector s collection ranking ∧
    (∀ other, IsRanking similarity queryVector s collection other → other = ranking) ∧
    result = firstOf limit ranking

variable {similarity queryVector}

theorem RanksBefore.asymm {first second : Record}
    (before : RanksBefore similarity queryVector first second) :
    ¬ RanksBefore similarity queryVector second first := by
  rintro (higher | ⟨same, lower⟩)
  · rcases before with better | ⟨tied, _⟩
    · exact lt_asymm better higher
    · exact absurd tied higher.ne
  · rcases before with better | ⟨_, smaller⟩
    · exact absurd same better.ne
    · exact lt_asymm smaller lower

theorem IsRanking.unique {s : MemoryStore} {collection : GoString} {first second : List Record}
    (left : IsRanking similarity queryVector s collection first)
    (right : IsRanking similarity queryVector s collection second) : first = second :=
  eq_of_strictly_ordered (fun _ _ => RanksBefore.asymm) left.ordered right.ordered fun r =>
    (left.complete r).trans (right.complete r).symm

end

theorem upTo_eq_firstOf (limit : Int) (found : List α) :
    upTo limit found = firstOf limit found := by
  unfold upTo firstOf
  split
  next cut => rw [if_neg (by omega)]
  next whole =>
      split
      next => rfl
      next positive => rw [List.take_of_length_le (by omega)]

theorem firstOf_map (f : α → β) (limit : Int) (entries : List α) :
    (firstOf limit entries).map f = firstOf limit (entries.map f) := by
  unfold firstOf
  split
  next => rfl
  next => exact List.map_take

namespace MemoryStore

section

variable {σ : Type} [LinearOrder σ] {similarity : List UInt32 → List UInt32 → σ}
  {queryVector : List UInt32}

theorem scoredLess_iff (first second : ScoredRecord σ) :
    scoredLess first second = true ↔
      second.score < first.score ∨
        first.score = second.score ∧ first.record.id < second.record.id := by
  unfold scoredLess
  split
  next tied => simp [tied]
  next apart => simp [apart]

theorem scoredLess_false_iff (first second : ScoredRecord σ) :
    scoredLess second first = false ↔
      second.score < first.score ∨
        first.score = second.score ∧ first.record.id ≤ second.record.id := by
  rw [← Bool.not_eq_true, scoredLess_iff, not_or, not_lt, not_and, not_lt]
  constructor
  · rintro ⟨notBetter, tieBroken⟩
    rcases lt_or_eq_of_le notBetter with better | tied
    · exact .inl better
    · exact .inr ⟨tied.symm, tieBroken tied⟩
  · rintro (better | ⟨tied, smaller⟩)
    · exact ⟨better.le, fun tied => absurd tied better.ne⟩
    · exact ⟨tied.ge, fun _ => smaller⟩

theorem sorts_scored (scored : List (ScoredRecord σ)) :
    Sorts scoredLess scored (scored.mergeSort fun first second => !scoredLess second first) := by
  apply sorts_mergeSort
  · intro first second third
    simp only [scoredLess_false_iff]
    rintro (better | ⟨tied, smaller⟩) (further | ⟨tiedNext, smallerNext⟩)
    · exact .inl (further.trans better)
    · exact .inl (tiedNext ▸ better)
    · exact .inl (tied ▸ further)
    · exact .inr ⟨tied.trans tiedNext, smaller.trans smallerNext⟩
  · intro first second
    simp only [scoredLess_false_iff]
    rcases lt_trichotomy first.score second.score with lower | tied | higher
    · exact .inr (.inl lower)
    · rcases le_total first.record.id second.record.id with smaller | greater
      · exact .inl (.inr ⟨tied, smaller⟩)
      · exact .inr (.inr ⟨tied.symm, greater⟩)
    · exact .inl (.inl higher)

/-- The records that a search scores, in the order of the map. -/
def candidates (s : MemoryStore) (iteration : Iteration s.records) (collection : GoString) :
    List Record :=
  (iteration.order.map Prod.snd).filter (isCandidate (orDefault collection))

variable (similarity queryVector) in
/-- The scores of the workers' chunks as they arrive. -/
def scoreAll (numWorkers : Nat) (arrival : Arrival) (candidates : List Record) :
    List (ScoredRecord σ) :=
  parallelScan numWorkers arrival
    (List.map fun r => ScoredRecord.mk r (similarity queryVector r.vector)) candidates

theorem mem_candidates_iff {s : MemoryStore} (iteration : Iteration s.records)
    (collection : GoString) (r : Record) :
    r ∈ s.candidates iteration collection ↔
      isCandidate (orDefault collection) r = true ∧ ∃ key, s.records.lookup key = some r := by
  rw [candidates, List.mem_filter, and_comm]
  refine and_congr_right fun _ => ?_
  rw [List.mem_map]
  constructor
  · rintro ⟨⟨key, value⟩, entry, rfl⟩
    exact ⟨key, (iteration.complete key value).mp entry⟩
  · rintro ⟨key, found⟩
    exact ⟨(key, r), (iteration.complete key r).mpr found, rfl⟩

/-- Two records of one collection under different keys have different ids. -/
theorem distinct_candidates {s : MemoryStore} (wellFormed : WellFormed s)
    (iteration : Iteration s.records) (collection : GoString) :
    (s.candidates iteration collection).Pairwise fun first second => first.id ≠ second.id := by
  have keys : (iteration.order.map Prod.snd).Pairwise fun first second =>
      first.key ≠ second.key := by
    rw [List.pairwise_map]
    refine (List.pairwise_map.mp iteration.distinct).imp_of_mem ?_
    intro first second firstEntry secondEntry different sameKey
    apply different
    rw [← wellFormed.keyed ((iteration.complete _ _).mp firstEntry), sameKey,
      wellFormed.keyed ((iteration.complete _ _).mp secondEntry)]
  refine (keys.filter _).imp_of_mem ?_
  intro first second firstMember secondMember different sameID
  have ofCollection {r : Record} (member : r ∈ s.candidates iteration collection) :
      r.collection = orDefault collection := by
    have chosen := ((mem_candidates_iff iteration collection r).mp member).1
    simp only [isCandidate, decide_eq_true_eq] at chosen
    exact chosen.1
  apply different
  rw [Record.key, Record.key, ofCollection firstMember, ofCollection secondMember, sameID]

omit [LinearOrder σ] in
theorem perm_scoreAll {numWorkers : Nat} (positive : 0 < numWorkers) (arrival : Arrival)
    (chosen : List Record) :
    (scoreAll similarity queryVector numWorkers arrival chosen).Perm
      (chosen.map fun r => ScoredRecord.mk r (similarity queryVector r.vector)) :=
  perm_parallelScan positive arrival (fun _ => List.map_flatten.symm) chosen

/-- Any sort of the scores puts the candidates into the order of the ranking. -/
theorem isRanking_of_sorts {s : MemoryStore} (wellFormed : WellFormed s)
    {iteration : Iteration s.records} {collection : GoString} {numWorkers : Nat}
    (positive : 0 < numWorkers) {arrival : Arrival} {sorted : List (ScoredRecord σ)}
    (sorts : Sorts scoredLess (scoreAll similarity queryVector numWorkers arrival
      (s.candidates iteration collection)) sorted) :
    IsRanking similarity queryVector s collection (sorted.map ScoredRecord.record) := by
  have perm := sorts.perm.trans (perm_scoreAll positive arrival _)
  have scored : ∀ entry ∈ sorted,
      entry.score = similarity queryVector entry.record.vector := by
    intro entry member
    obtain ⟨r, _, rfl⟩ := List.mem_map.mp (perm.subset member)
    rfl
  have apart : (scoreAll similarity queryVector numWorkers arrival
      (s.candidates iteration collection)).Pairwise fun first second =>
        scoredLess first second = true ∨ scoredLess second first = true := by
    refine (perm_scoreAll positive arrival _).symm.pairwise ?_ fun either => either.symm
    rw [List.pairwise_map]
    refine (distinct_candidates wellFormed iteration collection).imp ?_
    intro first second different
    simp only [scoredLess_iff]
    rcases lt_trichotomy (similarity queryVector first.vector)
      (similarity queryVector second.vector) with lower | tied | higher
    · exact .inr (.inl lower)
    · rcases lt_or_gt_of_ne different with smaller | greater
      · exact .inl (.inr ⟨tied, smaller⟩)
      · exact .inr (.inr ⟨tied.symm, greater⟩)
    · exact .inl (.inl higher)
  constructor
  · intro r
    have records := perm.map ScoredRecord.record
    rw [List.map_map] at records
    rw [← mem_candidates_iff iteration, records.mem_iff]
    change r ∈ (s.candidates iteration collection).map id ↔ _
    rw [List.map_id]
  · rw [List.pairwise_map]
    refine (sorts.strict apart).imp_of_mem ?_
    intro first second firstMember secondMember less
    unfold RanksBefore
    rw [← scored first firstMember, ← scored second secondMember]
    exact (scoredLess_iff first second).mp less

theorem topOfRanking_of_sorts {s : MemoryStore} (wellFormed : WellFormed s)
    {iteration : Iteration s.records} {collection : GoString} {numWorkers : Nat}
    (positive : 0 < numWorkers) {arrival : Arrival} {sorted : List (ScoredRecord σ)}
    (sorts : Sorts scoredLess (scoreAll similarity queryVector numWorkers arrival
      (s.candidates iteration collection)) sorted) (limit : Int) :
    TopOfRanking similarity queryVector s collection limit
      ((upTo limit sorted).map ScoredRecord.record) := by
  have ranked := isRanking_of_sorts wellFormed positive sorts
  refine ⟨_, ranked, fun other isRanking => isRanking.unique ranked, ?_⟩
  rw [upTo_eq_firstOf, firstOf_map]

/-- `SearchSimilar` takes the first of its sorted scores; it returns nothing at once
if there is nothing to score. -/
theorem searchSimilar_sorts (env : ScanEnv) (s : MemoryStore) (iteration : Iteration s.records)
    (collection : GoString) (limit : Int) :
    ∃ numWorkers sorted, 0 < numWorkers ∧
      Sorts scoredLess (scoreAll similarity queryVector numWorkers env.arrival
        (s.candidates iteration collection)) sorted ∧
      s.searchSimilar similarity env iteration collection queryVector limit =
        (upTo limit sorted).map ScoredRecord.record := by
  have positive := workersFor_pos env.positive 1000 (s.candidates iteration collection)
  refine ⟨_, _, positive, sorts_scored _, ?_⟩
  unfold searchSimilar
  dsimp only
  split
  next none =>
      have perm := @perm_scoreAll σ similarity queryVector _ positive env.arrival
        (s.candidates iteration collection)
      have empty := (perm.trans (.of_eq (List.map_eq_nil_iff.mpr none))).eq_nil
      rw [empty]
      simp [upTo]
  next => rfl

theorem topOfRanking_searchSimilar {s : MemoryStore} (wellFormed : WellFormed s) (env : ScanEnv)
    (iteration : Iteration s.records) (collection : GoString) (limit : Int) :
    TopOfRanking similarity queryVector s collection limit
      (s.searchSimilar similarity env iteration collection queryVector limit) := by
  obtain ⟨numWorkers, sorted, positive, sorts, result⟩ :=
    @searchSimilar_sorts σ _ similarity queryVector env s iteration collection limit
  rw [result]
  exact topOfRanking_of_sorts wellFormed positive sorts limit

end

end MemoryStore

/-- The log store scans the record map of its memory in the same way. -/
def LogStore.searchSimilar {σ : Type} [LinearOrder σ]
    (similarity : List UInt32 → List UInt32 → σ) (env : ScanEnv) (ls : LogStore)
    (iteration : Iteration ls.memory.records) (collection : GoString)
    (queryVector : List UInt32) (limit : Int) : List Record :=
  ls.memory.searchSimilar similarity env iteration collection queryVector limit

/-- For every number of workers and every order of arrival, the scans give what one
pass over the records gives. -/
theorem scans_sequential {numWorkers : Nat} (positive : 0 < numWorkers) (arrival : Arrival)
    (env : ScanEnv) :
    (∀ (platform : Platform) (db : DocDB) (rng : DocRange) (all : List Record),
      (all : Multiset Record) = db.store.list db.collection →
      (db.scanRows platform rng numWorkers arrival all : Multiset DocRow) =
          db.rowsInRange platform rng ∧
        (rng.keys = [] → ∃ rows : List DocRow,
          (rows : Multiset DocRow) = db.rowsInRange platform rng ∧
          db.allDocs platform env false all rng = .ok ⟨rows.length, 0, rng.page rows⟩)) ∧
    ∀ {σ : Type} [LinearOrder σ] (similarity : List UInt32 → List UInt32 → σ)
      (queryVector : List UInt32) (collection : GoString) (limit : Int),
      (∀ (s : MemoryStore), WellFormed s → ∀ (iteration : Iteration s.records),
        (∀ sorted, Sorts MemoryStore.scoredLess (MemoryStore.scoreAll similarity queryVector
            numWorkers arrival (s.candidates iteration collection)) sorted →
          TopOfRanking similarity queryVector s collection limit
            ((upTo limit sorted).map MemoryStore.ScoredRecord.record)) ∧
        TopOfRanking similarity queryVector s collection limit
          (s.searchSimilar similarity env iteration collection queryVector limit)) ∧
      ∀ (ls : LogStore), WellFormed ls.memory → ∀ (iteration : Iteration ls.memory.records),
        TopOfRanking similarity queryVector ls.memory collection limit
          (ls.searchSimilar similarity env iteration collection queryVector limit) := by
  constructor
  · intro platform db rng all listing
    refine ⟨DocDB.coe_scanRows positive arrival listing, fun noKeys => ?_⟩
    exact ⟨_, DocDB.coe_scanRows (DocDB.scanWorkers_pos env all) env.arrival listing,
      DocDB.allDocs_scanRows noKeys platform db env all⟩
  · intro σ _ similarity queryVector collection limit
    constructor
    · intro s wellFormed iteration
      refine ⟨?_, MemoryStore.topOfRanking_searchSimilar wellFormed env iteration collection limit⟩
      intro sorted sorts
      exact MemoryStore.topOfRanking_of_sorts wellFormed positive sorts limit
    · intro ls wellFormed iteration
      exact MemoryStore.topOfRanking_searchSimilar wellFormed env iteration collection limit

def vectorRecord (id : GoString) (vector : List UInt32) : Record :=
  { Record.zero with
    collection := defaultCollection
    id, vector
    type := typeVector }

/-- Two records in the range and two candidates, with more workers than records. -/
theorem scans_sequential_two_vectors :
    let records := [vectorRecord (ascii ['x']) [1], vectorRecord (ascii ['y']) [1, 2]]
    let store := (newMemoryStore [] 0).putAll records
    let db := newDocDB .revOnly store (ascii ['n']) [] records
    let length : List UInt32 → List UInt32 → Nat := fun _ vector => vector.length
    (db.scanRows .revOnly ⟨[], [], false, 0, 0, [], false⟩ 3 .inTurn records : Multiset DocRow) =
        db.rowsInRange .revOnly ⟨[], [], false, 0, 0, [], false⟩ ∧
      TopOfRanking length [1] store [] 1
        (store.searchSimilar length .single (.sorted _) [] [1] 1) := by
  intro records store db length
  obtain ⟨rows, search⟩ := scans_sequential (by decide : 0 < 3) .inTurn .single
  have wellFormed : WellFormed store := (wellFormed_newMemoryStore _ _).putAll _
  have listing : (records : Multiset Record) = store.list defaultCollection := by
    rw [MemoryStore.list, listAll_putAll_new (by decide) (by decide) (by decide)]
    rfl
  refine ⟨(rows .revOnly db _ records listing).1, ?_⟩
  exact ((search length [1] [] 1).1 store wellFormed (.sorted _)).2

end NellDB
