import NellDB.Data.Chunks
import NellDB.Data.Iteration
import NellDB.Sdk.Readback
import NellDB.Sdk.Revisions

namespace NellDB

open Data

/-! The documents that `AllDocs` and `SearchSimilar` return. -/

def typeVector : GoString := ascii ['v', 'e', 'c', 't', 'o', 'r']

/-- The number of processors, and the order in which the chunks of a parallel
scan arrive. -/
structure ScanEnv where
  numCPU : Nat
  positive : 0 < numCPU
  arrival : Arrival

def ScanEnv.single : ScanEnv where
  numCPU := 1
  positive := Nat.one_pos
  arrival := .inTurn

/-- A short slice is scanned by one goroutine, a longer one by `most`. -/
def workersFor (short most : Nat) (slice : List α) : Nat :=
  if slice.length < short then 1 else most

theorem workersFor_pos {most : Nat} (positive : 0 < most) (short : Nat) (slice : List α) :
    0 < workersFor short most slice := by
  unfold workersFor
  split
  next => exact Nat.one_pos
  next => exact positive

/-- A limit that is not positive is none. -/
def upTo (limit : Int) (found : List α) : List α :=
  if limit > 0 ∧ found.length > limit then found.take limit.toNat else found

theorem upTo_sublist (limit : Int) (found : List α) : (upTo limit found).Sublist found := by
  unfold upTo
  split
  next => exact List.take_sublist _ _
  next => exact List.Sublist.refl _

namespace MemoryStore

structure ScoredRecord (σ : Type) where
  record : Record
  score : σ

def isCandidate (collection : GoString) (r : Record) : Bool :=
  r.collection = collection ∧ r.deleted = false ∧ r.type = typeVector ∧ r.vector ≠ []

/-- Descending similarity, with the ids to break ties. -/
def scoredLess {σ : Type} [LinearOrder σ] (first second : ScoredRecord σ) : Bool :=
  if first.score = second.score then
    first.record.id < second.record.id
  else
    second.score < first.score

/-- `SearchSimilar` for one iteration order of the record map.  The similarity
of two vectors is a parameter. -/
def searchSimilar {σ : Type} [LinearOrder σ] (similarity : List UInt32 → List UInt32 → σ)
    (env : ScanEnv) (s : MemoryStore) (iteration : Iteration s.records)
    (collection : GoString) (queryVector : List UInt32) (limit : Int) : List Record :=
  let collection := orDefault collection
  let candidates := (iteration.order.map Prod.snd).filter (isCandidate collection)
  if candidates = [] then
    []
  else
    let numWorkers := workersFor 1000 env.numCPU candidates
    let allScored := parallelScan numWorkers env.arrival
      (List.map fun r => ScoredRecord.mk r (similarity queryVector r.vector)) candidates
    let sorted := allScored.mergeSort fun first second => !scoredLess second first
    (upTo limit sorted).map ScoredRecord.record

end MemoryStore

structure DocRange where
  startKey : GoString
  endKey : GoString
  inclusiveEnd : Bool
  limit : Int
  skip : Int
  keys : List GoString
  includeDocs : Bool

structure DocRow where
  id : GoString
  key : GoString
  rev : GoString
  doc : Option Doc

structure AllDocsResult where
  totalRows : Nat
  offset : Nat
  rows : List DocRow

def keyInRange (key start stop : GoString) (inclusiveEnd : Bool) : Bool :=
  if start ≠ [] ∧ key < start then
    false
  else if stop = [] then
    true
  else if inclusiveEnd then
    key ≤ stop
  else
    key < stop

def DocRange.contains (rng : DocRange) (id : GoString) : Bool :=
  keyInRange id rng.startKey rng.endKey rng.inclusiveEnd

def DocRange.page (rng : DocRange) (rows : List DocRow) : List DocRow :=
  let rows :=
    if rng.skip > 0 then
      if rng.skip ≥ rows.length then [] else rows.drop rng.skip.toNat
    else
      rows
  upTo rng.limit rows

namespace DocDB

def makeRow (platform : Platform) (db : DocDB) (id : GoString) (r : Record)
    (includeDoc : Bool) : DocRow :=
  let rev := match db.revs.lookup id with
    | some rev => rev
    | none => (r.readRev platform.json).getD []
  { id
    key := id
    rev := if rev = [] then revImported else rev
    doc := if includeDoc then some (r.joinDoc platform.json id) else none }

def keyRow (platform : Platform) (db : DocDB) (rng : DocRange) (id : GoString) :
    Option DocRow :=
  if rng.contains id then
    match db.store.get db.collection id with
    | .error _ => none
    | .ok r => if r.deleted then none else some (db.makeRow platform id r rng.includeDocs)
  else
    none

def rangeRow (platform : Platform) (db : DocDB) (rng : DocRange) (r : Record) :
    Option DocRow :=
  if r.deleted then
    none
  else if rng.contains r.id then
    some (db.makeRow platform r.id r rng.includeDocs)
  else
    none

def scanWorkers (env : ScanEnv) (all : List Record) : Nat :=
  workersFor 10000 (min env.numCPU 12) all

theorem scanWorkers_pos (env : ScanEnv) (all : List Record) : 0 < scanWorkers env all :=
  workersFor_pos (Nat.lt_min.mpr ⟨env.positive, by decide⟩) 10000 all

/-- `AllDocs` for one order `all` of the records that `List` returns. -/
def allDocs (platform : Platform) (db : DocDB) (env : ScanEnv) (cancelled : Bool)
    (all : List Record) (rng : DocRange) : Except SdkError AllDocsResult :=
  if cancelled then
    .error .context
  else if rng.keys ≠ [] then
    let rows := rng.keys.filterMap (db.keyRow platform rng)
    .ok ⟨rows.length, 0, rows⟩
  else
    let finalRows := parallelScan (scanWorkers env all) env.arrival
      (List.filterMap (db.rangeRow platform rng)) all
    .ok ⟨finalRows.length, 0, rng.page finalRows⟩

def searchSimilar {σ : Type} [LinearOrder σ] (similarity : List UInt32 → List UInt32 → σ)
    (platform : Platform) (env : ScanEnv) (db : DocDB) (iteration : Iteration db.store.records)
    (cancelled : Bool) (vector : List UInt32) (limit : Int) : Except SdkError (List Doc) :=
  if cancelled then
    .error .context
  else
    let limit := if limit ≤ 0 then 10 else limit
    let records := db.store.searchSimilar similarity env iteration db.collection vector limit
    .ok (records.map fun r =>
      let doc := r.joinDoc platform.json r.id
      match db.revs.lookup r.id with
      | some rev => doc.insert fieldRev (.string rev)
      | none => doc)

end DocDB

theorem DocRange.page_sublist (rng : DocRange) (rows : List DocRow) :
    (rng.page rows).Sublist rows := by
  refine (upTo_sublist rng.limit _).trans ?_
  split
  next =>
      split
      next => exact List.nil_sublist rows
      next => exact List.drop_sublist _ _
  next => exact List.Sublist.refl rows

theorem DocRange.page_whole {rng : DocRange} (noSkip : rng.skip = 0) (noLimit : rng.limit = 0)
    (rows : List DocRow) : rng.page rows = rows := by
  simp [DocRange.page, upTo, noSkip, noLimit]

theorem MemoryStore.mem_searchSimilar {σ : Type} [LinearOrder σ]
    {similarity : List UInt32 → List UInt32 → σ} {env : ScanEnv} {s : MemoryStore}
    {iteration : Iteration s.records} {collection : GoString} {queryVector : List UInt32}
    {limit : Int} {r : Record}
    (found : r ∈ s.searchSimilar similarity env iteration collection queryVector limit) :
    isCandidate (orDefault collection) r = true ∧ ∃ key, s.records.lookup key = some r := by
  unfold searchSimilar at found
  dsimp only at found
  split at found
  next => contradiction
  next =>
      obtain ⟨scored, top, rfl⟩ := List.mem_map.mp found
      have sorted := (upTo_sublist limit _).subset top
      have merged := (List.mergeSort_perm _ _).subset sorted
      have computed := (perm_parallelScan (workersFor_pos env.positive 1000 _) env.arrival
        (fun _ => List.map_flatten.symm) _).subset merged
      obtain ⟨candidate, chosen, rfl⟩ := List.mem_map.mp computed
      obtain ⟨visited, isCandidate⟩ := List.mem_filter.mp chosen
      obtain ⟨⟨key, value⟩, entry, rfl⟩ := List.mem_map.mp visited
      exact ⟨isCandidate, key, (iteration.complete key value).mp entry⟩

/-- The payload, if it decodes, has no id of its own or this one. -/
def Record.OwnID (json : JsonCodec) (r : Record) (id : GoString) : Prop :=
  ∀ body value, json.unmarshal r.payload = some body → body.lookup fieldID = some value →
    value = .string id

/-- The fields of the payload are laid over those of the record. -/
theorem Record.joinDoc_id_iff (json : JsonCodec) (r : Record) (id : GoString) :
    (r.joinDoc json id).lookup fieldID = some (.string id) ↔ r.OwnID json id := by
  have notRev : fieldID ≠ fieldRev := by decide
  have notPayload : fieldID ≠ fieldPayload := by decide
  cases decoded : json.unmarshal r.payload with
  | none =>
      have vacuous : r.OwnID json id := by
        intro body value found
        rw [decoded] at found
        contradiction
      refine iff_of_true ?_ vacuous
      unfold joinDoc
      simp only [decoded]
      split
      next => exact lookup_header_id id r
      next =>
          rw [Finmap.lookup_insert_of_ne _ notPayload]
          exact lookup_header_id id r
  | some body =>
      have nonempty : r.payload ≠ [] := by
        intro empty
        rw [empty, json.unmarshal_nil] at decoded
        contradiction
      have joined : (r.joinDoc json id).lookup fieldID = (body ∪ r.header id).lookup fieldID := by
        unfold joinDoc
        simp only [nonempty, if_false, decoded]
        split
        next => rfl
        next => rw [Finmap.lookup_insert_of_ne _ notRev]
      rw [joined]
      cases found : body.lookup fieldID with
      | none =>
          rw [Finmap.lookup_union_right (Finmap.lookup_eq_none.mp found), lookup_header_id]
          refine iff_of_true rfl ?_
          intro other value same present
          cases decoded.symm.trans same
          cases found.symm.trans present
      | some value =>
          rw [Finmap.lookup_union_left (Finmap.mem_of_lookup_eq_some found), found]
          constructor
          · intro isOwn other carried same present
            cases decoded.symm.trans same
            cases found.symm.trans present
            exact Option.some.inj isOwn
          · intro own
            rw [own body value decoded found]

namespace DocDB

section

variable (platform : Platform) (db : DocDB)

/-- A document read under an id has that id, and a later `Put` of it with other
application fields changes no record but the one at the id and those the
database keeps for itself. -/
structure OwnDoc (id : GoString) (doc : Doc) : Prop where
  named : doc.lookup fieldID = some (.string id)
  put : ∀ (later : DocDB) (env : CallEnv) (changed : Doc) (key : GoString),
    later.collection = db.collection →
    (∀ field ∈ reservedFields, changed.lookup field = doc.lookup field) →
    key ≠ flatKey db.collection id →
    (∀ own, isInternalID own = true → key ≠ flatKey db.collection own) →
    (later.put platform env changed).2.store.records.lookup key =
      later.store.records.lookup key

/-- Every read returns documents under their own ids. -/
structure ReadsOwn : Prop where
  get : ∀ id doc, db.get platform false id = .ok doc → db.OwnDoc platform id doc
  allDocs : ∀ (env : ScanEnv) (all : List Record) (rng : DocRange) (result : AllDocsResult),
    (all : Multiset Record) = db.store.list db.collection → rng.includeDocs = true →
    db.allDocs platform env false all rng = .ok result →
    ∀ row ∈ result.rows, ∃ doc, row.doc = some doc ∧ db.OwnDoc platform row.id doc
  searchSimilar : ∀ {σ : Type} [LinearOrder σ] (similarity : List UInt32 → List UInt32 → σ)
    (env : ScanEnv) (iteration : Iteration db.store.records) (vector : List UInt32)
    (limit : Int) (docs : List Doc),
    db.searchSimilar similarity platform env iteration false vector limit = .ok docs →
    List.Forall₂ (fun r doc => db.OwnDoc platform r.id doc)
      (db.store.searchSimilar similarity env iteration db.collection vector
        (if limit ≤ 0 then 10 else limit)) docs

/-- No payload of a live record names another id. -/
structure OwnIDs : Prop where
  stored : ∀ id r, db.stored id = some r → r.deleted = false → r.OwnID platform.json id
  listed : ∀ r ∈ db.store.list db.collection, r.OwnID platform.json r.id

end

/-- `Put` changes the record of its document and, at most, a record that the
database keeps for itself. -/
theorem put_frame (platform : Platform) (db : DocDB) (env : CallEnv) (doc : Doc)
    {key : GoString} (apart : key ≠ flatKey db.collection (doc.stringField fieldID))
    (document : ∀ own, isInternalID own = true → key ≠ flatKey db.collection own) :
    (db.put platform env doc).2.store.records.lookup key = db.store.records.lookup key := by
  have enters {r : Record} (s : MemoryStore) (inside : r.collection = db.collection)
      (elsewhere : key ≠ flatKey db.collection r.id) :
      (s.afterPut r).records.lookup key = s.records.lookup key := by
    rw [MemoryStore.afterPut_records]
    apply Champion.lookup_enter_of_ne
    rw [Record.defaulted_of_named (inside ▸ db.named), Record.key, inside]
    exact elsewhere
  rcases put_cases platform db env doc with
    ⟨_, _, refused⟩ | ⟨newRev, written, _, valid, result⟩
  · rw [refused]
  · rw [result]
    have atWritten : (db.store.afterPut written).records.lookup key =
        db.store.records.lookup key :=
      enters db.store valid.collection (valid.id ▸ apart)
    obtain ⟨_, _, stored | ⟨kept, kind, stored⟩⟩ :=
      commit_cases platform db env written written.id newRev db.nodeID
    · rw [stored]
      exact atWritten
    · rw [stored]
      exact (enters _ kind.collection (document kept.id kind.internal)).trans atWritten

section

variable {platform : Platform} {db : DocDB}

theorem ownDoc_iff {id : GoString} {doc : Doc} :
    db.OwnDoc platform id doc ↔ doc.lookup fieldID = some (.string id) := by
  constructor
  · exact OwnDoc.named
  · intro isOwn
    refine ⟨isOwn, ?_⟩
    intro later env changed key sameCollection same apart document
    have unchanged : changed.stringField fieldID = id := by
      simp only [Doc.stringField, same fieldID (by decide), isOwn]
    rw [← sameCollection] at apart document
    exact put_frame platform later env changed (unchanged ▸ apart) document

theorem ownDoc_joinDoc_iff {id : GoString} {r : Record} :
    db.OwnDoc platform id (r.joinDoc platform.json id) ↔ r.OwnID platform.json id :=
  ownDoc_iff.trans (Record.joinDoc_id_iff platform.json r id)

theorem get_ok_iff {id : GoString} {doc : Doc} :
    db.get platform false id = .ok doc ↔
      ∃ r, db.stored id = some r ∧ r.deleted = false ∧ r.joinDoc platform.json id = doc := by
  unfold DocDB.get
  rw [get_eq]
  cases db.stored id with
  | none => simp
  | some r => cases gone : r.deleted <;> simp [gone]

theorem perm_rangeRows (platform : Platform) (db : DocDB) (env : ScanEnv) (all : List Record)
    (rng : DocRange) :
    (parallelScan (scanWorkers env all) env.arrival
      (List.filterMap (db.rangeRow platform rng)) all).Perm
      (all.filterMap (db.rangeRow platform rng)) :=
  perm_parallelScan (scanWorkers_pos env all) env.arrival
    (fun _ => List.filterMap_flatten.symm) all

/-- A row is made of the live record at its id, or of a live record listed. -/
theorem allDocs_row {env : ScanEnv} {all : List Record} {rng : DocRange}
    {result : AllDocsResult} (done : db.allDocs platform env false all rng = .ok result)
    {row : DocRow} (member : row ∈ result.rows) :
    ∃ id r, row = db.makeRow platform id r rng.includeDocs ∧ r.deleted = false ∧
      (db.stored id = some r ∨ id = r.id ∧ r ∈ all) := by
  unfold DocDB.allDocs at done
  simp only [Bool.false_eq_true, if_false] at done
  split at done
  next =>
      cases done
      obtain ⟨id, _, made⟩ := List.mem_filterMap.mp member
      unfold keyRow at made
      rw [get_eq] at made
      split at made
      next =>
          cases found : db.stored id with
          | none => simp [found] at made
          | some r =>
              cases gone : r.deleted with
              | true => simp [found, gone] at made
              | false =>
                  simp only [found, Option.elim_some, gone, Bool.false_eq_true, if_false,
                    Option.some.injEq] at made
                  exact ⟨id, r, made.symm, gone, .inl found⟩
      next => contradiction
  next =>
      cases done
      have scanned := (perm_rangeRows platform db env all rng).subset
        ((rng.page_sublist _).subset member)
      obtain ⟨r, listed, made⟩ := List.mem_filterMap.mp scanned
      unfold rangeRow at made
      split at made
      next => contradiction
      next live =>
          split at made
          next => exact ⟨r.id, r, (Option.some.inj made).symm, by simpa using live,
            .inr ⟨rfl, listed⟩⟩
          next => contradiction

/-- The whole range has a row for every live record listed. -/
theorem mem_allDocs_whole (env : ScanEnv) {all : List Record} {r : Record} (listed : r ∈ all)
    (live : r.deleted = false) :
    ∃ result, db.allDocs platform env false all ⟨[], [], false, 0, 0, [], true⟩ = .ok result ∧
      db.makeRow platform r.id r true ∈ result.rows := by
  refine ⟨_, rfl, ?_⟩
  rw [DocRange.page_whole rfl rfl]
  apply (perm_rangeRows platform db env all _).symm.subset
  refine List.mem_filterMap.mpr ⟨r, listed, ?_⟩
  simp [rangeRow, live, DocRange.contains, keyInRange]

theorem OwnIDs.of_readsOwn (reads : db.ReadsOwn platform) : db.OwnIDs platform where
  stored id r found live := by
    have read : db.get platform false id = .ok (r.joinDoc platform.json id) :=
      get_ok_iff.mpr ⟨r, found, live, rfl⟩
    exact ownDoc_joinDoc_iff.mp (reads.get id _ read)
  listed r listed := by
    obtain ⟨all, same⟩ := Quot.exists_rep (db.store.list db.collection)
    have live : r.deleted = false := (Multiset.mem_filter.mp listed).2
    rw [← same] at listed
    obtain ⟨result, done, row⟩ := mem_allDocs_whole .single listed live
    obtain ⟨doc, included, own⟩ := reads.allDocs .single all _ result same rfl done _ row
    cases included
    exact ownDoc_joinDoc_iff.mp own

theorem OwnIDs.allDocs (own : db.OwnIDs platform) {env : ScanEnv} {all : List Record}
    {rng : DocRange} {result : AllDocsResult}
    (listing : (all : Multiset Record) = db.store.list db.collection)
    (included : rng.includeDocs = true)
    (done : db.allDocs platform env false all rng = .ok result) {row : DocRow}
    (member : row ∈ result.rows) :
    ∃ doc, row.doc = some doc ∧ db.OwnDoc platform row.id doc := by
  obtain ⟨id, r, rfl, live, source⟩ := allDocs_row done member
  refine ⟨r.joinDoc platform.json id, by simp [makeRow, included], ?_⟩
  apply ownDoc_joinDoc_iff.mpr
  rcases source with found | ⟨rfl, listed⟩
  · exact own.stored id r found live
  · rw [← Multiset.mem_coe, listing] at listed
    exact own.listed r listed

theorem OwnIDs.searchSimilar (own : db.OwnIDs platform) (wellFormed : WellFormed db.store)
    {σ : Type} [LinearOrder σ] {similarity : List UInt32 → List UInt32 → σ} {env : ScanEnv}
    {iteration : Iteration db.store.records} {vector : List UInt32} {limit : Int} {r : Record}
    (found : r ∈ db.store.searchSimilar similarity env iteration db.collection vector limit) :
    r.OwnID platform.json r.id := by
  obtain ⟨candidate, key, stored⟩ := MemoryStore.mem_searchSimilar found
  simp only [MemoryStore.isCandidate, orDefault_of_ne db.named, Bool.decide_and,
    Bool.and_eq_true, decide_eq_true_eq] at candidate
  have placed : key = flatKey db.collection r.id := by
    rw [← wellFormed.keyed stored, Record.key, candidate.1]
  rw [placed] at stored
  exact own.stored r.id r stored candidate.2.1

end

end DocDB

/-- Every read returns documents under their own ids exactly when no payload of
a live record names another id. -/
theorem reads_own_iff (platform : Platform) {store : MemoryStore} (wellFormed : WellFormed store)
    (nodeID collection : GoString) (all : List Record) (operations : List DocOperation) :
    let db := (newDocDB platform store nodeID collection all).performAll platform operations
    db.ReadsOwn platform ↔ db.OwnIDs platform := by
  intro db
  have wellFormed : WellFormed db.store := WellFormed.performAll wellFormed operations
  refine ⟨DocDB.OwnIDs.of_readsOwn, ?_⟩
  intro own
  constructor
  · intro id doc read
    obtain ⟨r, found, live, rfl⟩ := DocDB.get_ok_iff.mp read
    exact DocDB.ownDoc_joinDoc_iff.mpr (own.stored id r found live)
  · intro env all rng result listing included done row member
    exact own.allDocs listing included done member
  · intro σ _ similarity env iteration vector limit docs done
    cases done
    rw [List.forall₂_map_right_iff, List.forall₂_same]
    intro r found
    have named := (Record.joinDoc_id_iff platform.json r r.id).mpr
      (own.searchSimilar wellFormed found)
    apply DocDB.ownDoc_iff.mpr
    dsimp only
    split
    next => rw [Finmap.lookup_insert_of_ne _ (by decide), named]
    next => exact named

/-- A document that the server sends back to a node that lost its store, with a
payload that names its id, and one that the node puts then. -/
theorem reads_own_iff_put :
    let remote : Record :=
      { Record.zero with
        collection := defaultCollection
        id := ascii ['y']
        type := typeText
        payload := JsonCodec.openID ++ ascii ['y'] ++ JsonCodec.beforeRev ++
          ascii ['1', '-', 'a'] ++ JsonCodec.closeRev
        clock := ⟨500, 0⟩
        updatedBy := ascii ['n'] }
    let operations : List DocOperation :=
      [.single (.ingest (.at 1000) remote),
        .single (.call (.put (.at 1000) (Finmap.singleton fieldID (.string (ascii ['x'])))))]
    let db := (newDocDB .idRev (newMemoryStore [] 0) (ascii ['n']) [] []).performAll .idRev
      operations
    (db.stored (ascii ['x'])).isSome = true ∧
      (db.stored (ascii ['y'])).map Record.payload = some remote.payload ∧
      db.ReadsOwn .idRev := by
  intro remote operations db
  have stored : (db.stored (ascii ['x'])).isSome = true := by decide +kernel
  have ingested : (db.stored (ascii ['y'])).map Record.payload = some remote.payload := by
    decide +kernel
  have named : ∀ key ∈ db.store.records.keys, ((db.store.records.lookup key).all fun r =>
      r.collection = db.collection ∧ r.id ≠ [] ∧
        (JsonCodec.idRev.unmarshal r.payload).all fun body =>
          (body.lookup fieldID).isNone ∨ body.stringField fieldID = r.id) = true := by
    decide +kernel
  have wellFormed : WellFormed db.store :=
    WellFormed.performAll (wellFormed_newMemoryStore [] 0) operations
  have equivalence := reads_own_iff .idRev (wellFormed_newMemoryStore [] 0) (ascii ['n']) [] []
    operations
  change db.ReadsOwn .idRev ↔ db.OwnIDs .idRev at equivalence
  clear_value db
  have own {key : GoString} {r : Record} (found : db.store.records.lookup key = some r) :
      r.collection = db.collection ∧ r.OwnID JsonCodec.idRev r.id := by
    have checked := named key (Finmap.mem_keys.mpr (Finmap.mem_of_lookup_eq_some found))
    rw [found] at checked
    simp only [Option.all_some, decide_eq_true_eq] at checked
    obtain ⟨inside, identified, names⟩ := checked
    refine ⟨inside, ?_⟩
    intro body value decoded carried
    rw [decoded, Option.all_some, decide_eq_true_eq, carried, Option.isNone_some,
      Doc.stringField, carried] at names
    cases value with
    | string text => exact congrArg Value.string (names.resolve_left Bool.false_ne_true)
    | _ => exact absurd (names.resolve_left Bool.false_ne_true).symm identified
  refine ⟨stored, ingested, equivalence.mpr ⟨?_, ?_⟩⟩
  · intro id r found _
    obtain ⟨inside, ownID⟩ := own found
    have placed := wellFormed.keyed found
    rw [Record.key, inside] at placed
    rw [← flatKey_right_injective _ placed]
    exact ownID
  · intro r listed
    obtain ⟨_, _, _, found⟩ :=
      (mem_listAll_iff wellFormed db.collection r).mp (Multiset.mem_of_mem_filter listed)
    exact (own found).2

/-- A peer's record for `x` whose payload names `y`: `Get` of `x` returns the
document `y`, and putting it back overwrites the record of `y`. -/
theorem not_reads_own :
    let remote (id payload : Bytes) (wallTime : Int64) : Record :=
      { Record.zero with
        collection := defaultCollection
        id, payload
        type := typeText
        clock := ⟨wallTime, 0⟩
        updatedBy := ascii ['m'] }
    let y := remote (ascii ['y'])
      (JsonCodec.openRev ++ ascii ['1', '-', 'a'] ++ JsonCodec.closeRev) 500
    let x := remote (ascii ['x'])
      (JsonCodec.openID ++ ascii ['y'] ++ JsonCodec.beforeRev ++ ascii ['1', '-', 'a'] ++
        JsonCodec.closeRev) 600
    let db := (newDocDB .idRev (newMemoryStore [] 0) (ascii ['n']) [] []).performAll .idRev
      [.single (.ingest (.at 1000) y), .single (.ingest (.at 1000) x)]
    ¬ db.ReadsOwn .idRev ∧
      (db.stored (ascii ['y'])).map Record.updatedBy = some (ascii ['m']) ∧
      ((db.get .idRev false (ascii ['x'])).toOption.map fun doc =>
        (doc.stringField fieldID,
          ((db.put .idRev (.at 1000) doc).2.stored (ascii ['y'])).map Record.updatedBy)) =
        some (ascii ['y'], some (ascii ['n'])) := by
  intro remote y x db
  have before : (db.stored (ascii ['y'])).map Record.updatedBy = some (ascii ['m']) := by
    decide +kernel
  have after : ((db.get .idRev false (ascii ['x'])).toOption.map fun doc =>
      (doc.stringField fieldID,
        ((db.put .idRev (.at 1000) doc).2.stored (ascii ['y'])).map Record.updatedBy)) =
      some (ascii ['y'], some (ascii ['n'])) := by
    decide +kernel
  refine ⟨?_, before, after⟩
  clear_value db
  intro reads
  cases read : db.get .idRev false (ascii ['x']) with
  | error failure =>
      rw [read] at after
      contradiction
  | ok doc =>
      have named := (reads.get (ascii ['x']) doc read).named
      rw [read] at after
      simp only [Except.toOption, Option.map_some, Doc.stringField, named, Option.some.injEq,
        Prod.mk.injEq] at after
      exact absurd after.1 (by decide)

end NellDB
