import NellDB.Data.Paging
import NellDB.Sdk.Scans

namespace NellDB

open Data

/-! Paging through `AllDocs` with `Skip` and `Limit`. -/

namespace DocDB

/-- One call of `AllDocs`: the order in which `List` returns the records, and the
order in which the workers' chunks arrive. -/
structure ScanCall (db : DocDB) where
  env : ScanEnv
  all : List Record
  listing : (all : Multiset Record) = db.store.list db.collection

/-- The rows of the call for one page. -/
def pageRows (platform : Platform) (db : DocDB) (rng : DocRange) (size : Nat)
    (calls : Nat → db.ScanCall) (index : Nat) : List DocRow :=
  match db.allDocs platform (calls index).env false (calls index).all
    { rng with keys := [], limit := size, skip := index * size } with
  | .ok result => result.rows
  | .error _ => []

/-- The pages, up to the first empty one, list every live document of the range
once, whatever orders the calls see. -/
def PagesExact (platform : Platform) (db : DocDB) (rng : DocRange) (size : Nat) : Prop :=
  ∀ calls : Nat → db.ScanCall, ∃ listed, Paged (db.pageRows platform rng size calls) 0 listed ∧
    (listed : Multiset DocRow) = db.rowsInRange platform rng

/-- What a call collects before `Skip` and `Limit`. -/
def ScanCall.rows {db : DocDB} (platform : Platform) (rng : DocRange) (call : db.ScanCall) :
    List DocRow :=
  db.scanRows platform rng (scanWorkers call.env call.all) call.env.arrival call.all

theorem ScanCall.coe_rows {db : DocDB} (platform : Platform) (rng : DocRange)
    (call : db.ScanCall) :
    (call.rows platform rng : Multiset DocRow) = db.rowsInRange platform rng :=
  coe_scanRows (scanWorkers_pos _ _) call.env.arrival call.listing

theorem page_eq {rng : DocRange} {size index : Nat} (limited : rng.limit = size)
    (skipped : rng.skip = index * size) (positive : 0 < size) (rows : List DocRow) :
    rng.page rows = (rows.drop (index * size)).take size := by
  unfold DocRange.page
  rw [upTo_eq_firstOf, firstOf, limited, skipped, if_neg (by omega), Int.toNat_natCast]
  congr 1
  rcases Nat.eq_zero_or_pos (index * size) with none | some
  · rw [none]
    simp [← Int.natCast_mul, none]
  · rw [if_pos (by exact_mod_cast some)]
    split
    next beyond => rw [List.drop_eq_nil_of_le (by exact_mod_cast beyond)]
    next => rfl

theorem pageRows_eq (platform : Platform) (db : DocDB) (rng : DocRange) {size : Nat}
    (positive : 0 < size) (calls : Nat → db.ScanCall) :
    db.pageRows platform rng size calls =
      pageOf size fun index => (calls index).rows platform rng := by
  funext index
  unfold pageRows
  rw [allDocs_scanRows rfl]
  exact page_eq rfl rfl positive _

/-- A single worker keeps the order of the listing. -/
theorem rows_single {db : DocDB} (platform : Platform) (rng : DocRange) {all : List Record}
    (listing : (all : Multiset Record) = db.store.list db.collection) :
    ScanCall.rows platform rng ⟨.single, all, listing⟩ =
      (all.filter fun r => rng.contains r.id).map fun r =>
        db.makeRow platform r.id r rng.includeDocs := by
  have live : ∀ r ∈ all, r.deleted = false := by
    intro r member
    rw [← Multiset.mem_coe, listing] at member
    exact (Multiset.mem_filter.mp member).2
  have single : scanWorkers .single all = 1 := by
    unfold scanWorkers workersFor
    split <;> rfl
  rw [ScanCall.rows, single, ← filterMap_rangeRow platform db rng live]
  change ((workerChunks 1 all).map _).flatten = _
  rw [← List.filterMap_flatten, flatten_workerChunks Nat.one_pos]

/-- Some call collects the rows in any given order. -/
theorem exists_call (platform : Platform) (db : DocDB) (rng : DocRange) {order : List DocRow}
    (lists : (order : Multiset DocRow) = db.rowsInRange platform rng) :
    ∃ call : db.ScanCall, call.rows platform rng = order := by
  obtain ⟨listed, same⟩ := Quot.exists_rep (db.store.list db.collection)
  change (listed : Multiset Record) = _ at same
  have perm : order.Perm ((listed.filter fun r => rng.contains r.id).map fun r =>
      db.makeRow platform r.id r rng.includeDocs) := by
    rw [rowsInRange, liveInRange, ← same, Multiset.filter_coe, Multiset.map_coe] at lists
    simpa using Multiset.coe_eq_coe.mp lists
  obtain ⟨inside, chosen, images⟩ := exists_perm_map perm
  have contained : ∀ r ∈ inside, rng.contains r.id = true := fun r member =>
    (List.mem_filter.mp (chosen.subset member)).2
  have listing : ((inside ++ listed.filter fun r => !rng.contains r.id : List Record) :
      Multiset Record) = db.store.list db.collection := by
    rw [← same, Multiset.coe_eq_coe]
    exact (chosen.append_right _).trans (List.filter_append_perm _ listed)
  refine ⟨⟨.single, _, listing⟩, ?_⟩
  rw [rows_single, List.filter_append, List.filter_eq_self.mpr contained, List.filter_filter]
  simp [images]

end DocDB

/-- Paging is exact, whatever orders the calls see, exactly when the documents of the
range fit one page or cannot be told apart by their rows. -/
theorem pages_exact_iff (platform : Platform) (db : DocDB) (rng : DocRange) {size : Nat}
    (positive : 0 < size) :
    db.PagesExact platform rng size ↔
      (db.liveInRange rng).card ≤ size ∨
        ∀ first ∈ db.liveInRange rng, ∀ second ∈ db.liveInRange rng,
          db.makeRow platform first.id first rng.includeDocs =
            db.makeRow platform second.id second rng.includeDocs := by
  have library := paged_complete_iff positive (db.rowsInRange platform rng)
  simp only [DocDB.rowsInRange, Multiset.card_map, Multiset.forall_mem_map_iff] at library
  rw [← library]
  constructor
  · intro exact order lists
    choose calls rows using fun index => DocDB.exists_call platform db rng (lists index)
    obtain ⟨listed, paged, same⟩ := exact calls
    rw [DocDB.pageRows_eq platform db rng positive, funext rows] at paged
    exact ⟨listed, paged, same⟩
  · intro complete calls
    rw [DocDB.pageRows_eq platform db rng positive]
    exact complete _ fun index => (calls index).coe_rows platform rng

def pagedDocs : List Record :=
  [vectorRecord (ascii ['x']) [], vectorRecord (ascii ['y']) []]

def pagedDB : DocDB :=
  newDocDB .revOnly ((newMemoryStore [] 0).putAll pagedDocs) (ascii ['n']) [] pagedDocs

def wholeRange : DocRange := ⟨[], [], false, 0, 0, [], false⟩

theorem list_pagedDB : pagedDB.store.list pagedDB.collection = pagedDocs := by
  change MemoryStore.list ((newMemoryStore [] 0).putAll pagedDocs) defaultCollection = _
  rw [MemoryStore.list, listAll_putAll_new (by decide) (by decide) (by decide)]
  rfl

theorem pages_exact_iff_one_page : pagedDB.PagesExact .revOnly wholeRange 2 := by
  refine (pages_exact_iff .revOnly pagedDB wholeRange (by decide : 0 < 2)).mpr (.inl ?_)
  rw [DocDB.liveInRange, list_pagedDB]
  exact (Multiset.card_le_card (Multiset.filter_le _ _)).trans (by decide)

/-- Pages of one document: the second call lists the documents the other way round,
so one document comes twice and the other never. -/
theorem pages_repeat_document :
    ∃ (calls : Nat → pagedDB.ScanCall) (listed : List DocRow),
      Paged (pagedDB.pageRows .revOnly wholeRange 1 calls) 0 listed ∧
      listed.map DocRow.id = [ascii ['x'], ascii ['x']] ∧
      (pagedDB.rowsInRange .revOnly wholeRange).map DocRow.id = {ascii ['x'], ascii ['y']} := by
  have forward : (pagedDocs : Multiset Record) = pagedDB.store.list pagedDB.collection :=
    list_pagedDB.symm
  have backward : (pagedDocs.reverse : Multiset Record) =
      pagedDB.store.list pagedDB.collection :=
    (Multiset.coe_eq_coe.mpr (List.reverse_perm _)).trans forward
  let calls (index : Nat) : pagedDB.ScanCall :=
    if index = 0 then ⟨.single, pagedDocs, forward⟩ else ⟨.single, pagedDocs.reverse, backward⟩
  let rows (all : List Record) : List DocRow :=
    (all.filter fun r => wholeRange.contains r.id).map fun r =>
      pagedDB.makeRow .revOnly r.id r wholeRange.includeDocs
  have collected : (fun index => (calls index).rows .revOnly wholeRange) =
      fun index => if index = 0 then rows pagedDocs else rows pagedDocs.reverse := by
    funext index
    dsimp only [calls]
    split
    next => exact DocDB.rows_single .revOnly wholeRange forward
    next => exact DocDB.rows_single .revOnly wholeRange backward
  refine ⟨calls, (rows pagedDocs).take 1 ++ (rows pagedDocs.reverse).drop 1, ?_, ?_, ?_⟩
  · rw [DocDB.pageRows_eq .revOnly pagedDB wholeRange (by decide), collected]
    exact paged_of_changed (by decide) (by decide)
  · decide
  · rw [DocDB.rowsInRange, DocDB.liveInRange, list_pagedDB]
    rfl

end NellDB
