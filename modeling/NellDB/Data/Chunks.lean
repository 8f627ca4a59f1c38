import Mathlib.Data.List.Perm.Basic

namespace NellDB.Data

/-! A slice cut into chunks of equal size, one for each worker.  The last
workers may be left without one. -/

def chunksFrom (chunkSize : Nat) (items : List α) :
    (index numWorkers : Nat) → List (List α)
  | _, 0 => []
  | index, numWorkers + 1 =>
      let start := index * chunkSize
      if start ≥ items.length then
        []
      else
        (items.drop start).take chunkSize ::
          chunksFrom chunkSize items (index + 1) numWorkers

def workerChunks (numWorkers : Nat) (items : List α) : List (List α) :=
  chunksFrom ((items.length + numWorkers - 1) / numWorkers) items 0 numWorkers

theorem flatten_chunksFrom (chunkSize : Nat) (items : List α)
    (index numWorkers : Nat) :
    (chunksFrom chunkSize items index numWorkers).flatten =
      (items.drop (index * chunkSize)).take (numWorkers * chunkSize) := by
  induction numWorkers generalizing index with
  | zero => simp [chunksFrom]
  | succ numWorkers ih =>
      unfold chunksFrom
      dsimp only
      split
      next beyond => simp [List.drop_eq_nil_of_le beyond]
      next =>
          rw [List.flatten_cons, ih, Nat.succ_mul numWorkers, Nat.add_comm _ chunkSize,
            List.take_add, List.drop_drop, Nat.succ_mul index]

theorem length_chunksFrom_le (chunkSize : Nat) (items : List α)
    (index numWorkers : Nat) :
    (chunksFrom chunkSize items index numWorkers).length ≤ numWorkers := by
  induction numWorkers generalizing index with
  | zero => exact Nat.le_refl 0
  | succ numWorkers ih =>
      unfold chunksFrom
      dsimp only
      split
      next => exact Nat.zero_le _
      next => exact Nat.succ_le_succ (ih _)

theorem flatten_workerChunks {numWorkers : Nat} (positive : 0 < numWorkers)
    (items : List α) : (workerChunks numWorkers items).flatten = items := by
  rw [workerChunks, flatten_chunksFrom, Nat.zero_mul, List.drop_zero]
  apply List.take_of_length_le
  have division := Nat.div_add_mod (items.length + numWorkers - 1) numWorkers
  have remainder := Nat.mod_lt (items.length + numWorkers - 1) positive
  omega

/-- The order in which the results of parallel workers arrive. -/
structure Arrival where
  order : {α : Type} → List α → List α
  perm : ∀ {α : Type} (sent : List α), (order sent).Perm sent

def Arrival.inTurn : Arrival where
  order sent := sent
  perm sent := List.Perm.refl sent

/-- Each worker sends the results for its chunk in one message. -/
def parallelScan {β : Type} (numWorkers : Nat) (arrival : Arrival) (work : List α → List β)
    (items : List α) : List β :=
  (arrival.order ((workerChunks numWorkers items).map work)).flatten

/-- The workers together do what one would do for the whole slice. -/
theorem perm_parallelScan {β : Type} {numWorkers : Nat} (positive : 0 < numWorkers)
    (arrival : Arrival) {work : List α → List β}
    (chunkwise : ∀ chunks : List (List α), (chunks.map work).flatten = work chunks.flatten)
    (items : List α) :
    (parallelScan numWorkers arrival work items).Perm (work items) := by
  have merged : ((workerChunks numWorkers items).map work).flatten = work items := by
    rw [chunkwise, flatten_workerChunks positive]
  rw [← merged]
  exact (arrival.perm _).flatten

end NellDB.Data
