import NellDB.Data.Chunks
import NellDB.Data.Framing
import NellDB.Data.WorkerPool
import NellDB.LogStore.Append

namespace NellDB

open Data

structure Frame where
  offset : Nat
  compLen : Nat
  uncompLen : Nat
  deriving DecidableEq, Repr

/-- Phase 1: the scan stops at the first header or body that is cut short.
Each frame takes at least eight bytes, so the length of the file is fuel
enough. -/
def scanFrames : (fuel offset : Nat) → (rest : Bytes) → List Frame
  | 0, _, _ => []
  | fuel + 1, offset, rest =>
      if rest.length < 8 then
        []
      else
        let uncompLen := fieldValue (rest.take 4)
        let compLen := fieldValue ((rest.drop 4).take 4)
        let body := rest.drop 8
        if body.length < compLen then
          []
        else
          ⟨offset + 8, compLen, uncompLen⟩ ::
            scanFrames fuel (offset + 8 + compLen) (body.drop compLen)

def findFrames (file : Bytes) : List Frame := scanFrames file.length 0 file

inductive ReplayError where
  | read
  | decompress
  | unmarshal (failure : Record.DecodeError)
  deriving DecidableEq, Repr

/-- How the file answers a read of `count` bytes at `offset`. -/
abbrev ReadAt := (offset count : Nat) → Option Bytes

def readFile (file : Bytes) : ReadAt := fun offset count =>
  if offset + count ≤ file.length then
    some ((file.drop offset).take count)
  else
    none

/-- Phase 2: a worker reads, decompresses and unmarshals one frame.  A worker
that cannot open the file fails at its first read. -/
def loadFrame (zstd : Zstd) (readAt : ReadAt) (fr : Frame) :
    Except ReplayError Record :=
  match readAt fr.offset fr.compLen with
  | none => .error .read
  | some compressed =>
      match zstd.decodeAll compressed with
      | none => .error .decompress
      | some raw =>
          match Record.unmarshalBinary raw with
          | .error failure => .error (.unmarshal failure)
          | .ok r => .ok r

/-- Phase 3: one loaded record is merged into the indexes. -/
def mergeRecord (memory : MemoryStore) (loaded : Record) : MemoryStore :=
  let loaded := loaded.defaulted
  let key := loaded.key
  let records := match memory.records.lookup key with
    | some existing => memory.records.insert key (resolveConflict existing loaded)
    | none => memory.records.insert key loaded
  { memory with
    records
    colIndex := indexKey memory.colIndex key loaded.collection
    clock := memory.clock.update loaded.clock
    kv := memory.kv.update loaded.updatedBy loaded.clock }

def mergeAll (memory : MemoryStore) (loaded : List Record) : MemoryStore :=
  loaded.foldl mergeRecord memory

/-- A partition of the frames into chunks, one for each worker.  The channels
hold one message per worker. -/
structure WorkPlan (frames : List Frame) where
  numWorkers : Nat
  chunks : List (List Frame)
  partitioned : chunks.flatten = frames
  bounded : chunks.length ≤ numWorkers

abbrev ReplayState := WorkerPool.State Frame Record ReplayError

/-- The states of phases 2 and 3 that some interleaving reaches. -/
def Replays (zstd : Zstd) (readAt : ReadAt) (plan : WorkPlan frames)
    (s : ReplayState) : Prop :=
  WorkerPool.Reaches plan.numWorkers (loadFrame zstd readAt)
    (WorkerPool.start plan.chunks) s

def replayPlan (numWorkers : Nat) (positive : 0 < numWorkers) (frames : List Frame) :
    WorkPlan frames where
  numWorkers := numWorkers
  chunks := workerChunks numWorkers frames
  partitioned := flatten_workerChunks positive frames
  bounded := length_chunksFrom_le _ frames 0 numWorkers

/-- What `OpenLog` is called with: the options, the clock reading and the
number of replay workers. -/
structure Opening where
  nodeID : GoString
  now : Int64
  flushInterval : Int
  numWorkers : Nat
  positive : 0 < numWorkers

namespace Opening

def store (opening : Opening) (file : Bytes) (memory : MemoryStore) : LogStore where
  memory := memory
  writer := ⟨file, []⟩
  flushInterval := opening.flushInterval

def fresh (opening : Opening) : MemoryStore :=
  newMemoryStore opening.nodeID opening.now

end Opening

inductive OpenLog (zstd : Zstd) (opening : Opening) (file : Bytes) :
    Except ReplayError LogStore → Prop
  | empty (noFrames : findFrames file = []) :
      OpenLog zstd opening file (.ok (opening.store file opening.fresh))
  | replayed (someFrames : findFrames file ≠ [])
      (replays : Replays zstd (readFile file)
        (replayPlan opening.numWorkers opening.positive (findFrames file)) s)
      (returned : s.returned = some none) :
      OpenLog zstd opening file
        (.ok (opening.store file (mergeAll opening.fresh s.merged)))
  | failed {failure : ReplayError} (someFrames : findFrames file ≠ [])
      (replays : Replays zstd (readFile file)
        (replayPlan opening.numWorkers opening.positive (findFrames file)) s)
      (returned : s.returned = some (some failure)) :
      OpenLog zstd opening file (.error failure)

theorem Replays.merged_perm {zstd : Zstd} {readAt : ReadAt} {plan : WorkPlan frames}
    {s : ReplayState}
    (loads : ∀ fr ∈ frames, ∃ r, loadFrame zstd readAt fr = .ok r)
    (replays : Replays zstd readAt plan s) (returned : s.returned = some none) :
    (s.merged.map Except.ok).Perm (frames.map (loadFrame zstd readAt)) := by
  rw [← plan.partitioned] at loads ⊢
  exact WorkerPool.merged_perm_of_returned_nil plan.bounded loads replays returned

theorem Replays.returned_ne_error {zstd : Zstd} {readAt : ReadAt}
    {plan : WorkPlan frames} {s : ReplayState}
    (loads : ∀ fr ∈ frames, ∃ r, loadFrame zstd readAt fr = .ok r)
    (replays : Replays zstd readAt plan s) (failure : ReplayError) :
    s.returned ≠ some (some failure) := by
  rw [← plan.partitioned] at loads
  exact WorkerPool.returned_ne_error loads replays failure

theorem exists_replays_nil (zstd : Zstd) (readAt : ReadAt) (plan : WorkPlan frames) :
    ∃ s, Replays zstd readAt plan s ∧ s.returned = some none :=
  WorkerPool.reaches_returned_nil (loadFrame zstd readAt)
    (WorkerPool.wired_start plan.bounded) rfl

/-- Replay is all or error exactly when no frame fails: the collector may take
the closed results channel while an error is waiting. -/
theorem replay_all_or_error_iff (zstd : Zstd) (readAt : ReadAt) (frames : List Frame)
    (plan : WorkPlan frames) :
    (∀ s, Replays zstd readAt plan s →
      (s.returned = some none →
        (s.merged.map Except.ok).Perm (frames.map (loadFrame zstd readAt))) ∧
      ((∃ fr ∈ frames, ∃ failure, loadFrame zstd readAt fr = .error failure) →
        ∀ result, s.returned = some result → ∃ failure, result = some failure)) ↔
      ∀ fr ∈ frames, ∃ r, loadFrame zstd readAt fr = .ok r := by
  constructor
  · intro allOrError fr member
    obtain ⟨s, replays, returned⟩ := exists_replays_nil zstd readAt plan
    cases outcome : loadFrame zstd readAt fr with
    | ok r => exact ⟨r, rfl⟩
    | error failure =>
        obtain ⟨_, reported⟩ := (allOrError s replays).2 ⟨fr, member, failure, outcome⟩
          none returned
        contradiction
  · intro loads s replays
    refine ⟨replays.merged_perm loads, ?_⟩
    rintro ⟨fr, member, failure, failed⟩
    obtain ⟨r, ok⟩ := loads fr member
    rw [failed] at ok
    contradiction

/-- A log of eight zero bytes holds one frame, which does not unmarshal; some
schedule opens it as an empty store without an error. -/
theorem replay_drops_failed_frame :
    let file : Bytes := List.replicate 8 0
    let fr : Frame := ⟨8, 0, 0⟩
    let plan : WorkPlan [fr] := ⟨1, [[fr]], rfl, le_rfl⟩
    findFrames file = [fr] ∧
      loadFrame Zstd.stored (readFile file) fr = .error (.unmarshal .tooShort) ∧
      ∃ s, Replays Zstd.stored (readFile file) plan s ∧ s.returned = some none ∧
        s.merged = [] := by
  intro file fr plan
  have failed : loadFrame Zstd.stored (readFile file) fr =
      .error (.unmarshal .tooShort) := by decide
  refine ⟨by decide, failed, ?_⟩
  let reported : ReplayState :=
    ⟨[.reported], [], [.unmarshal .tooShort], false, false, [], none⟩
  let finished : ReplayState := { reported with workers := [.done] }
  let closed : ReplayState := { finished with resultsClosed := true }
  have loading : (WorkerPool.start [[fr]] : ReplayState).workers =
      [] ++ .loading [fr] [] :: [] := rfl
  have sent : reported.workers = [] ++ .reported :: [] := rfl
  have fail : WorkerPool.Step 1 (loadFrame Zstd.stored (readFile file))
      (WorkerPool.start [[fr]]) reported := .fail loading failed (by decide)
  have finish : WorkerPool.Step 1 (loadFrame Zstd.stored (readFile file))
      reported finished := .finish sent
  have close : WorkerPool.Step 1 (loadFrame Zstd.stored (readFile file))
      finished closed := .closeResults (by simp [finished]) rfl
  have take : WorkerPool.Step 1 (loadFrame Zstd.stored (readFile file))
      closed { closed with returned := some none } := .takeClosedResult rfl rfl rfl
  exact ⟨_, (((Relation.ReflTransGen.single fail).tail finish).tail close).tail take,
    rfl, rfl⟩

end NellDB
