import NellDB.LogStore.Backing
import NellDB.Server.Handler

namespace NellDB

open Data

/-! A server whose store is a log.  A put that fails has changed the memory all
the same. -/

/-- A record that a handler puts, and what the file writes of the put do. -/
structure Delivery where
  record : Record
  faults : List (Option Nat)

structure LogServer where
  nodeID : GoString
  log : FileLog
  kv : KnowledgeVector

def newLogServer (log : FileLog) (nodeID : GoString) : LogServer where
  nodeID := nodeID
  log := log
  kv := log.memory.kv

/-- What a running server does to its store.  `reconcile` takes a page of missing
records from a peer. -/
inductive ServerAction where
  | push (deliveries : List Delivery)
  | binPush (deliveries : List Delivery)
  | message (deliveries : List Delivery)
  | reconcile (deliveries : List Delivery)
  | pull (since : HLC)
  | flushTick (faults : List (Option Nat))
  | compact (now threshold : Int64) (faults : CompactFaults)

namespace LogServer

/-- The server as one over the memory of the log. -/
def server (s : LogServer) : Server where
  nodeID := s.nodeID
  store := s.log.memory
  kv := s.kv

def recordSeen (s : LogServer) (r : Record) : LogServer :=
  { s with kv := s.kv.update r.updatedBy r.clock }

/-- The loop of `handlePush`, which the first store error ends. -/
def applyChanges (zstd : Zstd) (s : LogServer) :
    List Delivery → Except WriteError Nat × LogServer
  | [] => (.ok 0, s)
  | delivery :: rest =>
      match s.log.put zstd delivery.faults delivery.record with
      | (_, _, some failure, log) => (.error failure, { s with log })
      | (accepted, _, none, log) =>
          let (count, final) :=
            applyChanges zstd (recordSeen { s with log } delivery.record) rest
          (count.map fun count => if accepted then count + 1 else count, final)

def handlePush (zstd : Zstd) (s : LogServer) (deliveries : List Delivery) :
    Reply × LogServer :=
  match s.applyChanges zstd deliveries with
  | (.error _, final) => (.error 500 "internal error", final)
  | (.ok accepted, final) => (⟨200, .pushed accepted deliveries.length⟩, final)

/-- The loop of `handleBinPush`, which counts a store error as not accepted. -/
def applyBinChanges (zstd : Zstd) (s : LogServer) : List Delivery → Nat × LogServer
  | [] => (0, s)
  | delivery :: rest =>
      let (accepted, _, failure, log) := s.log.put zstd delivery.faults delivery.record
      let (count, final) :=
        applyBinChanges zstd (recordSeen { s with log } delivery.record) rest
      (if failure.isNone && accepted then count + 1 else count, final)

def handleBinPush (zstd : Zstd) (s : LogServer) (deliveries : List Delivery) :
    Reply × LogServer :=
  let (accepted, final) := s.applyBinChanges zstd deliveries
  (⟨200, .frames (bigEndian 4 accepted)⟩, final)

/-- The loop over a WebSocket message, which skips a record with a store error. -/
def handleMessage (zstd : Zstd) (s : LogServer) : List Delivery → LogServer
  | [] => s
  | delivery :: rest =>
      match s.log.put zstd delivery.faults delivery.record with
      | (_, _, some _, log) => handleMessage zstd { s with log } rest
      | (_, _, none, log) => handleMessage zstd (recordSeen { s with log } delivery.record) rest

/-- A page of `reconcileOneInner`, which the first store error ends. -/
def reconcilePage (zstd : Zstd) (s : LogServer) : List Delivery → LogServer
  | [] => s
  | delivery :: rest =>
      match s.log.put zstd delivery.faults delivery.record with
      | (_, _, some _, log) => { s with log }
      | (_, _, none, log) =>
          reconcilePage zstd (recordSeen { s with log } delivery.record) rest

inductive Step (zstd : Zstd) (s : LogServer) : ServerAction → LogServer → Prop
  | push (deliveries : List Delivery) :
      Step zstd s (.push deliveries) (s.handlePush zstd deliveries).2
  | binPush (deliveries : List Delivery) :
      Step zstd s (.binPush deliveries) (s.handleBinPush zstd deliveries).2
  | message (deliveries : List Delivery) :
      Step zstd s (.message deliveries) (s.handleMessage zstd deliveries)
  | reconcile (deliveries : List Delivery) :
      Step zstd s (.reconcile deliveries) (s.reconcilePage zstd deliveries)
  | pull (since : HLC) :
      Step zstd s (.pull since) { s with log := (s.log.getChangesSince since).2 }
  | flushTick (faults : List (Option Nat)) :
      Step zstd s (.flushTick faults) { s with log := s.log.flushTick faults }
  | compact (now threshold : Int64) (faults : CompactFaults)
      (orders : CompactOrders (s.log.memory.keep (now - milliseconds threshold))) :
      Step zstd s (.compact now threshold faults)
        { s with log := (s.log.compact zstd now threshold orders faults).2 }

end LogServer

namespace ServerAction

/-- The delivered records fit their frames. -/
def Fits (zstd : Zstd) : ServerAction → Prop
  | .push deliveries | .binPush deliveries | .message deliveries | .reconcile deliveries =>
      ∀ delivery ∈ deliveries, FitsFrame zstd delivery.record.defaulted
  | _ => True

def Spares (key : GoString) (s : LogServer) : ServerAction → Prop
  | .compact now threshold faults =>
      LogAction.Spares key s.log (.compact now threshold faults)
  | _ => True

/-- What the action does to the log is allowed. -/
def Permitted (allowed : FileLog → LogAction → Prop) (s : LogServer) : ServerAction → Prop
  | .push deliveries | .binPush deliveries | .message deliveries | .reconcile deliveries =>
      ∀ delivery ∈ deliveries, ∀ log, allowed log (.write (.put delivery.record) delivery.faults)
  | .pull since => allowed s.log (.changesSince since)
  | .flushTick faults => allowed s.log (.flushTick faults)
  | .compact now threshold faults => allowed s.log (.compact now threshold faults)

theorem Fits.permitted {zstd : Zstd} {action : ServerAction} (fits : action.Fits zstd)
    (s : LogServer) : action.Permitted (fun _ action => action.Serves (FitsFrame zstd)) s := by
  cases action with
  | push deliveries => exact fun delivery member log => fits delivery member
  | binPush deliveries => exact fun delivery member log => fits delivery member
  | message deliveries => exact fun delivery member log => fits delivery member
  | reconcile deliveries => exact fun delivery member log => fits delivery member
  | pull since => exact trivial
  | flushTick faults => exact trivial
  | compact now threshold faults => exact trivial

theorem permitted_any (action : ServerAction) (s : LogServer) :
    action.Permitted (fun _ action => action.Serves fun _ => True) s := by
  cases action with
  | push deliveries => exact fun delivery member log => trivial
  | binPush deliveries => exact fun delivery member log => trivial
  | message deliveries => exact fun delivery member log => trivial
  | reconcile deliveries => exact fun delivery member log => trivial
  | pull since => exact trivial
  | flushTick faults => exact trivial
  | compact now threshold faults => exact trivial

theorem Spares.permitted {zstd : Zstd} {key : GoString} {s : LogServer}
    {action : ServerAction} (spares : action.Spares key s) (fits : action.Fits zstd) :
    action.Permitted
      (fun log action => action.Serves (FitsFrame zstd) ∧ action.Spares key log) s := by
  cases action with
  | push deliveries => exact fun delivery member log => ⟨fits delivery member, trivial⟩
  | binPush deliveries => exact fun delivery member log => ⟨fits delivery member, trivial⟩
  | message deliveries => exact fun delivery member log => ⟨fits delivery member, trivial⟩
  | reconcile deliveries => exact fun delivery member log => ⟨fits delivery member, trivial⟩
  | pull since => exact ⟨trivial, trivial⟩
  | flushTick faults => exact ⟨trivial, trivial⟩
  | compact now threshold faults => exact ⟨trivial, spares⟩

end ServerAction

namespace LogServer

variable {zstd : Zstd} {s next : LogServer}

/-! Every action is a run of the log. -/

section LogRun

variable {allowed : FileLog → LogAction → Prop} {deliveries : List Delivery}

theorem logRun_applyChanges (s : LogServer)
    (permitted : ∀ delivery ∈ deliveries, ∀ log,
      allowed log (.write (.put delivery.record) delivery.faults)) :
    Run (FileLog.Step zstd) allowed s.log (s.applyChanges zstd deliveries).2.log := by
  induction deliveries generalizing s with
  | nil => exact .start
  | cons delivery rest ih =>
      have first := permitted delivery List.mem_cons_self s.log
      have taken : FileLog.Step zstd s.log (.write (.put delivery.record) delivery.faults)
          (s.log.put zstd delivery.faults delivery.record).2.2.2 := .write _ _
      unfold applyChanges
      split
      next result =>
          rw [result] at taken
          exact .step .start first taken
      next log result =>
          rw [result] at taken
          refine Run.head first taken (ih (recordSeen { s with log } delivery.record) ?_)
          exact fun other member => permitted other (List.mem_cons_of_mem _ member)

theorem logRun_applyBinChanges (s : LogServer)
    (permitted : ∀ delivery ∈ deliveries, ∀ log,
      allowed log (.write (.put delivery.record) delivery.faults)) :
    Run (FileLog.Step zstd) allowed s.log (s.applyBinChanges zstd deliveries).2.log := by
  induction deliveries generalizing s with
  | nil => exact .start
  | cons delivery rest ih =>
      let log := (s.log.put zstd delivery.faults delivery.record).2.2.2
      refine Run.head (permitted delivery List.mem_cons_self s.log)
        (.write (.put delivery.record) delivery.faults)
        (ih (recordSeen { s with log } delivery.record) ?_)
      exact fun other member => permitted other (List.mem_cons_of_mem _ member)

theorem logRun_handleMessage (s : LogServer)
    (permitted : ∀ delivery ∈ deliveries, ∀ log,
      allowed log (.write (.put delivery.record) delivery.faults)) :
    Run (FileLog.Step zstd) allowed s.log (s.handleMessage zstd deliveries).log := by
  induction deliveries generalizing s with
  | nil => exact .start
  | cons delivery rest ih =>
      have first := permitted delivery List.mem_cons_self s.log
      have taken : FileLog.Step zstd s.log (.write (.put delivery.record) delivery.faults)
          (s.log.put zstd delivery.faults delivery.record).2.2.2 := .write _ _
      have onward := fun other (member : other ∈ rest) =>
        permitted other (List.mem_cons_of_mem delivery member)
      unfold handleMessage
      split
      next log result =>
          rw [result] at taken
          exact Run.head first taken (ih { s with log } onward)
      next log result =>
          rw [result] at taken
          exact Run.head first taken (ih (recordSeen { s with log } delivery.record) onward)

theorem reconcilePage_eq (zstd : Zstd) (s : LogServer) (deliveries : List Delivery) :
    s.reconcilePage zstd deliveries = (s.applyChanges zstd deliveries).2 := by
  induction deliveries generalizing s with
  | nil => rfl
  | cons delivery rest ih =>
      unfold reconcilePage applyChanges
      split
      next => rfl
      next => exact ih _

theorem handlePush_server_eq (zstd : Zstd) (s : LogServer) (deliveries : List Delivery) :
    (s.handlePush zstd deliveries).2 = (s.applyChanges zstd deliveries).2 := by
  unfold handlePush
  split
  next result => rw [result]
  next result => rw [result]

theorem Step.logRun {action : ServerAction} (step : Step zstd s action next)
    (permitted : action.Permitted allowed s) :
    Run (FileLog.Step zstd) allowed s.log next.log := by
  cases step with
  | push deliveries =>
      rw [handlePush_server_eq]
      exact s.logRun_applyChanges permitted
  | binPush deliveries => exact s.logRun_applyBinChanges permitted
  | message deliveries => exact s.logRun_handleMessage permitted
  | reconcile deliveries =>
      rw [reconcilePage_eq]
      exact s.logRun_applyChanges permitted
  | pull since => exact .step .start permitted (.changesSince since)
  | flushTick faults => exact .step .start permitted (.flushTick faults)
  | compact now threshold faults orders =>
      exact .step .start permitted (.compact now threshold faults orders)

theorem logRun {restricted : LogServer → ServerAction → Prop}
    (permitted : ∀ {s action}, restricted s action → action.Permitted allowed s)
    (run : Run (Step zstd) restricted s next) :
    Run (FileLog.Step zstd) allowed s.log next.log := by
  induction run with
  | start => exact .start
  | step _ restricts taken ih => exact ih.trans (taken.logRun (permitted restricts))

end LogRun

/-! What a push does to the memory and the vector. -/

theorem server_applyChanges {deliveries : List Delivery} {count : Nat}
    (done : s.applyChanges zstd deliveries = (.ok count, next)) :
    next.server = s.server.ingestAll (deliveries.map Delivery.record) := by
  induction deliveries generalizing s count with
  | nil =>
      cases done
      rfl
  | cons delivery rest ih =>
      have memory := s.log.put_memory zstd delivery.faults delivery.record
      unfold applyChanges at done
      split at done
      next => simp at done
      next log result =>
          rw [result] at memory
          have first : server (recordSeen { s with log } delivery.record) =
              s.server.ingest delivery.record :=
            congrArg (Server.mk s.nodeID · _) memory
          cases onward : applyChanges zstd (recordSeen { s with log } delivery.record) rest with
          | mk answer final =>
              rw [onward] at done
              cases answer with
              | error failure => cases done
              | ok accepted =>
                  cases done
                  rw [ih onward, first]
                  rfl

/-- A store error leaves no trace in the memory that a binary push leaves. -/
theorem server_applyBinChanges (zstd : Zstd) (s : LogServer) (deliveries : List Delivery) :
    (s.applyBinChanges zstd deliveries).2.server =
      s.server.ingestAll (deliveries.map Delivery.record) := by
  induction deliveries generalizing s with
  | nil => rfl
  | cons delivery rest ih =>
      let log := (s.log.put zstd delivery.faults delivery.record).2.2.2
      have first : server (recordSeen { s with log } delivery.record) =
          s.server.ingest delivery.record :=
        congrArg (Server.mk s.nodeID · _)
          (s.log.put_memory zstd delivery.faults delivery.record)
      have onward := ih (recordSeen { s with log } delivery.record)
      rw [first] at onward
      exact onward

/-! What an acknowledgement says about the file. -/

section Preserved

variable {written : List Record} {deliveries : List Delivery}

theorem preserved_applyChanges (backed : Backed zstd s.log written)
    (fits : ∀ delivery ∈ deliveries, FitsFrame zstd delivery.record.defaulted) {count : Nat}
    (done : s.applyChanges zstd deliveries = (.ok count, next)) {delivery : Delivery}
    (member : delivery ∈ deliveries) : Preserved zstd delivery.record.defaulted next.log := by
  induction deliveries generalizing s written count with
  | nil => cases member
  | cons head rest ih =>
      have headFits := fits head List.mem_cons_self
      have restFits := fun other (later : other ∈ rest) =>
        fits other (List.mem_cons_of_mem head later)
      have preserved := backed.preserved_put headFits head.faults
      obtain ⟨later, _, stays, _⟩ := backed.put headFits head.faults
      unfold applyChanges at done
      split at done
      next => simp at done
      next log result =>
          rw [result] at preserved stays
          cases onward : applyChanges zstd (recordSeen { s with log } head.record) rest with
          | mk answer final =>
              rw [onward] at done
              cases answer with
              | error failure => cases done
              | ok accepted =>
                  cases done
                  rcases List.mem_cons.mp member with rfl | inRest
                  · -- the puts behind it keep what the file has
                    apply (preserved rfl).run
                    have run := @logRun_applyChanges zstd (fun log action =>
                        action.Serves (FitsFrame zstd) ∧
                          action.Spares delivery.record.defaulted.key log) rest
                      (recordSeen { s with log } delivery.record)
                      fun other later log => ⟨restFits other later, trivial⟩
                    rw [onward] at run
                    exact run
                  · exact ih stays restFits onward inRest

theorem applyBinChanges_le (zstd : Zstd) (s : LogServer) (deliveries : List Delivery) :
    (s.applyBinChanges zstd deliveries).1 ≤ deliveries.length := by
  induction deliveries generalizing s with
  | nil => exact Nat.le_refl 0
  | cons delivery rest ih =>
      have onward := ih (recordSeen { s with
        log := (s.log.put zstd delivery.faults delivery.record).2.2.2 } delivery.record)
      unfold applyBinChanges
      dsimp only
      split
      next => exact Nat.succ_le_succ onward
      next => exact Nat.le_succ_of_le onward

theorem preserved_applyBinChanges (backed : Backed zstd s.log written)
    (fits : ∀ delivery ∈ deliveries, FitsFrame zstd delivery.record.defaulted)
    (counted : (s.applyBinChanges zstd deliveries).1 = deliveries.length)
    {delivery : Delivery} (member : delivery ∈ deliveries) :
    Preserved zstd delivery.record.defaulted (s.applyBinChanges zstd deliveries).2.log := by
  induction deliveries generalizing s written with
  | nil => cases member
  | cons head rest ih =>
      let log := (s.log.put zstd head.faults head.record).2.2.2
      let after := recordSeen { s with log } head.record
      have headFits := fits head List.mem_cons_self
      have restFits := fun other (later : other ∈ rest) =>
        fits other (List.mem_cons_of_mem head later)
      obtain ⟨later, _, stays, _⟩ := backed.put headFits head.faults
      have bound := after.applyBinChanges_le zstd rest
      unfold applyBinChanges at counted
      dsimp only at counted
      split at counted
      next stored =>
          have done : (s.log.put zstd head.faults head.record).2.2.1 = none :=
            Option.isNone_iff_eq_none.mp (Bool.and_eq_true_iff.mp stored).1
          rcases List.mem_cons.mp member with rfl | inRest
          · exact (backed.preserved_put headFits delivery.faults done).run
              (after.logRun_applyBinChanges fun other later log =>
                ⟨restFits other later, trivial⟩)
          · exact @ih after later stays restFits (Nat.succ.inj counted) inRest
      next =>
          rw [List.length_cons] at counted
          exact absurd (counted.symm.trans_le bound) (by omega)

end Preserved

/-- The push of the deliveries was acknowledged: a JSON push by the status, a
binary push by a count of all of its records. -/
inductive Acknowledged (zstd : Zstd) (s : LogServer) (deliveries : List Delivery) :
    LogServer → Prop
  | json (answered : (s.handlePush zstd deliveries).1.status = 200) :
      Acknowledged zstd s deliveries (s.handlePush zstd deliveries).2
  | binary (few : deliveries.length < 2 ^ 32)
      (answered : (s.handleBinPush zstd deliveries).1 =
        ⟨200, .frames (bigEndian 4 deliveries.length)⟩) :
      Acknowledged zstd s deliveries (s.handleBinPush zstd deliveries).2

theorem applyChanges_of_answered {deliveries : List Delivery}
    (answered : (s.handlePush zstd deliveries).1.status = 200) :
    ∃ count, s.applyChanges zstd deliveries = (.ok count, (s.handlePush zstd deliveries).2) := by
  unfold handlePush at answered ⊢
  split at answered
  next => cases answered
  next count final result => exact ⟨count, result⟩

theorem counted_of_answered {deliveries : List Delivery} (few : deliveries.length < 2 ^ 32)
    (answered : (s.handleBinPush zstd deliveries).1 =
      ⟨200, .frames (bigEndian 4 deliveries.length)⟩) :
    (s.applyBinChanges zstd deliveries).1 = deliveries.length := by
  have bound := s.applyBinChanges_le zstd deliveries
  have bytes : bigEndian 4 (s.applyBinChanges zstd deliveries).1 =
      bigEndian 4 deliveries.length :=
    Content.frames.inj (congrArg Reply.content answered)
  have values := congrArg fieldValue bytes
  rw [fieldValue_bigEndian (bound.trans_lt few), fieldValue_bigEndian few] at values
  exact values

theorem Acknowledged.preserved {written : List Record} {deliveries : List Delivery}
    (acknowledged : Acknowledged zstd s deliveries next) (backed : Backed zstd s.log written)
    (fits : ∀ delivery ∈ deliveries, FitsFrame zstd delivery.record.defaulted)
    {delivery : Delivery} (member : delivery ∈ deliveries) :
    Preserved zstd delivery.record.defaulted next.log := by
  cases acknowledged with
  | json answered =>
      obtain ⟨count, done⟩ := applyChanges_of_answered answered
      exact preserved_applyChanges backed fits done member
  | binary few answered =>
      exact preserved_applyBinChanges backed fits (counted_of_answered few answered) member

theorem Acknowledged.server {deliveries : List Delivery}
    (acknowledged : Acknowledged zstd s deliveries next) :
    next.server = s.server.ingestAll (deliveries.map Delivery.record) := by
  cases acknowledged with
  | json answered =>
      obtain ⟨count, done⟩ := applyChanges_of_answered answered
      exact server_applyChanges done
  | binary few answered => exact s.server_applyBinChanges zstd deliveries

end LogServer

namespace LogServer

variable {zstd : Zstd} {s next : LogServer} {file : Bytes} {r : Record}

theorem stuck_of_run (stuck : Stuck file r s.log)
    (run : Run (Step zstd) (fun _ _ => True) s next) : Stuck file r next.log :=
  Run.keeps (fun holds serves taken => holds.step serves taken)
    (logRun (fun _ => ServerAction.permitted_any _ _) run) stuck

/-- The record whose put failed is in the memory. -/
theorem stuck_of_refused {deliveries : List Delivery} {failure : WriteError}
    (refused : s.applyChanges zstd deliveries = (.error failure, next)) :
    ∃ delivery ∈ deliveries, Stuck next.log.writer.file delivery.record.defaulted next.log := by
  induction deliveries generalizing s with
  | nil => cases refused
  | cons delivery rest ih =>
      have memory := s.log.put_memory zstd delivery.faults delivery.record
      unfold applyChanges at refused
      split at refused
      next result =>
          rw [result] at memory
          cases refused
          have failed := FileLog.failed_of_append (congrArg (fun answer => answer.2.2) result)
          refine ⟨delivery, List.mem_cons_self, failed, rfl, ?_⟩
          rw [show FileLog.memory _ = _ from memory]
          exact s.log.memory.covers_afterPut delivery.record
      next log result =>
          cases onward : applyChanges zstd (recordSeen { s with log } delivery.record) rest with
          | mk answer final =>
              rw [onward] at refused
              cases answer with
              | error failure =>
                  cases refused
                  obtain ⟨other, member, stuck⟩ := ih onward
                  exact ⟨other, List.mem_cons_of_mem _ member, stuck⟩
              | ok accepted => cases refused

theorem handlePush_of_failed (failed : s.log.writer.failed = true)
    {deliveries : List Delivery} (some : deliveries ≠ []) :
    (s.handlePush zstd deliveries).1 = .error 500 "internal error" := by
  cases deliveries with
  | nil => exact absurd rfl some
  | cons delivery rest =>
      have result := @FileLog.append_of_failed
        { s.log with memory := (s.log.memory.put delivery.record).2.2 } zstd failed
        delivery.faults (s.log.memory.put delivery.record).2.1
      unfold handlePush applyChanges FileLog.put
      dsimp only
      rw [result]

theorem applyBinChanges_of_failed (failed : s.log.writer.failed = true)
    (deliveries : List Delivery) : (s.applyBinChanges zstd deliveries).1 = 0 := by
  induction deliveries generalizing s with
  | nil => rfl
  | cons delivery rest ih =>
      have result := @FileLog.append_of_failed
        { s.log with memory := (s.log.memory.put delivery.record).2.2 } zstd failed
        delivery.faults (s.log.memory.put delivery.record).2.1
      unfold applyBinChanges FileLog.put
      dsimp only
      rw [result]
      exact ih failed

end LogServer

end NellDB
