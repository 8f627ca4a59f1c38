import NellDB.Store.IndexedDB

namespace NellDB

open Data

/-! Calls on one object store that overlap.  A put reads in one transaction and
writes in another one; the calls of other goroutines and of other tabs may come
in between. -/

/-- What a call waits for: a transaction (`deleting`, `reading`, `writing`), or to
go on with what a read has found (`burying`, `merging`).  A delete reads the
record that it then puts as a tombstone. -/
inductive CallPhase where
  | idle
  | deleting (collection id : GoString)
  | burying (collection id : GoString) (found : Option Record)
  | reading (incoming : Record)
  | merging (incoming : Record) (found : Option Record)
  | writing (incoming : Record) (found : Option Record)
  | failed (failure : IndexedDBError)
  | returned (incoming : Record) (accepted : Bool) (winner : Record)
  deriving DecidableEq

namespace CallPhase

/-- The record of a put under way, or of one that has returned. -/
def record : CallPhase → Option Record
  | .reading incoming | .merging incoming _ | .writing incoming _ | .returned incoming _ _ =>
      some incoming
  | .idle | .deleting _ _ | .burying _ _ _ | .failed _ => none

/-- A put between its read and its write, and the object that it has read. -/
def pending : CallPhase → Option (Record × Option Record)
  | .merging incoming found | .writing incoming found => some (incoming, found)
  | .idle | .deleting _ _ | .burying _ _ _ | .reading _ | .failed _ | .returned _ _ _ => none

/-- The record of a put that has returned. -/
def result : CallPhase → Option Record
  | .returned incoming _ _ => some incoming
  | .idle | .deleting _ _ | .burying _ _ _ | .reading _ | .merging _ _ | .writing _ _
  | .failed _ => none

/-- How a put ends. -/
def ended (incoming : Record) : Except IndexedDBError (Bool × Record) → CallPhase
  | .ok (accepted, winner) => .returned incoming accepted winner
  | .error failure => .failed failure

end CallPhase

/-- The pages `π` of one profile and the calls `ι` of their goroutines.  A clock
belongs to a page; the node id and the objects belong to the profile. -/
structure Tabs (π ι : Type) where
  nodeID : GoString
  objects : RecordMap
  clock : π → HLC
  call : ι → CallPhase

inductive TabAction (ι : Type) where
  | put (i : ι) (incoming : Record)
  | delete (i : ι) (collection id : GoString)
  | transact (i : ι) (fails : Bool)
  | resume (i : ι) (now : Int64)

namespace Tabs

variable {π ι : Type}

def start (nodeID : GoString) (clock : π → HLC) : Tabs π ι where
  nodeID := nodeID
  objects := ∅
  clock := clock
  call _ := .idle

/-- The store of a page, as its calls see it one after another. -/
def store (s : Tabs π ι) (p : π) : IndexedDBStore where
  nodeID := s.nodeID
  objects := s.objects
  clock := s.clock p

def setClock [DecidableEq π] (s : Tabs π ι) (p : π) (clock : HLC) : Tabs π ι :=
  { s with clock := Function.update s.clock p clock }

variable [DecidableEq ι]

def setCall (s : Tabs π ι) (i : ι) (phase : CallPhase) : Tabs π ι :=
  { s with call := Function.update s.call i phase }

/-- The transaction that a call waits for. -/
def transact (s : Tabs π ι) (i : ι) (fails : Bool) : Tabs π ι :=
  match s.call i with
  | .deleting collection id =>
      if fails then
        s.setCall i (.failed .getError)
      else
        s.setCall i (.burying collection id (s.objects.lookup (flatKey collection id)))
  | .reading incoming =>
      if fails then
        s.setCall i (.failed .getError)
      else
        s.setCall i (.merging incoming (s.objects.lookup incoming.key))
  | .writing incoming found =>
      if fails then
        s.setCall i (.failed .putError)
      else
        let winner := putWinner incoming found
        setCall { s with objects := s.objects.insert winner.key winner } i
          (.returned incoming (putAccepts incoming found) winner)
  | .idle | .burying _ _ _ | .merging _ _ | .failed _ | .returned _ _ _ => s

variable [DecidableEq π] (page : ι → π)

/-- What a goroutine does between two transactions. -/
def resume (s : Tabs π ι) (i : ι) (now : Int64) : Tabs π ι :=
  match s.call i with
  | .burying collection id found =>
      let r := found.getD { Record.zero with collection, id }
      let clock := (s.clock (page i)).tick now
      let tombstone := { r with deleted := true, updatedBy := s.nodeID, clock }
      (s.setClock (page i) clock).setCall i (.reading tombstone.defaulted)
  | .merging incoming found =>
      (s.setClock (page i) ((s.clock (page i)).update incoming.clock)).setCall i
        (.writing incoming found)
  | .idle | .deleting _ _ | .reading _ | .writing _ _ | .failed _ | .returned _ _ _ => s

inductive Step : Tabs π ι → TabAction ι → Tabs π ι → Prop
  | put {s : Tabs π ι} {i : ι} (idle : s.call i = .idle) (incoming : Record) :
      Step s (.put i incoming) (s.setCall i (.reading incoming.defaulted))
  | delete {s : Tabs π ι} {i : ι} (idle : s.call i = .idle) (collection id : GoString) :
      Step s (.delete i collection id) (s.setCall i (.deleting (orDefault collection) id))
  | transact {s : Tabs π ι} (i : ι) (fails : Bool) :
      Step s (.transact i fails) (s.transact i fails)
  | resume {s : Tabs π ι} (i : ι) (now : Int64) :
      Step s (.resume i now) (s.resume page i now)

end Tabs

namespace Tabs

variable {π ι : Type} [DecidableEq ι]

/-! What a step can do: it sets the phase of one call, and only a write touches
the objects. -/

inductive Effect (s : Tabs π ι) (i : ι) : Tabs π ι → Prop
  | none : Effect s i s
  /-- The call has failed, or it has no record yet. -/
  | plain (clock : π → HLC) (phase : CallPhase) (bare : phase.record = .none)
      (running : (s.call i).result = .none) : Effect s i (setCall { s with clock } i phase)
  | opened (clock : π → HLC) (incoming : Record) (running : (s.call i).result = .none) :
      Effect s i (setCall { s with clock } i (.reading incoming.defaulted))
  | read (incoming : Record) (waits : s.call i = .reading incoming) :
      Effect s i (s.setCall i (.merging incoming (s.objects.lookup incoming.key)))
  | merged (clock : π → HLC) (incoming : Record) (found : Option Record)
      (waits : s.call i = .merging incoming found) :
      Effect s i (setCall { s with clock } i (.writing incoming found))
  | wrote (incoming : Record) (found : Option Record)
      (waits : s.call i = .writing incoming found) :
      Effect s i (setCall { s with
        objects := s.objects.insert (putWinner incoming found).key (putWinner incoming found) }
        i (.returned incoming (putAccepts incoming found) (putWinner incoming found)))

theorem effect_transact (s : Tabs π ι) (i : ι) (fails : Bool) :
    Effect s i (s.transact i fails) := by
  have running {phase : CallPhase} (waits : s.call i = phase) (unfinished : phase.result = .none) :
      (s.call i).result = .none := by
    rw [waits, unfinished]
  unfold transact
  split
  next collection id waits =>
      split
      next => exact .plain s.clock _ rfl (running waits rfl)
      next => exact .plain s.clock _ rfl (running waits rfl)
  next incoming waits =>
      split
      next => exact .plain s.clock _ rfl (running waits rfl)
      next => exact .read incoming waits
  next incoming found waits =>
      split
      next => exact .plain s.clock _ rfl (running waits rfl)
      next => exact .wrote incoming found waits
  all_goals exact .none

theorem effect_resume [DecidableEq π] (page : ι → π) (s : Tabs π ι) (i : ι) (now : Int64) :
    Effect s i (s.resume page i now) := by
  unfold resume
  split
  next collection id found waits =>
      have running : (s.call i).result = .none := by
        rw [waits]
        rfl
      exact .opened _ _ running
  next incoming found waits => exact .merged _ incoming found waits
  all_goals exact .none

end Tabs

/-- The call that an action is of. -/
def TabAction.call {ι : Type} : TabAction ι → ι
  | .put i _ | .delete i _ _ | .transact i _ | .resume i _ => i

/-- A call reads an object while no other one is between its read and its write
at the same key. -/
def TabAction.Exclusive {π ι : Type} (s : Tabs π ι) (action : TabAction ι) : Prop :=
  ∀ incoming, s.call action.call = .reading incoming →
    ∀ j other, (s.call j).pending = some other → incoming.key ≠ other.1.key

namespace Tabs

variable {π ι : Type} [DecidableEq ι] {s next : Tabs π ι} {i : ι}

/-! Every put runs with its collection filled in. -/

def Named (s : Tabs π ι) : Prop :=
  ∀ j r, (s.call j).record = some r → r.defaulted = r

theorem Named.moved (named : s.Named) {clock : π → HLC} {objects : RecordMap}
    {phase : CallPhase} (fine : ∀ r, phase.record = some r → r.defaulted = r) :
    Named (setCall { s with clock, objects } i phase) := by
  intro j r ofCall
  change (Function.update s.call i phase j).record = some r at ofCall
  by_cases same : j = i
  · rw [same, Function.update_self] at ofCall
    exact fine r ofCall
  · rw [Function.update_of_ne same] at ofCall
    exact named j r ofCall

theorem Named.effect (named : s.Named) (effect : Effect s i next) : next.Named := by
  have ofWaiting {phase : CallPhase} {incoming : Record} (waits : s.call i = phase)
      (carries : phase.record = some incoming) : incoming.defaulted = incoming :=
    named i incoming (waits ▸ carries)
  cases effect with
  | none => exact named
  | plain clock phase bare _ => exact named.moved fun r ofPhase => by simp [bare] at ofPhase
  | opened clock incoming _ =>
      refine named.moved fun r ofPhase => ?_
      cases ofPhase
      exact Record.defaulted_defaulted incoming
  | read incoming waits =>
      refine named.moved fun r ofPhase => ?_
      cases ofPhase
      exact ofWaiting waits rfl
  | merged clock incoming found waits =>
      refine named.moved fun r ofPhase => ?_
      cases ofPhase
      exact ofWaiting waits rfl
  | wrote incoming found waits =>
      refine named.moved fun r ofPhase => ?_
      cases ofPhase
      exact ofWaiting waits rfl

/-! Calls that exclude each other at a key. -/

/-- The objects are those of a store that puts the records of the calls that have
returned, one after another. -/
def Serialised (s : Tabs π ι) (written : List Record) : Prop :=
  s.objects = ((newMemoryStore s.nodeID 0).putAll written).records ∧
    ∀ r, r ∈ written ↔ ∃ j, (s.call j).result = some r

omit [DecidableEq ι] in
theorem Serialised.covers {written : List Record} (serialised : s.Serialised written)
    (named : s.Named) {r : Record} {accepted : Bool} {winner : Record}
    (returned : s.call i = .returned r accepted winner) :
    Champion.Covers Record.key Record.stamp s.objects r := by
  have result : (s.call i).result = some r := by
    rw [returned]
    rfl
  have filled : r.defaulted = r := named i r (by rw [returned]; rfl)
  have covers := MemoryStore.covers_putAll (newMemoryStore s.nodeID 0)
    ((serialised.2 r).mpr ⟨i, result⟩)
  rw [filled, MemoryStore.Covers, ← serialised.1] at covers
  exact covers

/-- Besides, no put under way has missed a write at its key. -/
structure Serial (s : Tabs π ι) (written : List Record) : Prop where
  serialised : s.Serialised written
  undisturbed : ∀ j put, (s.call j).pending = some put → s.objects.lookup put.1.key = put.2
  alone : ∀ j k first second, j ≠ k → (s.call j).pending = some first →
    (s.call k).pending = some second → first.1.key ≠ second.1.key

theorem Serialised.moved {written onward : List Record} (serialised : s.Serialised written)
    {clock : π → HLC} {objects : RecordMap} {phase : CallPhase}
    (stored : objects = ((newMemoryStore s.nodeID 0).putAll onward).records)
    (running : (s.call i).result = none)
    (members : ∀ r, r ∈ onward ↔ r ∈ written ∨ phase.result = some r) :
    Serialised (setCall { s with clock, objects } i phase) onward := by
  refine ⟨stored, fun r => ?_⟩
  rw [members, serialised.2]
  constructor
  · rintro (⟨j, returned⟩ | isNew)
    · have other : j ≠ i := by
        rintro rfl
        simp [running] at returned
      exact ⟨j, by rw [← returned]; exact congrArg _ (Function.update_of_ne other ..)⟩
    · exact ⟨i, by rw [← isNew]; exact congrArg _ (Function.update_self ..)⟩
  · rintro ⟨j, returned⟩
    change (Function.update s.call i phase j).result = some r at returned
    by_cases same : j = i
    · rw [same, Function.update_self] at returned
      exact .inr returned
    · rw [Function.update_of_ne same] at returned
      exact .inl ⟨j, returned⟩

theorem Serial.moved {written onward : List Record} (serial : s.Serial written)
    {clock : π → HLC} {objects : RecordMap} {phase : CallPhase}
    (serialised : Serialised (setCall { s with clock, objects } i phase) onward)
    (apart : ∀ j put, j ≠ i → (s.call j).pending = some put →
      objects.lookup put.1.key = s.objects.lookup put.1.key)
    (undisturbed : ∀ put, phase.pending = some put → objects.lookup put.1.key = put.2)
    (alone : ∀ put, phase.pending = some put →
      ∀ j other, j ≠ i → (s.call j).pending = some other → put.1.key ≠ other.1.key) :
    Serial (setCall { s with clock, objects } i phase) onward where
  serialised := serialised
  undisturbed := by
    intro j put ofCall
    change (Function.update s.call i phase j).pending = some put at ofCall
    by_cases same : j = i
    · rw [same, Function.update_self] at ofCall
      exact undisturbed put ofCall
    · rw [Function.update_of_ne same] at ofCall
      exact (apart j put same ofCall).trans (serial.undisturbed j put ofCall)
  alone := by
    intro j k first second distinct ofFirst ofSecond
    change (Function.update s.call i phase j).pending = some first at ofFirst
    change (Function.update s.call i phase k).pending = some second at ofSecond
    by_cases isFirst : j = i
    · rw [isFirst, Function.update_self] at ofFirst
      rw [isFirst] at distinct
      rw [Function.update_of_ne distinct.symm] at ofSecond
      exact alone first ofFirst k second distinct.symm ofSecond
    · rw [Function.update_of_ne isFirst] at ofFirst
      by_cases isSecond : k = i
      · rw [isSecond, Function.update_self] at ofSecond
        exact (alone second ofSecond j first isFirst ofFirst).symm
      · rw [Function.update_of_ne isSecond] at ofSecond
        exact serial.alone j k first second distinct ofFirst ofSecond

/-- A step that leaves the objects alone, of a call that goes on or fails. -/
theorem Serial.waited {written : List Record} (serial : s.Serial written) {clock : π → HLC}
    {phase : CallPhase} (running : (s.call i).result = none) (unfinished : phase.result = none)
    (undisturbed : ∀ put, phase.pending = some put → s.objects.lookup put.1.key = put.2)
    (alone : ∀ put, phase.pending = some put →
      ∀ j other, j ≠ i → (s.call j).pending = some other → put.1.key ≠ other.1.key) :
    Serial (setCall { s with clock } i phase) written := by
  refine serial.moved ?_ (fun _ _ _ _ => rfl) undisturbed alone
  refine serial.serialised.moved serial.serialised.1 running fun r => ?_
  simp [unfinished]

theorem Serial.wrote {written : List Record} (serial : s.Serial written) {incoming : Record}
    {found : Option Record} (named : incoming.defaulted = incoming)
    (waits : s.call i = .writing incoming found) :
    Serial (setCall { s with
      objects := s.objects.insert (putWinner incoming found).key (putWinner incoming found) }
      i (.returned incoming (putAccepts incoming found) (putWinner incoming found)))
      (written ++ [incoming]) := by
  have mine : (s.call i).pending = some (incoming, found) := by
    rw [waits]
    rfl
  have unchanged : s.objects.lookup incoming.key = found := serial.undisturbed i _ mine
  have keyed : Champion.WellKeyed Record.key s.objects := by
    rw [serial.serialised.1, MemoryStore.putAll_records]
    exact Champion.wellKeyed_empty.enterAll _
  have entered : s.objects.insert (putWinner incoming found).key (putWinner incoming found) =
      Champion.enter Record.key Record.stamp s.objects incoming := by
    rw [← unchanged, putWinner_key keyed, enter_eq_putWinner]
  rw [entered]
  apply serial.moved
  · apply serial.serialised.moved
    · rw [MemoryStore.putAll, List.foldl_append]
      change _ = (((newMemoryStore s.nodeID 0).putAll written).afterPut incoming).records
      rw [MemoryStore.afterPut_records, named, serial.serialised.1]
    · rw [waits]
      rfl
    · intro r
      simp [CallPhase.result, eq_comm]
  · intro j put other ofCall
    exact Champion.lookup_enter_of_ne _ (serial.alone j i put _ other ofCall mine)
  · exact nofun
  · exact nofun

theorem Serial.effect {written : List Record} (serial : s.Serial written) (named : s.Named)
    (effect : Effect s i next)
    (exclusive : ∀ incoming, s.call i = .reading incoming →
      ∀ j other, (s.call j).pending = some other → incoming.key ≠ other.1.key) :
    ∃ onward, next.Serial onward := by
  have running {phase : CallPhase} (waits : s.call i = phase) (unfinished : phase.result = .none) :
      (s.call i).result = .none := by
    rw [waits, unfinished]
  cases effect with
  | none => exact ⟨written, serial⟩
  | plain clock phase bare running =>
      have outside : phase.result = .none ∧ phase.pending = .none := by
        cases phase <;> first | exact ⟨rfl, rfl⟩ | contradiction
      refine ⟨written, serial.waited running outside.1 ?_ ?_⟩
      · exact fun put isPending => absurd isPending (by simp [outside.2])
      · exact fun put isPending => absurd isPending (by simp [outside.2])
  | opened clock incoming running => exact ⟨written, serial.waited running rfl nofun nofun⟩
  | read incoming waits =>
      refine ⟨written, serial.waited (running waits rfl) rfl ?_ ?_⟩
      · intro put isPending
        cases isPending
        rfl
      · intro put isPending j other _ ofCall
        cases isPending
        exact exclusive incoming waits j other ofCall
  | merged clock incoming found waits =>
      have mine : (s.call i).pending = some (incoming, found) := by
        rw [waits]
        rfl
      refine ⟨written, serial.waited (running waits rfl) rfl ?_ ?_⟩
      · intro put isPending
        cases isPending
        exact serial.undisturbed i _ mine
      · intro put isPending j other distinct ofCall
        cases isPending
        exact (serial.alone j i other _ distinct ofCall mine).symm
  | wrote incoming found waits =>
      have filled : incoming.defaulted = incoming := named i incoming (by rw [waits]; rfl)
      exact ⟨_, serial.wrote filled waits⟩

variable [DecidableEq π] {page : ι → π}

theorem Step.effect {action : TabAction ι} (taken : Step page s action next) :
    Effect s action.call next := by
  cases taken with
  | put idle incoming =>
      exact .opened s.clock incoming (by simp [TabAction.call, idle, CallPhase.result])
  | delete idle collection id =>
      exact .plain s.clock _ rfl (by simp [TabAction.call, idle, CallPhase.result])
  | transact i fails => exact effect_transact s i fails
  | resume i now => exact effect_resume page s i now

theorem named_of_run {allowed : Tabs π ι → TabAction ι → Prop} {nodeID : GoString}
    {clock : π → HLC} (run : Run (Step page) allowed (start nodeID clock) s) : s.Named := by
  refine run.keeps (fun named _ taken => named.effect taken.effect) ?_
  intro j r ofCall
  contradiction

theorem serial_of_run {nodeID : GoString} {clock : π → HLC}
    (run : Run (Step page) TabAction.Exclusive (start nodeID clock) s) :
    ∃ written, s.Serial written := by
  induction run with
  | start => exact ⟨[], ⟨rfl, fun r => by simp [start, CallPhase.result]⟩, nofun, nofun⟩
  | step before exclusive taken ih =>
      obtain ⟨written, serial⟩ := ih
      exact serial.effect (named_of_run before) taken.effect exclusive

/-! A call that nothing interrupts is a call of the sequential store. -/

def runPut (page : ι → π) (s : Tabs π ι) (i : ι) (requests : Requests) (now : Int64) :
    Tabs π ι :=
  ((s.transact i requests.getFails).resume page i now).transact i requests.putFails

theorem put_uninterrupted (page : ι → π) (s : Tabs π ι) (i : ι) (requests : Requests)
    (incoming : Record) (now : Int64) :
    let done := (s.setCall i (.reading incoming.defaulted)).runPut page i requests now
    let result := (s.store (page i)).put requests incoming
    done.store (page i) = result.2 ∧ done.call i = .ended incoming.defaulted result.1 := by
  obtain ⟨getFails, putFails⟩ := requests
  cases getFails with
  | true =>
      simp [runPut, transact, resume, setCall, store, IndexedDBStore.put, IndexedDBStore.get,
        CallPhase.ended]
  | false =>
      rw [IndexedDBStore.put_of_read]
      cases putFails with
      | true =>
          simp [runPut, transact, resume, setCall, setClock, store, IndexedDBStore.finishPut,
            CallPhase.ended]
      | false =>
          simp [runPut, transact, resume, setCall, setClock, store, IndexedDBStore.finishPut,
            CallPhase.ended]

theorem delete_uninterrupted (page : ι → π) (s : Tabs π ι) (i : ι) (readFails : Bool)
    (requests : Requests) (collection id : GoString) (now later : Int64) :
    (runPut page (((s.setCall i (.deleting (orDefault collection) id)).transact i
      readFails).resume page i now) i requests later).store (page i) =
        ((s.store (page i)).delete readFails requests collection id now).2 := by
  cases readFails with
  | true =>
      simp [runPut, transact, resume, setCall, store, IndexedDBStore.delete,
        IndexedDBStore.get]
  | false =>
      let found := s.objects.lookup (flatKey (orDefault collection) id)
      let r := found.getD { Record.zero with collection := orDefault collection, id }
      let clock := (s.clock (page i)).tick now
      let tombstone := { r with deleted := true, updatedBy := s.nodeID, clock }
      let ticked := ((s.setCall i (.deleting (orDefault collection) id)).setCall i
        (.burying (orDefault collection) id found)).setClock (page i) clock
      have buried : ((s.setCall i (.deleting (orDefault collection) id)).transact i
          false).resume page i now = ticked.setCall i (.reading tombstone.defaulted) := by
        simp [transact, resume, setCall, setClock, ticked, tombstone, r, found, clock]
      have same : ticked.store (page i) = { s.store (page i) with clock } := by
        simp [ticked, store, setCall, setClock]
      rw [buried, (put_uninterrupted page ticked i requests tombstone later).1, same,
        IndexedDBStore.delete_of_read, IndexedDBStore.bury_store]
      rfl

/-! Two puts that have both read before either of them writes. -/

/-- The first call goes on and writes, then the second one does. -/
def writeBoth (page : ι → π) (s : Tabs π ι) (first second : ι) (now : Int64) : Tabs π ι :=
  (((s.resume page first now).resume page second now).transact first false).transact second false

theorem putWinner_of_accepts {incoming : Record} {found : Option Record}
    (accepts : putAccepts incoming found = true) : putWinner incoming found = incoming := by
  cases found with
  | none => rfl
  | some existing => exact if_pos accepts

theorem writeBoth_of_merging (page : ι → π) {first second : ι} {newer older : Record}
    {seenFirst seenSecond : Option Record} (distinct : first ≠ second)
    (ofFirst : s.call first = .merging newer seenFirst)
    (ofSecond : s.call second = .merging older seenSecond) (now : Int64) :
    let done := s.writeBoth page first second now
    let winner := putWinner newer seenFirst
    let last := putWinner older seenSecond
    done.objects = (s.objects.insert winner.key winner).insert last.key last ∧
      done.call first = .returned newer (putAccepts newer seenFirst) winner ∧
      done.call second = .returned older (putAccepts older seenSecond) last := by
  simp [writeBoth, resume, transact, setCall, setClock, ofFirst, ofSecond, distinct,
    distinct.symm, Function.update_of_ne]

end Tabs

end NellDB
