import NellDB.Data.Interleaving
import NellDB.Sdk.Commit

namespace NellDB

open Data

namespace DocDB

/-! `Put` as the sequence of its atomic steps.  The lock is held only while the
revisions are read, while they are written, and while the vector is raised. -/

/-- The locked part of `observeVector`: the raised vector is copied out. -/
def raiseVector (db : DocDB) (nodeID : GoString) (clock : HLC) :
    DocDB × Option KnowledgeVector :=
  if nodeID = [] then
    (db, none)
  else
    let existing := (db.vector.lookup nodeID).getD HLC.zero
    if clock.greaterThan existing then
      let vector := db.vector.insert nodeID clock
      ({ db with vector }, some vector)
    else
      (db, none)

end DocDB

inductive PutPhase where
  | called
  | checked (newRev : GoString) (draft : Record)
  | stamped (newRev : GoString) (written : Record)
  | stored (newRev : GoString) (written : Record)
  | cached (newRev : GoString) (written : Record)
  | observed (newRev : GoString) (kv : KnowledgeVector)
  | returned (result : Except SdkError GoString)

namespace PutPhase

def starting : PutPhase → Bool
  | called => true
  | _ => false

/-- The revisions have been read and are not yet written. -/
def inside : PutPhase → Bool
  | checked .. => true
  | stamped .. => true
  | stored .. => true
  | _ => false

def succeeded : PutPhase → Bool
  | returned (.ok _) => true
  | _ => false

end PutPhase

structure PutCall where
  env : CallEnv
  doc : Doc

def PutCall.advance (platform : Platform) (call : PutCall) (db : DocDB) :
    PutPhase → DocDB × PutPhase
  | .called =>
      match db.check platform call.env call.doc with
      | .error failure => (db, .returned (.error failure))
      | .ok (newRev, draft) => (db, .checked newRev draft)
  | .checked newRev draft => (db, .stamped newRev (db.stamp call.env draft))
  | .stamped newRev written =>
      ({ db with store := db.store.afterPut written }, .stored newRev written)
  | .stored newRev written =>
      ({ db with revs := db.revs.insert written.id newRev }, .cached newRev written)
  | .cached newRev written =>
      match db.raiseVector db.nodeID written.clock with
      | (db, some kv) => (db, .observed newRev kv)
      | (db, none) => (db, .returned (.ok newRev))
  | .observed newRev kv =>
      (db.writeMetaVector platform call.env kv, .returned (.ok newRev))
  | .returned result => (db, .returned result)

def advanceCall {ι : Type} (platform : Platform) (calls : ι → PutCall) (i : ι) :
    DocDB → PutPhase → DocDB × PutPhase :=
  (calls i).advance platform

/-! A call whose steps are not interrupted is `Put`. -/

namespace DocDB

theorem observeVector_eq (platform : Platform) (db : DocDB) (env : CallEnv)
    (nodeID : GoString) (clock : HLC) :
    db.observeVector platform env nodeID clock =
      match db.raiseVector nodeID clock with
      | (db, some kv) => db.writeMetaVector platform env kv
      | (db, none) => db := by
  unfold observeVector raiseVector
  split
  next => rfl
  next =>
      dsimp only
      split
      next => rfl
      next => rfl

/-- Six steps complete a call that nothing interrupts. -/
theorem put_eq_advance (platform : Platform) (db : DocDB) (call : PutCall) :
    let step := fun (db, phase) => call.advance platform db phase
    step^[6] (db, .called) =
      let (result, db) := db.put platform call.env call.doc
      (db, .returned (result.map Prod.fst)) := by
  intro step
  unfold put prepare
  cases checked : db.check platform call.env call.doc with
  | error failure => simp [step, PutCall.advance, checked, Except.map]
  | ok prepared =>
      simp only [Function.iterate_succ, Function.iterate_zero, Function.comp_apply, id, step,
        PutCall.advance, checked, Except.map]
      unfold commit
      rw [observeVector_eq]
      generalize raiseVector _ _ _ = outcome
      obtain ⟨raised, copied⟩ := outcome
      cases copied with
      | none => rfl
      | some vector => rfl

@[simp] theorem raiseVector_revs (db : DocDB) (nodeID : GoString) (clock : HLC) :
    (db.raiseVector nodeID clock).1.revs = db.revs := by
  unfold raiseVector
  split
  next => rfl
  next =>
      dsimp only
      split
      next => rfl
      next => rfl

end DocDB

/-! Calls on one document that carry the same revision. -/

/-- A call that replaces revision `rev` of `id` and meets no other obstacle. -/
structure PutCall.Contends (platform : Platform) (id rev : GoString) (call : PutCall) :
    Prop where
  document : call.doc.stringField fieldID = id
  revision : call.doc.stringField fieldRev = rev
  active : call.env.cancelled = false
  marshals : ∃ raw final, platform.json.marshal call.doc.splitDoc = some raw ∧
    platform.json.marshal (call.doc.splitDoc.insert fieldRev
      (.string (genRev platform.sha1 rev raw))) = some final

namespace PutCall.Contends

variable {platform : Platform} {id rev : GoString} {call : PutCall}

theorem check_current (contends : call.Contends platform id rev) (identified : id ≠ [])
    {db : DocDB} (current : db.revs.lookup id = some rev) :
    ∃ newRev draft, db.check platform call.env call.doc = .ok (newRev, draft) ∧
      draft.id = id ∧ newRev ≠ rev ∧ newRev ≠ [] := by
  obtain ⟨raw, final, first, second⟩ := contends.marshals
  have accepted : db.baseRev id rev true = .ok rev := DocDB.baseRev_current current
  have checked : db.check platform call.env call.doc =
      .ok (genRev platform.sha1 rev raw, ⟨db.collection, id, call.doc.recType, final,
        call.doc.vector, HLC.zero, db.nodeID, call.doc.isDeleted⟩) := by
    simp [DocDB.check, contends.document, contends.revision, contends.active, identified,
      accepted, first, second, bind, Except.bind, pure, Except.pure]
  exact ⟨_, _, checked, rfl, genRev_ne _ _ _, genRev_ne_nil _ _ _⟩

theorem check_stale (contends : call.Contends platform id rev) (identified : id ≠ [])
    (named : rev ≠ []) {db : DocDB} {current : GoString}
    (moved : db.revs.lookup id = some current) (fresh : current ≠ rev ∧ current ≠ []) :
    db.check platform call.env call.doc = .error .conflict := by
  have refused : db.baseRev id rev true = .error .conflict :=
    DocDB.baseRev_stale moved fresh.2 named fresh.1.symm
  simp [DocDB.check, contends.document, contends.revision, contends.active, identified,
    refused, bind, Except.bind]

end PutCall.Contends

namespace PutPhase

def Carrying (id newRev : GoString) : PutPhase → Prop
  | checked rev draft => rev = newRev ∧ draft.id = id
  | stamped rev written => rev = newRev ∧ written.id = id
  | stored rev written => rev = newRev ∧ written.id = id
  | _ => False

def Done : PutPhase → Prop
  | cached .. => True
  | observed .. => True
  | returned (.ok _) => True
  | _ => False

theorem Carrying.inside {id newRev : GoString} {phase : PutPhase}
    (carrying : phase.Carrying id newRev) : phase.inside = true := by
  cases phase with
  | checked => rfl
  | stamped => rfl
  | stored => rfl
  | called => exact carrying.elim
  | cached => exact carrying.elim
  | observed => exact carrying.elim
  | returned => exact carrying.elim

end PutPhase

section

variable {ι : Type} [DecidableEq ι]

/-- A call reads the revisions only while no call is between its read and its
write of them. -/
def Serial (s : Interleaved ι DocDB PutPhase) (i : ι) : Prop :=
  (s.phase i).starting = true → ∀ j, (s.phase j).inside = false

instance [Fintype ι] (s : Interleaved ι DocDB PutPhase) (i : ι) : Decidable (Serial s i) :=
  inferInstanceAs (Decidable ((s.phase i).starting = true → ∀ j, (s.phase j).inside = false))

/-- How far the calls have come that all replace revision `rev` of `id`. -/
inductive Contest (id rev : GoString) (s : Interleaved ι DocDB PutPhase) : Prop
  | unclaimed (current : s.shared.revs.lookup id = some rev)
      (waiting : ∀ i, s.phase i = .called)
  | claimed (owner : ι) (newRev : GoString) (current : s.shared.revs.lookup id = some rev)
      (fresh : newRev ≠ rev ∧ newRev ≠ []) (carrying : (s.phase owner).Carrying id newRev)
      (waiting : ∀ i, i ≠ owner → s.phase i = .called)
  | decided (winner : ι) (newRev : GoString) (moved : s.shared.revs.lookup id = some newRev)
      (fresh : newRev ≠ rev ∧ newRev ≠ []) (done : (s.phase winner).Done)
      (settled : ∀ i, i ≠ winner →
        s.phase i = .called ∨ s.phase i = .returned (.error .conflict))

namespace Contest

variable {platform : Platform} {calls : ι → PutCall} {id rev : GoString}

theorem enter (identified : id ≠ []) {s : Interleaved ι DocDB PutPhase} {i : ι}
    (contends : (calls i).Contends platform id rev)
    (current : s.shared.revs.lookup id = some rev) (waiting : ∀ i, s.phase i = .called) :
    Contest id rev (s.move (advanceCall platform calls) i) := by
  obtain ⟨newRev, draft, checked, isID, fresh⟩ := contends.check_current identified current
  have result : advanceCall platform calls i s.shared (s.phase i) =
      (s.shared, .checked newRev draft) := by
    rw [advanceCall, waiting, PutCall.advance, checked]
  obtain ⟨shared, own, others⟩ := Interleaved.moved result
  refine .claimed i newRev ?_ fresh ?_ fun j other => (others j other).trans (waiting j)
  · rw [shared, current]
  · rw [own]
    exact ⟨rfl, isID⟩

theorem proceed {s : Interleaved ι DocDB PutPhase} {owner : ι} {newRev : GoString}
    (current : s.shared.revs.lookup id = some rev) (fresh : newRev ≠ rev ∧ newRev ≠ [])
    (carrying : (s.phase owner).Carrying id newRev)
    (waiting : ∀ i, i ≠ owner → s.phase i = .called) :
    Contest id rev (s.move (advanceCall platform calls) owner) := by
  match phase : s.phase owner, carrying with
  | .checked _ draft, ⟨rfl, isID⟩ =>
      have result : advanceCall platform calls owner s.shared (s.phase owner) =
          (s.shared, .stamped newRev (s.shared.stamp (calls owner).env draft)) := by
        rw [phase]
        rfl
      obtain ⟨shared, own, others⟩ := Interleaved.moved result
      refine .claimed owner newRev ?_ fresh ?_ fun i other =>
        (others i other).trans (waiting i other)
      · rw [shared, current]
      · rw [own]
        exact ⟨rfl, isID⟩
  | .stamped _ written, ⟨rfl, isID⟩ =>
      have result : advanceCall platform calls owner s.shared (s.phase owner) =
          ({ s.shared with store := s.shared.store.afterPut written },
            .stored newRev written) := by
        rw [phase]
        rfl
      obtain ⟨shared, own, others⟩ := Interleaved.moved result
      refine .claimed owner newRev ?_ fresh ?_ fun i other =>
        (others i other).trans (waiting i other)
      · rw [shared, current]
      · rw [own]
        exact ⟨rfl, isID⟩
  | .stored _ written, ⟨rfl, isID⟩ =>
      have result : advanceCall platform calls owner s.shared (s.phase owner) =
          ({ s.shared with revs := s.shared.revs.insert written.id newRev },
            .cached newRev written) := by
        rw [phase]
        rfl
      obtain ⟨shared, own, others⟩ := Interleaved.moved result
      refine .decided owner newRev ?_ fresh ?_ fun i other =>
        .inl ((others i other).trans (waiting i other))
      · rw [shared, ← isID, Finmap.lookup_insert]
      · rw [own]
        exact trivial

theorem advance_done (call : PutCall) (db : DocDB) {phase : PutPhase} (done : phase.Done) :
    ∃ after next, call.advance platform db phase = (after, next) ∧ after.revs = db.revs ∧
      next.Done := by
  match phase, done with
  | .cached own written, _ =>
      have kept := db.raiseVector_revs db.nodeID written.clock
      rw [PutCall.advance]
      match raised : db.raiseVector db.nodeID written.clock with
      | (after, some kv) =>
          rw [raised] at kept
          exact ⟨after, _, rfl, kept, trivial⟩
      | (after, none) =>
          rw [raised] at kept
          exact ⟨after, _, rfl, kept, trivial⟩
  | .observed own kv, _ => exact ⟨_, _, rfl, rfl, trivial⟩
  | .returned (.ok own), _ => exact ⟨db, _, rfl, rfl, trivial⟩

theorem finish {s : Interleaved ι DocDB PutPhase} {winner : ι} {newRev : GoString}
    (moved : s.shared.revs.lookup id = some newRev) (fresh : newRev ≠ rev ∧ newRev ≠ [])
    (done : (s.phase winner).Done)
    (settled : ∀ i, i ≠ winner →
      s.phase i = .called ∨ s.phase i = .returned (.error .conflict)) :
    Contest id rev (s.move (advanceCall platform calls) winner) := by
  obtain ⟨after, next, result, kept, stillDone⟩ := advance_done (calls winner) s.shared done
  obtain ⟨shared, own, others⟩ :=
    Interleaved.moved (show advanceCall platform calls winner _ _ = _ from result)
  refine .decided winner newRev ?_ fresh ?_ fun i other => ?_
  · rw [shared, kept, moved]
  · rw [own]
    exact stillDone
  · rw [others i other]
    exact settled i other

theorem refuse (identified : id ≠ []) (named : rev ≠ [])
    {s : Interleaved ι DocDB PutPhase} {winner i : ι} {newRev : GoString}
    (contends : (calls i).Contends platform id rev) (other : i ≠ winner)
    (moved : s.shared.revs.lookup id = some newRev) (fresh : newRev ≠ rev ∧ newRev ≠ [])
    (done : (s.phase winner).Done)
    (settled : ∀ i, i ≠ winner →
      s.phase i = .called ∨ s.phase i = .returned (.error .conflict)) :
    Contest id rev (s.move (advanceCall platform calls) i) := by
  have result : advanceCall platform calls i s.shared (s.phase i) =
      (s.shared, .returned (.error .conflict)) := by
    rcases settled i other with waiting | refused
    · rw [advanceCall, waiting, PutCall.advance,
        contends.check_stale identified named moved fresh]
    · rw [advanceCall, refused, PutCall.advance]
  obtain ⟨shared, own, others⟩ := Interleaved.moved result
  refine .decided winner newRev ?_ fresh ?_ fun j elsewhere => ?_
  · rw [shared, moved]
  · rw [others winner other.symm]
    exact done
  · by_cases same : j = i
    · rw [same, own]
      exact .inr rfl
    · rw [others j same]
      exact settled j elsewhere

theorem step (identified : id ≠ []) (named : rev ≠ [])
    (contends : ∀ i, (calls i).Contends platform id rev)
    (s : Interleaved ι DocDB PutPhase) (i : ι) (serial : Serial s i)
    (contest : Contest id rev s) :
    Contest id rev (s.move (advanceCall platform calls) i) := by
  cases contest with
  | unclaimed current waiting => exact enter identified (contends i) current waiting
  | claimed owner newRev current fresh carrying waiting =>
      by_cases same : i = owner
      · rw [same]
        exact proceed current fresh carrying waiting
      · -- the step would read the revisions between the owner's read and write
        have starting : (s.phase i).starting = true := by
          rw [waiting i same]
          rfl
        have outside := serial starting owner
        rw [carrying.inside] at outside
        contradiction
  | decided winner newRev moved fresh done settled =>
      by_cases same : i = winner
      · rw [same]
        exact finish moved fresh done settled
      · exact refuse identified named (contends i) same moved fresh done settled

theorem eq_of_succeeded {s : Interleaved ι DocDB PutPhase} (contest : Contest id rev s)
    {i j : ι} (left : (s.phase i).succeeded = true) (right : (s.phase j).succeeded = true) :
    i = j := by
  cases contest with
  | unclaimed current waiting =>
      rw [waiting i] at left
      contradiction
  | claimed owner newRev current fresh carrying waiting =>
      by_cases same : i = owner
      · rw [same] at left
        have inside := carrying.inside
        generalize s.phase owner = phase at left inside
        cases phase <;> contradiction
      · rw [waiting i same] at left
        contradiction
  | decided winner newRev moved fresh done settled =>
      have won : ∀ {k}, (s.phase k).succeeded = true → k = winner := by
        intro k succeeded
        by_contra other
        rcases settled k other with waiting | refused
        · rw [waiting] at succeeded
          contradiction
        · rw [refused] at succeeded
          contradiction
      rw [won left, won right]

theorem eq_conflict {s : Interleaved ι DocDB PutPhase} (contest : Contest id rev s)
    {i : ι} {failure : SdkError} (failed : s.phase i = .returned (.error failure)) :
    failure = .conflict := by
  cases contest with
  | unclaimed current waiting =>
      rw [waiting i] at failed
      contradiction
  | claimed owner newRev current fresh carrying waiting =>
      by_cases same : i = owner
      · rw [← same, failed] at carrying
        exact carrying.elim
      · rw [waiting i same] at failed
        contradiction
  | decided winner newRev moved fresh done settled =>
      by_cases same : i = winner
      · rw [← same, failed] at done
        exact done.elim
      · rcases settled i same with waiting | refused
        · rw [waiting] at failed
          contradiction
        · rw [refused] at failed
          cases failed
          rfl

end Contest

/-- Calls that carry the current revision of a document, when none of them reads
the revisions between another's check and its write: at most one returns
success, and the others return a conflict. -/
theorem single_writer_wins {platform : Platform} {calls : ι → PutCall} {db : DocDB}
    {id rev : GoString} (identified : id ≠ []) (named : rev ≠ [])
    (current : db.revs.lookup id = some rev)
    (contends : ∀ i, (calls i).Contends platform id rev) (schedule : List ι)
    (serial : Interleaved.Permitted (advanceCall platform calls) Serial
      ⟨db, fun _ => .called⟩ schedule) :
    let s := Interleaved.run (advanceCall platform calls) ⟨db, fun _ => .called⟩ schedule
    (∀ i j, (s.phase i).succeeded = true → (s.phase j).succeeded = true → i = j) ∧
      ∀ i failure, s.phase i = .returned (.error failure) → failure = .conflict := by
  intro s
  have contest : Contest id rev s :=
    serial.keeps (Contest.step identified named contends) (.unclaimed current fun _ => rfl)
  exact ⟨fun i j => contest.eq_of_succeeded, fun i failure => contest.eq_conflict⟩

end

/-! Two calls that replace the first revision of a document. -/

namespace TwoWriters

def start : DocDB :=
  (newDocDB .revOnly (newMemoryStore [] 0) (ascii ['n']) [] []).call .revOnly
    (.put (.at 1000) (Finmap.singleton fieldID (.string (ascii ['x']))))

def firstRev : GoString := genRev Platform.revOnly.sha1 [] [123, 125]

def calls (i : Fin 2) : PutCall where
  env := .at (if i = 0 then 2000 else 3000)
  doc := (Finmap.singleton fieldID (.string (ascii ['x']))).insert fieldRev (.string firstRev)

theorem contends (i : Fin 2) : (calls i).Contends .revOnly (ascii ['x']) firstRev where
  document := rfl
  revision := rfl
  active := rfl
  marshals := by
    refine ⟨JsonCodec.openRev ++ firstRev ++ JsonCodec.closeRev,
      JsonCodec.openRev ++ genRev Platform.revOnly.sha1 firstRev
        (JsonCodec.openRev ++ firstRev ++ JsonCodec.closeRev) ++ JsonCodec.closeRev, ?_, ?_⟩
    · revert i
      decide +kernel
    · revert i
      decide +kernel

end TwoWriters

open TwoWriters in
theorem single_writer_wins_in_turn :
    let s := Interleaved.run (advanceCall .revOnly calls) ⟨start, fun _ => .called⟩
      [0, 0, 0, 0, 0, 0, 1]
    (s.phase 0).succeeded = true ∧ (s.phase 1).succeeded = false := by
  intro s
  have won : (s.phase 0).succeeded = true := by decide +kernel
  obtain ⟨single, _⟩ := single_writer_wins (by decide) (by decide +kernel)
    (by decide +kernel : start.revs.lookup (ascii ['x']) = some firstRev) contends
    [0, 0, 0, 0, 0, 0, 1] (by decide +kernel)
  refine ⟨won, Bool.eq_false_iff.mpr fun second => ?_⟩
  exact absurd (single 0 1 won second) (by decide)

open TwoWriters in
/-- Both calls check the revision before either writes it: both succeed, and the
first update is lost. -/
theorem both_writers_succeed :
    firstRev ≠ [] ∧ start.revs.lookup (ascii ['x']) = some firstRev ∧
      (∀ i, (calls i).doc.stringField fieldID = ascii ['x'] ∧
        (calls i).doc.stringField fieldRev = firstRev) ∧
      ∃ schedule, ∀ i, ((Interleaved.run (advanceCall .revOnly calls)
        ⟨start, fun _ => .called⟩ schedule).phase i).succeeded = true := by
  refine ⟨by decide +kernel, by decide +kernel, by decide +kernel, ?_⟩
  refine ⟨[0, 1, 0, 0, 0, 0, 0, 1, 1, 1, 1, 1], ?_⟩
  decide +kernel

end NellDB
