import NellDB.LogStore.Recovery

namespace NellDB

open Data

def scanEnd (file : Bytes) : Nat :=
  (findFrames file).foldl (fun _ fr => fr.offset + fr.compLen) 0

inductive Ending where
  | close
  | crash (kept : Nat)
  deriving DecidableEq, Repr

/-- What an ending leaves of the bytes appended in its session. -/
def Ending.left (appended : Bytes) : Ending → Bytes
  | close => appended
  | crash kept => appended.take kept

structure Session where
  opening : Opening
  events : List LogEvent
  ending : Ending

namespace Session

def calls (session : Session) : List Write :=
  session.events.filterMap LogEvent.call

def journal (session : Session) (ls : LogStore) : List Record :=
  ls.memory.journal session.calls

def left (zstd : Zstd) (session : Session) (ls : LogStore) : Bytes :=
  session.ending.left
    ((ls.run zstd session.events).writer.stream.drop ls.writer.stream.length)

def complete (zstd : Zstd) (session : Session) (ls : LogStore) : List Record :=
  (session.journal ls).take (Framing.wholeCount
    ((session.journal ls).map (frame zstd)) (session.left zstd ls).length)

end Session

/-- A history of sessions on one log file: the bytes of the file and the
records of all completely written frames. -/
inductive History (zstd : Zstd) (allowed : LogStore → Session → Prop) :
    Bytes → List Record → Prop
  | start : History zstd allowed [] []
  | session (history : History zstd allowed file written)
      (opened : OpenLog zstd session.opening file (.ok ls))
      (allows : allowed ls session) :
      History zstd allowed (file ++ session.left zstd ls)
        (written ++ session.complete zstd ls)

/-- The session leaves nothing or appends to a log without a torn tail, and
the lengths that its calls carry fit their length fields. -/
structure Safe (zstd : Zstd) (ls : LogStore) (session : Session) : Prop where
  untorn : session.left zstd ls = [] ∨ scanEnd ls.writer.file = ls.writer.file.length
  fits : ∀ call ∈ session.calls, call.FitsBinary ls.memory.nodeID
  compressed : ∀ r ∈ session.journal ls,
    (zstd.encodeAll r.marshalBinary).length < 2 ^ 32

structure Winner (written : List Record) (position : GoString) (winner : Record) :
    Prop where
  member : ∃ r ∈ written, r.defaulted = winner
  placed : winner.key = position
  unbeaten : ∀ other ∈ written, other.defaulted.key = position →
    incomingWins winner other = false

theorem foldl_scanFrames {zstd : Zstd} {records : List Record} {torn : Bytes}
    (compressed : ∀ r ∈ records, (zstd.encodeAll r.marshalBinary).length < 2 ^ 32)
    (stops : ∀ fuel offset, scanFrames fuel offset torn = []) (offset : Nat)
    {fuel : Nat} (enough : records.length ≤ fuel) :
    (scanFrames fuel offset (frames zstd records ++ torn)).foldl
        (fun _ fr => fr.offset + fr.compLen) offset =
      offset + (frames zstd records).length := by
  induction records generalizing offset fuel with
  | nil => simp [frames, stops]
  | cons r rest ih =>
      cases fuel with
      | zero => simp at enough
      | succ fuel =>
          have stream : frames zstd (r :: rest) ++ torn =
              frame zstd r ++ (frames zstd rest ++ torn) := by
            simp [frames]
          obtain ⟨uncompLen, scanned⟩ := scanFrames_frame
            (compressed r List.mem_cons_self) fuel offset (frames zstd rest ++ torn)
          have onward := ih
            (fun other member => compressed other (List.mem_cons_of_mem r member))
            (offset + (frame zstd r).length) (Nat.le_of_succ_le_succ enough)
          have total : (frames zstd (r :: rest)).length =
              (frame zstd r).length + (frames zstd rest).length := by
            simp [frames]
          rw [stream, scanned, List.foldl_cons, total, ← Nat.add_assoc, ← onward,
            length_frame, Nat.add_assoc]

theorem scanEnd_frames {zstd : Zstd} {records : List Record} {torn : Bytes}
    (compressed : ∀ r ∈ records, (zstd.encodeAll r.marshalBinary).length < 2 ^ 32)
    (stops : ∀ fuel offset, scanFrames fuel offset torn = []) :
    scanEnd (frames zstd records ++ torn) = (frames zstd records).length := by
  have enough : records.length ≤ (frames zstd records ++ torn).length := by
    have framed := length_le_length_frames zstd records
    rw [List.length_append]
    omega
  have stopped := foldl_scanFrames compressed stops 0 enough
  rw [Nat.zero_add] at stopped
  exact stopped

theorem Session.left_prefix (zstd : Zstd) (session : Session) (ls : LogStore) :
    session.left zstd ls <+: frames zstd (session.journal ls) := by
  unfold Session.left
  rw [LogStore.run_stream, List.drop_left]
  cases session.ending with
  | close => exact List.prefix_rfl
  | crash kept => exact List.take_prefix kept _

theorem Session.left_eq (zstd : Zstd) (session : Session) (ls : LogStore) :
    ∃ torn, Framing.Torn ((session.journal ls).map (frame zstd)) torn ∧
      session.left zstd ls = frames zstd (session.complete zstd ls) ++ torn := by
  obtain ⟨torn, isTorn, whole⟩ := Framing.take_flatten_eq
    ((session.journal ls).map (frame zstd)) (session.left zstd ls).length
  have cut := List.prefix_iff_eq_take.mp (session.left_prefix zstd ls)
  rw [frames] at cut
  rw [← cut, ← List.map_take] at whole
  exact ⟨torn, isTorn, whole⟩

/-- The file is the completely written frames and a rest without a frame. -/
def Intact (zstd : Zstd) (file : Bytes) (written : List Record) : Prop :=
  ∃ torn, file = frames zstd written ++ torn ∧
    (∀ fuel offset, scanFrames fuel offset torn = []) ∧
    ∀ r ∈ written, FitsFrame zstd r

theorem storedFit_mergeAll {opening : Opening} {merged : List Record}
    (fits : ∀ r ∈ merged, r.FitsBinary) : StoredFit (mergeAll opening.fresh merged) := by
  intro position stored found
  rw [mergeAll_records] at found
  obtain ⟨r, member, rfl⟩ := List.mem_map.mp (Champion.isChampion_enterAll found).member
  exact (fits r member).defaulted

theorem Intact.session {zstd : Zstd} {file : Bytes} {written : List Record}
    (intact : Intact zstd file written) {session : Session} {ls : LogStore}
    (opened : OpenLog zstd session.opening file (.ok ls)) (safe : Safe zstd ls session) :
    Intact zstd (file ++ session.left zstd ls)
      (written ++ session.complete zstd ls) := by
  obtain ⟨torn, rfl, stops, fits⟩ := intact
  obtain ⟨merged, perm, outcome⟩ := (openLog_outcomes fits stops session.opening).2 _ opened
  have stored : StoredFit ls.memory := by
    rw [Except.ok.inj outcome]
    exact storedFit_mergeAll fun r member => (fits r (perm.mem_iff.mp member)).binary
  have appendedFits : ∀ r ∈ session.complete zstd ls, FitsFrame zstd r := by
    intro r member
    have inJournal := List.mem_of_mem_take member
    exact ⟨stored.journal safe.fits r inJournal, safe.compressed r inJournal⟩
  have allFit : ∀ r ∈ written ++ session.complete zstd ls, FitsFrame zstd r := by
    intro r member
    rcases List.mem_append.mp member with earlier | appended
    · exact fits r earlier
    · exact appendedFits r appended
  obtain ⟨cut, isTorn, leftEq⟩ := session.left_eq zstd ls
  rcases safe.untorn with nothing | reached
  · have noFrames : session.complete zstd ls = [] := by
      have short := length_le_length_frames zstd (session.complete zstd ls)
      rw [nothing] at leftEq
      rw [(List.append_eq_nil_iff.mp leftEq.symm).1] at short
      exact List.eq_nil_of_length_eq_zero (Nat.le_zero.mp short)
    refine ⟨torn, ?_, stops, allFit⟩
    rw [nothing, noFrames, List.append_nil, List.append_nil]
  · have fileEq : ls.writer.file = frames zstd written ++ torn := by
      rw [Except.ok.inj outcome]
      rfl
    rw [fileEq, scanEnd_frames (fun r member => (fits r member).compressed) stops,
      List.length_append] at reached
    have untorn : torn = [] := List.eq_nil_of_length_eq_zero (by omega)
    refine ⟨cut, ?_, scanFrames_of_torn safe.compressed isTorn, allFit⟩
    rw [untorn, List.append_nil, leftEq, ← List.append_assoc]
    simp [frames]

theorem History.intact {zstd : Zstd} {file : Bytes} {written : List Record}
    (history : History zstd (Safe zstd) file written) : Intact zstd file written := by
  induction history with
  | start => exact ⟨[], rfl, scanFrames_nil, by simp⟩
  | session _ opened safe ih => exact ih.session opened safe

/-- After sessions that never append behind a torn tail, every `OpenLog`
recovers the winners among all completely written frames. -/
theorem sessions_recover_winners (zstd : Zstd) (file : Bytes) (written : List Record)
    (history : History zstd (Safe zstd) file written) (opening : Opening) :
    (∃ outcome, OpenLog zstd opening file outcome) ∧
      ∀ outcome, OpenLog zstd opening file outcome →
        ∃ recovered, outcome = .ok recovered ∧
          (∀ position winner,
            recovered.memory.records.lookup position = some winner →
              Winner written position winner) ∧
          ∀ r ∈ written, ∃ winner,
            recovered.memory.records.lookup r.defaulted.key = some winner := by
  obtain ⟨torn, rfl, stops, fits⟩ := history.intact
  obtain ⟨opens, outcomes⟩ := openLog_outcomes fits stops opening
  refine ⟨opens, ?_⟩
  intro outcome opened
  obtain ⟨merged, perm, rfl⟩ := outcomes outcome opened
  have records : (mergeAll opening.fresh merged).records =
      Champion.enterAll Record.key Record.stamp ∅ (merged.map Record.defaulted) :=
    mergeAll_records opening.fresh merged
  have members : ∀ r ∈ written, r.defaulted ∈ merged.map Record.defaulted := by
    intro r member
    exact List.mem_map_of_mem (perm.mem_iff.mpr member)
  refine ⟨_, rfl, ?_, ?_⟩
  · intro position winner found
    rw [Opening.store, records] at found
    have champion := Champion.isChampion_enterAll found
    obtain ⟨r, member, same⟩ := List.mem_map.mp champion.member
    refine ⟨⟨r, perm.mem_iff.mp member, same⟩, champion.placed, ?_⟩
    intro other inWritten placed
    have below := champion.greatest other.defaulted (members other inWritten) placed
    rw [← Bool.not_eq_true, incomingWins_iff, not_lt]
    exact below
  · intro r member
    obtain ⟨winner, found⟩ := Champion.isSome_lookup_enterAll Record.key Record.stamp
      (members r member)
    rw [← records] at found
    exact ⟨winner, found⟩

/-- One session writes a record and closes; the next one opens the file, writes another
record and crashes inside its frame. -/
theorem sessions_recover_winners_crash :
    let opening : Opening := ⟨ascii ['n'], 1000, 50, 12, by decide⟩
    let first : Record := { Record.zero with
      collection := defaultCollection, id := ascii ['x'], clock := ⟨2000, 7⟩
      updatedBy := ascii ['m'] }
    ∃ file, History Zstd.stored (Safe Zstd.stored) file [first] ∧ scanEnd file < file.length ∧
      (∃ outcome, OpenLog Zstd.stored opening file outcome) ∧
      ∀ outcome, OpenLog Zstd.stored opening file outcome →
        ∃ recovered, outcome = .ok recovered ∧
          ∃ winner, recovered.memory.records.lookup first.defaulted.key = some winner := by
  intro opening first
  let second : Record := { Record.zero with
    collection := defaultCollection, id := ascii ['y'], clock := ⟨3000, 0⟩
    updatedBy := ascii ['m'] }
  have small (r : Record) (few : r.collection.length + r.id.length + r.type.length +
      r.updatedBy.length + 4 * r.vector.length + r.payload.length < 1000) :
      (Zstd.stored.encodeAll r.marshalBinary).length < 2 ^ 32 := by
    rw [Zstd.length_stored, Record.length_marshalBinary]
    omega
  let closed : Session := ⟨opening, [.write (.put first), .flushTick], .close⟩
  let fresh := opening.store [] opening.fresh
  have afterClose : History Zstd.stored (Safe Zstd.stored) (frames Zstd.stored [first])
      [first] := by
    have journal : closed.journal fresh = [first] := by decide +kernel
    have file : [] ++ closed.left Zstd.stored fresh = frames Zstd.stored [first] := by
      decide +kernel
    have written : [] ++ closed.complete Zstd.stored fresh = [first] := by decide +kernel
    have safe : Safe Zstd.stored fresh closed := by
      refine ⟨.inr rfl, by decide, ?_⟩
      rw [journal]
      intro r member
      rw [List.mem_singleton.mp member]
      exact small first (by decide)
    have opened : OpenLog Zstd.stored closed.opening [] (.ok fresh) := .empty rfl
    rw [← file, ← written]
    exact .session .start opened safe
  -- The one record of the file is read back, whichever worker finds it.
  have reopened : OpenLog Zstd.stored opening (frames Zstd.stored [first])
      (.ok (opening.store (frames Zstd.stored [first]) (mergeAll opening.fresh [first]))) := by
    have fits : ∀ r ∈ [first], FitsFrame Zstd.stored r := by
      intro r member
      rw [List.mem_singleton.mp member]
      exact ⟨by decide, small first (by decide)⟩
    have opens := openLog_outcomes fits scanFrames_nil opening
    rw [List.append_nil] at opens
    obtain ⟨⟨outcome, opened⟩, outcomes⟩ := opens
    obtain ⟨merged, perm, isOk⟩ := outcomes outcome opened
    rw [List.perm_singleton.mp perm] at isOk
    exact isOk ▸ opened
  let crashed : Session := ⟨opening, [.write (.put second)], .crash 3⟩
  let ls := opening.store (frames Zstd.stored [first]) (mergeAll opening.fresh [first])
  have history : History Zstd.stored (Safe Zstd.stored)
      (frames Zstd.stored [first] ++ crashed.left Zstd.stored ls) [first] := by
    have journal : crashed.journal ls = [second] := by decide +kernel
    have written : [first] ++ crashed.complete Zstd.stored ls = [first] := by decide +kernel
    have safe : Safe Zstd.stored ls crashed := by
      refine ⟨.inr (by decide +kernel), by decide, ?_⟩
      rw [journal]
      intro r member
      rw [List.mem_singleton.mp member]
      exact small second (by decide)
    have onward := History.session afterClose reopened safe
    rw [written] at onward
    exact onward
  obtain ⟨opens, recovers⟩ := sessions_recover_winners Zstd.stored _ _ history opening
  refine ⟨_, history, by decide +kernel, opens, ?_⟩
  intro outcome opened
  obtain ⟨recovered, isOk, _, covers⟩ := recovers outcome opened
  exact ⟨recovered, isOk, covers first (List.mem_singleton_self first)⟩

/-- A crash leaves three bytes of a frame.  The next session opens the log as
an empty store, puts a record behind the torn bytes and closes; afterwards the
scan reads a header across the two and the record is gone. -/
theorem write_behind_torn_tail_lost :
    let opening : Opening := ⟨ascii ['n'], 1000, 0, 12, by decide⟩
    let second : Record := { Record.zero with
      collection := defaultCollection, id := ascii ['y'], clock := ⟨3000, 0⟩
      updatedBy := ascii ['m'] }
    ∃ file written,
      History Zstd.stored (fun _ _ => True) file written ∧ second ∈ written ∧
        ∀ outcome, OpenLog Zstd.stored opening file outcome →
          ∃ recovered, outcome = .ok recovered ∧
            recovered.memory.records.lookup second.key = none := by
  intro opening second
  let first : Record := { Record.zero with
    id := ascii ['x'], clock := ⟨2000, 7⟩, updatedBy := ascii ['m'] }
  let crashed : Session := ⟨opening, [.write (.put first)], .crash 3⟩
  let closed : Session := ⟨opening, [.write (.put second)], .close⟩
  let ls := opening.store [] opening.fresh
  let reopened := opening.store ([] ++ crashed.left Zstd.stored ls) opening.fresh
  have afterCrash : History Zstd.stored (fun _ _ => True) ([] ++ crashed.left Zstd.stored ls)
      ([] ++ crashed.complete Zstd.stored ls) := .session .start (.empty rfl) trivial
  have noFrames : findFrames ([] ++ crashed.left Zstd.stored ls) = [] := by decide +kernel
  have afterClose : History Zstd.stored (fun _ _ => True)
      ([] ++ crashed.left Zstd.stored ls ++ closed.left Zstd.stored reopened)
      ([] ++ crashed.complete Zstd.stored ls ++ closed.complete Zstd.stored reopened) :=
    .session afterCrash (.empty noFrames) trivial
  have hidden : findFrames
      ([] ++ crashed.left Zstd.stored ls ++ closed.left Zstd.stored reopened) = [] := by
    decide +kernel
  refine ⟨_, _, afterClose, by decide +kernel, ?_⟩
  intro outcome opened
  cases opened with
  | empty => exact ⟨_, rfl, rfl⟩
  | replayed someFrames => exact absurd hidden someFrames
  | failed someFrames => exact absurd hidden someFrames

end NellDB
