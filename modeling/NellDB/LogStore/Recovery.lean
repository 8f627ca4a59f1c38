import NellDB.LogStore.Journal
import NellDB.LogStore.Scan

namespace NellDB

open Data

/-! Merging loaded records builds the indexes that the records determine. -/

theorem mergeRecord_records (memory : MemoryStore) (loaded : Record) :
    (mergeRecord memory loaded).records =
      Champion.enter Record.key Record.stamp memory.records loaded.defaulted := by
  cases present : memory.records.lookup loaded.defaulted.key with
  | none => simp [mergeRecord, Champion.enter, present]
  | some existing =>
      simp [mergeRecord, Champion.enter, present, resolveConflict_eq_prefer]

theorem mergeAll_records (memory : MemoryStore) (loaded : List Record) :
    (mergeAll memory loaded).records =
      Champion.enterAll Record.key Record.stamp memory.records
        (loaded.map Record.defaulted) := by
  induction loaded generalizing memory with
  | nil => rfl
  | cons head rest ih =>
      have onward := ih (mergeRecord memory head)
      rw [mergeRecord_records] at onward
      exact onward

theorem mergeRecord_kv (memory : MemoryStore) (loaded : Record) :
    (mergeRecord memory loaded).kv =
      Watermark.raise memory.kv loaded.updatedBy loaded.clock :=
  KnowledgeVector.update_eq_raise memory.kv loaded.updatedBy loaded.clock

theorem mergeAll_kv (memory : MemoryStore) (loaded : List Record) :
    (mergeAll memory loaded).kv =
      Watermark.raiseAll memory.kv (loaded.map Record.report) := by
  induction loaded generalizing memory with
  | nil => rfl
  | cons head rest ih =>
      have onward := ih (mergeRecord memory head)
      rw [mergeRecord_kv] at onward
      exact onward

theorem clock_le_mergeAll {loaded : List Record}
    (room : ∀ r ∈ loaded, r.clock.HasRoom) (memory : MemoryStore) :
    memory.clock ≤ (mergeAll memory loaded).clock := by
  induction loaded generalizing memory with
  | nil => exact le_rfl
  | cons head rest ih =>
      have headRoom := room head List.mem_cons_self
      have first : memory.clock ≤ (mergeRecord memory head).clock :=
        HLC.le_update headRoom memory.clock
      exact first.trans
        (ih (fun r member => room r (List.mem_cons_of_mem head member)) _)

theorem loaded_clock_le_mergeAll {loaded : List Record}
    (room : ∀ r ∈ loaded, r.clock.HasRoom) (memory : MemoryStore)
    {r : Record} (member : r ∈ loaded) :
    r.clock ≤ (mergeAll memory loaded).clock := by
  induction loaded generalizing memory with
  | nil => simp at member
  | cons head rest ih =>
      have restRoom := fun other member => room other (List.mem_cons_of_mem head member)
      rcases List.mem_cons.mp member with rfl | later
      · have first : r.clock ≤ (mergeRecord memory r).clock :=
          (HLC.lt_update (room r member) memory.clock).le
        exact first.trans (clock_le_mergeAll restRoom _)
      · exact ih restRoom _ later

/-- Replay in any order rebuilds what the log determines. -/
theorem Journaled.of_replay {memory : MemoryStore} {log merged : List Record}
    (journaled : Journaled memory log) (perm : merged.Perm log)
    (room : ∀ r ∈ log, r.clock.HasRoom) (nodeID : GoString) (now : Int64) :
    Journaled (mergeAll (newMemoryStore nodeID now) merged) log where
  records := by
    have named : merged.map Record.defaulted = merged := by
      refine (List.map_congr_left ?_).trans (List.map_id merged)
      intro r member
      exact Record.defaulted_of_named (journaled.named r (perm.mem_iff.mp member))
    rw [mergeAll_records, named]
    refine (Champion.enterAll_congr journaled.separated ?_).symm
    exact fun r => perm.mem_iff.symm
  kv := by
    rw [mergeAll_kv]
    refine Watermark.raiseAll_congr ?_ ∅
    exact fun report => (perm.map Record.report).mem_iff
  clock := by
    intro r member
    exact loaded_clock_le_mergeAll (fun other inMerged => room other (perm.mem_iff.mp inMerged))
      _ (perm.mem_iff.mpr member)
  separated := journaled.separated
  named := journaled.named

/-! A log cut at any byte recovers the store right after its last whole frame. -/

structure LastWhole (zstd : Zstd) (memory : MemoryStore) (calls : List Write)
    (cut : Bytes) (survived : List Write) : Prop where
  begins : survived <+: calls
  inside : frames zstd (memory.journal survived) <+: cut
  last : ∀ longer, longer <+: calls →
    frames zstd (memory.journal longer) <+: cut → longer <+: survived

theorem frames_take_journal (zstd : Zstd) (memory : MemoryStore) (calls : List Write)
    (count : Nat) :
    frames zstd (memory.journal (calls.take count)) =
      (((memory.journal calls).map (frame zstd)).take count).flatten := by
  rw [frames, MemoryStore.journal_take, List.map_take]

theorem exists_lastWhole {zstd : Zstd} {memory : MemoryStore} {calls : List Write}
    {cut : Bytes} (isCut : cut <+: frames zstd (memory.journal calls)) :
    ∃ survived torn, LastWhole zstd memory calls cut survived ∧
      Framing.Torn ((memory.journal calls).map (frame zstd)) torn ∧
      cut = frames zstd (memory.journal survived) ++ torn := by
  obtain ⟨torn, isTorn, whole⟩ := Framing.take_flatten_eq
    ((memory.journal calls).map (frame zstd)) cut.length
  have cutEq : cut = ((memory.journal calls).map (frame zstd)).flatten.take cut.length :=
    List.prefix_iff_eq_take.mp isCut
  rw [← frames_take_journal, ← cutEq] at whole
  refine ⟨_, torn, ⟨List.take_prefix _ calls, ⟨torn, whole.symm⟩, ?_⟩, isTorn, whole⟩
  intro longer begins inside
  have longerEq : longer = calls.take longer.length := List.prefix_iff_eq_take.mp begins
  have bound : longer.length ≤ ((memory.journal calls).map (frame zstd)).length := by
    simpa using begins.length_le
  have within := inside.length_le
  rw [longerEq, frames_take_journal] at within
  rw [longerEq]
  exact List.take_prefix_take_left (Framing.le_wholeCount bound within)

structure Recordable (zstd : Zstd) (memory : MemoryStore) (calls : List Write) : Prop where
  room : CountersHaveRoom memory calls
  fits : ∀ call ∈ calls, call.FitsBinary memory.nodeID
  compressed : ∀ r ∈ memory.journal calls,
    (zstd.encodeAll r.marshalBinary).length < 2 ^ 32

theorem openLog_nil {zstd : Zstd} {opening : Opening} {ls : LogStore}
    (opened : OpenLog zstd opening [] (.ok ls)) :
    ls = opening.store [] opening.fresh := by
  cases opened with
  | empty => rfl
  | replayed someFrames => exact absurd rfl someFrames

theorem storedFit_fresh (opening : Opening) : StoredFit opening.fresh := by
  intro position stored found
  simp [Opening.fresh, newMemoryStore] at found

/-- Whatever a cut log replays to is determined by the calls that survived. -/
theorem openLog_cut {zstd : Zstd} {opening : Opening} {calls : List Write}
    (recordable : Recordable zstd opening.fresh calls) {cut : Bytes}
    (isCut : cut <+: frames zstd (opening.fresh.journal calls)) (reopening : Opening) :
    ∃ survived, LastWhole zstd opening.fresh calls cut survived ∧
      (∃ outcome, OpenLog zstd reopening cut outcome) ∧
      ∀ outcome, OpenLog zstd reopening cut outcome →
        ∃ recovered, outcome = .ok recovered ∧
          Journaled recovered.memory (opening.fresh.journal survived) := by
  obtain ⟨survived, torn, lastWhole, isTorn, rfl⟩ := exists_lastWhole isCut
  have survivedEq := List.prefix_iff_eq_take.mp lastWhole.begins
  have subset : ∀ r ∈ opening.fresh.journal survived, r ∈ opening.fresh.journal calls := by
    intro r member
    rw [survivedEq, MemoryStore.journal_take] at member
    exact List.mem_of_mem_take member
  have binary := (storedFit_fresh opening).journal recordable.fits
  have fits : ∀ r ∈ opening.fresh.journal survived, FitsFrame zstd r := by
    intro r member
    exact ⟨binary r (subset r member), recordable.compressed r (subset r member)⟩
  have stops := scanFrames_of_torn recordable.compressed isTorn
  obtain ⟨opens, outcomes⟩ := openLog_outcomes fits stops reopening
  refine ⟨survived, lastWhole, opens, ?_⟩
  intro outcome opened
  obtain ⟨merged, perm, rfl⟩ := outcomes outcome opened
  have room : CountersHaveRoom opening.fresh survived := by
    rw [survivedEq]
    exact recordable.room.take _
  have live := (journaled_newMemoryStore opening.nodeID opening.now).writes room
  exact ⟨_, rfl, live.of_replay perm (fun r member => room.journal member) _ _⟩

theorem openLog_recovers_cut (zstd : Zstd) (opening : Opening) (ls : LogStore)
    (opened : OpenLog zstd opening [] (.ok ls)) (events : List LogEvent)
    (recordable : Recordable zstd ls.memory (events.filterMap LogEvent.call))
    (cut : Bytes) (isCut : cut <+: (ls.run zstd events).writer.stream)
    (reopening : Opening) :
    ∃ survived,
      LastWhole zstd ls.memory (events.filterMap LogEvent.call) cut survived ∧
      (∃ outcome, OpenLog zstd reopening cut outcome) ∧
      ∀ outcome, OpenLog zstd reopening cut outcome →
        ∃ recovered, outcome = .ok recovered ∧
          recovered.memory.records = (ls.memory.writes survived).records ∧
          recovered.memory.kv = (ls.memory.writes survived).kv ∧
          ∀ position stored, recovered.memory.records.lookup position = some stored →
            stored.clock.greaterThan recovered.memory.clock = false := by
  have started := openLog_nil opened
  subst ls
  rw [LogStore.run_stream] at isCut
  obtain ⟨survived, lastWhole, opens, outcomes⟩ := openLog_cut recordable isCut reopening
  refine ⟨survived, lastWhole, opens, ?_⟩
  intro outcome reopened
  obtain ⟨recovered, rfl, replayed⟩ := outcomes outcome reopened
  have room : CountersHaveRoom opening.fresh survived := by
    rw [List.prefix_iff_eq_take.mp lastWhole.begins]
    exact recordable.room.take _
  have live := (journaled_newMemoryStore opening.nodeID opening.now).writes room
  refine ⟨recovered, rfl, replayed.records.trans live.records.symm,
    replayed.kv.trans live.kv.symm, ?_⟩
  intro position stored found
  rw [HLC.greaterThan_eq_false_iff]
  exact replayed.clock stored (replayed.mem_of_lookup found).1

/-- Group commit: a remote record, a local write that replaces it and a
deletion, cut after 300 bytes and replayed by four workers. -/
theorem openLog_recovers_cut_group_commit :
    let opening : Opening := ⟨ascii ['n'], 1000, 50, 12, by decide⟩
    let reopening : Opening := ⟨ascii ['n'], 500, 0, 4, by decide⟩
    let ls := opening.store [] opening.fresh
    let remote : Record := { Record.zero with
      id := ascii ['x'], clock := ⟨2000, 7⟩, updatedBy := ascii ['m'] }
    let document : Record := { Record.zero with id := ascii ['x'], payload := [1, 2] }
    let events : List LogEvent := [.write (.put remote), .flushTick,
      .write (.putLocal document 1500), .write (.delete [] (ascii ['y']) 2500)]
    let cut := (ls.run Zstd.stored events).writer.stream.take 300
    ∃ outcome, OpenLog Zstd.stored reopening cut outcome := by
  intro opening reopening ls remote document events cut
  have sizes : ∀ r ∈ ls.memory.journal (events.filterMap LogEvent.call),
      4 * (30 + r.collection.length + r.id.length + r.type.length +
        r.updatedBy.length + 4 * r.vector.length + r.payload.length) + 9 < 2 ^ 32 := by
    decide
  have recordable : Recordable Zstd.stored ls.memory (events.filterMap LogEvent.call) := by
    refine ⟨by decide, by decide, ?_⟩
    intro r member
    rw [Zstd.length_stored, Record.length_marshalBinary]
    exact sizes r member
  obtain ⟨_, _, opens, _⟩ := openLog_recovers_cut Zstd.stored opening ls
    (.empty rfl) events recordable cut (List.take_prefix 300 _) reopening
  exact opens

theorem LastWhole.eq_all {zstd : Zstd} {memory : MemoryStore} {calls survived : List Write}
    (lastWhole : LastWhole zstd memory calls (frames zstd (memory.journal calls)) survived) :
    survived = calls :=
  have all := lastWhole.last calls List.prefix_rfl List.prefix_rfl
  lastWhole.begins.eq_of_length_le all.length_le

/-- A closed log gives back what the live store held when every call of the
run carries lengths that fit the length fields. -/
theorem openLog_recovers_acknowledged (zstd : Zstd) (opening : Opening) (ls : LogStore)
    (opened : OpenLog zstd opening [] (.ok ls)) (events : List LogEvent)
    (recordable : Recordable zstd ls.memory (events.filterMap LogEvent.call))
    (reopening : Opening) :
    (∃ outcome, OpenLog zstd reopening (ls.run zstd events).close outcome) ∧
      ∀ outcome, OpenLog zstd reopening (ls.run zstd events).close outcome →
        ∃ recovered, outcome = .ok recovered ∧
          ∀ collection id,
            recovered.get collection id = (ls.run zstd events).get collection id := by
  have started := openLog_nil opened
  subst ls
  have closed : ((opening.store [] opening.fresh).run zstd events).close =
      frames zstd (opening.fresh.journal (events.filterMap LogEvent.call)) :=
    LogStore.run_stream zstd _ events
  rw [closed]
  obtain ⟨survived, lastWhole, opens, outcomes⟩ :=
    openLog_cut recordable List.prefix_rfl reopening
  rw [lastWhole.eq_all] at outcomes
  refine ⟨opens, ?_⟩
  intro outcome reopened
  obtain ⟨recovered, rfl, replayed⟩ := outcomes outcome reopened
  have live := (journaled_newMemoryStore opening.nodeID opening.now).writes recordable.room
  have records : recovered.memory.records =
      ((opening.store [] opening.fresh).run zstd events).memory.records := by
    rw [LogStore.run_memory]
    exact replayed.records.trans live.records.symm
  refine ⟨recovered, rfl, ?_⟩
  intro collection id
  simp only [LogStore.get, MemoryStore.get, records]

theorem openLog_recovers_acknowledged_delete :
    let opening : Opening := ⟨ascii ['n'], 1000, 0, 12, by decide⟩
    let ls := opening.store [] opening.fresh
    let document : Record := { Record.zero with id := ascii ['x'], payload := [1, 2] }
    let events : List LogEvent :=
      [.write (.putLocal document 1500), .write (.delete [] (ascii ['x']) 1500)]
    ∃ outcome, OpenLog Zstd.stored opening (ls.run Zstd.stored events).close outcome := by
  intro opening ls document events
  have sizes : ∀ r ∈ ls.memory.journal (events.filterMap LogEvent.call),
      4 * (30 + r.collection.length + r.id.length + r.type.length +
        r.updatedBy.length + 4 * r.vector.length + r.payload.length) + 9 < 2 ^ 32 := by
    decide
  have recordable : Recordable Zstd.stored ls.memory (events.filterMap LogEvent.call) := by
    refine ⟨by decide, by decide, ?_⟩
    intro r member
    rw [Zstd.length_stored, Record.length_marshalBinary]
    exact sizes r member
  exact (openLog_recovers_acknowledged Zstd.stored opening ls (.empty rfl) events
    recordable opening).1

/-! A node id of 65536 bytes is written with the length zero, so its bytes are
read as the count of the vector. -/

def writtenBy (updatedBy : GoString) : Record :=
  { Record.zero with collection := defaultCollection, updatedBy }

private theorem readSized_oversized {rest : Bytes} (short : rest.length < 2 ^ 32) :
    Record.readSized 4 4 .vectorCount .vectorData ([97, 97, 97, 97] ++ rest) =
      .error .vectorData := by
  have size : Record.readField 4 .vectorCount ([97, 97, 97, 97] ++ rest) =
      .ok ([97, 97, 97, 97], rest) := Record.readField_append rfl .vectorCount rest
  have count : fieldValue [97, 97, 97, 97] * 4 = 6535087492 := by decide
  have lacking : rest.length < 6535087492 := by omega
  simp only [Record.readSized, size, bind, Except.bind]
  simp only [Record.readField, count, lacking, if_true]

theorem unmarshalBinary_oversized {filler : Bytes} (sized : filler.length = 65532)
    (clock : HLC) :
    Record.unmarshalBinary
      { writtenBy ([97, 97, 97, 97] ++ filler) with clock }.marshalBinary =
      .error .vectorData := by
  have narrowed : bigEndian 2 ([97, 97, 97, 97] ++ filler : Bytes).length =
      bigEndian 2 0 := by
    rw [List.length_append, sized]
    decide
  have bytes : { writtenBy ([97, 97, 97, 97] ++ filler) with clock }.marshalBinary =
      ([1, 0] ++ clock.encodeBinary) ++ (bigEndian 2 7 ++ defaultCollection ++
        (bigEndian 2 0 ++ [] ++ (bigEndian 2 0 ++ [] ++ (bigEndian 2 0 ++ [] ++
          ([97, 97, 97, 97] ++ (filler ++ (bigEndian 4 0 ++ bigEndian 4 0))))))) := by
    rw [Record.marshalBinary, writtenBy, narrowed]
    simp [Record.zero, Record.floatBytes, defaultCollection, ascii]
  have header : ([1, 0] ++ clock.encodeBinary).length = 14 := by
    rw [List.length_append, HLC.length_encodeBinary]
    rfl
  have vector : Record.readSized 4 4 .vectorCount .vectorData
      ([97, 97, 97, 97] ++ (filler ++ (bigEndian 4 0 ++ bigEndian 4 0))) =
        .error .vectorData := by
    apply readSized_oversized
    simp only [List.length_append, sized, length_bigEndian]
    decide
  have long : ¬ { writtenBy ([97, 97, 97, 97] ++ filler) with clock }.marshalBinary.length <
      14 := by
    rw [Record.length_marshalBinary]
    omega
  rw [bytes] at long ⊢
  simp only [Record.unmarshalBinary, long, if_false, List.drop_left' header, bind,
    Except.bind, pure, Except.pure]
  rw [Record.readSized_append (by decide) rfl]
  simp only []
  rw [Record.readSized_append (by decide) rfl]
  simp only []
  rw [Record.readSized_append (by decide) rfl]
  simp only []
  rw [Record.readSized_append (by decide) rfl]
  simp only [vector]

private theorem openLog_error_of_single {zstd : Zstd} {opening : Opening} {file : Bytes}
    {fr : Frame} {failure : ReplayError} (single : opening.numWorkers = 1)
    (found : findFrames file = [fr])
    (failed : loadFrame zstd (readFile file) fr = .error failure) :
    OpenLog zstd opening file (.error failure) := by
  let reported : ReplayState := ⟨[.reported], [], [failure], false, false, [], none⟩
  have loading : (WorkerPool.start [[fr]] : ReplayState).workers =
      [] ++ .loading [fr] [] :: [] := rfl
  have fail : WorkerPool.Step 1 (loadFrame zstd (readFile file))
      (WorkerPool.start [[fr]]) reported := .fail loading failed Nat.zero_lt_one
  let returned : ReplayState :=
    { reported with errs := [], returned := some (some failure) }
  have take : WorkerPool.Step 1 (loadFrame zstd (readFile file)) reported returned :=
    .takeErr rfl rfl
  have chunks : workerChunks 1 [fr] = [[fr]] := by simp [workerChunks, chunksFrom]
  have replays : Replays zstd (readFile file)
      (replayPlan opening.numWorkers opening.positive (findFrames file)) returned := by
    change WorkerPool.Reaches opening.numWorkers _
      (WorkerPool.start (workerChunks opening.numWorkers (findFrames file))) _
    rw [found, single, chunks]
    exact (Relation.ReflTransGen.single fail).tail take
  exact .failed (by simp [found]) replays rfl

theorem openLog_error_of_undecodable {zstd : Zstd} {opening : Opening} {r : Record}
    {failure : Record.DecodeError} (single : opening.numWorkers = 1)
    (compressed : (zstd.encodeAll r.marshalBinary).length < 2 ^ 32)
    (undecodable : Record.unmarshalBinary r.marshalBinary = .error failure) :
    OpenLog zstd opening (frame zstd r) (.error (.unmarshal failure)) := by
  have positive : (frame zstd r).length = (frame zstd r).length - 1 + 1 := by
    rw [length_frame]
    omega
  obtain ⟨uncompLen, scanned⟩ :=
    scanFrames_frame compressed ((frame zstd r).length - 1) 0 []
  rw [scanFrames_nil, ← positive, List.append_nil] at scanned
  apply openLog_error_of_single single scanned
  have inside : 0 + 8 + (zstd.encodeAll r.marshalBinary).length ≤
      (frame zstd r).length := by
    rw [length_frame]
  have found : (frame zstd r).drop (0 + 8) = zstd.encodeAll r.marshalBinary := by
    simpa using drop_frame zstd r []
  simp only [loadFrame, readFile, inside, if_true, found, List.take_length,
    zstd.decodeAll_encodeAll, undecodable]

theorem openLog_oversized (opening : Opening) (single : opening.numWorkers = 1)
    {rest : Bytes}
    (sized : rest.length = 65532) :
    let ls := opening.store [] opening.fresh
    let r := writtenBy ([97, 97, 97, 97] ++ rest)
    let live := (ls.put Zstd.stored r).2.2
    live.get defaultCollection [] = .ok r ∧
      OpenLog Zstd.stored opening live.close (.error (.unmarshal .vectorData)) := by
  intro ls r live
  have undecodable : Record.unmarshalBinary r.marshalBinary = .error .vectorData :=
    unmarshalBinary_oversized sized HLC.zero
  have writer : r.updatedBy.length = 65536 := by
    change ([97, 97, 97, 97] ++ rest : Bytes).length = 65536
    rw [List.length_append, sized]
    rfl
  have compressed : (Zstd.stored.encodeAll r.marshalBinary).length < 2 ^ 32 := by
    have others : r.collection.length = 7 ∧ r.id.length = 0 ∧ r.type.length = 0 ∧
        r.vector.length = 0 ∧ r.payload.length = 0 := ⟨rfl, rfl, rfl, rfl, rfl⟩
    rw [Zstd.length_stored, Record.length_marshalBinary]
    omega
  have file : live.close = frame Zstd.stored r :=
    LogStore.append_stream Zstd.stored { ls with memory := (ls.memory.put r).2.2 } r
  have stored : live.memory = (ls.memory.put r).2.2 :=
    LogStore.append_memory Zstd.stored { ls with memory := (ls.memory.put r).2.2 } r
  refine ⟨?_, ?_⟩
  · rw [LogStore.get, stored]
    rfl
  · rw [file]
    exact openLog_error_of_undecodable single compressed undecodable

/-- A put of such a record is acknowledged and served by the live store, and
the closed log may then fail to open. -/
theorem acknowledged_put_not_recovered :
    let opening : Opening := ⟨ascii ['n'], 1000, 0, 1, by decide⟩
    let ls := opening.store [] opening.fresh
    let r := writtenBy ([97, 97, 97, 97] ++ List.replicate 65532 97)
    let live := (ls.put Zstd.stored r).2.2
    OpenLog Zstd.stored opening [] (.ok ls) ∧
      live.get defaultCollection [] = .ok r ∧
      OpenLog Zstd.stored opening live.close (.error (.unmarshal .vectorData)) := by
  intro opening ls r live
  exact ⟨.empty rfl, openLog_oversized opening rfl List.length_replicate⟩

end NellDB
