import NellDB.LogStore.Append

namespace NellDB

open Data

def Record.report (r : Record) : GoString × HLC := (r.updatedBy, r.clock)

/-- The indexes are determined by the appended records alone. -/
structure Journaled (memory : MemoryStore) (log : List Record) : Prop where
  records : memory.records = Champion.enterAll Record.key Record.stamp ∅ log
  kv : memory.kv = Watermark.raiseAll ∅ (log.map Record.report)
  clock : ∀ r ∈ log, r.clock ≤ memory.clock
  separated : Champion.Separated Record.key Record.stamp (· ∈ log)
  named : ∀ r ∈ log, r.collection ≠ []

def Write.HasRoom (memory : MemoryStore) : Write → Prop
  | .put incoming => incoming.clock.HasRoom
  | .putLocal _ _ => memory.clock.HasRoom
  | .delete _ _ _ => memory.clock.HasRoom

instance (memory : MemoryStore) : (call : Write) → Decidable (call.HasRoom memory)
  | .put _ => inferInstanceAs (Decidable (HLC.HasRoom _))
  | .putLocal _ _ => inferInstanceAs (Decidable (HLC.HasRoom _))
  | .delete _ _ _ => inferInstanceAs (Decidable (HLC.HasRoom _))

/-- No counter that the writes read or write reaches its last value. -/
def CountersHaveRoom (memory : MemoryStore) : List Write → Prop
  | [] => True
  | call :: rest =>
      call.HasRoom memory ∧ (memory.write call).1.clock.HasRoom ∧
        CountersHaveRoom (memory.write call).2 rest

instance decidableCountersHaveRoom (memory : MemoryStore) :
    (calls : List Write) → Decidable (CountersHaveRoom memory calls)
  | [] => .isTrue trivial
  | call :: rest =>
      have := decidableCountersHaveRoom (memory.write call).2 rest
      inferInstanceAs (Decidable (_ ∧ _ ∧ _))

theorem journaled_newMemoryStore (nodeID : GoString) (now : Int64) :
    Journaled (newMemoryStore nodeID now) [] where
  records := rfl
  kv := rfl
  clock := by simp
  separated := by simp [Champion.Separated]
  named := by simp

namespace Journaled

theorem mem_of_lookup {memory : MemoryStore} {log : List Record}
    (journaled : Journaled memory log) {position : GoString} {stored : Record}
    (found : memory.records.lookup position = some stored) :
    stored ∈ log ∧ stored.key = position := by
  rw [journaled.records] at found
  have champion := Champion.isChampion_enterAll found
  exact ⟨champion.member, champion.placed⟩

/-- Appending the record that a write leaves at its key keeps the indexes
determined by the log. -/
theorem concat {memory next : MemoryStore} {log : List Record} {r : Record}
    (journaled : Journaled memory log)
    (records : next.records = memory.records.insert r.key r)
    (kv : next.kv = memory.kv.update r.updatedBy r.clock)
    (dominates : ∀ current, memory.records.lookup r.key = some current →
      current = r ∨ current.stamp < r.stamp)
    (advanced : memory.clock ≤ next.clock) (reached : r.clock ≤ next.clock)
    (named : r.collection ≠ []) : Journaled next (log ++ [r]) where
  records := by
    rw [records, ← Champion.enter_eq_insert dominates, journaled.records]
    simp [Champion.enterAll]
  kv := by
    rw [kv, KnowledgeVector.update_eq_raise, journaled.kv]
    simp [Watermark.raiseAll, Record.report]
  clock := by
    intro member inLog
    rcases List.mem_append.mp inLog with earlier | last
    · exact (journaled.clock member earlier).trans advanced
    · rw [List.mem_singleton.mp last]
      exact reached
  separated := by
    have absorbs : ∀ other ∈ log, other.key = r.key → other.stamp = r.stamp →
        other = r := by
      intro other member sameKey sameStamp
      obtain ⟨current, found, above⟩ :=
        Champion.covers_enterAll_of_mem Record.key Record.stamp ∅ member
      rw [← journaled.records, sameKey] at found
      rcases dominates current found with rfl | below
      · have currentMember := (journaled.mem_of_lookup found).1
        exact journaled.separated other current member currentMember sameKey sameStamp
      · exact absurd (above.trans_lt below) (by simp [sameStamp])
    intro first second firstMember secondMember sameKey sameStamp
    rcases List.mem_append.mp firstMember with inFirst | lastFirst <;>
      rcases List.mem_append.mp secondMember with inSecond | lastSecond
    · exact journaled.separated first second inFirst inSecond sameKey sameStamp
    · rw [List.mem_singleton] at lastSecond
      subst second
      exact absorbs first inFirst sameKey sameStamp
    · rw [List.mem_singleton] at lastFirst
      subst first
      exact (absorbs second inSecond sameKey.symm sameStamp.symm).symm
    · rw [List.mem_singleton.mp lastFirst, List.mem_singleton.mp lastSecond]
  named := by
    intro member inLog
    rcases List.mem_append.mp inLog with earlier | last
    · exact journaled.named member earlier
    · rw [List.mem_singleton.mp last]
      exact named

theorem outranked {memory : MemoryStore} {log : List Record}
    (journaled : Journaled memory log) (room : memory.clock.HasRoom) (now : Int64)
    {position : GoString} {current written : Record}
    (found : memory.records.lookup position = some current)
    (clock : written.clock = memory.clock.tick now) : current.stamp < written.stamp := by
  have member := (journaled.mem_of_lookup found).1
  have ticked := HLC.lt_tick room now
  apply Record.stamp_lt_of_clock_lt
  rw [clock]
  exact (journaled.clock current member).trans_lt ticked

theorem put {memory : MemoryStore} {log : List Record}
    (journaled : Journaled memory log) (incoming : Record)
    (room : incoming.clock.HasRoom) :
    Journaled (memory.put incoming).2.2 (log ++ [(memory.put incoming).2.1]) := by
  have advanced : memory.clock ≤ memory.clock.update incoming.defaulted.clock :=
    HLC.le_update room memory.clock
  have reached : incoming.clock ≤ memory.clock.update incoming.defaulted.clock :=
    (HLC.lt_update room memory.clock).le
  have named : incoming.defaulted.collection ≠ [] := orDefault_ne_nil incoming.collection
  unfold MemoryStore.put
  dsimp only
  split
  next absent =>
      exact journaled.concat rfl rfl (by simp [absent]) advanced reached named
  next existing present =>
      obtain ⟨member, placed⟩ := journaled.mem_of_lookup present
      unfold resolveConflict
      split
      next wins =>
          refine journaled.concat rfl rfl ?_ advanced reached named
          intro current found
          rw [present, Option.some.injEq] at found
          subst current
          exact .inr ((incomingWins_iff _ _).mp wins)
      next =>
          refine journaled.concat (by rw [placed]) rfl ?_ advanced
            ((journaled.clock existing member).trans advanced)
            (journaled.named existing member)
          intro current found
          rw [placed, present, Option.some.injEq] at found
          exact .inl found.symm

theorem putLocal {memory : MemoryStore} {log : List Record}
    (journaled : Journaled memory log) (room : memory.clock.HasRoom)
    (document : Record) (now : Int64) :
    Journaled (memory.putLocal document now).2
      (log ++ [(memory.putLocal document now).1]) := by
  refine journaled.concat rfl rfl ?_ (HLC.lt_tick room now).le le_rfl
    (orDefault_ne_nil document.collection)
  intro current found
  exact .inr (journaled.outranked room now found rfl)

theorem delete_key {memory : MemoryStore} {log : List Record}
    (journaled : Journaled memory log) (collection id : GoString) (now : Int64) :
    (memory.delete collection id now).1.key = flatKey (orDefault collection) id := by
  cases present : memory.records.lookup (flatKey (orDefault collection) id) with
  | none => simp [MemoryStore.delete, present, Record.key]
  | some stored =>
      have placed := (journaled.mem_of_lookup present).2
      simpa [MemoryStore.delete, present, Record.key] using placed

theorem delete_named {memory : MemoryStore} {log : List Record}
    (journaled : Journaled memory log) (collection id : GoString) (now : Int64) :
    (memory.delete collection id now).1.collection ≠ [] := by
  cases present : memory.records.lookup (flatKey (orDefault collection) id) with
  | none => simpa [MemoryStore.delete, present] using orDefault_ne_nil collection
  | some stored =>
      have member := (journaled.mem_of_lookup present).1
      simpa [MemoryStore.delete, present] using journaled.named stored member

theorem delete {memory : MemoryStore} {log : List Record}
    (journaled : Journaled memory log) (room : memory.clock.HasRoom)
    (collection id : GoString) (now : Int64) :
    Journaled (memory.delete collection id now).2
      (log ++ [(memory.delete collection id now).1]) := by
  refine journaled.concat ?_ rfl ?_ (HLC.lt_tick room now).le le_rfl
    (journaled.delete_named collection id now)
  · rw [journaled.delete_key]
    rfl
  · intro current found
    exact .inr (journaled.outranked room now found rfl)

theorem write {memory : MemoryStore} {log : List Record}
    (journaled : Journaled memory log) {call : Write} (room : call.HasRoom memory) :
    Journaled (memory.write call).2 (log ++ [(memory.write call).1]) := by
  cases call with
  | put incoming => exact journaled.put incoming room
  | putLocal document now => exact journaled.putLocal room document now
  | delete collection id now => exact journaled.delete room collection id now

theorem writes {memory : MemoryStore} {log : List Record}
    (journaled : Journaled memory log) {calls : List Write}
    (room : CountersHaveRoom memory calls) :
    Journaled (memory.writes calls) (log ++ memory.journal calls) := by
  induction calls generalizing memory log with
  | nil =>
      rw [MemoryStore.journal, List.append_nil]
      exact journaled
  | cons call rest ih =>
      obtain ⟨callRoom, _, restRoom⟩ := room
      have onward := ih (journaled.write callRoom) restRoom
      rw [List.append_assoc] at onward
      exact onward

end Journaled

theorem CountersHaveRoom.take {memory : MemoryStore} {calls : List Write}
    (room : CountersHaveRoom memory calls) (count : Nat) :
    CountersHaveRoom memory (calls.take count) := by
  induction calls generalizing memory count with
  | nil => simpa using room
  | cons call rest ih =>
      cases count with
      | zero => trivial
      | succ count =>
          obtain ⟨callRoom, written, restRoom⟩ := room
          exact ⟨callRoom, written, ih restRoom count⟩

theorem CountersHaveRoom.journal {memory : MemoryStore} {calls : List Write}
    (room : CountersHaveRoom memory calls) {r : Record}
    (member : r ∈ memory.journal calls) : r.clock.HasRoom := by
  induction calls generalizing memory with
  | nil => simp [MemoryStore.journal] at member
  | cons call rest ih =>
      obtain ⟨_, written, restRoom⟩ := room
      rcases List.mem_cons.mp member with rfl | later
      · exact written
      · exact ih restRoom later

/-! Which records a run of calls appends, in terms of what the calls carry. -/

/-- Every string and slice that the call brings into the store fits its length
field. -/
def Write.FitsBinary (nodeID : GoString) : Write → Prop
  | .put incoming => incoming.FitsBinary
  | .putLocal document _ => { document with updatedBy := nodeID }.FitsBinary
  | .delete collection id _ =>
      { Record.zero with collection, id, updatedBy := nodeID }.FitsBinary

instance (nodeID : GoString) : (call : Write) → Decidable (call.FitsBinary nodeID)
  | .put _ => inferInstanceAs (Decidable (Record.FitsBinary _))
  | .putLocal _ _ => inferInstanceAs (Decidable (Record.FitsBinary _))
  | .delete _ _ _ => inferInstanceAs (Decidable (Record.FitsBinary _))

theorem length_orDefault_lt {collection : GoString} (fits : collection.length < 2 ^ 16) :
    (orDefault collection).length < 2 ^ 16 := by
  unfold orDefault
  split
  next => decide
  next => exact fits

theorem Record.FitsBinary.defaulted {r : Record} (fits : r.FitsBinary) :
    r.defaulted.FitsBinary :=
  ⟨length_orDefault_lt fits.collection, fits.id, fits.type, fits.updatedBy, fits.vector,
    fits.payload⟩

def StoredFit (memory : MemoryStore) : Prop :=
  ∀ position stored, memory.records.lookup position = some stored → stored.FitsBinary

theorem write_fits {memory : MemoryStore} (storedFit : StoredFit memory) {call : Write}
    (fits : call.FitsBinary memory.nodeID) : (memory.write call).1.FitsBinary := by
  cases call with
  | put incoming =>
      cases present : memory.records.lookup incoming.defaulted.key with
      | none =>
          simpa [MemoryStore.write, MemoryStore.put, present] using
            Record.FitsBinary.defaulted fits
      | some existing =>
          have existingFits := storedFit _ existing present
          have incomingFits := Record.FitsBinary.defaulted fits
          simp only [MemoryStore.write, MemoryStore.put, present, resolveConflict]
          split
          next => exact incomingFits
          next => exact existingFits
  | putLocal document now =>
      have written := Record.FitsBinary.defaulted fits
      exact ⟨written.collection, written.id, written.type, written.updatedBy,
        written.vector, written.payload⟩
  | delete collection id now =>
      have named := Record.FitsBinary.defaulted fits
      cases present : memory.records.lookup (flatKey (orDefault collection) id) with
      | none =>
          simp only [MemoryStore.write, MemoryStore.delete, present]
          exact ⟨named.collection, named.id, named.type, named.updatedBy, named.vector,
            named.payload⟩
      | some stored =>
          have base := storedFit _ stored present
          simp only [MemoryStore.write, MemoryStore.delete, present]
          exact ⟨base.collection, base.id, base.type, named.updatedBy, base.vector,
            base.payload⟩

theorem StoredFit.write {memory : MemoryStore} (storedFit : StoredFit memory)
    {call : Write} (fits : call.FitsBinary memory.nodeID) :
    StoredFit (memory.write call).2 := by
  intro position stored found
  rcases MemoryStore.lookup_write_source found with ⟨_, rfl⟩ | before
  · exact write_fits storedFit fits
  · exact storedFit position stored before

theorem StoredFit.journal {memory : MemoryStore} (storedFit : StoredFit memory)
    {calls : List Write} (fits : ∀ call ∈ calls, call.FitsBinary memory.nodeID) :
    ∀ r ∈ memory.journal calls, r.FitsBinary := by
  induction calls generalizing memory with
  | nil => simp [MemoryStore.journal]
  | cons call rest ih =>
      have callFits := fits call List.mem_cons_self
      have restFits : ∀ other ∈ rest,
          other.FitsBinary (memory.write call).2.nodeID := by
        intro other member
        rw [MemoryStore.write_nodeID]
        exact fits other (List.mem_cons_of_mem call member)
      intro r member
      rcases List.mem_cons.mp member with rfl | later
      · exact write_fits storedFit callFits
      · exact ih (storedFit.write callFits) restFits r later

end NellDB
