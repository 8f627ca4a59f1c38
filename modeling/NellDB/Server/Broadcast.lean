import NellDB.Server.Push

namespace NellDB

open Data

/-! What the push handlers hand to `broadcast`: three handlers, three conditions. -/

namespace MemoryStore

/-- The record beats whatever is stored at its key. -/
def Newer (s : MemoryStore) (r : Record) : Prop :=
  ∀ existing, s.records.lookup r.defaulted.key = some existing → Beats r.defaulted existing

theorem put_accepts_iff_newer (s : MemoryStore) (r : Record) :
    (s.put r).1 = true ↔ s.Newer r := by
  rw [put_accepts_iff]
  unfold Newer
  simp only [beats_iff]

theorem records_afterPut_of_newer {s : MemoryStore} {r : Record} (newer : s.Newer r) :
    (s.afterPut r).records = s.records.insert r.defaulted.key r.defaulted := by
  rw [afterPut_records]
  apply Champion.enter_eq_insert
  intro existing present
  exact .inr ((beats_iff _ _).mp (newer existing present))

theorem records_afterPut_of_not_newer {s : MemoryStore} {r : Record} (stale : ¬ s.Newer r) :
    (s.afterPut r).records = s.records := by
  obtain ⟨existing, notBeaten⟩ := not_forall.mp stale
  obtain ⟨present, kept⟩ := Classical.not_imp.mp notBeaten
  rw [beats_iff] at kept
  rw [afterPut_records, Champion.enter, present]
  simp only [Champion.prefer, kept, if_false]
  exact FiniteMap.insert_of_lookup present

/-- After a record was accepted, a later one must beat it as well. -/
theorem newer_afterPut_iff {s : MemoryStore} {r : Record} (newer : s.Newer r)
    (later : Record) :
    (s.afterPut r).Newer later ↔
      s.Newer later ∧
        (r.defaulted.key = later.defaulted.key → Beats later.defaulted r.defaulted) := by
  unfold Newer
  rw [records_afterPut_of_newer newer]
  by_cases same : r.defaulted.key = later.defaulted.key
  · rw [← same, Finmap.lookup_insert]
    constructor
    · intro beatsAll
      have beats := beatsAll r.defaulted rfl
      refine ⟨?_, fun _ => beats⟩
      intro existing present
      have below := (beats_iff _ _).mp (newer existing present)
      exact (beats_iff _ _).mpr (below.trans ((beats_iff _ _).mp beats))
    · rintro ⟨_, beats⟩ stored found
      cases found
      exact beats rfl
  · rw [Finmap.lookup_insert_of_ne _ (Ne.symm same)]
    simp [same]

end MemoryStore

/-- Every record of the batch is newer than what is stored at its key, and than
every earlier record of the batch with the same key. -/
structure AllNewer (s : MemoryStore) (changes : List Record) : Prop where
  overStored : ∀ r ∈ changes, s.Newer r
  overEarlier : changes.Pairwise fun earlier later =>
    earlier.defaulted.key = later.defaulted.key → Beats later.defaulted earlier.defaulted

/-- For every record of the batch something as new is stored at its key. -/
def NoneNewer (s : MemoryStore) (changes : List Record) : Prop :=
  ∀ r ∈ changes, ¬ s.Newer r

theorem allNewer_cons_iff (s : MemoryStore) (r : Record) (rest : List Record) :
    AllNewer s (r :: rest) ↔ s.Newer r ∧ AllNewer (s.afterPut r) rest := by
  constructor
  · rintro ⟨overStored, overEarlier⟩
    have newer := overStored r List.mem_cons_self
    obtain ⟨overFirst, overOthers⟩ := List.pairwise_cons.mp overEarlier
    refine ⟨newer, ?_, overOthers⟩
    intro later member
    exact (MemoryStore.newer_afterPut_iff newer later).mpr
      ⟨overStored later (List.mem_cons_of_mem r member), overFirst later member⟩
  · rintro ⟨newer, overStored, overEarlier⟩
    refine ⟨?_, List.pairwise_cons.mpr ⟨?_, overEarlier⟩⟩
    · intro later member
      rcases List.mem_cons.mp member with rfl | inRest
      · exact newer
      · exact ((MemoryStore.newer_afterPut_iff newer later).mp (overStored later inRest)).1
    · intro later member
      exact ((MemoryStore.newer_afterPut_iff newer later).mp (overStored later member)).2

theorem noneNewer_cons_iff (s : MemoryStore) (r : Record) (rest : List Record) :
    NoneNewer s (r :: rest) ↔ ¬ s.Newer r ∧ NoneNewer (s.afterPut r) rest := by
  unfold NoneNewer
  rw [List.forall_mem_cons]
  refine and_congr_right fun stale => ?_
  unfold MemoryStore.Newer
  rw [MemoryStore.records_afterPut_of_not_newer stale]

namespace Server

/-- The records of a batch whose `Put` returned accepted, in batch order. -/
def acceptedOf (server : Server) : List Record → List Record
  | [] => []
  | r :: rest =>
      if (server.store.put r).1 then
        r :: (server.ingest r).acceptedOf rest
      else
        (server.ingest r).acceptedOf rest

/-- `handlePush` broadcasts the request as it came. -/
def pushBroadcast (changes : List Record) : Option (List Record) := some changes

/-- `handleWebSocket` broadcasts the request if anything in it was accepted. -/
def webSocketBroadcast (server : Server) (changes : List Record) : Option (List Record) :=
  if (server.applyChanges changes).1 > 0 then some changes else none

/-- The loop of `handleBinPush` with its list of accepted records. -/
def collectAccepted (server : Server) (acceptedRecs : List Record) :
    List Record → List Record
  | [] => acceptedRecs
  | r :: rest =>
      let acceptedRecs := if (server.store.put r).1 then acceptedRecs ++ [r] else acceptedRecs
      (server.ingest r).collectAccepted acceptedRecs rest

def binPushBroadcast (server : Server) (body : Bytes) : Option (List Record) :=
  let acceptedRecs := server.collectAccepted [] (decodePush body.length body)
  if acceptedRecs.length > 0 then some acceptedRecs else none

/-- What the handlers should hand over: the accepted records, or nothing. -/
def acceptedBroadcast (server : Server) (changes : List Record) : Option (List Record) :=
  if server.acceptedOf changes = [] then none else some (server.acceptedOf changes)

theorem acceptedOf_sublist (server : Server) (changes : List Record) :
    (server.acceptedOf changes).Sublist changes := by
  induction changes generalizing server with
  | nil => exact List.Sublist.refl []
  | cons r rest ih =>
      have onward := ih (server.ingest r)
      unfold acceptedOf
      split
      next => exact onward.cons_cons r
      next => exact onward.cons r

theorem applyChanges_count (server : Server) (changes : List Record) :
    (server.applyChanges changes).1 = (server.acceptedOf changes).length := by
  induction changes generalizing server with
  | nil => rfl
  | cons r rest ih =>
      have onward := ih (server.ingest r)
      rw [applyChanges, acceptedOf]
      dsimp only
      split
      next => rw [onward, List.length_cons]
      next => exact onward

theorem collectAccepted_eq (server : Server) (acceptedRecs changes : List Record) :
    server.collectAccepted acceptedRecs changes = acceptedRecs ++ server.acceptedOf changes := by
  induction changes generalizing server acceptedRecs with
  | nil => exact (List.append_nil acceptedRecs).symm
  | cons r rest ih =>
      rw [collectAccepted, acceptedOf, ih]
      split
      next => rw [List.append_assoc, List.singleton_append]
      next => rfl

theorem acceptedOf_eq_self_iff (server : Server) (changes : List Record) :
    server.acceptedOf changes = changes ↔ AllNewer server.store changes := by
  induction changes generalizing server with
  | nil => simp [acceptedOf, AllNewer.mk]
  | cons r rest ih =>
      have onward := ih (server.ingest r)
      rw [allNewer_cons_iff, ← MemoryStore.put_accepts_iff_newer, acceptedOf]
      split
      next accepted =>
          rw [List.cons.injEq, onward]
          simp [accepted, ingest]
      next rejected =>
          have short := ((server.ingest r).acceptedOf_sublist rest).length_le
          constructor
          · intro same
            rw [same, List.length_cons] at short
            omega
          · rintro ⟨accepted, _⟩
            exact absurd accepted rejected

theorem acceptedOf_eq_nil_iff (server : Server) (changes : List Record) :
    server.acceptedOf changes = [] ↔ NoneNewer server.store changes := by
  induction changes generalizing server with
  | nil => simp [acceptedOf, NoneNewer]
  | cons r rest ih =>
      have onward := ih (server.ingest r)
      rw [noneNewer_cons_iff, ← MemoryStore.put_accepts_iff_newer, acceptedOf]
      split
      next accepted => simp [accepted]
      next rejected =>
          rw [onward]
          simp [rejected, ingest]

theorem pushBroadcast_exact_iff (server : Server) (changes : List Record) :
    pushBroadcast changes = server.acceptedBroadcast changes ↔
      changes ≠ [] ∧ AllNewer server.store changes := by
  rw [← acceptedOf_eq_self_iff, pushBroadcast, acceptedBroadcast]
  split
  next none =>
      rw [none]
      simp only [reduceCtorEq, false_iff, not_and]
      exact fun nonempty same => nonempty same.symm
  next some =>
      rw [Option.some.injEq]
      constructor
      · intro same
        rw [← same] at some
        exact ⟨some, same.symm⟩
      · exact fun ⟨_, same⟩ => same.symm

theorem webSocketBroadcast_exact_iff (server : Server) (changes : List Record) :
    server.webSocketBroadcast changes = server.acceptedBroadcast changes ↔
      AllNewer server.store changes ∨ NoneNewer server.store changes := by
  rw [← acceptedOf_eq_self_iff, ← acceptedOf_eq_nil_iff, webSocketBroadcast,
    applyChanges_count, acceptedBroadcast]
  split
  next some =>
      have nonempty := List.ne_nil_of_length_pos some
      rw [if_neg nonempty, Option.some.injEq, or_iff_left nonempty]
      exact eq_comm
  next none =>
      have empty := List.length_eq_zero_iff.mp (Nat.eq_zero_of_not_pos none)
      rw [if_pos empty]
      simp [empty]

theorem binPushBroadcast_exact (server : Server) (body : Bytes) :
    server.binPushBroadcast body =
      server.acceptedBroadcast (decodePush body.length body) := by
  unfold binPushBroadcast acceptedBroadcast
  rw [collectAccepted_eq, List.nil_append]
  simp only [gt_iff_lt, List.length_pos_iff, ne_eq, ite_not]

end Server

/-- The binary handler broadcasts the accepted records; `handlePush` does so only
for a batch that is accepted as a whole, the WebSocket handler also for one of
which nothing is accepted. -/
theorem broadcast_accepted_iff (server : Server) (changes : List Record) (body : Bytes) :
    (Server.pushBroadcast changes = server.acceptedBroadcast changes ↔
      changes ≠ [] ∧ AllNewer server.store changes) ∧
    (server.webSocketBroadcast changes = server.acceptedBroadcast changes ↔
      AllNewer server.store changes ∨ NoneNewer server.store changes) ∧
    server.binPushBroadcast body =
      server.acceptedBroadcast (Server.decodePush body.length body) :=
  ⟨server.pushBroadcast_exact_iff changes, server.webSocketBroadcast_exact_iff changes,
    server.binPushBroadcast_exact body⟩

/-- The server holds a newer version of `x`: a push of the old one is broadcast
although nothing is accepted, and a message that brings a new `y` along
broadcasts the old `x` with it. -/
theorem stale_record_broadcast :
    let server := newServer
      ((newMemoryStore (ascii ['s']) 1000).afterPut (plainNote (ascii ['x']) 3000)) (ascii ['s'])
    let stale := plainNote (ascii ['x']) 2000
    let fresh := plainNote (ascii ['y']) 2001
    (server.acceptedBroadcast [stale] = none ∧
      Server.pushBroadcast [stale] = some [stale]) ∧
    (server.acceptedBroadcast [stale, fresh] = some [fresh] ∧
      server.webSocketBroadcast [stale, fresh] = some [stale, fresh]) := by
  decide +kernel

end NellDB
