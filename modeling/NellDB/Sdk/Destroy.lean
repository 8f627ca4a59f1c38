import NellDB.Sdk.History
import NellDB.Sdk.Pull

namespace NellDB

open Data

/-! `Destroy`: a tombstone for every document, then the bookkeeping is cleared. -/

namespace DocDB

/-- The loop of `Destroy` over the records that `List` returned; each call of `Remove`
finds its own environment. -/
def destroyEach (platform : Platform) (envs : Nat → CallEnv) :
    (index : Nat) → DocDB → List Record → Option SdkError × DocDB
  | _, db, [] => (none, db)
  | index, db, r :: rest =>
      if isInternalID r.id then
        destroyEach platform envs (index + 1) db rest
      else
        match db.store.get db.collection r.id with
        | .error _ => destroyEach platform envs (index + 1) db rest
        | .ok _ =>
            match db.remove platform (envs index) r.id [] with
            | (.error failure, db) => (some failure, db)
            | (.ok _, db) => destroyEach platform envs (index + 1) db rest

def destroy (platform : Platform) (envs : Nat → CallEnv) (db : DocDB) (all : List Record) :
    Option SdkError × DocDB :=
  match db.destroyEach platform envs 0 all with
  | (some failure, db) => (some failure, db)
  | (none, db) => (none, { db with revs := ∅, lastSeenClock := HLC.zero, vector := ∅ })

section

variable {platform : Platform} {db next : DocDB} {env : CallEnv} {id : GoString} {r : Record}

/-- A removal by id goes ahead unless the context is cancelled or the id is empty. -/
theorem prepareRemove_plain (active : env.cancelled = false) (identified : id ≠ []) :
    ∃ rev tombstone, db.prepareRemove platform env id [] = .ok (rev, tombstone) := by
  simp [prepareRemove, active, identified, baseRev, bind, Except.bind, pure, Except.pure]

theorem prepareRemove_unidentified (active : env.cancelled = false) :
    db.prepareRemove platform env [] [] = .error .missingID := by
  simp [prepareRemove, active, bind, Except.bind, throw, throwThe, MonadExceptOf.throw]

/-- What a removal leaves behind. -/
structure Removed (db : DocDB) (id : GoString) (next : DocDB) : Prop where
  collection : next.collection = db.collection
  single : SingleCollection next.store next.collection
  gone : ∃ tombstone, next.stored id = some tombstone ∧ tombstone.deleted = true
  others : ∀ other, isInternalID other = false → other ≠ id → next.stored other = db.stored other
  covers : ∀ {r}, db.store.Covers r → next.store.Covers r

theorem removed_remove (single : SingleCollection db.store db.collection)
    (active : env.cancelled = false) (identified : id ≠ []) (document : isInternalID id = false)
    (past : db.StampsPast env id) :
    ∃ rev next, db.remove platform env id [] = (.ok rev, next) ∧ db.Removed id next := by
  obtain ⟨rev, tombstone, ready⟩ := @prepareRemove_plain platform db env id active identified
  have prepared := prepareRemove_ok single.wellFormed ready
  have inside := prepared.written.inside rfl single
  have isID := prepared.written.id_eq inside
  refine ⟨rev, db.commit platform env tombstone id rev db.nodeID, ?_, ?_⟩
  · rw [remove, ready]
  · exact {
      collection := commit_collection platform db env tombstone id rev db.nodeID
      single := by
        rw [commit_collection]
        exact single.commit rfl inside platform env id rev db.nodeID
      gone := by
        refine ⟨tombstone, ?_, prepared.deleted⟩
        rw [commit_stored _ _ _ _ _ _ _ document]
        exact prepared.written.lookup_afterPut_of_past past
      others := by
        intro other isDocument different
        rw [commit_stored _ _ _ _ _ _ _ isDocument]
        exact lookup_afterPut_of_ne db.store inside db.named (isID ▸ different)
      covers := fun covers => covers_commit covers tombstone rev db.nodeID }

end

/-- What the loop relies on: the documents still to come are stored as they were
listed, and can be overtaken. -/
structure Destroyable (envs : Nat → CallEnv) (db : DocDB) (all : List Record) : Prop where
  single : SingleCollection db.store db.collection
  active : ∀ index, (envs index).cancelled = false
  distinct : (all.map Record.id).Nodup
  held : ∀ r ∈ all, isInternalID r.id = false → db.stored r.id = some r
  past : ∀ r ∈ all, ∀ index, r.clock.wallTime < (envs index).fresh ∨
    r.clock.wallTime < (envs index).tick ∨ r.clock.HasRoomForTwo

def Identified (all : List Record) : Prop := ∀ r ∈ all, isInternalID r.id = false → r.id ≠ []

structure Emptied (db : DocDB) (all : List Record) (next : DocDB) : Prop where
  collection : next.collection = db.collection
  gone : ∀ r ∈ all, isInternalID r.id = false →
    ∃ tombstone, next.stored r.id = some tombstone ∧ tombstone.deleted = true
  others : ∀ id, isInternalID id = false → id ∉ all.map Record.id →
    next.stored id = db.stored id
  covers : ∀ {r}, db.store.Covers r → next.store.Covers r

section

variable {platform : Platform} {envs : Nat → CallEnv} {db next : DocDB} {r : Record}
  {rest : List Record}

namespace Destroyable

theorem tail (ready : Destroyable envs db (r :: rest)) : Destroyable envs db rest where
  single := ready.single
  active := ready.active
  distinct := (List.nodup_cons.mp ready.distinct).2
  held other member := ready.held other (List.mem_cons_of_mem r member)
  past other member := ready.past other (List.mem_cons_of_mem r member)

theorem removed (ready : Destroyable envs db (r :: rest)) (gone : db.Removed r.id next) :
    Destroyable envs next rest where
  single := gone.single
  active := ready.active
  distinct := ready.tail.distinct
  held other member document := by
    have different : other.id ≠ r.id := by
      intro same
      exact (List.nodup_cons.mp ready.distinct).1 (same ▸ List.mem_map_of_mem member)
    rw [gone.others other.id document different]
    exact ready.tail.held other member document
  past := ready.tail.past

theorem stored (ready : Destroyable envs db (r :: rest)) (document : isInternalID r.id = false) :
    db.stored r.id = some r :=
  ready.held r List.mem_cons_self document

theorem stampsPast (ready : Destroyable envs db (r :: rest))
    (document : isInternalID r.id = false) (index : Nat) : db.StampsPast (envs index) r.id := by
  intro clock found
  rw [storedClock_eq, ready.stored document] at found
  cases found
  exact ready.past r List.mem_cons_self index

end Destroyable

theorem destroyEach_internal (internal : isInternalID r.id = true) (index : Nat) :
    db.destroyEach platform envs index (r :: rest) =
      db.destroyEach platform envs (index + 1) rest := by
  rw [destroyEach, if_pos internal]

/-- One turn of the loop on a document. -/
theorem destroyEach_document (ready : Destroyable envs db (r :: rest))
    (document : isInternalID r.id = false) (identified : r.id ≠ []) (index : Nat) :
    ∃ next, db.Removed r.id next ∧ db.destroyEach platform envs index (r :: rest) =
      next.destroyEach platform envs (index + 1) rest := by
  obtain ⟨rev, next, removes, gone⟩ := @removed_remove platform db (envs index) r.id
    ready.single (ready.active index) identified document (ready.stampsPast document index)
  refine ⟨next, gone, ?_⟩
  rw [destroyEach, if_neg (by simp [document]), get_eq, ready.stored document]
  simp only [Option.elim_some, removes]

theorem destroyEach_unidentified (ready : Destroyable envs db (r :: rest))
    (unidentified : r.id = []) (index : Nat) :
    db.destroyEach platform envs index (r :: rest) = (some .missingID, db) := by
  have document : isInternalID r.id = false := by
    rw [unidentified]
    decide
  have refused : db.remove platform (envs index) r.id [] = (.error .missingID, db) := by
    rw [remove, unidentified, prepareRemove_unidentified (ready.active index)]
  rw [destroyEach, if_neg (by simp [document]), get_eq, ready.stored document]
  simp only [Option.elim_some, refused]

theorem emptied_nil (db : DocDB) : Emptied db [] db where
  collection := rfl
  gone _ member := nomatch member
  others _ _ _ := rfl
  covers := id

theorem Emptied.internal (emptied : Emptied db rest next) (internal : isInternalID r.id = true) :
    Emptied db (r :: rest) next where
  collection := emptied.collection
  gone other member document := by
    rcases List.mem_cons.mp member with rfl | later
    · rw [internal] at document
      cases document
    · exact emptied.gone other later document
  others id document absent :=
    emptied.others id document fun later => absent (List.mem_cons_of_mem _ later)
  covers := emptied.covers

theorem Emptied.removed {middle : DocDB} (emptied : Emptied middle rest next)
    (fresh : r.id ∉ rest.map Record.id) (document : isInternalID r.id = false)
    (gone : db.Removed r.id middle) : Emptied db (r :: rest) next where
  collection := emptied.collection.trans gone.collection
  gone other member isDocument := by
    rcases List.mem_cons.mp member with rfl | later
    · rw [emptied.others other.id document fresh]
      exact gone.gone
    · exact emptied.gone other later isDocument
  others id isDocument absent := by
    rw [List.map_cons, List.mem_cons, not_or] at absent
    rw [emptied.others id isDocument absent.2, gone.others id isDocument absent.1]
  covers covered := emptied.covers (gone.covers covered)

end

/-- The run lemma of the loop. -/
theorem destroyEach_spec {platform : Platform} {envs : Nat → CallEnv} {db : DocDB}
    {all : List Record} (ready : Destroyable envs db all) (index : Nat) :
    ((db.destroyEach platform envs index all).1 = none ↔ Identified all) ∧
      (Identified all → Emptied db all (db.destroyEach platform envs index all).2) := by
  induction all generalizing db index with
  | nil =>
      have identified : Identified [] := fun _ member => nomatch member
      exact ⟨⟨fun _ => identified, fun _ => rfl⟩, fun _ => emptied_nil db⟩
  | cons r rest ih =>
      have split : Identified (r :: rest) ↔
          (isInternalID r.id = false → r.id ≠ []) ∧ Identified rest := List.forall_mem_cons
      cases internal : isInternalID r.id with
      | true =>
          rw [destroyEach_internal internal]
          obtain ⟨succeeds, empties⟩ := ih ready.tail (index + 1)
          rw [split, internal]
          refine ⟨by simpa using succeeds, fun both => ?_⟩
          exact (empties both.2).internal internal
      | false =>
          by_cases identified : r.id = []
          · rw [destroyEach_unidentified ready identified]
            have missing : ¬ Identified (r :: rest) :=
              fun all => all r List.mem_cons_self internal identified
            exact ⟨by simp [missing], fun all => absurd all missing⟩
          · obtain ⟨next, gone, continues⟩ :=
              @destroyEach_document platform envs db r rest ready internal identified index
            rw [continues]
            obtain ⟨succeeds, empties⟩ := ih (ready.removed gone) (index + 1)
            rw [split]
            refine ⟨by simpa [identified] using succeeds, fun both => ?_⟩
            exact (empties both.2).removed (List.nodup_cons.mp ready.distinct).1 internal gone

/-- The records that `List` returns are what the loop needs. -/
theorem destroyable_of_listed {envs : Nat → CallEnv} {db : DocDB} {all : List Record}
    (single : SingleCollection db.store db.collection)
    (listed : (all : Multiset Record) = db.store.list db.collection)
    (active : ∀ index, (envs index).cancelled = false)
    (past : ∀ r ∈ all, ∀ index, r.clock.wallTime < (envs index).fresh ∨
      r.clock.wallTime < (envs index).tick ∨ r.clock.HasRoomForTwo) :
    Destroyable envs db all := by
  have held (r : Record) (member : r ∈ all) : db.stored r.id = some r := by
    rw [← Multiset.mem_coe, listed, MemoryStore.list, Multiset.mem_filter,
      single.mem_listAll_iff db.named] at member
    have found := member.1
    rwa [Record.key, single.inside found] at found
  refine ⟨single, active, ?_, fun r member _ => held r member, past⟩
  have nodup : all.Nodup := by
    rw [← Multiset.coe_nodup, listed]
    exact (nodup_listAll single.wellFormed db.collection).filter _
  refine nodup.map_on ?_
  intro first isFirst second isSecond same
  have both := held first isFirst
  rw [same, held second isSecond, Option.some.injEq] at both
  exact both.symm

theorem get_of_deleted {platform : Platform} {db : DocDB} {id : GoString}
    (deleted : ∀ held, db.stored id = some held → held.deleted = true) :
    db.get platform false id = .error .notFound := by
  unfold DocDB.get
  rw [get_eq]
  cases found : db.stored id with
  | none => rfl
  | some held => simp [deleted held found]

/-- After the loop a document is a tombstone, or was one before. -/
theorem Emptied.deleted {db next : DocDB} {all : List Record} (emptied : Emptied db all next)
    (single : SingleCollection db.store db.collection)
    (listed : (all : Multiset Record) = db.store.list db.collection) {id : GoString}
    (document : isInternalID id = false) {held : Record} (found : next.stored id = some held) :
    held.deleted = true := by
  by_cases member : id ∈ all.map Record.id
  · obtain ⟨r, isListed, rfl⟩ := List.mem_map.mp member
    obtain ⟨tombstone, stored, deleted⟩ := emptied.gone r isListed document
    rw [found, Option.some.injEq] at stored
    rw [stored]
    exact deleted
  · rw [emptied.others id document member] at found
    by_contra alive
    have key : held.key = flatKey db.collection id := single.wellFormed.keyed found
    have isListed : held ∈ all := by
      rw [← Multiset.mem_coe, listed, MemoryStore.list, Multiset.mem_filter,
        single.mem_listAll_iff db.named, key]
      exact ⟨found, Bool.not_eq_true _ ▸ alive⟩
    rw [Record.key, single.inside found] at key
    exact member (List.mem_map.mpr ⟨held, isListed, flatKey_right_injective _ key⟩)

/-- Ingesting what the store covers leaves the documents alone. -/
theorem stored_ingestEach_of_covered {platform : Platform} {envs : Nat → CallEnv} {db : DocDB}
    {records : List Record} (covered : ∀ r ∈ records, db.store.Covers r.defaulted)
    {id : GoString} (document : isInternalID id = false) (index : Nat) :
    (db.ingestEach platform envs index records).stored id = db.stored id := by
  induction records generalizing db index with
  | nil => rfl
  | cons r rest ih =>
      have first : (db.ingestRemote platform (envs index) r).stored id = db.stored id := by
        unfold ingestRemote
        split
        next => rfl
        next =>
            rw [commit_stored _ _ _ _ _ _ _ document, MemoryStore.afterPut_records,
              Champion.Covers.enter_eq (covered r List.mem_cons_self)]
            rfl
      rw [ingestEach, ih, first]
      intro other member
      have covers := covered other (List.mem_cons_of_mem r member)
      exact @covers_ingestEach platform envs db _ covers index [r]

end DocDB

end NellDB
