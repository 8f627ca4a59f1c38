import NellDB.Sdk.Stamps

namespace NellDB

open Data

/-! The revision cache against the stored documents. -/

inductive DocOperation where
  | single (action : DocAction)
  | putMany (cancelled : Bool) (docs : List (CallEnv × Doc))

namespace DocDB

def perform (platform : Platform) (db : DocDB) : DocOperation → DocDB
  | .single action => db.act platform action
  | .putMany cancelled docs => (db.putMany platform cancelled docs).2

def performAll (platform : Platform) (db : DocDB) (operations : List DocOperation) :
    DocDB :=
  operations.foldl (perform platform) db

end DocDB

namespace DocDB

/-- What every put of a batch keeps, the loop of `PutMany` keeps. -/
theorem putEach_keeps {platform : Platform} {invariant : DocDB → Prop}
    {docs : List (CallEnv × Doc)}
    (kept : ∀ db, ∀ entry ∈ docs, invariant db →
      invariant (db.put platform entry.1 entry.2).2)
    {db : DocDB} (initial : invariant db) (index : Nat) :
    invariant (db.putEach platform index docs).2 := by
  induction docs generalizing db index with
  | nil => exact initial
  | cons entry rest ih =>
      obtain ⟨env, doc⟩ := entry
      have first := kept db (env, doc) List.mem_cons_self initial
      have onward := ih (fun later other member => kept later other (List.mem_cons_of_mem _ member))
        first (index + 1)
      rw [putEach]
      generalize db.put platform env doc = outcome at first onward
      obtain ⟨result, next⟩ := outcome
      cases result with
      | error failure => exact first
      | ok written =>
          dsimp only at onward ⊢
          generalize next.putEach platform (index + 1) rest = later at onward
          obtain ⟨_ | _, final⟩ := later
          · exact onward
          · exact onward

/-- A batch keeps what its puts keep and what does not depend on the revisions. -/
theorem putMany_keeps {platform : Platform} {invariant : DocDB → Prop}
    {docs : List (CallEnv × Doc)}
    (kept : ∀ db, ∀ entry ∈ docs, invariant db →
      invariant (db.put platform entry.1 entry.2).2)
    (restored : ∀ db prev, invariant db → invariant (rollback db prev))
    {db : DocDB} (initial : invariant db) (cancelled : Bool) :
    invariant (db.putMany platform cancelled docs).2 := by
  have each := putEach_keeps kept initial 0
  unfold putMany
  cases cancelled with
  | true => exact initial
  | false =>
      simp only [Bool.false_eq_true, if_false]
      generalize db.putEach platform 0 docs = outcome at each
      obtain ⟨_ | _, final⟩ := outcome
      · exact restored final _ each
      · exact each

end DocDB

theorem WellFormed.perform {platform : Platform} {db : DocDB} (wellFormed : WellFormed db.store)
    (operation : DocOperation) : WellFormed (db.perform platform operation).store := by
  cases operation with
  | single action => exact wellFormed.act platform action
  | putMany cancelled docs =>
      have kept (db : DocDB) (entry : CallEnv × Doc) (_ : entry ∈ docs)
          (wellFormed : WellFormed db.store) :
          WellFormed (db.put platform entry.1 entry.2).2.store :=
        wellFormed.call platform (.put entry.1 entry.2)
      have restored (db : DocDB) (prev : List DocDB.BulkSnap) (wellFormed : WellFormed db.store) :
          WellFormed (db.rollback prev).store := wellFormed
      exact DocDB.putMany_keeps kept restored wellFormed cancelled

theorem WellFormed.performAll {platform : Platform} {db : DocDB}
    (wellFormed : WellFormed db.store) (operations : List DocOperation) :
    WellFormed (db.performAll platform operations).store := by
  induction operations generalizing db with
  | nil => exact wellFormed
  | cons operation rest ih => exact ih (wellFormed.perform operation)

namespace DocDB

def Overtakes (db : DocDB) (env : CallEnv) (id : GoString) : Prop :=
  ∀ clock, db.storedClock id = some clock →
    clock.wallTime < env.tick ∨ clock.HasRoomForTwo

/-- An incoming record that replaces what is stored carries a revision, unless
it is a tombstone; one that does not replace a live document carries the same
revision as that document. -/
structure Consistent (platform : Platform) (db : DocDB) (r : Record) : Prop where
  collection : r.defaulted.collection = db.collection
  replaces : (∀ held, db.stored r.id = some held → held.stamp < r.stamp) →
    r.deleted = false → ∃ rev, r.readRev platform.json = some rev ∧ rev ≠ []
  kept : ∀ held, db.stored r.id = some held → r.stamp ≤ held.stamp →
    held.deleted = false → r.readRev platform.json = held.readRev platform.json

def KeepsAction (platform : Platform) (db : DocDB) : DocAction → Prop
  | .call call => db.Overtakes call.env call.id
  | .ingest _ r => isInternalID r.id = true ∨ db.Consistent platform r

def AcceptsAll (platform : Platform) : DocDB → List (CallEnv × Doc) → Prop
  | _, [] => True
  | db, (env, doc) :: rest =>
      db.Overtakes env (doc.stringField fieldID) ∧
        ∃ newRev written, db.prepare platform env doc = .ok (newRev, written) ∧
          AcceptsAll platform
            (db.commit platform env written written.id newRev db.nodeID) rest

/-- A batch does not fail once it has written one of its documents. -/
def KeepsBatch (platform : Platform) (db : DocDB) (docs : List (CallEnv × Doc)) : Prop :=
  db.AcceptsAll platform docs ∨
    ∃ env doc rest failure, docs = (env, doc) :: rest ∧
      db.prepare platform env doc = .error failure

def Keeps (platform : Platform) (db : DocDB) : DocOperation → Prop
  | .single action => db.KeepsAction platform action
  | .putMany cancelled docs => cancelled = true ∨ db.KeepsBatch platform docs

def AllKeep (platform : Platform) : DocDB → List DocOperation → Prop
  | _, [] => True
  | db, operation :: rest =>
      db.Keeps platform operation ∧ AllKeep platform (db.perform platform operation) rest

/-- The cached revision of a live document is the one in its payload. -/
def RevsAgree (platform : Platform) (db : DocDB) : Prop :=
  ∀ id r, isInternalID id = false → db.stored id = some r → r.deleted = false →
    ∃ rev, r.readRev platform.json = some rev ∧ rev ≠ [] ∧ db.revs.lookup id = some rev

structure RevsSound (platform : Platform) (db : DocDB) : Prop where
  wellFormed : WellFormed db.store
  agree : db.RevsAgree platform

/-- Whatever a commit leaves stored carries the revision it cached. -/
theorem RevsSound.commit {platform : Platform} {db : DocDB} (sound : db.RevsSound platform)
    {env : CallEnv} {r : Record} {id rev writer : GoString}
    (placed : r.defaulted.key = flatKey db.collection id)
    (outcome : ∀ held, isInternalID id = false →
      (db.store.afterPut r).records.lookup (flatKey db.collection id) = some held →
      held.deleted = false → held.readRev platform.json = some rev ∧ rev ≠ []) :
    (db.commit platform env r id rev writer).RevsSound platform := by
  refine ⟨sound.wellFormed.commit platform env r id rev writer, ?_⟩
  intro other held document found live
  rw [commit_stored _ _ _ _ _ _ _ document] at found
  rw [commit_revs]
  by_cases same : other = id
  · subst other
    obtain ⟨carried, revised⟩ := outcome held document found live
    exact ⟨rev, carried, revised, Finmap.lookup_insert _⟩
  · have elsewhere : flatKey db.collection other ≠ r.defaulted.key := by
      rw [placed]
      exact fun equal => same (flatKey_right_injective _ equal)
    rw [MemoryStore.afterPut_records, Champion.lookup_enter_of_ne _ elsewhere] at found
    obtain ⟨kept, carried, revised, cached⟩ := sound.agree other held document found live
    exact ⟨kept, carried, revised, by rw [Finmap.lookup_insert_of_ne _ same, cached]⟩

theorem LocalWrite.lookup_afterPut {db : DocDB} {env : CallEnv} {id : GoString} {r : Record}
    (written : LocalWrite db env id r) (overtakes : db.Overtakes env id) :
    (db.store.afterPut r).records.lookup (flatKey db.collection id) = some r := by
  apply written.lookup_afterPut_of_lt
  intro clock found
  apply written.lt_clock
  rcases overtakes clock found with later | room
  · exact .inl later
  · exact .inr ⟨clock, found, le_rfl, room⟩

theorem RevsSound.commitPut {platform : Platform} {db : DocDB}
    (sound : db.RevsSound platform) {env : CallEnv} {doc : Doc} {newRev : GoString}
    {written : Record} (prepared : Prepared platform db env doc newRev written)
    (overtakes : db.Overtakes env (doc.stringField fieldID)) :
    (db.commit platform env written written.id newRev db.nodeID).RevsSound platform := by
  have isLocal := prepared.localWrite
  rw [← prepared.id] at overtakes
  apply sound.commit
  · rw [Record.defaulted_of_named isLocal.named, isLocal.placed]
  · intro held _ found _
    rw [isLocal.lookup_afterPut overtakes] at found
    cases found
    exact ⟨prepared.carried, prepared.revised⟩

theorem RevsSound.put {platform : Platform} {db : DocDB} (sound : db.RevsSound platform)
    {env : CallEnv} {doc : Doc} (overtakes : db.Overtakes env (doc.stringField fieldID)) :
    (db.put platform env doc).2.RevsSound platform := by
  rcases put_cases platform db env doc with ⟨_, _, result⟩ | ⟨_, _, _, prepared, result⟩
  · rw [result]
    exact sound
  · rw [result]
    exact sound.commitPut prepared overtakes

theorem RevsSound.remove {platform : Platform} {db : DocDB} (sound : db.RevsSound platform)
    {env : CallEnv} {id wantRev : GoString} (overtakes : db.Overtakes env id) :
    (db.remove platform env id wantRev).2.RevsSound platform := by
  rcases remove_cases platform sound.wellFormed env id wantRev with
    ⟨_, _, result⟩ | ⟨_, tombstone, _, prepared, result⟩
  · rw [result]
    exact sound
  · rw [result]
    apply sound.commit
    · rw [Record.defaulted_of_named prepared.written.named, prepared.written.placed]
    · intro held _ found live
      rw [prepared.written.lookup_afterPut overtakes] at found
      cases found
      rw [prepared.deleted] at live
      contradiction

theorem RevsSound.ingest {platform : Platform} {db : DocDB} (sound : db.RevsSound platform)
    {env : CallEnv} {r : Record}
    (consistent : isInternalID r.id = true ∨ db.Consistent platform r) :
    (db.ingestRemote platform env r).RevsSound platform := by
  unfold ingestRemote
  split
  next => exact sound
  next document =>
      have consistent := consistent.resolve_left document
      have placed : r.defaulted.key = flatKey db.collection r.id := by
        rw [Record.key, consistent.collection, Record.defaulted_id]
      refine sound.commit placed ?_
      intro held document found live
      -- Either the incoming record is stored now, or the live one was kept.
      rw [MemoryStore.afterPut_records, ← placed] at found
      have taken (newer : ∀ current, db.stored r.id = some current →
          current.stamp < r.stamp) (same : held = r.defaulted) :
          held.readRev platform.json =
            some ((r.readRev platform.json).getD revRemote) ∧
            (r.readRev platform.json).getD revRemote ≠ [] := by
        subst held
        obtain ⟨rev, carried, revised⟩ := consistent.replaces newer live
        have defaulted : r.defaulted.readRev platform.json = some rev := carried
        rw [defaulted, carried]
        exact ⟨rfl, revised⟩
      cases present : db.stored r.id with
      | none =>
          have absent : db.store.records.lookup r.defaulted.key = none := by
            rw [placed]
            exact present
          rw [Champion.lookup_enter_of_none absent, Option.some.injEq] at found
          exact taken (by simp [present]) found.symm
      | some current =>
          have kept : db.store.records.lookup r.defaulted.key = some current := by
            rw [placed]
            exact present
          rw [Champion.lookup_enter_of_some kept, Option.some.injEq] at found
          unfold Champion.prefer at found
          split at found
          next newer =>
              refine taken ?_ found.symm
              intro other same
              rw [present] at same
              cases same
              exact newer
          next notNewer =>
              subst held
              obtain ⟨rev, carried, revised, _⟩ :=
                sound.agree r.id current document present live
              rw [consistent.kept current present (not_lt.mp notNewer) live, carried]
              exact ⟨rfl, revised⟩

theorem RevsSound.putEach {platform : Platform} {db : DocDB} (sound : db.RevsSound platform)
    {docs : List (CallEnv × Doc)} (accepts : db.AcceptsAll platform docs) (index : Nat) :
    ∃ revs final, db.putEach platform index docs = (.ok revs, final) ∧
      final.RevsSound platform := by
  induction docs generalizing db index with
  | nil => exact ⟨[], db, rfl, sound⟩
  | cons head rest ih =>
      obtain ⟨env, doc⟩ := head
      obtain ⟨overtakes, newRev, written, prepared, onward⟩ := accepts
      obtain ⟨revs, final, result, finalSound⟩ :=
        ih (sound.commitPut (prepare_ok prepared) overtakes) onward (index + 1)
      refine ⟨newRev :: revs, final, ?_, finalSound⟩
      simp only [DocDB.putEach, DocDB.put, prepared, result]

theorem rollback_current (db : DocDB) (prev : List BulkSnap)
    (current : ∀ snap ∈ prev, snap.rev = db.revs.lookup snap.id) :
    db.rollback prev = db := by
  have unchanged : prev.foldl BulkSnap.restore db.revs = db.revs := by
    induction prev with
    | nil => rfl
    | cons snap rest ih =>
        have restored : BulkSnap.restore db.revs snap = db.revs := by
          unfold BulkSnap.restore
          rw [current snap List.mem_cons_self]
          apply Finmap.ext_lookup
          intro id
          by_cases same : id = snap.id
          · subst id
            cases present : db.revs.lookup snap.id <;> simp
          · cases present : db.revs.lookup snap.id <;> simp [same]
        rw [List.foldl_cons, restored]
        exact ih fun snap member => current snap (List.mem_cons_of_mem _ member)
  unfold rollback
  rw [unchanged]

theorem RevsSound.putMany {platform : Platform} {db : DocDB} (sound : db.RevsSound platform)
    {cancelled : Bool} {docs : List (CallEnv × Doc)}
    (keeps : cancelled = true ∨ db.KeepsBatch platform docs) :
    (db.putMany platform cancelled docs).2.RevsSound platform := by
  unfold DocDB.putMany
  split
  next => exact sound
  next active =>
      rcases keeps.resolve_left active with accepts | ⟨env, doc, rest, failure, rfl, refused⟩
      · obtain ⟨revs, final, result, finalSound⟩ := sound.putEach accepts 0
        simp only [result]
        exact finalSound
      · have result : db.putEach platform 0 ((env, doc) :: rest) =
            (.error (.putMany 0 (doc.lookup fieldID) failure), db) := by
          simp only [DocDB.putEach, DocDB.put, refused]
        simp only [result]
        rw [rollback_current]
        · exact sound
        · intro snap member
          obtain ⟨_, _, rfl⟩ := List.mem_map.mp member
          rfl

theorem RevsSound.perform {platform : Platform} {db : DocDB} (sound : db.RevsSound platform)
    {operation : DocOperation} (keeps : db.Keeps platform operation) :
    (db.perform platform operation).RevsSound platform := by
  cases operation with
  | single action =>
      cases action with
      | call call =>
          cases call with
          | put env doc => exact sound.put keeps
          | remove env id wantRev => exact sound.remove keeps
      | ingest env r => exact sound.ingest keeps
  | putMany cancelled docs => exact sound.putMany keeps

theorem RevsSound.performAll {platform : Platform} {db : DocDB}
    (sound : db.RevsSound platform) {operations : List DocOperation}
    (keep : db.AllKeep platform operations) :
    (db.performAll platform operations).RevsSound platform := by
  induction operations generalizing db with
  | nil => exact sound
  | cons operation rest ih => exact ih (sound.perform keep.1) keep.2

theorem revsSound_newDocDB (platform : Platform) (storeNode nodeID collection : GoString)
    (now : Int64) :
    (newDocDB platform (newMemoryStore storeNode now) nodeID collection []).RevsSound
      platform where
  wellFormed := wellFormed_newMemoryStore storeNode now
  agree id r _ found := by simp [newDocDB, reindex, stored, newMemoryStore] at found

/-! How `Put` uses the cached revision. -/

theorem put_ne_conflict {platform : Platform} {db : DocDB} {env : CallEnv} {doc : Doc}
    {base : GoString}
    (accepted : db.baseRev (doc.stringField fieldID) (doc.stringField fieldRev) true =
      .ok base) :
    (db.put platform env doc).1 ≠ .error .conflict := by
  intro refused
  rcases put_cases platform db env doc with ⟨failure, prepared, result⟩ | ⟨_, _, _, _, result⟩
  · rw [result, Except.error.injEq] at refused
    subst failure
    have outcome := prepare_outcome platform db env doc
    rw [prepared] at outcome
    cases outcome with
    | refused _ refuses => exact absurd (accepted.symm.trans refuses) (by simp)
  · rw [result] at refused
    contradiction

theorem put_conflict {platform : Platform} {db : DocDB} {env : CallEnv} {doc : Doc}
    (active : env.cancelled = false) (identified : doc.stringField fieldID ≠ [])
    (refused : db.baseRev (doc.stringField fieldID) (doc.stringField fieldRev) true =
      .error .conflict) :
    (db.put platform env doc).1 = .error .conflict := by
  simp [put, prepare, check, active, identified, refused, bind, Except.bind, Except.map]

theorem stringField_joinDoc {json : JsonCodec} {rev : GoString} {r : Record}
    (carried : r.readRev json = some rev) (id : GoString) :
    (r.joinDoc json id).stringField fieldRev = rev := by
  simp [Doc.stringField, Record.joinDoc_rev carried]

end DocDB

/-- After a run whose operations keep the cache in step, the cached revision of
a live document is the one in its payload: a put with the revision that `Get`
returned is no conflict, and one with any other revision is. -/
theorem revisions_agree (platform : Platform) (storeNode nodeID collection : GoString)
    (now : Int64) {operations : List DocOperation}
    (keep : (newDocDB platform (newMemoryStore storeNode now) nodeID collection []).AllKeep
      platform operations) :
    let db := (newDocDB platform (newMemoryStore storeNode now) nodeID collection
      []).performAll platform operations
    ∀ id r, isInternalID id = false → id ≠ [] →
      db.store.get db.collection id = .ok r → r.deleted = false →
      (∃ rev, r.readRev platform.json = some rev ∧ db.revs.lookup id = some rev) ∧
        ∃ got, db.get platform false id = .ok got ∧
          (∀ env doc, doc.stringField fieldID = id →
            doc.stringField fieldRev = got.stringField fieldRev →
            (db.put platform env doc).1 ≠ .error .conflict) ∧
          ∀ env doc, env.cancelled = false → doc.stringField fieldID = id →
            doc.stringField fieldRev ≠ [] →
            doc.stringField fieldRev ≠ got.stringField fieldRev →
            (db.put platform env doc).1 = .error .conflict := by
  intro db id r document identified found live
  have sound : db.RevsSound platform :=
    (DocDB.revsSound_newDocDB platform storeNode nodeID collection now).performAll keep
  have present : db.stored id = some r := by
    rw [DocDB.get_eq] at found
    cases stored : db.stored id with
    | none => simp [stored] at found
    | some held => simpa [stored] using found
  obtain ⟨rev, carried, revised, cached⟩ := sound.agree id r document present live
  have returned := DocDB.stringField_joinDoc carried id
  refine ⟨⟨rev, carried, cached⟩, r.joinDoc platform.json id, ?_, ?_, ?_⟩
  · simp [DocDB.get, found, live]
  · rintro env doc rfl sameRev
    rw [returned] at sameRev
    apply DocDB.put_ne_conflict
    rw [sameRev]
    exact DocDB.baseRev_current cached
  · rintro env doc active rfl named other
    rw [returned] at other
    exact DocDB.put_conflict active identified
      (DocDB.baseRev_stale cached revised named other)

theorem revisions_agree_newer_remote :
    let x := ascii ['x']
    let remote : Record :=
      ⟨defaultCollection, x, typeText,
        JsonCodec.openRev ++ ascii ['2', '-', 'r'] ++ JsonCodec.closeRev, [],
        ⟨2000, 0⟩, ascii ['m'], false⟩
    let db := (newDocDB .revOnly (newMemoryStore [] 0) (ascii ['n']) [] []).performAll
      .revOnly [.single (.call (.put (.at 1000) (Finmap.singleton fieldID (.string x)))),
        .single (.ingest (.at 1001) remote)]
    (∃ rev, remote.readRev JsonCodec.revOnly = some rev ∧ db.revs.lookup x = some rev) ∧
      (db.put .revOnly (.at 3000) ((Finmap.singleton fieldID (.string x)).insert fieldRev
        (.string (ascii ['2', '-', 'r'])))).1 ≠ .error .conflict := by
  intro x remote db
  have keep : (newDocDB .revOnly (newMemoryStore [] 0) (ascii ['n']) [] []).AllKeep .revOnly
      [.single (.call (.put (.at 1000) (Finmap.singleton fieldID (.string x)))),
        .single (.ingest (.at 1001) remote)] := by
    refine ⟨?_, .inr ⟨by decide, ?_, ?_⟩, trivial⟩
    · intro clock found
      have absent : (newDocDB .revOnly (newMemoryStore [] 0) (ascii ['n']) []
          []).storedClock x = none := by
        decide +kernel
      exact absurd (absent.symm.trans found) (by simp)
    · intro _ _
      exact ⟨ascii ['2', '-', 'r'], by decide +kernel, by decide⟩
    · intro held found below _
      have clock : ((newDocDB .revOnly (newMemoryStore [] 0) (ascii ['n']) []
          []).perform .revOnly (.single (.call (.put (.at 1000)
            (Finmap.singleton fieldID (.string x)))))).storedClock x = some ⟨1000, 1⟩ := by
        decide +kernel
      have earlier := Record.clock_le_of_stamp_le below
      rw [DocDB.storedClock_eq] at clock
      have same : held.clock = ⟨1000, 1⟩ := by
        have mapped := congrArg (Option.map Record.clock) found
        exact Option.some.inj (mapped.symm.trans clock)
      rw [same] at earlier
      exact absurd earlier (by decide)
  have stored : db.stored x = some remote := by decide +kernel
  have found : db.store.get db.collection x = .ok remote := by
    rw [DocDB.get_eq, stored]
    rfl
  obtain ⟨cached, got, returned, accepts, _⟩ :=
    revisions_agree .revOnly [] (ascii ['n']) [] 0 keep x remote (by decide) (by decide)
      found rfl
  have joined : db.get .revOnly false x = .ok (remote.joinDoc JsonCodec.revOnly x) := by
    rw [DocDB.get, found]
    rfl
  rw [joined, Except.ok.injEq] at returned
  subst got
  exact ⟨cached, accepts _ _ (by decide +kernel) (by decide +kernel)⟩

/-- A record that loses to the stored one still overwrites the cached revision:
the revision that `Get` returns is then refused. -/
theorem stale_ingest_refuses_current_revision :
    let x := ascii ['x']
    let stale : Record :=
      ⟨defaultCollection, x, typeText,
        JsonCodec.openRev ++ ascii ['1', '-', 'r'] ++ JsonCodec.closeRev, [],
        ⟨1, 0⟩, ascii ['m'], false⟩
    let db := (newDocDB .revOnly (newMemoryStore [] 0) (ascii ['n']) [] []).performAll
      .revOnly [.single (.call (.put (.at 1000) (Finmap.singleton fieldID (.string x)))),
        .single (.ingest (.at 1001) stale)]
    let got := (db.get .revOnly false x).toOption.getD ∅
    got.stringField fieldRev ≠ [] ∧
      db.revs.lookup x ≠ some (got.stringField fieldRev) ∧
      (db.put .revOnly (.at 3000) ((Finmap.singleton fieldID (.string x)).insert fieldRev
        (.string (got.stringField fieldRev)))).1 = .error .conflict := by
  intro x stale db got
  have cached : db.revs.lookup x = some (ascii ['1', '-', 'r']) := by decide +kernel
  have revised : got.stringField fieldRev ≠ [] := by decide +kernel
  have other : got.stringField fieldRev ≠ ascii ['1', '-', 'r'] := by decide +kernel
  refine ⟨revised, ?_, ?_⟩
  · rw [cached]
    exact fun same => other (Option.some.inj same).symm
  · generalize got.stringField fieldRev = rev at revised other
    have id : Doc.stringField ((Finmap.singleton fieldID (.string x)).insert fieldRev
        (.string rev)) fieldID = x := rfl
    have carried : Doc.stringField ((Finmap.singleton fieldID (.string x)).insert fieldRev
        (.string rev)) fieldRev = rev := rfl
    refine DocDB.put_conflict rfl (by rw [id]; decide) ?_
    rw [id, carried]
    exact DocDB.baseRev_stale cached (by decide) revised other

end NellDB
