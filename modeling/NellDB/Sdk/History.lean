import NellDB.Data.Interleaving
import NellDB.Sdk.Readback
import NellDB.Sdk.Revisions

namespace NellDB

open Data

/-! The revisions that one node assigns over a history of writes and restarts. -/

/-- The revision a caller names, empty for none. -/
def LocalCall.rev : LocalCall → GoString
  | .put _ doc => doc.stringField fieldRev
  | .remove _ _ wantRev => wantRev

namespace DocDB

def outcome (platform : Platform) (db : DocDB) : LocalCall → Except SdkError GoString
  | .put env doc => (db.put platform env doc).1.map Prod.fst
  | .remove env id wantRev => (db.remove platform env id wantRev).1

/-- The revision that a write with the given one builds on. -/
def continues (db : DocDB) (id incomingRev : GoString) : GoString :=
  if incomingRev = [] then (db.revs.lookup id).getD [] else incomingRev

/-- `New` on the same store. -/
def reopen (platform : Platform) (db : DocDB) (all : List Record) : DocDB :=
  newDocDB platform db.store db.nodeID db.collection all

theorem baseRev_ok {db : DocDB} {id incomingRev base : GoString} {requireExisting : Bool}
    (accepted : db.baseRev id incomingRev requireExisting = .ok base) :
    base = db.continues id incomingRev ∧
      ∀ current, db.revs.lookup id = some current → current ≠ [] → base = current := by
  dsimp only [baseRev] at accepted
  unfold continues
  split at accepted
  next => contradiction
  next matching =>
      split at accepted
      next => contradiction
      next =>
          cases accepted
          refine ⟨rfl, ?_⟩
          intro current cached revised
          rw [cached, Option.getD_some] at matching ⊢
          split
          next => rfl
          next named =>
              by_contra other
              exact matching ⟨named, revised, other⟩

theorem baseRev_unknown {db : DocDB} {id rev : GoString} (unknown : db.revs.lookup id = none)
    (named : rev ≠ []) : db.baseRev id rev true = .error .conflict := by
  simp [baseRev, unknown, named]

theorem remove_conflict {platform : Platform} {db : DocDB} {env : CallEnv}
    {id wantRev : GoString} (active : env.cancelled = false) (identified : id ≠ [])
    (refused : db.baseRev id wantRev false = .error .conflict) :
    (db.remove platform env id wantRev).1 = .error .conflict := by
  simp [remove, prepareRemove, active, identified, refused, bind, Except.bind]

/-- What a successful call assigns and stores. -/
structure Assigns (platform : Platform) (db : DocDB) (call : LocalCall) (rev : GoString)
    (r : Record) : Prop where
  continued : ∃ requireExisting base body,
    db.baseRev call.id call.rev requireExisting = .ok base ∧
      rev = genRev platform.sha1 base body
  identified : call.id ≠ []
  written : db.LocalWrite call.env call.id r
  carried : r.deleted = false → r.readRev platform.json = some rev

theorem call_assigns (platform : Platform) {db : DocDB} (wellFormed : WellFormed db.store)
    (call : LocalCall) :
    (∃ failure, db.outcome platform call = .error failure) ∧ db.call platform call = db ∨
      ∃ rev r, db.outcome platform call = .ok rev ∧ db.Assigns platform call rev r ∧
        db.call platform call = db.commit platform call.env r call.id rev db.nodeID := by
  cases call with
  | put env doc =>
      rcases put_cases platform db env doc with
        ⟨failure, refused, result⟩ | ⟨newRev, written, prepared, valid, result⟩
      · left
        rw [outcome, DocDB.call, result]
        exact ⟨⟨failure, rfl⟩, rfl⟩
      · have ready := prepare_outcome platform db env doc
        rw [prepared] at ready
        cases ready with
        | ready base raw _ _ identified accepted =>
            refine .inr ⟨_, written, by rw [outcome, result]; rfl,
              ⟨⟨true, base, raw, accepted, rfl⟩, identified, ?_, fun _ => valid.carried⟩,
              ?_⟩
            · have isLocal := valid.localWrite
              rw [valid.id] at isLocal
              exact isLocal
            · rw [DocDB.call, result, valid.id]
              rfl
  | remove env id wantRev =>
      rcases remove_cases platform wellFormed env id wantRev with
        ⟨failure, refused, result⟩ | ⟨newRev, tombstone, prepared, valid, result⟩
      · left
        rw [outcome, DocDB.call, result]
        exact ⟨⟨failure, rfl⟩, rfl⟩
      · refine .inr ⟨newRev, tombstone, by rw [outcome, result],
          ⟨?_, valid.identified, valid.written, ?_⟩, by rw [DocDB.call, result]; rfl⟩
        · obtain ⟨base, accepted, isNew⟩ := (prepareRemove_ready prepared).accepted
          exact ⟨false, base, [], accepted, isNew⟩
        · intro live
          rw [valid.deleted] at live
          contradiction

/-- The cached revisions after `New` are those of the live records. -/
theorem lookup_reopen_revs {platform : Platform} {db : DocDB}
    (single : SingleCollection db.store db.collection) {all : List Record}
    (listed : (all : Multiset Record) = db.store.list db.collection) (id : GoString) :
    (∀ r, db.stored id = some r → r.deleted = false →
      (db.reopen platform all).revs.lookup id =
        some ((r.readRev platform.json).getD revImported)) ∧
      ((∀ r, db.stored id = some r → r.deleted = true) →
        (db.reopen platform all).revs.lookup id = none) := by
  have member (r : Record) : r ∈ all ↔
      db.store.records.lookup r.key = some r ∧ r.deleted = false := by
    rw [← Multiset.mem_coe, listed, MemoryStore.list, Multiset.mem_filter,
      single.mem_listAll_iff db.named]
  have atKey {r : Record} (isListed : r ∈ all) (same : r.id = id) : db.stored id = some r := by
    have found := ((member r).mp isListed).1
    have key : r.key = flatKey db.collection id := by
      rw [Record.key, single.inside found, same]
    rw [stored, ← key]
    exact found
  constructor
  · intro r found live
    have key : r.key = flatKey db.collection id := single.wellFormed.keyed found
    have same : r.id = id := by
      rw [Record.key, single.inside found] at key
      exact flatKey_right_injective db.collection key
    refine FiniteMap.lookup_foldl_insert_of_mem Record.id
      (fun r => (r.readRev platform.json).getD revImported) ∅ ⟨r, ?_, same⟩ ?_
    · rw [member, key]
      exact ⟨found, live⟩
    · intro other isListed sameID
      have equal := (atKey isListed sameID).symm.trans found
      rw [Option.some.inj equal]
  · intro dead
    refine (FiniteMap.lookup_foldl_insert_of_absent Record.id
      (fun r => (r.readRev platform.json).getD revImported) ∅ ?_).trans (Finmap.lookup_empty _)
    intro r isListed same
    have live := ((member r).mp isListed).2
    rw [dead r (atKey isListed same)] at live
    contradiction

/-- The write can be told from all earlier ones to its document: the id is not
one whose tombstone a restart has forgotten, its record is neither lost to the
stored one nor overwritten by the vector, and the generation can be counted on. -/
structure Extends (db : DocDB) (call : LocalCall) : Prop where
  remembered : db.revs.lookup call.id = none → db.stored call.id = none
  past : db.StampsPast call.env call.id
  unshadowed : call.id = metaVectorID → db.nodeID = []
  extensible : Extensible (db.continues call.id call.rev)

theorem LocalWrite.lookup_afterPut_of_past {db : DocDB} {env : CallEnv} {id : GoString}
    {r : Record} (written : db.LocalWrite env id r) (past : db.StampsPast env id) :
    (db.store.afterPut r).records.lookup (flatKey db.collection id) = some r := by
  apply written.lookup_afterPut_of_lt
  intro clock found
  obtain ⟨existing, stamp, merged⟩ := written.clock
  rw [stamp, merged clock found]
  exact lt_stampFor_iff.mpr (past clock found)

end DocDB

/-- A database with the revisions assigned so far, the newest first. -/
structure RevHistory where
  db : DocDB
  assigned : List (GoString × GoString)

inductive RevHistoryAction where
  | call (call : LocalCall)
  | reopen (all : List Record)

namespace RevHistory

def start (platform : Platform) (storeNode nodeID collection : GoString) (now : Int64) :
    RevHistory where
  db := newDocDB platform (newMemoryStore storeNode now) nodeID collection []
  assigned := []

def revisions (h : RevHistory) (id : GoString) : List GoString :=
  (h.assigned.filter fun entry => entry.1 = id).map Prod.snd

def act (platform : Platform) (h : RevHistory) : RevHistoryAction → RevHistory
  | .call call =>
      ⟨h.db.call platform call,
        ((h.db.outcome platform call).toOption.map fun rev => (call.id, rev)).toList ++
          h.assigned⟩
  | .reopen all => ⟨h.db.reopen platform all, h.assigned⟩

/-- A restart may list the records in any order. -/
inductive Step (platform : Platform) (h : RevHistory) : RevHistoryAction → RevHistory → Prop
  | call (call : LocalCall) : Step platform h (.call call) (h.act platform (.call call))
  | reopen (all : List Record)
      (listed : (all : Multiset Record) = h.db.store.list h.db.collection) :
      Step platform h (.reopen all) (h.act platform (.reopen all))

def Extends (h : RevHistory) : RevHistoryAction → Prop
  | .call call => h.db.Extends call
  | .reopen _ => True

/-- The newest revision of a document is cached, unless it was forgotten with
the record of the document deleted. -/
structure Chained (platform : Platform) (h : RevHistory) : Prop where
  single : SingleCollection h.db.store h.db.collection
  increasing : ∀ id, (h.revisions id).Pairwise fun newer older =>
    generation older < generation newer
  positive : ∀ id, ∀ rev ∈ h.revisions id, 0 < generation rev
  cached : ∀ id rev, (h.revisions id).head? = some rev →
    h.db.revs.lookup id = some rev ∨ h.db.revs.lookup id = none
  carried : ∀ id rev, (h.revisions id).head? = some rev →
    ∃ r, h.db.stored id = some r ∧
      (r.deleted = false → r.readRev platform.json = some rev)
  unshadowed : h.revisions metaVectorID ≠ [] → h.db.nodeID = []
  identified : h.revisions [] = []

theorem chained_start (platform : Platform) (storeNode nodeID collection : GoString)
    (now : Int64) : (start platform storeNode nodeID collection now).Chained platform where
  single := singleCollection_newMemoryStore storeNode _ now
  increasing _ := .nil
  positive _ _ member := by contradiction
  cached _ _ newest := by contradiction
  carried _ _ newest := by contradiction
  unshadowed assigned := absurd rfl assigned
  identified := rfl

theorem Chained.reopen {platform : Platform} {h : RevHistory} (chained : h.Chained platform)
    {all : List Record}
    (listed : (all : Multiset Record) = h.db.store.list h.db.collection) :
    Chained platform ⟨h.db.reopen platform all, h.assigned⟩ := by
  have sameCollection : (h.db.reopen platform all).collection = h.db.collection :=
    orDefault_of_ne h.db.named
  have sameStored (id : GoString) :
      (h.db.reopen platform all).stored id = h.db.stored id := by
    rw [DocDB.stored, DocDB.stored, sameCollection]
    rfl
  refine ⟨?_, chained.increasing, chained.positive, ?_, ?_, chained.unshadowed,
    chained.identified⟩
  · dsimp only
    rw [sameCollection]
    exact chained.single
  · intro id rev newest
    obtain ⟨r, found, carried⟩ := chained.carried id rev newest
    obtain ⟨ofLive, ofDead⟩ :=
      @DocDB.lookup_reopen_revs platform h.db chained.single all listed id
    cases deleted : r.deleted with
    | false =>
        left
        have cached := ofLive r found deleted
        rw [carried deleted] at cached
        exact cached
    | true =>
        right
        apply ofDead
        intro other same
        rw [found] at same
        cases same
        exact deleted
  · intro id rev newest
    rw [sameStored]
    exact chained.carried id rev newest

section

variable {platform : Platform} {h : RevHistory}

theorem Chained.ne_nil (chained : h.Chained platform) {id rev : GoString}
    (assigned : rev ∈ h.revisions id) : rev ≠ [] := by
  rintro rfl
  exact absurd (chained.positive id [] assigned) (by decide)

/-- A document that the database still knows is cached under its newest revision. -/
theorem Chained.cached_of_remembered (chained : h.Chained platform) {id rev : GoString}
    (newest : (h.revisions id).head? = some rev)
    (remembered : h.db.revs.lookup id = none → h.db.stored id = none) :
    h.db.revs.lookup id = some rev := by
  rcases chained.cached id rev newest with cached | forgotten
  · exact cached
  · obtain ⟨r, found, _⟩ := chained.carried id rev newest
    rw [remembered forgotten] at found
    contradiction

theorem revisions_call (call : LocalCall) (rev id : GoString) (db : DocDB) :
    revisions ⟨db, (call.id, rev) :: h.assigned⟩ id =
      if call.id = id then rev :: h.revisions id else h.revisions id := by
  unfold revisions
  split
  next same => rw [List.filter_cons_of_pos (by simpa using same), List.map_cons]
  next apart => rw [List.filter_cons_of_neg (by simpa using apart)]

/-- The new revision has a higher generation than all earlier ones. -/
theorem Chained.generation_lt (chained : h.Chained platform) {call : LocalCall}
    {rev : GoString} {r : Record} (allowed : h.db.Extends call)
    (assigns : h.db.Assigns platform call rev r) :
    ∀ older ∈ h.revisions call.id, generation older < generation rev := by
  obtain ⟨_, base, body, accepted, rfl⟩ := assigns.continued
  obtain ⟨isBase, isCurrent⟩ := DocDB.baseRev_ok accepted
  have extensible : Extensible base := isBase ▸ allowed.extensible
  intro older member
  cases known : h.revisions call.id with
  | nil =>
      rw [known] at member
      contradiction
  | cons newest rest =>
      have isNewest : (h.revisions call.id).head? = some newest := by
        rw [known]
        rfl
      have cached := chained.cached_of_remembered isNewest allowed.remembered
      have revised := chained.ne_nil (List.mem_of_mem_head? isNewest)
      have step := generation_lt_genRev extensible platform.sha1 body
      rw [isCurrent newest cached revised] at step ⊢
      have ordered := chained.increasing call.id
      rw [known] at member ordered
      cases member with
      | head => exact step
      | tail _ later => exact (List.rel_of_pairwise_cons ordered later).trans step

theorem Chained.assign (chained : h.Chained platform) {call : LocalCall} {rev : GoString}
    {r : Record} (allowed : h.db.Extends call) (assigns : h.db.Assigns platform call rev r) :
    Chained platform
      ⟨h.db.commit platform call.env r call.id rev h.db.nodeID,
        (call.id, rev) :: h.assigned⟩ := by
  have inside : r.collection = h.db.collection := assigns.written.inside rfl chained.single
  have isID : r.id = call.id := assigns.written.id_eq inside
  have above := chained.generation_lt allowed assigns
  have positive : 0 < generation rev := by
    obtain ⟨_, base, body, accepted, rfl⟩ := assigns.continued
    have extensible : Extensible base :=
      (DocDB.baseRev_ok accepted).1 ▸ allowed.extensible
    exact generation_genRev_pos extensible platform.sha1 body
  refine ⟨?_, ?_, ?_, ?_, ?_, ?_, ?_⟩
  · dsimp only
    rw [DocDB.commit_collection]
    exact chained.single.commit rfl inside platform call.env call.id rev h.db.nodeID
  · intro id
    rw [revisions_call]
    split
    next same =>
        subst same
        exact List.pairwise_cons.mpr ⟨above, chained.increasing call.id⟩
    next => exact chained.increasing id
  · intro id other member
    rw [revisions_call] at member
    split at member
    next =>
        cases member with
        | head => exact positive
        | tail _ earlier => exact chained.positive id other earlier
    next => exact chained.positive id other member
  · intro id newest isNewest
    rw [revisions_call] at isNewest
    dsimp only
    rw [DocDB.commit_revs]
    split at isNewest
    next same =>
        cases isNewest
        subst same
        exact .inl (Finmap.lookup_insert _)
    next apart =>
        rw [Finmap.lookup_insert_of_ne _ (Ne.symm apart)]
        exact chained.cached id newest isNewest
  · intro id newest isNewest
    rw [revisions_call] at isNewest
    dsimp only
    split at isNewest
    next same =>
        cases isNewest
        subst same
        refine ⟨r, ?_, assigns.carried⟩
        rw [DocDB.commit_stored_of_unshadowed platform h.db call.env r call.id rev
          allowed.unshadowed]
        exact assigns.written.lookup_afterPut_of_past allowed.past
    next apart =>
        obtain ⟨held, found, carried⟩ := chained.carried id newest isNewest
        refine ⟨held, ?_, carried⟩
        have unshadowed : id = metaVectorID → h.db.nodeID = [] := by
          rintro rfl
          apply chained.unshadowed
          intro none
          rw [none] at isNewest
          contradiction
        rw [DocDB.commit_stored_of_unshadowed platform h.db call.env r call.id rev unshadowed,
          DocDB.lookup_afterPut_of_ne h.db.store inside h.db.named
            (fun same => apart (isID.symm.trans same.symm))]
        exact found
  · intro known
    dsimp only
    rw [DocDB.commit_nodeID]
    rw [revisions_call] at known
    split at known
    next same => exact allowed.unshadowed same
    next => exact chained.unshadowed known
  · rw [revisions_call, if_neg assigns.identified]
    exact chained.identified

theorem Chained.step {action : RevHistoryAction} {next : RevHistory}
    (chained : h.Chained platform) (allowed : h.Extends action)
    (step : Step platform h action next) : next.Chained platform := by
  cases step with
  | call call =>
      rcases DocDB.call_assigns platform chained.single.wellFormed call with
        ⟨⟨failure, refused⟩, same⟩ | ⟨rev, r, accepted, assigns, same⟩
      · rw [act, refused, same]
        exact chained
      · rw [act, accepted, same]
        exact chained.assign allowed assigns
  | reopen all listed => exact chained.reopen listed

theorem Chained.nodup (chained : h.Chained platform) (id : GoString) :
    (h.revisions id).Nodup := by
  apply (chained.increasing id).imp
  intro newer older earlier same
  rw [same] at earlier
  exact lt_irrefl _ earlier

theorem Chained.newest (chained : h.Chained platform) {id rev : GoString}
    (assigned : rev ∈ h.revisions id) :
    id ≠ [] ∧ ∃ newest, (h.revisions id).head? = some newest ∧ newest ≠ [] := by
  constructor
  · rintro rfl
    rw [chained.identified] at assigned
    contradiction
  · cases known : h.revisions id with
    | nil =>
        rw [known] at assigned
        contradiction
    | cons newest rest =>
        have member : newest ∈ h.revisions id := by
          rw [known]
          exact List.mem_cons_self
        exact ⟨newest, rfl, chained.ne_nil member⟩

end

end RevHistory

/-- Where every write extends the history, no revision of a document is
assigned twice, and a write with a superseded one is a conflict.  A removal is
one only for a document that no restart has forgotten. -/
theorem revisions_never_reused (platform : Platform)
    (storeNode nodeID collection : GoString) (now : Int64) {h : RevHistory}
    (run : Run (RevHistory.Step platform) RevHistory.Extends
      (RevHistory.start platform storeNode nodeID collection now) h) (id : GoString) :
    (h.revisions id).Nodup ∧
      ∀ rev ∈ h.revisions id, (h.revisions id).head? ≠ some rev →
        (∀ env doc, env.cancelled = false → doc.stringField fieldID = id →
          doc.stringField fieldRev = rev →
          (h.db.put platform env doc).1 = .error .conflict) ∧
        ∀ env, env.cancelled = false →
          (h.db.revs.lookup id = none → h.db.stored id = none) →
          (h.db.remove platform env id rev).1 = .error .conflict := by
  have chained : h.Chained platform :=
    run.keeps (fun chained allowed step => chained.step allowed step)
      (RevHistory.chained_start platform storeNode nodeID collection now)
  refine ⟨chained.nodup id, ?_⟩
  intro rev assigned superseded
  obtain ⟨identified, newest, isNewest, revised⟩ := chained.newest assigned
  have named : rev ≠ [] := chained.ne_nil assigned
  have stale : rev ≠ newest := fun same => superseded (same ▸ isNewest)
  constructor
  · intro env doc active isID isRev
    apply DocDB.put_conflict active (isID ▸ identified)
    rw [isID, isRev]
    rcases chained.cached id newest isNewest with cached | forgotten
    · exact DocDB.baseRev_stale cached revised named stale
    · exact DocDB.baseRev_unknown forgotten named
  · intro env active remembered
    have cached := chained.cached_of_remembered isNewest remembered
    exact DocDB.remove_conflict active identified
      (DocDB.baseRev_stale cached revised named stale)

def xDocument : Doc := Finmap.singleton fieldID (.string (ascii ['x']))

def xWritten : RevHistory :=
  (RevHistory.start .revOnly [] (ascii ['n']) [] 0).act .revOnly
    (.call (.put (.at 1000) xDocument))

/-- What the store lists for a restart after the first write. -/
def xListing : List Record :=
  [(xWritten.db.stored (ascii ['x'])).getD Record.zero,
    (xWritten.db.stored metaVectorID).getD Record.zero]

def xReopened : RevHistory := xWritten.act .revOnly (.reopen xListing)

def xRewritten : RevHistory := xReopened.act .revOnly (.call (.put (.at 1001) xDocument))

theorem revisions_never_reused_restart :
    let revisions := xRewritten.revisions (ascii ['x'])
    let first := revisions.getLast?.getD []
    revisions.length = 2 ∧ revisions.Nodup ∧
      (xRewritten.db.put .revOnly (.at 1002) (xDocument.insert fieldRev (.string first))).1 =
        .error .conflict := by
  intro revisions first
  have allowedFirst : (RevHistory.start .revOnly [] (ascii ['n']) [] 0).Extends
      (.call (.put (.at 1000) xDocument)) := by
    have absent : (RevHistory.start .revOnly [] (ascii ['n']) [] 0).db.storedClock
        (ascii ['x']) = none := by
      decide +kernel
    refine ⟨by decide +kernel, ?_, fun isVector => absurd isVector (by decide +kernel), ?_⟩
    · intro clock found
      exact absurd (absent.symm.trans found) (by simp)
    · unfold Extensible
      decide +kernel
  have allowedSecond : xReopened.Extends (.call (.put (.at 1001) xDocument)) := by
    have present : xReopened.db.storedClock (ascii ['x']) = some ⟨1000, 1⟩ := by
      decide +kernel
    refine ⟨by decide +kernel, ?_, fun isVector => absurd isVector (by decide +kernel), ?_⟩
    · intro clock found
      cases present.symm.trans found
      exact .inl (by decide)
    · unfold Extensible
      decide +kernel
  have written : Run (RevHistory.Step .revOnly) RevHistory.Extends
      (.start .revOnly [] (ascii ['n']) [] 0) xWritten :=
    .step .start allowedFirst (.call _)
  have reopened : Run (RevHistory.Step .revOnly) RevHistory.Extends
      (.start .revOnly [] (ascii ['n']) [] 0) xReopened :=
    .step written (show xWritten.Extends (.reopen xListing) from trivial)
      (.reopen xListing (by decide +kernel))
  obtain ⟨unique, superseded⟩ := revisions_never_reused .revOnly [] (ascii ['n']) [] 0
    (.step reopened allowedSecond (.call _)) (ascii ['x'])
  refine ⟨by decide +kernel, unique, ?_⟩
  exact (superseded first (by decide +kernel) (by decide +kernel)).1 (.at 1002) _ rfl
    (by decide +kernel) (by decide +kernel)

def xRemoved : RevHistory := xWritten.act .revOnly (.call (.remove (.at 1001) (ascii ['x']) []))

def xForgotten : RevHistory :=
  xRemoved.act .revOnly (.reopen [(xRemoved.db.stored metaVectorID).getD Record.zero])

def xRecreated : RevHistory := xForgotten.act .revOnly (.call (.put (.at 1002) xDocument))

/-- A restart forgets the revision of a removed document: written again with the
same body, it gets its first revision back, and whoever still holds that one is
not refused. -/
theorem revision_reused :
    let body := (Platform.revOnly.json.marshal xDocument.splitDoc).getD []
    let first := ((xWritten.revisions (ascii ['x'])).head?).getD []
    Platform.revOnly.sha1 body ≠ Platform.revOnly.sha1 [] ∧
      Run (RevHistory.Step .revOnly) (fun _ _ => True) (.start .revOnly [] (ascii ['n']) [] 0)
        xRecreated ∧
      (xRemoved.revisions (ascii ['x'])).head? ≠ some first ∧
      xRecreated.revisions (ascii ['x']) =
        [first, ((xRemoved.revisions (ascii ['x'])).head?).getD [], first] ∧
      ¬ (xRecreated.revisions (ascii ['x'])).Nodup ∧
      ((xRecreated.db.put .revOnly (.at 1003)
        (xDocument.insert fieldRev (.string first))).1.toOption).isSome = true := by
  refine ⟨by decide +kernel, ?_, by decide +kernel, by decide +kernel, by decide +kernel,
    by decide +kernel⟩
  have written : Run (RevHistory.Step .revOnly) (fun _ _ => True)
      (.start .revOnly [] (ascii ['n']) [] 0) xWritten :=
    .step .start trivial (.call _)
  have removed : Run (RevHistory.Step .revOnly) (fun _ _ => True)
      (.start .revOnly [] (ascii ['n']) [] 0) xRemoved :=
    .step written trivial (.call _)
  have forgotten : Run (RevHistory.Step .revOnly) (fun _ _ => True)
      (.start .revOnly [] (ascii ['n']) [] 0) xForgotten :=
    .step removed trivial (.reopen _ (by decide +kernel))
  exact .step forgotten trivial (.call _)

end NellDB
