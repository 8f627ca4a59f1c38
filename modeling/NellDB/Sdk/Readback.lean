import NellDB.Sdk.Stamps

namespace NellDB

open Data

/-! Reading a document back after `Put`. -/

/-- A value that the JSON library encodes as it stands: its texts are valid, its
numbers finite, and the members of an object are listed in the order of their
names. -/
inductive Value.IsJson : Value → Prop
  | null : IsJson .null
  | bool (flag : Bool) : IsJson (.bool flag)
  | number (bits : UInt64) (finite : (bits >>> 52) &&& 0x7FF ≠ 0x7FF) : IsJson (.number bits)
  | string (text : GoString) (valid : Utf8.Valid text) : IsJson (.string text)
  | array (items : List Value) (each : ∀ item ∈ items, item.IsJson) : IsJson (.array items)
  | object (fields : List (GoString × Value)) (sorted : (fields.map Prod.fst).Pairwise (· < ·))
      (names : ∀ field ∈ fields, Utf8.Valid field.1)
      (each : ∀ field ∈ fields, field.2.IsJson) : IsJson (.object fields)

def Doc.IsJson (doc : Doc) : Prop :=
  ∀ field value, doc.lookup field = some value → Utf8.Valid field ∧ value.IsJson

/-- Decoding undoes encoding. -/
def JsonCodec.Lossless (json : JsonCodec) : Prop :=
  ∀ body text, Doc.IsJson body → json.marshal body = some text →
    json.unmarshal text = some body

namespace JsonCodec

theorem unmarshalRev_of_marshalRev {body : Doc} {text : Bytes}
    (marshalled : marshalRev body = some text) : unmarshalRev text = some body := by
  unfold marshalRev at marshalled
  split at marshalled
  next empty =>
      cases marshalled
      have isEmpty : body = ∅ := by
        apply Finmap.ext_lookup
        intro field
        rw [Finmap.lookup_empty, Finmap.lookup_eq_none, ← Finmap.mem_keys, empty]
        exact Finset.notMem_empty field
      rw [isEmpty]
      rfl
  next =>
      split at marshalled
      next rev found =>
          split at marshalled
          next only =>
              cases marshalled
              have isSingleton : body = Finmap.singleton fieldRev (.string rev) := by
                apply Finmap.ext_lookup
                intro field
                by_cases isRev : field = fieldRev
                · rw [isRev, found, Finmap.lookup_singleton_eq]
                · have absent : field ∉ body := by
                    rw [← Finmap.mem_keys, only.1, Finset.mem_singleton]
                    exact isRev
                  have alone : field ∉ (Finmap.singleton fieldRev (.string rev) : Doc) := by
                    rw [Finmap.mem_singleton]
                    exact isRev
                  rw [Finmap.lookup_eq_none.mpr absent, Finmap.lookup_eq_none.mpr alone]
              rw [isSingleton, unmarshalRev_text]
          next => contradiction
      next => contradiction

/-! The same with a member `Done`, a field of the application. -/

def fieldDone : GoString := ascii ['D', 'o', 'n', 'e']

def openDone : Bytes := [123] ++ quoted fieldDone ++ [58] ++ ascii ['t', 'r', 'u', 'e'] ++ [44]

def marshalDone (body : Doc) : Option Bytes :=
  match body.lookup fieldDone, body.lookup fieldRev with
  | some (.bool true), some (.string _) =>
      (marshalRev (body.erase fieldDone)).map fun text => openDone ++ text.tail
  | _, _ => marshalRev body

def unmarshalDone (text : Bytes) : Option Doc :=
  if openDone <+: text then
    (unmarshalRev (123 :: text.drop openDone.length)).map fun body =>
      body.insert fieldDone (.bool true)
  else
    unmarshalRev text

theorem not_starts_openDone {text : Bytes} {body : Doc}
    (decoded : unmarshalRev text = some body) : ¬ openDone <+: text := by
  unfold unmarshalRev at decoded
  split at decoded
  next empty =>
      rw [empty]
      decide
  next =>
      dsimp only at decoded
      split at decoded
      next isRev =>
          rintro ⟨rest, same⟩
          have firstName := congrArg (List.take 3) (same.trans isRev)
          simp [openRev, openDone, quoted, fieldRev, fieldDone, ascii] at firstName
      next => contradiction

theorem unmarshalDone_of_marshalDone {body : Doc} {text : Bytes}
    (marshalled : marshalDone body = some text) : unmarshalDone text = some body := by
  unfold marshalDone at marshalled
  split at marshalled
  next rev done carried =>
      obtain ⟨inner, encoded, rfl⟩ := Option.map_eq_some_iff.mp marshalled
      have kept : (body.erase fieldDone).lookup fieldRev = some (.string rev) := by
        rw [Finmap.lookup_erase_ne (by decide), carried]
      have whole : 123 :: inner.tail = inner := by
        rw [marshalRev_eq kept encoded]
        rfl
      have restored : (body.erase fieldDone).insert fieldDone (.bool true) = body := by
        apply Finmap.ext_lookup
        intro field
        by_cases isDone : field = fieldDone
        · rw [isDone, Finmap.lookup_insert, done]
        · rw [Finmap.lookup_insert_of_ne _ isDone, Finmap.lookup_erase_ne isDone]
      rw [unmarshalDone, if_pos (List.prefix_append _ _), List.drop_left, whole,
        unmarshalRev_of_marshalRev encoded, Option.map_some, restored]
  next =>
      have decoded := unmarshalRev_of_marshalRev marshalled
      rw [unmarshalDone, if_neg (not_starts_openDone decoded), decoded]

def doneRev : JsonCodec :=
  { revOnly with
    marshal := marshalDone
    unmarshal := unmarshalDone
    unmarshal_nil := by decide
    unmarshal_marshal := fun carried _ marshalled =>
      ⟨_, unmarshalDone_of_marshalDone marshalled, carried⟩ }

theorem lossless_doneRev : doneRev.Lossless := by
  intro body text _ marshalled
  exact unmarshalDone_of_marshalDone marshalled

end JsonCodec

def Platform.doneRev : Platform := { Platform.revOnly with json := .doneRev }

def reservedFields : List GoString :=
  [fieldID, fieldRev, fieldDeleted, fieldType, fieldVector]

namespace Doc

/-- The application's own fields can be encoded. -/
def JsonFields (doc : Doc) : Prop :=
  ∀ field value, field ∉ reservedFields → doc.lookup field = some value →
    Utf8.Valid field ∧ value.IsJson

theorem split_of_not_reserved {field : GoString} (free : field ∉ reservedFields) :
    field ∉ [fieldID, fieldDeleted, fieldType, fieldVector] := by
  simp only [reservedFields, List.mem_cons, List.not_mem_nil, or_false, not_or] at free ⊢
  tauto

theorem JsonFields.body {doc : Doc} (fields : doc.JsonFields) {rev : GoString}
    (valid : Utf8.Valid rev) : IsJson (doc.splitDoc.insert fieldRev (.string rev)) := by
  intro field value found
  rcases FiniteMap.lookup_insert_cases found with ⟨rfl, rfl⟩ | ⟨isRev, inBody⟩
  · exact ⟨by decide +kernel, .string rev valid⟩
  · have kept : field ∉ [fieldID, fieldDeleted, fieldType, fieldVector] := fun erased =>
      not_mem_splitDoc erased doc (Finmap.mem_of_lookup_eq_some inBody)
    rw [lookup_splitDoc kept] at inBody
    refine fields field value ?_ inBody
    simp only [reservedFields, List.mem_cons, List.not_mem_nil, or_false, not_or] at kept ⊢
    tauto

end Doc

namespace DocDB

/-- `Get` returns the application's fields of a document under its id and
revision; of a deleted one it returns nothing. -/
structure Reads (platform : Platform) (db : DocDB) (doc : Doc) (rev : GoString) : Prop where
  deleted : doc.isDeleted = true →
    db.get platform false (doc.stringField fieldID) = .error .notFound
  live : doc.isDeleted = false → ∃ got,
    db.get platform false (doc.stringField fieldID) = .ok got ∧
      got.lookup fieldID = some (.string (doc.stringField fieldID)) ∧
      got.lookup fieldRev = some (.string rev) ∧
      ∀ field ∉ reservedFields, got.lookup field = doc.lookup field

/-- The stored clock is before a reading of the system clock, or its counter
can be raised twice. -/
def StampsPast (db : DocDB) (env : CallEnv) (id : GoString) : Prop :=
  ∀ clock, db.storedClock id = some clock →
    clock.wallTime < env.fresh ∨ clock.wallTime < env.tick ∨ clock.HasRoomForTwo

theorem lt_stampFor_of_fresh {clock : HLC} {env : CallEnv}
    (later : clock.wallTime < env.fresh) : clock < stampFor env (some clock) := by
  have kept : (newHLC env.fresh).update clock = newHLC env.fresh :=
    HLC.update_of_wallTime_lt later
  have started : clock < newHLC env.fresh := HLC.lt_of_wallTime_lt later
  unfold stampFor
  simp only [kept]
  exact started.trans (HLC.lt_tick (HLC.hasRoom_newHLC env.fresh) env.tick)

theorem counter_wraps {counter : Int32} (full : ¬ counter < Int32.maxValue - 1) :
    counter + 1 + 1 < counter := by
  have last : counter = Int32.maxValue - 1 ∨ counter = Int32.maxValue := by
    have upper := counter.toInt_lt
    have top : Int32.maxValue.toInt = 2 ^ 31 - 1 := by decide
    have second : (Int32.maxValue - 1).toInt = 2 ^ 31 - 2 := by decide
    rw [Int32.lt_iff_toInt_lt] at full
    rw [← Int32.toInt_inj, ← Int32.toInt_inj]
    omega
  rcases last with rfl | rfl
  · decide
  · decide

/-- Otherwise merging and ticking take the counter around. -/
theorem stampFor_lt_of_full {clock : HLC} {env : CallEnv}
    (notFresh : ¬ clock.wallTime < env.fresh) (notTick : ¬ clock.wallTime < env.tick)
    (full : ¬ clock.HasRoomForTwo) : stampFor env (some clock) < clock := by
  have merged : (newHLC env.fresh).update clock = ⟨clock.wallTime, clock.counter + 1⟩ := by
    by_cases ahead : clock.wallTime > env.fresh
    · exact if_pos ahead
    · have wall : clock.wallTime = env.fresh := by
        rw [gt_iff_lt, Int64.lt_iff_toInt_lt] at ahead
        rw [Int64.lt_iff_toInt_lt] at notFresh
        rw [← Int64.toInt_inj]
        omega
      have positive : clock.counter ≥ 0 := by
        unfold HLC.HasRoomForTwo at full
        have second : (Int32.maxValue - 1).toInt = 2 ^ 31 - 2 := by decide
        have zero : (0 : Int32).toInt = 0 := by decide
        rw [Int32.lt_iff_toInt_lt] at full
        rw [ge_iff_le, Int32.le_iff_toInt_le]
        omega
      refine (if_neg ahead).trans ((if_pos ⟨wall, positive⟩).trans ?_)
      rw [wall]
      rfl
  have ticked : stampFor env (some clock) = ⟨clock.wallTime, clock.counter + 1 + 1⟩ := by
    unfold stampFor
    simp only [merged]
    exact if_neg notTick
  rw [ticked, HLC.lt_iff]
  exact .inr ⟨rfl, counter_wraps full⟩

theorem lt_stampFor_iff {clock : HLC} {env : CallEnv} :
    clock < stampFor env (some clock) ↔
      clock.wallTime < env.fresh ∨ clock.wallTime < env.tick ∨ clock.HasRoomForTwo := by
  constructor
  · intro later
    by_contra none
    simp only [not_or] at none
    exact lt_asymm later (stampFor_lt_of_full none.1 none.2.1 none.2.2)
  · rintro (fresh | tick | room)
    · exact lt_stampFor_of_fresh fresh
    · exact lt_stampFor_of_tick tick _
    · exact lt_stampFor_of_room room env

section

variable {platform : Platform} {db : DocDB} {env : CallEnv} {doc : Doc} {newRev : GoString}
  {written : Record}

theorem Prepared.stored_afterPut (prepared : Prepared platform db env doc newRev written)
    (past : db.StampsPast env written.id) :
    (db.store.afterPut written).records.lookup (flatKey db.collection written.id) =
      some written := by
  apply prepared.localWrite.lookup_afterPut_of_lt
  intro clock found
  rw [prepared.clock, found]
  exact lt_stampFor_iff.mpr (past clock found)

theorem Prepared.lost_afterPut (prepared : Prepared platform db env doc newRev written)
    (notPast : ¬ db.StampsPast env written.id) :
    (db.store.afterPut written).records.lookup (flatKey db.collection written.id) =
      db.stored written.id := by
  have isLocal := prepared.localWrite
  simp only [StampsPast, not_forall, not_or] at notPast
  obtain ⟨clock, found, notFresh, notTick, full⟩ := notPast
  have earlier : written.clock < clock := by
    rw [prepared.clock, found]
    exact stampFor_lt_of_full notFresh notTick full
  rw [storedClock_eq, Option.map_eq_some_iff] at found
  obtain ⟨held, present, rfl⟩ := found
  have atKey : db.store.records.lookup written.key = some held := by
    rw [isLocal.placed]
    exact present
  have behind : ¬ held.stamp < written.stamp :=
    (Record.stamp_lt_of_clock_lt earlier).not_gt
  rw [MemoryStore.afterPut_records, Record.defaulted_of_named isLocal.named, ← isLocal.placed,
    Champion.lookup_enter_of_some atKey, Champion.prefer, if_neg behind, present]

theorem commit_stored_of_unshadowed (platform : Platform) (db : DocDB) (env : CallEnv)
    (r : Record) (id rev : GoString) {other : GoString}
    (unshadowed : other = metaVectorID → db.nodeID = []) :
    (db.commit platform env r id rev db.nodeID).stored other =
      (db.store.afterPut r).records.lookup (flatKey db.collection other) := by
  by_cases apart : other = metaVectorID
  · have silent : db.commit platform env r id rev db.nodeID =
        { db with store := db.store.afterPut r, revs := db.revs.insert id rev } :=
      if_pos (unshadowed apart)
    rw [silent]
    rfl
  · exact commit_stored_of_ne platform db env r id rev db.nodeID apart

theorem prepare_deleted (prepared : db.prepare platform env doc = .ok (newRev, written)) :
    written.deleted = doc.isDeleted := by
  unfold prepare check at prepared
  simp only [bind, Except.bind, pure, Except.pure, throw, throwThe,
    MonadExceptOf.throw] at prepared
  split at prepared
  next => contradiction
  next =>
      split at prepared
      next => contradiction
      next =>
          split at prepared
          next => contradiction
          next =>
              split at prepared
              next => contradiction
              next =>
                  split at prepared
                  next => contradiction
                  next =>
                      cases prepared
                      rfl

/-- The document that a prepared record reads as. -/
theorem prepare_joinDoc (lossless : platform.json.Lossless) (fields : doc.JsonFields)
    (prepared : db.prepare platform env doc = .ok (newRev, written)) (id : GoString) :
    written.joinDoc platform.json id =
      doc.splitDoc.insert fieldRev (.string newRev) ∪ written.header id := by
  have outcome := prepare_outcome platform db env doc
  rw [prepared] at outcome
  cases outcome with
  | ready base raw _ active identified accepted marshalled =>
      have decoded := lossless _ _ (fields.body (valid_genRev _ _ _)) marshalled
      exact Record.joinDoc_of_rev decoded (Finmap.lookup_insert _) id

/-- What `Put` wrote reads back where it is stored. -/
theorem reads_of_stored {next : DocDB} (lossless : platform.json.Lossless)
    (fields : doc.JsonFields) (prepared : db.prepare platform env doc = .ok (newRev, written))
    (kept : next.stored (doc.stringField fieldID) = some written) :
    next.Reads platform doc newRev := by
  have deleted := prepare_deleted prepared
  constructor
  · intro gone
    simp [get, get_eq, kept, deleted, gone]
  · intro live
    refine ⟨written.joinDoc platform.json (doc.stringField fieldID), ?_, ?_, ?_, ?_⟩
    · simp [get, get_eq, kept, deleted, live]
    · rw [prepare_joinDoc lossless fields prepared, Finmap.lookup_union_right,
        Record.lookup_header_id]
      rw [Finmap.mem_insert, not_or]
      exact ⟨by decide, Doc.not_mem_splitDoc (by simp) doc⟩
    · exact Record.joinDoc_rev (prepare_ok prepared).carried
    · intro field free
      have kept := Doc.split_of_not_reserved free
      have notRev : field ≠ fieldRev := by
        rintro rfl
        exact free (by decide)
      have body : (doc.splitDoc.insert fieldRev (.string newRev)).lookup field =
          doc.lookup field := by
        rw [Finmap.lookup_insert_of_ne _ notRev, Doc.lookup_splitDoc kept]
      rw [prepare_joinDoc lossless fields prepared, ← body]
      by_cases present : field ∈ doc.splitDoc.insert fieldRev (.string newRev)
      · exact Finmap.lookup_union_left present
      · rw [Finmap.lookup_union_right present, Finmap.lookup_eq_none.mpr present]
        apply Record.lookup_header_of_ne
        simp only [List.mem_cons, List.not_mem_nil, or_false, not_or] at kept ⊢
        tauto

end

end DocDB

/-- A document whose stamp is past the stored clock, and which the record of
the vector does not replace, reads back after `Put`.  Where the stamp is not
past the stored clock, `Put` reports success as well and `Get` answers as before. -/
theorem put_readable {platform : Platform} (lossless : platform.json.Lossless)
    {db next : DocDB} {env : CallEnv} {doc stamped : Doc} {rev : GoString}
    (fields : doc.JsonFields)
    (done : db.put platform env doc = (.ok (rev, stamped), next)) :
    (db.StampsPast env (doc.stringField fieldID) →
      (doc.stringField fieldID = metaVectorID → db.nodeID = []) →
      next.Reads platform doc rev) ∧
    (¬ db.StampsPast env (doc.stringField fieldID) →
      doc.stringField fieldID ≠ metaVectorID →
      ∀ cancelled, next.get platform cancelled (doc.stringField fieldID) =
        db.get platform cancelled (doc.stringField fieldID)) := by
  rcases DocDB.put_cases platform db env doc with
    ⟨failure, _, refused⟩ | ⟨newRev, written, prepared, valid, result⟩
  · rw [refused] at done
    cases done
  · rw [result] at done
    cases done
    have placed := valid.id
    refine ⟨?_, ?_⟩
    · intro past unshadowed
      apply DocDB.reads_of_stored lossless fields prepared
      rw [← placed] at past unshadowed ⊢
      rw [DocDB.commit_stored_of_unshadowed _ _ _ _ _ _ unshadowed]
      exact valid.stored_afterPut past
    · intro notPast apart cancelled
      rw [← placed] at notPast apart ⊢
      have kept := DocDB.commit_stored_of_ne platform db env written written.id rev db.nodeID apart
      rw [valid.lost_afterPut notPast] at kept
      exact DocDB.get_eq_of_stored platform kept cancelled

/-- A peer's document is marked as done. -/
theorem put_readable_done :
    let db := newDocDB .doneRev (newMemoryStore [] 0) (ascii ['n']) [] []
    let remote : Record :=
      { Record.zero with
        collection := defaultCollection
        id := ascii ['x']
        type := typeText
        payload := JsonCodec.openRev ++ ascii ['1', '-', 'z'] ++ JsonCodec.closeRev
        clock := ⟨500, 0⟩
        updatedBy := ascii ['m'] }
    let db := db.ingestRemote .doneRev (.at 1000) remote
    let doc : Doc :=
      ((Finmap.singleton fieldID (.string (ascii ['x']))).insert fieldRev
        (.string (ascii ['1', '-', 'z']))).insert JsonCodec.fieldDone (.bool true)
    let next := (db.put .doneRev (.at 1000) doc).2
    db.stored (ascii ['x']) = some remote ∧
      ∃ rev, next.Reads .doneRev doc rev ∧
        ∃ got, next.get .doneRev false (ascii ['x']) = .ok got ∧
          got.lookup JsonCodec.fieldDone = some (.bool true) := by
  intro db remote db doc next
  have fields : doc.JsonFields := by
    intro field value free found
    rcases FiniteMap.lookup_insert_cases found with ⟨rfl, rfl⟩ | ⟨_, found⟩
    · exact ⟨by decide +kernel, .bool true⟩
    · have reserved := Finmap.mem_of_lookup_eq_some found
      rw [Finmap.mem_insert, Finmap.mem_singleton] at reserved
      rcases reserved with rfl | rfl
      · exact absurd (by decide) free
      · exact absurd (by decide) free
  have held : db.stored (ascii ['x']) = some remote := by decide +kernel
  have clock : db.storedClock (doc.stringField fieldID) = some ⟨500, 0⟩ := by decide +kernel
  have accepted : (db.put .doneRev (.at 1000) doc).1.toOption.isSome = true := by decide +kernel
  have isNext : next = (db.put .doneRev (.at 1000) doc).2 := rfl
  clear_value next
  rcases DocDB.put_cases .doneRev db (.at 1000) doc with
    ⟨failure, _, refused⟩ | ⟨rev, _, _, _, result⟩
  · rw [refused] at accepted
    simp [Except.toOption] at accepted
  · have done : db.put .doneRev (.at 1000) doc =
        (.ok (rev, doc.insert fieldRev (.string rev)), next) := by
      rw [isNext, result]
    have reads : next.Reads .doneRev doc rev := by
      apply (put_readable JsonCodec.lossless_doneRev fields done).1
      · intro stored found
        cases clock.symm.trans found
        left
        decide
      · intro shadowed
        exact absurd shadowed (by decide)
    obtain ⟨got, read, _, _, same⟩ := reads.live (by decide +kernel)
    refine ⟨held, rev, reads, got, read, ?_⟩
    rw [same _ (by decide)]
    exact Finmap.lookup_insert _

/-- A peer's record whose counter is at its end: the stamp of the local write
wraps around, the store keeps the peer's record, and `Put` reports a revision
that no document has. -/
theorem put_unreadable :
    let db := newDocDB .revOnly (newMemoryStore [] 0) (ascii ['n']) [] []
    let remote : Record :=
      { collection := defaultCollection
        id := ascii ['x']
        type := typeText
        payload := JsonCodec.openRev ++ ascii ['1', '-', 'z'] ++ JsonCodec.closeRev
        vector := []
        clock := ⟨5000, Int32.maxValue⟩
        updatedBy := ascii ['m']
        deleted := false }
    let db := db.ingestRemote .revOnly (.at 1000) remote
    let doc : Doc := Finmap.singleton fieldID (.string (ascii ['x']))
    let next := (db.put .revOnly (.at 1000) doc).2
    (∃ rev stamped, (db.put .revOnly (.at 1000) doc).1 = .ok (rev, stamped) ∧
      ¬ next.Reads .revOnly doc rev) ∧
      ((next.get .revOnly false (ascii ['x'])).toOption.map fun got =>
        got.stringField fieldRev) = some (ascii ['1', '-', 'z']) := by
  intro db remote db doc next
  have stale : ((next.get .revOnly false (ascii ['x'])).toOption.map fun got =>
      got.stringField fieldRev) = some (ascii ['1', '-', 'z']) := by
    decide +kernel
  have accepted : ((db.put .revOnly (.at 1000) doc).1.toOption.map fun result =>
      decide (result.1 = ascii ['1', '-', 'z'])) = some false := by
    decide +kernel
  have isX : doc.stringField fieldID = ascii ['x'] := by decide +kernel
  have live : doc.isDeleted = false := by decide +kernel
  clear_value next db doc
  refine ⟨?_, stale⟩
  cases result : (db.put .revOnly (.at 1000) doc).1 with
  | error failure =>
      rw [result] at accepted
      contradiction
  | ok answer =>
      refine ⟨answer.1, answer.2, rfl, ?_⟩
      intro reads
      obtain ⟨got, read, _, carried, _⟩ := reads.live live
      rw [isX] at read
      rw [read] at stale
      rw [result] at accepted
      simp only [Except.toOption, Option.map_some, Option.some.injEq, Doc.stringField,
        carried, decide_eq_false_iff_not] at stale accepted
      exact accepted stale

end NellDB
