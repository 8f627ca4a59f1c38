import NellDB.Sdk.LiveWS

namespace NellDB

open Data

/-! Where the records of live replication come from. -/

structure Record.SameWrite (r w : Record) : Prop where
  collection : r.collection = w.collection
  id : r.id = w.id
  payload : r.payload = w.payload
  clock : r.clock = w.clock
  updatedBy : r.updatedBy = w.updatedBy
  deleted : r.deleted = w.deleted

instance (r w : Record) : Decidable (r.SameWrite w) :=
  decidable_of_iff
    (r.collection = w.collection ∧ r.id = w.id ∧ r.payload = w.payload ∧
      r.clock = w.clock ∧ r.updatedBy = w.updatedBy ∧ r.deleted = w.deleted)
    ⟨fun ⟨collection, id, payload, clock, updatedBy, deleted⟩ =>
        ⟨collection, id, payload, clock, updatedBy, deleted⟩,
      fun ⟨collection, id, payload, clock, updatedBy, deleted⟩ =>
        ⟨collection, id, payload, clock, updatedBy, deleted⟩⟩

namespace LiveWS

variable {ι : Type}

def WritesText (platform : Platform) (sys : LiveWS ι) : LiveAction ι → Prop
  | .call client issued =>
      ∀ r, (sys.clients client).writes platform issued = some r → Utf8.Valid issued.id
  | .exchange => True

/-- The record repeats a local write of the collection, in valid UTF-8. -/
structure Repeats (collection : GoString) (w r : Record) : Prop where
  same : r.SameWrite w
  inside : w.collection = collection
  validID : Utf8.Valid w.id
  validNode : Utf8.Valid w.updatedBy

def FromWrite (collection : GoString) (written : List Record) (r : Record) : Prop :=
  ∃ w ∈ written, Repeats collection w r

theorem FromWrite.inside {collection : GoString} {written : List Record} {r : Record}
    (traced : FromWrite collection written r) : r.collection = collection := by
  obtain ⟨w, _, repeats⟩ := traced
  exact repeats.same.collection.trans repeats.inside

/-- All clients are on one collection, so no record has to be rebuilt. -/
theorem passable_fromWrite {collection : GoString} (valid : Utf8.Valid collection)
    (named : collection ≠ []) (written : List Record) :
    Passable (FromWrite collection written) fun _ : ι => collection where
  overJson := by
    rintro r ⟨w, member, same, inside, validID, validNode⟩
    refine ⟨w, member, ?_, inside, validID, validNode⟩
    refine ⟨?_, ?_, same.payload, same.clock, ?_, same.deleted⟩
    · rw [Record.overJson, same.collection, inside]
      exact valid
    · rw [Record.overJson, same.id]
      exact validID
    · rw [Record.overJson, same.updatedBy]
      exact validNode
  defaulted {r} traced := by
    rw [Record.defaulted_of_named (traced.inside ▸ named)]
    exact traced
  rebuilt {r} traced _ elsewhere := by
    rw [Record.defaulted_of_named (traced.inside ▸ named)] at elsewhere
    exact absurd traced.inside elsewhere

end LiveWS

theorem DocDB.publish_some {platform : Platform} {db : DocDB} (wellFormed : WellFormed db.store)
    {issued : LocalCall} {change : Change}
    (published : db.publish platform issued = some change) :
    change.id = issued.id ∧ ∃ r, db.writes platform issued = some r := by
  cases issued with
  | put env doc =>
      rcases put_cases platform db env doc with
        ⟨failure, _, result⟩ | ⟨newRev, written, prepared, _, result⟩
      · simp [publish, result] at published
      · simp only [publish, result, Option.some.injEq] at published
        subst change
        exact ⟨rfl, written, by simp [writes, prepared, Except.toOption]⟩
  | remove env id wantRev =>
      rcases remove_cases platform wellFormed env id wantRev with
        ⟨failure, _, result⟩ | ⟨newRev, tombstone, prepared, _, result⟩
      · simp [publish, result] at published
      · simp only [publish, result, Option.some.injEq] at published
        subst change
        exact ⟨rfl, tombstone, by simp [writes, prepared, Except.toOption]⟩

namespace LiveWS

variable {ι : Type} [DecidableEq ι]

theorem Sends.call {good : Record → Prop} {db : DocDB} {feed : List Change}
    (sends : Sends good db feed) (wellFormed : WellFormed db.store) {platform : Platform}
    {issued : LocalCall} (isGood : ∀ r, db.writes platform issued = some r → good r)
    {next : List Change} (feeds : Feeds feed (db.publish platform issued) next) :
    Sends good (db.call platform issued) next := by
  rcases DocDB.call_cases platform wellFormed issued with
    ⟨none, same⟩ | ⟨r, rev, writes, written, same⟩
  · rw [same]
    refine sends.publish ?_ feeds
    intro change published
    obtain ⟨_, r, writes⟩ := DocDB.publish_some wellFormed published
    rw [none] at writes
    cases writes
  · rw [same]
    have kept : r.defaulted = r := Record.defaulted_of_named written.named
    refine (sends.commit (kept.symm ▸ isGood r writes) platform _ _ _ _).publish ?_ feeds
    intro change published document absent
    rw [(DocDB.publish_some wellFormed published).1] at document absent
    rw [DocDB.commit_stored platform db issued.env r _ _ _ document] at absent
    obtain ⟨held, found, _⟩ := db.store.covers_afterPut r
    rw [kept, written.placed] at found
    exact absurd (absent.symm.trans found) (by simp)

omit [DecidableEq ι] in
theorem Carries.mono {good better : Record → Prop} {collection : ι → GoString}
    {sys : LiveWS ι} (carries : sys.Carries good collection)
    (implies : ∀ r, good r → better r) : sys.Carries better collection where
  sameCollection := carries.sameCollection
  sends i :=
    { stored := fun document found => implies _ ((carries.sends i).stored document found)
      feed := fun change member document absent payload =>
        implies _ ((carries.sends i).feed change member document absent payload) }
  toServer changes member r isSent := implies r (carries.toServer changes member r isSent)
  changes receipt member r isChange := implies r (carries.changes receipt member r isChange)
  remaining receipt member r remains := implies r (carries.remaining receipt member r remains)
  toClients sent member r isSent := implies r (carries.toClients sent member r isSent)

structure Traced (collection : GoString) (sys : LiveWS ι) : Prop where
  carries : sys.Carries (FromWrite collection sys.written) fun _ => collection
  single : ∀ i, SingleCollection (sys.clients i).store collection
  nodes : ∀ i, Utf8.Valid (sys.clients i).nodeID
  accepted : ∀ r ∈ sys.accepted, FromWrite collection sys.written r

namespace Traced

variable {collection : GoString} {sys : LiveWS ι}

omit [DecidableEq ι] in
theorem new (platform : Platform) {nodeID : ι → GoString} (nodes : ∀ i, Utf8.Valid (nodeID i))
    (collection : GoString) (now : ι → Int64) (serverID : GoString) (serverNow : Int64) :
    Traced (orDefault collection)
      (LiveWS.new platform nodeID (fun _ => collection) now serverID serverNow) where
  carries :=
    { sameCollection := fun _ => rfl
      sends := fun i =>
        { stored := fun _ found => by
            simp [LiveWS.new, newDocDB, DocDB.reindex, DocDB.stored, newMemoryStore] at found
          feed := by simp [LiveWS.new] }
      toServer := by simp [LiveWS.new]
      changes := by simp [LiveWS.new]
      remaining := by simp [LiveWS.new]
      toClients := by simp [LiveWS.new] }
  single i := singleCollection_newMemoryStore (nodeID i) (orDefault collection) (now i)
  nodes := nodes
  accepted := by simp [LiveWS.new]

omit [DecidableEq ι] in
theorem fromWrite_append {earlier : List Record} (later : List Record) {r : Record}
    (traced : FromWrite collection earlier r) : FromWrite collection (later ++ earlier) r := by
  obtain ⟨w, member, repeats⟩ := traced
  exact ⟨w, List.mem_append_right later member, repeats⟩

theorem setClient (traced : sys.Traced collection) (client : ι) {db : DocDB}
    {feed : List Change} (same : db.collection = collection)
    (sends : Sends (FromWrite collection sys.written) db feed)
    (single : SingleCollection db.store collection) (node : Utf8.Valid db.nodeID) :
    (sys.setClient client db feed).Traced collection where
  carries := traced.carries.setClient same sends
  single :=
    (Function.forall_update_iff sys.clients fun _ other =>
      SingleCollection other.store collection).mpr ⟨single, fun i _ => traced.single i⟩
  nodes :=
    (Function.forall_update_iff sys.clients fun _ other => Utf8.Valid other.nodeID).mpr
      ⟨node, fun i _ => traced.nodes i⟩
  accepted := traced.accepted

theorem call (traced : sys.Traced collection) {platform : Platform} {client : ι}
    {issued : LocalCall} {feed : List Change}
    (valid : sys.WritesText platform (.call client issued))
    (feeds : Feeds (sys.feeds client) ((sys.clients client).publish platform issued) feed) :
    (sys.call platform client issued feed).Traced collection := by
  have same := traced.carries.sameCollection client
  have single := traced.single client
  let written := ((sys.clients client).writes platform issued).toList ++ sys.written
  have carries : sys.Carries (FromWrite collection written) fun _ => collection :=
    traced.carries.mono fun _ => fromWrite_append _
  have later : ({ sys with written } : LiveWS ι).Traced collection :=
    { carries := { carries with }
      single := traced.single
      nodes := traced.nodes
      accepted := fun r member => fromWrite_append _ (traced.accepted r member) }
  have isOwn (r : Record) (writes : (sys.clients client).writes platform issued = some r) :
      FromWrite collection written r := by
    rcases DocDB.call_cases platform single.wellFormed issued with
      ⟨none, _⟩ | ⟨other, _, isOther, isLocal, _⟩
    · rw [none] at writes
      cases writes
    · cases writes.symm.trans isOther
      have inside := isLocal.inside same single
      refine ⟨r, by simp [written, writes], ⟨rfl, rfl, rfl, rfl, rfl, rfl⟩, inside, ?_, ?_⟩
      · rw [isLocal.id_eq (inside.trans same.symm)]
        exact valid r writes
      · rw [isLocal.updatedBy]
        exact traced.nodes client
  have sends := (later.carries.sends client).call single.wellFormed isOwn feeds
  rcases DocDB.call_cases platform single.wellFormed issued with
    ⟨_, idle⟩ | ⟨r, rev, writes, isLocal, result⟩
  · rw [idle] at sends
    rw [LiveWS.call, idle]
    exact later.setClient client same sends single (traced.nodes client)
  · rw [result] at sends
    rw [LiveWS.call, result]
    refine later.setClient client ?_ sends ?_ ?_
    · rw [DocDB.commit_collection]
      exact same
    · exact single.commit same (isLocal.inside same single) platform _ _ _ _
    · rw [DocDB.commit_nodeID]
      exact traced.nodes client

theorem exchange (traced : sys.Traced collection) (valid : Utf8.Valid collection)
    (named : collection ≠ []) {platform : Platform} {next : LiveWS ι}
    (step : Step platform sys .exchange next) : next.Traced collection := by
  have carries := traced.carries.exchange (passable_fromWrite valid named sys.written) step
  cases step with
  | send | receive | finish | loseToServer | loseToClient =>
      exact ⟨carries, traced.single, traced.nodes, traced.accepted⟩
  | apply receipt r rest others waiting isNext =>
      refine ⟨carries, traced.single, traced.nodes, ?_⟩
      have isGood := traced.carries.remaining receipt (waiting ▸ Multiset.mem_cons_self _ _) r
        (isNext ▸ List.mem_cons_self)
      exact forall_mem_noteAccepted isGood traced.accepted
  | ingest env client r rest others feed waiting feeds =>
      have isGood := traced.carries.toClients (client, r :: rest)
        (waiting ▸ Multiset.mem_cons_self _ _) r List.mem_cons_self
      have same := traced.carries.sameCollection client
      have sends := traced.carries.sends_ingest (passable_fromWrite valid named sys.written)
        platform env client isGood feeds
      have after := traced.setClient client
        (((sys.clients client).ingestRemote_collection platform env r).trans same) sends
        ((traced.single client).ingestRemote same isGood.inside platform env)
        (((sys.clients client).ingestRemote_nodeID platform env r).symm ▸ traced.nodes client)
      exact ⟨carries, after.single, after.nodes,
        forall_mem_noteAccepted isGood traced.accepted⟩

theorem step (traced : sys.Traced collection) (valid : Utf8.Valid collection)
    (named : collection ≠ []) {platform : Platform} {action : LiveAction ι} {next : LiveWS ι}
    (permitted : sys.WritesText platform action) (step : Step platform sys action next) :
    next.Traced collection := by
  cases action with
  | exchange => exact traced.exchange valid named step
  | call client issued =>
      cases step with
      | call _ _ _ feeds => exact traced.call permitted feeds

end Traced

end LiveWS

/-- Clients on one collection pass on nothing but local writes. -/
theorem accepted_records_written {ι : Type} [DecidableEq ι] (platform : Platform)
    {nodeID : ι → GoString} (nodes : ∀ i, Utf8.Valid (nodeID i)) {collection : GoString}
    (valid : Utf8.Valid collection) (now : ι → Int64) (serverID : GoString) (serverNow : Int64)
    {sys : LiveWS ι}
    (run : Run (LiveWS.Step platform) (LiveWS.WritesText platform)
      (LiveWS.new platform nodeID (fun _ => collection) now serverID serverNow) sys) :
    ∀ r ∈ sys.accepted, ∃ w ∈ sys.written, r.SameWrite w := by
  have validName : Utf8.Valid (orDefault collection) := by
    unfold orDefault
    split
    next => decide +kernel
    next => exact valid
  have traced := run.keeps (fun before permitted step =>
      LiveWS.Traced.step before validName (orDefault_ne_nil collection) permitted step)
    (.new platform nodes collection now serverID serverNow)
  intro r member
  obtain ⟨w, written, repeats⟩ := traced.accepted r member
  exact ⟨w, written, repeats.same⟩

namespace LiveWS

variable {ι : Type} [DecidableEq ι]

def deliver (sys : LiveWS ι) (client : ι) (rest : List Change) (r : Record) : LiveWS ι :=
  { sys with feeds := Function.update sys.feeds client rest }.apply ⟨[r], [r], 0⟩ r []
    sys.receipts

theorem run_deliver {platform : Platform} {start sys : LiveWS ι}
    (run : Run (Step platform) (WritesText platform) start sys) {client : ι} {change : Change}
    {rest : List Change} (waiting : sys.feeds client = change :: rest) {r : Record}
    (sent : (sys.clients client).outgoing platform change = some r)
    (encodes : r.hasJson = true) :
    Run (Step platform) (WritesText platform) start (sys.deliver client rest r.overJson) := by
  have queued : (sys.send platform client change rest).toServer =
      [r.overJson] ::ₘ sys.toServer := by
    simp [LiveWS.send, message, sent, encodes]
  refine .step (.step (.step run ?_ (.send sys client change rest waiting)) ?_
    (.receive _ _ _ queued)) ?_ (.apply _ _ _ _ _ rfl rfl)
  · trivial
  · trivial
  · trivial

/-- A published change as a value that can be evaluated. -/
def changeOf (published : Option Change) : Change := published.getD ⟨[], [], false, none⟩

theorem eq_some_changeOf {published : Option Change} (publishes : published.isSome = true) :
    published = some (changeOf published) :=
  (Option.eq_some_of_isSome publishes).trans (congrArg some (Option.get_eq_getD published))

theorem run_callDeliver {platform : Platform} {start sys : LiveWS ι}
    (run : Run (Step platform) (WritesText platform) start sys) {client : ι} {issued : LocalCall}
    (valid : Utf8.Valid issued.id) (idle : sys.feeds client = []) {change : Change}
    (published : (sys.clients client).publish platform issued = some change) {r : Record}
    (sent : ((sys.call platform client issued [change]).clients client).outgoing platform
      change = some r)
    (encodes : r.hasJson = true) :
    Run (Step platform) (WritesText platform) start
      ((sys.call platform client issued [change]).deliver client [] r.overJson) := by
  have feeds : Feeds (sys.feeds client) ((sys.clients client).publish platform issued)
      [change] := by
    rw [idle, published]
    exact .inr rfl
  have called : Run (Step platform) (WritesText platform) start
      (sys.call platform client issued [change]) := by
    refine .step run ?_ (.call sys client issued [change] feeds)
    exact fun _ _ => valid
  exact run_deliver called (by simp [LiveWS.call, setClient]) sent encodes

/-- The server is done with its only receipt, and the client takes the broadcast in. -/
def relay (platform : Platform) (env : CallEnv) (sys : LiveWS ι) (client : ι) (r : Record)
    (change : Change) : LiveWS ι :=
  { sys with receipts := 0 }.ingest platform env client r.overJson [change] ((client, []) ::ₘ 0)

theorem run_relay {platform : Platform} {start sys : LiveWS ι}
    (run : Run (Step platform) (WritesText platform) start sys) {client : ι} {r : Record}
    {accepted : Nat} (waiting : sys.receipts = ⟨[r], [], accepted⟩ ::ₘ 0)
    (accepts : 0 < accepted) (encodes : r.hasJson = true) (quiet : sys.toClients = 0)
    (idle : sys.feeds client = []) {change : Change}
    (published : DocDB.publishRemote platform r.overJson = some change) (env : CallEnv) :
    Run (Step platform) (WritesText platform) start
      (sys.relay platform env client r change) := by
  have finishes := run.extend (.finish sys ⟨[r], [], accepted⟩ 0 {client} waiting rfl) trivial
  refine finishes.extend (.ingest _ env client r.overJson [] 0 [change] ?_ ?_) trivial
  · simp [broadcast, accepts, encodes, quiet]
  · rw [published]
    exact .inr (by simp [idle])

end LiveWS

/-- One client puts a document; the other one takes the broadcast in and sends the
document back. -/
theorem accepted_records_written_put :
    let start : LiveWS (Fin 2) := .new .idRev ![ascii ['m'], ascii ['n']]
      (fun _ => ascii ['a']) (fun _ => 0) (ascii ['s']) 0
    ∃ sys, Run (LiveWS.Step .idRev) (LiveWS.WritesText .idRev) start sys ∧ sys.accepted ≠ [] ∧
      ((sys.clients 1).stored (ascii ['x'])).isSome = true ∧
      ∀ r ∈ sys.accepted, ∃ w ∈ sys.written, r.SameWrite w := by
  intro start
  let issued : LocalCall := .put (.at 1000) (Finmap.singleton fieldID (.string (ascii ['x'])))
  have publishes : ((start.clients 0).publish .idRev issued).isSome = true := by
    decide +kernel
  let change := LiveWS.changeOf ((start.clients 0).publish .idRev issued)
  let called := start.call .idRev 0 issued [change]
  let stored := ((called.clients 0).stored (ascii ['x'])).getD Record.zero
  let applied := called.deliver 0 [] stored.overJson
  have delivered : Run (LiveWS.Step .idRev) (LiveWS.WritesText .idRev) start applied :=
    LiveWS.run_callDeliver .start (by decide +kernel) rfl (LiveWS.eq_some_changeOf publishes)
      (by decide +kernel) (by decide +kernel)
  have republishes : (DocDB.publishRemote .idRev stored.overJson.overJson).isSome = true := by
    decide +kernel
  let remote := LiveWS.changeOf (DocDB.publishRemote .idRev stored.overJson.overJson)
  let ingested := applied.relay .idRev (.at 2000) 1 stored.overJson remote
  have taken : Run (LiveWS.Step .idRev) (LiveWS.WritesText .idRev) start ingested :=
    LiveWS.run_relay delivered (by rfl) Nat.one_pos (by decide +kernel) (by decide +kernel)
      (by decide +kernel) (LiveWS.eq_some_changeOf republishes) (.at 2000)
  let returned := ((ingested.clients 1).outgoing .idRev remote).getD Record.zero
  have sent : (ingested.clients 1).outgoing .idRev remote = some returned := by decide +kernel
  have final := LiveWS.run_deliver taken rfl sent (by decide +kernel)
  refine ⟨_, final, by decide +kernel, by decide +kernel, ?_⟩
  exact accepted_records_written .idRev (by decide +kernel) (by decide +kernel) _ _ _ final

/-- A client on another collection sends a record that nobody wrote: the store
has none at the id, so the send loop builds one from the change. -/
theorem accepted_record_never_written :
    let start : LiveWS (Fin 2) := .new .idRev ![ascii ['m'], ascii ['n']]
      ![ascii ['a'], ascii ['b']] (fun _ => 0) (ascii ['s']) 0
    ∃ sys, Run (LiveWS.Step .idRev) (LiveWS.WritesText .idRev) start sys ∧
      ∃ r ∈ sys.accepted, r.id = ascii ['x'] ∧ r.clock = HLC.zero ∧
        ∀ w ∈ sys.written, ¬ r.SameWrite w := by
  intro start
  let issued : LocalCall := .put (.at 1000) (Finmap.singleton fieldID (.string (ascii ['x'])))
  have publishes : ((start.clients 0).publish .idRev issued).isSome = true := by
    decide +kernel
  let change := LiveWS.changeOf ((start.clients 0).publish .idRev issued)
  let called := start.call .idRev 0 issued [change]
  let stored := ((called.clients 0).stored (ascii ['x'])).getD Record.zero
  let applied := called.deliver 0 [] stored.overJson
  have delivered : Run (LiveWS.Step .idRev) (LiveWS.WritesText .idRev) start applied :=
    LiveWS.run_callDeliver .start (by decide +kernel) rfl (LiveWS.eq_some_changeOf publishes)
      (by decide +kernel) (by decide +kernel)
  -- the other client takes the broadcast in
  have republishes : (DocDB.publishRemote .idRev stored.overJson.overJson).isSome = true := by
    decide +kernel
  let remote := LiveWS.changeOf (DocDB.publishRemote .idRev stored.overJson.overJson)
  let ingested := applied.relay .idRev (.at 2000) 1 stored.overJson remote
  have taken : Run (LiveWS.Step .idRev) (LiveWS.WritesText .idRev) start ingested :=
    LiveWS.run_relay delivered (by rfl) Nat.one_pos (by decide +kernel) (by decide +kernel)
      (by decide +kernel) (LiveWS.eq_some_changeOf republishes) (.at 2000)
  let rebuilt := ((ingested.clients 1).outgoing .idRev remote).getD Record.zero
  have sent : (ingested.clients 1).outgoing .idRev remote = some rebuilt := by decide +kernel
  have final := LiveWS.run_deliver taken rfl sent (by decide +kernel)
  refine ⟨_, final, rebuilt.overJson, ?_, ?_, ?_, ?_⟩
  · decide +kernel
  · decide +kernel
  · decide +kernel
  · decide +kernel

end NellDB
