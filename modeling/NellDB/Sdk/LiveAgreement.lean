import NellDB.Sdk.Gossip
import NellDB.Sdk.Provenance
import NellDB.Server.Broadcast

namespace NellDB

open Data

/-! What live replication comes to when nothing is lost on the way: every write is
followed up to the server and from there down to each client. -/

namespace Record

/-- The record is at the same key, and not older. -/
structure Supersedes (r w : Record) : Prop where
  key : r.key = w.key
  stamp : w.stamp ≤ r.stamp

theorem Supersedes.covers {r w : Record} (supersedes : r.Supersedes w) {s : MemoryStore}
    (covers : s.Covers r) : s.Covers w :=
  Champion.Covers.of_le covers supersedes.key.symm supersedes.stamp

end Record

namespace DocDB

variable {platform : Platform} {db : DocDB}

theorem covers_call (wellFormed : WellFormed db.store) {r : Record} (covers : db.store.Covers r)
    (issued : LocalCall) : (db.call platform issued).store.Covers r := by
  rcases call_cases platform wellFormed issued with ⟨_, same⟩ | ⟨written, rev, _, _, same⟩
  · rw [same]
    exact covers
  · rw [same]
    exact covers_commit covers written rev db.nodeID

theorem covers_ingestRemote {r : Record} (covers : db.store.Covers r) (env : CallEnv)
    (incoming : Record) : (db.ingestRemote platform env incoming).store.Covers r := by
  unfold ingestRemote
  split
  next => exact covers
  next => exact covers_commit covers incoming _ _

theorem covers_commit_self (platform : Platform) (db : DocDB) (env : CallEnv) (r : Record)
    (id rev writer : GoString) :
    (db.commit platform env r id rev writer).store.Covers r.defaulted := by
  obtain ⟨_, _, stored | ⟨kept, _, stored⟩⟩ := commit_cases platform db env r id rev writer
  · rw [stored]
    exact db.store.covers_afterPut r
  · rw [stored]
    exact (db.store.covers_afterPut r).afterPut kept

theorem covers_ingestRemote_self (platform : Platform) (db : DocDB) (env : CallEnv) {r : Record}
    (document : isInternalID r.id = false) :
    (db.ingestRemote platform env r).store.Covers r.defaulted := by
  unfold ingestRemote
  rw [document, if_neg Bool.false_ne_true]
  exact covers_commit_self platform db env r _ _ _

/-- Every write is announced to the feed. -/
theorem publish_of_writes (wellFormed : WellFormed db.store) {issued : LocalCall} {r : Record}
    (writes : db.writes platform issued = some r) :
    ∃ change, db.publish platform issued = some change := by
  cases issued with
  | put env doc =>
      rcases put_cases platform db env doc with
        ⟨failure, refused, _⟩ | ⟨newRev, written, _, _, result⟩
      · simp [DocDB.writes, refused, Except.toOption] at writes
      · exact ⟨_, by simp only [publish, result]; rfl⟩
  | remove env id wantRev =>
      rcases remove_cases platform wellFormed env id wantRev with
        ⟨failure, refused, _⟩ | ⟨newRev, tombstone, _, _, result⟩
      · simp [DocDB.writes, refused, Except.toOption] at writes
      · exact ⟨_, by simp only [publish, result]; rfl⟩

end DocDB

namespace LiveWS

variable {ι : Type}

/-- A written record of the collection that JSON carries over as it is. -/
structure Portable (collection : GoString) (written : List Record) (r : Record) : Prop where
  written : r ∈ written
  inside : r.collection = collection
  encodes : r.hasJson = true
  text : r.overJson = r

theorem Portable.defaulted_eq {collection : GoString} {written : List Record} {r : Record}
    (portable : Portable collection written r) (named : collection ≠ []) : r.defaulted = r :=
  Record.defaulted_of_named (portable.inside ▸ named)

theorem Portable.id_eq {collection : GoString} {written : List Record} {r w : Record}
    (portable : Portable collection written r) (inside : w.collection = collection)
    (sameKey : r.key = w.key) : r.id = w.id := by
  apply flatKey_right_injective collection
  rw [Record.key, Record.key, portable.inside, inside] at sameKey
  exact sameKey

theorem Portable.message_eq {collection : GoString} {written : List Record} {r : Record}
    (portable : Portable collection written r) : message (some r) = {[r]} := by
  simp [message, portable.encodes, portable.text]

theorem passable_portable {collection : GoString} (named : collection ≠ [])
    (written : List Record) :
    Passable (Portable collection written) fun _ : ι => collection where
  overJson {r} portable := by
    rw [portable.text]
    exact portable
  defaulted {r} portable := by
    rw [portable.defaulted_eq named]
    exact portable
  rebuilt {r} portable _ elsewhere := by
    rw [portable.defaulted_eq named] at elsewhere
    exact absurd portable.inside elsewhere

/-- What is written has a JSON form and is valid UTF-8. -/
def WritesJson (platform : Platform) (sys : LiveWS ι) : LiveAction ι → Prop
  | .call client issued => ∀ r, (sys.clients client).writes platform issued = some r →
      r.hasJson = true ∧ r.ValidText
  | .exchange => True

section

variable [Fintype ι] [DecidableEq ι]

/-- The steps of clients that stay connected, keep up with their feeds and lose no
message. -/
inductive Delivers (platform : Platform) : LiveWS ι → LiveAction ι → LiveWS ι → Prop
  | call (sys : LiveWS ι) (client : ι) (issued : LocalCall) :
      Delivers platform sys (.call client issued) (sys.call platform client issued
        (sys.feeds client ++ ((sys.clients client).publish platform issued).toList))
  | send (sys : LiveWS ι) (client : ι) (change : Change) (rest : List Change)
      (waiting : sys.feeds client = change :: rest) :
      Delivers platform sys .exchange (sys.send platform client change rest)
  | receive (sys : LiveWS ι) (changes : List Record) (others : Multiset (List Record))
      (waiting : sys.toServer = changes ::ₘ others) :
      Delivers platform sys .exchange { sys with
        toServer := others
        receipts := ⟨changes, changes, 0⟩ ::ₘ sys.receipts }
  | apply (sys : LiveWS ι) (receipt : Receipt) (r : Record) (rest : List Record)
      (others : Multiset Receipt) (waiting : sys.receipts = receipt ::ₘ others)
      (next : receipt.remaining = r :: rest) :
      Delivers platform sys .exchange (sys.apply receipt r rest others)
  | finish (sys : LiveWS ι) (receipt : Receipt) (others : Multiset Receipt)
      (waiting : sys.receipts = receipt ::ₘ others) (applied : receipt.remaining = []) :
      Delivers platform sys .exchange { sys with
        receipts := others
        toClients := (if 0 < receipt.accepted then broadcast .univ receipt.changes else 0) +
          sys.toClients }
  | ingest (sys : LiveWS ι) (env : CallEnv) (client : ι) (r : Record) (rest : List Record)
      (others : Multiset (ι × List Record))
      (waiting : sys.toClients = (client, r :: rest) ::ₘ others) :
      Delivers platform sys .exchange (sys.ingest platform env client r
        (sys.feeds client ++ (DocDB.publishRemote platform r).toList) ((client, rest) ::ₘ others))

variable {platform : Platform} {sys next : LiveWS ι}

theorem Delivers.step {action : LiveAction ι} (delivers : Delivers platform sys action next) :
    Step platform sys action next := by
  cases delivers with
  | call client issued => exact .call sys client issued _ (.inr rfl)
  | send client change rest waiting => exact .send sys client change rest waiting
  | receive changes others waiting => exact .receive sys changes others waiting
  | apply receipt r rest others waiting isNext =>
      exact .apply sys receipt r rest others waiting isNext
  | finish receipt others waiting applied =>
      exact .finish sys receipt others .univ waiting applied
  | ingest env client r rest others waiting =>
      exact .ingest sys env client r rest others _ waiting (.inr rfl)

/-- Nothing is left to deliver. -/
def Quiet (platform : Platform) (sys : LiveWS ι) : Prop :=
  ∀ next, ¬ Delivers platform sys .exchange next

/-- Delivering on and on comes to an end. -/
theorem exists_quiet (platform : Platform) (sys : LiveWS ι) :
    ∃ final, Run (Delivers platform) (fun _ action => action = .exchange) sys final ∧
      final.Quiet platform := by
  obtain ⟨pool, carries⟩ := sys.exists_pool
  generalize (fun client => (sys.clients client).collection) = collection at carries
  induction size : sys.measure pool using WellFoundedLT.induction generalizing sys with
  | ind size ih =>
      by_cases quiet : sys.Quiet platform
      · exact ⟨sys, .start, quiet⟩
      · obtain ⟨next, delivers⟩ := not_forall_not.mp quiet
        have fewer := measure_lt carries delivers.step
        obtain ⟨final, run, isQuiet⟩ := ih _ (size ▸ fewer) next
          (carries.exchange (Record.passable_inPool pool _) delivers.step) rfl
        exact ⟨final, .head rfl delivers run, isQuiet⟩

theorem run_exchange {start : LiveWS ι}
    (before : Run (Delivers platform) (WritesJson platform) start sys)
    (exchanges : Run (Delivers platform) (fun _ action => action = .exchange) sys next) :
    Run (Delivers platform) (WritesJson platform) start next ∧ next.written = sys.written := by
  induction exchanges with
  | start => exact ⟨before, rfl⟩
  | step _ isExchange delivers ih =>
      subst isExchange
      refine ⟨Run.step ih.1 ?_ delivers, ?_⟩
      · trivial
      · rw [← ih.2]
        cases delivers with
        | send | receive | apply | finish | ingest => rfl

end

/-! What is on its way to the server, and from it to a client. -/

inductive Uploading (sys : LiveWS ι) (w : Record) : Prop
  | queued (client : ι) (change : Change) (member : change ∈ sys.feeds client)
      (same : change.id = w.id) (held : (sys.clients client).store.Covers w)
  | sent (changes : List Record) (member : changes ∈ sys.toServer) (r : Record)
      (isSent : r ∈ changes) (supersedes : r.Supersedes w)
  | received (receipt : Receipt) (member : receipt ∈ sys.receipts) (r : Record)
      (waits : r ∈ receipt.remaining) (supersedes : r.Supersedes w)

inductive Downloading (sys : LiveWS ι) (client : ι) (w : Record) : Prop
  | announced (receipt : Receipt) (member : receipt ∈ sys.receipts)
      (accepted : 0 < receipt.accepted) (r : Record) (isChange : r ∈ receipt.changes)
      (supersedes : r.Supersedes w)
  | sent (changes : List Record) (member : (client, changes) ∈ sys.toClients) (r : Record)
      (isSent : r ∈ changes) (supersedes : r.Supersedes w)

/-- All that is stored and under way is portable. -/
structure Conveys (collection : GoString) (sys : LiveWS ι) : Prop where
  carries : sys.Carries (Portable collection sys.written) fun _ => collection
  single : ∀ i, SingleCollection (sys.clients i).store collection
  held : ∀ {position r}, sys.server.store.records.lookup position = some r →
    Portable collection sys.written r ∧ position = r.key
  remaining : ∀ receipt ∈ sys.receipts, ∀ r ∈ receipt.remaining, r ∈ receipt.changes
  written : ∀ w ∈ sys.written, Portable collection sys.written w

/-- No write and nothing that the server holds falls by the wayside. -/
structure Follows (sys : LiveWS ι) : Prop where
  up : ∀ w ∈ sys.written, isInternalID w.id = false →
    sys.server.store.Covers w ∨ sys.Uploading w
  down : ∀ {position held}, sys.server.store.records.lookup position = some held →
    isInternalID held.id = false → ∀ client,
      (sys.clients client).store.Covers held ∨ sys.Downloading client held

section

variable [DecidableEq ι] {platform : Platform} {collection : GoString} {sys next : LiveWS ι}

theorem call_clients_self (platform : Platform) (sys : LiveWS ι) (client : ι)
    (issued : LocalCall) (feed : List Change) :
    (sys.call platform client issued feed).clients client =
      (sys.clients client).call platform issued :=
  Function.update_self ..

theorem call_feeds_self (platform : Platform) (sys : LiveWS ι) (client : ι)
    (issued : LocalCall) (feed : List Change) :
    (sys.call platform client issued feed).feeds client = feed :=
  Function.update_self ..

theorem ingest_clients_self (platform : Platform) (sys : LiveWS ι) (env : CallEnv) (client : ι)
    (r : Record) (feed : List Change) (toClients : Multiset (ι × List Record)) :
    (sys.ingest platform env client r feed toClients).clients client =
      (sys.clients client).ingestRemote platform env r :=
  Function.update_self ..

theorem send_feeds_self (platform : Platform) (sys : LiveWS ι) (client : ι) (change : Change)
    (rest : List Change) : (sys.send platform client change rest).feeds client = rest :=
  Function.update_self ..

theorem send_feeds_of_ne (platform : Platform) (sys : LiveWS ι) {client i : ι}
    (other : i ≠ client) (change : Change) (rest : List Change) :
    (sys.send platform client change rest).feeds i = sys.feeds i :=
  Function.update_of_ne other ..

theorem covers_update {w : Record} {client : ι} {db : DocDB}
    (kept : (sys.clients client).store.Covers w → db.store.Covers w) {i : ι}
    (covers : (sys.clients i).store.Covers w) :
    (Function.update sys.clients client db i).store.Covers w :=
  (Function.forall_update_iff sys.clients fun j other =>
    (sys.clients j).store.Covers w → other.store.Covers w).mpr
      ⟨kept, fun _ _ covers => covers⟩ i covers

theorem mem_update_feeds {client i : ι} {change : Change} (member : change ∈ sys.feeds i)
    (more : List Change) :
    change ∈ Function.update sys.feeds client (sys.feeds client ++ more) i :=
  (Function.forall_update_iff sys.feeds fun j feed => change ∈ sys.feeds j → change ∈ feed).mpr
    ⟨List.mem_append_left more, fun _ _ member => member⟩ i member

namespace Conveys

omit [DecidableEq ι] in
theorem new (platform : Platform) (nodeID : ι → GoString) (collection : GoString)
    (now : ι → Int64) (serverID : GoString) (serverNow : Int64) :
    Conveys (orDefault collection)
      (LiveWS.new platform nodeID (fun _ => collection) now serverID serverNow) where
  carries :=
    { sameCollection := fun _ => rfl
      sends := fun i =>
        { stored := fun _ found => by
            simp [LiveWS.new, newDocDB, DocDB.reindex, DocDB.stored, newMemoryStore] at found
          feed := by simp [LiveWS.new] }
      toServer := by simp [LiveWS.new]
      changes := by simp [LiveWS.new]
      remaining := by simp [LiveWS.new]
      toClients := by simp [LiveWS.new] }
  single i := singleCollection_newMemoryStore (nodeID i) (orDefault collection) (now i)
  held found := by simp [LiveWS.new, newServer, newMemoryStore] at found
  remaining := by simp [LiveWS.new]
  written := by simp [LiveWS.new]

theorem portable_append {earlier : List Record} (later : List Record) {r : Record}
    (portable : Portable collection earlier r) : Portable collection (later ++ earlier) r :=
  { portable with written := List.mem_append_right later portable.written }

theorem call (conveys : sys.Conveys collection) {client : ι} {issued : LocalCall}
    {feed : List Change} (valid : sys.WritesJson platform (.call client issued))
    (feeds : Feeds (sys.feeds client) ((sys.clients client).publish platform issued) feed) :
    (sys.call platform client issued feed).Conveys collection := by
  have same := conveys.carries.sameCollection client
  have single := conveys.single client
  let written := ((sys.clients client).writes platform issued).toList ++ sys.written
  have carries : sys.Carries (Portable collection written) fun _ => collection :=
    conveys.carries.mono fun _ => portable_append _
  have isOwn (r : Record) (writes : (sys.clients client).writes platform issued = some r) :
      Portable collection written r := by
    rcases DocDB.call_cases platform single.wellFormed issued with
      ⟨none, _⟩ | ⟨other, _, isOther, isLocal, _⟩
    · rw [none] at writes
      cases writes
    · cases writes.symm.trans isOther
      obtain ⟨encodes, text⟩ := valid r writes
      exact ⟨by simp [written, writes], isLocal.inside same single, encodes,
        Record.overJson_of_valid text⟩
  have sends := (carries.sends client).call single.wellFormed isOwn feeds
  have unchanged : ((sys.clients client).call platform issued).collection = collection ∧
      SingleCollection ((sys.clients client).call platform issued).store collection := by
    rcases DocDB.call_cases platform single.wellFormed issued with
      ⟨_, idle⟩ | ⟨r, rev, _, isLocal, result⟩
    · rw [idle]
      exact ⟨same, single⟩
    · rw [result, DocDB.commit_collection]
      exact ⟨same, single.commit same (isLocal.inside same single) platform _ _ _ _⟩
  have moved : (sys.setClient client _ feed).Carries _ _ :=
    carries.setClient unchanged.1 sends
  refine ⟨{ moved with }, ?_, ?_, conveys.remaining, ?_⟩
  · exact (Function.forall_update_iff sys.clients fun _ other =>
      SingleCollection other.store collection).mpr
        ⟨unchanged.2, fun i _ => conveys.single i⟩
  · intro position r found
    obtain ⟨portable, placed⟩ := conveys.held found
    exact ⟨portable_append _ portable, placed⟩
  · intro w member
    rcases List.mem_append.mp member with new | old
    · exact isOwn w (Option.mem_toList.mp new)
    · exact portable_append _ (conveys.written w old)

theorem exchange (conveys : sys.Conveys collection) (named : collection ≠ [])
    (step : Step platform sys .exchange next) : next.Conveys collection := by
  have carries := conveys.carries.exchange (passable_portable named sys.written) step
  cases step with
  | send | loseToServer | loseToClient =>
      exact { conveys with carries }
  | receive changes others waiting =>
      refine { conveys with carries, remaining := ?_ }
      exact Multiset.forall_mem_cons.mpr ⟨fun _ member => member, conveys.remaining⟩
  | apply receipt r rest others waiting isNext =>
      have subset := conveys.remaining
      rw [waiting] at subset
      obtain ⟨first, later⟩ := Multiset.forall_mem_cons.mp subset
      rw [isNext] at first
      have portable := conveys.carries.remaining receipt (waiting ▸ Multiset.mem_cons_self _ _)
        r (isNext ▸ List.mem_cons_self)
      refine { conveys with carries, held := ?_, remaining := ?_ }
      · intro position held found
        rw [LiveWS.apply, Server.ingest, MemoryStore.afterPut_records] at found
        rcases Champion.lookup_enter_source found with before | ⟨rfl, rfl⟩
        · exact conveys.held before
        · rw [portable.defaulted_eq named]
          exact ⟨portable, rfl⟩
      · exact Multiset.forall_mem_cons.mpr
          ⟨fun other member => first other (List.mem_cons_of_mem r member), later⟩
  | finish receipt others peers waiting applied =>
      have subset := conveys.remaining
      rw [waiting] at subset
      exact { conveys with
        carries
        remaining := (Multiset.forall_mem_cons.mp subset).2 }
  | ingest env client r rest others feed waiting feeds =>
      have portable := conveys.carries.toClients (client, r :: rest)
        (waiting ▸ Multiset.mem_cons_self _ _) r List.mem_cons_self
      refine { conveys with carries, single := ?_ }
      refine (Function.forall_update_iff sys.clients fun _ other =>
        SingleCollection other.store collection).mpr ⟨?_, fun i _ => conveys.single i⟩
      exact (conveys.single client).ingestRemote (conveys.carries.sameCollection client)
        portable.inside platform env

omit [DecidableEq ι] in
/-- A client that covers a document stores it or a later version, and sends that. -/
theorem outgoing (conveys : sys.Conveys collection) {w : Record}
    (inside : w.collection = collection) (document : isInternalID w.id = false) {client : ι}
    (covers : (sys.clients client).store.Covers w) {change : Change} (same : change.id = w.id) :
    ∃ r, (sys.clients client).outgoing platform change = some r ∧ r.Supersedes w ∧
      Portable collection sys.written r := by
  obtain ⟨r, found, above⟩ := covers
  have stored : (sys.clients client).stored change.id = some r := by
    rw [DocDB.stored, conveys.carries.sameCollection client, same, ← inside]
    exact found
  refine ⟨r, ?_, ⟨(conveys.single client).wellFormed.keyed found, above⟩, ?_⟩
  · unfold DocDB.outgoing
    rw [same, document, ← same, DocDB.get_eq, stored]
    rfl
  · exact (conveys.carries.sends client).stored (same ▸ document) stored

end Conveys

end

section

variable [Fintype ι] [DecidableEq ι] {platform : Platform} {collection : GoString}
variable {sys next : LiveWS ι} {action : LiveAction ι}

namespace Delivers

theorem conveys (delivers : Delivers platform sys action next)
    (before : sys.Conveys collection) (named : collection ≠ [])
    (valid : sys.WritesJson platform action) : next.Conveys collection := by
  cases action with
  | exchange => exact before.exchange named delivers.step
  | call client issued =>
      cases delivers with
      | call => exact before.call valid (.inr rfl)

/-- What a client has, it keeps. -/
theorem covers (delivers : Delivers platform sys action next) (before : sys.Conveys collection)
    {w : Record} {client : ι} (covers : (sys.clients client).store.Covers w) :
    (next.clients client).store.Covers w := by
  cases delivers with
  | call caller issued =>
      refine covers_update (fun held => ?_) covers
      exact DocDB.covers_call (before.single caller).wellFormed held issued
  | ingest env receiver r rest others waiting =>
      exact covers_update (fun held => DocDB.covers_ingestRemote held env r) covers
  | send | receive | apply | finish => exact covers

theorem uploads (delivers : Delivers platform sys action next) (before : sys.Conveys collection)
    (named : collection ≠ []) {w : Record} (inside : w.collection = collection)
    (document : isInternalID w.id = false)
    (up : sys.server.store.Covers w ∨ sys.Uploading w) :
    next.server.store.Covers w ∨ next.Uploading w := by
  cases delivers with
  | call client issued =>
      refine up.imp_right fun uploading => ?_
      cases uploading with
      | queued i change member same held =>
          exact .queued i change (mem_update_feeds member _) same
            ((Delivers.call sys client issued).covers before held)
      | sent changes member r isSent supersedes => exact .sent changes member r isSent supersedes
      | received receipt member r waits supersedes =>
          exact .received receipt member r waits supersedes
  | send client change rest waiting =>
      refine up.imp_right fun uploading => ?_
      cases uploading with
      | queued i other member same held =>
          by_cases isClient : i = client
          · subst i
            rw [waiting] at member
            cases member with
            | head =>
                obtain ⟨r, sent, supersedes, portable⟩ :=
                  before.outgoing inside document held same
                refine .sent [r] ?_ r List.mem_cons_self supersedes
                rw [LiveWS.send, sent, portable.message_eq]
                exact Multiset.mem_add.mpr (.inl (Multiset.mem_singleton_self _))
            | tail _ later =>
                refine .queued client other ?_ same held
                rw [send_feeds_self]
                exact later
          · refine .queued i other ?_ same held
            rw [send_feeds_of_ne platform sys isClient]
            exact member
      | sent changes member r isSent supersedes =>
          exact .sent changes (Multiset.mem_add.mpr (.inr member)) r isSent supersedes
      | received receipt member r waits supersedes =>
          exact .received receipt member r waits supersedes
  | receive changes others waiting =>
      refine up.imp_right fun uploading => ?_
      cases uploading with
      | queued i change member same held => exact .queued i change member same held
      | sent message member r isSent supersedes =>
          rw [waiting] at member
          rcases Multiset.mem_cons.mp member with rfl | other
          · exact .received _ (Multiset.mem_cons_self _ _) r isSent supersedes
          · exact .sent message other r isSent supersedes
      | received receipt member r waits supersedes =>
          exact .received receipt (Multiset.mem_cons_of_mem member) r waits supersedes
  | apply receipt r rest others waiting isNext =>
      rcases up with covers | uploading
      · exact .inl (covers.afterPut r)
      · cases uploading with
        | queued i change member same held => exact .inr (.queued i change member same held)
        | sent changes member q isSent supersedes =>
            exact .inr (.sent changes member q isSent supersedes)
        | received other member q waits supersedes =>
            rw [waiting] at member
            rcases Multiset.mem_cons.mp member with rfl | elsewhere
            · rw [isNext] at waits
              cases waits with
              | head =>
                  have portable := before.carries.remaining other
                    (waiting ▸ Multiset.mem_cons_self _ _) r (isNext ▸ List.mem_cons_self)
                  have covers := sys.server.store.covers_afterPut r
                  rw [portable.defaulted_eq named] at covers
                  exact .inl (supersedes.covers covers)
              | tail _ later =>
                  exact .inr (.received _ (Multiset.mem_cons_self _ _) q later supersedes)
            · exact .inr (.received other (Multiset.mem_cons_of_mem elsewhere) q waits supersedes)
  | finish receipt others waiting applied =>
      refine up.imp_right fun uploading => ?_
      cases uploading with
      | queued i change member same held => exact .queued i change member same held
      | sent changes member r isSent supersedes => exact .sent changes member r isSent supersedes
      | received other member r waits supersedes =>
          rw [waiting] at member
          rcases Multiset.mem_cons.mp member with rfl | elsewhere
          · rw [applied] at waits
            cases waits
          · exact .received other elsewhere r waits supersedes
  | ingest env client r rest others waiting =>
      refine up.imp_right fun uploading => ?_
      cases uploading with
      | queued i change member same held =>
          exact .queued i change (mem_update_feeds member _) same
            ((Delivers.ingest sys env client r rest others waiting).covers before held)
      | sent changes member q isSent supersedes => exact .sent changes member q isSent supersedes
      | received receipt member q waits supersedes =>
          exact .received receipt member q waits supersedes

/-- What is written now is announced to the feed of its client. -/
theorem written (delivers : Delivers platform sys action next) (before : sys.Conveys collection)
    {w : Record} (member : w ∈ next.written) : w ∈ sys.written ∨ next.Uploading w := by
  cases delivers with
  | call client issued =>
      rcases List.mem_append.mp member with new | old
      · right
        have writes := Option.mem_toList.mp new
        have single := before.single client
        have same := before.carries.sameCollection client
        obtain ⟨change, published⟩ := DocDB.publish_of_writes single.wellFormed writes
        rcases DocDB.call_cases platform single.wellFormed issued with
          ⟨none, _⟩ | ⟨r, rev, isWritten, isLocal, result⟩
        · rw [none] at writes
          cases writes
        · cases writes.symm.trans isWritten
          have inside := isLocal.inside same single
          refine .queued client change ?_ ?_ ?_
          · rw [call_feeds_self, published]
            exact List.mem_append_right _ List.mem_cons_self
          · rw [(DocDB.publish_some single.wellFormed published).1,
              isLocal.id_eq (inside.trans same.symm)]
          · have covers := DocDB.covers_commit_self platform (sys.clients client) issued.env w
              issued.id rev (sys.clients client).nodeID
            rw [Record.defaulted_of_named isLocal.named, ← result] at covers
            rw [call_clients_self]
            exact covers
      · exact .inl old
  | send | receive | apply | finish | ingest => exact .inl member

theorem downloads (delivers : Delivers platform sys action next)
    (before : sys.Conveys collection) (named : collection ≠ []) {w : Record}
    (inside : w.collection = collection) (document : isInternalID w.id = false) {client : ι}
    (down : (sys.clients client).store.Covers w ∨ sys.Downloading client w) :
    (next.clients client).store.Covers w ∨ next.Downloading client w := by
  rcases down with covers | downloading
  · exact .inl (delivers.covers before covers)
  cases delivers with
  | call | send =>
      right
      cases downloading with
      | announced receipt member accepted r isChange supersedes =>
          exact .announced receipt member accepted r isChange supersedes
      | sent changes member r isSent supersedes => exact .sent changes member r isSent supersedes
  | receive changes others waiting =>
      right
      cases downloading with
      | announced receipt member accepted r isChange supersedes =>
          exact .announced receipt (Multiset.mem_cons_of_mem member) accepted r isChange
            supersedes
      | sent message member r isSent supersedes => exact .sent message member r isSent supersedes
  | apply receipt q rest others waiting isNext =>
      right
      cases downloading with
      | announced other member accepted r isChange supersedes =>
          rw [waiting] at member
          rcases Multiset.mem_cons.mp member with rfl | elsewhere
          · refine .announced _ (Multiset.mem_cons_self _ _) ?_ r isChange supersedes
            dsimp only
            split
            next => exact Nat.succ_pos _
            next => exact accepted
          · exact .announced other (Multiset.mem_cons_of_mem elsewhere) accepted r isChange
              supersedes
      | sent changes member r isSent supersedes => exact .sent changes member r isSent supersedes
  | finish receipt others waiting applied =>
      right
      cases downloading with
      | announced other member accepted r isChange supersedes =>
          have areGood := before.carries.changes other member
          rw [waiting] at member
          rcases Multiset.mem_cons.mp member with rfl | elsewhere
          · refine .sent (other.changes.map Record.overJson) ?_ r ?_ supersedes
            · rw [if_pos accepted, broadcast, if_pos]
              · refine Multiset.mem_add.mpr (.inl ?_)
                exact Multiset.mem_map_of_mem _ (Finset.mem_univ client)
              · exact List.all_eq_true.mpr fun q member => (areGood q member).encodes
            · exact List.mem_map.mpr ⟨r, isChange, (areGood r isChange).text⟩
          · exact .announced other elsewhere accepted r isChange supersedes
      | sent changes member r isSent supersedes =>
          exact .sent changes (Multiset.mem_add.mpr (.inr member)) r isSent supersedes
  | ingest env receiver q rest others waiting =>
      cases downloading with
      | announced receipt member accepted r isChange supersedes =>
          exact .inr (.announced receipt member accepted r isChange supersedes)
      | sent changes member r isSent supersedes =>
          have portable := before.carries.toClients (client, changes) member r isSent
          rw [waiting] at member
          rcases Multiset.mem_cons.mp member with isThis | elsewhere
          · cases isThis
            cases isSent with
            | head =>
                left
                have sameID : q.id = w.id := portable.id_eq inside supersedes.key
                have covers := DocDB.covers_ingestRemote_self platform (sys.clients client) env
                  (sameID ▸ document)
                rw [portable.defaulted_eq named] at covers
                rw [ingest_clients_self]
                exact supersedes.covers covers
            | tail _ later =>
                exact .inr (.sent rest (Multiset.mem_cons_self _ _) r later supersedes)
          · exact .inr (.sent changes (Multiset.mem_cons_of_mem elsewhere) r isSent supersedes)

/-- What the server holds now and did not hold before, it will broadcast. -/
theorem held (delivers : Delivers platform sys action next) (before : sys.Conveys collection)
    (named : collection ≠ []) {position : GoString} {held : Record}
    (found : next.server.store.records.lookup position = some held) :
    sys.server.store.records.lookup position = some held ∨
      ∀ client, next.Downloading client held := by
  cases delivers with
  | call | send | receive | finish | ingest => exact .inl found
  | apply receipt r rest others waiting isNext =>
      have isReceipt : receipt ∈ sys.receipts := waiting ▸ Multiset.mem_cons_self _ _
      have remains : r ∈ receipt.remaining := isNext ▸ List.mem_cons_self
      have portable := before.carries.remaining receipt isReceipt r remains
      have isChange := before.remaining receipt isReceipt r remains
      cases accepts : (sys.server.store.put r).1 with
      | false =>
          have stale : ¬ sys.server.store.Newer r := by
            rw [← MemoryStore.put_accepts_iff_newer, accepts]
            exact Bool.false_ne_true
          left
          rw [← MemoryStore.records_afterPut_of_not_newer stale]
          exact found
      | true =>
          rw [LiveWS.apply, Server.ingest, MemoryStore.afterPut_records] at found
          refine (Champion.lookup_enter_source found).imp_right ?_
          rintro ⟨rfl, _⟩ client
          rw [portable.defaulted_eq named]
          refine .announced _ (Multiset.mem_cons_self _ _) ?_ r isChange ⟨rfl, le_rfl⟩
          rw [accepts]
          exact Nat.succ_pos _

theorem follows (delivers : Delivers platform sys action next) (before : sys.Conveys collection)
    (named : collection ≠ []) (follows : sys.Follows) : next.Follows where
  up w member document := by
    rcases delivers.written before member with old | uploading
    · exact delivers.uploads before named (before.written w old).inside document
        (follows.up w old document)
    · exact .inr uploading
  down {position held} found document client := by
    rcases delivers.held before named found with old | announced
    · exact delivers.downloads before named (before.held old).1.inside document
        (follows.down old document client)
    · exact .inr (announced client)

end Delivers

omit [Fintype ι] [DecidableEq ι] in
theorem follows_new (platform : Platform) (nodeID : ι → GoString) (collection : ι → GoString)
    (now : ι → Int64) (serverID : GoString) (serverNow : Int64) :
    (LiveWS.new platform nodeID collection now serverID serverNow).Follows where
  up := by simp [LiveWS.new]
  down found := by simp [LiveWS.new, newServer, newMemoryStore] at found

theorem Quiet.not_uploading (quiet : sys.Quiet platform) (w : Record) : ¬ sys.Uploading w := by
  intro uploading
  cases uploading with
  | queued client change member same held =>
      cases waiting : sys.feeds client with
      | nil =>
          rw [waiting] at member
          cases member
      | cons first rest => exact quiet _ (.send sys client first rest waiting)
  | sent changes member r isSent supersedes =>
      obtain ⟨others, waiting⟩ := Multiset.exists_cons_of_mem member
      exact quiet _ (.receive sys changes others waiting)
  | received receipt member r waits supersedes =>
      obtain ⟨others, waiting⟩ := Multiset.exists_cons_of_mem member
      cases remains : receipt.remaining with
      | nil => exact quiet _ (.finish sys receipt others waiting remains)
      | cons first rest => exact quiet _ (.apply sys receipt first rest others waiting remains)

theorem Quiet.not_downloading (quiet : sys.Quiet platform) (client : ι) (w : Record) :
    ¬ sys.Downloading client w := by
  intro downloading
  cases downloading with
  | announced receipt member accepted r isChange supersedes =>
      obtain ⟨others, waiting⟩ := Multiset.exists_cons_of_mem member
      cases remains : receipt.remaining with
      | nil => exact quiet _ (.finish sys receipt others waiting remains)
      | cons first rest => exact quiet _ (.apply sys receipt first rest others waiting remains)
  | sent changes member r isSent supersedes =>
      obtain ⟨others, waiting⟩ := Multiset.exists_cons_of_mem member
      cases changes with
      | nil => cases isSent
      | cons first rest =>
          exact quiet _ (.ingest sys (.at 0) client first rest others waiting)

theorem settled_of_run {nodeID : ι → GoString} {now : ι → Int64} {serverID : GoString}
    {serverNow : Int64} (run : Run (Delivers platform) (WritesJson platform)
      (LiveWS.new platform nodeID (fun _ => collection) now serverID serverNow) sys) :
    sys.Conveys (orDefault collection) ∧ sys.Follows := by
  induction run with
  | start => exact ⟨.new .., follows_new ..⟩
  | step _ permitted taken ih =>
      obtain ⟨conveys, follows⟩ := ih
      have named := orDefault_ne_nil collection
      exact ⟨taken.conveys conveys named permitted, taken.follows conveys named follows⟩

namespace Quiet

theorem server_covers (quiet : sys.Quiet platform) (follows : sys.Follows) {w : Record}
    (member : w ∈ sys.written) (document : isInternalID w.id = false) :
    sys.server.store.Covers w :=
  (follows.up w member document).resolve_right (quiet.not_uploading w)

theorem client_covers (quiet : sys.Quiet platform) (conveys : sys.Conveys collection)
    (follows : sys.Follows) {w : Record} (member : w ∈ sys.written)
    (document : isInternalID w.id = false) (client : ι) :
    (sys.clients client).store.Covers w := by
  obtain ⟨held, found, above⟩ := quiet.server_covers follows member document
  obtain ⟨portable, sameKey⟩ := conveys.held found
  have sameID : held.id = w.id :=
    portable.id_eq (conveys.written w member).inside sameKey.symm
  have covers := (follows.down found (sameID ▸ document) client).resolve_right
    (quiet.not_downloading client held)
  exact Record.Supersedes.covers ⟨sameKey.symm, above⟩ covers

/-- What a client stores at a document's key is what the server holds there. -/
theorem stored_eq (quiet : sys.Quiet platform) (conveys : sys.Conveys collection)
    (follows : sys.Follows)
    (separated : Champion.Separated Record.key Record.stamp (· ∈ sys.written)) (client : ι)
    {id : GoString} (document : isInternalID id = false) :
    (sys.clients client).stored id =
      sys.server.store.records.lookup (flatKey collection id) := by
  have same := conveys.carries.sameCollection client
  have isStored : (sys.clients client).stored id =
      (sys.clients client).store.records.lookup (flatKey collection id) := by
    rw [DocDB.stored, same]
  cases found : sys.server.store.records.lookup (flatKey collection id) with
  | none =>
      cases stored : (sys.clients client).stored id with
      | none => rfl
      | some r =>
          have portable := (conveys.carries.sends client).stored document stored
          rw [isStored] at stored
          have placed := (conveys.single client).wellFormed.keyed stored
          have sameID : r.id = id := by
            apply flatKey_right_injective collection
            rw [← placed, Record.key, portable.inside]
          obtain ⟨held, isHeld, _⟩ :=
            quiet.server_covers follows portable.written (sameID ▸ document)
          rw [placed, found] at isHeld
          cases isHeld
  | some held =>
      obtain ⟨portable, placed⟩ := conveys.held found
      have sameID : held.id = id := by
        apply flatKey_right_injective collection
        rw [placed, Record.key, portable.inside]
      have isDocument : isInternalID held.id = false := sameID ▸ document
      obtain ⟨r, stored, above⟩ :=
        quiet.client_covers conveys follows portable.written isDocument client
      rw [← placed, ← isStored] at stored
      have isPortable := (conveys.carries.sends client).stored document stored
      rw [stored]
      rw [isStored] at stored
      have sameKey := ((conveys.single client).wellFormed.keyed stored).trans placed
      obtain ⟨top, isTop, below⟩ := quiet.server_covers follows isPortable.written
        ((isPortable.id_eq portable.inside sameKey) ▸ isDocument)
      rw [sameKey, ← placed, found] at isTop
      cases isTop
      rw [separated r held isPortable.written portable.written sameKey (below.antisymm above)]

end Quiet

end

end LiveWS

end NellDB
