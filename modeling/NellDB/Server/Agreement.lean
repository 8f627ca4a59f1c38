import NellDB.Server.Reconcile

namespace NellDB

open Data

/-! Servers that are pushed to, and then only reconcile with each other. -/

section

variable {ι : Type} [DecidableEq ι]

def newServers (nodeID : ι → GoString) (now : ι → Int64) (i : ι) : Server :=
  newServer (newMemoryStore (nodeID i) (now i)) (nodeID i)

/-- Pushed records in the order in which they are applied, each with the server
that it is pushed to. -/
def pushEach (servers : ι → Server) (pushes : List (ι × Record)) : ι → Server :=
  pushes.foldl (fun servers (i, r) => Function.update servers i ((servers i).ingest r)) servers

def received (pushes : List (ι × Record)) (i : ι) : List Record :=
  (pushes.filter fun push => push.1 = i).map Prod.snd

/-- Successful reconciliations, one after the other: each pair is a server and
the peer it asks. -/
inductive Rounds (allowed : Server → Server → Prop) :
    (ι → Server) → List (ι × ι) → (ι → Server) → Prop
  | done : Rounds allowed servers [] servers
  | reconcile {servers last : ι → Server} {i peer : ι} {final : Server}
      {rest : List (ι × ι)} (allows : allowed (servers peer) (servers i))
      (returned : ReconcilesNil (servers peer).store (servers i) final)
      (onward : Rounds allowed (Function.update servers i final) rest last) :
      Rounds allowed servers ((i, peer) :: rest) last

def ClocksIncrease (pushes : List (ι × Record)) : Prop :=
  pushes.Pairwise fun earlier later =>
    earlier.2.updatedBy = later.2.updatedBy → earlier.2.clock < later.2.clock

/-- Each writer pushes to one server, records of the default collection with
valid text. -/
structure Homed (home : GoString → ι) (pushes : List (ι × Record)) : Prop where
  place : ∀ push ∈ pushes, push.1 = home push.2.updatedBy
  collection : ∀ push ∈ pushes, push.2.defaulted.collection = defaultCollection
  valid : ∀ push ∈ pushes, push.2.defaulted.ValidText

def Pushed (pushes : List (ι × Record)) (stored : Record) : Prop :=
  ∃ push ∈ pushes, push.2.defaulted = stored

theorem pushEach_apply (servers : ι → Server) (pushes : List (ι × Record)) (i : ι) :
    pushEach servers pushes i = (servers i).ingestAll (received pushes i) := by
  induction pushes generalizing servers with
  | nil => rfl
  | cons push rest ih =>
      obtain ⟨target, r⟩ := push
      rw [pushEach, List.foldl_cons, ← pushEach, ih]
      by_cases same : target = i
      · subst same
        simp [received, Server.ingestAll]
      · simp [received, same, Function.update_of_ne (Ne.symm same)]

theorem mem_received_iff {pushes : List (ι × Record)} {i : ι} {r : Record} :
    r ∈ received pushes i ↔ (i, r) ∈ pushes := by
  simp [received]

omit [DecidableEq ι] in
theorem ClocksIncrease.distinct {pushes : List (ι × Record)}
    (increase : ClocksIncrease pushes) : DistinctWrites (Pushed pushes) := by
  rintro _ _ ⟨first, firstMember, rfl⟩ ⟨second, secondMember, rfl⟩ sameWriter sameClock
  rw [Record.defaulted_updatedBy, Record.defaulted_updatedBy] at sameWriter
  rw [Record.defaulted_clock, Record.defaulted_clock] at sameClock
  have apart : pushes.Pairwise fun earlier later =>
      earlier.2.updatedBy = later.2.updatedBy → earlier.2.clock ≠ later.2.clock :=
    increase.imp fun before sameWriter => (before sameWriter).ne
  by_contra different
  have symmetric : Std.Symm fun earlier later : ι × Record =>
      earlier.2.updatedBy = later.2.updatedBy → earlier.2.clock ≠ later.2.clock :=
    ⟨fun _ _ apart sameWriter => (apart sameWriter.symm).symm⟩
  have unequal : first ≠ second := fun same => different (by rw [same])
  exact apart.forall firstMember secondMember unequal sameWriter sameClock

theorem DistinctWrites.separated {members : Record → Prop} (distinct : DistinctWrites members) :
    Champion.Separated Record.key Record.stamp members := by
  intro first second firstMember secondMember _ sameStamp
  obtain ⟨sameClock, sameWriter⟩ := (Record.stamp_eq_iff first second).mp sameStamp
  exact distinct first second firstMember secondMember sameWriter sameClock

/-- What a server knows of the written records: it stores no others, and a mark
of its vector stands for all records up to it. -/
structure Knows (written : Record → Prop) (server : Server) : Prop where
  single : SingleCollection server.store defaultCollection
  source : ∀ {position stored}, server.store.records.lookup position = some stored →
    written stored
  validKv : server.kv.ValidText
  marked : ∀ {position stored}, server.store.records.lookup position = some stored →
    Watermark.Reached server.kv stored.updatedBy stored.clock
  complete : ∀ {r}, written r → Watermark.Reached server.kv r.updatedBy r.clock →
    server.store.Covers r

namespace Knows

variable {written : Record → Prop} {server peer : Server}

theorem mem_listAll_iff (knows : Knows written server) (r : Record) :
    r ∈ server.store.listAll defaultCollection ↔
      server.store.records.lookup r.key = some r :=
  knows.single.mem_listAll_iff (by decide) r

theorem exists_listed (knows : Knows written server) {r : Record}
    (covers : server.store.Covers r) :
    ∃ held ∈ server.store.listAll defaultCollection, held.key = r.key ∧ r.stamp ≤ held.stamp := by
  obtain ⟨held, found, above⟩ := covers
  have placed : held.key = r.key := knows.single.wellFormed.keyed found
  exact ⟨held, (knows.mem_listAll_iff held).mpr (by rw [placed, found]), placed, above⟩

/-- A successful reconciliation ingests records of the peer, and leaves nothing
uncovered that the peer covers. -/
theorem reconcile (knows : Knows written server) (peerKnows : Knows written peer)
    (distinct : DistinctWrites written) (valid : ∀ r, written r → r.ValidText)
    {final : Server} (advances : CursorAdvances peer.store server.kv)
    (returned : ReconcilesNil peer.store server final) :
    Knows written final ∧ (∀ r, server.store.Covers r → final.store.Covers r) ∧
      ∀ r, peer.store.Covers r → final.store.Covers r := by
  have isWritten : ∀ r ∈ peer.store.listAll defaultCollection, written r := fun r member =>
    peerKnows.source ((peerKnows.mem_listAll_iff r).mp member)
  obtain ⟨all, rfl, fromPeer, covers⟩ := returned.covers peerKnows.single.wellFormed
    (fun first second firstMember secondMember =>
      distinct first second (isWritten first firstMember) (isWritten second secondMember))
    (pageable_of_valid (fun r member => valid r (isWritten r member)) knows.validKv advances)
    (by
      rw [KnowledgeVector.overJson_of_valid knows.validKv]
      exact fun r member => knows.complete (isWritten r member))
  have kept : ∀ r, server.store.Covers r → (server.ingestAll all).store.Covers r := by
    intro r before
    rw [Server.ingestAll_store]
    exact before.putAll all
  have transferred : ∀ r, peer.store.Covers r → (server.ingestAll all).store.Covers r := by
    intro r covered
    obtain ⟨held, member, placed, above⟩ := peerKnows.exists_listed covered
    exact Champion.Covers.of_le (covers held member) placed.symm above
  have fetched : ∀ q ∈ all, q.defaulted = q := fun q inAll =>
    Record.defaulted_of_named (peerKnows.single.wellFormed.named
      ((peerKnows.mem_listAll_iff q).mp (fromPeer q inAll)))
  have stored : ∀ {position r}, (server.ingestAll all).store.records.lookup position = some r →
      server.store.records.lookup position = some r ∨ r ∈ all := by
    intro position r found
    rw [Server.ingestAll_store] at found
    rcases MemoryStore.lookup_putAll_source found with before | ⟨q, inAll, rfl, _⟩
    · exact .inl before
    · rw [fetched q inAll]
      exact .inr inAll
  refine ⟨⟨?_, ?_, ?_, ?_, ?_⟩, kept, transferred⟩
  · rw [Server.ingestAll_store]
    refine knows.single.putAll (by decide) fun q inAll => ?_
    rw [fetched q inAll]
    exact peerKnows.single.inside ((peerKnows.mem_listAll_iff q).mp (fromPeer q inAll))
  · intro position r found
    rcases stored found with before | inAll
    · exact knows.source before
    · exact isWritten r (fromPeer r inAll)
  · exact Server.validText_ingestAll knows.validKv fun q inAll =>
      (valid q (isWritten q (fromPeer q inAll))).updatedBy
  · intro position r found
    rw [Server.reached_ingestAll_iff]
    rcases stored found with before | inAll
    · exact .inl (knows.marked before)
    · exact .inr ⟨r, inAll, rfl, le_rfl⟩
  · intro r isWrite reached
    rcases (Server.reached_ingestAll_iff _ _ _ _).mp reached with
      before | ⟨q, inAll, sameWriter, below⟩
    · exact kept r (knows.complete isWrite before)
    · -- the peer stores a later record of the writer, so it covers this one
      obtain ⟨mark, found, above⟩ :=
        peerKnows.marked ((peerKnows.mem_listAll_iff q).mp (fromPeer q inAll))
      rw [sameWriter] at found
      exact transferred r (peerKnows.complete isWrite ⟨mark, found, below.trans above⟩)

end Knows

/-- Every server knows what its vector says, and the server that a writer pushes
to covers all of the writer's records. -/
structure Informed (home : GoString → ι) (written : Record → Prop) (servers : ι → Server) :
    Prop where
  each : ∀ i, Knows written (servers i)
  atHome : ∀ {r}, written r → (servers (home r.updatedBy)).store.Covers r

theorem reached_pushEach_iff (nodeID : ι → GoString) (now : ι → Int64)
    (pushes : List (ι × Record)) (i : ι) (writer : GoString) (clock : HLC) :
    Watermark.Reached (pushEach (newServers nodeID now) pushes i).kv writer clock ↔
      ∃ r, (i, r) ∈ pushes ∧ r.updatedBy = writer ∧ clock ≤ r.clock := by
  have none : ¬ Watermark.Reached (newServers nodeID now i).kv writer clock := by
    rintro ⟨mark, found, _⟩
    simp [newServers, newServer, newMemoryStore] at found
  rw [pushEach_apply, Server.reached_ingestAll_iff, or_iff_right none]
  simp only [mem_received_iff]

theorem pushEach_records (nodeID : ι → GoString) (now : ι → Int64)
    (pushes : List (ι × Record)) (i : ι) :
    (pushEach (newServers nodeID now) pushes i).store.records =
      Champion.enterAll Record.key Record.stamp ∅
        ((received pushes i).map Record.defaulted) := by
  rw [pushEach_apply, Server.ingestAll_store, MemoryStore.putAll_records]
  rfl

theorem exists_push {nodeID : ι → GoString} {now : ι → Int64} {pushes : List (ι × Record)}
    {i : ι} {position : GoString} {stored : Record}
    (found : (pushEach (newServers nodeID now) pushes i).store.records.lookup position =
      some stored) : ∃ r, (i, r) ∈ pushes ∧ r.defaulted = stored := by
  rw [pushEach_records] at found
  obtain ⟨r, member, same⟩ := List.mem_map.mp (Champion.isChampion_enterAll found).member
  exact ⟨r, mem_received_iff.mp member, same⟩

theorem covers_pushEach {nodeID : ι → GoString} {now : ι → Int64}
    {pushes : List (ι × Record)} {i : ι} {r : Record} (member : (i, r) ∈ pushes) :
    (pushEach (newServers nodeID now) pushes i).store.Covers r.defaulted := by
  rw [MemoryStore.Covers, pushEach_records]
  exact Champion.covers_enterAll_of_mem _ _ _
    (List.mem_map_of_mem (mem_received_iff.mpr member))

theorem informed_pushEach {home : GoString → ι} {pushes : List (ι × Record)}
    (homed : Homed home pushes) (nodeID : ι → GoString) (now : ι → Int64) :
    Informed home (Pushed pushes) (pushEach (newServers nodeID now) pushes) := by
  constructor
  · intro i
    constructor
    · rw [pushEach_apply, Server.ingestAll_store]
      refine (singleCollection_newMemoryStore _ _ _).putAll (by decide) fun r member => ?_
      exact homed.collection (i, r) (mem_received_iff.mp member)
    · intro position stored found
      obtain ⟨r, member, rfl⟩ := exists_push found
      exact ⟨(i, r), member, rfl⟩
    · rw [pushEach_apply]
      refine Server.validText_ingestAll ?_ fun r member => ?_
      · intro writer clock found
        simp [newServers, newServer, newMemoryStore] at found
      · exact (homed.valid (i, r) (mem_received_iff.mp member)).updatedBy
    · intro position stored found
      obtain ⟨r, member, rfl⟩ := exists_push found
      exact (reached_pushEach_iff ..).mpr ⟨r, member, rfl, le_rfl⟩
    · rintro _ ⟨⟨target, r⟩, member, rfl⟩ reached
      obtain ⟨other, otherMember, sameWriter, _⟩ := (reached_pushEach_iff ..).mp reached
      have otherPlace : i = home other.updatedBy := homed.place _ otherMember
      have place : target = home r.updatedBy := homed.place _ member
      have here : target = i := by
        rw [otherPlace, place, sameWriter]
        rfl
      exact covers_pushEach (here ▸ member)
  · rintro _ ⟨⟨target, r⟩, member, rfl⟩
    have place : target = home r.updatedBy := homed.place _ member
    exact covers_pushEach (place ▸ member)

namespace Informed

variable {home : GoString → ι} {written : Record → Prop} {servers : ι → Server}

theorem update (informed : Informed home written servers) {i : ι} {final : Server}
    (knows : Knows written final)
    (kept : ∀ r, (servers i).store.Covers r → final.store.Covers r) :
    Informed home written (Function.update servers i final) := by
  constructor
  · exact (Function.forall_update_iff servers fun _ server => Knows written server).mpr
      ⟨knows, fun j _ => informed.each j⟩
  · intro r isWrite
    have before := informed.atHome isWrite
    by_cases same : home r.updatedBy = i
    · rw [same, Function.update_self]
      rw [same] at before
      exact kept r before
    · rw [Function.update_of_ne same]
      exact before

/-- After the rounds a server covers what it covered before, and what was pushed
to a peer that it asked. -/
theorem rounds (informed : Informed home written servers) (distinct : DistinctWrites written)
    (valid : ∀ r, written r → r.ValidText) {pairs : List (ι × ι)} {last : ι → Server}
    (run : Rounds (fun peer server => CursorAdvances peer.store server.kv) servers pairs last) :
    Informed home written last ∧
      (∀ i r, (servers i).store.Covers r → (last i).store.Covers r) ∧
      ∀ i r, written r → (i, home r.updatedBy) ∈ pairs → (last i).store.Covers r := by
  induction run with
  | done => exact ⟨informed, fun _ _ covers => covers, by simp⟩
  | @reconcile servers _ i peer final _ advances returned _ ih =>
      obtain ⟨knows, kept, transferred⟩ := (informed.each i).reconcile (informed.each peer)
        distinct valid advances returned
      obtain ⟨informedLast, keptLast, asked⟩ := ih (informed.update knows kept)
      have here := keptLast i
      rw [Function.update_self] at here
      refine ⟨informedLast, fun j r covers => ?_, fun j r isWrite member => ?_⟩
      · by_cases same : j = i
        · subst same
          exact here r (kept r covers)
        · apply keptLast j r
          rw [Function.update_of_ne same]
          exact covers
      · rcases List.mem_cons.mp member with first | later
        · obtain ⟨rfl, rfl⟩ := Prod.mk.inj first
          exact here r (transferred r (informed.atHome isWrite))
        · exact asked j r isWrite later

omit [DecidableEq ι] in
theorem settled (informed : Informed home written servers) {i : ι}
    (covers : ∀ r, written r → (servers i).store.Covers r) :
    Champion.Settled Record.key Record.stamp written (servers i).store.records where
  keyed found := (informed.each i).single.wellFormed.keyed found
  source found := (informed.each i).source found
  covers member := covers _ member

end Informed

/-- When every writer pushes records of the default collection to one server,
and the cursor of every reconciliation advances, the servers agree once each has
asked each of the others. -/
theorem mesh_agrees {home : GoString → ι} {pushes : List (ι × Record)}
    (increase : ClocksIncrease pushes) (homed : Homed home pushes)
    (nodeID : ι → GoString) (now : ι → Int64) {pairs : List (ι × ι)} {final : ι → Server}
    (rounds : Rounds (fun peer server => CursorAdvances peer.store server.kv)
      (pushEach (newServers nodeID now) pushes) pairs final)
    (everyPair : ∀ i j, i ≠ j → (i, j) ∈ pairs) (i j : ι) (collection id : GoString) :
    (final i).store.get collection id = (final j).store.get collection id := by
  have distinct := increase.distinct
  have valid : ∀ r, Pushed pushes r → r.ValidText := by
    rintro _ ⟨push, member, rfl⟩
    exact homed.valid push member
  obtain ⟨informed, kept, asked⟩ :=
    (informed_pushEach homed nodeID now).rounds distinct valid rounds
  have covers : ∀ i r, Pushed pushes r → (final i).store.Covers r := by
    intro i r isWrite
    by_cases same : i = home r.updatedBy
    · rw [same]
      exact informed.atHome isWrite
    · exact asked i r isWrite (everyPair i _ same)
  have records : (final i).store.records = (final j).store.records :=
    (informed.settled (covers i)).unique distinct.separated (informed.settled (covers j))
  rw [MemoryStore.get, MemoryStore.get, records]

end

/-! A store without records of the default collection gives nothing to a peer. -/

theorem Listing.eq_nil {store : MemoryStore} {collection : GoString}
    (listing : Listing store collection) (empty : store.listAll collection = 0) :
    listing.ordered = [] := by
  have complete := listing.complete
  rw [empty] at complete
  exact (Multiset.coe_eq_zero _).mp complete

theorem handleCheck_nil (vector : KnowledgeVector) (cursor : GoString) :
    handleCheck [] vector 0 cursor = ⟨[], [], false⟩ := by
  simp [handleCheck, collectMissing]

theorem reconcilesNil_iff_of_empty {peer : MemoryStore}
    (empty : peer.listAll defaultCollection = 0) (server final : Server) :
    ReconcilesNil peer server final ↔ final = server := by
  constructor
  · rintro ⟨_, ⟨listing, sent, _⟩, paging⟩
    rw [listing.eq_nil empty, handleCheck_nil] at sent
    subst sent
    cases paging with
    | last => rfl
    | next more => exact absurd more (by decide)
  · rintro rfl
    have sent : (⟨[], [], false⟩ : CheckReply) =
        handleCheck [] final.kv.overJson 0 (Utf8.coerce []) :=
      (handleCheck_nil _ _).symm
    have listed : (([] : List Record) : Multiset Record) = peer.listAll defaultCollection :=
      empty.symm
    exact ⟨_, .reply ⟨[], listed, .nil⟩ sent rfl, .last (.inl rfl)⟩

theorem Rounds.eq_of_empty {ι : Type} [DecidableEq ι] {allowed : Server → Server → Prop}
    {servers final : ι → Server} {pairs : List (ι × ι)}
    (rounds : Rounds allowed servers pairs final)
    (empty : ∀ i, (servers i).store.listAll defaultCollection = 0) : final = servers := by
  induction rounds with
  | done => rfl
  | reconcile allows returned _ ih =>
      have same := (reconcilesNil_iff_of_empty (empty _) _ _).mp returned
      rw [same, Function.update_eq_self] at ih
      exact ih empty

theorem rounds_of_empty {ι : Type} [DecidableEq ι] {servers : ι → Server}
    (empty : ∀ i, (servers i).store.listAll defaultCollection = 0) (pairs : List (ι × ι)) :
    Rounds (fun _ _ => True) servers pairs servers := by
  induction pairs with
  | nil => exact .done
  | cons pair rest ih =>
      refine .reconcile trivial ((reconcilesNil_iff_of_empty (empty _) _ _).mpr rfl) ?_
      rw [Function.update_eq_self]
      exact ih

theorem mesh_agrees_two_servers :
    let x : Record := { Record.zero with
      collection := defaultCollection, id := ascii ['x'], clock := ⟨1, 0⟩
      updatedBy := ascii ['w'] }
    let servers : Fin 2 → Server := pushEach (newServers (fun _ => []) fun _ => 0) [(0, x)]
    let final := Function.update servers 1 ((servers 1).ingestAll [x])
    (final 0).store.get defaultCollection x.id = (final 1).store.get defaultCollection x.id := by
  intro x servers final
  have increase : ClocksIncrease [((0 : Fin 2), x)] := List.pairwise_singleton _ _
  have homed : Homed (fun _ => 0) [((0 : Fin 2), x)] :=
    ⟨by decide, by decide, by decide⟩
  have listed : (servers 0).store.listAll defaultCollection = [x] := by decide +kernel
  have empty : (servers 1).store.listAll defaultCollection = 0 := by decide +kernel
  have few : ∀ kv, (missingFrom (servers 0).store kv).card ≤ 100 := by
    intro kv
    have bound := Multiset.card_le_card
      (Multiset.filter_le (fun r => Server.unseen kv r = true)
        ((servers 0).store.listAll defaultCollection))
    rw [listed] at bound
    rw [missingFrom, listed]
    exact bound.trans (by decide)
  have none : (missingFrom (servers 1).store (servers 0).kv).card ≤ 100 := by
    rw [missingFrom, empty]
    decide
  have validKv : (servers 1).kv.ValidText := by
    intro nodeID clock found
    have unseen : (servers 1).kv = ∅ := rfl
    simp [unseen] at found
  have order : ClockOrder [x] ((servers 0).store.listAll defaultCollection) :=
    ⟨listed.symm, by decide⟩
  have returned : ReconcilesNil (servers 0).store (servers 1) ((servers 1).ingestAll [x]) :=
    reconcilesNil_of_reply order validKv (by decide) (by decide) (by decide)
  have rounds : Rounds (fun peer server => CursorAdvances peer.store server.kv) servers
      [(0, 1), (1, 0)] final := by
    refine .reconcile (cursorAdvances_of_few none)
      ((reconcilesNil_iff_of_empty empty _ _).mpr rfl) ?_
    rw [Function.update_eq_self]
    exact .reconcile (cursorAdvances_of_few (few _)) returned .done
  exact mesh_agrees increase homed _ _ rounds (by decide) 0 1 _ _

/-- A record of another collection stays where it was pushed: a reconciliation
asks for the default collection only. -/
theorem mesh_never_agrees_on_notes :
    let note : Record := { Record.zero with
      collection := ascii ['n', 'o', 't', 'e', 's'], id := ascii ['x'], clock := ⟨1, 0⟩
      updatedBy := ascii ['w'] }
    let servers : Fin 2 → Server := pushEach (newServers (fun _ => []) fun _ => 0) [(0, note)]
    ClocksIncrease [((0 : Fin 2), note)] ∧ ∀ pairs,
      (∃ final, Rounds (fun _ _ => True) servers pairs final) ∧
        ∀ final, Rounds (fun _ _ => True) servers pairs final →
          (final 0).store.get note.collection note.id ≠
            (final 1).store.get note.collection note.id := by
  intro note servers
  have empty : ∀ i, (servers i).store.listAll defaultCollection = 0 := by decide +kernel
  refine ⟨List.pairwise_singleton _ _, fun pairs => ⟨⟨servers, rounds_of_empty empty pairs⟩, ?_⟩⟩
  intro final rounds
  rw [rounds.eq_of_empty empty]
  have held : (servers 0).store.get note.collection note.id = .ok note := by rfl
  have missing : (servers 1).store.get note.collection note.id =
      .error (.recordNotFound note.id note.collection) := by rfl
  rw [held, missing]
  simp

end NellDB
