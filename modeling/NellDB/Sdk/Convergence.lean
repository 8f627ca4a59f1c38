import NellDB.Data.RelayRounds
import NellDB.Sdk.Soundness
import NellDB.Sdk.Sync

namespace NellDB

open Data

/-! Clients that stop writing and sync once more end with the same documents. -/

def SyncAction.Remote {ι : Type} : SyncAction ι → Prop
  | .call _ _ => False
  | _ => True

/-- A stretch of a run in which no client writes.  Every client starts a push, the
server applies all that was pushed, every client starts a pull, and at the end no
check and no reply is left.  Pushes and pulls interleave as they like. -/
structure SyncRound {ι : Type} [DecidableEq ι] (platform : Platform) (sys final : System ι) where
  path : Nat → System ι
  middle : Nat
  length : Nat
  starts : path 0 = sys
  ends : path length = final
  half : middle ≤ length
  steps : ∀ i < length, ∃ action : SyncAction ι, action.Remote ∧
    System.Orderly platform (path i) action ∧ System.Step platform (path i) action (path (i + 1))
  pushes : ∀ client, ∃ i < middle, ∃ all : List Record,
    (all : Multiset Record) =
      ((path i).clients client).store.listAll ((path i).clients client).collection ∧
    path (i + 1) = (path i).beginPush client all
  drained : (path middle).uploads = 0
  pulls : ∀ client, ∃ i, middle ≤ i ∧ i < length ∧
    ∃ entries : KnowledgeVector.Entries ((path i).clients client).vector,
      path (i + 1) = { path i with
        requests := (client, KnowledgeVector.marshalBinary entries) ::ₘ (path i).requests }
  answered : final.requests = 0
  received : final.downloads = 0

/-- What `Get` reads is the record at its key. -/
theorem DocDB.get_congr {db other : DocDB} (sameCollection : db.collection = other.collection)
    {id : GoString} (same : db.store.records.lookup (flatKey db.collection id) =
      other.store.records.lookup (flatKey db.collection id))
    (platform : Platform) (cancelled : Bool) :
    db.get platform cancelled id = other.get platform cancelled id := by
  have reads : db.store.get db.collection id = other.store.get other.collection id := by
    dsimp only [MemoryStore.get]
    rw [← sameCollection, orDefault_of_ne db.named, same]
  unfold get
  rw [reads]

namespace System

variable {ι : Type} {nodes : ι → GoString} {distinct : Function.Injective nodes}
variable {collection : GoString} {sys next : System ι}

theorem posted_beginPush (uniform : Uniform nodes collection sys)
    (sound : Relay.Sound (scheme nodes distinct collection) (relay sys))
    {client : ι} {all : List Record} (listed : (all : Multiset Record) =
      (sys.clients client).store.listAll (sys.clients client).collection) :
    Relay.Posted (scheme nodes distinct collection) (relay (sys.beginPush client all))
      client := by
  have complete (r : Record) : r ∈ all.filter (fun r => !isInternalID r.id) ↔
      Relay.At (scheme nodes distinct collection) (relay sys) (.node client) r := by
    rw [at_node_iff uniform, ← listed, Multiset.mem_coe, List.mem_filter, Bool.not_eq_true']
  have uploads := uploads_beginPush sys client fun r member =>
    (fits_of_at uniform sound ((complete r).mp member)).2.1
  have flying : (client, all.filter fun r => !isInternalID r.id) ∈
      (relay (sys.beginPush client all)).uploads := by
    simp [relay, uploads]
  exact Relay.posted_of_upload flying fun r held => (complete r).mpr held

variable [DecidableEq ι]

theorem Step.written_eq {platform : Platform} {action : SyncAction ι}
    (step : Step platform sys action next) (remote : action.Remote) :
    next.written = sys.written := by
  cases step with
  | call => exact remote.elim
  | _ => rfl

omit [DecidableEq ι] in
theorem increasing_of_remote {platform : Platform} {action : SyncAction ι}
    (remote : action.Remote) : Increasing platform sys action := by
  cases action with
  | call => exact remote.elim
  | _ => trivial

end System

namespace SyncRound

variable {ι : Type} [DecidableEq ι] {platform : Platform} {nodes : ι → GoString}
variable {distinct : Function.Injective nodes} {collection : GoString} {sys final : System ι}
variable (round : SyncRound platform sys final)

include round

theorem follows {i : Nat} (inside : i < round.length)
    (uniform : System.Uniform nodes collection (round.path i))
    (sound : Relay.Sound (System.scheme nodes distinct collection) (round.path i).relay) :
    System.Follows nodes distinct collection (round.path i) (round.path (i + 1)) ∧
      (round.path (i + 1)).written = (round.path i).written := by
  obtain ⟨action, remote, orderly, step⟩ := round.steps i inside
  exact ⟨System.follows_step uniform sound (System.increasing_of_remote remote) orderly step,
    step.written_eq remote⟩

variable (uniform : System.Uniform nodes collection sys)
  (sound : Relay.Sound (System.scheme nodes distinct collection) sys.relay)

include uniform sound

theorem sound_at {i : Nat} (inside : i ≤ round.length) :
    System.Uniform nodes collection (round.path i) ∧
      Relay.Sound (System.scheme nodes distinct collection) (round.path i).relay := by
  induction i with
  | zero =>
      rw [round.starts]
      exact ⟨uniform, sound⟩
  | succ i ih =>
      obtain ⟨uniformAt, soundAt⟩ := ih (Nat.le_of_succ_le inside)
      obtain ⟨follows, _⟩ := round.follows inside uniformAt soundAt
      exact ⟨follows.uniform, soundAt.steps follows.relayed⟩

/-- What the relay keeps while nobody writes holds from any point of the round on. -/
theorem keeps (invariant : Relay.State ι GoString GoString Record HLC → Prop)
    (kept : ∀ {s next}, Relay.Sound (System.scheme nodes distinct collection) s → invariant s →
      Relay.Step (System.scheme nodes distinct collection) s next → next.written = s.written →
        invariant next)
    {i j : Nat} (later : i ≤ j) (inside : j ≤ round.length)
    (initial : invariant (round.path i).relay) : invariant (round.path j).relay := by
  induction j, later using Nat.le_induction with
  | base => exact initial
  | succ j _ ih =>
      obtain ⟨uniformAt, soundAt⟩ := round.sound_at uniform sound (Nat.le_of_succ_le inside)
      obtain ⟨follows, silent⟩ := round.follows inside uniformAt soundAt
      exact soundAt.keeps kept follows.relayed silent (ih (Nat.le_of_succ_le inside))

theorem saturated_middle :
    Relay.Saturated (System.scheme nodes distinct collection) (round.path round.middle).relay := by
  refine (round.sound_at uniform sound round.half).2.saturated (fun client => ?_) ?_
  · obtain ⟨i, early, all, listed, begun⟩ := round.pushes client
    have inside : i ≤ round.length := early.le.trans round.half
    obtain ⟨uniformAt, soundAt⟩ := round.sound_at uniform sound inside
    have posted := System.posted_beginPush uniformAt soundAt listed
    rw [← begun] at posted
    exact round.keeps uniform sound
      (fun s => Relay.Posted (System.scheme nodes distinct collection) s client)
      (fun sound posted step => posted.step sound step) early round.half posted
  · simp [System.relay, round.drained]

theorem saturated {i : Nat} (later : round.middle ≤ i) (inside : i ≤ round.length) :
    Relay.Saturated (System.scheme nodes distinct collection) (round.path i).relay :=
  round.keeps uniform sound (Relay.Saturated (System.scheme nodes distinct collection))
    (fun _ saturated => saturated.step) later inside
    (round.saturated_middle uniform sound)

theorem informed (client : ι) :
    Relay.Informed (System.scheme nodes distinct collection) final.relay client := by
  obtain ⟨i, later, early, entries, asked⟩ := round.pulls client
  obtain ⟨_, soundAfter⟩ := round.sound_at uniform sound (Nat.succ_le_of_lt early)
  have waiting : (client, (KnowledgeVector.unmarshalBinary
      (KnowledgeVector.marshalBinary entries)).toOption.getD ∅) ∈
        (round.path (i + 1)).relay.requests := by
    simp [System.relay, asked]
  rw [← round.ends]
  refine (round.keeps uniform sound (fun s =>
    Relay.Saturated (System.scheme nodes distinct collection) s ∧
      Relay.Informed (System.scheme nodes distinct collection) s client)
    ?_ early le_rfl ⟨?_, soundAfter.informed waiting⟩).2
  · rintro s next _ ⟨saturated, informed⟩ step silent
    exact ⟨saturated.step step silent, informed.step saturated step⟩
  · exact round.saturated uniform sound (Nat.le_succ_of_le later) early

theorem agrees (client : ι) (r : Record) :
    Relay.At (System.scheme nodes distinct collection) final.relay .hub r ↔
      Relay.At (System.scheme nodes distinct collection) final.relay (.node client) r := by
  have saturated := round.saturated uniform sound round.half le_rfl
  have soundAtEnd := (round.sound_at uniform sound le_rfl).2
  rw [round.ends] at saturated soundAtEnd
  refine soundAtEnd.agrees saturated (round.informed uniform sound client) ?_ ?_ r
  · simp [System.relay, round.answered]
  · simp [System.relay, round.received]

theorem lookup_elsewhere {client other : ι} {id : GoString} (document : isInternalID id = false)
    {r : Record} (found : (final.clients client).store.records.lookup
      (flatKey collection id) = some r) :
    (final.clients other).store.records.lookup (flatKey collection id) = some r := by
  have soundAtEnd := (round.sound_at uniform sound le_rfl).2
  rw [round.ends] at soundAtEnd
  have placed : r.key = flatKey collection id := soundAtEnd.keyedTable client found
  rw [← placed] at found ⊢
  have held : Relay.At (System.scheme nodes distinct collection) final.relay
      (.node client) r :=
    ⟨⟨id, document, placed⟩, found⟩
  have onServer := (round.agrees uniform sound client r).mpr held
  exact ((round.agrees uniform sound other r).mp onServer).2

end SyncRound

end NellDB
