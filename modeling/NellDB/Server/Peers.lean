import NellDB.Data.Backoff
import NellDB.Data.Interleaving
import NellDB.Data.Iteration
import NellDB.Record

namespace NellDB

open Data

/-! The peers of a mesh and the heartbeat that tracks their health.  Peers are
added and removed while a round of pings is under way. -/

inductive PeerState where
  | active
  | degraded
  | dead
  deriving DecidableEq

/-- `missedPings` is a machine integer in the source; no peer misses `2 ^ 63` pings. -/
structure TrackedPeer where
  url : GoString
  state : PeerState
  lastSeen : Int64
  missedPings : Nat

def newTrackedPeer (url : GoString) (now : Int64) : TrackedPeer where
  url
  state := .active
  lastSeen := now
  missedPings := 0

def defaultMaxMissedPings : Nat := 3

namespace TrackedPeer

def isActive (p : TrackedPeer) : Bool := p.state = .active

def recordPing (p : TrackedPeer) (now : Int64) : TrackedPeer :=
  { p with lastSeen := now, missedPings := 0, state := .active }

def recordMiss (p : TrackedPeer) (maxMissed : Nat) : TrackedPeer :=
  let missedPings := p.missedPings + 1
  { p with
    missedPings
    state :=
      if maxMissed ≤ missedPings then
        .dead
      else if 1 ≤ missedPings then
        .degraded
      else
        p.state }

def record (p : TrackedPeer) (answered : Bool) (now : Int64) : TrackedPeer :=
  if answered then p.recordPing now else p.recordMiss defaultMaxMissedPings

end TrackedPeer

/-- Where `heartbeatAll` stands: between rounds, before the next of the remaining
urls, or waiting for the answer of the peer that it found under a url. -/
inductive Heartbeat where
  | waiting
  | visiting (urls : List GoString)
  | pinging (url : GoString) (pointer : Nat) (urls : List GoString)

/-- `peers` maps urls to pointers into `heap`, where a peer stays once made. -/
structure MeshManager where
  peers : FiniteMap GoString Nat
  heap : List TrackedPeer
  heartbeat : Heartbeat
  -- What has happened so far; no step looks at it.
  answers : Nat → List Bool
  rounds : Nat

inductive PeersAction where
  | addPeer (url : GoString) (now : Int64)
  | removePeer (url : GoString)
  | beat
  | visit
  | answer (answered : Bool) (now : Int64)
  | rest

namespace MeshManager

def empty : MeshManager where
  peers := ∅
  heap := []
  heartbeat := .waiting
  answers _ := []
  rounds := 0

def track (m : MeshManager) (url : GoString) (now : Int64) : MeshManager :=
  { m with
    peers := m.peers.insert url m.heap.length
    heap := m.heap ++ [newTrackedPeer url now] }

def newMeshManager (urls : List GoString) (now : Int64) : MeshManager :=
  urls.foldl (fun m url => m.track url now) empty

def addPeer (m : MeshManager) (url : GoString) (now : Int64) : MeshManager :=
  if (m.peers.lookup url).isSome then m else m.track url now

def removePeer (m : MeshManager) (url : GoString) : MeshManager :=
  { m with peers := m.peers.erase url }

/-- A peer is looked up when its turn comes; the answer goes to the peer found
then, even if the url has been given to another one since. -/
def record (m : MeshManager) (pointer : Nat) (answered : Bool) (now : Int64) : MeshManager :=
  { m with
    heap := m.heap.modify pointer fun p => p.record answered now
    answers := Function.update m.answers pointer (m.answers pointer ++ [answered]) }

inductive Step : MeshManager → PeersAction → MeshManager → Prop
  | addPeer (m : MeshManager) (url : GoString) (now : Int64) :
      Step m (.addPeer url now) (m.addPeer url now)
  | removePeer (m : MeshManager) (url : GoString) : Step m (.removePeer url) (m.removePeer url)
  | beat (m : MeshManager) (order : Iteration m.peers) (waits : m.heartbeat = .waiting) :
      Step m .beat { m with heartbeat := .visiting (order.order.map Prod.fst) }
  | skip (m : MeshManager) (url : GoString) (urls : List GoString)
      (visits : m.heartbeat = .visiting (url :: urls)) (absent : m.peers.lookup url = none) :
      Step m .visit { m with heartbeat := .visiting urls }
  | ping (m : MeshManager) (url : GoString) (urls : List GoString) (pointer : Nat)
      (visits : m.heartbeat = .visiting (url :: urls))
      (present : m.peers.lookup url = some pointer) :
      Step m .visit { m with heartbeat := .pinging url pointer urls }
  | answer (m : MeshManager) (url : GoString) (pointer : Nat) (urls : List GoString)
      (answered : Bool) (now : Int64) (pings : m.heartbeat = .pinging url pointer urls) :
      Step m (.answer answered now)
        { m.record pointer answered now with heartbeat := .visiting urls }
  | rest (m : MeshManager) (visits : m.heartbeat = .visiting []) :
      Step m .rest { m with heartbeat := .waiting, rounds := m.rounds + 1 }

def Reached (urls : List GoString) (now : Int64) (m : MeshManager) : Prop :=
  Run Step (fun _ _ => True) (newMeshManager urls now) m

end MeshManager

/-! The state of a peer is a matter of the pings it has missed since it last
answered. -/

def PeerState.after (missed : Nat) : PeerState :=
  if missed = 0 then .active else if missed < defaultMaxMissedPings then .degraded else .dead

namespace TrackedPeer

structure Healthy (p : TrackedPeer) (answers : List Bool) : Prop where
  missedPings : p.missedPings = streak answers
  state : p.state = .after (streak answers)

theorem Healthy.recordMiss {p : TrackedPeer} {answers : List Bool} (healthy : p.Healthy answers) :
    (p.recordMiss defaultMaxMissedPings).Healthy (answers ++ [false]) := by
  have missed : p.missedPings + 1 = streak (answers ++ [false]) := by
    rw [streak_failure, healthy.missedPings]
  refine ⟨missed, ?_⟩
  rw [← missed, PeerState.after, if_neg (Nat.succ_ne_zero _)]
  dsimp only [TrackedPeer.recordMiss]
  by_cases dead : defaultMaxMissedPings ≤ p.missedPings + 1
  · rw [if_pos dead, if_neg (not_lt.mpr dead)]
  · rw [if_neg dead, if_pos (not_le.mp dead), if_pos (Nat.le_add_left 1 _)]

theorem Healthy.record {p : TrackedPeer} {answers : List Bool} (healthy : p.Healthy answers)
    (answered : Bool) (now : Int64) :
    (p.record answered now).Healthy (answers ++ [answered]) := by
  cases answered with
  | true => exact ⟨(streak_success answers).symm, by rw [streak_success]; rfl⟩
  | false => exact healthy.recordMiss

end TrackedPeer

namespace MeshManager

variable {m next : MeshManager}

structure Kept (m : MeshManager) : Prop where
  tracked : ∀ {url pointer}, m.peers.lookup url = some pointer →
    ∃ p : TrackedPeer, m.heap[pointer]? = some p ∧ p.url = url
  healthy : ∀ {pointer} {p : TrackedPeer}, m.heap[pointer]? = some p →
    p.Healthy (m.answers pointer)
  unborn : ∀ {pointer}, m.heap.length ≤ pointer → m.answers pointer = []
  pinged : ∀ {url pointer urls}, m.heartbeat = .pinging url pointer urls →
    pointer < m.heap.length

theorem kept_empty : empty.Kept where
  tracked found := by simp [empty] at found
  healthy found := by simp [empty] at found
  unborn _ := rfl
  pinged pings := by simp [empty] at pings

theorem Kept.track (kept : m.Kept) (url : GoString) (now : Int64) : (m.track url now).Kept := by
  have old {pointer : Nat} {p : TrackedPeer} (found : m.heap[pointer]? = some p) :
      (m.track url now).heap[pointer]? = some p := by
    rw [MeshManager.track, List.getElem?_append_left (List.getElem?_eq_some_iff.mp found).1]
    exact found
  exact {
    tracked := by
      intro other pointer found
      rcases FiniteMap.lookup_insert_cases found with ⟨rfl, rfl⟩ | ⟨_, before⟩
      · exact ⟨newTrackedPeer other now, by simp [MeshManager.track], rfl⟩
      · obtain ⟨p, present, same⟩ := kept.tracked before
        exact ⟨p, old present, same⟩
    healthy := by
      intro pointer p found
      rw [MeshManager.track, List.getElem?_append] at found
      split at found
      next => exact kept.healthy found
      next outside =>
          have nothing : (m.track url now).answers pointer = [] :=
            kept.unborn (not_lt.mp outside)
          rw [List.getElem?_singleton] at found
          split at found
          next =>
              cases found
              rw [nothing]
              exact ⟨rfl, rfl⟩
          next => cases found
    unborn := by
      intro pointer beyond
      rw [MeshManager.track, List.length_append] at beyond
      exact kept.unborn (Nat.le_of_succ_le beyond)
    pinged := by
      intro other pointer urls pings
      rw [MeshManager.track, List.length_append]
      exact Nat.lt_succ_of_lt (kept.pinged pings) }

theorem kept_newMeshManager (urls : List GoString) (now : Int64) :
    (newMeshManager urls now).Kept := by
  have folds (m : MeshManager) (kept : m.Kept) :
      (urls.foldl (fun m url => m.track url now) m).Kept := by
    induction urls generalizing m with
    | nil => exact kept
    | cons url rest ih => exact ih _ (kept.track url now)
  exact folds empty kept_empty

theorem Kept.record (kept : m.Kept) {pointer : Nat} (inside : pointer < m.heap.length)
    (answered : Bool) (now : Int64) (urls : List GoString) :
    Kept { m.record pointer answered now with heartbeat := .visiting urls } where
  tracked := by
    intro url other found
    obtain ⟨p, present, same⟩ := kept.tracked found
    refine ⟨if pointer = other then p.record answered now else p, ?_, ?_⟩
    · simp only [MeshManager.record, List.getElem?_modify, present]
      split <;> rfl
    · rw [← same]
      split
      next => cases answered <;> rfl
      next => rfl
  healthy := by
    intro other p found
    simp only [MeshManager.record, List.getElem?_modify] at found ⊢
    by_cases same : pointer = other
    · subst same
      obtain ⟨before, present, rfl⟩ := Option.map_eq_some_iff.mp found
      rw [if_pos rfl, Function.update_self]
      exact (kept.healthy present).record answered now
    · obtain ⟨before, present, rfl⟩ := Option.map_eq_some_iff.mp found
      rw [if_neg same, Function.update_of_ne (Ne.symm same)]
      exact kept.healthy present
  unborn := by
    intro other beyond
    simp only [MeshManager.record, List.length_modify] at beyond ⊢
    rw [Function.update_of_ne (by omega)]
    exact kept.unborn beyond
  pinged pings := by cases pings

theorem Kept.step (kept : m.Kept) {action : PeersAction} (step : Step m action next) :
    next.Kept := by
  cases step with
  | addPeer url now =>
      unfold MeshManager.addPeer
      split
      next => exact kept
      next => exact kept.track url now
  | removePeer url =>
      refine ⟨fun {other pointer} found => ?_, kept.healthy, kept.unborn, kept.pinged⟩
      by_cases same : other = url
      · rw [same] at found
        simp [MeshManager.removePeer] at found
      · rw [MeshManager.removePeer, Finmap.lookup_erase_ne same] at found
        exact kept.tracked found
  | beat order waits => exact ⟨kept.tracked, kept.healthy, kept.unborn, by simp⟩
  | skip url urls visits absent => exact ⟨kept.tracked, kept.healthy, kept.unborn, by simp⟩
  | ping url urls pointer visits present =>
      refine ⟨kept.tracked, kept.healthy, kept.unborn, ?_⟩
      intro _ _ _ pings
      cases pings
      obtain ⟨p, found, _⟩ := kept.tracked present
      exact (List.getElem?_eq_some_iff.mp found).1
  | answer url pointer urls answered now pings =>
      exact kept.record (kept.pinged pings) answered now urls
  | rest visits => exact ⟨kept.tracked, kept.healthy, kept.unborn, by simp⟩

theorem Reached.kept {urls : List GoString} {now : Int64} (reached : Reached urls now m) :
    m.Kept :=
  Run.keeps (fun kept _ step => kept.step step) reached (kept_newMeshManager urls now)

end MeshManager

/-! A round of pings. -/

namespace Heartbeat

/-- The urls of the round that have no answer yet. -/
def pending : Heartbeat → List GoString
  | waiting => []
  | visiting urls => urls
  | pinging url _ urls => url :: urls

/-- One for a round under way that is done with the url. -/
def credit (url : GoString) : Heartbeat → Nat
  | waiting => 0
  | visiting urls => if url ∈ urls then 0 else 1
  | pinging other _ urls => if url ∈ other :: urls then 0 else 1

end Heartbeat

namespace MeshManager

variable {m next : MeshManager} {url : GoString} {pointer : Nat}

/-- How far the rounds since `start` have come with a peer that stays tracked. -/
structure Attended (start : MeshManager) (url : GoString) (pointer : Nat) (m : MeshManager) :
    Prop where
  tracked : m.peers.lookup url = some pointer
  once : m.heartbeat.pending.Nodup
  own : ∀ {other target urls}, m.heartbeat = .pinging other target urls →
    (other = url ↔ target = pointer)
  counted : ∃ outcomes, m.answers pointer = start.answers pointer ++ outcomes ∧
    start.rounds + outcomes.length = m.rounds + m.heartbeat.credit url

theorem Kept.pointer_eq_iff (kept : m.Kept) {other : GoString} {target : Nat}
    (tracked : m.peers.lookup url = some pointer) (present : m.peers.lookup other = some target) :
    other = url ↔ target = pointer := by
  constructor
  · rintro rfl
    rw [tracked, Option.some.injEq] at present
    exact present.symm
  · rintro rfl
    obtain ⟨p, found, rfl⟩ := kept.tracked tracked
    obtain ⟨_, also, rfl⟩ := kept.tracked present
    rw [found, Option.some.injEq] at also
    rw [also]

theorem Attended.step {start : MeshManager} (attended : Attended start url pointer m)
    (kept : m.Kept) {action : PeersAction} (step : Step m action next)
    (stays : action ≠ .removePeer url) :
    Attended start url pointer next := by
  obtain ⟨tracked, once, own, outcomes, answers, counted⟩ := attended
  cases step with
  | addPeer other now =>
      unfold MeshManager.addPeer
      split
      next => exact ⟨tracked, once, own, outcomes, answers, counted⟩
      next absent =>
          refine ⟨?_, once, own, outcomes, answers, counted⟩
          rw [track, Finmap.lookup_insert_of_ne]
          · exact tracked
          · rintro rfl
            simp [tracked] at absent
  | removePeer other =>
      refine ⟨?_, once, own, outcomes, answers, counted⟩
      rw [removePeer, Finmap.lookup_erase_ne]
      · exact tracked
      · rintro rfl
        exact stays rfl
  | beat order waits =>
      have visited : url ∈ order.order.map Prod.fst :=
        List.mem_map_of_mem ((order.complete url pointer).mpr tracked)
      refine ⟨tracked, order.distinct, by simp, outcomes, answers, ?_⟩
      rw [counted, waits, Heartbeat.credit, Heartbeat.credit, if_pos visited]
  | skip other urls visits absent =>
      have different : url ≠ other := by
        rintro rfl
        simp [tracked] at absent
      rw [visits] at once counted
      refine ⟨tracked, once.of_cons, by simp, outcomes, answers, ?_⟩
      simpa [Heartbeat.credit, different] using counted
  | ping other urls target visits present =>
      rw [visits] at once counted
      refine ⟨tracked, once, ?_, outcomes, answers, counted⟩
      intro _ _ _ pings
      cases pings
      exact kept.pointer_eq_iff tracked present
  | answer other target urls answered now pings =>
      have same := own pings
      rw [pings] at once counted
      obtain ⟨fresh, once⟩ := List.nodup_cons.mp once
      by_cases isOwn : other = url
      · have isPointer := same.mp isOwn
        subst isOwn isPointer
        refine ⟨tracked, once, by simp, outcomes ++ [answered], ?_, ?_⟩
        · simp [MeshManager.record, answers]
        · simp only [Heartbeat.credit, List.mem_cons_self, if_true] at counted
          simp only [Heartbeat.credit, fresh, if_false, List.length_append,
            List.length_singleton, ← Nat.add_assoc, counted]
          rfl
      · have different : pointer ≠ target := fun equal => isOwn (same.mpr equal.symm)
        refine ⟨tracked, once, by simp, outcomes, ?_, ?_⟩
        · simp [MeshManager.record, Function.update_of_ne different, answers]
        · simpa [MeshManager.record, Heartbeat.credit, Ne.symm isOwn] using counted
  | rest visits =>
      rw [visits] at counted
      exact ⟨tracked, List.nodup_nil, by simp, outcomes, answers, counted⟩

theorem Attended.run {start : MeshManager} (attended : Attended start url pointer start)
    (kept : start.Kept) (run : Run Step (fun _ action => action ≠ .removePeer url) start m) :
    m.Kept ∧ Attended start url pointer m := by
  induction run with
  | start => exact ⟨kept, attended⟩
  | step _ stays step ih => exact ⟨ih.1.step step, ih.2.step ih.1 step stays⟩

end MeshManager

/-- While a peer stays tracked, every complete heartbeat round pings it exactly
once, whatever else is added and removed meanwhile.  Its state is given by the
pings it has missed since it last answered: active after none, dead after three. -/
theorem heartbeat_detects {urls : List GoString} {now : Int64} {start m : MeshManager}
    (reached : MeshManager.Reached urls now start) {url : GoString} {pointer : Nat}
    (tracked : start.peers.lookup url = some pointer) (idle : start.heartbeat = .waiting)
    (run : Run MeshManager.Step (fun _ action => action ≠ .removePeer url) start m)
    (resting : m.heartbeat = .waiting) :
    m.peers.lookup url = some pointer ∧
      (∃ outcomes, m.answers pointer = start.answers pointer ++ outcomes ∧
        start.rounds + outcomes.length = m.rounds) ∧
      ∃ p, m.heap[pointer]? = some p ∧ p.url = url ∧
        p.state = .after (streak (m.answers pointer)) := by
  have initial : MeshManager.Attended start url pointer start := by
    refine ⟨tracked, ?_, ?_, [], (List.append_nil _).symm, ?_⟩
    · rw [idle]
      exact List.nodup_nil
    · intro _ _ _ pings
      rw [idle] at pings
      cases pings
    · rw [idle]
      rfl
  obtain ⟨kept, attended⟩ := initial.run reached.kept run
  obtain ⟨p, found, isUrl⟩ := kept.tracked attended.tracked
  obtain ⟨outcomes, answers, counted⟩ := attended.counted
  rw [resting] at counted
  exact ⟨attended.tracked, ⟨outcomes, answers, counted⟩, p, found, isUrl,
    (kept.healthy found).state⟩

/-- A peer that does not answer its first ping, while another one is added. -/
theorem heartbeat_detects_miss :
    let url := ascii ['a']
    ∃ start m p, MeshManager.Reached [url] 0 start ∧
      Run MeshManager.Step (fun _ action => action ≠ .removePeer url) start m ∧ m.rounds = 1 ∧
      m.heap[0]? = some p ∧ p.state = .after (streak (m.answers 0)) ∧
      m.answers 0 = [false] := by
  intro url
  let start := MeshManager.newMeshManager [url] 0
  let order : Iteration start.peers := {
    order := [(url, 0)]
    distinct := List.nodup_singleton _
    complete := by
      have only : start.peers = Finmap.singleton url 0 := by decide
      intro other pointer
      rw [only, FiniteMap.lookup_singleton_iff, List.mem_singleton, Prod.mk.injEq] }
  let beaten : MeshManager := { start with heartbeat := .visiting [url] }
  let pinging : MeshManager := { start with heartbeat := .pinging url 0 [] }
  let added : MeshManager := pinging.addPeer (ascii ['b']) 1
  let missed : MeshManager := { added.record 0 false 2 with heartbeat := .visiting [] }
  let rested : MeshManager := { missed with heartbeat := .waiting, rounds := 1 }
  have onward {m next : MeshManager} {action : PeersAction}
      (before : Run MeshManager.Step (fun _ action => action ≠ .removePeer url) start m)
      (taken : MeshManager.Step m action next) (stays : action ≠ .removePeer url) :
      Run MeshManager.Step (fun _ action => action ≠ .removePeer url) start next :=
    .step before stays taken
  have first : Run MeshManager.Step _ start beaten :=
    onward .start (.beat start order rfl) (by simp)
  have second : Run MeshManager.Step _ start pinging :=
    onward first (.ping beaten url [] 0 rfl rfl) (by simp)
  have third : Run MeshManager.Step _ start added :=
    onward second (.addPeer pinging (ascii ['b']) 1) (by simp)
  have fourth : Run MeshManager.Step _ start missed :=
    onward third (.answer added url 0 [] false 2 rfl) (by simp)
  have run : Run MeshManager.Step _ start rested := onward fourth (.rest missed rfl) (by simp)
  obtain ⟨_, _, p, found, _, state⟩ := heartbeat_detects .start rfl rfl run rfl
  exact ⟨start, rested, p, .start, run, rfl, found, state, rfl⟩

end NellDB
