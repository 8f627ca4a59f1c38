import NellDB.Data.Channel
import NellDB.Server.Peers

namespace NellDB

open Data

/-! The anti-entropy loop of a mesh: every tick starts reconciles with active
peers, each in a goroutine of its own, and goes on while they run. -/

def maxConcurrent : Nat := 4

def maxReconcilePerTick : Nat := 16

namespace MeshManager

/-- `Peers`, for one order of the map. -/
def activePeers (m : MeshManager) (order : Iteration m.peers) : List GoString :=
  order.order.filterMap fun entry =>
    (m.heap[entry.2]?).bind fun p => if p.isActive then some p.url else none

/-- What `reconcileOneInner` reads before it sends anything. -/
inductive Admits (m : MeshManager) (url : GoString) : Prop
  | untracked (absent : m.peers.lookup url = none)
  | active {pointer : Nat} {p : TrackedPeer} (tracked : m.peers.lookup url = some pointer)
      (found : m.heap[pointer]? = some p) (isActive : p.isActive = true)

inductive Refuses (m : MeshManager) (url : GoString) : Prop
  | inactive {pointer : Nat} {p : TrackedPeer} (tracked : m.peers.lookup url = some pointer)
      (found : m.heap[pointer]? = some p) (inactive : p.isActive = false)

end MeshManager

/-- The slice that a tick goes through; a long one is shuffled and cut. -/
inductive TickSlice (active : List GoString) : List GoString → Prop
  | whole (few : active.length ≤ maxReconcilePerTick) : TickSlice active active
  | shuffled {order : List GoString} (many : maxReconcilePerTick < active.length)
      (shuffle : order.Perm active) : TickSlice active (order.take maxReconcilePerTick)

/-- Where the goroutine of a reconcile stands.  `contacting` keeps the manager as
it was when the peer was found fit. -/
inductive JobPhase where
  | launched
  | contacting (seen : MeshManager)
  | returned (failed : Bool)
  | pulled (now : Int64)
  | counted (failed : Bool)
  | released (failed : Bool)

def JobPhase.isRunning : JobPhase → Bool
  | released _ => false
  | launched | contacting _ | returned _ | pulled _ | counted _ => true

def JobPhase.isFailure : JobPhase → Bool
  | counted failed | released failed => failed
  | launched | contacting _ | returned _ | pulled _ => false

structure Job where
  url : GoString
  phase : JobPhase

/-- What `reconcileOne` counts for the health of the mesh. -/
structure SyncCounters where
  pullErrors : Int64
  lastPullUnix : Int64
  lastPushUnix : Int64

/-- The steps of one reconcile, `reconcileOne` around `reconcileOneInner`. -/
inductive Job.Step (manager : MeshManager) (counters : SyncCounters) :
    Job → SyncCounters → Job → Prop
  | refuse {job : Job} (launched : job.phase = .launched) (refuses : manager.Refuses job.url) :
      Step manager counters job counters { job with phase := .returned true }
  | contact {job : Job} (launched : job.phase = .launched) (admits : manager.Admits job.url) :
      Step manager counters job counters { job with phase := .contacting manager }
  | finish {job : Job} {seen : MeshManager} (contacting : job.phase = .contacting seen)
      (failed : Bool) :
      Step manager counters job counters { job with phase := .returned failed }
  | fail {job : Job} (returned : job.phase = .returned true) :
      Step manager counters job { counters with pullErrors := counters.pullErrors + 1 }
        { job with phase := .counted true }
  | pull {job : Job} (returned : job.phase = .returned false) (now : Int64) :
      Step manager counters job { counters with lastPullUnix := now }
        { job with phase := .pulled now }
  | push {job : Job} {now : Int64} (pulled : job.phase = .pulled now) :
      Step manager counters job { counters with lastPushUnix := now }
        { job with phase := .counted false }

/-- What one tick has made: its semaphore, its goroutines, and the rest of its
slice.  `snapshot` is the manager of which it asked the active peers. -/
structure Sweep where
  sem : Channel maxConcurrent Unit
  jobs : List Job
  rest : List GoString
  snapshot : MeshManager

/-- `calls` are the reconciles of the callers of `ReconcileWithPeer`, which no
semaphore holds back. -/
structure AntiEntropy extends SyncCounters where
  manager : MeshManager
  sweeps : List Sweep
  calls : List Job
  stopped : Bool
  ended : Bool

namespace Sweep

def urls (sweep : Sweep) : List GoString := sweep.jobs.map Job.url ++ sweep.rest

def running (sweep : Sweep) : Nat := sweep.jobs.countP fun job => job.phase.isRunning

def setJob (sweep : Sweep) (index : Nat) (job : Job) : Sweep :=
  { sweep with jobs := sweep.jobs.set index job }

/-- The steps of a tick that are not those of its reconciles. -/
inductive Step : Sweep → Sweep → Prop
  | launch {sweep : Sweep} {url : GoString} {rest : List GoString}
      {sem : Channel maxConcurrent Unit} (next : sweep.rest = url :: rest)
      (room : sweep.sem.trySend () = some sem) :
      Step sweep { sweep with sem, rest, jobs := sweep.jobs ++ [⟨url, .launched⟩] }
  | release {sweep : Sweep} {index : Nat} {job : Job} {failed : Bool}
      {sem : Channel maxConcurrent Unit} (found : sweep.jobs[index]? = some job)
      (counted : job.phase = .counted failed) (received : sweep.sem.receive = some ((), sem)) :
      Step sweep { sweep.setJob index { job with phase := .released failed } with sem }

end Sweep

/-- The reconciles whose error has been counted. -/
def failures (jobs : List Job) : Nat := jobs.countP fun job => job.phase.isFailure

inductive AntiEntropyAction where
  | peers (action : PeersAction)
  | idle
  | tick
  | sweep (tick : Nat)
  | job (tick index : Nat)
  | reconcileWithPeer (url : GoString)
  | call (index : Nat)
  | stop
  | leave

namespace AntiEntropy

def start (urls : List GoString) (now : Int64) : AntiEntropy where
  manager := .newMeshManager urls now
  sweeps := []
  calls := []
  stopped := false
  ended := false
  pullErrors := 0
  lastPullUnix := 0
  lastPushUnix := 0

def setSweep (s : AntiEntropy) (tick : Nat) (sweep : Sweep) : AntiEntropy :=
  { s with sweeps := s.sweeps.set tick sweep }

/-- The loop waits for its ticker when it has been through every slice. -/
def Selecting (s : AntiEntropy) : Prop :=
  s.ended = false ∧ ∀ sweep ∈ s.sweeps, sweep.rest = []

/-- All reconciles, those of the ticks and those of the callers. -/
def jobs (s : AntiEntropy) : List Job := s.sweeps.flatMap Sweep.jobs ++ s.calls

inductive Step : AntiEntropy → AntiEntropyAction → AntiEntropy → Prop
  | peers {s : AntiEntropy} {manager : MeshManager} {action : PeersAction}
      (moved : MeshManager.Step s.manager action manager) :
      Step s (.peers action) { s with manager }
  | idle {s : AntiEntropy} (order : Iteration s.manager.peers) (selecting : s.Selecting)
      (nobody : s.manager.activePeers order = []) : Step s .idle s
  | tick {s : AntiEntropy} (order : Iteration s.manager.peers) {slice : List GoString}
      (selecting : s.Selecting) (somebody : s.manager.activePeers order ≠ [])
      (sliced : TickSlice (s.manager.activePeers order) slice) :
      Step s .tick { s with
        sweeps := s.sweeps ++ [⟨.make maxConcurrent Unit, [], slice, s.manager⟩] }
  | sweep {s : AntiEntropy} {tick : Nat} {sweep next : Sweep}
      (found : s.sweeps[tick]? = some sweep) (moved : sweep.Step next) :
      Step s (.sweep tick) (s.setSweep tick next)
  | job {s : AntiEntropy} {tick index : Nat} {sweep : Sweep} {job next : Job}
      {counters : SyncCounters} (found : s.sweeps[tick]? = some sweep)
      (isJob : sweep.jobs[index]? = some job)
      (moved : job.Step s.manager s.toSyncCounters counters next) :
      Step s (.job tick index)
        { s.setSweep tick (sweep.setJob index next) with toSyncCounters := counters }
  | reconcileWithPeer {s : AntiEntropy} (url : GoString) :
      Step s (.reconcileWithPeer url) { s with calls := s.calls ++ [⟨url, .launched⟩] }
  | call {s : AntiEntropy} {index : Nat} {job next : Job} {counters : SyncCounters}
      (isJob : s.calls[index]? = some job)
      (moved : job.Step s.manager s.toSyncCounters counters next) :
      Step s (.call index)
        { s with calls := s.calls.set index next, toSyncCounters := counters }
  | stop {s : AntiEntropy} : Step s .stop { s with stopped := true }
  | leave {s : AntiEntropy} (selecting : s.Selecting) (stopped : s.stopped = true) :
      Step s .leave { s with ended := true }

def Reached (urls : List GoString) (now : Int64) (s : AntiEntropy) : Prop :=
  Run Step (fun _ _ => True) (start urls now) s

end AntiEntropy

/-! What every tick keeps. -/

namespace MeshManager

theorem mem_activePeers_iff {m : MeshManager} (kept : m.Kept) (order : Iteration m.peers)
    {url : GoString} : url ∈ m.activePeers order ↔
      ∃ pointer p, m.peers.lookup url = some pointer ∧ m.heap[pointer]? = some p ∧
        p.isActive = true := by
  unfold activePeers
  rw [List.mem_filterMap]
  constructor
  · rintro ⟨⟨key, pointer⟩, visited, selected⟩
    have tracked := (order.complete key pointer).mp visited
    obtain ⟨p, found, rfl⟩ := kept.tracked tracked
    obtain ⟨_, also, result⟩ := Option.bind_eq_some_iff.mp selected
    rw [found, Option.some.injEq] at also
    subst also
    split at result
    next isActive =>
        cases result
        exact ⟨pointer, p, tracked, found, isActive⟩
    next => cases result
  · rintro ⟨pointer, p, tracked, found, isActive⟩
    obtain ⟨_, also, isUrl⟩ := kept.tracked tracked
    rw [found, Option.some.injEq] at also
    subst also
    refine ⟨(url, pointer), (order.complete url pointer).mpr tracked, ?_⟩
    simp [found, isActive, isUrl]

theorem nodup_activePeers {m : MeshManager} (kept : m.Kept) (order : Iteration m.peers) :
    (m.activePeers order).Nodup := by
  have selected (entries : List (GoString × Nat))
      (inside : ∀ entry ∈ entries, entry ∈ order.order) :
      (entries.filterMap fun entry => (m.heap[entry.2]?).bind fun p =>
        if p.isActive then some p.url else none).Sublist (entries.map Prod.fst) := by
    induction entries with
    | nil => exact .slnil
    | cons entry rest ih =>
        have onward := ih fun later isLater => inside later (List.mem_cons_of_mem entry isLater)
        have tracked := (order.complete entry.1 entry.2).mp (inside entry List.mem_cons_self)
        obtain ⟨p, found, isUrl⟩ := kept.tracked tracked
        rw [List.filterMap_cons, found, Option.bind_some, isUrl, List.map_cons]
        split
        next skipped => exact onward.cons _
        next url chosen =>
            split at chosen
            next =>
                cases chosen
                exact onward.cons_cons _
            next => cases chosen
  exact order.distinct.sublist (selected order.order fun _ member => member)

end MeshManager

theorem TickSlice.nodup {active slice : List GoString} (sliced : TickSlice active slice)
    (distinct : active.Nodup) : slice.Nodup := by
  cases sliced with
  | whole => exact distinct
  | shuffled _ shuffle =>
      exact ((shuffle.nodup_iff).mpr distinct).sublist (List.take_sublist _ _)

theorem TickSlice.length_le {active slice : List GoString} (sliced : TickSlice active slice) :
    slice.length ≤ maxReconcilePerTick := by
  cases sliced with
  | whole few => exact few
  | shuffled => exact List.length_take_le _ _

theorem TickSlice.subset {active slice : List GoString} (sliced : TickSlice active slice)
    {url : GoString} (member : url ∈ slice) : url ∈ active := by
  cases sliced with
  | whole => exact member
  | shuffled _ shuffle => exact shuffle.mem_iff.mp (List.mem_of_mem_take member)

/-- The reconcile has asked its peer only if the manager that it saw admits it. -/
def Job.Admitted (job : Job) : Prop :=
  ∀ seen, job.phase = .contacting seen → seen.Admits job.url

namespace Job.Step

variable {manager : MeshManager} {counters after : SyncCounters} {job next : Job}

theorem url_eq (step : job.Step manager counters after next) : next.url = job.url := by
  cases step <;> rfl

theorem running (step : job.Step manager counters after next) :
    job.phase.isRunning = true ∧ next.phase.isRunning = true := by
  cases step with
  | refuse earlier | contact earlier | finish earlier | fail earlier | pull earlier
  | push earlier =>
      rw [earlier]
      exact ⟨rfl, rfl⟩

theorem admitted (step : job.Step manager counters after next) : next.Admitted := by
  intro seen contacting
  cases step with
  | contact _ admits =>
      cases contacting
      exact admits
  | refuse | finish | fail | pull | push => cases contacting

/-- An error is counted in the step in which the reconcile counts as failed. -/
theorem pullErrors_eq (step : job.Step manager counters after next) :
    job.phase.isFailure = false ∧
      after.pullErrors = counters.pullErrors + if next.phase.isFailure then 1 else 0 := by
  cases step with
  | refuse earlier | contact earlier | finish earlier | pull earlier | push earlier =>
      rw [earlier]
      exact ⟨rfl, (Int64.add_zero _).symm⟩
  | fail earlier =>
      rw [earlier]
      exact ⟨rfl, rfl⟩

end Job.Step

theorem countP_set_job {jobs : List Job} {index : Nat} {job : Job}
    (found : jobs[index]? = some job) (next : Job) (counts : JobPhase → Bool) :
    ((jobs.set index next).countP fun job => counts job.phase) +
        (if counts job.phase then 1 else 0) =
      (jobs.countP fun job => counts job.phase) + (if counts next.phase then 1 else 0) := by
  obtain ⟨inside, isJob⟩ := List.getElem?_eq_some_iff.mp found
  have present : (if counts job.phase then 1 else 0) ≤
      jobs.countP fun job => counts job.phase := by
    split
    next counted => exact List.countP_pos_iff.mpr ⟨job, List.mem_of_getElem? found, counted⟩
    next => exact Nat.zero_le _
  rw [List.countP_set inside, isJob]
  omega

namespace Sweep

variable {sweep next : Sweep} {index : Nat} {job : Job}

theorem urls_setJob (found : sweep.jobs[index]? = some job) {after : Job}
    (sameUrl : after.url = job.url) : (sweep.setJob index after).urls = sweep.urls := by
  obtain ⟨inside, isJob⟩ := List.getElem?_eq_some_iff.mp found
  have same : (sweep.jobs.map Job.url).set index job.url = sweep.jobs.map Job.url := by
    rw [← isJob, ← List.getElem_map Job.url]
    · exact List.set_getElem_self _
    · simpa using inside
  unfold urls setJob
  rw [List.map_set, sameUrl]
  exact congrArg (· ++ sweep.rest) same

structure Sound (sweep : Sweep) : Prop where
  snapshot : sweep.snapshot.Kept
  held : sweep.running = sweep.sem.buffer.length
  sliced : ∃ order, TickSlice (sweep.snapshot.activePeers order) sweep.urls
  admitted : ∀ job ∈ sweep.jobs, job.Admitted

theorem Sound.moveJob (sound : sweep.Sound) (found : sweep.jobs[index]? = some job)
    {manager : MeshManager} {counters after : SyncCounters} {moved : Job}
    (step : job.Step manager counters after moved) : (sweep.setJob index moved).Sound where
  snapshot := sound.snapshot
  held := by
    have count := countP_set_job found moved JobPhase.isRunning
    rw [step.running.1, step.running.2] at count
    exact (Nat.add_right_cancel count).trans sound.held
  sliced := by
    rw [urls_setJob found step.url_eq]
    exact sound.sliced
  admitted := by
    intro other member
    rcases List.mem_or_eq_of_mem_set member with before | rfl
    · exact sound.admitted other before
    · exact step.admitted

theorem Sound.step (sound : sweep.Sound) (step : Step sweep next) : next.Sound := by
  cases step with
  | @launch url rest sem waits room =>
      refine ⟨sound.snapshot, ?_, ?_, ?_⟩
      · have held := sound.held
        unfold running at held ⊢
        rw [List.countP_append, held, (Channel.trySend_some room).1, List.length_append]
        rfl
      · have same : urls { sweep with sem, rest, jobs := sweep.jobs ++ [⟨url, .launched⟩] } =
            sweep.urls := by
          simp [urls, waits]
        rw [same]
        exact sound.sliced
      · intro other member
        rcases List.mem_append.mp member with before | isNew
        · exact sound.admitted other before
        · rw [List.mem_singleton.mp isNew]
          intro seen contacting
          cases contacting
  | @release index job failed sem found counted received =>
      let released : Job := { job with phase := .released failed }
      refine ⟨sound.snapshot, ?_, ?_, ?_⟩
      · have count := countP_set_job found released JobPhase.isRunning
        have held := sound.held
        rw [counted] at count
        rw [(Channel.receive_some received).1, List.length_cons] at held
        exact Nat.add_right_cancel (count.trans held)
      · have same : urls { sweep.setJob index released with sem } = sweep.urls :=
          urls_setJob found rfl
        rw [same]
        exact sound.sliced
      · intro other member
        rcases List.mem_or_eq_of_mem_set member with before | rfl
        · exact sound.admitted other before
        · intro seen contacting
          cases contacting

end Sweep

namespace AntiEntropy

variable {s next : AntiEntropy} {action : AntiEntropyAction}

structure Sound (s : AntiEntropy) : Prop where
  manager : s.manager.Kept
  sweeps : ∀ sweep ∈ s.sweeps, sweep.Sound
  calls : ∀ job ∈ s.calls, job.Admitted

theorem sound_start (urls : List GoString) (now : Int64) : (start urls now).Sound where
  manager := MeshManager.kept_newMeshManager urls now
  sweeps _ member := by simp [start] at member
  calls _ member := by simp [start] at member

theorem Sound.setSweep (sound : s.Sound) (tick : Nat) {after : Sweep} (isSound : after.Sound) :
    (s.setSweep tick after).Sound where
  manager := sound.manager
  calls := sound.calls
  sweeps := by
    intro other member
    rcases List.mem_or_eq_of_mem_set member with before | rfl
    · exact sound.sweeps other before
    · exact isSound

theorem Sound.step (sound : s.Sound) (step : Step s action next) : next.Sound := by
  cases step with
  | peers moved => exact ⟨sound.manager.step moved, sound.sweeps, sound.calls⟩
  | idle => exact sound
  | @tick order slice selecting somebody sliced =>
      refine ⟨sound.manager, ?_, sound.calls⟩
      intro sweep member
      rcases List.mem_append.mp member with before | isNew
      · exact sound.sweeps sweep before
      · rw [List.mem_singleton.mp isNew]
        refine ⟨sound.manager, rfl, ⟨order, sliced⟩, ?_⟩
        intro job impossible
        cases impossible
  | sweep found moved =>
      exact sound.setSweep _ ((sound.sweeps _ (List.mem_of_getElem? found)).step moved)
  | @job tick index sweep job after counters found isJob moved =>
      have isSound := (sound.sweeps sweep (List.mem_of_getElem? found)).moveJob isJob moved
      have kept := sound.setSweep tick isSound
      exact ⟨kept.manager, kept.sweeps, kept.calls⟩
  | reconcileWithPeer url =>
      refine ⟨sound.manager, sound.sweeps, ?_⟩
      intro job member
      rcases List.mem_append.mp member with before | isNew
      · exact sound.calls job before
      · rw [List.mem_singleton.mp isNew]
        intro seen contacting
        cases contacting
  | call isJob moved =>
      refine ⟨sound.manager, sound.sweeps, ?_⟩
      intro job member
      rcases List.mem_or_eq_of_mem_set member with before | rfl
      · exact sound.calls job before
      · exact moved.admitted
  | stop => exact ⟨sound.manager, sound.sweeps, sound.calls⟩
  | leave => exact ⟨sound.manager, sound.sweeps, sound.calls⟩

theorem Reached.sound {urls : List GoString} {now : Int64} (reached : Reached urls now s) :
    s.Sound :=
  Run.keeps (fun sound _ step => sound.step step) reached (sound_start urls now)

/-! The count of errors. -/

theorem failures_append (first second : List Job) :
    failures (first ++ second) = failures first + failures second :=
  List.countP_append

theorem failures_set {jobs : List Job} {index : Nat} {job : Job}
    (found : jobs[index]? = some job) (uncounted : job.phase.isFailure = false) (after : Job) :
    failures (jobs.set index after) = failures jobs + if after.phase.isFailure then 1 else 0 := by
  have count := countP_set_job found after JobPhase.isFailure
  rw [uncounted] at count
  exact count

theorem failures_setSweep {sweeps : List Sweep} {tick : Nat} {sweep : Sweep}
    (found : sweeps[tick]? = some sweep) (after : Sweep) :
    failures ((sweeps.set tick after).flatMap Sweep.jobs) + failures sweep.jobs =
      failures (sweeps.flatMap Sweep.jobs) + failures after.jobs := by
  induction sweeps generalizing tick with
  | nil => cases found
  | cons first rest ih =>
      cases tick with
      | zero =>
          cases found
          simp only [List.set_cons_zero, List.flatMap_cons, failures_append]
          omega
      | succ tick =>
          have onward := ih found
          simp only [List.set_cons_succ, List.flatMap_cons, failures_append]
          omega

theorem failures_sweepStep {sweep after : Sweep} (moved : sweep.Step after) :
    failures after.jobs = failures sweep.jobs := by
  cases moved with
  | launch => exact failures_append _ _
  | @release index job failed sem found counted =>
      have count := countP_set_job found { job with phase := .released failed } JobPhase.isFailure
      rw [counted] at count
      exact Nat.add_right_cancel count

/-- The step lemma: the count grows with the reconciles that count as failed. -/
theorem Step.pullErrors_eq (step : Step s action next)
    (counted : s.pullErrors = Int64.ofNat (failures s.jobs)) :
    next.pullErrors = Int64.ofNat (failures next.jobs) := by
  -- one more failure, or none
  have grows {after : SyncCounters} {total : Nat} {failed : Bool}
      (errors : after.pullErrors = s.pullErrors + if failed then 1 else 0)
      (count : total = failures s.jobs + if failed then 1 else 0) :
      after.pullErrors = Int64.ofNat total := by
    rw [errors, count, Int64.ofNat_add, counted]
    cases failed <;> rfl
  cases step with
  | peers | idle | stop | leave => exact counted
  | tick => simpa [jobs] using counted
  | @sweep tick before after found moved =>
      have total := failures_setSweep found after
      rw [failures_sweepStep moved] at total
      have same : failures (s.setSweep tick after).jobs = failures s.jobs := by
        unfold jobs AntiEntropy.setSweep
        rw [failures_append, failures_append, Nat.add_right_cancel total]
      rw [same]
      exact counted
  | @job tick index sweep job moved after found isJob takes =>
      obtain ⟨uncounted, errors⟩ := takes.pullErrors_eq
      have count := failures_set isJob uncounted moved
      have total := failures_setSweep found (sweep.setJob index moved)
      refine grows errors ?_
      unfold jobs AntiEntropy.setSweep
      rw [failures_append, failures_append]
      change failures (sweep.setJob index moved).jobs = _ at count
      dsimp only
      omega
  | reconcileWithPeer url =>
      have same : failures (s.sweeps.flatMap Sweep.jobs ++ (s.calls ++ [⟨url, .launched⟩])) =
          failures s.jobs := by
        rw [jobs, failures_append, failures_append, failures_append]
        rfl
      exact counted.trans (congrArg Int64.ofNat same.symm)
  | @call index job moved after isJob takes =>
      obtain ⟨uncounted, errors⟩ := takes.pullErrors_eq
      have count := failures_set isJob uncounted moved
      refine grows errors ?_
      unfold jobs
      rw [failures_append, failures_append]
      dsimp only
      omega

theorem Reached.pullErrors_eq {urls : List GoString} {now : Int64} (reached : Reached urls now s) :
    s.pullErrors = Int64.ofNat (failures s.jobs) := by
  induction reached with
  | start => rfl
  | step _ _ taken ih => exact taken.pullErrors_eq ih

end AntiEntropy

/-- In every run each tick has at most four reconciles under way, takes at most
sixteen peers, none twice and only active ones.  Ticks overlap, so that their total is
bounded by their number.  No reconcile, of a tick or of a caller, asks a peer that it
has seen tracked and not active, and the error count is that of the failed ones. -/
theorem sweeps_bounded {urls : List GoString} {now : Int64} {s : AntiEntropy}
    (reached : AntiEntropy.Reached urls now s) :
    (∀ sweep ∈ s.sweeps, sweep.running ≤ 4 ∧ sweep.urls.Nodup ∧ sweep.urls.length ≤ 16 ∧
      ∀ url ∈ sweep.urls, ∃ pointer p, sweep.snapshot.peers.lookup url = some pointer ∧
        sweep.snapshot.heap[pointer]? = some p ∧ p.isActive = true) ∧
    (s.sweeps.map Sweep.running).sum ≤ s.sweeps.length * 4 ∧
    (∀ job ∈ s.jobs, ∀ seen, job.phase = .contacting seen → seen.Admits job.url) ∧
    s.pullErrors = Int64.ofNat (failures s.jobs) := by
  have sound := reached.sound
  have atMostFour (sweep : Sweep) (member : sweep ∈ s.sweeps) : sweep.running ≤ 4 := by
    rw [(sound.sweeps sweep member).held]
    exact sweep.sem.bounded
  refine ⟨?_, ?_, ?_, reached.pullErrors_eq⟩
  · intro sweep member
    obtain ⟨snapshot, _, ⟨order, sliced⟩, _⟩ := sound.sweeps sweep member
    refine ⟨atMostFour sweep member,
      sliced.nodup (MeshManager.nodup_activePeers snapshot order), sliced.length_le, ?_⟩
    intro url isUrl
    exact (MeshManager.mem_activePeers_iff snapshot order).mp (sliced.subset isUrl)
  · have total := List.sum_le_card_nsmul (s.sweeps.map Sweep.running) 4 fun count member => by
      obtain ⟨sweep, isSweep, rfl⟩ := List.mem_map.mp member
      exact atMostFour sweep isSweep
    rwa [List.length_map, smul_eq_mul] at total
  · intro job member
    rcases List.mem_append.mp member with inSweep | isCall
    · obtain ⟨sweep, isSweep, isJob⟩ := List.mem_flatMap.mp inSweep
      exact (sound.sweeps sweep isSweep).admitted job isJob
    · exact sound.calls job isCall

/-- One tick with one peer, whose reconcile is refused by the network; and a caller
that asks for a peer nobody tracks. -/
theorem sweeps_bounded_one_failure :
    ∃ s, AntiEntropy.Reached [ascii ['a']] 0 s ∧ s.sweeps.length = 1 ∧ s.calls.length = 1 ∧
      (s.sweeps.map Sweep.running).sum ≤ s.sweeps.length * 4 ∧ s.pullErrors = 1 ∧
      s.pullErrors = Int64.ofNat (failures s.jobs) := by
  let url := ascii ['a']
  let started := AntiEntropy.start [url] 0
  let manager := started.manager
  let order : Iteration started.manager.peers := {
    order := [(url, 0)]
    distinct := List.nodup_singleton _
    complete := by
      have only : started.manager.peers = Finmap.singleton url 0 := by decide
      intro other pointer
      rw [only, FiniteMap.lookup_singleton_iff, List.mem_singleton, Prod.mk.injEq] }
  have active : started.manager.activePeers order = [url] := rfl
  let empty : Sweep := ⟨.make maxConcurrent Unit, [], [url], manager⟩
  let full : Channel maxConcurrent Unit := ⟨[()], false, by decide⟩
  let job : JobPhase → Job := fun phase => ⟨url, phase⟩
  let sweep : JobPhase → Sweep := fun phase => ⟨full, [job phase], [], manager⟩
  let ticked : AntiEntropy := { started with sweeps := [empty] }
  let atPhase : JobPhase → AntiEntropy := fun phase => { started with sweeps := [sweep phase] }
  let failed : AntiEntropy := { atPhase (.counted true) with pullErrors := 1 }
  let caller : JobPhase → Job := fun phase => ⟨ascii ['b'], phase⟩
  let called : JobPhase → AntiEntropy := fun phase => { failed with calls := [caller phase] }
  have tick : AntiEntropy.Step started .tick ticked :=
    .tick order ⟨rfl, by simp [started, AntiEntropy.start]⟩ (by rw [active]; simp)
      (by rw [active]; exact .whole (by decide))
  have launch : AntiEntropy.Step ticked (.sweep 0) (atPhase .launched) :=
    @AntiEntropy.Step.sweep ticked 0 empty (sweep .launched) rfl (.launch rfl rfl)
  have contact : AntiEntropy.Step (atPhase .launched) (.job 0 0)
      (atPhase (.contacting manager)) :=
    @AntiEntropy.Step.job (atPhase .launched) 0 0 (sweep .launched) (job .launched)
      (job (.contacting manager)) _ rfl rfl
      (@Job.Step.contact manager _ (job .launched) rfl
        (@MeshManager.Admits.active manager url 0 (newTrackedPeer url 0) rfl rfl rfl))
  have finish : AntiEntropy.Step (atPhase (.contacting manager)) (.job 0 0)
      (atPhase (.returned true)) :=
    @AntiEntropy.Step.job (atPhase (.contacting manager)) 0 0 (sweep (.contacting manager))
      (job (.contacting manager)) (job (.returned true)) _ rfl rfl
      (@Job.Step.finish manager _ (job (.contacting manager)) manager rfl true)
  have fail : AntiEntropy.Step (atPhase (.returned true)) (.job 0 0) failed :=
    @AntiEntropy.Step.job (atPhase (.returned true)) 0 0 (sweep (.returned true))
      (job (.returned true)) (job (.counted true)) _ rfl rfl
      (@Job.Step.fail manager _ (job (.returned true)) rfl)
  have call : AntiEntropy.Step failed (.reconcileWithPeer (ascii ['b'])) (called .launched) :=
    .reconcileWithPeer (ascii ['b'])
  have asks : AntiEntropy.Step (called .launched) (.call 0) (called (.contacting manager)) :=
    @AntiEntropy.Step.call (called .launched) 0 (caller .launched) (caller (.contacting manager))
      _ rfl (@Job.Step.contact manager _ (caller .launched) rfl (.untracked (by decide)))
  have onFailure : AntiEntropy.Reached [url] 0 failed :=
    ((((Run.start.extend tick trivial).extend launch trivial).extend contact trivial).extend
      finish trivial).extend fail trivial
  have reached : AntiEntropy.Reached [url] 0 (called (.contacting manager)) :=
    (onFailure.extend call trivial).extend asks trivial
  obtain ⟨_, bound, _, errors⟩ := sweeps_bounded reached
  exact ⟨called (.contacting manager), reached, rfl, rfl, bound, rfl, errors⟩

end NellDB
