import NellDB.Data.Backoff

namespace NellDB

open Data

/-! The loops that keep a replica up to date: `Live` pushes and pulls at an
interval, `LiveWS` reconnects when a session ends.  A call counts here for whether
it returns an error; durations are nanoseconds. -/

def second : Int64 := 1000000000

def nextBackoff (cur max : Int64) : Int64 :=
  let next := cur * 2
  if next > max then max else next

structure LiveConfig where
  interval : Int64
  pushEvery : Int
  backoffMax : Int64

def LiveConfig.withDefaults (cfg : LiveConfig) : LiveConfig where
  interval := if cfg.interval ≤ 0 then 5 * second else cfg.interval
  pushEvery := if cfg.pushEvery ≤ 0 then 1 else cfg.pushEvery
  backoffMax := if cfg.backoffMax ≤ 0 then 60 * second else cfg.backoffMax

/-- What a replicator reports about its calls. -/
structure Replicator where
  lastPushUnix : Int64
  lastPullUnix : Int64
  pushErrors : Int64
  pullErrors : Int64

namespace Replicator

def new : Replicator := ⟨0, 0, 0, 0⟩

def push (r : Replicator) (success : Bool) (now : Int64) : Replicator :=
  if success then
    { r with lastPushUnix := now }
  else
    { r with pushErrors := r.pushErrors + 1 }

def pull (r : Replicator) (success : Bool) (now : Int64) : Replicator :=
  if success then
    { r with lastPullUnix := now }
  else
    { r with pullErrors := r.pullErrors + 1 }

end Replicator

/-- What the calls of one turn meet, if they are made. -/
structure Turn where
  pushes : Bool
  pushTime : Int64
  pulls : Bool
  pullTime : Int64

/-- `pullCount` is a machine integer in the source; no loop comes to `2 ^ 63` turns. -/
structure Live where
  replicator : Replicator
  backoff : Int64
  pullCount : Int
  timer : Int64
  -- What has happened so far; the loop does not look at it.
  pushed : Nat
  results : List Bool

namespace Live

def start (cfg : LiveConfig) (replicator : Replicator) : Live where
  replicator
  backoff := cfg.interval
  pullCount := 0
  timer := cfg.interval
  pushed := 0
  results := []

def retry (cfg : LiveConfig) (loop : Live) (replicator : Replicator) : Live :=
  let backoff := nextBackoff loop.backoff cfg.backoffMax
  { loop with replicator, backoff, timer := backoff, results := loop.results ++ [false] }

def pull (cfg : LiveConfig) (loop : Live) (turn : Turn) : Live :=
  let replicator := loop.replicator.pull turn.pulls turn.pullTime
  if turn.pulls then
    { loop with
      replicator
      pullCount := loop.pullCount + 1
      backoff := cfg.interval
      timer := cfg.interval
      results := loop.results ++ [true] }
  else
    loop.retry cfg replicator

/-- What the loop does when its timer fires. -/
def fire (cfg : LiveConfig) (loop : Live) (turn : Turn) : Live :=
  if loop.pullCount.tmod cfg.pushEvery = 0 then
    let replicator := loop.replicator.push turn.pushes turn.pushTime
    if turn.pushes then
      { loop with replicator, pushed := loop.pushed + 1 }.pull cfg turn
    else
      loop.retry cfg replicator
  else
    loop.pull cfg turn

def run (cfg : LiveConfig) (replicator : Replicator) (turns : List Turn) : Live :=
  turns.foldl (fire cfg) (start cfg replicator)

end Live

/-! `LiveWS`: the backoff for the next session and the last wait.  `draw` is the
random number that `Int63n` reduces; it panics without a positive bound. -/

structure Reconnect where
  backoff : Int64
  wait : Int64

def maxBackoff : Int64 := 60 * second

def int63n (bound : Int64) (draw : Nat) : Option Int64 :=
  if bound ≤ 0 then none else some (.ofNat (draw % bound.toInt.toNat))

namespace Reconnect

def start : Reconnect := ⟨2 * second, 0⟩

/-- What follows a session that ends without the loop being stopped. -/
def after (loop : Reconnect) (success : Bool) (draw : Nat) : Option Reconnect := do
  let backoff := if success then 2 * second else loop.backoff
  let jitter ← int63n (backoff / 2) draw
  return ⟨nextBackoff backoff maxBackoff, backoff + jitter⟩

def run (sessions : List (Bool × Nat)) : Option Reconnect :=
  sessions.foldlM (fun loop session => loop.after session.1 session.2) start

end Reconnect

theorem toInt_nextBackoff {cur max : Int64} (nonneg : 0 ≤ cur.toInt)
    (small : cur.toInt < 2 ^ 62) :
    (nextBackoff cur max).toInt = Backoff.next max.toInt cur.toInt := by
  have doubled : (cur * 2).toInt = cur.toInt * 2 := by
    have two : (2 : Int64).toInt = 2 := by decide
    rw [Int64.toInt_mul, two]
    apply Int.bmod_eq_of_le <;> omega
  unfold nextBackoff Backoff.next
  simp only [gt_iff_lt, Int64.lt_iff_toInt_lt, doubled]
  split
  next above => exact (min_eq_right above.le).symm
  next below => rw [doubled, min_eq_left (not_lt.mp below)]

/-- Durations that can be doubled without overflow. -/
structure LiveConfig.Valid (cfg : LiveConfig) : Prop where
  interval : 0 < cfg.interval.toInt
  shortInterval : cfg.interval.toInt < 2 ^ 62
  pushEvery : 0 < cfg.pushEvery
  backoffMax : 0 < cfg.backoffMax.toInt
  shortBackoff : cfg.backoffMax.toInt < 2 ^ 62

theorem LiveConfig.valid_withDefaults {cfg : LiveConfig}
    (shortInterval : cfg.interval.toInt < 2 ^ 62)
    (shortBackoff : cfg.backoffMax.toInt < 2 ^ 62) : cfg.withDefaults.Valid := by
  have duration (given default : Int64) (short : given.toInt < 2 ^ 62)
      (positive : 0 < default.toInt) (small : default.toInt < 2 ^ 62) :
      0 < (if given ≤ 0 then default else given).toInt ∧
        (if given ≤ 0 then default else given).toInt < 2 ^ 62 := by
    split
    next => exact ⟨positive, small⟩
    next above =>
        rw [Int64.le_iff_toInt_le, not_le] at above
        exact ⟨above, short⟩
  have interval := duration cfg.interval (5 * second) shortInterval (by decide) (by decide)
  have backoff := duration cfg.backoffMax (60 * second) shortBackoff (by decide) (by decide)
  refine ⟨interval.1, interval.2, ?_, backoff.1, backoff.2⟩
  dsimp only [withDefaults]
  split
  next => exact one_pos
  next above => exact not_le.mp above

namespace Live

/-- What holds between two turns. -/
structure Scheduled (cfg : LiveConfig) (first : Replicator) (loop : Live) : Prop where
  timer : loop.timer = loop.backoff
  backoff : loop.backoff.toInt =
    Backoff.delay cfg.interval.toInt cfg.backoffMax.toInt loop.results
  pulled : loop.pullCount = loop.results.count true
  failed : loop.replicator.pushErrors + loop.replicator.pullErrors =
    first.pushErrors + first.pullErrors + Int64.ofNat (loop.results.count false)
  pushed : loop.pullCount ≤ cfg.pushEvery * loop.pushed

variable {cfg : LiveConfig} {first : Replicator} {loop : Live}

theorem scheduled_start (cfg : LiveConfig) (first : Replicator) :
    Scheduled cfg first (start cfg first) where
  timer := rfl
  backoff := rfl
  pulled := rfl
  failed := (Int64.add_zero _).symm
  pushed := by simp [start]

theorem Scheduled.retry (scheduled : Scheduled cfg first loop) (valid : cfg.Valid)
    {replicator : Replicator} (counted : replicator.pushErrors + replicator.pullErrors =
      loop.replicator.pushErrors + loop.replicator.pullErrors + 1) :
    Scheduled cfg first (loop.retry cfg replicator) := by
  have positive : 0 < loop.backoff.toInt := by
    rw [scheduled.backoff]
    exact Backoff.delay_pos valid.interval valid.backoffMax
  have short : loop.backoff.toInt < 2 ^ 62 := by
    rw [scheduled.backoff]
    exact (Backoff.delay_le_max valid.backoffMax.le).trans_lt
      (max_lt valid.shortInterval valid.shortBackoff)
  exact {
    timer := rfl
    backoff := by
      change (nextBackoff loop.backoff cfg.backoffMax).toInt = _
      rw [toInt_nextBackoff positive.le short, scheduled.backoff]
      exact Backoff.delay_failure.symm
    pulled := by
      simp [Live.retry, scheduled.pulled]
    failed := by
      have one : (loop.results ++ [false]).count false = loop.results.count false + 1 := by simp
      change replicator.pushErrors + replicator.pullErrors = _
      rw [counted, scheduled.failed]
      change _ = _ + Int64.ofNat ((loop.results ++ [false]).count false)
      rw [one, Int64.ofNat_add, Int64.add_assoc]
      rfl
    pushed := scheduled.pushed }

theorem Scheduled.pull (scheduled : Scheduled cfg first loop) (valid : cfg.Valid) (turn : Turn)
    (ahead : loop.pullCount + 1 ≤ cfg.pushEvery * loop.pushed) :
    Scheduled cfg first (loop.pull cfg turn) := by
  unfold Live.pull
  cases turn.pulls with
  | false => exact scheduled.retry valid (Int64.add_assoc _ _ _).symm
  | true => exact {
      timer := rfl
      backoff := Backoff.delay_success.symm
      pulled := by simp [scheduled.pulled]
      failed := by simp [Replicator.pull, scheduled.failed]
      pushed := ahead }

theorem Scheduled.fire (scheduled : Scheduled cfg first loop) (valid : cfg.Valid)
    (turn : Turn) : Scheduled cfg first (loop.fire cfg turn) := by
  have every := valid.pushEvery
  have behind := scheduled.pushed
  unfold Live.fire
  split
  next due =>
      cases turn.pushes with
      | false =>
          have counted (pushes pulls : Int64) : pushes + 1 + pulls = pushes + pulls + 1 := by
            rw [Int64.add_assoc, Int64.add_comm 1, ← Int64.add_assoc]
          exact scheduled.retry valid (counted _ _)
      | true =>
          have ahead : loop.pullCount + 1 ≤ cfg.pushEvery * (loop.pushed + 1 : Nat) := by
            push_cast
            linarith
          have pushed : Scheduled cfg first { loop with
              replicator := loop.replicator.push true turn.pushTime
              pushed := loop.pushed + 1 } :=
            ⟨scheduled.timer, scheduled.backoff, scheduled.pulled, scheduled.failed,
              (Int.le_add_one le_rfl).trans ahead⟩
          exact pushed.pull valid turn ahead
  next notDue =>
      -- The pulls fall short of the pushes here: they differ modulo `pushEvery`.
      have different : loop.pullCount ≠ cfg.pushEvery * loop.pushed := by
        intro same
        rw [same, Int.mul_tmod_right] at notDue
        exact notDue rfl
      exact scheduled.pull valid turn (lt_of_le_of_ne behind different)

theorem length_results_fire (cfg : LiveConfig) (loop : Live) (turn : Turn) :
    (loop.fire cfg turn).results.length = loop.results.length + 1 := by
  have pulls (loop : Live) : (loop.pull cfg turn).results.length = loop.results.length + 1 := by
    unfold Live.pull
    cases turn.pulls <;> simp [Live.retry]
  unfold Live.fire
  split
  next =>
      cases turn.pushes with
      | false => simp [Live.retry]
      | true => exact pulls _
  next => exact pulls loop

/-- The run lemma: every turn is on record, and the schedule holds after it. -/
theorem scheduled_run (valid : cfg.Valid) (turns : List Turn) :
    (run cfg first turns).results.length = turns.length ∧
      Scheduled cfg first (run cfg first turns) := by
  induction turns using List.reverseRecOn with
  | nil => exact ⟨rfl, scheduled_start cfg first⟩
  | append_singleton turns turn ih =>
      have fires : run cfg first (turns ++ [turn]) = (run cfg first turns).fire cfg turn :=
        List.foldl_append
      rw [fires, length_results_fire, ih.1, List.length_append]
      exact ⟨rfl, ih.2.fire valid turn⟩

end Live

/-- However the pushes and pulls of a `Live` loop turn out, a turn that completes is
followed by the interval, a failed one by the interval doubled for each failure since
and cut off at `BackoffMax`; every turn is a completed pull or one counted error, and
the pulls never get ahead of `PushEvery` times the pushes. -/
theorem live_schedule (cfg : LiveConfig) (shortInterval : cfg.interval.toInt < 2 ^ 62)
    (shortBackoff : cfg.backoffMax.toInt < 2 ^ 62) (first : Replicator) (turns : List Turn) :
    let settled := cfg.withDefaults
    let loop := Live.run settled first turns
    (loop.timer.toInt =
      if streak loop.results = 0 then settled.interval.toInt
      else min (settled.interval.toInt * 2 ^ streak loop.results) settled.backoffMax.toInt) ∧
    loop.results.length = turns.length ∧ loop.pullCount = loop.results.count true ∧
    loop.replicator.pushErrors + loop.replicator.pullErrors =
      first.pushErrors + first.pullErrors + Int64.ofNat (loop.results.count false) ∧
    loop.pullCount ≤ settled.pushEvery * loop.pushed := by
  intro settled loop
  have valid := LiveConfig.valid_withDefaults shortInterval shortBackoff
  obtain ⟨recorded, scheduled⟩ : _ ∧ loop.Scheduled settled first :=
    Live.scheduled_run valid turns
  refine ⟨?_, recorded, scheduled.pulled, scheduled.failed, scheduled.pushed⟩
  rw [scheduled.timer, scheduled.backoff]
  exact Backoff.delay_eq valid.backoffMax.le

/-- A loop with all defaults that fails twice waits for ten and then for twenty seconds. -/
theorem live_schedule_defaults :
    let cfg : LiveConfig := ⟨0, 0, 0⟩
    let down : Turn := ⟨false, 0, false, 0⟩
    let loop := Live.run cfg.withDefaults .new [down, down]
    streak loop.results = 2 ∧ loop.timer.toInt = 20000000000 := by
  intro cfg down loop
  have schedule := live_schedule cfg (by decide) (by decide) .new [down, down]
  have failures : streak loop.results = 2 := by decide
  refine ⟨failures, schedule.1.trans ?_⟩
  rw [failures]
  decide

namespace Reconnect

theorem int63n_half {used : Int64} (least : 2 * second.toInt ≤ used.toInt) (draw : Nat) :
    ∃ jitter, int63n (used / 2) draw = some jitter ∧ 0 ≤ jitter.toInt ∧
      jitter.toInt < used.toInt / 2 := by
  have one : second.toInt = 1000000000 := by decide
  have below := Int64.toInt_lt used
  have half : (used / 2).toInt = used.toInt / 2 := by
    have two : (2 : Int64).toInt = 2 := by decide
    rw [Int64.toInt_div, two, Int.tdiv_eq_ediv_of_nonneg (by omega)]
    apply Int.bmod_eq_of_le <;> omega
  have positive : ¬ used / 2 ≤ 0 := by
    rw [Int64.le_iff_toInt_le, half, Int64.toInt_zero]
    omega
  have reduced := Nat.mod_lt draw (show 0 < (used.toInt / 2).toNat by omega)
  refine ⟨_, if_neg positive, ?_⟩
  rw [half, Int64.toInt_ofNat_of_lt (by omega)]
  omega

/-- One session: the wait lies between the backoff and one and a half of it. -/
theorem after_eq_some {loop : Reconnect} {success : Bool} {used : Int64}
    (isUsed : (if success then 2 * second else loop.backoff) = used)
    (least : 2 * second.toInt ≤ used.toInt) (most : used.toInt ≤ maxBackoff.toInt) (draw : Nat) :
    ∃ next, loop.after success draw = some next ∧
      next.backoff.toInt = Backoff.next maxBackoff.toInt used.toInt ∧
      used.toInt ≤ next.wait.toInt ∧ next.wait.toInt < used.toInt + used.toInt / 2 := by
  have minute : maxBackoff.toInt = 60000000000 := by decide
  have one : second.toInt = 1000000000 := by decide
  obtain ⟨jitter, drawn, nonneg, below⟩ := int63n_half least draw
  have sum : (used + jitter).toInt = used.toInt + jitter.toInt := by
    rw [Int64.toInt_add]
    apply Int.bmod_eq_of_le <;> omega
  refine ⟨⟨nextBackoff used maxBackoff, used + jitter⟩, ?_, ?_, ?_⟩
  · simp [after, isUsed, drawn]
  · exact toInt_nextBackoff (by omega) (by omega)
  · dsimp only
    omega

/-- The backoff used after a session, by the failures since the loop last started
from two seconds. -/
def backoffAfter (failures : Nat) : Int :=
  min (2 * second.toInt * 2 ^ failures) maxBackoff.toInt

theorem le_backoffAfter (failures : Nat) : 2 * second.toInt ≤ backoffAfter failures := by
  refine le_min ?_ (by decide)
  exact le_mul_of_one_le_right (by decide) (one_le_pow₀ one_le_two)

theorem next_backoffAfter (failures : Nat) :
    Backoff.next maxBackoff.toInt (backoffAfter failures) = backoffAfter (failures + 1) :=
  Backoff.next_pow (by decide) failures

/-- What holds after a session, by the failures that the backoff stands for. -/
structure Waited (failures : Nat) (loop : Reconnect) : Prop where
  backoff : loop.backoff.toInt = backoffAfter (failures + 1)
  least : backoffAfter failures ≤ loop.wait.toInt
  most : loop.wait.toInt < backoffAfter failures + backoffAfter failures / 2

theorem waited_after {loop : Reconnect} {success : Bool} {failures : Nat}
    (used : (if success then 2 * second else loop.backoff).toInt = backoffAfter failures)
    (draw : Nat) : ∃ next, loop.after success draw = some next ∧ next.Waited failures := by
  have most : backoffAfter failures ≤ maxBackoff.toInt := min_le_right _ _
  obtain ⟨next, isNext, backoff, waits, bounded⟩ := @after_eq_some loop success _ rfl
    (used ▸ le_backoffAfter failures) (used ▸ most) draw
  rw [used] at backoff waits bounded
  exact ⟨next, isNext, backoff.trans (next_backoffAfter failures), waits, bounded⟩

theorem waited_run (first : Bool × Nat) (rest : List (Bool × Nat)) :
    ∃ loop, run (first :: rest) = some loop ∧ loop.Waited (streak (rest.map Prod.fst)) := by
  induction rest using List.reverseRecOn with
  | nil =>
      -- The loop starts from two seconds, as it does after a success.
      have used : (if first.1 then 2 * second else start.backoff).toInt = backoffAfter 0 := by
        cases first.1 <;> decide
      obtain ⟨loop, isLoop, waited⟩ := waited_after used first.2
      exact ⟨loop, by simp [run, isLoop], waited⟩
  | append_singleton rest session ih =>
      obtain ⟨loop, isLoop, waited⟩ := ih
      have used : (if session.1 then 2 * second else loop.backoff).toInt =
          backoffAfter (streak ((rest ++ [session]).map Prod.fst)) := by
        rw [List.map_append, List.map_singleton]
        cases session.1 with
        | true =>
            rw [streak_success, if_pos rfl]
            decide
        | false =>
            rw [streak_failure]
            exact waited.backoff
      obtain ⟨next, isNext, onward⟩ := waited_after used session.2
      refine ⟨next, ?_, onward⟩
      unfold run at isLoop ⊢
      rw [← List.cons_append, List.foldlM_append, isLoop]
      simp [isNext]

end Reconnect

/-- However the sessions of a `LiveWS` loop end, drawing the jitter never panics, and
the wait before the next session starts from two seconds doubled for each failure since
the last success, that of the first session aside, never more than a minute, and is less
than half as long again. -/
theorem live_ws_reconnects (first : Bool × Nat) (rest : List (Bool × Nat)) :
    ∃ loop, Reconnect.run (first :: rest) = some loop ∧
      let backoff := min (2 * second.toInt * 2 ^ streak (rest.map Prod.fst)) maxBackoff.toInt
      backoff ≤ loop.wait.toInt ∧ loop.wait.toInt < backoff + backoff / 2 := by
  obtain ⟨loop, isLoop, waited⟩ := Reconnect.waited_run first rest
  exact ⟨loop, isLoop, waited.least, waited.most⟩

end NellDB
