import NellDB.Data.Iteration
import NellDB.Data.TokenBucket
import NellDB.Record

namespace NellDB

open Data

/-! The rate limiter, with exact rational numbers for its floats.  Times and
durations are nanoseconds. -/

structure Bucket where
  tokens : ℚ
  lastRef : Int
  deriving DecidableEq, Repr

structure RateLimiter where
  rate : ℚ
  burst : Int
  state : FiniteMap GoString Bucket

def newRateLimiter (rate : ℚ) (burst : Int) : RateLimiter := ⟨rate, burst, ∅⟩

/-- `Sub`: a difference beyond the range of a duration is cut off at its ends. -/
def timeSub (t u : Int) : Int := max (-2 ^ 63) (min (2 ^ 63 - 1) (t - u))

def seconds (duration : Int) : ℚ := duration / 10 ^ 9

def idleLimit : Int := 5 * 60 * 10 ^ 9

inductive LimiterEvent where
  | allow (ip : GoString) (now : Int)
  | cleanup (now : Int)

def LimiterEvent.time : LimiterEvent → Int
  | allow _ now => now
  | cleanup now => now

namespace RateLimiter

def allow (rl : RateLimiter) (ip : GoString) (now : Int) : Bool × RateLimiter :=
  if rl.rate ≤ 0 then
    (true, rl)
  else
    let b := (rl.state.lookup ip).getD ⟨rl.burst, now⟩
    let elapsed := seconds (timeSub now b.lastRef)
    let tokens := b.tokens + elapsed * rl.rate
    let tokens := if tokens > rl.burst then (rl.burst : ℚ) else tokens
    if 1 ≤ tokens then
      (true, { rl with state := rl.state.insert ip ⟨tokens - 1, now⟩ })
    else
      (false, { rl with state := rl.state.insert ip ⟨tokens, now⟩ })

/-- One tick of `cleanupLoop`. -/
def cleanup (rl : RateLimiter) (now : Int) : RateLimiter :=
  let cutoff := now - idleLimit
  { rl with state := rl.state.filter fun b => !decide (b.lastRef < cutoff) }

/-- The answers of a run, each with its IP and time. -/
def answers : RateLimiter → List LimiterEvent → List (GoString × Int × Bool)
  | _, [] => []
  | rl, .allow ip now :: rest =>
      (ip, now, (rl.allow ip now).1) :: answers (rl.allow ip now).2 rest
  | rl, .cleanup now :: rest => answers (rl.cleanup now) rest

/-- How many calls for an IP return true from one time to another, in seconds. -/
def allowedWithin (rl : RateLimiter) (events : List LimiterEvent) (ip : GoString)
    (start finish : ℚ) : Nat :=
  (rl.answers events).countP fun (caller, now, allowed) =>
    caller = ip ∧ allowed ∧ start ≤ seconds now ∧ seconds now ≤ finish

/-- In every run and every interval an IP is granted at most a burst and what
the rate adds. -/
def Bounded (rl : RateLimiter) : Prop :=
  ∀ events : List LimiterEvent, events.Pairwise (fun first second => first.time ≤ second.time) →
    ∀ ip start finish, start ≤ finish →
      (rl.allowedWithin events ip start finish : ℚ) ≤ rl.burst + rl.rate * (finish - start)

/-- The tokens that the next call for an IP finds. -/
def available (rl : RateLimiter) (ip : GoString) (now : Int) : ℚ :=
  match rl.state.lookup ip with
  | some b => TokenBucket.refill rl.rate rl.burst b.tokens (seconds (timeSub now b.lastRef))
  | none => rl.burst

theorem available_le_burst (rl : RateLimiter) (ip : GoString) (now : Int) :
    rl.available ip now ≤ rl.burst := by
  unfold available
  split
  next => exact TokenBucket.refill_le_burst _ _ _ _
  next => exact le_rfl

/-- What is left of the tokens after a call. -/
def left (rl : RateLimiter) (ip : GoString) (now : Int) : ℚ :=
  rl.available ip now - if 1 ≤ rl.available ip now then 1 else 0

theorem allow_eq {rl : RateLimiter} (rising : 0 < rl.rate) (ip : GoString) (now : Int) :
    rl.allow ip now = (decide (1 ≤ rl.available ip now),
      { rl with state := rl.state.insert ip ⟨rl.left ip now, now⟩ }) := by
  have refilled : (let b := (rl.state.lookup ip).getD ⟨rl.burst, now⟩
      let tokens := b.tokens + seconds (timeSub now b.lastRef) * rl.rate
      if tokens > rl.burst then (rl.burst : ℚ) else tokens) = rl.available ip now := by
    unfold available
    cases found : rl.state.lookup ip with
    | none =>
        have same : timeSub now now = 0 := by simp [timeSub]
        simp [same, seconds]
    | some b =>
        rw [Option.getD_some]
        dsimp only
        rw [TokenBucket.refill, mul_comm rl.rate]
        split
        next more => rw [min_eq_left more.le]
        next less => rw [min_eq_right (not_lt.mp less)]
  unfold allow left
  rw [if_neg (not_le.mpr rising)]
  dsimp only at refilled ⊢
  rw [refilled]
  split
  next enough => simp [enough]
  next short => simp [short]

@[simp] theorem allow_rate (rl : RateLimiter) (ip : GoString) (now : Int) :
    (rl.allow ip now).2.rate = rl.rate := by
  unfold allow
  dsimp only
  split_ifs <;> rfl

@[simp] theorem allow_burst (rl : RateLimiter) (ip : GoString) (now : Int) :
    (rl.allow ip now).2.burst = rl.burst := by
  unfold allow
  dsimp only
  split_ifs <;> rfl

/-- What a call takes and what it leaves is what was there. -/
theorem left_add_allowed {rl : RateLimiter} (rising : 0 < rl.rate) (ip : GoString) (now : Int) :
    rl.left ip now + (if (rl.allow ip now).1 then 1 else 0) = rl.available ip now := by
  rw [allow_eq rising, left]
  simp only [decide_eq_true_eq, sub_add_cancel]

theorem seconds_le {early late : Int} (order : early ≤ late) : seconds early ≤ seconds late := by
  unfold seconds
  gcongr

theorem timeSub_nonneg {early late : Int} (order : early ≤ late) : 0 ≤ timeSub late early := by
  unfold timeSub
  omega

theorem seconds_timeSub_le {early late : Int} (order : early ≤ late) :
    seconds (timeSub late early) ≤ seconds late - seconds early := by
  have cut : timeSub late early ≤ late - early := by
    unfold timeSub
    omega
  calc seconds (timeSub late early) ≤ seconds (late - early) := seconds_le cut
    _ = seconds late - seconds early := by
        unfold seconds
        push_cast
        ring

/-- Every bucket has tokens left at zero or above, and was last used by a time. -/
def Settled (rl : RateLimiter) (clock : Int) : Prop :=
  ∀ ip b, rl.state.lookup ip = some b → 0 ≤ b.tokens ∧ b.lastRef ≤ clock

theorem Settled.later {rl : RateLimiter} {clock now : Int} (settled : rl.Settled clock)
    (order : clock ≤ now) : rl.Settled now := by
  intro ip b found
  obtain ⟨nonneg, used⟩ := settled ip b found
  exact ⟨nonneg, used.trans order⟩

theorem Settled.available_nonneg {rl : RateLimiter} {now : Int} (settled : rl.Settled now)
    (rising : 0 ≤ rl.rate) (capacity : 0 ≤ rl.burst) (ip : GoString) :
    0 ≤ rl.available ip now := by
  have limit : (0 : ℚ) ≤ rl.burst := by exact_mod_cast capacity
  unfold available
  cases found : rl.state.lookup ip with
  | none => exact limit
  | some b =>
      obtain ⟨nonneg, used⟩ := settled ip b found
      have later : 0 ≤ seconds (timeSub now b.lastRef) := by
        have start := seconds_le (timeSub_nonneg used)
        simpa [seconds] using start
      exact TokenBucket.refill_nonneg rising limit nonneg later

theorem Settled.left_nonneg {rl : RateLimiter} {now : Int} (settled : rl.Settled now)
    (rising : 0 ≤ rl.rate) (capacity : 0 ≤ rl.burst) (ip : GoString) : 0 ≤ rl.left ip now := by
  unfold left
  split
  next enough => exact sub_nonneg.mpr enough
  next => simpa using settled.available_nonneg rising capacity ip

theorem Settled.allow {rl : RateLimiter} {now : Int} (settled : rl.Settled now)
    (rising : 0 < rl.rate) (capacity : 0 ≤ rl.burst) (ip : GoString) :
    (rl.allow ip now).2.Settled now := by
  intro other b found
  rw [allow_eq rising] at found
  dsimp only at found
  rcases FiniteMap.lookup_insert_cases found with ⟨_, rfl⟩ | ⟨_, before⟩
  · exact ⟨settled.left_nonneg rising.le capacity ip, le_rfl⟩
  · exact settled other b before

theorem lookup_cleanup (rl : RateLimiter) (now : Int) (ip : GoString) :
    (rl.cleanup now).state.lookup ip =
      (rl.state.lookup ip).filter fun b => !decide (b.lastRef < now - idleLimit) := by
  ext b
  rw [Option.filter_eq_some_iff]
  exact FiniteMap.lookup_filter_iff

theorem Settled.cleanup {rl : RateLimiter} {clock : Int} (settled : rl.Settled clock)
    (now : Int) : (rl.cleanup now).Settled clock := by
  intro ip b found
  rw [lookup_cleanup, Option.filter_eq_some_iff] at found
  exact settled ip b found.1

/-- A deletion is not seen where five idle minutes fill the bucket: the bucket that
was deleted would be full again by the next call. -/
theorem available_cleanup {rl : RateLimiter} {clock : Int} (settled : rl.Settled clock)
    (rising : 0 < rl.rate) (refills : (rl.burst : ℚ) ≤ rl.rate * seconds (idleLimit + 1))
    {cleaned now : Int} (order : cleaned ≤ now) (ip : GoString) :
    (rl.cleanup cleaned).available ip now = rl.available ip now := by
  unfold available
  rw [lookup_cleanup]
  cases found : rl.state.lookup ip with
  | none => rfl
  | some b =>
      by_cases idle : b.lastRef < cleaned - idleLimit
      · have long : idleLimit + 1 ≤ timeSub now b.lastRef := by
          unfold timeSub
          unfold idleLimit at idle ⊢
          omega
        have full : (rl.burst : ℚ) ≤ rl.rate * seconds (timeSub now b.lastRef) :=
          refills.trans (mul_le_mul_of_nonneg_left (seconds_le long) rising.le)
        have kept := TokenBucket.refill_eq_burst (settled ip b found).1 full
        rw [Option.filter_some, if_neg (by simp [idle])]
        exact kept.symm
      · rw [Option.filter_some, if_pos (by simp [idle])]
        rfl

/-- The calls for one IP, as the token bucket sees them. -/
def log (ip : GoString) (answers : List (GoString × Int × Bool)) : List (ℚ × Bool) :=
  answers.filterMap fun (caller, now, allowed) =>
    if caller = ip then some (seconds now, allowed) else none

theorem log_cons (ip : GoString) (now : Int) (allowed : Bool)
    (rest : List (GoString × Int × Bool)) :
    log ip ((ip, now, allowed) :: rest) = (seconds now, allowed) :: log ip rest := by
  simp [log]

theorem log_cons_of_ne {ip caller : GoString} (different : caller ≠ ip) (now : Int)
    (allowed : Bool) (rest : List (GoString × Int × Bool)) :
    log ip ((caller, now, allowed) :: rest) = log ip rest := by
  simp [log, different]

theorem allowedWithin_eq (rl : RateLimiter) (events : List LimiterEvent) (ip : GoString)
    (start finish : ℚ) : rl.allowedWithin events ip start finish =
      TokenBucket.granted start finish (log ip (rl.answers events)) := by
  unfold allowedWithin
  induction rl.answers events with
  | nil => rfl
  | cons answer rest ih =>
      obtain ⟨caller, now, allowed⟩ := answer
      rw [List.countP_cons, ih]
      by_cases same : caller = ip
      · rw [same, log_cons, TokenBucket.granted_cons, add_comm]
        simp
      · rw [log_cons_of_ne same]
        simp [same]

/-- The limiter has no more tokens for an IP than a bucket with a level at a time. -/
def Within (rl : RateLimiter) (ip : GoString) (clock : Int) (time level : ℚ) : Prop :=
  ∀ now, clock ≤ now →
    rl.available ip now ≤ TokenBucket.refill rl.rate rl.burst level (seconds now - time)

theorem within_allow {rl : RateLimiter} (rising : 0 < rl.rate) (ip : GoString) (now : Int) :
    (rl.allow ip now).2.Within ip now (seconds now) (rl.left ip now) := by
  intro next order
  rw [allow_eq rising]
  unfold available
  dsimp only
  rw [Finmap.lookup_insert]
  exact TokenBucket.refill_mono rising.le (seconds_timeSub_le order)

theorem available_allow_of_ne {rl : RateLimiter} (rising : 0 < rl.rate) {ip other : GoString}
    (different : other ≠ ip) (now next : Int) :
    (rl.allow ip now).2.available other next = rl.available other next := by
  rw [allow_eq rising]
  unfold available
  dsimp only
  rw [Finmap.lookup_insert_of_ne _ different]

/-- Where five idle minutes fill a bucket, the answers to an IP are those of a metered
token bucket in every run. -/
theorem metered_answers (events : List LimiterEvent) {rl : RateLimiter} {clock : Int}
    (ordered : events.Pairwise fun first second => first.time ≤ second.time)
    (begun : ∀ event ∈ events, clock ≤ event.time) (rising : 0 < rl.rate)
    (capacity : 0 ≤ rl.burst)
    (refills : (rl.burst : ℚ) ≤ rl.rate * seconds (idleLimit + 1)) (settled : rl.Settled clock)
    {ip : GoString} {time level : ℚ} (past : time ≤ seconds clock)
    (within : rl.Within ip clock time level) :
    TokenBucket.Metered rl.rate rl.burst time level (log ip (rl.answers events)) := by
  -- The induction carries a token bucket that the limiter never exceeds.  Only a
  -- call for this IP moves it on.
  induction events generalizing rl clock time level with
  | nil => exact .nil
  | cons event rest ih =>
      obtain ⟨next, onwards⟩ := List.pairwise_cons.mp ordered
      have order := begun event List.mem_cons_self
      cases event with
      | cleanup now =>
          refine @ih (rl.cleanup now) now onwards next rising capacity refills
            ((settled.later order).cleanup now) _ _ (past.trans (seconds_le order)) ?_
          intro later due
          rw [available_cleanup settled rising refills due ip]
          exact within later (order.trans due)
      | allow caller now =>
          have settledNow : rl.Settled now := settled.later order
          have pastNow : time ≤ seconds now := past.trans (seconds_le order)
          have metered : ∀ {time level : ℚ}, time ≤ seconds now →
              (rl.allow caller now).2.Within ip now time level →
              TokenBucket.Metered rl.rate rl.burst time level
                (log ip ((rl.allow caller now).2.answers rest)) := by
            intro time level past within
            have run := @ih (rl.allow caller now).2 now onwards next (by simpa using rising)
              (by simpa using capacity) (by simpa using refills)
              (settledNow.allow rising capacity caller) time level past within
            simpa only [allow_rate, allow_burst] using run
          rw [answers]
          by_cases mine : caller = ip
          · rw [mine, log_cons]
            rw [mine] at metered
            refine .cons pastNow (settledNow.left_nonneg rising.le capacity ip) ?_
              (metered le_rfl (within_allow rising ip now))
            rw [left_add_allowed rising]
            exact within now order
          · rw [log_cons_of_ne mine]
            apply metered pastNow
            intro later due
            rw [available_allow_of_ne rising (Ne.symm mine), allow_rate, allow_burst]
            exact within later (order.trans due)

/-- A new limiter has the burst for everyone. -/
theorem within_newRateLimiter {rate : ℚ} {burst : Int} (rising : 0 < rate) (ip : GoString)
    (clock : Int) : (newRateLimiter rate burst).Within ip clock (seconds clock) burst := by
  intro now order
  have inflow : 0 ≤ rate * (seconds now - seconds clock) :=
    mul_nonneg rising.le (sub_nonneg.mpr (seconds_le order))
  apply le_min
  · exact available_le_burst _ ip now
  · exact (available_le_burst _ ip now).trans (le_add_of_nonneg_right inflow)

theorem bounded_of_refills {rate : ℚ} {burst : Int} (rising : 0 < rate) (capacity : 0 ≤ burst)
    (refills : (burst : ℚ) ≤ rate * seconds (idleLimit + 1)) :
    (newRateLimiter rate burst).Bounded := by
  intro events ordered ip start finish order
  have limit : (0 : ℚ) ≤ burst := by exact_mod_cast capacity
  rw [allowedWithin_eq]
  cases events with
  | nil =>
      have inflow : 0 ≤ rate * (finish - start) :=
        mul_nonneg rising.le (sub_nonneg.mpr order)
      rw [answers, show TokenBucket.granted start finish (log ip []) = 0 from rfl, Nat.cast_zero]
      exact add_nonneg limit inflow
  | cons event rest =>
      have begun : ∀ later ∈ event :: rest, event.time ≤ later.time := by
        intro later member
        cases member with
        | head => exact le_rfl
        | tail _ member => exact (List.pairwise_cons.mp ordered).1 later member
      have settled : (newRateLimiter rate burst).Settled event.time := by
        intro caller b found
        cases found
      have metered := @metered_answers (event :: rest) (newRateLimiter rate burst) event.time
        ordered begun rising capacity refills settled ip _ _ le_rfl
        (within_newRateLimiter rising ip event.time)
      exact metered.granted_le_burst rising.le limit order

/-- As many calls at one time as there are tokens are all answered with true; their
bucket was then last used at that time. -/
theorem answers_replicate {rl : RateLimiter} (rising : 0 < rl.rate) {ip : GoString} {now : Int}
    (used : ∀ b, rl.state.lookup ip = some b → b.lastRef = now) {calls : Nat}
    (enough : (calls : ℚ) ≤ rl.available ip now) :
    ∃ final : RateLimiter, final.rate = rl.rate ∧ final.burst = rl.burst ∧
      (∀ b, final.state.lookup ip = some b → b.lastRef = now) ∧
      ∀ rest : List LimiterEvent, rl.answers (List.replicate calls (.allow ip now) ++ rest) =
        List.replicate calls (ip, now, true) ++ final.answers rest := by
  induction calls generalizing rl with
  | zero => exact ⟨rl, rfl, rfl, used, fun rest => rfl⟩
  | succ calls ih =>
      push_cast at enough
      have one : 1 ≤ rl.available ip now := by
        have nonneg : (0 : ℚ) ≤ calls := Nat.cast_nonneg calls
        linarith
      have answered : (rl.allow ip now).1 = true := by
        rw [allow_eq rising]
        exact decide_eq_true one
      have state : (rl.allow ip now).2.state.lookup ip =
          some ⟨rl.available ip now - 1, now⟩ := by
        rw [allow_eq rising, Finmap.lookup_insert, left, if_pos one]
      -- No time passes between the calls, so nothing flows in.
      have remaining : (rl.allow ip now).2.available ip now = rl.available ip now - 1 := by
        have below := available_le_burst rl ip now
        have still : seconds (timeSub now now) = 0 := by simp [timeSub, seconds]
        rw [available, state]
        dsimp only
        rw [TokenBucket.refill, still, mul_zero, add_zero, allow_burst]
        apply min_eq_right
        linarith
      obtain ⟨final, rate, burst, last, run⟩ := @ih (rl.allow ip now).2 (by simpa using rising)
        (by
          intro b found
          rw [state, Option.some.injEq] at found
          cases found
          rfl)
        (by
          rw [remaining]
          linarith)
      refine ⟨final, rate.trans (allow_rate rl ip now), burst.trans (allow_burst rl ip now),
        last, ?_⟩
      intro rest
      rw [List.replicate_succ, List.replicate_succ, List.cons_append, List.cons_append, answers,
        answered, run]

theorem cast_toNat {burst : Int} (capacity : 0 ≤ burst) :
    ((burst.toNat : Nat) : ℚ) = burst := by
  exact_mod_cast Int.toNat_of_nonneg capacity

/-- A burst, a cleanup as soon as the drained bucket is idle for more than five
minutes, and another burst. -/
def twoBursts (burst : Int) (ip : GoString) : List LimiterEvent :=
  List.replicate burst.toNat (.allow ip 0) ++ .cleanup (idleLimit + 1) ::
    List.replicate burst.toNat (.allow ip (idleLimit + 1))

theorem twoBursts_ordered (burst : Int) (ip : GoString) :
    (twoBursts burst ip).Pairwise fun first second => first.time ≤ second.time := by
  have after : 0 ≤ idleLimit + 1 := by decide
  rw [twoBursts, List.pairwise_append, List.pairwise_cons]
  refine ⟨List.pairwise_replicate.mpr (.inr le_rfl),
    ⟨?_, List.pairwise_replicate.mpr (.inr le_rfl)⟩, ?_⟩
  · intro later member
    rw [List.eq_of_mem_replicate member]
    exact le_rfl
  · intro first early second late
    rw [List.eq_of_mem_replicate early]
    cases late with
    | head => exact after
    | tail _ late =>
        rw [List.eq_of_mem_replicate late]
        exact after

/-- The second burst finds the IP unknown again and is granted in full. -/
theorem answers_twoBursts {rate : ℚ} {burst : Int} (rising : 0 < rate) (capacity : 0 ≤ burst)
    (ip : GoString) : (newRateLimiter rate burst).answers (twoBursts burst ip) =
      List.replicate burst.toNat (ip, 0, true) ++
        List.replicate burst.toNat (ip, idleLimit + 1, true) := by
  have size := cast_toNat capacity
  obtain ⟨drained, drainedRate, drainedBurst, last, first⟩ :=
    @answers_replicate (newRateLimiter rate burst) rising ip 0 (by intro b found; cases found)
      burst.toNat size.le
  have forgotten : (drained.cleanup (idleLimit + 1)).state.lookup ip = none := by
    rw [lookup_cleanup, Option.filter_eq_none_iff]
    intro b found
    simp [last b found]
  obtain ⟨final, _, _, _, second⟩ :=
    @answers_replicate (drained.cleanup (idleLimit + 1)) (drainedRate ▸ rising) ip (idleLimit + 1)
      (by
        intro b found
        rw [forgotten] at found
        cases found)
      burst.toNat
      (by
        rw [available, forgotten, size]
        exact le_of_eq (congrArg _ drainedBurst.symm))
  have rest := second []
  rw [List.append_nil] at rest
  rw [twoBursts, first, answers, rest, answers, List.append_nil]

theorem refills_of_bounded {rate : ℚ} {burst : Int} (rising : 0 < rate) (capacity : 0 ≤ burst)
    (bounded : (newRateLimiter rate burst).Bounded) :
    (burst : ℚ) ≤ rate * seconds (idleLimit + 1) := by
  have size := cast_toNat capacity
  have after : (0 : ℚ) ≤ seconds (idleLimit + 1) := by
    unfold seconds idleLimit
    positivity
  have zero : seconds 0 = 0 := by simp [seconds]
  have count : (newRateLimiter rate burst).allowedWithin (twoBursts burst []) [] 0
      (seconds (idleLimit + 1)) = burst.toNat + burst.toNat := by
    rw [allowedWithin, answers_twoBursts rising capacity, List.countP_append,
      List.countP_replicate, List.countP_replicate]
    simp [zero, after]
  have bound := bounded (twoBursts burst []) (twoBursts_ordered burst []) [] 0
    (seconds (idleLimit + 1)) after
  rw [count, Nat.cast_add, size, sub_zero] at bound
  exact le_of_add_le_add_left bound

/-- The bound holds exactly when an idle time of just more than five minutes, after
which a bucket is deleted and comes back full, fills a bucket anyway. -/
theorem rate_limit_bounded_iff {rate : ℚ} {burst : Int} (rising : 0 < rate)
    (capacity : 1 ≤ burst) :
    (newRateLimiter rate burst).Bounded ↔ (burst : ℚ) ≤ rate * seconds (idleLimit + 1) := by
  have nonneg : 0 ≤ burst := by omega
  constructor
  · exact refills_of_bounded rising nonneg
  · exact bounded_of_refills rising nonneg

theorem rate_limit_bounded_ten : (newRateLimiter 1 10).Bounded :=
  (rate_limit_bounded_iff (by decide) (by decide)).mpr (by decide +kernel)

/-- One request a minute and bursts of ten: twenty calls are allowed in little more
than five minutes, where the bound is fifteen and a small fraction. -/
theorem rate_limit_exceeded :
    (newRateLimiter (1 / 60) 10).allowedWithin (twoBursts 10 (ascii ['a'])) (ascii ['a']) 0
        (seconds (idleLimit + 1)) = 20 ∧
      (20 : ℚ) > 10 + 1 / 60 * (seconds (idleLimit + 1) - 0) ∧
      ¬ (newRateLimiter (1 / 60) 10).Bounded := by
  have more : (20 : ℚ) > 10 + 1 / 60 * (seconds (idleLimit + 1) - 0) := by decide +kernel
  have count : (newRateLimiter (1 / 60) 10).allowedWithin (twoBursts 10 (ascii ['a']))
      (ascii ['a']) 0 (seconds (idleLimit + 1)) = 20 := by decide +kernel
  refine ⟨count, more, ?_⟩
  intro bounded
  have bound := bounded _ (twoBursts_ordered 10 (ascii ['a'])) (ascii ['a']) 0
    (seconds (idleLimit + 1)) (by decide +kernel)
  rw [count] at bound
  exact absurd bound (not_le.mpr more)

end RateLimiter

end NellDB
