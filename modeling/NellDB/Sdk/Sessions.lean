import NellDB.Sdk.Hub

namespace NellDB

open Data

/-! The sessions of `LiveWS`.  `runWS` dials, subscribes to the local changes and
starts a goroutine that reads from the connection and one that writes the changes to
it; when it returns, the loop dials again until it is stopped. -/

inductive SessionReader where
  | reading
  | done

inductive SessionWriter where
  | selecting
  | writing
  | done

/-- What `runWS` waits for once both goroutines run: the end of either, then the end
of the other. -/
inductive SessionWait where
  | either
  | writer
  | reader

inductive LivePhase where
  | checking
  | dialing
  | running (wait : SessionWait)
  | returned (failed : Bool)
  | waiting
  | done

/-- The loop with the connection and the goroutines of its last session. -/
structure LiveLoop where
  hub : Hub
  cancelled : Bool
  phase : LivePhase
  connected : Bool
  reader : SessionReader
  writer : SessionWriter
  subscriber : Nat
  -- The subscriptions of all sessions; no step looks at it.
  sessions : List Nat

/-- `own` steps need no peer: a dial and a read give up after a timeout, a write does
not. -/
inductive LiveLoopAction where
  | own
  | network
  | cancel
  | elsewhere (action : HubAction)

namespace LiveLoop

def start : LiveLoop where
  hub := .newChangesHub
  cancelled := false
  phase := .checking
  connected := false
  reader := .done
  writer := .done
  subscriber := 0
  sessions := []

/-- `runWS` after the dial. -/
def connect (loop : LiveLoop) : LiveLoop :=
  { loop with
    hub := loop.hub.subscribe
    phase := .running .either
    connected := true
    reader := .reading
    writer := .selecting
    subscriber := loop.hub.feeds.length
    sessions := loop.sessions ++ [loop.hub.feeds.length] }

/-- `runWS` returns, which closes the connection. -/
def leave (loop : LiveLoop) (failed : Bool) : LiveLoop :=
  { loop with phase := .returned failed, connected := false }

/-- The channel of the changes is closed and empty. -/
def Ended (loop : LiveLoop) : Prop :=
  (loop.hub.feedOf loop.subscriber).out.closed = true ∧
    (loop.hub.feedOf loop.subscriber).out.buffer = []

/-- What the rest of the program does to the hub.  The subscriptions of the sessions
have the context of the loop, and only the session's writer receives from them. -/
def Outside (loop : LiveLoop) : HubAction → Prop
  | .own number .cancel => number ∈ loop.sessions → loop.cancelled = true
  | .own number .consume => number ∉ loop.sessions
  | _ => True

inductive Step : LiveLoop → LiveLoopAction → LiveLoop → Prop
  | stop (loop : LiveLoop) (checks : loop.phase = .checking ∨ loop.phase = .waiting)
      (cancelled : loop.cancelled = true) : Step loop .own { loop with phase := .done }
  | dial (loop : LiveLoop) (checks : loop.phase = .checking)
      (goesOn : loop.cancelled = false) : Step loop .own { loop with phase := .dialing }
  | refused (loop : LiveLoop) (dials : loop.phase = .dialing) :
      Step loop .own { loop with phase := .returned true }
  | connect (loop : LiveLoop) (dials : loop.phase = .dialing) :
      Step loop .network loop.connect
  | readFails (loop : LiveLoop) (reads : loop.reader = .reading) :
      Step loop .own { loop with reader := .done }
  | writerStops (loop : LiveLoop) (selects : loop.writer = .selecting)
      (why : loop.cancelled = true ∨ loop.reader = .done ∨ loop.Ended) :
      Step loop .own { loop with writer := .done }
  -- A change may turn out to be internal or to have no record.
  | receives (loop : LiveLoop) (hub : Hub) (skipped : Bool) (selects : loop.writer = .selecting)
      (received : Hub.Step loop.hub (.own loop.subscriber .consume) hub) :
      Step loop .own
        { loop with hub, writer := if skipped then .selecting else .writing }
  | written (loop : LiveLoop) (writes : loop.writer = .writing) (failed : Bool) :
      Step loop .network { loop with writer := if failed then .done else .selecting }
  | writeFails (loop : LiveLoop) (writes : loop.writer = .writing)
      (closed : loop.connected = false) : Step loop .own { loop with writer := .done }
  | abort (loop : LiveLoop) (runs : loop.phase = .running .either)
      (cancelled : loop.cancelled = true) : Step loop .own (loop.leave true)
  | readDone (loop : LiveLoop) (runs : loop.phase = .running .either)
      (ended : loop.reader = .done) :
      Step loop .own { loop with phase := .running .writer }
  | writeDone (loop : LiveLoop) (runs : loop.phase = .running .either)
      (ended : loop.writer = .done) :
      Step loop .own { loop with phase := .running .reader, connected := false }
  | writerJoins (loop : LiveLoop) (runs : loop.phase = .running .writer)
      (ended : loop.writer = .done) : Step loop .own (loop.leave false)
  | readerJoins (loop : LiveLoop) (runs : loop.phase = .running .reader)
      (ended : loop.reader = .done) : Step loop .own (loop.leave false)
  | quit (loop : LiveLoop) (returns : loop.phase = .returned true)
      (cancelled : loop.cancelled = true) : Step loop .own { loop with phase := .done }
  | wait (loop : LiveLoop) (failed : Bool) (returns : loop.phase = .returned failed)
      (goesOn : failed = true → loop.cancelled = false) :
      Step loop .own { loop with phase := .waiting }
  | again (loop : LiveLoop) (waits : loop.phase = .waiting) :
      Step loop .own { loop with phase := .checking }
  | cancel (loop : LiveLoop) : Step loop .cancel { loop with cancelled := true }
  | elsewhere (loop : LiveLoop) (action : HubAction) (hub : Hub) (outside : loop.Outside action)
      (stepped : Hub.Step loop.hub action hub) :
      Step loop (.elsewhere action) { loop with hub }

/-- The hub numbers its subscriptions with 64 bits. -/
def Roomy (loop : LiveLoop) (_ : LiveLoopAction) : Prop := loop.hub.feeds.length < 2 ^ 64

def Reached : LiveLoop → Prop := Run Step Roomy start

end LiveLoop

/-! A subscription whose context is not cancelled stays. -/

theorem HubAction.subscriptions_le_one (action : HubAction) : action.subscriptions ≤ 1 := by
  cases action <;> simp [subscriptions]

structure Feed.Attached (f : Feed) : Prop where
  cancelled : f.cancelled = false
  relay : f.relay.isDraining = false
  subscribed : f.subscribed = true
  sendable : f.src.closed = false

theorem Feed.attached_subscribe : Feed.subscribe.Attached := ⟨rfl, rfl, rfl, rfl⟩

theorem Feed.Attached.step {f next : Feed} {action : FeedAction} (attached : f.Attached)
    (stepped : f.step action = some next) (kept : action ≠ .cancel) : next.Attached := by
  obtain ⟨cancelled, relay, subscribed, sendable⟩ := attached
  cases Feed.moves_of_step stepped with
  | placed room =>
      exact ⟨cancelled, relay, subscribed, (Channel.trySend_some room).2.trans sendable⟩
  | dropped => exact ⟨cancelled, relay, subscribed, sendable⟩
  | cancel => exact absurd rfl kept
  | consume => exact ⟨cancelled, relay, subscribed, sendable⟩
  | done _ isCancelled => rw [cancelled] at isCancelled; cases isCancelled
  | @take inDrain _ _ waits received =>
      rw [waits, FeedRelay.isDraining_resume] at relay
      exact ⟨cancelled, relay, subscribed, (Channel.receive_some received).2.trans sendable⟩
  | ended _ closed => rw [sendable] at closed; cases closed
  | drained waits => rw [waits] at relay; cases relay
  | @sent inDrain c _ holds =>
      have outer : inDrain = false := by
        rcases holds with holds | holds <;> rwa [holds] at relay
      exact ⟨cancelled, by rw [outer]; rfl, subscribed, sendable⟩
  | full holds => rw [holds] at relay; exact ⟨cancelled, relay, subscribed, sendable⟩
  | abandon _ isCancelled => rw [cancelled] at isCancelled; cases isCancelled
  | closeOut waits => rw [waits] at relay; cases relay
  | unsub waits => rw [waits] at relay; cases relay

namespace LiveLoop

variable {loop next : LiveLoop} {action : LiveLoopAction}

structure Subscribed (loop : LiveLoop) : Prop where
  tended : loop.hub.Tended
  distinct : loop.sessions.Nodup
  made : ∀ number ∈ loop.sessions, number < loop.hub.feeds.length
  current : loop.writer ≠ .done → loop.subscriber ∈ loop.sessions
  attached : loop.cancelled = false →
    ∀ number ∈ loop.sessions, (loop.hub.feedOf number).Attached

theorem subscribed_start : start.Subscribed where
  tended := Hub.tended_newChangesHub
  distinct := List.nodup_nil
  made _ isSession := nomatch isSession
  current busy := absurd rfl busy
  attached _ _ isSession := nomatch isSession

/-- A step of the hub that does not cancel a session's subscription. -/
theorem Subscribed.attached_hub (subscribed : loop.Subscribed) {stepped : HubAction} {hub : Hub}
    (step : Hub.Step loop.hub stepped hub) (live : loop.cancelled = false) {number : Nat}
    (isSession : number ∈ loop.sessions) (kept : stepped ≠ .own number .cancel) :
    (hub.feedOf number).Attached := by
  have attached := subscribed.attached live number isSession
  have moved := step.feedOf subscribed.tended number
  rw [if_pos (subscribed.made number isSession)] at moved
  cases stepped with
  | subscribe =>
      rw [← Option.some.inj moved]
      exact attached
  | broadcast c =>
      rw [HubAction.seen, Hub.perform_singleton] at moved
      refine attached.step moved ?_
      intro cancels
      cases cancels
  | own moves action =>
      rw [HubAction.seen] at moved
      split at moved
      next same =>
          rw [Hub.perform_singleton] at moved
          exact attached.step moved fun cancels => kept (by rw [same, cancels])
      next =>
          rw [← Option.some.inj moved]
          exact attached

theorem Subscribed.hub (subscribed : loop.Subscribed) {stepped : HubAction} {hub : Hub}
    (step : Hub.Step loop.hub stepped hub) (roomy : loop.Roomy action)
    (kept : loop.cancelled = false → ∀ number ∈ loop.sessions, stepped ≠ .own number .cancel) :
    ({ loop with hub } : LiveLoop).Subscribed := by
  have room : loop.hub.feeds.length + stepped.subscriptions ≤ 2 ^ 64 :=
    (Nat.add_le_add_left stepped.subscriptions_le_one _).trans roomy
  obtain ⟨tended, length⟩ := step.tended subscribed.tended room
  exact {
    tended
    distinct := subscribed.distinct
    made number isSession := by
      rw [length]
      exact (subscribed.made number isSession).trans_le (Nat.le_add_right _ _)
    current := subscribed.current
    attached live number isSession :=
      subscribed.attached_hub step live isSession (kept live number isSession) }

theorem Subscribed.connect (subscribed : loop.Subscribed) (roomy : loop.Roomy action) :
    loop.connect.Subscribed := by
  have after := subscribed.hub (.subscribe loop.hub) roomy nofun
  have length : loop.hub.subscribe.feeds.length = loop.hub.feeds.length + 1 :=
    List.length_append
  have fresh : ∀ number ∈ loop.sessions, number ≠ loop.hub.feeds.length :=
    fun number isSession => (subscribed.made number isSession).ne
  have isNew : loop.hub.subscribe.feedOf loop.hub.feeds.length = .subscribe := by
    simp [Hub.feedOf, Hub.subscribe]
  exact {
    tended := after.tended
    distinct := by
      refine List.nodup_append.mpr ⟨subscribed.distinct, List.nodup_singleton _, ?_⟩
      intro number isSession other isLast
      rw [List.mem_singleton.mp isLast]
      exact fresh number isSession
    made number isSession := by
      rcases List.mem_append.mp isSession with before | isLast
      · exact after.made number before
      · rw [List.mem_singleton.mp isLast]
        exact length ▸ Nat.lt_succ_self _
    current _ := List.mem_append_right _ (List.mem_singleton_self _)
    attached live number isSession := by
      rcases List.mem_append.mp isSession with before | isLast
      · exact after.attached live number before
      · rw [List.mem_singleton.mp isLast]
        exact isNew ▸ Feed.attached_subscribe }

theorem Step.subscribed (step : Step loop action next) (roomy : loop.Roomy action)
    (subscribed : loop.Subscribed) : next.Subscribed := by
  have ⟨tended, distinct, made, current, attached⟩ := subscribed
  cases step with
  | stop | dial | refused | abort | writerJoins | readerJoins | quit | wait | again
  | readDone | writeDone | readFails => exact ⟨tended, distinct, made, current, attached⟩
  | connect => exact subscribed.connect roomy
  | writerStops | writeFails =>
      exact ⟨tended, distinct, made, fun busy => absurd rfl busy, attached⟩
  | written writes =>
      have isSession : loop.subscriber ∈ loop.sessions := current (by rw [writes]; nofun)
      exact ⟨tended, distinct, made, fun _ => isSession, attached⟩
  | receives hub skipped selects received =>
      have isSession : loop.subscriber ∈ loop.sessions := current (by rw [selects]; nofun)
      have after := subscribed.hub received roomy fun _ _ _ => nofun
      exact ⟨after.tended, distinct, after.made, fun _ => isSession, after.attached⟩
  | cancel => exact ⟨tended, distinct, made, current, nofun⟩
  | elsewhere stepped hub outside moves =>
      refine subscribed.hub moves roomy fun live number isSession cancels => ?_
      rw [cancels] at outside
      rw [outside isSession] at live
      cases live

theorem Reached.subscribed (reached : Reached loop) : loop.Subscribed :=
  Run.keeps (fun subscribed roomy step => step.subscribed roomy subscribed) reached
    subscribed_start

/-- A subscription that is attached is in the map of the hub, under its number. -/
theorem Subscribed.listed (subscribed : loop.Subscribed) (live : loop.cancelled = false)
    {number : Nat} (isSession : number ∈ loop.sessions) :
    loop.hub.subs.lookup (UInt64.ofNat number) = some number := by
  have attached := subscribed.attached live number isSession
  have inside := subscribed.made number isSession
  have found := List.getElem?_eq_getElem inside
  have present := Hub.statuses_getElem? found
  rw [Hub.feedOf, found] at attached
  exact (subscribed.tended.listed _ _).mpr
    ⟨_, present, subscribed.tended.id _ _ present, attached.subscribed⟩

/-! Stopping the loop. -/

/-- The connection stays open until `runWS` has seen the end of the writer. -/
def Linked (loop : LiveLoop) : Prop :=
  ∀ wait, loop.phase = .running wait → wait ≠ .reader → loop.connected = true

theorem Step.linked (step : Step loop action next) (linked : loop.Linked) : next.Linked := by
  cases step with
  | stop | dial | refused | abort | writerJoins | readerJoins | quit | wait | again =>
      exact fun _ isPhase => nomatch isPhase
  | connect => exact fun _ _ _ => rfl
  | readFails | writerStops | receives | written | writeFails | cancel | elsewhere =>
      exact linked
  | readDone runs =>
      intro _ _ _
      exact linked .either runs nofun
  | writeDone =>
      intro wait isPhase early
      cases isPhase
      exact absurd rfl early

theorem Reached.linked (reached : Reached loop) : loop.Linked :=
  Run.keeps (fun linked _ step => step.linked linked) reached fun _ isPhase => nomatch isPhase

/-- `runWS` waits for a writer that is inside a write. -/
structure Stuck (loop : LiveLoop) : Prop where
  waits : loop.phase = .running .writer
  writes : loop.writer = .writing

def Alone (_ : LiveLoop) (action : LiveLoopAction) : Prop := action ≠ .network

theorem Step.stuck (step : Step loop action next) (alone : Alone loop action)
    (linked : loop.Linked) (stuck : loop.Stuck) : next.Stuck := by
  obtain ⟨waits, writes⟩ := stuck
  have connected := linked .writer waits nofun
  cases step with
  | connect | written => exact absurd rfl alone
  | readFails | cancel | elsewhere => exact ⟨waits, writes⟩
  | stop checks =>
      rw [waits] at checks
      rcases checks with checks | checks <;> cases checks
  | dial isPhase | refused isPhase | abort isPhase | readDone isPhase | writeDone isPhase
  | readerJoins isPhase | quit isPhase | again isPhase | wait _ isPhase =>
      rw [waits] at isPhase
      cases isPhase
  | writerStops isWriter | writerJoins _ isWriter | receives _ _ isWriter =>
      rw [writes] at isWriter
      cases isWriter
  | writeFails _ closed =>
      rw [connected] at closed
      cases closed

def Finishes (loop : LiveLoop) : Prop :=
  ∃ final, Run Step Alone loop final ∧ final.phase = .done

theorem Step.finishes (step : Step loop .own next) (onward : next.Finishes) :
    loop.Finishes := by
  obtain ⟨final, run, done⟩ := onward
  exact ⟨final, @Run.head _ _ Step Alone loop next final .own nofun step run, done⟩

theorem Stuck.keeps {final : LiveLoop} (run : Run Step Alone loop final)
    (linked : loop.Linked) (stuck : loop.Stuck) : final.Linked ∧ final.Stuck := by
  induction run with
  | start => exact ⟨linked, stuck⟩
  | step _ alone step ih => exact ⟨step.linked ih.1, step.stuck alone ih.1 ih.2⟩

theorem Stuck.not_finishes (linked : loop.Linked) (stuck : loop.Stuck) : ¬ loop.Finishes := by
  rintro ⟨final, run, done⟩
  have kept := Stuck.keeps run linked stuck
  rw [kept.2.waits] at done
  cases done

section

variable (cancelled : loop.cancelled = true)

include cancelled

theorem finishes_of_waiting (waits : loop.phase = .waiting) : loop.Finishes :=
  (Step.stop loop (.inr waits) cancelled).finishes ⟨_, .start, rfl⟩

theorem finishes_of_returned {failed : Bool} (returns : loop.phase = .returned failed) :
    loop.Finishes := by
  cases failed with
  | true => exact (Step.quit loop returns cancelled).finishes ⟨_, .start, rfl⟩
  | false => exact (Step.wait loop false returns nofun).finishes (finishes_of_waiting cancelled rfl)

theorem finishes_of_writer_done (runs : loop.phase = .running .writer)
    (ended : loop.writer = .done) : loop.Finishes :=
  (Step.writerJoins loop runs ended).finishes (finishes_of_returned cancelled rfl)

theorem finishes_of_reader_done (runs : loop.phase = .running .reader)
    (ended : loop.reader = .done) : loop.Finishes :=
  (Step.readerJoins loop runs ended).finishes (finishes_of_returned cancelled rfl)

theorem finishes_of_not_stuck (free : ¬ loop.Stuck) : loop.Finishes := by
  cases phase : loop.phase with
  | checking => exact (Step.stop loop (.inl phase) cancelled).finishes ⟨_, .start, rfl⟩
  | dialing => exact (Step.refused loop phase).finishes (finishes_of_returned cancelled rfl)
  | returned failed => exact finishes_of_returned cancelled phase
  | waiting => exact finishes_of_waiting cancelled phase
  | done => exact ⟨loop, .start, phase⟩
  | running wait =>
      cases wait with
      | either =>
          exact (Step.abort loop phase cancelled).finishes (finishes_of_returned cancelled rfl)
      | writer =>
          cases writer : loop.writer with
          | selecting =>
              exact (Step.writerStops loop writer (.inl cancelled)).finishes
                (finishes_of_writer_done cancelled phase rfl)
          | writing => exact absurd ⟨phase, writer⟩ free
          | done => exact finishes_of_writer_done cancelled phase writer
      | reader =>
          cases reader : loop.reader with
          | reading =>
              exact (Step.readFails loop reader).finishes
                (finishes_of_reader_done cancelled phase rfl)
          | done => exact finishes_of_reader_done cancelled phase reader

end

end LiveLoop

/-- Until a `LiveWS` loop is cancelled, every session it ever had keeps its own
subscription in the hub, however long ago the session ended. -/
theorem live_ws_keeps_subscriptions {loop : LiveLoop} (reached : LiveLoop.Reached loop)
    (live : loop.cancelled = false) :
    loop.sessions.length ≤ loop.hub.subs.keys.card ∧
      ∀ number ∈ loop.sessions, ∃ id, loop.hub.subs.lookup id = some number := by
  have subscribed := reached.subscribed
  have listed (number : Nat) (isSession : number ∈ loop.sessions) :=
    subscribed.listed live isSession
  refine ⟨?_, fun number isSession => ⟨_, listed number isSession⟩⟩
  have distinct : (loop.sessions.map UInt64.ofNat).Nodup := by
    refine List.Nodup.map_on ?_ subscribed.distinct
    intro number isSession other alsoSession same
    have first := listed number isSession
    rw [same, listed other alsoSession, Option.some.injEq] at first
    exact first.symm
  rw [← List.length_map UInt64.ofNat, ← List.toFinset_card_of_nodup distinct]
  refine Finset.card_le_card fun id isID => ?_
  obtain ⟨number, isSession, rfl⟩ := List.mem_map.mp (List.mem_toFinset.mp isID)
  exact Finmap.mem_keys.mpr (Finmap.mem_of_lookup_eq_some (listed number isSession))

/-- The reader of the first session times out; in the second there are two
subscriptions. -/
theorem live_ws_keeps_subscriptions_second_session :
    ∃ loop : LiveLoop, loop.Reached ∧ loop.phase = .running .either ∧
      2 ≤ loop.hub.subs.keys.card := by
  have onward {loop next : LiveLoop} {action : LiveLoopAction} (before : loop.Reached)
      (step : LiveLoop.Step loop action next) (roomy : loop.hub.feeds.length < 2 ^ 64) :
      next.Reached := .step before roomy step
  have first := onward (onward .start (.dial _ rfl rfl) (by decide)) (.connect _ rfl) (by decide)
  have timeout := onward (onward first (.readFails _ rfl) (by decide)) (.readDone _ rfl rfl)
    (by decide)
  have left := onward (onward timeout (.writerStops _ rfl (.inr (.inl rfl))) (by decide))
    (.writerJoins _ rfl rfl) (by decide)
  have again := onward (onward left (.wait _ false rfl nofun) (by decide)) (.again _ rfl)
    (by decide)
  have second := onward (onward again (.dial _ rfl rfl) (by decide)) (.connect _ rfl) (by decide)
  exact ⟨_, second, rfl, (live_ws_keeps_subscriptions second rfl).1⟩

/-- A cancelled `LiveWS` loop can come to its end without help from its peer exactly if
`runWS` is not waiting for a writer inside a write: a write has no deadline, and the
connection is only closed after it. -/
theorem live_ws_stops_iff {loop : LiveLoop} (reached : LiveLoop.Reached loop)
    (cancelled : loop.cancelled = true) :
    (∃ final, Run LiveLoop.Step LiveLoop.Alone loop final ∧ final.phase = .done) ↔
      ¬ (loop.phase = .running .writer ∧ loop.writer = .writing) := by
  constructor
  · rintro finishes ⟨waits, writes⟩
    exact LiveLoop.Stuck.not_finishes reached.linked ⟨waits, writes⟩ finishes
  · intro free
    exact LiveLoop.finishes_of_not_stuck cancelled fun stuck => free ⟨stuck.waits, stuck.writes⟩

/-- The reader times out during a write, and the loop is cancelled. -/
theorem live_ws_stops_iff_in_write :
    ∃ loop : LiveLoop, loop.Reached ∧ loop.cancelled = true ∧
      ¬ ∃ final, Run LiveLoop.Step LiveLoop.Alone loop final ∧ final.phase = .done := by
  have onward {loop next : LiveLoop} {action : LiveLoopAction} (before : loop.Reached)
      (step : LiveLoop.Step loop action next) (roomy : loop.hub.feeds.length < 2 ^ 64) :
      next.Reached := .step before roomy step
  have first := onward (onward .start (.dial _ rfl rfl) (by decide)) (.connect _ rfl) (by decide)
  let hub := Hub.newChangesHub.subscribe
  have tended : hub.Tended := Hub.tended_newChangesHub.subscribe (by decide)
  let order : Iteration hub.subs := {
    order := [(0, 0)]
    distinct := List.nodup_singleton _
    complete := by
      have alone : hub.subs = Finmap.singleton 0 0 := by decide
      intro id number
      rw [alone, FiniteMap.lookup_singleton_iff, List.mem_singleton, Prod.mk.injEq] }
  let change := numberedChange 0
  have broadcast := onward first (.elsewhere _ (.broadcast change) _ trivial
    (.broadcast hub order change _ (tended.broadcast_eq order change))) (by decide)
  have taken := onward broadcast (.elsewhere _ (.own 0 .take) _ trivial
    (.own _ 0 _ .take _ rfl trivial rfl)) (by decide)
  have forwarded := onward taken (.elsewhere _ (.own 0 .forward) _ trivial
    (.own _ 0 _ .forward _ rfl trivial rfl)) (by decide)
  have writing := onward forwarded (.receives _ _ false rfl
    (.own _ 0 _ .consume _ rfl trivial rfl)) (by decide)
  have waits := onward (onward writing (.readFails _ rfl) (by decide)) (.readDone _ rfl rfl)
    (by decide)
  have cancelled := onward waits (.cancel _) (by decide)
  exact ⟨_, cancelled, rfl, fun finishes =>
    (live_ws_stops_iff cancelled rfl).mp finishes ⟨rfl, rfl⟩⟩

end NellDB
