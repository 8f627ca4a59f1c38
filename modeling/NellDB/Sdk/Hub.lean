import NellDB.Data.Iteration
import NellDB.Sdk.Feed

namespace NellDB

open Data

/-! The changes hub with all its subscribers.  The channel of a subscriber is
reached in two ways: the hub sends on it and closes it through the map of
subscriptions, and the goroutine of `Changes` receives from it. -/

structure Subscription where
  id : UInt64
  feed : Feed

/-- `subs` gives for each id the number of the call of `subscribe` that made the
channel; `feeds` lists these calls. -/
structure Hub where
  nextID : UInt64
  subs : FiniteMap UInt64 Nat
  feeds : List Subscription

inductive HubAction where
  | subscribe
  | broadcast (c : Change)
  | own (subscriber : Nat) (action : FeedAction)

/-- The steps of a feed that do not touch the hub. -/
def FeedAction.Private : FeedAction → Prop
  | broadcast _ | unsub => False
  | _ => True

namespace Feed

/-- The send of the hub to one of its channels. -/
def offer (f : Feed) (c : Change) : Feed :=
  match f.src.trySend c with
  | some src => { f with src, early := if f.cancelled then f.early else f.early ++ [c] }
  | none => f

def note (f : Feed) (c : Change) : Feed :=
  { f with broadcasts := f.broadcasts ++ [c] }

theorem broadcast_of_subscribed {f : Feed} (subscribed : f.subscribed = true) (c : Change) :
    f.broadcast c = (f.offer c).note c := by
  unfold broadcast offer
  rw [if_pos subscribed]
  cases f.src.trySend c with
  | none => rfl
  | some src => rfl

theorem broadcast_of_unsubscribed {f : Feed} (left : f.subscribed = false) (c : Change) :
    f.broadcast c = f.note c := by
  unfold broadcast
  rw [if_neg (Bool.not_eq_true _ ▸ left)]
  rfl

end Feed

namespace Hub

def newChangesHub : Hub where
  nextID := 0
  subs := ∅
  feeds := []

def subscribe (hub : Hub) : Hub where
  nextID := hub.nextID + 1
  subs := hub.subs.insert hub.nextID hub.feeds.length
  feeds := hub.feeds ++ [⟨hub.nextID, .subscribe⟩]

def setFeed (hub : Hub) (number : Nat) (sub : Subscription) (feed : Feed) : Hub :=
  { hub with feeds := hub.feeds.set number { sub with feed } }

/-- One turn of the loop of `broadcast`.  A send on a closed channel panics. -/
def send (c : Change) (hub : Hub) (number : Nat) : Option Hub :=
  match hub.feeds[number]? with
  | none => none
  | some sub =>
      if sub.feed.src.closed then none else some (hub.setFeed number sub (sub.feed.offer c))

def broadcast (hub : Hub) (order : Iteration hub.subs) (c : Change) : Option Hub := do
  let sent ← order.order.foldlM (fun hub entry => send c hub entry.2) hub
  return { sent with feeds := sent.feeds.map fun sub => { sub with feed := sub.feed.note c } }

/-- The cancel function of a subscription, which its goroutine runs last.  It
closes the channel that the map holds for the id; closing it twice panics. -/
def unsub (hub : Hub) (number : Nat) (sub : Subscription) : Option Hub :=
  let finished := hub.setFeed number sub { sub.feed with relay := .finished }
  match hub.subs.lookup sub.id with
  | none => some finished
  | some target =>
      match finished.feeds[target]? with
      | none => none
      | some other =>
          if other.feed.src.closed then
            none
          else
            some { finished.setFeed target other
              { other.feed with subscribed := false, src := other.feed.src.close } with
                subs := hub.subs.erase sub.id }

inductive Step : Hub → HubAction → Hub → Prop
  | subscribe (hub : Hub) : Step hub .subscribe hub.subscribe
  | broadcast (hub : Hub) (order : Iteration hub.subs) (c : Change) (next : Hub)
      (sent : hub.broadcast order c = some next) : Step hub (.broadcast c) next
  | own (hub : Hub) (number : Nat) (sub : Subscription) (action : FeedAction) (feed : Feed)
      (found : hub.feeds[number]? = some sub) (isPrivate : action.Private)
      (stepped : sub.feed.step action = some feed) :
      Step hub (.own number action) (hub.setFeed number sub feed)
  | unsub (hub : Hub) (number : Nat) (sub : Subscription) (next : Hub)
      (found : hub.feeds[number]? = some sub) (waits : sub.feed.relay = .outClosed)
      (closed : hub.unsub number sub = some next) :
      Step hub (.own number .unsub) next

inductive Performs : Hub → List HubAction → Hub → Prop
  | nil (hub : Hub) : Performs hub [] hub
  | cons {hub next final : Hub} {action : HubAction} {rest : List HubAction}
      (step : Step hub action next) (onward : Performs next rest final) :
      Performs hub (action :: rest) final

end Hub

namespace HubAction

def subscriptions : HubAction → Nat
  | subscribe => 1
  | _ => 0

/-- What one subscriber sees of an action. -/
def seen (number : Nat) : HubAction → List FeedAction
  | subscribe => []
  | broadcast c => [.broadcast c]
  | own subscriber action => if subscriber = number then [action] else []

/-- What one subscriber sees of a run that starts with `count` subscribers: nothing
before it subscribes. -/
def seenBy (number : Nat) : (count : Nat) → List HubAction → List FeedAction
  | _, [] => []
  | count, action :: rest =>
      (if number < count then action.seen number else []) ++
        seenBy number (count + action.subscriptions) rest

end HubAction

/-! The invariant: ids are given out once, and the map holds the open channels. -/

structure SubscriptionStatus where
  id : UInt64
  subscribed : Bool
  closed : Bool
  finished : Bool

def FeedRelay.isFinished : FeedRelay → Bool
  | finished => true
  | selecting | trying _ _ | blocked _ _ | draining | returned | outClosed => false

@[simp] theorem FeedRelay.isFinished_resume (inDrain : Bool) :
    (resume inDrain).isFinished = false := by
  cases inDrain <;> rfl

def Subscription.status (sub : Subscription) : SubscriptionStatus where
  id := sub.id
  subscribed := sub.feed.subscribed
  closed := sub.feed.src.closed
  finished := sub.feed.relay.isFinished

namespace Hub

def statuses (hub : Hub) : List SubscriptionStatus := hub.feeds.map Subscription.status

structure Tended (hub : Hub) : Prop where
  few : hub.feeds.length ≤ 2 ^ 64
  next : hub.nextID = UInt64.ofNat hub.feeds.length
  id : ∀ (number : Nat) (status : SubscriptionStatus),
    hub.statuses[number]? = some status → status.id = UInt64.ofNat number
  listed : ∀ (id : UInt64) (number : Nat), hub.subs.lookup id = some number ↔
    ∃ status, hub.statuses[number]? = some status ∧ status.id = id ∧ status.subscribed = true
  closed : ∀ status ∈ hub.statuses, status.closed = !status.subscribed
  finished : ∀ status ∈ hub.statuses, status.finished = !status.subscribed

theorem tended_newChangesHub : newChangesHub.Tended where
  few := by decide
  next := rfl
  id _ _ found := by simp [statuses, newChangesHub] at found
  listed := by simp [statuses, newChangesHub]
  closed _ found := by simp [statuses, newChangesHub] at found
  finished _ found := by simp [statuses, newChangesHub] at found

variable {hub next : Hub}

theorem length_statuses (hub : Hub) : hub.statuses.length = hub.feeds.length :=
  List.length_map _

theorem statuses_getElem? {number : Nat} {sub : Subscription}
    (found : hub.feeds[number]? = some sub) : hub.statuses[number]? = some sub.status := by
  rw [statuses, List.getElem?_map, found]
  rfl

theorem feeds_getElem? {number : Nat} {status : SubscriptionStatus}
    (found : hub.statuses[number]? = some status) :
    ∃ sub, hub.feeds[number]? = some sub ∧ sub.status = status := by
  rwa [statuses, List.getElem?_map, Option.map_eq_some_iff] at found

theorem status_mem {number : Nat} {sub : Subscription}
    (found : hub.feeds[number]? = some sub) : sub.status ∈ hub.statuses :=
  List.mem_of_getElem? (statuses_getElem? found)

theorem statuses_setFeed (hub : Hub) (number : Nat) (sub : Subscription) (feed : Feed) :
    (hub.setFeed number sub feed).statuses =
      hub.statuses.set number { sub with feed }.status := by
  rw [statuses, setFeed, List.map_set]
  rfl

theorem setFeed_getElem? {number : Nat} {sub : Subscription}
    (found : hub.feeds[number]? = some sub) (feed : Feed) (other : Nat) :
    (hub.setFeed number sub feed).feeds[other]? =
      if other = number then some { sub with feed } else hub.feeds[other]? := by
  have inside := (List.getElem?_eq_some_iff.mp found).1
  rw [setFeed, List.getElem?_set]
  simp only [inside, if_true, eq_comm]

theorem statuses_setFeed_same {number : Nat} {sub : Subscription}
    (found : hub.feeds[number]? = some sub) {feed : Feed}
    (same : { sub with feed }.status = sub.status) :
    (hub.setFeed number sub feed).statuses = hub.statuses := by
  have present := statuses_getElem? found
  obtain ⟨inside, isStatus⟩ := List.getElem?_eq_some_iff.mp present
  rw [statuses_setFeed, same, ← isStatus, List.set_getElem_self]

namespace Tended

theorem of_statuses (tended : hub.Tended) (sameNext : next.nextID = hub.nextID)
    (sameSubs : next.subs = hub.subs) (same : next.statuses = hub.statuses) :
    next.Tended := by
  have length : next.feeds.length = hub.feeds.length := by
    rw [← length_statuses, same, length_statuses]
  exact {
    few := length ▸ tended.few
    next := by rw [sameNext, tended.next, length]
    id := by
      rw [same]
      exact tended.id
    listed := by
      rw [same, sameSubs]
      exact tended.listed
    closed := by
      rw [same]
      exact tended.closed
    finished := by
      rw [same]
      exact tended.finished }

theorem number_eq (tended : hub.Tended) {number other : Nat} {status sameID : SubscriptionStatus}
    (found : hub.statuses[number]? = some status) (also : hub.statuses[other]? = some sameID)
    (same : status.id = sameID.id) : number = other := by
  have few := tended.few
  have below := (List.getElem?_eq_some_iff.mp found).1
  have alsoBelow := (List.getElem?_eq_some_iff.mp also).1
  rw [length_statuses] at below alsoBelow
  rw [tended.id _ _ found, tended.id _ _ also] at same
  have values := congrArg UInt64.toNat same
  rwa [UInt64.toNat_ofNat_of_lt' (below.trans_le few),
    UInt64.toNat_ofNat_of_lt' (alsoBelow.trans_le few)] at values

theorem fresh (tended : hub.Tended) (room : hub.feeds.length < 2 ^ 64)
    {status : SubscriptionStatus} (member : status ∈ hub.statuses) :
    status.id ≠ hub.nextID := by
  obtain ⟨number, found⟩ := List.mem_iff_getElem?.mp member
  have below := (List.getElem?_eq_some_iff.mp found).1
  rw [length_statuses] at below
  rw [tended.id number status found, tended.next]
  intro same
  have values := congrArg UInt64.toNat same
  rw [UInt64.toNat_ofNat_of_lt' (below.trans room), UInt64.toNat_ofNat_of_lt' room] at values
  exact absurd values below.ne

theorem subscribe (tended : hub.Tended) (room : hub.feeds.length < 2 ^ 64) :
    hub.subscribe.Tended := by
  have found {number : Nat} {status : SubscriptionStatus} :
      hub.subscribe.statuses[number]? = some status ↔ hub.statuses[number]? = some status ∨
        number = hub.feeds.length ∧ ⟨hub.nextID, true, false, false⟩ = status := by
    have appended : hub.subscribe.statuses =
        hub.statuses ++ [⟨hub.nextID, true, false, false⟩] := by
      simp [Hub.statuses, Hub.subscribe, Subscription.status, Feed.subscribe, Channel.make,
        FeedRelay.isFinished]
    rw [appended, ← length_statuses, List.getElem?_append]
    split
    next inside =>
        have different : number ≠ hub.statuses.length := inside.ne
        simp [different]
    next outside =>
        rw [List.getElem?_eq_none (not_lt.mp outside), List.getElem?_singleton]
        simp only [reduceCtorEq, false_or]
        split
        next same =>
            have same : number = hub.statuses.length :=
              le_antisymm (Nat.sub_eq_zero_iff_le.mp same) (not_lt.mp outside)
            simp [same]
        next different =>
            have different : number ≠ hub.statuses.length := by
              intro same
              exact different (by simp [same])
            simp [different]
  have member {status : SubscriptionStatus} : status ∈ hub.subscribe.statuses ↔
      status ∈ hub.statuses ∨ ⟨hub.nextID, true, false, false⟩ = status := by
    simp only [List.mem_iff_getElem?, found, exists_or, exists_eq_left]
  exact {
    few := by
      rw [Hub.subscribe, List.length_append]
      exact room
    next := by
      simp [Hub.subscribe, tended.next]
    id := by
      intro number status present
      rcases found.mp present with before | ⟨rfl, rfl⟩
      · exact tended.id number status before
      · exact tended.next
    listed := by
      intro id number
      simp only [found]
      by_cases same : id = hub.nextID
      · subst same
        rw [Hub.subscribe, Finmap.lookup_insert, Option.some.injEq]
        constructor
        · rintro rfl
          exact ⟨_, .inr ⟨rfl, rfl⟩, rfl, rfl⟩
        · rintro ⟨status, before | ⟨rfl, _⟩, sameID, _⟩
          · exact absurd sameID (tended.fresh room (List.mem_of_getElem? before))
          · rfl
      · rw [Hub.subscribe, Finmap.lookup_insert_of_ne _ same, tended.listed]
        constructor
        · rintro ⟨status, before, sameID, subscribed⟩
          exact ⟨status, .inl before, sameID, subscribed⟩
        · rintro ⟨status, before | ⟨rfl, rfl⟩, sameID, subscribed⟩
          · exact ⟨status, before, sameID, subscribed⟩
          · exact absurd sameID.symm same
    closed := by
      intro status isStatus
      rcases member.mp isStatus with before | rfl
      · exact tended.closed status before
      · rfl
    finished := by
      intro status isStatus
      rcases member.mp isStatus with before | rfl
      · exact tended.finished status before
      · rfl }

end Tended

/-! What each step does to the feeds. -/

/-- The loop of `broadcast` offers the change once to each channel it visits. -/
theorem foldlM_send {entries : List (UInt64 × Nat)} (distinct : (entries.map Prod.snd).Nodup)
    (isOpen : ∀ entry ∈ entries, ∃ sub, hub.feeds[entry.2]? = some sub ∧
      sub.feed.src.closed = false) (c : Change) :
    ∃ sent, entries.foldlM (fun hub entry => send c hub entry.2) hub = some sent ∧
      sent.nextID = hub.nextID ∧ sent.subs = hub.subs ∧
      ∀ number, sent.feeds[number]? = if number ∈ entries.map Prod.snd then
        hub.feeds[number]?.map fun sub => { sub with feed := sub.feed.offer c }
      else
        hub.feeds[number]? := by
  induction entries generalizing hub with
  | nil => exact ⟨hub, rfl, rfl, rfl, fun number => by simp⟩
  | cons entry rest ih =>
      obtain ⟨sub, found, sendable⟩ := isOpen entry List.mem_cons_self
      rw [List.map_cons, List.nodup_cons] at distinct
      obtain ⟨once, distinct⟩ := distinct
      let after := hub.setFeed entry.2 sub (sub.feed.offer c)
      have sends : send c hub entry.2 = some after := by
        simp [send, found, sendable, after]
      have elsewhere {number : Nat} (different : number ≠ entry.2) :
          after.feeds[number]? = hub.feeds[number]? := by
        rw [setFeed_getElem? found, if_neg different]
      obtain ⟨sent, folds, sameNext, sameSubs, result⟩ := @ih after distinct fun later isLater => by
        obtain ⟨other, present, sendable⟩ := isOpen later (List.mem_cons_of_mem entry isLater)
        refine ⟨other, ?_, sendable⟩
        rw [elsewhere]
        · exact present
        · intro same
          exact once (same ▸ List.mem_map_of_mem isLater)
      refine ⟨sent, ?_, sameNext, sameSubs, fun number => ?_⟩
      · rw [List.foldlM_cons, sends]
        exact folds
      · rw [result]
        by_cases same : number = entry.2
        · have visited : entry.2 ∈ (entry :: rest).map Prod.snd := List.mem_cons_self
          rw [same, if_neg once, if_pos visited, setFeed_getElem? found, if_pos rfl, found]
          rfl
        · simp only [elsewhere same, List.map_cons, List.mem_cons, same, false_or]

theorem Tended.broadcast_eq (tended : hub.Tended) (order : Iteration hub.subs) (c : Change) :
    hub.broadcast order c = some { hub with
      feeds := hub.feeds.map fun sub => { sub with feed := sub.feed.broadcast c } } := by
  have visited {number : Nat} : number ∈ order.order.map Prod.snd ↔
      ∃ status, hub.statuses[number]? = some status ∧ status.subscribed = true := by
    constructor
    · intro member
      obtain ⟨⟨id, target⟩, isEntry, rfl⟩ := List.mem_map.mp member
      obtain ⟨status, found, _, subscribed⟩ :=
        (tended.listed id target).mp ((order.complete id target).mp isEntry)
      exact ⟨status, found, subscribed⟩
    · rintro ⟨status, found, subscribed⟩
      have listed := (tended.listed status.id number).mpr ⟨status, found, rfl, subscribed⟩
      exact List.mem_map.mpr ⟨(status.id, number), (order.complete _ _).mpr listed, rfl⟩
  have distinct : (order.order.map Prod.snd).Nodup := by
    refine List.Nodup.map_on ?_ order.distinct.of_map
    rintro ⟨id, target⟩ first ⟨other, _⟩ second rfl
    obtain ⟨status, found, rfl, _⟩ :=
      (tended.listed id target).mp ((order.complete id target).mp first)
    obtain ⟨same, also, rfl, _⟩ :=
      (tended.listed other target).mp ((order.complete other target).mp second)
    rw [found, Option.some.injEq] at also
    rw [also]
  have isOpen : ∀ entry ∈ order.order, ∃ sub, hub.feeds[entry.2]? = some sub ∧
      sub.feed.src.closed = false := by
    intro entry member
    obtain ⟨status, present, subscribed⟩ := visited.mp (List.mem_map_of_mem member)
    have closed := tended.closed status (List.mem_of_getElem? present)
    obtain ⟨sub, found, rfl⟩ := feeds_getElem? present
    rw [subscribed] at closed
    exact ⟨sub, found, closed⟩
  obtain ⟨sent, folds, sameNext, sameSubs, feeds⟩ := foldlM_send distinct isOpen c
  unfold broadcast
  rw [folds, ← sameNext, ← sameSubs]
  refine congrArg (fun feeds => some { sent with feeds }) (List.ext_getElem? fun number => ?_)
  rw [List.getElem?_map, List.getElem?_map, feeds]
  cases found : hub.feeds[number]? with
  | none => simp
  | some sub =>
      have present := statuses_getElem? found
      cases subscribed : sub.feed.subscribed with
      | true =>
          rw [if_pos (visited.mpr ⟨_, present, subscribed⟩)]
          simp [Feed.broadcast_of_subscribed subscribed]
      | false =>
          have unvisited : number ∉ order.order.map Prod.snd := by
            intro member
            obtain ⟨status, also, isSubscribed⟩ := visited.mp member
            rw [present, Option.some.injEq] at also
            subst also
            exact absurd (subscribed.symm.trans isSubscribed) Bool.false_ne_true
          rw [if_neg unvisited]
          simp [Feed.broadcast_of_unsubscribed subscribed]

theorem Tended.unsub_eq (tended : hub.Tended) {number : Nat} {sub : Subscription}
    (found : hub.feeds[number]? = some sub) (waits : sub.feed.relay = .outClosed) :
    hub.unsub number sub = some { hub.setFeed number sub
      { sub.feed with relay := .finished, subscribed := false, src := sub.feed.src.close } with
        subs := hub.subs.erase sub.id } := by
  have unfinished : sub.feed.relay.isFinished = false := by
    rw [waits]
    rfl
  have subscribed : sub.feed.subscribed = true := by
    have finished := tended.finished _ (status_mem found)
    simpa [Subscription.status, unfinished] using finished
  have sendable : sub.feed.src.closed = false := by
    have closed := tended.closed _ (status_mem found)
    simpa [Subscription.status, subscribed] using closed
  have listed : hub.subs.lookup sub.id = some number :=
    (tended.listed _ _).mpr ⟨_, statuses_getElem? found, rfl, subscribed⟩
  have finished := setFeed_getElem? found { sub.feed with relay := .finished } number
  rw [if_pos rfl] at finished
  simp only [unsub, listed, finished, sendable, Bool.false_eq_true, if_false]
  simp only [setFeed, List.set_set]

theorem Tended.unsub (tended : hub.Tended) {number : Nat} {sub : Subscription}
    (found : hub.feeds[number]? = some sub) (waits : sub.feed.relay = .outClosed)
    (closed : hub.unsub number sub = some next) : next.Tended := by
  rw [tended.unsub_eq found waits, Option.some.injEq] at closed
  have statuses : next.statuses = hub.statuses.set number ⟨sub.id, false, true, true⟩ := by
    rw [← closed]
    exact statuses_setFeed hub number sub _
  have present := statuses_getElem? found
  have inside := (List.getElem?_eq_some_iff.mp present).1
  have at_number : next.statuses[number]? = some ⟨sub.id, false, true, true⟩ := by
    rw [statuses, List.getElem?_set_self inside]
  have elsewhere {other : Nat} (different : other ≠ number) :
      next.statuses[other]? = hub.statuses[other]? := by
    rw [statuses, List.getElem?_set_ne different.symm]
  have member {status : SubscriptionStatus} (isStatus : status ∈ next.statuses) :
      status ∈ hub.statuses ∨ status = ⟨sub.id, false, true, true⟩ := by
    rw [statuses] at isStatus
    exact (List.mem_or_eq_of_mem_set isStatus)
  have length : next.feeds.length = hub.feeds.length := by
    rw [← length_statuses, statuses, List.length_set, length_statuses]
  have subs : next.subs = hub.subs.erase sub.id := by rw [← closed]
  exact {
    few := length ▸ tended.few
    next := by
      rw [length, ← tended.next, ← closed]
      rfl
    id := by
      intro other status isThere
      by_cases same : other = number
      · subst same
        rw [at_number, Option.some.injEq] at isThere
        rw [← isThere]
        exact tended.id other sub.status present
      · rw [elsewhere same] at isThere
        exact tended.id other status isThere
    listed := by
      intro id other
      rw [subs]
      by_cases same : id = sub.id
      · subst same
        rw [Finmap.lookup_erase]
        constructor
        · intro impossible
          cases impossible
        · rintro ⟨status, isThere, sameID, subscribed⟩
          by_cases isNumber : other = number
          · rw [isNumber, at_number, Option.some.injEq] at isThere
            rw [← isThere] at subscribed
            cases subscribed
          · rw [elsewhere isNumber] at isThere
            exact absurd (tended.number_eq isThere present sameID) isNumber
      · rw [Finmap.lookup_erase_ne same, tended.listed]
        by_cases isNumber : other = number
        · subst isNumber
          simp only [present, at_number, Option.some.injEq, exists_eq_left']
          constructor
          · exact fun before => absurd before.1.symm same
          · exact fun after => absurd after.1.symm same
        · rw [elsewhere isNumber]
    closed := by
      intro status isStatus
      rcases member isStatus with before | rfl
      · exact tended.closed status before
      · rfl
    finished := by
      intro status isStatus
      rcases member isStatus with before | rfl
      · exact tended.finished status before
      · rfl }

theorem status_eq {sub : Subscription} {feed : Feed}
    (subscribed : feed.subscribed = sub.feed.subscribed)
    (closed : feed.src.closed = sub.feed.src.closed)
    (finished : feed.relay.isFinished = sub.feed.relay.isFinished) :
    { sub with feed }.status = sub.status := by
  simp only [Subscription.status, subscribed, closed, finished]

theorem status_of_private {sub : Subscription} {action : FeedAction} {feed : Feed}
    (isPrivate : action.Private) (stepped : sub.feed.step action = some feed) :
    { sub with feed }.status = sub.status := by
  cases Feed.moves_of_step stepped with
  | placed | dropped | unsub => exact isPrivate.elim
  | cancel | consume => rfl
  | done waits => exact status_eq rfl rfl (by rw [waits]; rfl)
  | take waits received =>
      refine status_eq rfl (Channel.receive_some received).2 ?_
      rw [waits, FeedRelay.isFinished_resume]
      rfl
  | ended waits =>
      refine status_eq rfl rfl ?_
      rw [waits, FeedRelay.isFinished_resume]
      rfl
  | drained waits => exact status_eq rfl rfl (by rw [waits]; rfl)
  | sent holds =>
      refine status_eq rfl rfl ?_
      rw [FeedRelay.isFinished_resume]
      rcases holds with holds | holds
      · rw [holds]
        rfl
      · rw [holds]
        rfl
  | full holds => exact status_eq rfl rfl (by rw [holds]; rfl)
  | abandon holds =>
      refine status_eq rfl rfl ?_
      rw [FeedRelay.isFinished_resume, holds]
      rfl
  | closeOut waits => exact status_eq rfl rfl (by rw [waits]; rfl)

theorem status_broadcast (sub : Subscription) (c : Change) :
    Subscription.status { sub with feed := sub.feed.broadcast c } = sub.status := by
  unfold Feed.broadcast
  split
  next src room =>
      split at room
      next => exact status_eq rfl (Channel.trySend_some room).2 rfl
      next => cases room
  next => rfl

theorem Step.tended (step : Step hub action next) (tended : hub.Tended)
    (room : hub.feeds.length + action.subscriptions ≤ 2 ^ 64) :
    next.Tended ∧ next.feeds.length = hub.feeds.length + action.subscriptions := by
  cases step with
  | subscribe => exact ⟨tended.subscribe room, by
      simp [Hub.subscribe, HubAction.subscriptions]⟩
  | broadcast order c _ sent =>
      rw [tended.broadcast_eq, Option.some.injEq] at sent
      subst sent
      refine ⟨tended.of_statuses rfl rfl ?_, by simp [HubAction.subscriptions]⟩
      simp only [statuses, List.map_map]
      exact List.map_congr_left fun sub _ => status_broadcast sub c
  | own number sub action feed found isPrivate stepped =>
      have same := statuses_setFeed_same found (status_of_private isPrivate stepped)
      exact ⟨tended.of_statuses rfl rfl same, by simp [setFeed, HubAction.subscriptions]⟩
  | unsub number sub _ found waits closed =>
      refine ⟨tended.unsub found waits closed, ?_⟩
      rw [tended.unsub_eq found waits, Option.some.injEq] at closed
      simp [← closed, setFeed, HubAction.subscriptions]

/-- The feed of a subscriber; one that has yet to subscribe finds a new channel. -/
def feedOf (hub : Hub) (number : Nat) : Feed :=
  (hub.feeds[number]?.map Subscription.feed).getD .subscribe

theorem feedOf_setFeed {number : Nat} {sub : Subscription}
    (found : hub.feeds[number]? = some sub) (feed : Feed) (other : Nat) :
    (hub.setFeed number sub feed).feedOf other =
      if other = number then feed else hub.feedOf other := by
  unfold feedOf
  rw [setFeed_getElem? found]
  split
  next => rfl
  next => rfl

theorem perform_singleton (f : Feed) (action : FeedAction) :
    f.perform [action] = f.step action := by
  simp [Feed.perform]

/-- A step of the hub moves each feed as the step that its subscriber sees. -/
theorem Step.feedOf (step : Step hub action next) (tended : hub.Tended) (number : Nat) :
    (hub.feedOf number).perform
      (if number < hub.feeds.length then action.seen number else []) =
        some (next.feedOf number) := by
  cases step with
  | subscribe =>
      have same : hub.subscribe.feedOf number = hub.feedOf number := by
        unfold Hub.feedOf Hub.subscribe
        rw [List.getElem?_append]
        split
        next => rfl
        next outside =>
            rw [List.getElem?_eq_none (not_lt.mp outside), List.getElem?_singleton]
            split <;> rfl
      rw [same, HubAction.seen, ite_self]
      rfl
  | broadcast order c _ sent =>
      rw [tended.broadcast_eq, Option.some.injEq] at sent
      subst sent
      unfold Hub.feedOf
      rw [List.getElem?_map]
      split
      next inside =>
          rw [List.getElem?_eq_getElem inside, HubAction.seen, perform_singleton]
          rfl
      next outside =>
          rw [List.getElem?_eq_none (not_lt.mp outside)]
          rfl
  | own moved sub action feed found isPrivate stepped =>
      have inside := (List.getElem?_eq_some_iff.mp found).1
      rw [feedOf_setFeed found]
      by_cases same : number = moved
      · subst same
        have isFeed : hub.feedOf number = sub.feed := by simp [Hub.feedOf, found]
        rw [if_pos inside, if_pos rfl, HubAction.seen, if_pos rfl, perform_singleton, isFeed]
        exact stepped
      · rw [if_neg same, HubAction.seen, if_neg (Ne.symm same), ite_self]
        rfl
  | unsub moved sub _ found waits closed =>
      have inside := (List.getElem?_eq_some_iff.mp found).1
      rw [tended.unsub_eq found waits, Option.some.injEq] at closed
      subst closed
      have feeds := feedOf_setFeed found { sub.feed with
        relay := .finished, subscribed := false, src := sub.feed.src.close } number
      refine Eq.trans ?_ (congrArg some feeds.symm)
      by_cases same : number = moved
      · subst same
        have isFeed : hub.feedOf number = sub.feed := by simp [Hub.feedOf, found]
        rw [if_pos inside, if_pos rfl, HubAction.seen, if_pos rfl, perform_singleton, isFeed]
        simp only [Feed.step, waits]
      · rw [if_neg same, HubAction.seen, if_neg (Ne.symm same), ite_self]
        rfl

end Hub

def HubAction.totalSubscriptions (actions : List HubAction) : Nat :=
  (actions.map subscriptions).sum

namespace Hub

variable {hub final : Hub} {actions : List HubAction}

theorem Performs.tended (run : Performs hub actions final) (tended : hub.Tended)
    (room : hub.feeds.length + HubAction.totalSubscriptions actions ≤ 2 ^ 64) :
    final.Tended := by
  induction run with
  | nil => exact tended
  | @cons hub next final action rest step _ ih =>
      simp only [HubAction.totalSubscriptions, List.map_cons, List.sum_cons] at room ih
      obtain ⟨onward, length⟩ := step.tended tended (by omega)
      exact ih onward (by omega)

theorem Performs.feedOf (run : Performs hub actions final) (tended : hub.Tended)
    (room : hub.feeds.length + HubAction.totalSubscriptions actions ≤ 2 ^ 64) (number : Nat) :
    (hub.feedOf number).perform (HubAction.seenBy number hub.feeds.length actions) =
      some (final.feedOf number) := by
  induction run with
  | nil => rfl
  | @cons hub next final action rest step _ ih =>
      simp only [HubAction.totalSubscriptions, List.map_cons, List.sum_cons] at room ih
      obtain ⟨onward, length⟩ := step.tended tended (by omega)
      have first := step.feedOf tended number
      have later := ih onward (by omega)
      rw [length] at later
      unfold Feed.perform at first later ⊢
      rw [HubAction.seenBy, List.foldlM_append, first]
      exact later

end Hub

def FeedAction.change? : FeedAction → Option Change
  | broadcast c => some c
  | _ => none

theorem Feed.perform_broadcasts {f final : Feed} {actions : List FeedAction}
    (performed : f.perform actions = some final) :
    final.broadcasts = f.broadcasts ++ actions.filterMap FeedAction.change? := by
  induction actions generalizing f with
  | nil =>
      cases performed
      exact (List.append_nil _).symm
  | cons action rest ih =>
      obtain ⟨next, stepped, onward⟩ := Option.bind_eq_some_iff.mp performed
      rw [ih onward]
      cases moves_of_step stepped with
      | placed | dropped => simp [FeedAction.change?]
      | _ => rfl

/-- The subscribers of a hub do not disturb each other.  In every run no send and no
close panics, and each feed is where the broadcasts since its subscription and its
own steps take a feed that is alone; its consumer receives a subsequence of these
broadcasts. -/
theorem hub_isolates {actions : List HubAction} {hub : Hub}
    (run : Hub.Performs .newChangesHub actions hub)
    (few : HubAction.totalSubscriptions actions ≤ 2 ^ 64) :
    (∀ order c, (hub.broadcast order c).isSome) ∧
      ∀ number sub, hub.feeds[number]? = some sub →
        (sub.feed.relay = .outClosed → (hub.unsub number sub).isSome) ∧
        Feed.subscribe.perform (HubAction.seenBy number 0 actions) = some sub.feed ∧
        sub.feed.received.Sublist
          ((HubAction.seenBy number 0 actions).filterMap FeedAction.change?) := by
  have room : Hub.newChangesHub.feeds.length + HubAction.totalSubscriptions actions ≤ 2 ^ 64 := by
    simpa [Hub.newChangesHub] using few
  have tended := run.tended Hub.tended_newChangesHub room
  refine ⟨fun order c => ?_, fun number sub found => ⟨fun waits => ?_, ?_⟩⟩
  · rw [tended.broadcast_eq]
    rfl
  · rw [tended.unsub_eq found waits]
    rfl
  · have isFeed : hub.feedOf number = sub.feed := by simp [Hub.feedOf, found]
    have performed := run.feedOf Hub.tended_newChangesHub room number
    rw [isFeed] at performed
    have reached : Feed.Reached (fun _ _ => True) sub.feed :=
      Feed.Reached.perform .start (fun _ _ _ => trivial) performed
    have inOrder := reached.inOrder.received_sublist
    rw [Feed.perform_broadcasts performed] at inOrder
    exact ⟨performed, inOrder⟩

/-- Two subscribers; the first leaves before the broadcast. -/
theorem hub_isolates_one_leaves :
    ∃ actions hub sub, Hub.Performs .newChangesHub actions hub ∧
      hub.feeds[1]? = some sub ∧ sub.feed.src.buffer = [numberedChange 0] ∧
      Feed.subscribe.perform (HubAction.seenBy 1 0 actions) = some sub.feed := by
  let both := Hub.newChangesHub.subscribe.subscribe
  have tendedBoth : both.Tended := (Hub.tended_newChangesHub.subscribe (by decide)).subscribe
    (by decide)
  let first : Subscription := ⟨0, .subscribe⟩
  let cancelled : Subscription := ⟨0, { Feed.subscribe with cancelled := true }⟩
  let draining : Subscription := ⟨0, { cancelled.feed with relay := .draining }⟩
  let returned : Subscription := ⟨0, { cancelled.feed with relay := .returned }⟩
  let outClosed : Subscription := ⟨0, { cancelled.feed with
    relay := .outClosed, out := cancelled.feed.out.close }⟩
  let one := both.setFeed 0 first cancelled.feed
  let two := one.setFeed 0 cancelled draining.feed
  let three := two.setFeed 0 draining returned.feed
  let four := three.setFeed 0 returned outClosed.feed
  have tendedFour : four.Tended := tendedBoth.of_statuses rfl rfl rfl
  let left : Hub := { four.setFeed 0 outClosed { outClosed.feed with
    relay := .finished, subscribed := false, src := outClosed.feed.src.close } with
      subs := four.subs.erase 0 }
  have leaves : four.unsub 0 outClosed = some left := tendedFour.unsub_eq rfl rfl
  have tendedLeft : left.Tended := tendedFour.unsub rfl rfl leaves
  have remaining : left.subs = Finmap.singleton 1 1 := by decide
  let order : Iteration left.subs := {
    order := [(1, 1)]
    distinct := List.nodup_singleton _
    complete := by
      intro id number
      rw [remaining, FiniteMap.lookup_singleton_iff, List.mem_singleton, Prod.mk.injEq] }
  have run : Hub.Performs .newChangesHub [.subscribe, .subscribe, .own 0 .cancel, .own 0 .done,
      .own 0 .drained, .own 0 .closeOut, .own 0 .unsub, .broadcast (numberedChange 0)] _ :=
    .cons (.subscribe _) <| .cons (.subscribe _) <|
      .cons (.own both 0 first .cancel cancelled.feed rfl trivial rfl) <|
      .cons (.own one 0 cancelled .done draining.feed rfl trivial rfl) <|
      .cons (.own two 0 draining .drained returned.feed rfl trivial rfl) <|
      .cons (.own three 0 returned .closeOut outClosed.feed rfl trivial rfl) <|
      .cons (.unsub four 0 outClosed left rfl rfl leaves) <|
      .cons (.broadcast left order (numberedChange 0) _
        (tendedLeft.broadcast_eq _ _)) (.nil _)
  exact ⟨_, _, _, run, rfl, rfl, ((hub_isolates run (by decide)).2 1 _ rfl).2.1⟩

end NellDB
