import NellDB.Data.Channel
import NellDB.Sdk.LiveWS

namespace NellDB

open Data

/-! The changes feed of one subscriber: the hub, the goroutine that relays its
changes, the consumer and the cancellation. -/

/-- Where the goroutine of `Changes` stands.  `forward` returns to the drain
loop or to the outer select, whichever called it. -/
inductive FeedRelay where
  | selecting
  | trying (inDrain : Bool) (c : Change)
  | blocked (inDrain : Bool) (c : Change)
  | draining
  | returned
  | outClosed
  | finished

namespace FeedRelay

def resume (inDrain : Bool) : FeedRelay :=
  if inDrain then .draining else .selecting

def hand : FeedRelay → List Change
  | trying _ c | blocked _ c => [c]
  | _ => []

def isDraining : FeedRelay → Bool
  | trying inDrain _ | blocked inDrain _ => inDrain
  | selecting => false
  | _ => true

def hasReturned : FeedRelay → Bool
  | returned | outClosed | finished => true
  | _ => false

theorem isDraining_of_hasReturned {relay : FeedRelay} (left : relay.hasReturned = true) :
    relay.isDraining = true := by
  cases relay with
  | returned | outClosed | finished => rfl
  | selecting | trying | blocked | draining => contradiction

@[simp] theorem hand_resume (inDrain : Bool) : (resume inDrain).hand = [] := by
  cases inDrain <;> rfl

@[simp] theorem isDraining_resume (inDrain : Bool) :
    (resume inDrain).isDraining = inDrain := by
  cases inDrain <;> rfl

@[simp] theorem hasReturned_resume (inDrain : Bool) :
    (resume inDrain).hasReturned = false := by
  cases inDrain <;> rfl

end FeedRelay

structure Feed where
  src : Channel 16 Change
  subscribed : Bool
  relay : FeedRelay
  out : Channel 64 Change
  cancelled : Bool
  -- What has happened so far; no step looks at it.
  broadcasts : List Change
  early : List Change
  taken : Nat
  sent : List Change
  received : List Change

/-- A step of one party.  The names of the goroutine's steps are the cases of
its selects. -/
inductive FeedAction where
  | broadcast (c : Change)
  | cancel
  | consume
  | done
  | take
  | ended
  | drained
  | forward
  | abandon
  | closeOut
  | unsub

namespace Feed

def subscribe : Feed where
  src := .make 16 Change
  subscribed := true
  relay := .selecting
  out := .make 64 Change
  cancelled := false
  broadcasts := []
  early := []
  taken := 0
  sent := []
  received := []

def broadcast (f : Feed) (c : Change) : Feed :=
  match if f.subscribed then f.src.trySend c else none with
  | some src =>
      { f with
        src
        broadcasts := f.broadcasts ++ [c]
        early := if f.cancelled then f.early else f.early ++ [c] }
  | none => { f with broadcasts := f.broadcasts ++ [c] }

def take (f : Feed) (inDrain : Bool) : Option Feed :=
  f.src.receive.map fun (c, src) =>
    { f with src, relay := .trying inDrain c, taken := f.taken + 1 }

/-- A receive from the closed channel of the hub. -/
def ended (f : Feed) : Option Feed :=
  if f.src.closed ∧ f.src.buffer = [] then some { f with relay := .returned } else none

def place (f : Feed) (inDrain : Bool) (c : Change) : Option Feed :=
  (f.out.trySend c).map fun out =>
    { f with out, relay := .resume inDrain, sent := f.sent ++ [c] }

def step (f : Feed) : FeedAction → Option Feed
  | .broadcast c => some (f.broadcast c)
  | .cancel => some { f with cancelled := true }
  | .consume => f.out.receive.map fun (c, out) =>
      { f with out, received := f.received ++ [c] }
  | .done =>
      match f.relay with
      | .selecting => if f.cancelled then some { f with relay := .draining } else none
      | _ => none
  | .take =>
      match f.relay with
      | .selecting => f.take false
      | .draining => f.take true
      | _ => none
  | .ended =>
      match f.relay with
      | .selecting | .draining => f.ended
      | _ => none
  | .drained =>
      match f.relay with
      | .draining =>
          if f.src.buffer = [] ∧ f.src.closed = false then
            some { f with relay := .returned }
          else
            none
      | _ => none
  | .forward =>
      match f.relay with
      | .trying inDrain c =>
          some ((f.place inDrain c).getD { f with relay := .blocked inDrain c })
      | .blocked inDrain c => f.place inDrain c
      | _ => none
  | .abandon =>
      match f.relay with
      | .blocked inDrain _ =>
          if f.cancelled then some { f with relay := .resume inDrain } else none
      | _ => none
  | .closeOut =>
      match f.relay with
      | .returned => some { f with relay := .outClosed, out := f.out.close }
      | _ => none
  | .unsub =>
      match f.relay with
      | .outClosed =>
          some { f with relay := .finished, subscribed := false, src := f.src.close }
      | _ => none

/-- What each action does to a feed, with the guard it needs. -/
inductive Moves (f : Feed) : FeedAction → Feed → Prop
  | placed {c : Change} {src : Channel 16 Change} (room : f.src.trySend c = some src) :
      Moves f (.broadcast c)
        { f with
          src
          broadcasts := f.broadcasts ++ [c]
          early := if f.cancelled then f.early else f.early ++ [c] }
  | dropped {c : Change} :
      Moves f (.broadcast c) { f with broadcasts := f.broadcasts ++ [c] }
  | cancel : Moves f .cancel { f with cancelled := true }
  | consume {c : Change} {out : Channel 64 Change}
      (next : f.out.receive = some (c, out)) :
      Moves f .consume { f with out, received := f.received ++ [c] }
  | done (waits : f.relay = .selecting) (cancelled : f.cancelled = true) :
      Moves f .done { f with relay := .draining }
  | take {inDrain : Bool} {c : Change} {src : Channel 16 Change}
      (waits : f.relay = .resume inDrain) (next : f.src.receive = some (c, src)) :
      Moves f .take { f with src, relay := .trying inDrain c, taken := f.taken + 1 }
  | ended {inDrain : Bool} (waits : f.relay = .resume inDrain)
      (closed : f.src.closed = true) :
      Moves f .ended { f with relay := .returned }
  | drained (waits : f.relay = .draining) (empty : f.src.buffer = []) :
      Moves f .drained { f with relay := .returned }
  | sent {inDrain : Bool} {c : Change} {out : Channel 64 Change}
      (holds : f.relay = .trying inDrain c ∨ f.relay = .blocked inDrain c)
      (room : f.out.trySend c = some out) :
      Moves f .forward { f with out, relay := .resume inDrain, sent := f.sent ++ [c] }
  | full {inDrain : Bool} {c : Change} (holds : f.relay = .trying inDrain c) :
      Moves f .forward { f with relay := .blocked inDrain c }
  | abandon {inDrain : Bool} {c : Change} (holds : f.relay = .blocked inDrain c)
      (cancelled : f.cancelled = true) :
      Moves f .abandon { f with relay := .resume inDrain }
  | closeOut (waits : f.relay = .returned) :
      Moves f .closeOut { f with relay := .outClosed, out := f.out.close }
  | unsub (waits : f.relay = .outClosed) :
      Moves f .unsub
        { f with relay := .finished, subscribed := false, src := f.src.close }

theorem moves_broadcast (f : Feed) (c : Change) :
    Moves f (.broadcast c) (f.broadcast c) := by
  unfold broadcast
  split
  next src room =>
      split at room
      next => exact .placed room
      next => contradiction
  next => exact .dropped

theorem moves_take {f next : Feed} {inDrain : Bool} (waits : f.relay = .resume inDrain)
    (taken : f.take inDrain = some next) : Moves f .take next := by
  unfold take at taken
  obtain ⟨⟨c, src⟩, received, result⟩ := Option.map_eq_some_iff.mp taken
  cases result
  exact .take waits received

theorem moves_ended {f next : Feed} {inDrain : Bool} (waits : f.relay = .resume inDrain)
    (ended : f.ended = some next) : Moves f .ended next := by
  unfold Feed.ended at ended
  split at ended
  next closed =>
      cases ended
      exact .ended waits closed.1
  next => contradiction

theorem moves_place {f next : Feed} {inDrain : Bool} {c : Change}
    (holds : f.relay = .trying inDrain c ∨ f.relay = .blocked inDrain c)
    (placed : f.place inDrain c = some next) : Moves f .forward next := by
  unfold place at placed
  obtain ⟨out, room, result⟩ := Option.map_eq_some_iff.mp placed
  cases result
  exact .sent holds room

theorem moves_of_step {f next : Feed} {action : FeedAction}
    (stepped : f.step action = some next) : Moves f action next := by
  cases action with
  | broadcast c =>
      cases stepped
      exact moves_broadcast f c
  | cancel =>
      cases stepped
      exact .cancel
  | consume =>
      obtain ⟨⟨c, out⟩, received, result⟩ := Option.map_eq_some_iff.mp stepped
      cases result
      exact .consume received
  | done =>
      dsimp only [step] at stepped
      split at stepped
      next waits =>
          split at stepped
          next cancelled =>
              cases stepped
              exact .done waits cancelled
          next => contradiction
      next => contradiction
  | take =>
      dsimp only [step] at stepped
      split at stepped
      next waits => exact @moves_take f next false waits stepped
      next waits => exact @moves_take f next true waits stepped
      next => contradiction
  | ended =>
      dsimp only [step] at stepped
      split at stepped
      next waits => exact @moves_ended f next false waits stepped
      next waits => exact @moves_ended f next true waits stepped
      next => contradiction
  | drained =>
      dsimp only [step] at stepped
      split at stepped
      next waits =>
          split at stepped
          next empty =>
              cases stepped
              exact .drained waits empty.1
          next => contradiction
      next => contradiction
  | forward =>
      dsimp only [step] at stepped
      split at stepped
      next inDrain c holds =>
          cases placed : f.place inDrain c with
          | none =>
              rw [placed] at stepped
              cases stepped
              exact .full holds
          | some after =>
              rw [placed] at stepped
              cases stepped
              exact moves_place (.inl holds) placed
      next inDrain c holds => exact moves_place (.inr holds) stepped
      next => contradiction
  | abandon =>
      dsimp only [step] at stepped
      split at stepped
      next inDrain c holds =>
          split at stepped
          next cancelled =>
              cases stepped
              exact .abandon holds cancelled
          next => contradiction
      next => contradiction
  | closeOut =>
      dsimp only [step] at stepped
      split at stepped
      next waits =>
          cases stepped
          exact .closeOut waits
      next => contradiction
  | unsub =>
      dsimp only [step] at stepped
      split at stepped
      next waits =>
          cases stepped
          exact .unsub waits
      next => contradiction

def Reached (allowed : Feed → FeedAction → Prop) (f : Feed) : Prop :=
  Run (fun before action after => before.step action = some after) allowed subscribe f

/-- What is on its way is what was broadcast, in order and with gaps. -/
structure InOrder (f : Feed) : Prop where
  consumed : f.received ++ f.out.buffer = f.sent
  flow : (f.sent ++ (f.relay.hand ++ f.src.buffer)).Sublist f.broadcasts

theorem inOrder_subscribe : subscribe.InOrder :=
  ⟨rfl, .slnil⟩

theorem InOrder.moves {f next : Feed} {action : FeedAction} (inOrder : f.InOrder)
    (moves : Moves f action next) : next.InOrder := by
  obtain ⟨consumed, flow⟩ := inOrder
  cases moves with
  | placed room =>
      refine ⟨consumed, ?_⟩
      rw [(Channel.trySend_some room).1, ← List.append_assoc, ← List.append_assoc]
      rw [← List.append_assoc] at flow
      exact flow.append_right _
  | dropped => exact ⟨consumed, flow.trans (List.sublist_append_left _ _)⟩
  | cancel => exact ⟨consumed, flow⟩
  | consume received =>
      refine ⟨?_, flow⟩
      rw [(Channel.receive_some received).1] at consumed
      rw [← consumed, List.append_assoc]
      rfl
  | done waits _ =>
      rw [waits] at flow
      exact ⟨consumed, flow⟩
  | take waits received =>
      rw [waits, FeedRelay.hand_resume, (Channel.receive_some received).1] at flow
      exact ⟨consumed, flow⟩
  | ended waits _ =>
      rw [waits, FeedRelay.hand_resume] at flow
      exact ⟨consumed, flow⟩
  | drained waits _ =>
      rw [waits] at flow
      exact ⟨consumed, flow⟩
  | @sent inDrain c out holds room =>
      have inHand : f.relay.hand = [c] := by
        rcases holds with same | same
        · rw [same, FeedRelay.hand]
        · rw [same, FeedRelay.hand]
      refine ⟨?_, ?_⟩
      · rw [(Channel.trySend_some room).1, ← List.append_assoc, consumed]
      · rw [FeedRelay.hand_resume, List.nil_append, List.append_assoc]
        rw [inHand] at flow
        exact flow
  | full holds =>
      rw [holds] at flow
      exact ⟨consumed, flow⟩
  | abandon holds _ =>
      refine ⟨consumed, List.Sublist.trans ?_ flow⟩
      rw [FeedRelay.hand_resume]
      exact List.Sublist.append_left (List.sublist_append_right _ _) _
  | closeOut waits =>
      rw [waits] at flow
      exact ⟨consumed, flow⟩
  | unsub waits =>
      rw [waits] at flow
      exact ⟨consumed, flow⟩

theorem Reached.inOrder {allowed : Feed → FeedAction → Prop} {f : Feed}
    (reached : Reached allowed f) : f.InOrder :=
  Run.keeps (fun inOrder _ stepped => inOrder.moves (moves_of_step stepped)) reached
    inOrder_subscribe

theorem InOrder.received_sublist {f : Feed} (inOrder : f.InOrder) :
    f.received.Sublist f.broadcasts := by
  have first : f.received.Sublist f.sent := by
    rw [← inOrder.consumed]
    exact List.sublist_append_left _ _
  exact first.trans ((List.sublist_append_left _ _).trans inOrder.flow)

/-- What the goroutine has not yet handed on. -/
def pending (f : Feed) : List Change := f.relay.hand ++ f.src.buffer

/-- `forward` gives up no change that was placed before the cancellation. -/
def GivesUpLate (f : Feed) : FeedAction → Prop
  | .abandon => f.early.length < f.taken
  | _ => True

/-- Up to the last early change nothing has been given up. -/
structure OnTheWay (f : Feed) : Prop where
  early : f.early <+: f.sent ++ f.pending
  taken : f.taken = f.sent.length + f.relay.hand.length

structure Kept (f : Feed) : Prop where
  kept : f.OnTheWay ∨ f.cancelled = true ∧ f.early <+: f.sent
  complete : f.cancelled = false → f.early = f.sent ++ f.pending
  drains : f.relay.isDraining = true → f.cancelled = true
  left : f.relay.hasReturned = true → f.early <+: f.sent
  srcClosed : f.src.closed = true → f.relay = .finished
  outClosed : f.out.closed = true → f.relay.hasReturned = true

theorem kept_subscribe : subscribe.Kept where
  kept := .inl ⟨List.prefix_refl _, rfl⟩
  complete _ := rfl
  drains := by simp [subscribe, FeedRelay.isDraining]
  left := by simp [subscribe, FeedRelay.hasReturned]
  srcClosed := by simp [subscribe, Channel.make]
  outClosed := by simp [subscribe, Channel.make]

/-- Once nothing is pending, every early change has been sent. -/
theorem Kept.sent_of_pending_nil {f : Feed} (kept : f.Kept) (nothing : f.pending = []) :
    f.early <+: f.sent := by
  rcases kept.kept with onTheWay | ⟨_, sent⟩
  · have early := onTheWay.early
    rw [nothing, List.append_nil] at early
    exact early
  · exact sent

theorem Kept.placed {f : Feed} (kept : f.Kept) {c : Change} {src : Channel 16 Change}
    (room : f.src.trySend c = some src) :
    Kept { f with
      src
      broadcasts := f.broadcasts ++ [c]
      early := if f.cancelled then f.early else f.early ++ [c] } := by
  obtain ⟨grown, sameClosed⟩ := Channel.trySend_some room
  have further : f.sent ++ (f.relay.hand ++ src.buffer) = (f.sent ++ f.pending) ++ [c] := by
    rw [grown, pending, List.append_assoc, List.append_assoc]
  have closed : src.closed = true → f.relay = .finished :=
    fun isClosed => kept.srcClosed (sameClosed ▸ isClosed)
  cases cancelled : f.cancelled with
  | true =>
      refine ⟨?_, by simp, fun _ => rfl, kept.left, closed, kept.outClosed⟩
      rcases kept.kept with onTheWay | ⟨_, sent⟩
      · refine .inl ⟨?_, onTheWay.taken⟩
        change f.early <+: f.sent ++ (f.relay.hand ++ src.buffer)
        rw [further]
        exact onTheWay.early.trans (List.prefix_append _ _)
      · exact .inr ⟨rfl, sent⟩
  | false =>
      have complete : f.early ++ [c] = f.sent ++ (f.relay.hand ++ src.buffer) := by
        rw [further, kept.complete cancelled]
      have active : f.relay.isDraining = true → False := by
        intro isDraining
        have ended := kept.drains isDraining
        rw [cancelled] at ended
        contradiction
      refine ⟨.inl ⟨?_, ?_⟩, fun _ => complete, fun isDraining => (active isDraining).elim,
        fun left => (active (FeedRelay.isDraining_of_hasReturned left)).elim, closed,
        kept.outClosed⟩
      · change f.early ++ [c] <+: f.sent ++ (f.relay.hand ++ src.buffer)
        rw [complete]
      · rcases kept.kept with onTheWay | ⟨ended, _⟩
        · exact onTheWay.taken
        · rw [cancelled] at ended
          contradiction

/-- A step of the goroutine that leaves what it holds alone. -/
theorem Kept.turn {f : Feed} (kept : f.Kept) {relay : FeedRelay}
    (sameHand : relay.hand = f.relay.hand)
    (drains : relay.isDraining = true → f.cancelled = true)
    (left : relay.hasReturned = true → f.early <+: f.sent)
    (stays : f.relay.hasReturned = false) : Kept { f with relay } := by
  have samePending : Feed.pending { f with relay } = f.pending := by
    rw [pending, pending, sameHand]
  refine ⟨?_, ?_, drains, left, ?_, ?_⟩
  · rcases kept.kept with onTheWay | sent
    · refine .inl ⟨?_, ?_⟩
      · rw [samePending]
        exact onTheWay.early
      · rw [sameHand]
        exact onTheWay.taken
    · exact .inr sent
  · rw [samePending]
    exact kept.complete
  · intro closed
    rw [kept.srcClosed closed] at stays
    contradiction
  · intro closed
    rw [kept.outClosed closed] at stays
    contradiction

theorem Kept.take {f : Feed} (kept : f.Kept) {inDrain : Bool} {c : Change}
    {src : Channel 16 Change} (waits : f.relay = .resume inDrain)
    (received : f.src.receive = some (c, src)) :
    Kept { f with src, relay := .trying inDrain c, taken := f.taken + 1 } := by
  obtain ⟨first, sameClosed⟩ := Channel.receive_some received
  have samePending : [c] ++ src.buffer = f.pending := by
    rw [pending, waits, FeedRelay.hand_resume, first]
    rfl
  have drains := kept.drains
  have srcClosed := kept.srcClosed
  have outClosed := kept.outClosed
  rw [waits] at drains srcClosed outClosed
  refine ⟨?_, ?_, ?_, nofun, ?_, ?_⟩
  · rcases kept.kept with onTheWay | sent
    · refine .inl ⟨?_, ?_⟩
      · change f.early <+: f.sent ++ ([c] ++ src.buffer)
        rw [samePending]
        exact onTheWay.early
      · have taken := onTheWay.taken
        rw [waits, FeedRelay.hand_resume] at taken
        exact congrArg (· + 1) taken
    · exact .inr sent
  · intro active
    change f.early = f.sent ++ ([c] ++ src.buffer)
    rw [samePending]
    exact kept.complete active
  · intro isDraining
    apply drains
    rw [FeedRelay.isDraining_resume]
    exact isDraining
  · intro closed
    have finished := srcClosed (sameClosed ▸ closed)
    cases inDrain <;> contradiction
  · intro closed
    have left := outClosed closed
    rw [FeedRelay.hasReturned_resume] at left
    contradiction

theorem Kept.sent {f : Feed} (kept : f.Kept) {inDrain : Bool} {c : Change}
    {out : Channel 64 Change} (inHand : f.relay.hand = [c])
    (mode : f.relay.isDraining = inDrain) (stays : f.relay.hasReturned = false)
    (room : f.out.trySend c = some out) :
    Kept { f with out, relay := .resume inDrain, sent := f.sent ++ [c] } := by
  obtain ⟨_, sameClosed⟩ := Channel.trySend_some room
  have shifted : f.sent ++ [c] ++ ((FeedRelay.resume inDrain).hand ++ f.src.buffer) =
      f.sent ++ f.pending := by
    rw [FeedRelay.hand_resume, pending, inHand, List.nil_append, List.append_assoc]
  refine ⟨?_, ?_, ?_, ?_, ?_, ?_⟩
  · rcases kept.kept with onTheWay | ⟨cancelled, sent⟩
    · refine .inl ⟨?_, ?_⟩
      · change f.early <+:
          f.sent ++ [c] ++ ((FeedRelay.resume inDrain).hand ++ f.src.buffer)
        rw [shifted]
        exact onTheWay.early
      · have taken := onTheWay.taken
        rw [inHand] at taken
        simpa using taken
    · exact .inr ⟨cancelled, sent.trans (List.prefix_append _ _)⟩
  · intro active
    exact (kept.complete active).trans shifted.symm
  · intro isDraining
    rw [FeedRelay.isDraining_resume] at isDraining
    exact kept.drains (mode.trans isDraining)
  · intro left
    rw [FeedRelay.hasReturned_resume] at left
    contradiction
  · intro closed
    rw [kept.srcClosed closed] at stays
    contradiction
  · intro closed
    rw [kept.outClosed (sameClosed ▸ closed)] at stays
    contradiction

/-- A change given up late is not among the early ones. -/
theorem Kept.abandon {f : Feed} (kept : f.Kept) {inDrain : Bool} {c : Change}
    (holds : f.relay = .blocked inDrain c) (cancelled : f.cancelled = true)
    (late : f.early.length < f.taken) :
    Kept { f with relay := .resume inDrain } := by
  have sent : f.early <+: f.sent := by
    rcases kept.kept with onTheWay | ⟨_, sent⟩
    · have taken := onTheWay.taken
      rw [holds, FeedRelay.hand, List.length_singleton] at taken
      apply List.prefix_of_prefix_length_le onTheWay.early (List.prefix_append _ _)
      omega
    · exact sent
  have srcClosed := kept.srcClosed
  have outClosed := kept.outClosed
  rw [holds] at srcClosed outClosed
  refine ⟨.inr ⟨cancelled, sent⟩, ?_, fun _ => cancelled, fun _ => sent, ?_, ?_⟩
  · intro active
    rw [cancelled] at active
    contradiction
  · intro closed
    exact absurd (srcClosed closed) nofun
  · intro closed
    exact absurd (outClosed closed) nofun

theorem Kept.moves {f next : Feed} {action : FeedAction} (kept : f.Kept)
    (late : f.GivesUpLate action) (moves : Moves f action next) : next.Kept := by
  cases moves with
  | placed room => exact kept.placed room
  | dropped =>
      exact ⟨kept.kept.imp_left fun onTheWay => ⟨onTheWay.early, onTheWay.taken⟩,
        kept.complete, kept.drains, kept.left, kept.srcClosed, kept.outClosed⟩
  | cancel =>
      refine ⟨?_, nofun, fun _ => rfl, kept.left, kept.srcClosed, kept.outClosed⟩
      rcases kept.kept with onTheWay | ⟨_, sent⟩
      · exact .inl ⟨onTheWay.early, onTheWay.taken⟩
      · exact .inr ⟨rfl, sent⟩
  | consume received =>
      refine ⟨kept.kept.imp_left fun onTheWay => ⟨onTheWay.early, onTheWay.taken⟩,
        kept.complete, kept.drains, kept.left, kept.srcClosed, ?_⟩
      intro closed
      exact kept.outClosed ((Channel.receive_some received).2 ▸ closed)
  | done waits cancelled =>
      exact kept.turn (by rw [waits]; rfl) (fun _ => cancelled) nofun (by rw [waits]; rfl)
  | take waits received => exact kept.take waits received
  | @ended inDrain waits closed =>
      -- The hub's channel is closed by `unsub` alone, after the goroutine is done.
      have finished := kept.srcClosed closed
      rw [waits] at finished
      cases inDrain <;> contradiction
  | drained waits empty =>
      have nothing : f.pending = [] := by
        rw [pending, waits, empty]
        rfl
      apply kept.turn
      · rw [waits]
        rfl
      · intro _
        exact kept.drains (by rw [waits]; rfl)
      · intro _
        exact kept.sent_of_pending_nil nothing
      · rw [waits]
        rfl
  | sent holds room =>
      rcases holds with trying | blocked
      · exact kept.sent (by rw [trying]; rfl) (by rw [trying]; rfl)
          (by rw [trying]; rfl) room
      · exact kept.sent (by rw [blocked]; rfl) (by rw [blocked]; rfl)
          (by rw [blocked]; rfl) room
  | full holds =>
      apply kept.turn
      · rw [holds]
        rfl
      · intro isDraining
        exact kept.drains (by rw [holds]; exact isDraining)
      · nofun
      · rw [holds]
        rfl
  | abandon holds cancelled => exact kept.abandon holds cancelled late
  | closeOut waits =>
      have left := kept.left (by rw [waits]; rfl)
      have cancelled := kept.drains (by rw [waits]; rfl)
      refine ⟨.inr ⟨cancelled, left⟩, ?_, fun _ => cancelled, fun _ => left, ?_, fun _ => rfl⟩
      · intro active
        exact absurd (cancelled.symm.trans active) nofun
      · intro closed
        exact absurd (waits.symm.trans (kept.srcClosed closed)) nofun
  | unsub waits =>
      have left := kept.left (by rw [waits]; rfl)
      have cancelled := kept.drains (by rw [waits]; rfl)
      refine ⟨.inr ⟨cancelled, left⟩, ?_, fun _ => cancelled, fun _ => left, fun _ => rfl,
        fun _ => rfl⟩
      intro active
      exact absurd (cancelled.symm.trans active) nofun

theorem Reached.kept {f : Feed} (reached : Reached GivesUpLate f) : f.Kept :=
  Run.keeps (fun kept late stepped => kept.moves late (moves_of_step stepped)) reached
    kept_subscribe

theorem Kept.sent_of_closed {f : Feed} (kept : f.Kept) (closed : f.out.closed = true) :
    f.early <+: f.sent :=
  kept.left (kept.outClosed closed)

def perform (f : Feed) (actions : List FeedAction) : Option Feed :=
  actions.foldlM step f

theorem Reached.perform {allowed : Feed → FeedAction → Prop} {f final : Feed}
    (reached : Reached allowed f) {actions : List FeedAction}
    (free : ∀ action ∈ actions, ∀ before, allowed before action)
    (performed : f.perform actions = some final) : Reached allowed final := by
  induction actions generalizing f with
  | nil =>
      cases performed
      exact reached
  | cons action rest ih =>
      obtain ⟨next, stepped, onward⟩ := Option.bind_eq_some_iff.mp performed
      have first : Reached allowed next :=
        Run.step reached (free action List.mem_cons_self f) stepped
      exact ih first (fun later isLater => free later (List.mem_cons_of_mem action isLater))
        onward

end Feed

/-- The consumer receives a subsequence of the broadcasts in every run.  Where
`forward` gives up only changes that came after the cancellation, the closed
channel has been sent everything placed before it. -/
theorem feed_keeps_early (f : Feed) :
    (Feed.Reached (fun _ _ => True) f → f.received.Sublist f.broadcasts) ∧
      (Feed.Reached Feed.GivesUpLate f → f.out.closed = true → f.early <+: f.sent) := by
  constructor
  · intro reached
    exact reached.inOrder.received_sublist
  · intro reached closed
    exact reached.kept.sent_of_closed closed

def numberedChange (n : Nat) : Change := ⟨[Fin.ofNat 256 n], [], false, none⟩

/-- Two changes, one still in the hub's buffer when the context is cancelled. -/
def cancelledEarly : List FeedAction :=
  [.broadcast (numberedChange 0), .take, .forward, .consume, .broadcast (numberedChange 1),
    .cancel, .done, .take, .forward, .drained, .closeOut]

theorem feed_keeps_early_two_changes :
    ∃ f, Feed.subscribe.perform cancelledEarly = some f ∧ f.out.closed = true ∧
      f.received.Sublist f.broadcasts ∧ f.early <+: f.sent := by
  have outcome : (Feed.subscribe.perform cancelledEarly).map (fun f => f.out.closed) =
      some true := by
    decide +kernel
  obtain ⟨f, performed, closed⟩ := Option.map_eq_some_iff.mp outcome
  have always : Feed.Reached (fun _ _ => True) f :=
    Feed.Reached.perform .start (fun _ _ _ => trivial) performed
  have late : Feed.Reached Feed.GivesUpLate f := by
    refine Feed.Reached.perform .start ?_ performed
    intro action isAction before
    simp only [cancelledEarly, List.mem_cons, List.not_mem_nil, or_false] at isAction
    rcases isAction with rfl | rfl | rfl | rfl | rfl | rfl | rfl | rfl | rfl | rfl | rfl <;>
      trivial
  exact ⟨f, performed, closed, (feed_keeps_early f).1 always,
    (feed_keeps_early f).2 late closed⟩

/-- The consumer is behind by a full outbound buffer when the context is
cancelled, and the second select of `forward` takes the other case. -/
def cancelledBehind : List FeedAction :=
  (List.range 64).flatMap (fun n => [.broadcast (numberedChange n), .take, .forward]) ++
    [.broadcast (numberedChange 64), .take, .forward, .cancel, .abandon, .done, .drained,
      .closeOut]

theorem feed_loses_early :
    ∃ f, Feed.Reached (fun _ _ => True) f ∧ f.out.closed = true ∧
      f.early.map Change.id = (List.range 65).map (fun n => [Fin.ofNat 256 n]) ∧
      f.sent.map Change.id = (List.range 64).map (fun n => [Fin.ofNat 256 n]) ∧
      ¬ f.early.Sublist f.sent := by
  have outcome : (Feed.subscribe.perform cancelledBehind).map
      (fun f => (f.out.closed, f.early.map Change.id, f.sent.map Change.id)) =
      some (true, (List.range 65).map (fun n => [Fin.ofNat 256 n]),
        (List.range 64).map (fun n => [Fin.ofNat 256 n])) := by
    decide +kernel
  obtain ⟨f, performed, result⟩ := Option.map_eq_some_iff.mp outcome
  simp only [Prod.mk.injEq] at result
  obtain ⟨closed, early, sent⟩ := result
  refine ⟨f, Feed.Reached.perform .start (fun _ _ _ => trivial) performed, closed, early,
    sent, ?_⟩
  intro placed
  have shorter := (placed.map Change.id).length_le
  rw [early, sent] at shorter
  simp at shorter

end NellDB
