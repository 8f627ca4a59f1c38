import NellDB.Data.Interleaving
import NellDB.Store.Memory

namespace NellDB

open Data

/-! The browser backend.  Records live in an object store; the clock does not
survive a reload of the page. -/

inductive IndexedDBError where
  | recordNotFound
  | getError
  | putError
  deriving DecidableEq, Repr

/-- Which requests of a put fail. -/
structure Requests where
  getFails : Bool
  putFails : Bool
  deriving DecidableEq, Repr

structure IndexedDBStore where
  nodeID : GoString
  objects : RecordMap
  clock : HLC

/-- The database keeps the node id and the objects. -/
def newIndexedDBStore (nodeID : GoString) (objects : RecordMap) (now : Int64) :
    IndexedDBStore where
  nodeID := nodeID
  objects := objects
  clock := newHLC now

namespace IndexedDBStore

def get (s : IndexedDBStore) (fails : Bool) (collection id : GoString) :
    Except IndexedDBError Record :=
  let collection := orDefault collection
  if fails then
    .error .getError
  else
    match s.objects.lookup (flatKey collection id) with
    | none => .error .recordNotFound
    | some r => .ok r

/-- How a put ends: the clock is merged, then the winner is written. -/
def finishPut (s : IndexedDBStore) (fails : Bool) (incoming : Record) (accepted : Bool)
    (winner : Record) : Except IndexedDBError (Bool × Record) × IndexedDBStore :=
  let s := { s with clock := s.clock.update incoming.clock }
  if fails then
    (.error .putError, s)
  else
    (.ok (accepted, winner), { s with objects := s.objects.insert winner.key winner })

def put (s : IndexedDBStore) (requests : Requests) (incoming : Record) :
    Except IndexedDBError (Bool × Record) × IndexedDBStore :=
  let incoming := incoming.defaulted
  match s.get requests.getFails incoming.collection incoming.id with
  | .ok existing => s.finishPut requests.putFails incoming (incomingWins existing incoming)
      (resolveConflict existing incoming)
  | .error .recordNotFound => s.finishPut requests.putFails incoming true incoming
  | .error failure => (.error failure, s)

/-- The tombstone of a record goes through `Put`. -/
def bury (s : IndexedDBStore) (requests : Requests) (r : Record) (now : Int64) :
    Except IndexedDBError Record × IndexedDBStore :=
  let clock := s.clock.tick now
  let tombstone := { r with deleted := true, updatedBy := s.nodeID, clock }
  match put { s with clock } requests tombstone with
  | (.ok (_, winner), s) => (.ok winner, s)
  | (.error failure, s) => (.error failure, s)

def delete (s : IndexedDBStore) (readFails : Bool) (requests : Requests)
    (collection id : GoString) (now : Int64) :
    Except IndexedDBError Record × IndexedDBStore :=
  let collection := orDefault collection
  match s.get readFails collection id with
  | .ok r => s.bury requests r now
  | .error .recordNotFound => s.bury requests { Record.zero with collection, id } now
  | .error failure => (.error failure, s)

end IndexedDBStore

inductive BrowserAction where
  | put (requests : Requests) (incoming : Record)
  | delete (readFails : Bool) (requests : Requests) (collection id : GoString) (now : Int64)
  | reload (now : Int64)
  deriving DecidableEq, Repr

namespace IndexedDBStore

def act (s : IndexedDBStore) : BrowserAction → IndexedDBStore
  | .put requests incoming => (s.put requests incoming).2
  | .delete readFails requests collection id now =>
      (s.delete readFails requests collection id now).2
  | .reload now => newIndexedDBStore s.nodeID s.objects now

/-- The runs of one profile, from an empty database on. -/
def Reached (allowed : IndexedDBStore → BrowserAction → Prop) (nodeID : GoString)
    (now : Int64) : IndexedDBStore → Prop :=
  Run (fun s action next => next = s.act action) allowed (newIndexedDBStore nodeID ∅ now)

end IndexedDBStore

/-- Objects are filed under their own collection and id. -/
structure Filed (objects : RecordMap) : Prop where
  keyed : Champion.WellKeyed Record.key objects
  named : ∀ {position r}, objects.lookup position = some r → r.collection ≠ []

theorem Filed.enter {objects : RecordMap} (filed : Filed objects) (incoming : Record) :
    Filed (Champion.enter Record.key Record.stamp objects incoming.defaulted) where
  keyed := Champion.WellKeyed.enter filed.keyed incoming.defaulted
  named := by
    intro position r found
    rcases Champion.lookup_enter_source found with before | ⟨rfl, _⟩
    · exact filed.named before
    · exact orDefault_ne_nil incoming.collection

/-- What a put makes of the record that it found. -/
def putWinner (incoming : Record) : Option Record → Record
  | none => incoming
  | some existing => resolveConflict existing incoming

def putAccepts (incoming : Record) : Option Record → Bool
  | none => true
  | some existing => incomingWins existing incoming

theorem putWinner_key {objects : RecordMap} (keyed : Champion.WellKeyed Record.key objects)
    (incoming : Record) :
    (putWinner incoming (objects.lookup incoming.key)).key = incoming.key := by
  cases present : objects.lookup incoming.key with
  | none => rfl
  | some existing =>
      change (resolveConflict existing incoming).key = incoming.key
      unfold resolveConflict
      split
      next => rfl
      next => exact keyed present

theorem enter_eq_putWinner (objects : RecordMap) (incoming : Record) :
    Champion.enter Record.key Record.stamp objects incoming =
      objects.insert incoming.key (putWinner incoming (objects.lookup incoming.key)) := by
  cases present : objects.lookup incoming.key with
  | none => simp [Champion.enter, present, putWinner]
  | some existing => simp [Champion.enter, present, putWinner, resolveConflict_eq_prefer]

namespace IndexedDBStore

theorem get_eq (s : IndexedDBStore) (collection id : GoString) :
    s.get false collection id =
      (s.objects.lookup (flatKey (orDefault collection) id)).elim
        (.error .recordNotFound) .ok := by
  unfold get
  simp only [Bool.false_eq_true, if_false]
  cases s.objects.lookup (flatKey (orDefault collection) id) <;> rfl

theorem put_of_read (s : IndexedDBStore) (putFails : Bool) (incoming : Record) :
    let found := s.objects.lookup incoming.defaulted.key
    s.put ⟨false, putFails⟩ incoming =
      s.finishPut putFails incoming.defaulted (putAccepts incoming.defaulted found)
        (putWinner incoming.defaulted found) := by
  have named : incoming.defaulted.collection ≠ [] := orDefault_ne_nil incoming.collection
  have read : s.get false incoming.defaulted.collection incoming.defaulted.id =
      (s.objects.lookup incoming.defaulted.key).elim (.error .recordNotFound) .ok := by
    rw [get_eq, orDefault_of_ne named]
    rfl
  unfold put
  simp only [read]
  cases s.objects.lookup incoming.defaulted.key with
  | none => rfl
  | some existing => rfl

theorem delete_of_read (s : IndexedDBStore) (requests : Requests) (collection id : GoString)
    (now : Int64) :
    s.delete false requests collection id now =
      s.bury requests ((s.objects.lookup (flatKey (orDefault collection) id)).getD
        { Record.zero with collection := orDefault collection, id }) now := by
  have read : s.get false (orDefault collection) id =
      (s.objects.lookup (flatKey (orDefault collection) id)).elim
        (.error .recordNotFound) .ok := by
    rw [get_eq, orDefault_orDefault]
  unfold delete
  simp only [read]
  cases s.objects.lookup (flatKey (orDefault collection) id) with
  | none => rfl
  | some r => rfl

theorem bury_store (s : IndexedDBStore) (requests : Requests) (r : Record) (now : Int64) :
    (s.bury requests r now).2 = (put { s with clock := s.clock.tick now } requests
      { r with deleted := true, updatedBy := s.nodeID, clock := s.clock.tick now }).2 := by
  unfold bury
  dsimp only
  split
  next result => rw [result]
  next result => rw [result]

/-- The outcomes of a put: a failed request leaves the objects alone, and
otherwise the winner is stored at the key. -/
inductive PutOutcome (s : IndexedDBStore) (incoming : Record) :
    Except IndexedDBError (Bool × Record) × IndexedDBStore → Prop
  | unread : PutOutcome s incoming (.error .getError, s)
  | unwritten : PutOutcome s incoming
      (.error .putError, { s with clock := s.clock.update incoming.clock })
  | stored (accepted : Bool) (winner : Record)
      (found : (Champion.enter Record.key Record.stamp s.objects incoming).lookup
        incoming.key = some winner) :
      PutOutcome s incoming (.ok (accepted, winner), { s with
        clock := s.clock.update incoming.clock
        objects := Champion.enter Record.key Record.stamp s.objects incoming })

theorem finishPut_outcome {s : IndexedDBStore} {incoming winner : Record}
    (entered : Champion.enter Record.key Record.stamp s.objects incoming =
      s.objects.insert incoming.key winner)
    (placed : winner.key = incoming.key) (fails accepted : Bool) :
    PutOutcome s incoming (s.finishPut fails incoming accepted winner) := by
  unfold finishPut
  cases fails with
  | true => exact .unwritten
  | false =>
      have found : (Champion.enter Record.key Record.stamp s.objects incoming).lookup
          incoming.key = some winner := by
        rw [entered, Finmap.lookup_insert]
      have outcome := PutOutcome.stored accepted winner found
      rw [entered, ← placed] at outcome
      exact outcome

theorem put_outcome {s : IndexedDBStore} (filed : Filed s.objects) (requests : Requests)
    (incoming : Record) :
    PutOutcome s incoming.defaulted (s.put requests incoming) := by
  obtain ⟨getFails, putFails⟩ := requests
  cases getFails with
  | true => exact .unread
  | false =>
      rw [put_of_read]
      exact finishPut_outcome (enter_eq_putWinner _ _) (putWinner_key filed.keyed _) _ _

/-- The tombstone that a delete puts at its key. -/
structure Buried (s : IndexedDBStore) (key : GoString) (now : Int64) (tombstone : Record) :
    Prop where
  placed : tombstone.key = key
  named : tombstone.collection ≠ []
  deleted : tombstone.deleted = true
  stamp : tombstone.stamp = toLex (s.clock.tick now, s.nodeID)

inductive DeleteOutcome (s : IndexedDBStore) (key : GoString) (now : Int64) :
    Except IndexedDBError Record × IndexedDBStore → Prop
  | unread : DeleteOutcome s key now (.error .getError, s)
  | refused (failure : IndexedDBError) (clock : HLC)
      (advanced : clock = s.clock.tick now ∨
        clock = (s.clock.tick now).update (s.clock.tick now)) :
      DeleteOutcome s key now (.error failure, { s with clock })
  | stored (tombstone winner : Record) (buried : s.Buried key now tombstone)
      (found : (Champion.enter Record.key Record.stamp s.objects tombstone).lookup key =
        some winner) :
      DeleteOutcome s key now (.ok winner, { s with
        clock := (s.clock.tick now).update (s.clock.tick now)
        objects := Champion.enter Record.key Record.stamp s.objects tombstone })

theorem bury_outcome {s : IndexedDBStore} (filed : Filed s.objects) (requests : Requests)
    {r : Record} (named : r.collection ≠ []) (now : Int64) :
    DeleteOutcome s r.key now (s.bury requests r now) := by
  let clock := s.clock.tick now
  let tombstone := { r with deleted := true, updatedBy := s.nodeID, clock }
  have same : tombstone.defaulted = tombstone := Record.defaulted_of_named named
  have outcome := put_outcome (s := { s with clock }) filed requests tombstone
  rw [same] at outcome
  unfold bury
  dsimp only
  cases result : put { s with clock } requests tombstone with
  | mk answer next =>
      rw [result] at outcome
      cases outcome with
      | unread => exact .refused .getError clock (.inl rfl)
      | unwritten => exact .refused .putError (clock.update clock) (.inr rfl)
      | stored accepted winner found =>
          exact .stored tombstone winner ⟨rfl, named, rfl, rfl⟩ found

theorem delete_outcome {s : IndexedDBStore} (filed : Filed s.objects) (readFails : Bool)
    (requests : Requests) (collection id : GoString) (now : Int64) :
    DeleteOutcome s (flatKey (orDefault collection) id) now
      (s.delete readFails requests collection id now) := by
  cases readFails with
  | true => exact .unread
  | false =>
      rw [delete_of_read]
      cases present : s.objects.lookup (flatKey (orDefault collection) id) with
      | none =>
          let blank : Record := { Record.zero with collection := orDefault collection, id }
          have named : blank.collection ≠ [] := orDefault_ne_nil collection
          exact bury_outcome filed requests named now
      | some r =>
          have outcome := bury_outcome filed requests (filed.named present) now
          rw [filed.keyed present] at outcome
          exact outcome

theorem filed_act {s : IndexedDBStore} (filed : Filed s.objects) (action : BrowserAction) :
    Filed (s.act action).objects := by
  cases action with
  | put requests incoming =>
      have outcome := put_outcome filed requests incoming
      change Filed (s.put requests incoming).2.objects
      generalize s.put requests incoming = result at outcome ⊢
      cases outcome with
      | unread => exact filed
      | unwritten => exact filed
      | stored => exact filed.enter incoming
  | delete readFails requests collection id now =>
      have outcome := delete_outcome filed readFails requests collection id now
      change Filed (s.delete readFails requests collection id now).2.objects
      generalize s.delete readFails requests collection id now = result at outcome ⊢
      cases outcome with
      | unread => exact filed
      | refused => exact filed
      | stored tombstone winner buried =>
          have entered := filed.enter tombstone
          rw [Record.defaulted_of_named buried.named] at entered
          exact entered
  | reload now => exact filed

theorem filed_reached {allowed : IndexedDBStore → BrowserAction → Prop} {nodeID : GoString}
    {now : Int64} {s : IndexedDBStore} (reached : Reached allowed nodeID now s) :
    Filed s.objects := by
  have initial : Filed (newIndexedDBStore nodeID ∅ now).objects := by
    refine ⟨Champion.wellKeyed_empty, ?_⟩
    intro position r found
    simp [newIndexedDBStore] at found
  induction reached with
  | start => exact initial
  | step _ _ taken ih =>
      rw [taken]
      exact filed_act ih _

/-! What a delete leaves behind depends on the clock that the page started
with, not on the objects. -/

/-- A live record at the key is older than the tombstone about to be written. -/
def Overtaken (s : IndexedDBStore) (collection id : GoString) (now : Int64) : Prop :=
  ∀ r, s.objects.lookup (flatKey (orDefault collection) id) = some r →
    r.deleted = true ∨ r.stamp < toLex (s.clock.tick now, s.nodeID)

/-- The record that a delete returned and the one found afterwards are tombstones. -/
def LeftTombstone (winner : Record) (next : IndexedDBStore) (collection id : GoString) :
    Prop :=
  winner.deleted = true ∧ ∃ r, next.get false collection id = .ok r ∧ r.deleted = true

theorem deleted_enter_iff {objects : RecordMap} {tombstone winner : Record}
    (deleted : tombstone.deleted = true)
    (found : (Champion.enter Record.key Record.stamp objects tombstone).lookup
      tombstone.key = some winner) :
    winner.deleted = true ↔ ∀ r, objects.lookup tombstone.key = some r →
      r.deleted = true ∨ r.stamp < tombstone.stamp := by
  cases present : objects.lookup tombstone.key with
  | none =>
      rw [Champion.lookup_enter_of_none present] at found
      have entered : tombstone = winner := Option.some.inj found
      simp [← entered, deleted]
  | some current =>
      rw [Champion.lookup_enter_of_some present, Champion.prefer] at found
      simp only [Option.some.injEq] at found ⊢
      split at found
      next older =>
          subst found
          simp [deleted, older]
      next notOlder =>
          subst found
          simp [notOlder]

theorem leftTombstone_iff {s : IndexedDBStore} (filed : Filed s.objects)
    {readFails : Bool} {requests : Requests} {collection id : GoString} {now : Int64}
    {winner : Record} {next : IndexedDBStore}
    (done : s.delete readFails requests collection id now = (.ok winner, next)) :
    LeftTombstone winner next collection id ↔ s.Overtaken collection id now := by
  have outcome := delete_outcome filed readFails requests collection id now
  rw [done] at outcome
  cases outcome with
  | stored tombstone _ buried found =>
      have settled := deleted_enter_iff buried.deleted (buried.placed ▸ found)
      rw [buried.placed, buried.stamp] at settled
      simp only [LeftTombstone, get_eq, found, Option.elim]
      rw [Overtaken, ← settled]
      constructor
      · exact And.left
      · intro deleted
        exact ⟨deleted, winner, rfl, deleted⟩

/-! The clock of the store is not behind any record that the store holds. -/

def Ahead (s : IndexedDBStore) : Prop :=
  ∀ position r, s.objects.lookup position = some r → r.clock ≤ s.clock

theorem Ahead.enter {s : IndexedDBStore} (ahead : s.Ahead) {clock : HLC}
    (later : s.clock ≤ clock) {incoming : Record} (reached : incoming.clock ≤ clock) :
    Ahead { s with
      clock
      objects := Champion.enter Record.key Record.stamp s.objects incoming } := by
  intro position r found
  rcases Champion.lookup_enter_source found with before | ⟨rfl, _⟩
  · exact (ahead position r before).trans later
  · exact reached

theorem Ahead.overtaken {s : IndexedDBStore} (ahead : s.Ahead) {now : Int64}
    (fine : ¬ s.clock.TickWraps now) (collection id : GoString) :
    s.Overtaken collection id now := by
  intro r found
  right
  have later : r.clock < s.clock.tick now :=
    (ahead _ r found).trans_lt (HLC.lt_tick_of_not_wraps fine)
  exact Prod.Lex.toLex_lt_toLex.mpr (.inl later)

end IndexedDBStore

/-- The action leaves the clock ahead of the objects: no counter wraps, and the
page is not loaded before the latest clock that the database holds. -/
def BrowserAction.KeepsAhead (s : IndexedDBStore) : BrowserAction → Prop
  | .put _ incoming => ¬ s.clock.UpdateWraps incoming.clock
  | .delete _ _ _ _ now => ¬ s.clock.TickWraps now ∧ (s.clock.tick now).HasRoom
  | .reload now => ∀ position r, s.objects.lookup position = some r → r.clock ≤ newHLC now

namespace IndexedDBStore

theorem Ahead.act {s : IndexedDBStore} (filed : Filed s.objects) (ahead : s.Ahead)
    {action : BrowserAction} (fine : action.KeepsAhead s) : (s.act action).Ahead := by
  cases action with
  | put requests incoming =>
      have later := HLC.le_update_of_not_wraps fine
      have reached := (HLC.lt_update_of_not_wraps fine).le
      have outcome := put_outcome filed requests incoming
      change Ahead (s.put requests incoming).2
      generalize s.put requests incoming = result at outcome ⊢
      cases outcome with
      | unread => exact ahead
      | unwritten => exact fun position r found => (ahead position r found).trans later
      | stored => exact ahead.enter later reached
  | delete readFails requests collection id now =>
      have ticked := (HLC.lt_tick_of_not_wraps fine.1).le
      have merged := (HLC.lt_update fine.2 (s.clock.tick now)).le
      have outcome := delete_outcome filed readFails requests collection id now
      change Ahead (s.delete readFails requests collection id now).2
      generalize s.delete readFails requests collection id now = result at outcome ⊢
      cases outcome with
      | unread => exact ahead
      | refused failure clock advanced =>
          have later : s.clock ≤ clock := by
            rcases advanced with rfl | rfl
            · exact ticked
            · exact ticked.trans merged
          exact fun position r found => (ahead position r found).trans later
      | stored tombstone winner buried =>
          have stamped : tombstone.clock = s.clock.tick now := congrArg Prod.fst buried.stamp
          exact ahead.enter (ticked.trans merged) (stamped.le.trans merged)
  | reload now => exact fine

theorem ahead_reached {nodeID : GoString} {now : Int64} {s : IndexedDBStore}
    (reached : Reached (fun s action => action.KeepsAhead s) nodeID now s) : s.Ahead := by
  induction reached with
  | start =>
      intro position r found
      simp [newIndexedDBStore] at found
  | step before fine taken ih =>
      rw [taken]
      exact ih.act (filed_reached before) fine

end IndexedDBStore

open IndexedDBStore in
/-- A delete that succeeds leaves a tombstone exactly when a live record at its
key is older than the next tick; in a run whose loads are never behind the
database, and in which no counter wraps, every such delete does. -/
theorem deletes_honoured (nodeID : GoString) (start : Int64) :
    (∀ s, Reached (fun _ _ => True) nodeID start s →
      ∀ readFails requests collection id now winner next,
        s.delete readFails requests collection id now = (.ok winner, next) →
        (LeftTombstone winner next collection id ↔ s.Overtaken collection id now)) ∧
    (∀ s, Reached (fun s action => action.KeepsAhead s) nodeID start s →
      ∀ readFails requests collection id now winner next,
        ¬ s.clock.TickWraps now →
        s.delete readFails requests collection id now = (.ok winner, next) →
        LeftTombstone winner next collection id) := by
  constructor
  · intro s reached readFails requests collection id now winner next done
    exact leftTombstone_iff (filed_reached reached) done
  · intro s reached readFails requests collection id now winner next fine done
    have overtaken := (ahead_reached reached).overtaken fine collection id
    exact (leftTombstone_iff (filed_reached reached) done).mpr overtaken

/-- A delete in a page loaded after the clock of the record it finds. -/
theorem deletes_honoured_later_page :
    let works : Requests := ⟨false, false⟩
    let incoming : Record := { Record.zero with id := ascii ['x'], clock := ⟨2000, 0⟩ }
    let page := (newIndexedDBStore (ascii ['n']) ∅ 1000).act (.put works incoming)
    let s := page.act (.reload 3000)
    s.clock = newHLC 3000 ∧
      ∃ winner next, s.delete false works [] (ascii ['x']) 3000 = (.ok winner, next) ∧
        IndexedDBStore.LeftTombstone winner next [] (ascii ['x']) := by
  intro works incoming page s
  have room : BrowserAction.KeepsAhead (newIndexedDBStore (ascii ['n']) ∅ 1000)
      (.put works incoming) := by
    change ¬ (newHLC 1000).UpdateWraps ⟨2000, 0⟩
    decide
  have written : IndexedDBStore.Reached (fun s action => action.KeepsAhead s)
      (ascii ['n']) 1000 page :=
    .step .start room rfl
  have notBehind : BrowserAction.KeepsAhead page (.reload 3000) := by
    intro position r found
    have passed : page.clock ≤ newHLC 3000 := by decide +kernel
    exact (IndexedDBStore.ahead_reached written position r found).trans passed
  have reached : IndexedDBStore.Reached (fun s action => action.KeepsAhead s)
      (ascii ['n']) 1000 s :=
    .step written notBehind rfl
  have fine : ¬ s.clock.TickWraps 3000 := by decide +kernel
  obtain ⟨winner, next, done⟩ : ∃ winner next,
      s.delete false works [] (ascii ['x']) 3000 = (.ok winner, next) :=
    ⟨_, _, rfl⟩
  exact ⟨rfl, winner, next, done,
    (deletes_honoured _ _).2 s reached _ _ _ _ _ _ _ fine done⟩

/-- After a reload at a time before the clock of the stored record, the record
outlives its deletion. -/
theorem not_deletes_honoured_reload :
    let works : Requests := ⟨false, false⟩
    let incoming : Record := { Record.zero with id := ascii ['x'], clock := ⟨2000, 0⟩ }
    let s := ((newIndexedDBStore (ascii ['n']) ∅ 1000).act (.put works incoming)).act
      (.reload 1000)
    let result := s.delete false works [] (ascii ['x']) 1000
    (result.1.toOption.map Record.deleted = some false) ∧
      (result.2.get false [] (ascii ['x'])).toOption.map Record.deleted = some false := by
  decide +kernel

end NellDB
