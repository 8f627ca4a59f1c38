import Mathlib.Logic.Relation
import NellDB.LogStore.Append

namespace NellDB

open Data

/-! Stores that exchange the records they write.  A history lists the operations
of all stores in the order they are executed; messages may be delayed, lost,
reordered and repeated, since a record can be put anywhere, any number of times,
once it has been written. -/

abbrev Cluster (ι : Type) := ι → MemoryStore

structure Operation (ι : Type) where
  site : ι
  call : Write

variable {ι : Type} [DecidableEq ι]

namespace Cluster

def step (cluster : Cluster ι) (op : Operation ι) : Cluster ι :=
  Function.update cluster op.site ((cluster op.site).write op.call).2

def run (start : Cluster ι) (history : List (Operation ι)) : Cluster ι :=
  history.foldl step start

/-- The operation at a position of the history is a local write of `site` that
produces `r`. -/
def Writes (start : Cluster ι) (history : List (Operation ι)) (position : Nat) (site : ι)
    (r : Record) : Prop :=
  ∃ call now, history[position]? = some ⟨site, call⟩ ∧ call.reading = some now ∧
    (((start.run (history.take position)) site).write call).1 = r

/-- Every record given to `Put` was written before. -/
def Exchanges (start : Cluster ι) (history : List (Operation ι)) : Prop :=
  ∀ position site r, history[position]? = some ⟨site, .put r⟩ →
    ∃ earlier < position, ∃ origin, start.Writes history earlier origin r

def CountersHaveRoom (start : Cluster ι) (history : List (Operation ι)) : Prop :=
  ∀ count ≤ history.length, ∀ site, ((start.run (history.take count)) site).clock.HasRoom

/-- An earlier local write of the same store, or one whose record the store put
before. -/
def Direct (start : Cluster ι) (history : List (Operation ι)) (a b : Nat) : Prop :=
  ∃ siteA siteB written writtenB, start.Writes history a siteA written ∧
    start.Writes history b siteB writtenB ∧
    (siteA = siteB ∧ a < b ∨
      ∃ ingest < b, history[ingest]? = some ⟨siteB, .put written⟩)

def HappensBefore (start : Cluster ι) (history : List (Operation ι)) : Nat → Nat → Prop :=
  Relation.TransGen (start.Direct history)

section Run

variable {start : Cluster ι} {history : List (Operation ι)}

theorem run_take_succ {position : Nat} {op : Operation ι}
    (executed : history[position]? = some op) :
    start.run (history.take (position + 1)) = (start.run (history.take position)).step op := by
  unfold run
  rw [List.take_add_one, executed, Option.toList_some, List.foldl_append]
  rfl

variable (exchanges : start.Exchanges history) (room : start.CountersHaveRoom history)

omit exchanges room in
theorem Writes.unique {position : Nat} {site other : ι} {r s : Record}
    (first : start.Writes history position site r)
    (second : start.Writes history position other s) : site = other ∧ r = s := by
  obtain ⟨call, _, executed, _, rfl⟩ := first
  obtain ⟨otherCall, _, executedToo, _, rfl⟩ := second
  rw [executed, Option.some.injEq, Operation.mk.injEq] at executedToo
  obtain ⟨rfl, rfl⟩ := executedToo
  exact ⟨rfl, rfl⟩

omit exchanges in
include room in
theorem Writes.hasRoom {position : Nat} {site : ι} {r : Record}
    (written : start.Writes history position site r) : r.clock.HasRoom := by
  obtain ⟨call, now, executed, read, rfl⟩ := written
  obtain ⟨executes, _⟩ := List.getElem?_eq_some_iff.mp executed
  have after := room (position + 1) executes site
  obtain ⟨stored, returned⟩ := MemoryStore.write_clock_of_reading
    ((start.run (history.take position)) site) read
  rw [run_take_succ executed, step, Function.update_self, stored] at after
  rw [returned]
  exact after

include exchanges room in
theorem le_clock_succ {position : Nat} {op : Operation ι}
    (executed : history[position]? = some op) (site : ι) :
    ((start.run (history.take position)) site).clock ≤
      ((start.run (history.take (position + 1))) site).clock := by
  rw [run_take_succ executed, step]
  by_cases same : site = op.site
  · obtain ⟨opSite, call⟩ := op
    subst site
    rw [Function.update_self]
    obtain ⟨executes, _⟩ := List.getElem?_eq_some_iff.mp executed
    cases call with
    | put r =>
        obtain ⟨earlier, _, origin, written⟩ := exchanges position opSite r executed
        rw [MemoryStore.write_clock_of_put]
        exact HLC.le_update (written.hasRoom room) _
    | putLocal document now => exact (HLC.lt_tick (room position executes.le opSite) now).le
    | delete collection id now => exact (HLC.lt_tick (room position executes.le opSite) now).le
  · rw [Function.update_of_ne same]

include exchanges room in
theorem le_clock {first last : Nat} (ordered : first ≤ last) (executes : last ≤ history.length)
    (site : ι) :
    ((start.run (history.take first)) site).clock ≤
      ((start.run (history.take last)) site).clock := by
  induction last, ordered using Nat.le_induction with
  | base => exact le_rfl
  | succ last _ ih =>
      have executed : history[last]? = some history[last] := List.getElem?_eq_getElem executes
      exact (ih (Nat.le_of_succ_le executes)).trans
        (le_clock_succ exchanges room executed site)

omit exchanges in
include room in
theorem Writes.clock_lt {position : Nat} {site : ι} {r : Record}
    (written : start.Writes history position site r) :
    ((start.run (history.take position)) site).clock < r.clock := by
  obtain ⟨call, now, executed, read, rfl⟩ := written
  obtain ⟨executes, _⟩ := List.getElem?_eq_some_iff.mp executed
  rw [(MemoryStore.write_clock_of_reading _ read).2]
  exact HLC.lt_tick (room position executes.le site) now

omit exchanges room in
theorem Writes.clock_eq {position : Nat} {site : ι} {r : Record}
    (written : start.Writes history position site r) :
    ((start.run (history.take (position + 1))) site).clock = r.clock := by
  obtain ⟨call, now, executed, read, rfl⟩ := written
  obtain ⟨stored, returned⟩ := MemoryStore.write_clock_of_reading
    ((start.run (history.take position)) site) read
  rw [run_take_succ executed, step, Function.update_self, stored, returned]

include exchanges room in
theorem clock_lt_of_put {position : Nat} {site : ι} {r : Record}
    (executed : history[position]? = some ⟨site, .put r⟩) :
    r.clock < ((start.run (history.take (position + 1))) site).clock := by
  obtain ⟨earlier, _, origin, written⟩ := exchanges position site r executed
  rw [run_take_succ executed, step, Function.update_self, MemoryStore.write_clock_of_put]
  exact HLC.lt_update (written.hasRoom room) _

include exchanges room in
theorem Direct.clock_lt {a b : Nat} (direct : start.Direct history a b) {siteA siteB : ι}
    {writtenA writtenB : Record} (first : start.Writes history a siteA writtenA)
    (second : start.Writes history b siteB writtenB) : writtenA.clock < writtenB.clock := by
  obtain ⟨originA, originB, left, right, isLeft, isRight, edge⟩ := direct
  obtain ⟨rfl, rfl⟩ := isLeft.unique first
  obtain ⟨rfl, rfl⟩ := isRight.unique second
  obtain ⟨_, _, executed, _, _⟩ := second
  obtain ⟨executes, _⟩ := List.getElem?_eq_some_iff.mp executed
  have stamped := isRight.clock_lt room
  rcases edge with ⟨rfl, earlier⟩ | ⟨ingest, earlier, put⟩
  · have kept := le_clock exchanges room earlier executes.le originA
    rw [first.clock_eq] at kept
    exact kept.trans_lt stamped
  · have passed := clock_lt_of_put exchanges room put
    exact passed.trans_le ((le_clock exchanges room earlier executes.le originB).trans stamped.le)

end Run

end Cluster

/-- The clocks of local writes respect causality. -/
theorem happensBefore_clock_lt (start : Cluster ι) (history : List (Operation ι))
    (exchanges : start.Exchanges history) (room : start.CountersHaveRoom history)
    {a b : Nat} (before : start.HappensBefore history a b) {siteA siteB : ι}
    {writtenA writtenB : Record} (first : start.Writes history a siteA writtenA)
    (second : start.Writes history b siteB writtenB) :
    writtenB.clock.greaterThan writtenA.clock = true := by
  rw [HLC.greaterThan_iff]
  induction before generalizing siteB writtenB with
  | single direct => exact direct.clock_lt exchanges room first second
  | tail _ direct ih =>
      have ⟨_, _, _, _, written, _, _⟩ := direct
      exact (ih written).trans (direct.clock_lt exchanges room written second)

/-- A record crosses to a store whose physical clock is far behind. -/
theorem happensBefore_clock_lt_delivery :
    let start : Cluster Bool := fun site =>
      newMemoryStore (if site then ascii ['a'] else ascii ['b']) 10
    let document : Record := { Record.zero with id := ascii ['x'] }
    let written := ((start true).putLocal document 6000).1
    let removed := (((start false).put written).2.2.delete [] (ascii ['x']) 11).1
    written.clock = ⟨6000, 0⟩ ∧ removed.clock = ⟨6000, 2⟩ ∧
      removed.clock.greaterThan written.clock = true := by
  intro start document written removed
  let history : List (Operation Bool) :=
    [⟨true, .putLocal document 6000⟩, ⟨false, .put written⟩,
      ⟨false, .delete [] (ascii ['x']) 11⟩]
  have first : start.Writes history 0 true written := ⟨_, 6000, rfl, rfl, rfl⟩
  have second : start.Writes history 2 false removed := ⟨_, 11, rfl, rfl, by decide⟩
  have exchanges : start.Exchanges history := by
    intro position site r executed
    match position with
    | 0 => simp [history] at executed
    | 1 =>
        simp only [history, List.getElem?_cons_succ, List.getElem?_cons_zero,
          Option.some.injEq, Operation.mk.injEq, Write.put.injEq] at executed
        obtain ⟨_, rfl⟩ := executed
        exact ⟨0, Nat.one_pos, true, first⟩
    | 2 => simp [history] at executed
    | _ + 3 => simp [history] at executed
  have room : start.CountersHaveRoom history := by
    unfold Cluster.CountersHaveRoom
    decide
  have before : start.HappensBefore history 0 2 :=
    .single ⟨true, false, written, removed, first, second, .inr ⟨1, by decide, rfl⟩⟩
  exact ⟨by decide, by decide,
    happensBefore_clock_lt start history exchanges room before first second⟩

end NellDB
