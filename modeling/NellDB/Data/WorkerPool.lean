import Mathlib.Data.List.Perm.Basic
import Mathlib.Logic.Relation
import Mathlib.Tactic

namespace NellDB.Data

/-! Workers load the items of their chunks and report to a collector over two
buffered channels, one for results and one for errors.  Both channels are
closed once every worker is done; the collector takes any ready case. -/

namespace WorkerPool

inductive Worker (φ : Type u) (ρ : Type v) where
  | loading (todo : List φ) (loaded : List ρ)
  | reported
  | done

namespace Worker

def todo : Worker φ ρ → List φ
  | loading todo _ => todo
  | reported => []
  | done => []

def isLoading : Worker φ ρ → Bool
  | loading _ _ => true
  | reported => false
  | done => false

/-- What the worker will still send if all its items load. -/
def pending (load : φ → Except ε ρ) : Worker φ ρ → List ρ
  | loading todo loaded => loaded ++ todo.filterMap fun item => (load item).toOption
  | reported => []
  | done => []

end Worker

/-- `returned` is the collector's return value: no error or an error. -/
structure State (φ : Type u) (ρ : Type v) (ε : Type w) where
  workers : List (Worker φ ρ)
  results : List (List ρ)
  errs : List ε
  resultsClosed : Bool
  errsClosed : Bool
  merged : List ρ
  returned : Option (Option ε)

def start (chunks : List (List φ)) : State φ ρ ε where
  workers := chunks.map fun chunk => .loading chunk []
  results := []
  errs := []
  resultsClosed := false
  errsClosed := false
  merged := []
  returned := none

/-- One step of a worker, of the goroutine that closes the channels, or of the
collector.  Both channels hold at most `capacity` messages. -/
inductive Step (capacity : Nat) (load : φ → Except ε ρ) :
    State φ ρ ε → State φ ρ ε → Prop
  | load (located : s.workers = before ++ .loading (item :: todo) loaded :: after)
      (ok : load item = .ok value) :
      Step capacity load s
        { s with workers := before ++ .loading todo (loaded ++ [value]) :: after }
  | fail (located : s.workers = before ++ .loading (item :: todo) loaded :: after)
      (failed : load item = .error error) (room : s.errs.length < capacity) :
      Step capacity load s
        { s with workers := before ++ .reported :: after, errs := s.errs ++ [error] }
  | send (located : s.workers = before ++ .loading [] loaded :: after)
      (room : s.results.length < capacity) :
      Step capacity load s
        { s with
          workers := before ++ .reported :: after
          results := s.results ++ [loaded] }
  | finish (located : s.workers = before ++ .reported :: after) :
      Step capacity load s { s with workers := before ++ .done :: after }
  | closeResults (allDone : ∀ worker ∈ s.workers, worker = .done)
      (opened : s.resultsClosed = false) :
      Step capacity load s { s with resultsClosed := true }
  | closeErrs (closed : s.resultsClosed = true) (opened : s.errsClosed = false) :
      Step capacity load s { s with errsClosed := true }
  | takeErr (running : s.returned = none) (ready : s.errs = error :: rest) :
      Step capacity load s { s with errs := rest, returned := some (some error) }
  | takeClosedErr (running : s.returned = none) (drained : s.errs = [])
      (closed : s.errsClosed = true) : Step capacity load s s
  | takeResult (running : s.returned = none) (ready : s.results = batch :: rest) :
      Step capacity load s { s with results := rest, merged := s.merged ++ batch }
  | takeClosedResult (running : s.returned = none) (drained : s.results = [])
      (closed : s.resultsClosed = true) :
      Step capacity load s { s with returned := some none }

def Reaches (capacity : Nat) (load : φ → Except ε ρ) :
    State φ ρ ε → State φ ρ ε → Prop :=
  Relation.ReflTransGen (Step capacity load)

structure Wired (capacity : Nat) (s : State φ ρ ε) : Prop where
  room : s.results.length + s.errs.length + s.workers.countP Worker.isLoading ≤ capacity
  closed : s.resultsClosed = true → ∀ worker ∈ s.workers, worker = .done
  drained : s.returned = some none → s.resultsClosed = true ∧ s.results = []

private theorem not_closed {s : State φ ρ ε} (wired : Wired capacity s)
    (located : s.workers = before ++ worker :: after) (busy : worker ≠ .done) :
    s.resultsClosed ≠ true := by
  intro closed
  exact busy (wired.closed closed worker (by simp [located]))

theorem wired_start {chunks : List (List φ)} (bounded : chunks.length ≤ capacity) :
    Wired capacity (start chunks : State φ ρ ε) where
  room := by
    have count : (chunks.map fun chunk => (Worker.loading chunk [] : Worker φ ρ)).countP
        Worker.isLoading ≤ chunks.length := by
      simpa using List.countP_le_length (p := Worker.isLoading)
        (l := chunks.map fun chunk => (Worker.loading chunk [] : Worker φ ρ))
    simpa [start] using count.trans bounded
  closed := by simp [start]
  drained := by simp [start]

theorem Wired.step {load : φ → Except ε ρ} {s t : State φ ρ ε}
    (wired : Wired capacity s) (step : Step capacity load s t) : Wired capacity t := by
  have room := wired.room
  cases step with
  | load located ok =>
      have opened := not_closed wired located (by simp)
      simp only [located, List.countP_append, List.countP_cons] at room
      exact ⟨by simpa [List.countP_cons, Worker.isLoading] using room,
        fun closed => absurd closed opened, wired.drained⟩
  | fail located failed _ =>
      have opened := not_closed wired located (by simp)
      simp only [located, List.countP_append, List.countP_cons, Worker.isLoading] at room
      refine ⟨?_, fun closed => absurd closed opened, wired.drained⟩
      simp [Worker.isLoading] at room ⊢
      omega
  | send located _ =>
      have opened := not_closed wired located (by simp)
      simp only [located, List.countP_append, List.countP_cons, Worker.isLoading] at room
      refine ⟨?_, fun closed => absurd closed opened,
        fun returned => absurd (wired.drained returned).1 opened⟩
      simp [Worker.isLoading] at room ⊢
      omega
  | finish located =>
      have opened := not_closed wired located (by simp)
      simp only [located, List.countP_append, List.countP_cons] at room
      exact ⟨by simpa [List.countP_cons, Worker.isLoading] using room,
        fun closed => absurd closed opened, wired.drained⟩
  | closeResults allDone _ =>
      exact ⟨room, fun _ => allDone, fun returned => ⟨rfl, (wired.drained returned).2⟩⟩
  | closeErrs => exact ⟨room, wired.closed, wired.drained⟩
  | takeErr running ready =>
      refine ⟨?_, wired.closed, by simp⟩
      simp only [ready, List.length_cons] at room
      simp only
      omega
  | takeClosedErr => exact wired
  | takeResult running ready =>
      refine ⟨?_, wired.closed, by simp [running]⟩
      simp only [ready, List.length_cons] at room
      simp only
      omega
  | takeClosedResult _ drained closed =>
      exact ⟨room, wired.closed, fun _ => ⟨closed, drained⟩⟩

theorem Wired.reaches {load : φ → Except ε ρ} {s t : State φ ρ ε}
    (wired : Wired capacity s) (reaches : Reaches capacity load s t) :
    Wired capacity t := by
  induction reaches with
  | refl => exact wired
  | tail _ step ih => exact ih.step step

/-! When every item loads, the loaded values are either merged, in flight or
still to be sent, and no error is reported. -/

structure Accounted (load : φ → Except ε ρ) (values : List ρ)
    (s : State φ ρ ε) : Prop where
  loads : ∀ worker ∈ s.workers, ∀ item ∈ worker.todo, ∃ value, load item = .ok value
  balance : (s.merged ++ s.results.flatten ++
    s.workers.flatMap (Worker.pending load)).Perm values
  errs : s.errs = []
  returned : ∀ error, s.returned ≠ some (some error)

def loadedValues (load : φ → Except ε ρ) (items : List φ) : List ρ :=
  items.filterMap fun item => (load item).toOption

theorem map_ok_loadedValues {load : φ → Except ε ρ} {items : List φ}
    (loads : ∀ item ∈ items, ∃ value, load item = .ok value) :
    (loadedValues load items).map Except.ok = items.map load := by
  induction items with
  | nil => rfl
  | cons item rest ih =>
      obtain ⟨value, ok⟩ := loads item List.mem_cons_self
      have tail := ih fun other member => loads other (List.mem_cons_of_mem item member)
      have head : loadedValues load (item :: rest) = value :: loadedValues load rest := by
        simp [loadedValues, ok, Except.toOption]
      rw [head, List.map_cons, List.map_cons, ok, tail]

theorem accounted_start {load : φ → Except ε ρ} {chunks : List (List φ)}
    (loads : ∀ item ∈ chunks.flatten, ∃ value, load item = .ok value) :
    Accounted load (loadedValues load chunks.flatten) (start chunks) where
  loads := by
    simp only [start, List.mem_map]
    rintro _ ⟨chunk, member, rfl⟩ item inChunk
    exact loads item (List.mem_flatten.mpr ⟨chunk, member, inChunk⟩)
  balance := by
    apply List.Perm.of_eq
    simp only [start, List.flatten_nil, List.append_nil, List.nil_append,
      List.flatMap_map, Worker.pending, loadedValues, List.filterMap_flatten]
    rfl
  errs := rfl
  returned := by simp [start]

private theorem loads_replace {load : φ → Except ε ρ}
    {before after : List (Worker φ ρ)} {old new : Worker φ ρ}
    (loads : ∀ worker ∈ before ++ old :: after, ∀ item ∈ worker.todo,
      ∃ value, load item = .ok value)
    (fewer : ∀ item ∈ new.todo, item ∈ old.todo) :
    ∀ worker ∈ before ++ new :: after, ∀ item ∈ worker.todo,
      ∃ value, load item = .ok value := by
  intro worker member
  rcases List.mem_append.mp member with earlier | later
  · exact loads worker (List.mem_append_left _ earlier)
  · rcases List.mem_cons.mp later with rfl | behind
    · intro item inTodo
      exact loads old (by simp) item (fewer item inTodo)
    · exact loads worker (by simp [behind])

theorem Accounted.step {load : φ → Except ε ρ} {values : List ρ}
    {s t : State φ ρ ε} (accounted : Accounted load values s)
    (step : Step capacity load s t) : Accounted load values t := by
  have loads := accounted.loads
  have balance := accounted.balance
  cases step with
  | load located ok =>
      rw [located] at loads balance
      refine ⟨loads_replace loads fun item inTodo => List.mem_cons_of_mem _ inTodo, ?_,
        accounted.errs, accounted.returned⟩
      simpa [Worker.pending, ok, Except.toOption] using balance
  | fail located failed _ =>
      rw [located] at loads
      obtain ⟨value, ok⟩ := loads _ (List.mem_append_right _ List.mem_cons_self) _
        List.mem_cons_self
      rw [failed] at ok
      contradiction
  | send located _ =>
      rw [located] at loads balance
      refine ⟨loads_replace loads (by simp [Worker.todo]), ?_,
        accounted.errs, accounted.returned⟩
      refine List.Perm.trans ?_ balance
      simp only [Worker.pending, List.flatten_append, List.flatten_cons,
        List.flatten_nil, List.append_nil, List.flatMap_append, List.flatMap_cons,
        List.filterMap_nil, List.nil_append, List.append_assoc]
      exact ((List.perm_append_comm_assoc _ _ _).append_left _).append_left _
  | finish located =>
      rw [located] at loads balance
      refine ⟨loads_replace loads (by simp [Worker.todo]), ?_,
        accounted.errs, accounted.returned⟩
      simpa [Worker.pending] using balance
  | closeResults => exact ⟨loads, balance, accounted.errs, accounted.returned⟩
  | closeErrs => exact ⟨loads, balance, accounted.errs, accounted.returned⟩
  | takeErr _ ready =>
      rw [accounted.errs] at ready
      contradiction
  | takeClosedErr => exact accounted
  | takeResult _ ready =>
      refine ⟨loads, ?_, accounted.errs, accounted.returned⟩
      simpa [ready] using balance
  | takeClosedResult => exact ⟨loads, balance, accounted.errs, by simp⟩

theorem Accounted.reaches {load : φ → Except ε ρ} {values : List ρ}
    {s t : State φ ρ ε} (accounted : Accounted load values s)
    (reaches : Reaches capacity load s t) : Accounted load values t := by
  induction reaches with
  | refl => exact accounted
  | tail _ step ih => exact ih.step step

/-- A collector that returned no error has merged every loaded value. -/
theorem merged_perm_of_returned_nil {load : φ → Except ε ρ} {chunks : List (List φ)}
    {s : State φ ρ ε} (bounded : chunks.length ≤ capacity)
    (loads : ∀ item ∈ chunks.flatten, ∃ value, load item = .ok value)
    (reaches : Reaches capacity load (start chunks) s)
    (returned : s.returned = some none) :
    (s.merged.map Except.ok).Perm (chunks.flatten.map load) := by
  have wired := (wired_start bounded).reaches reaches
  have balance := ((accounted_start loads).reaches reaches).balance
  obtain ⟨closed, drained⟩ := wired.drained returned
  have idle : s.workers.flatMap (Worker.pending load) = [] := by
    rw [List.flatMap_eq_nil_iff]
    intro worker member
    rw [wired.closed closed worker member]
    rfl
  have merged : s.merged.Perm (loadedValues load chunks.flatten) := by
    simpa [drained, idle] using balance
  rw [← map_ok_loadedValues loads]
  exact merged.map Except.ok

theorem returned_ne_error {load : φ → Except ε ρ} {chunks : List (List φ)}
    {s : State φ ρ ε}
    (loads : ∀ item ∈ chunks.flatten, ∃ value, load item = .ok value)
    (reaches : Reaches capacity load (start chunks) s) (error : ε) :
    s.returned ≠ some (some error) :=
  ((accounted_start loads).reaches reaches).returned error

/-! A schedule that runs every worker to its end, closes the results, drains
them and takes the closed channel returns no error, whatever failed. -/

private theorem reaches_reported {load : φ → Except ε ρ} {s : State φ ρ ε}
    (wired : Wired capacity s)
    (located : s.workers = before ++ .loading todo loaded :: after) :
    ∃ t, Reaches capacity load s t ∧ t.workers = before ++ .reported :: after ∧
      t.returned = s.returned := by
  have room := wired.room
  simp only [located, List.countP_append, List.countP_cons, Worker.isLoading] at room
  induction todo generalizing s loaded with
  | nil =>
      exact ⟨_, .single (.send located (by simp at room; omega)), rfl, rfl⟩
  | cons item todo ih =>
      cases outcome : load item with
      | error failure =>
          exact ⟨_, .single (.fail located outcome (by simp at room; omega)), rfl, rfl⟩
      | ok value =>
          have step : Step capacity load s _ := .load located outcome
          obtain ⟨t, reaches, workers, returned⟩ := ih (wired.step step) rfl room
          exact ⟨t, .head step reaches, workers, returned⟩

private theorem reaches_done (load : φ → Except ε ρ) {s : State φ ρ ε}
    (wired : Wired capacity s) (located : s.workers = before ++ worker :: after) :
    ∃ t, Reaches capacity load s t ∧ t.workers = before ++ .done :: after ∧
      t.returned = s.returned := by
  cases worker with
  | loading todo loaded =>
      obtain ⟨t, reaches, workers, returned⟩ := reaches_reported wired located
      exact ⟨_, reaches.tail (.finish workers), rfl, returned⟩
  | reported => exact ⟨_, .single (.finish located), rfl, rfl⟩
  | done => exact ⟨s, .refl, located, rfl⟩

private theorem reaches_all_done (load : φ → Except ε ρ) {s : State φ ρ ε}
    (wired : Wired capacity s) (located : s.workers = finished ++ waiting)
    (allDone : ∀ worker ∈ finished, worker = .done) :
    ∃ t, Reaches capacity load s t ∧ (∀ worker ∈ t.workers, worker = .done) ∧
      t.returned = s.returned := by
  induction waiting generalizing s finished with
  | nil => exact ⟨s, .refl, by simpa [located] using allDone, rfl⟩
  | cons worker rest ih =>
      obtain ⟨t, reaches, workers, returned⟩ := reaches_done load wired located
      have split : t.workers = (finished ++ [.done]) ++ rest := by simp [workers]
      obtain ⟨u, onward, idle, same⟩ := ih (wired.reaches reaches) split (by
        intro other member
        rcases List.mem_append.mp member with earlier | last
        · exact allDone other earlier
        · exact List.mem_singleton.mp last)
      exact ⟨u, reaches.trans onward, idle, same.trans returned⟩

private theorem reaches_nil_of_closed (capacity : Nat) (load : φ → Except ε ρ)
    {s : State φ ρ ε}
    (closed : s.resultsClosed = true) (running : s.returned = none) :
    ∃ t, Reaches capacity load s t ∧ t.returned = some none := by
  generalize held : s.results = results
  induction results generalizing s with
  | nil => exact ⟨_, .single (.takeClosedResult running held closed), rfl⟩
  | cons batch rest ih =>
      have step : Step capacity load s { s with
          results := rest, merged := s.merged ++ batch } := .takeResult running held
      obtain ⟨t, reaches, returned⟩ := ih (s := { s with
        results := rest, merged := s.merged ++ batch }) closed running rfl
      exact ⟨t, .head step reaches, returned⟩

theorem reaches_returned_nil (load : φ → Except ε ρ) {s : State φ ρ ε}
    (wired : Wired capacity s) (running : s.returned = none) :
    ∃ t, Reaches capacity load s t ∧ t.returned = some none := by
  obtain ⟨t, reaches, allDone, returned⟩ :=
    reaches_all_done load wired (List.nil_append s.workers).symm (by simp)
  have stillRunning := returned.trans running
  cases closed : t.resultsClosed with
  | true =>
      obtain ⟨u, onward, result⟩ :=
        reaches_nil_of_closed capacity load closed stillRunning
      exact ⟨u, reaches.trans onward, result⟩
  | false =>
      have step : Step capacity load t { t with resultsClosed := true } :=
        .closeResults allDone closed
      obtain ⟨u, onward, result⟩ :=
        reaches_nil_of_closed capacity load (s := { t with resultsClosed := true })
          rfl stillRunning
      exact ⟨u, (reaches.tail step).trans onward, result⟩

end WorkerPool

end NellDB.Data
