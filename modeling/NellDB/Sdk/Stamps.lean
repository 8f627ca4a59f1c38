import NellDB.Sdk.Commit

namespace NellDB

open Data

/-! The clocks that one database stamps on its own writes. -/

inductive DocAction where
  | call (call : LocalCall)
  | ingest (env : CallEnv) (r : Record)

def CallEnv.readings (env : CallEnv) : List Int64 :=
  [env.missing, env.fresh, env.tick, env.metaFresh, env.metaTick]

def DocAction.readings : DocAction → List Int64
  | .call issued => issued.env.readings
  | .ingest env _ => env.readings

namespace DocDB

section

variable (platform : Platform)

def act (db : DocDB) : DocAction → DocDB
  | .call call => db.call platform call
  | .ingest env r => db.ingestRemote platform env r

def stamped (db : DocDB) : DocAction → Option HLC
  | .call call => (db.writes platform call).map Record.clock
  | .ingest _ _ => none

def stamps : DocDB → List DocAction → List HLC
  | _, [] => []
  | db, action :: rest =>
      (db.stamped platform action).toList ++ stamps (db.act platform action) rest

end

/-- The write is ticked past the earlier stamp, or merges a clock of its
document that is not before it. -/
def Follows (db : DocDB) (earlier : HLC) (env : CallEnv) (id : GoString) : Prop :=
  earlier.wallTime < env.tick ∨
    ∃ clock, db.storedClock id = some clock ∧ earlier ≤ clock ∧ clock.HasRoomForTwo

def ActionFollows (db : DocDB) (earlier : HLC) : DocAction → Prop
  | .call call => db.Follows earlier call.env call.id
  | .ingest _ _ => True

def Spaced (platform : Platform) : DocDB → (last : Option HLC) → List DocAction → Prop
  | _, _, [] => True
  | db, last, action :: rest =>
      (∀ earlier, last = some earlier → db.ActionFollows earlier action) ∧
        Spaced platform (db.act platform action)
          ((db.stamped platform action).or last) rest

theorem lt_stampFor_of_tick {earlier : HLC} {env : CallEnv}
    (later : earlier.wallTime < env.tick) (existing : Option HLC) :
    earlier < stampFor env existing :=
  HLC.lt_tick_of_wallTime_lt later _

theorem lt_stampFor_of_room {clock : HLC} (room : clock.HasRoomForTwo) (env : CallEnv) :
    clock < stampFor env (some clock) :=
  (HLC.lt_update room.hasRoom (newHLC env.fresh)).trans
    (HLC.lt_tick (room.hasRoom_update env.fresh) env.tick)

theorem LocalWrite.lt_clock {db : DocDB} {env : CallEnv} {id : GoString} {r : Record}
    (written : LocalWrite db env id r) {earlier : HLC}
    (follows : db.Follows earlier env id) : earlier < r.clock := by
  obtain ⟨existing, stamp, merged⟩ := written.clock
  rw [stamp]
  rcases follows with later | ⟨clock, found, below, room⟩
  · exact lt_stampFor_of_tick later existing
  · rw [merged clock found]
    exact below.trans_lt (lt_stampFor_of_room room env)

/-- A write with a later clock than the stored record is what is stored next. -/
theorem LocalWrite.lookup_afterPut_of_lt {db : DocDB} {env : CallEnv} {id : GoString}
    {r : Record} (written : LocalWrite db env id r)
    (later : ∀ clock, db.storedClock id = some clock → clock < r.clock) :
    (db.store.afterPut r).records.lookup (flatKey db.collection id) = some r := by
  have same := Record.defaulted_of_named written.named
  rw [MemoryStore.afterPut_records, same, Champion.enter_eq_insert, ← written.placed,
    Finmap.lookup_insert]
  intro held found
  rw [written.placed] at found
  have clock : db.storedClock id = some held.clock := by
    rw [storedClock_eq, stored, found]
    rfl
  exact .inr (Record.stamp_lt_of_clock_lt (later held.clock clock))

theorem lt_stamped {platform : Platform} {db : DocDB} (wellFormed : WellFormed db.store)
    {earlier clock : HLC} {action : DocAction}
    (follows : db.ActionFollows earlier action)
    (stamp : db.stamped platform action = some clock) : earlier < clock := by
  cases action with
  | call call =>
      rcases call_cases platform wellFormed call with ⟨nothing, _⟩ | ⟨r, _, writes, written, _⟩
      · simp [stamped, nothing] at stamp
      · simp only [stamped, writes, Option.map_some, Option.some.injEq] at stamp
        rw [← stamp]
        exact written.lt_clock follows
  | ingest env r => contradiction

end DocDB

theorem WellFormed.act {db : DocDB} (wellFormed : WellFormed db.store)
    (platform : Platform) (action : DocAction) :
    WellFormed (db.act platform action).store := by
  cases action with
  | call call => exact wellFormed.call platform call
  | ingest env r => exact wellFormed.ingestRemote platform env r

namespace DocDB

theorem isChain_stamps {platform : Platform} {db : DocDB} (wellFormed : WellFormed db.store)
    {last : Option HLC} {actions : List DocAction}
    (spaced : Spaced platform db last actions) :
    (last.toList ++ stamps platform db actions).IsChain (· < ·) := by
  induction actions generalizing db last with
  | nil => cases last <;> simp [stamps]
  | cons action rest ih =>
      obtain ⟨follows, onward⟩ := spaced
      have chain := ih (wellFormed.act platform action) onward
      cases stamp : db.stamped platform action with
      | none => simpa [stamps, stamp] using chain
      | some clock =>
          rw [stamp, Option.some_or, Option.toList_some] at chain
          cases last with
          | none => simpa [stamps, stamp] using chain
          | some earlier =>
              have step := lt_stamped wellFormed (follows earlier rfl) stamp
              simpa [stamps, stamp] using ⟨step, chain⟩

end DocDB

/-- The local writes of a run in which each follows the last one before it
carry strictly increasing clocks. -/
theorem stamps_increasing {platform : Platform} {db : DocDB} (wellFormed : WellFormed db.store)
    {actions : List DocAction} (spaced : DocDB.Spaced platform db none actions) :
    (DocDB.stamps platform db actions).Pairwise fun earlier later =>
      later.greaterThan earlier = true := by
  simp only [HLC.greaterThan_iff]
  exact List.isChain_iff_pairwise.mp (DocDB.isChain_stamps wellFormed spaced)

theorem stamps_increasing_two_documents :
    let db := newDocDB .revOnly (newMemoryStore [] 0) (ascii ['n']) [] []
    let actions : List DocAction :=
      [.call (.put (.at 1000) (Finmap.singleton fieldID (.string (ascii ['x'])))),
        .call (.put (.at 1001) (Finmap.singleton fieldID (.string (ascii ['y']))))]
    (DocDB.stamps .revOnly db actions).Pairwise fun earlier later =>
      later.greaterThan earlier = true := by
  intro db actions
  apply stamps_increasing
  · exact wellFormed_newMemoryStore [] 0
  · refine ⟨by simp, ?_, trivial⟩
    intro earlier stamped
    have first : db.stamped .revOnly
        (.call (.put (.at 1000) (Finmap.singleton fieldID (.string (ascii ['x']))))) =
        some ⟨1000, 1⟩ := by
      decide +kernel
    rw [first, Option.some_or, Option.some.injEq] at stamped
    rw [← stamped]
    exact .inl (by decide)

/-- Two documents written in one millisecond are stamped alike: a fresh clock
knows nothing of the writes to other documents. -/
theorem stamps_repeated :
    let db := newDocDB .revOnly (newMemoryStore [] 0) (ascii ['n']) [] []
    let actions : List DocAction :=
      [.call (.put (.at 1000) (Finmap.singleton fieldID (.string (ascii ['x'])))),
        .call (.put (.at 1000) (Finmap.singleton fieldID (.string (ascii ['y']))))]
    (actions.flatMap DocAction.readings).Pairwise (· ≤ ·) ∧
      DocDB.stamps .revOnly db actions = [⟨1000, 1⟩, ⟨1000, 1⟩] ∧
      ¬ (DocDB.stamps .revOnly db actions).Pairwise fun earlier later =>
        later.greaterThan earlier = true := by
  decide +kernel

end NellDB
