import Mathlib.Data.List.TakeWhile
import NellDB.Data.Atoi
import NellDB.Sdk.History

namespace NellDB

open Data

/-! The generations of the revisions that local writes assign, from any revision that
a peer may have sent. -/

def parseGen (rev : GoString) : Int64 :=
  if rev = [] then 0 else (strconvAtoi (rev.takeWhile (· ≠ 45))).1

/-- The text of the generation, without a plus sign. -/
def generationText (rev : GoString) : Bytes := (splitSign (rev.takeWhile (· ≠ 45))).2

/-- The generation can be raised by so many writes.  A text of digits is a number with
room above it; any other text is no number, and does not start like one of more
than 64 bits. -/
def LeavesRoom (rev : GoString) (writes : Nat) : Prop :=
  if allDigits (generationText rev) then
    leadingNumber (generationText rev) + writes < 2 ^ 63
  else
    leadingNumber (generationText rev) < 2 ^ 64 ∧ writes < 2 ^ 63

instance (rev : GoString) (writes : Nat) : Decidable (LeavesRoom rev writes) :=
  inferInstanceAs (Decidable (if allDigits (generationText rev) then _ < _ else _ < _ ∧ _ < _))

theorem splitSign_takeWhile (rev : GoString) :
    (splitSign (rev.takeWhile (· ≠ 45))).1 = false := by
  unfold splitSign
  split
  next digits same =>
      have member : (45 : Byte) ∈ rev.takeWhile (· ≠ 45) := by
        rw [same]
        exact List.mem_cons_self
      simpa using List.mem_takeWhile_imp member
  next => rfl
  next => rfl

theorem parseGen_eq (rev : GoString) :
    parseGen rev = (strconvAtoi (rev.takeWhile (· ≠ 45))).1 := by
  unfold parseGen
  split
  next empty =>
      subst empty
      decide
  next => rfl

theorem nextGeneration_of_refused {rev : GoString}
    (refused : (strconvAtoi (rev.takeWhile (· ≠ 45))).2 ≠ none) : nextGeneration rev = 1 := by
  have unread : atoi (rev.takeWhile (· ≠ 45)) = none := by
    rw [Option.eq_none_iff_forall_ne_some]
    intro value read
    rw [atoi_eq_some_iff.mp read] at refused
    contradiction
  unfold nextGeneration
  rw [unread]
  split <;> rfl

/-- What the two readers of a revision make of its generation: the number that is
parsed, and the generation that follows. -/
inductive Reading (rev : GoString) : (parsed next : Int64) → Prop
  | number (digits : allDigits (generationText rev))
      (small : leadingNumber (generationText rev) < 2 ^ 63) {parsed next : Int64}
      (value : parsed.toInt = leadingNumber (generationText rev)) (follows : next = parsed + 1) :
      Reading rev parsed next
  | clamped (large : if allDigits (generationText rev)
        then 2 ^ 63 ≤ leadingNumber (generationText rev)
        else 2 ^ 64 ≤ leadingNumber (generationText rev)) :
      Reading rev Int64.maxValue 1
  | malformed (text : ¬ allDigits (generationText rev))
      (small : leadingNumber (generationText rev) < 2 ^ 64) : Reading rev 0 1

theorem Reading.of_refused {rev : GoString} {parsed : Int64} {failure : AtoiError}
    (refused : strconvAtoi (rev.takeWhile (· ≠ 45)) = (parsed, some failure))
    (result : Reading rev parsed 1) : Reading rev (parseGen rev) (nextGeneration rev) := by
  have restarted : nextGeneration rev = 1 := by
    apply nextGeneration_of_refused
    rw [refused]
    exact Option.some_ne_none failure
  rw [parseGen_eq, restarted, refused]
  exact result

theorem nextGeneration_of_read {rev : GoString} {parsed : Int64}
    (read : strconvAtoi (rev.takeWhile (· ≠ 45)) = (parsed, none))
    (natural : 0 ≤ parsed.toInt) : nextGeneration rev = parsed + 1 := by
  unfold nextGeneration
  rw [atoi_eq_some_iff.mpr read]
  split
  next empty =>
      subst empty
      cases read
  next =>
      dsimp only
      split
      next => rfl
      next notPositive =>
          have zero : parsed = 0 := by
            rw [gt_iff_lt, Int64.lt_iff_toInt_lt, Int64.toInt_zero] at notPositive
            rw [← Int64.toInt_inj, Int64.toInt_zero]
            omega
          rw [zero]
          rfl

theorem reading (rev : GoString) : Reading rev (parseGen rev) (nextGeneration rev) := by
  have parsed := strconvAtoi_unsigned (splitSign_takeWhile rev)
  rw [show (splitSign (rev.takeWhile (· ≠ 45))).2 = generationText rev from rfl] at parsed
  by_cases beyond : 2 ^ 64 ≤ leadingNumber (generationText rev)
  · rw [parseUint_of_large beyond] at parsed
    apply Reading.of_refused parsed
    apply Reading.clamped
    split
    next => omega
    next => exact beyond
  have small := not_le.mp beyond
  rw [parseUint_of_lt small] at parsed
  by_cases digits : allDigits (generationText rev)
  · by_cases empty : generationText rev = []
    · -- No text at all is refused, and counts as zero all the same.
      rw [if_neg fun number => number.1 empty] at parsed
      have zero : leadingNumber (generationText rev) = 0 := by
        rw [empty]
        rfl
      apply Reading.of_refused parsed
      apply Reading.number digits
      · omega
      · rw [zero]
        rfl
      · rfl
    · rw [if_pos ⟨empty, digits⟩] at parsed
      dsimp only at parsed
      split at parsed
      next large =>
          apply Reading.of_refused parsed
          apply Reading.clamped
          rw [if_pos digits]
          exact large
      next fits =>
          have value : (Int64.ofInt (leadingNumber (generationText rev))).toInt =
              leadingNumber (generationText rev) := by
            apply Int64.toInt_ofInt_of_le
            · omega
            · omega
          have next := nextGeneration_of_read parsed (by omega)
          rw [parseGen_eq, parsed]
          exact .number digits (not_le.mp fits) value next
  · rw [if_neg fun number => digits number.2] at parsed
    exact Reading.of_refused parsed (.malformed digits small)

/-- The generation of a new revision is read as it was written; a negative one is
taken for zero, because its sign is the separator. -/
theorem parseGen_genRev (sha1 : Bytes → Bytes) (prev : GoString) (body : Bytes) :
    parseGen (genRev sha1 prev body) =
      if (nextGeneration prev).toInt < 0 then 0 else nextGeneration prev := by
  have read := atoi_genRev sha1 prev body
  rw [parseGen_eq]
  split
  next negative =>
      have empty : (genRev sha1 prev body).takeWhile (· ≠ 45) = [] := by
        rw [genRev, itoa, if_pos negative]
        rfl
      rw [empty]
      rfl
  next natural =>
      rw [if_neg natural] at read
      rw [atoi_eq_some_iff.mp read]

/-- A generation is clamped by one reader and dropped by the other, or it is one that
the next revision counts on from. -/
theorem generation_cases (prev : GoString) :
    (parseGen prev = Int64.maxValue ∧ nextGeneration prev = 1 ∧
      ∀ writes, ¬ LeavesRoom prev writes) ∨
    (0 ≤ (parseGen prev).toInt ∧ nextGeneration prev = parseGen prev + 1 ∧
      ∀ writes, LeavesRoom prev writes ↔ (parseGen prev).toInt + writes < 2 ^ 63) := by
  unfold LeavesRoom
  have read := reading prev
  generalize parseGen prev = parsed at read
  generalize nextGeneration prev = next at read
  cases read with
  | number digits small value follows =>
      refine .inr ⟨by omega, follows, ?_⟩
      intro writes
      rw [if_pos digits, value]
      omega
  | clamped large =>
      refine .inl ⟨rfl, rfl, ?_⟩
      intro writes
      split
      next digits =>
          rw [if_pos digits] at large
          omega
      next text =>
          rw [if_neg text] at large
          omega
  | malformed text small =>
      refine .inr ⟨by decide, by decide, ?_⟩
      intro writes
      rw [if_neg text, Int64.toInt_zero]
      omega

/-- One write: the generation rises if there is room for it, and otherwise falls. -/
theorem parseGen_step (sha1 : Bytes → Bytes) (prev : GoString) (body : Bytes) :
    LeavesRoom prev 1 ∧ (parseGen (genRev sha1 prev body)).toInt = (parseGen prev).toInt + 1 ∨
      ¬ LeavesRoom prev 1 ∧
        (parseGen (genRev sha1 prev body)).toInt < (parseGen prev).toInt := by
  rw [parseGen_genRev]
  rcases generation_cases prev with ⟨parsed, next, noRoom⟩ | ⟨natural, next, room⟩
  · refine .inr ⟨noRoom 1, ?_⟩
    rw [parsed, next]
    decide
  · rw [next]
    by_cases last : parseGen prev = Int64.maxValue
    · -- The sum wraps to the least number, which is read back as zero.
      rw [room 1, last]
      exact .inr ⟨by decide, by decide⟩
    · have succ := toInt_succ last
      have bound := (parseGen prev + 1).toInt_lt
      rw [if_neg (by omega), succ]
      rw [succ] at bound
      exact .inl ⟨(room 1).mpr (by exact_mod_cast bound), rfl⟩

theorem parseGen_lt_genRev_iff (sha1 : Bytes → Bytes) (prev : GoString) (body : Bytes) :
    parseGen prev < parseGen (genRev sha1 prev body) ↔ LeavesRoom prev 1 := by
  rw [Int64.lt_iff_toInt_lt]
  rcases parseGen_step sha1 prev body with ⟨room, rises⟩ | ⟨noRoom, falls⟩
  · exact ⟨fun _ => room, fun _ => by omega⟩
  · exact ⟨fun _ => by omega, fun room => absurd room noRoom⟩

/-- A revision that was just assigned has room up to the largest generation. -/
theorem leavesRoom_genRev_iff {sha1 : Bytes → Bytes} {prev : GoString} {body : Bytes}
    (natural : ¬ (nextGeneration prev).toInt < 0) (writes : Nat) :
    LeavesRoom (genRev sha1 prev body) writes ↔
      (parseGen (genRev sha1 prev body)).toInt + writes < 2 ^ 63 := by
  rcases generation_cases (genRev sha1 prev body) with ⟨parsed, restarts, _⟩ | ⟨_, _, room⟩
  · have read := atoi_genRev sha1 prev body
    rw [if_neg natural] at read
    have counted := nextGeneration_of_read (atoi_eq_some_iff.mp read) (not_lt.mp natural)
    rw [parseGen_genRev, if_neg natural] at parsed
    rw [counted, parsed] at restarts
    exact absurd restarts (by decide)
  · exact room writes

theorem leavesRoom_succ_iff (sha1 : Bytes → Bytes) (prev : GoString) (body : Bytes)
    (writes : Nat) : LeavesRoom prev (writes + 1) ↔
      LeavesRoom prev 1 ∧ LeavesRoom (genRev sha1 prev body) writes := by
  rcases generation_cases prev with ⟨_, _, noRoom⟩ | ⟨natural, next, room⟩
  · simp [noRoom]
  · rw [room, room 1]
    rcases parseGen_step sha1 prev body with ⟨one, rises⟩ | ⟨none, _⟩
    · have positive : ¬ (nextGeneration prev).toInt < 0 := by
        intro negative
        rw [parseGen_genRev, if_pos negative, Int64.toInt_zero] at rises
        omega
      rw [leavesRoom_genRev_iff positive, rises]
      omega
    · rw [room 1] at none
      omega

/-- The revisions of a chain of writes, each from the one before. -/
def revisionChain (sha1 : Bytes → Bytes) : (prev : GoString) → List Bytes → List GoString
  | _, [] => []
  | prev, body :: bodies =>
      genRev sha1 prev body :: revisionChain sha1 (genRev sha1 prev body) bodies

theorem isChain_revisionChain_iff (sha1 : Bytes → Bytes) (prev : GoString) (body : Bytes)
    (bodies : List Bytes) :
    (prev :: revisionChain sha1 prev (body :: bodies)).IsChain
        (fun earlier later => parseGen earlier < parseGen later) ↔
      LeavesRoom prev (bodies.length + 1) := by
  induction bodies generalizing prev body with
  | nil =>
      simp only [revisionChain, List.isChain_cons_cons, List.isChain_singleton, and_true]
      exact parseGen_lt_genRev_iff sha1 prev body
  | cons next bodies ih =>
      rw [revisionChain, List.isChain_cons_cons, parseGen_lt_genRev_iff, ih, List.length_cons,
        ← leavesRoom_succ_iff]

namespace DocDB

/-- The revisions that a run of local calls assigns to a document. -/
def assigned (platform : Platform) (id : GoString) : DocDB → List LocalCall → List GoString
  | _, [] => []
  | db, call :: calls =>
      match db.outcome platform call with
      | .ok rev =>
          if call.id = id then
            rev :: assigned platform id (db.call platform call) calls
          else
            assigned platform id (db.call platform call) calls
      | .error _ => assigned platform id (db.call platform call) calls

/-- Whatever else is written and refused meanwhile, the writes of one document are a
chain from its cached revision. -/
theorem assigned_eq_revisionChain (platform : Platform) {db : DocDB}
    (wellFormed : WellFormed db.store) {id prev : GoString}
    (cached : db.revs.lookup id = some prev) (revised : prev ≠ []) (calls : List LocalCall) :
    ∃ bodies, db.assigned platform id calls = revisionChain platform.sha1 prev bodies := by
  induction calls generalizing db prev with
  | nil => exact ⟨[], rfl⟩
  | cons call calls ih =>
      have kept := wellFormed.call platform call
      rw [assigned]
      rcases call_assigns platform wellFormed call with
        ⟨⟨failure, refused⟩, same⟩ | ⟨rev, r, accepted, assigns, written⟩
      · rw [refused, same]
        exact ih wellFormed cached revised
      · have revs : (db.call platform call).revs = db.revs.insert call.id rev := by
          rw [written, commit_revs]
        rw [accepted]
        dsimp only
        split
        next mine =>
            obtain ⟨requireExisting, base, body, based, isNew⟩ := assigns.continued
            have current := (baseRev_ok based).2 prev (mine ▸ cached) revised
            subst current isNew
            obtain ⟨bodies, onward⟩ := ih kept
              (by rw [revs, mine, Finmap.lookup_insert]) (genRev_ne_nil _ _ _)
            exact ⟨body :: bodies, congrArg _ onward⟩
        next other =>
            apply ih kept _ revised
            rw [revs, Finmap.lookup_insert_of_ne _ (Ne.symm other), cached]

end DocDB

/-- A new revision is never the one before it.  Its generation is higher exactly when
the earlier one leaves room, and so it is along a chain of writes; the local
writes of a document are such chains. -/
theorem generations_rise_iff (platform : Platform) (prev : GoString) (body : Bytes)
    (bodies : List Bytes) :
    genRev platform.sha1 prev body ≠ prev ∧
    (parseGen prev < parseGen (genRev platform.sha1 prev body) ↔ LeavesRoom prev 1) ∧
    ((prev :: revisionChain platform.sha1 prev (body :: bodies)).IsChain
        (fun earlier later => parseGen earlier < parseGen later) ↔
      LeavesRoom prev (bodies.length + 1)) ∧
    ∀ (db : DocDB) (id : GoString) (calls : List LocalCall), WellFormed db.store →
      db.revs.lookup id = some prev → prev ≠ [] →
      ∃ bodies, db.assigned platform id calls = revisionChain platform.sha1 prev bodies := by
  refine ⟨genRev_ne platform.sha1 prev body, parseGen_lt_genRev_iff platform.sha1 prev body,
    isChain_revisionChain_iff platform.sha1 prev body bodies, ?_⟩
  intro db id calls wellFormed cached revised
  exact DocDB.assigned_eq_revisionChain platform wellFormed cached revised calls

theorem generations_rise_three :
    LeavesRoom (ascii ['7', '-', 'x']) 3 ∧
      (ascii ['7', '-', 'x'] :: revisionChain Platform.revOnly.sha1 (ascii ['7', '-', 'x'])
        [[], [123, 125], []]).IsChain (fun earlier later => parseGen earlier < parseGen later) := by
  have room : LeavesRoom (ascii ['7', '-', 'x']) 3 := by decide
  exact ⟨room, (generations_rise_iff .revOnly (ascii ['7', '-', 'x']) [] [[123, 125], []]).2.2.1.mpr
    room⟩

/-- The largest generation. -/
def lastRev : GoString := itoa Int64.maxValue ++ ascii ['-', 'x']

/-- A generation of twenty digits, all nines. -/
def longRev : GoString := decimalFrom 20 (10 ^ 20 - 1) ++ ascii ['-', 'x']

/-- A document of a peer with the given revision. -/
def peerDocument (rev : GoString) : Record :=
  { Record.zero with
    collection := defaultCollection
    id := ascii ['x']
    type := typeText
    payload := JsonCodec.openRev ++ rev ++ JsonCodec.closeRev
    clock := ⟨1000, 0⟩
    updatedBy := ascii ['m'] }

def afterIngest (rev : GoString) : DocDB :=
  (newDocDB .revOnly (newMemoryStore [] 0) (ascii ['n']) [] []).ingestRemote .revOnly (.at 1000)
    (peerDocument rev)

/-- The largest generation is followed by the least one, whose text has no number
before its first separator; one that is too long is clamped on the one side and
restarts on the other. -/
theorem generation_falls :
    let first := (afterIngest lastRev).assigned .revOnly (ascii ['x'])
      [.put (.at 2000) xDocument]
    let second := (afterIngest longRev).assigned .revOnly (ascii ['x'])
      [.put (.at 2000) xDocument]
    first = [genRev Platform.revOnly.sha1 lastRev [123, 125]] ∧
      second = [genRev Platform.revOnly.sha1 longRev [123, 125]] ∧
      parseGen lastRev = Int64.maxValue ∧ first.map parseGen = [0] ∧
      parseGen longRev = Int64.maxValue ∧ second.map parseGen = [1] := by
  decide +kernel

end NellDB
