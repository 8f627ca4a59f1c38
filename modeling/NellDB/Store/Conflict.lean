import NellDB.Record
import NellDB.Data.Watermark

namespace NellDB

open Data

abbrev KnowledgeVector := FiniteMap GoString HLC

namespace KnowledgeVector

def update (kv : KnowledgeVector) (nodeID : GoString) (clock : HLC) :
    KnowledgeVector :=
  match kv.lookup nodeID with
  | none => kv.insert nodeID clock
  | some existing =>
      if clock.greaterThan existing then kv.insert nodeID clock else kv

theorem update_eq_raise (kv : KnowledgeVector) (nodeID : GoString) (clock : HLC) :
    kv.update nodeID clock = Watermark.raise kv nodeID clock := by
  unfold update Watermark.raise
  cases kv.lookup nodeID with
  | none => rfl
  | some existing => simp only [HLC.greaterThan_iff]

end KnowledgeVector

def orDefault (collection : GoString) : GoString :=
  if collection = [] then defaultCollection else collection

theorem orDefault_of_ne {collection : GoString} (named : collection ≠ []) :
    orDefault collection = collection :=
  if_neg named

theorem orDefault_ne_nil (collection : GoString) : orDefault collection ≠ [] := by
  unfold orDefault
  split
  next => decide
  next named => exact named

@[simp] theorem orDefault_orDefault (collection : GoString) :
    orDefault (orDefault collection) = orDefault collection :=
  orDefault_of_ne (orDefault_ne_nil collection)

def flatKey (collection id : GoString) : GoString :=
  collection ++ ascii [':'] ++ id

theorem flatKey_right_injective (collection : GoString) :
    Function.Injective (flatKey collection) := by
  intro first second equal
  exact List.append_cancel_left equal

namespace Record

/-- The record with an empty collection read as the default one. -/
def defaulted (r : Record) : Record :=
  { r with collection := orDefault r.collection }

def key (r : Record) : GoString := flatKey r.collection r.id

/-- What conflict resolution compares: the clock, then the node id. -/
def stamp (r : Record) : HLC ×ₗ GoString := toLex (r.clock, r.updatedBy)

@[simp] theorem defaulted_clock (r : Record) : r.defaulted.clock = r.clock := rfl

@[simp] theorem defaulted_updatedBy (r : Record) :
    r.defaulted.updatedBy = r.updatedBy := rfl

@[simp] theorem defaulted_id (r : Record) : r.defaulted.id = r.id := rfl

@[simp] theorem defaulted_defaulted (r : Record) :
    r.defaulted.defaulted = r.defaulted := by
  simp [defaulted]

theorem defaulted_of_named {r : Record} (named : r.collection ≠ []) :
    r.defaulted = r := by
  simp [defaulted, orDefault_of_ne named]

theorem stamp_lt_iff (first second : Record) :
    first.stamp < second.stamp ↔
      first.clock < second.clock ∨
        first.clock = second.clock ∧ first.updatedBy < second.updatedBy :=
  Prod.Lex.toLex_lt_toLex

theorem stamp_eq_iff (first second : Record) :
    first.stamp = second.stamp ↔
      first.clock = second.clock ∧ first.updatedBy = second.updatedBy := by
  unfold stamp
  rw [toLex_inj, Prod.mk.injEq]

theorem stamp_lt_of_clock_lt {first second : Record}
    (earlier : first.clock < second.clock) : first.stamp < second.stamp :=
  (stamp_lt_iff first second).mpr (.inl earlier)

theorem clock_le_of_stamp_le {first second : Record}
    (ordered : first.stamp ≤ second.stamp) : first.clock ≤ second.clock := by
  rcases lt_or_eq_of_le ordered with below | equal
  · rcases (stamp_lt_iff first second).mp below with earlier | ⟨same, _⟩
    · exact earlier.le
    · exact same.le
  · exact ((stamp_eq_iff first second).mp equal).1.le

end Record

/-- Whether `resolveConflict` returns the incoming record. -/
def incomingWins (existing incoming : Record) : Bool :=
  if incoming.clock.greaterThan existing.clock then
    true
  else if existing.clock.greaterThan incoming.clock then
    false
  else
    decide (incoming.updatedBy > existing.updatedBy)

/-- Last write wins, with a lexical tie-break on the node id. -/
def resolveConflict (existing incoming : Record) : Record :=
  if incomingWins existing incoming then incoming else existing

/-- `winner` is chosen over `loser` in whichever order the two meet. -/
def Beats (winner loser : Record) : Prop := incomingWins loser winner = true

theorem incomingWins_iff (existing incoming : Record) :
    incomingWins existing incoming = true ↔ existing.stamp < incoming.stamp := by
  rw [Record.stamp_lt_iff, incomingWins]
  simp only [HLC.greaterThan_iff]
  split
  next later => simp [later]
  next notLater =>
      split
      next earlier => simp [earlier.not_gt, earlier.ne']
      next notEarlier =>
          have same := le_antisymm (not_lt.mp notLater) (not_lt.mp notEarlier)
          simp [same]

theorem beats_iff (winner loser : Record) :
    Beats winner loser ↔ loser.stamp < winner.stamp :=
  incomingWins_iff loser winner

theorem resolveConflict_eq_prefer (existing incoming : Record) :
    resolveConflict existing incoming =
      Champion.prefer Record.stamp existing incoming := by
  simp only [resolveConflict, Champion.prefer, incomingWins_iff]

/-- No two different members at one key carry the same clock and node id. -/
def DistinctStamps (members : Record → Prop) : Prop :=
  ∀ first second, members first → members second →
    first.defaulted.key = second.defaulted.key →
    first.clock = second.clock → first.updatedBy = second.updatedBy →
    first = second

end NellDB
