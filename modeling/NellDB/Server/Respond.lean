import NellDB.Server.Wire
import NellDB.Store.Changes

namespace NellDB

open Data

/-! The requests that a server answers with records of its store. -/

inductive SyncRequest where
  | check (col : GoString) (vector : KnowledgeVector) (limit : Int) (cursor : GoString)
  | binCheck (col : GoString) (body : Bytes)
  | pull (col : GoString) (since : HLC)

namespace SyncRequest

def collection : SyncRequest → GoString
  | check col .. => orDefault col
  | binCheck col _ => orDefault col
  | pull col _ => orDefault col

end SyncRequest

def handlePull (changes : List Record) (col : GoString) : List Record :=
  changes.filter fun r => r.collection = col

/-- The records of an answer, and the store after the request.  A binary check
sends its records as wire frames. -/
inductive Responds (store : MemoryStore) :
    SyncRequest → List Record → MemoryStore → Prop
  | check (listing : Listing store (orDefault col)) :
      Responds store (.check col vector limit cursor)
        (handleCheck listing.ordered vector limit cursor).missing store
  | binCheck (listing : Listing store (orDefault col))
      (decoded : KnowledgeVector.unmarshalBinary body = .ok kv) :
      Responds store (.binCheck col body) (listing.ordered.filter (Server.unseen kv)) store
  | pull :
      Responds store (.pull col since)
        (handlePull (store.getChangesSince since).1 (orDefault col))
        (store.getChangesSince since).2

theorem mem_of_mem_collectMissing {vector : KnowledgeVector} {limit : Nat}
    {cursor : GoString} {pastCursor : Bool} {missing rest : List Record} {r : Record}
    (member : r ∈ collectMissing vector limit cursor pastCursor missing rest) :
    r ∈ missing ∨ r ∈ rest := by
  induction rest generalizing pastCursor missing with
  | nil => exact .inl member
  | cons head rest ih =>
      rw [collectMissing] at member
      split at member
      next => exact (ih member).imp_right (List.mem_cons_of_mem head)
      next =>
          split at member
          next => exact .inl member
          next =>
              split at member
              next =>
                  rcases ih member with before | later
                  · rcases List.mem_append.mp before with old | new
                    · exact .inl old
                    · rw [List.mem_singleton.mp new]
                      exact .inr List.mem_cons_self
                  · exact .inr (List.mem_cons_of_mem head later)
              next => exact (ih member).imp_right (List.mem_cons_of_mem head)

theorem mem_of_mem_handleCheck {all : List Record} {vector : KnowledgeVector} {limit : Int}
    {cursor : GoString} {r : Record}
    (member : r ∈ (handleCheck all vector limit cursor).missing) : r ∈ all := by
  rcases mem_of_mem_collectMissing member with none | listed
  · simp at none
  · exact listed

theorem Listing.mem_iff {store : MemoryStore} {collection : GoString}
    (listing : Listing store collection) {r : Record} :
    r ∈ listing.ordered ↔ r ∈ store.listAll collection := by
  rw [← Multiset.mem_coe, listing.complete]

/-- An answer holds stored records: those listed for the collection that was
asked for, or records of that collection. -/
theorem Responds.mem {store next : MemoryStore} {request : SyncRequest} {records : List Record}
    (responds : Responds store request records next) {r : Record} (member : r ∈ records) :
    r ∈ store.listAll request.collection ∨
      r.collection = request.collection ∧ ∃ position, store.records.lookup position = some r := by
  cases responds with
  | check listing => exact .inl (listing.mem_iff.mp (mem_of_mem_handleCheck member))
  | binCheck listing decoded => exact .inl (listing.mem_iff.mp (List.mem_of_mem_filter member))
  | pull =>
      obtain ⟨changed, inside⟩ := List.mem_filter.mp member
      exact .inr ⟨of_decide_eq_true inside, MemoryStore.exists_of_mem_getChangesSince changed⟩

theorem Responds.records_eq {store next : MemoryStore} {request : SyncRequest}
    {records : List Record} (responds : Responds store request records next) :
    next.records = store.records ∧ next.colIndex = store.colIndex := by
  cases responds with
  | check => exact ⟨rfl, rfl⟩
  | binCheck => exact ⟨rfl, rfl⟩
  | pull => exact ⟨store.getChangesSince_records _, store.getChangesSince_colIndex _⟩

end NellDB
