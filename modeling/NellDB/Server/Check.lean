import NellDB.Data.Utf8
import NellDB.Store.Index

namespace NellDB

open Data

/-! Records and vectors as the receiver of a JSON message decodes them: strings
are coerced to UTF-8, everything else is kept. -/

namespace Record

def overJson (r : Record) : Record :=
  { r with
    collection := Utf8.coerce r.collection
    id := Utf8.coerce r.id
    type := Utf8.coerce r.type
    updatedBy := Utf8.coerce r.updatedBy }

/-- Infinities and not-a-number entries have no JSON form. -/
def hasJson (r : Record) : Bool :=
  r.vector.all fun bits => (bits >>> 23) &&& 0xFF != 0xFF

structure ValidText (r : Record) : Prop where
  collection : Utf8.Valid r.collection
  id : Utf8.Valid r.id
  type : Utf8.Valid r.type
  updatedBy : Utf8.Valid r.updatedBy

instance (r : Record) : Decidable r.ValidText :=
  decidable_of_iff
    (Utf8.Valid r.collection ∧ Utf8.Valid r.id ∧ Utf8.Valid r.type ∧
      Utf8.Valid r.updatedBy)
    ⟨fun ⟨collection, id, type, updatedBy⟩ => ⟨collection, id, type, updatedBy⟩,
      fun ⟨collection, id, type, updatedBy⟩ => ⟨collection, id, type, updatedBy⟩⟩

theorem overJson_of_valid {r : Record} (valid : r.ValidText) : r.overJson = r := by
  obtain ⟨collection, id, type, updatedBy⟩ := valid
  unfold Utf8.Valid at collection id type updatedBy
  unfold overJson
  rw [collection, id, type, updatedBy]

theorem map_overJson_of_valid {records : List Record}
    (valid : ∀ r ∈ records, r.ValidText) : records.map overJson = records := by
  refine (List.map_congr_left ?_).trans (List.map_id records)
  intro r member
  exact overJson_of_valid (valid r member)

end Record

namespace KnowledgeVector

/-- Members of a JSON object are written in key order; of equal keys the last
one decoded stays. -/
def overJson (kv : KnowledgeVector) : KnowledgeVector :=
  kv.sortedKeys.foldl (fun decoded nodeID =>
    match kv.lookup nodeID with
    | some clock => decoded.insert (Utf8.coerce nodeID) clock
    | none => decoded) ∅

def ValidText (kv : KnowledgeVector) : Prop :=
  ∀ nodeID clock, kv.lookup nodeID = some clock → Utf8.Valid nodeID

theorem validText_empty : ValidText ∅ := by
  intro nodeID clock found
  simp at found

/-- No other node id of the vector is decoded as this one. -/
def Carried (kv : KnowledgeVector) (nodeID : GoString) : Prop :=
  ∀ other clock, kv.lookup other = some clock → (Utf8.coerce other = nodeID ↔ other = nodeID)

theorem lookup_foldl_decode {kv : KnowledgeVector} (nodes : List GoString)
    (present : ∀ node ∈ nodes, node ∈ kv) (nodeID : GoString) :
    (nodes.foldl (fun decoded nodeID =>
      match kv.lookup nodeID with
      | some clock => decoded.insert (Utf8.coerce nodeID) clock
      | none => decoded) (∅ : KnowledgeVector)).lookup nodeID =
      ((nodes.filter fun node => Utf8.coerce node = nodeID).getLast?).bind kv.lookup := by
  -- the last node of the list is the last one decoded
  induction nodes using List.reverseRecOn with
  | nil => rfl
  | append_singleton earlier node ih =>
      obtain ⟨clock, found⟩ := Finmap.mem_iff.mp (present node (by simp))
      rw [List.foldl_append, List.foldl_cons, List.foldl_nil, found, List.filter_append]
      by_cases same : Utf8.coerce node = nodeID
      · simp [same, found]
      · have apart : nodeID ≠ Utf8.coerce node := fun equal => same equal.symm
        rw [Finmap.lookup_insert_of_ne _ apart,
          ih fun other member => present other (List.mem_append_left _ member)]
        simp [same]

/-- Of the node ids that are decoded as one, the last in key order leaves its
clock. -/
theorem lookup_overJson (kv : KnowledgeVector) (nodeID : GoString) :
    kv.overJson.lookup nodeID =
      ((kv.sortedKeys.filter fun node => Utf8.coerce node = nodeID).getLast?).bind kv.lookup :=
  lookup_foldl_decode kv.sortedKeys (fun _ => FiniteMap.mem_sortedKeys.mp) nodeID

theorem lookup_overJson_of_carried {kv : KnowledgeVector} {nodeID : GoString}
    (carried : kv.Carried nodeID) : kv.overJson.lookup nodeID = kv.lookup nodeID := by
  have itself : (kv.sortedKeys.filter fun node => Utf8.coerce node = nodeID) =
      kv.sortedKeys.filter fun node => node = nodeID := by
    apply List.filter_congr
    intro node member
    obtain ⟨clock, found⟩ := Finmap.mem_iff.mp (FiniteMap.mem_sortedKeys.mp member)
    exact decide_eq_decide.mpr (carried node clock found)
  rw [lookup_overJson, itself]
  cases last : (kv.sortedKeys.filter fun node => node = nodeID).getLast? with
  | none =>
      have absent : nodeID ∉ kv := by
        intro present
        have unlisted := List.filter_eq_nil_iff.mp (List.getLast?_eq_none_iff.mp last)
        exact unlisted nodeID (FiniteMap.mem_sortedKeys.mpr present) (decide_eq_true rfl)
      exact (Finmap.lookup_eq_none.mpr absent).symm
  | some node =>
      have same := (List.mem_filter.mp (List.mem_of_getLast? last)).2
      rw [of_decide_eq_true same]
      rfl

theorem overJson_of_valid {kv : KnowledgeVector} (valid : kv.ValidText) :
    kv.overJson = kv := by
  apply Finmap.ext_lookup
  intro nodeID
  apply lookup_overJson_of_carried
  intro other clock found
  have kept : Utf8.coerce other = other := valid other clock found
  rw [kept]

/-- A node id that came over JSON is decoded as itself. -/
theorem Carried.update {kv : KnowledgeVector} {nodeID : GoString} (carried : kv.Carried nodeID)
    (writer : GoString) (clock : HLC) :
    (kv.update (Utf8.coerce writer) clock).Carried nodeID := by
  intro other mark found
  by_cases same : other = Utf8.coerce writer
  · have kept : Utf8.coerce (Utf8.coerce writer) = Utf8.coerce writer :=
      Utf8.valid_coerce writer
    rw [same, kept]
  · rw [update_eq_raise, Watermark.lookup_raise_of_ne _ _ same] at found
    exact carried other mark found

/-- A mark for a node id that JSON keeps changes nothing for the others. -/
theorem lookup_overJson_update_of_ne {kv : KnowledgeVector} {writer nodeID : GoString}
    (valid : Utf8.Valid writer) (different : nodeID ≠ writer) (clock : HLC) :
    (kv.update writer clock).overJson.lookup nodeID = kv.overJson.lookup nodeID := by
  have apart : ∀ node, Utf8.coerce node = nodeID → node ≠ writer := by
    intro node decoded same
    rw [same, valid] at decoded
    exact different decoded.symm
  have kept : ∀ node, Utf8.coerce node = nodeID →
      (kv.update writer clock).lookup node = kv.lookup node := by
    intro node decoded
    rw [update_eq_raise, Watermark.lookup_raise_of_ne _ _ (apart node decoded)]
  have sameNodes : ((kv.update writer clock).sortedKeys.filter fun node =>
      Utf8.coerce node = nodeID) = kv.sortedKeys.filter fun node => Utf8.coerce node = nodeID := by
    apply FiniteMap.filter_sortedKeys_congr
    intro node decoded
    rw [Finmap.mem_iff, Finmap.mem_iff, kept node (of_decide_eq_true decoded)]
  rw [lookup_overJson, lookup_overJson, sameNodes]
  cases last : (kv.sortedKeys.filter fun node => Utf8.coerce node = nodeID).getLast? with
  | none => rfl
  | some node =>
      have decoded := (List.mem_filter.mp (List.mem_of_getLast? last)).2
      exact kept node (of_decide_eq_true decoded)

theorem ValidText.update {kv : KnowledgeVector} (valid : kv.ValidText)
    {nodeID : GoString} (validNode : Utf8.Valid nodeID) (clock : HLC) :
    (kv.update nodeID clock).ValidText := by
  intro other mark found
  by_cases same : other = nodeID
  · rw [same]
    exact validNode
  · rw [update_eq_raise, Watermark.lookup_raise_of_ne _ _ same] at found
    exact valid other mark found

end KnowledgeVector

structure Server where
  nodeID : GoString
  store : MemoryStore
  kv : KnowledgeVector

/-- `New` seeds the vector from the store. -/
def newServer (store : MemoryStore) (nodeID : GoString) : Server where
  nodeID := nodeID
  store := store
  kv := store.kv

namespace Server

/-- One iteration of every push and ingest loop: `store.Put`, `recordSeen`. -/
def ingest (server : Server) (r : Record) : Server :=
  { server with
    store := server.store.afterPut r
    kv := server.kv.update r.updatedBy r.clock }

def ingestAll (server : Server) (changes : List Record) : Server :=
  changes.foldl ingest server

/-- The filter of the check handlers: records the vector has not reached. -/
def unseen (vector : KnowledgeVector) (r : Record) : Bool :=
  match vector.lookup r.updatedBy with
  | none => true
  | some seen => r.clock.greaterThan seen

end Server

/-- The slice a check handler works on: `ListAll` in map order, sorted by clock.
The sort is not stable, so records of equal clocks come in any order. -/
structure Listing (store : MemoryStore) (collection : GoString) where
  ordered : List Record
  complete : (ordered : Multiset Record) = store.listAll collection
  sorted : ordered.Pairwise fun first second => first.clock ≤ second.clock

@[ext] structure CheckReply where
  missing : List Record
  nextCursor : GoString
  hasMore : Bool

def clamp (v lo hi : Int) : Int :=
  if v ≤ 0 then
    lo
  else
    let v := if v < lo then lo else v
    if v > hi then hi else v

def collectMissing (vector : KnowledgeVector) (limit : Nat) (cursor : GoString) :
    (pastCursor : Bool) → (missing : List Record) → List Record → List Record
  | _, missing, [] => missing
  | pastCursor, missing, r :: rest =>
      if pastCursor = false ∧ r.id ≤ cursor then
        collectMissing vector limit cursor pastCursor missing rest
      else if missing.length ≥ limit then
        missing
      else if Server.unseen vector r then
        collectMissing vector limit cursor true (missing ++ [r]) rest
      else
        collectMissing vector limit cursor true missing rest

def handleCheck (all : List Record) (vector : KnowledgeVector) (limit : Int)
    (cursor : GoString) : CheckReply :=
  let limit := (clamp limit 100 10000).toNat
  let missing := collectMissing vector limit cursor (cursor = []) [] all
  let lastID := (missing.getLast?.map Record.id).getD []
  let hasMore := decide (missing.length ≥ limit) &&
    all.any fun r => !decide (r.id ≤ lastID) && Server.unseen vector r
  { missing, hasMore
    nextCursor := if hasMore && !missing.isEmpty then lastID else [] }

namespace Server

theorem unseen_iff (vector : KnowledgeVector) (r : Record) :
    unseen vector r = true ↔ ¬ Watermark.Reached vector r.updatedBy r.clock := by
  unfold unseen Watermark.Reached
  cases vector.lookup r.updatedBy with
  | none => simp
  | some seen => simp [HLC.greaterThan_iff]

end Server

theorem collectMissing_past {vector : KnowledgeVector} {limit : Nat} {missing : List Record}
    (bounded : missing.length ≤ limit) (cursor : GoString) (rest : List Record) :
    collectMissing vector limit cursor true missing rest =
      (missing ++ rest.filter (Server.unseen vector)).take limit := by
  induction rest generalizing missing with
  | nil => simp [collectMissing, List.take_of_length_le bounded]
  | cons r rest ih =>
      rw [collectMissing, if_neg (by simp)]
      by_cases full : missing.length ≥ limit
      · rw [if_pos full, List.take_append_of_le_length full,
          List.take_of_length_le bounded]
      · rw [if_neg full]
        by_cases fresh : Server.unseen vector r = true
        · have room : (missing ++ [r]).length ≤ limit := by
            rw [List.length_append, List.length_singleton]
            omega
          rw [if_pos fresh, ih room, List.filter_cons_of_pos fresh, List.append_assoc,
            List.singleton_append]
        · rw [if_neg fresh, ih bounded, List.filter_cons_of_neg fresh]

theorem collectMissing_before {vector : KnowledgeVector} {limit : Nat}
    (cursor : GoString) (rest : List Record) :
    collectMissing vector limit cursor false [] rest =
      collectMissing vector limit cursor true []
        (rest.dropWhile fun r => decide (r.id ≤ cursor)) := by
  induction rest with
  | nil => simp [collectMissing]
  | cons r rest ih =>
      by_cases skipped : r.id ≤ cursor
      · rw [collectMissing, if_pos ⟨rfl, skipped⟩, ih,
          List.dropWhile_cons_of_pos (by simpa using skipped)]
      · rw [List.dropWhile_cons_of_neg (by simpa using skipped)]
        simp [collectMissing, skipped]

def afterCursor (all : List Record) (cursor : GoString) : List Record :=
  if cursor = [] then all else all.dropWhile fun r => decide (r.id ≤ cursor)

/-- A page holds the first unseen records behind the cursor, up to the limit. -/
theorem handleCheck_page (all : List Record) (vector : KnowledgeVector) (limit : Int)
    (cursor : GoString) :
    (handleCheck all vector limit cursor).missing =
      ((afterCursor all cursor).filter (Server.unseen vector)).take
        (clamp limit 100 10000).toNat := by
  have empty : ([] : List Record).length ≤ (clamp limit 100 10000).toNat := Nat.zero_le _
  change collectMissing vector _ cursor (cursor = []) [] all = _
  unfold afterCursor
  split
  next start => rw [decide_eq_true start, collectMissing_past empty, List.nil_append]
  next later =>
      rw [decide_eq_false later, collectMissing_before, collectMissing_past empty,
        List.nil_append]

theorem handleCheck_missing (all : List Record) (vector : KnowledgeVector)
    (cursor : GoString) :
    (handleCheck all vector 0 cursor).missing =
      ((afterCursor all cursor).filter (Server.unseen vector)).take 100 :=
  handleCheck_page all vector 0 cursor

theorem clamp_bounds {lo hi : Int} (ordered : lo ≤ hi) (v : Int) :
    lo ≤ clamp v lo hi ∧ clamp v lo hi ≤ hi := by
  unfold clamp
  dsimp only
  split
  next => exact ⟨le_rfl, ordered⟩
  next =>
      split
      next => rw [if_neg (not_lt.mpr ordered)]; exact ⟨le_rfl, ordered⟩
      next =>
          split
          next => exact ⟨ordered, le_rfl⟩
          next => omega

end NellDB
