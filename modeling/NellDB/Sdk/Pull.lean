import NellDB.LogStore.Recovery
import NellDB.Sdk.Replicate
import NellDB.Server.Reconcile

namespace NellDB

open Data

/-! One pull, from the answer of the server to the client's state after it. -/

/-- The documents of a listing: what is pushed of it. -/
def shared (all : List Record) : List Record := all.filter fun r => !isInternalID r.id

namespace DocDB

section

variable (platform : Platform) (envs : Nat → CallEnv)

/-- The ingests of a pull; each call finds its own environment. -/
def ingestEach : (index : Nat) → DocDB → List Record → DocDB
  | _, db, [] => db
  | index, db, r :: rest => ingestEach (index + 1) (db.ingestRemote platform (envs index) r) rest

/-- `pull` on the bytes it receives.  A stream may end in an error of the
transport instead of its end, also between two frames. -/
def receive (last : CallEnv) (db : DocDB) (received : Bytes) (broken : Bool) :
    (Nat × Option PullError) × DocDB :=
  let frames := readFrames received.length received
  let db := db.ingestEach platform envs 0 frames.1
  match frames.2 with
  | some failure => ((frames.1.length, some failure), db)
  | none =>
      if broken then
        ((frames.1.length, some .frameHeader), db)
      else
        ((frames.1.length, none),
          db.finishSync platform last (frames.1.foldl seeClock HLC.zero))

end

/-- The reports that a pull makes to the vector. -/
def reports (records : List Record) : List (GoString × HLC) :=
  (records.filter fun r => !isInternalID r.id && decide (r.updatedBy ≠ [])).map fun r =>
    (r.updatedBy, r.clock)

theorem observeVector_vector (platform : Platform) (db : DocDB) (env : CallEnv)
    (nodeID : GoString) (clock : HLC) :
    (db.observeVector platform env nodeID clock).vector =
      if nodeID = [] then db.vector
      else Watermark.raiseAbove HLC.zero db.vector nodeID clock := by
  unfold observeVector
  split
  next => rfl
  next =>
      simp only [HLC.greaterThan_iff, Watermark.raiseAbove]
      split
      next => rfl
      next => rfl

section

variable (platform : Platform) (envs : Nat → CallEnv)

theorem ingestEach_vector (index : Nat) (db : DocDB) (records : List Record) :
    (db.ingestEach platform envs index records).vector =
      Watermark.raiseAllAbove HLC.zero db.vector (reports records) := by
  induction records generalizing db index with
  | nil => rfl
  | cons r rest ih =>
      rw [ingestEach, ih, ingestRemote]
      cases internal : isInternalID r.id with
      | true => simp [reports, internal]
      | false =>
          simp only [Bool.false_eq_true, if_false, commit, observeVector_vector]
          by_cases anonymous : r.updatedBy = []
          · simp [reports, anonymous]
          · simp [reports, internal, anonymous, Watermark.raiseAllAbove]

/-- What the vector has reached after a pull. -/
theorem reached_ingestEach_iff (index : Nat) (db : DocDB) (records : List Record)
    (writer : GoString) (clock : HLC) :
    Watermark.Reached (db.ingestEach platform envs index records).vector writer clock ↔
      Watermark.Reached db.vector writer clock ∨
        ∃ r ∈ records, isInternalID r.id = false ∧ r.updatedBy = writer ∧ writer ≠ [] ∧
          clock ≤ r.clock ∧ (db.vector.lookup writer).getD HLC.zero < r.clock := by
  rw [ingestEach_vector, Watermark.reached_raiseAllAbove_iff]
  refine or_congr Iff.rfl ?_
  constructor
  · rintro ⟨report, reported, rfl, below, above⟩
    obtain ⟨r, member, rfl⟩ := List.mem_map.mp reported
    obtain ⟨listed, shared⟩ := List.mem_filter.mp member
    simp only [Bool.and_eq_true, Bool.not_eq_true', decide_eq_true_eq] at shared
    exact ⟨r, listed, shared.1, rfl, shared.2, below, above⟩
  · rintro ⟨r, listed, document, rfl, named, below, above⟩
    refine ⟨(r.updatedBy, r.clock), List.mem_map.mpr ⟨r, ?_, rfl⟩, rfl, below, above⟩
    exact List.mem_filter.mpr ⟨listed, by simp [document, named]⟩

@[simp] theorem ingestEach_collection (index : Nat) (db : DocDB) (records : List Record) :
    (db.ingestEach platform envs index records).collection = db.collection := by
  induction records generalizing db index with
  | nil => rfl
  | cons r rest ih => rw [ingestEach, ih, ingestRemote_collection]

end

theorem Bookkeeping.defaulted {db : DocDB} {kept : Record} (own : db.Bookkeeping kept) :
    kept.defaulted = kept :=
  Record.defaulted_of_named (own.collection ▸ db.named)

theorem Bookkeeping.key_ne {db : DocDB} {kept r : Record} (own : db.Bookkeeping kept)
    (inside : r.collection = db.collection) (document : isInternalID r.id = false) :
    kept.key ≠ r.key := by
  intro placed
  rw [Record.key, Record.key, own.collection, inside] at placed
  have internal := own.internal
  rw [flatKey_right_injective db.collection placed, document] at internal
  contradiction

/-- `puts` are the documents among `records`, in their order, with records that
the database keeps for itself between them. -/
structure Puts (db : DocDB) (records puts : List Record) : Prop where
  documents : shared puts = shared records
  own : ∀ p ∈ puts, isInternalID p.id = true → db.Bookkeeping p

namespace Puts

variable {db : DocDB} {records puts : List Record}

theorem append (written : db.Puts records puts) {later others : List Record}
    (onward : db.Puts later others) : db.Puts (records ++ later) (puts ++ others) where
  documents := by
    unfold shared
    rw [List.filter_append, List.filter_append]
    exact congrArg₂ _ written.documents onward.documents
  own p member internal := by
    rcases List.mem_append.mp member with early | late
    · exact written.own p early internal
    · exact onward.own p late internal

theorem of_same {other : DocDB} (written : other.Puts records puts)
    (collection : other.collection = db.collection) (nodeID : other.nodeID = db.nodeID) :
    db.Puts records puts where
  documents := written.documents
  own p member internal := by
    have own := written.own p member internal
    exact ⟨own.collection.trans collection, own.internal, own.updatedBy.trans nodeID⟩

theorem mem_iff (written : db.Puts records puts) {p : Record}
    (document : isInternalID p.id = false) : p ∈ puts ↔ p ∈ records := by
  have same : p ∈ shared puts ↔ p ∈ shared records := by rw [written.documents]
  simpa [shared, document] using same

theorem named (written : db.Puts records puts) (named : ∀ r ∈ records, r.collection ≠ [])
    {p : Record} (member : p ∈ puts) : p.collection ≠ [] := by
  cases internal : isInternalID p.id with
  | true => exact (written.own p member internal).collection ▸ db.named
  | false => exact named p ((written.mem_iff internal).mp member)

/-- No record that the database keeps for itself has the key of a document. -/
theorem document_of_key (written : db.Puts records puts) {r p : Record}
    (inside : r.collection = db.collection) (document : isInternalID r.id = false)
    (isPut : p ∈ puts) (same : p.key = r.key) : isInternalID p.id = false := by
  rw [Bool.eq_false_iff]
  exact fun internal => (written.own p isPut internal).key_ne inside document same

theorem alone (written : db.Puts records puts) (distinct : (records.map Record.key).Nodup)
    {r : Record} (inside : r.collection = db.collection)
    (document : isInternalID r.id = false) :
    puts.Pairwise fun p q => p.key = r.key → q.key ≠ r.key := by
  have apart : (shared puts).Pairwise fun p q => p.key ≠ q.key := by
    rw [written.documents]
    exact (List.pairwise_map.mp distinct).filter _
  refine (List.pairwise_filter.mp apart).imp_of_mem ?_
  intro p q isPut isOther different first second
  refine different ?_ ?_ (first.trans second.symm)
  · rw [written.document_of_key inside document isPut first, Bool.not_false]
  · rw [written.document_of_key inside document isOther second, Bool.not_false]

end Puts

theorem Bookkeeping.puts {db : DocDB} {kept : Record} (own : db.Bookkeeping kept) :
    db.Puts [] [kept] where
  documents := by simp [shared, own.internal]
  own p member _ := List.mem_singleton.mp member ▸ own

section

variable (platform : Platform)

theorem puts_finishSync (db : DocDB) (env : CallEnv) (clock : HLC) :
    ∃ puts, db.Puts [] puts ∧
      (db.finishSync platform env clock).store = db.store.putAll puts := by
  rcases finishSync_cases platform db env clock with same | ⟨kept, own, same⟩
  · exact ⟨[], ⟨rfl, by simp⟩, by rw [same]; rfl⟩
  · exact ⟨[kept], own.puts, by rw [same]; rfl⟩

theorem puts_ingestRemote (db : DocDB) (env : CallEnv) (r : Record) :
    ∃ puts, db.Puts [r] puts ∧
      (db.ingestRemote platform env r).store = db.store.putAll puts := by
  unfold ingestRemote
  split
  next internal => exact ⟨[], ⟨by simp [shared, internal], by simp⟩, rfl⟩
  next document =>
      have single : db.Puts [r] [r] := by
        refine ⟨rfl, ?_⟩
        intro p member internal
        rw [List.mem_singleton.mp member] at internal
        exact absurd internal document
      obtain ⟨_, _, stored | ⟨kept, own, stored⟩⟩ :=
        commit_cases platform db env r r.id ((r.readRev platform.json).getD revRemote) r.updatedBy
      · exact ⟨[r], single, by rw [stored]; rfl⟩
      · exact ⟨[r, kept], single.append own.puts, by rw [stored]; rfl⟩

theorem puts_ingestEach (envs : Nat → CallEnv) (index : Nat) (db : DocDB)
    (records : List Record) :
    ∃ puts, db.Puts records puts ∧
      (db.ingestEach platform envs index records).store = db.store.putAll puts := by
  induction records generalizing db index with
  | nil => exact ⟨[], ⟨rfl, by simp⟩, rfl⟩
  | cons r rest ih =>
      obtain ⟨puts, first, store⟩ := puts_ingestRemote platform db (envs index) r
      obtain ⟨others, onward, final⟩ := ih (index + 1) (db.ingestRemote platform (envs index) r)
      have onward : db.Puts rest others := onward.of_same (ingestRemote_collection platform db _ r)
        (ingestRemote_nodeID platform db _ r)
      refine ⟨puts ++ others, first.append onward, ?_⟩
      rw [ingestEach, final, store, MemoryStore.putAll, MemoryStore.putAll, MemoryStore.putAll,
        List.foldl_append]

end

/-- Where a record that is stored after a pull comes from. -/
inductive Origin (db : DocDB) (records : List Record) (position : GoString) (held : Record) :
    Prop
  | before (found : db.store.records.lookup position = some held)
  | received (r : Record) (member : r ∈ records) (document : isInternalID r.id = false)
      (same : held = r.defaulted) (placed : held.key = position)
  | kept (own : db.Bookkeeping held) (placed : held.key = position)

variable {platform : Platform} {envs : Nat → CallEnv}

theorem covers_ingestEach {db : DocDB} {r : Record} (covers : db.store.Covers r)
    (index : Nat) (records : List Record) :
    (db.ingestEach platform envs index records).store.Covers r := by
  obtain ⟨puts, _, store⟩ := puts_ingestEach platform envs index db records
  rw [store]
  exact covers.putAll puts

theorem covers_ingestEach_of_mem (platform : Platform) (envs : Nat → CallEnv) (index : Nat)
    (db : DocDB) {records : List Record} {r : Record}
    (member : r ∈ records) (document : isInternalID r.id = false) :
    (db.ingestEach platform envs index records).store.Covers r.defaulted := by
  obtain ⟨puts, written, store⟩ := puts_ingestEach platform envs index db records
  rw [store]
  exact db.store.covers_putAll ((written.mem_iff document).mpr member)

theorem lookup_ingestEach_source {db : DocDB} {index : Nat} {records : List Record}
    {position : GoString} {held : Record}
    (found : (db.ingestEach platform envs index records).store.records.lookup position =
      some held) : Origin db records position held := by
  obtain ⟨puts, written, store⟩ := puts_ingestEach platform envs index db records
  rw [store] at found
  rcases MemoryStore.lookup_putAll_source found with before | ⟨p, isPut, same, placed⟩
  · exact .before before
  · cases internal : isInternalID p.id with
    | true =>
        have own := written.own p isPut internal
        rw [own.defaulted] at same
        subst held
        exact .kept own placed
    | false =>
        exact .received p ((written.mem_iff internal).mp isPut) internal same.symm placed

/-! A pull whose stream is cut. -/

/-- What the vector vouches for is held or beaten.  An absent entry is read as
`absent`, or vouches for nothing. -/
def VectorSound (absent : Option HLC) (records : Multiset Record) (db : DocDB) : Prop :=
  ∀ r ∈ records, isInternalID r.id = false →
    ∀ mark, (db.vector.lookup r.updatedBy).or absent = some mark → r.clock ≤ mark →
      db.store.HoldsOrBeats r

/-- No record shares its key, clock and writer with another one in the store. -/
def Unshared (records : Multiset Record) (s : MemoryStore) : Prop :=
  ∀ r ∈ records, ∀ held, s.records.lookup r.key = some held →
    held.updatedBy = r.updatedBy → held.clock = r.clock → held = r

theorem finishSync_vector (db : DocDB) (env : CallEnv) (clock : HLC) :
    (db.finishSync platform env clock).vector = db.vector := by
  rcases finishSync_cases platform db env clock with same | ⟨_, _, same⟩
  · rw [same]
  · rw [same]

theorem holdsOrBeats_finishSync {db : DocDB} {r : Record} (held : db.store.HoldsOrBeats r)
    (env : CallEnv) (clock : HLC) :
    (db.finishSync platform env clock).store.HoldsOrBeats r := by
  rcases finishSync_cases platform db env clock with same | ⟨kept, _, same⟩
  · rw [same]
    exact held
  · rw [same]
    exact held.afterPut kept

theorem VectorSound.finishSync {absent : Option HLC} {records : Multiset Record} {db : DocDB}
    (sound : db.VectorSound absent records) (env : CallEnv) (clock : HLC) :
    (db.finishSync platform env clock).VectorSound absent records := by
  intro r member document mark read below
  rw [finishSync_vector] at read
  exact holdsOrBeats_finishSync (sound r member document mark read below) env clock

section

variable {db : DocDB} {store : MemoryStore}
  (inside : ∀ r ∈ store.listAll db.collection, r.collection = db.collection)
  (distinct : DistinctWrites (· ∈ store.listAll db.collection))
  (unshared : Unshared (store.listAll db.collection) db.store)

include inside distinct unshared in
theorem holdsOrBeats_ingestEach {records : List Record}
    (listed : ∀ r ∈ records, r ∈ store.listAll db.collection) {index : Nat} {r : Record}
    (member : r ∈ store.listAll db.collection) (document : isInternalID r.id = false)
    (covers : (db.ingestEach platform envs index records).store.Covers r) :
    (db.ingestEach platform envs index records).store.HoldsOrBeats r := by
  apply covers.holdsOrBeats
  intro held found sameWriter sameClock
  cases lookup_ingestEach_source found with
  | before earlier => exact unshared r member held earlier sameWriter sameClock
  | received incoming received _ same _ =>
      have named : incoming.defaulted = incoming :=
        Record.defaulted_of_named (inside incoming (listed incoming received) ▸ db.named)
      rw [named] at same
      subst held
      exact distinct incoming r (listed incoming received) member sameWriter sameClock
  | kept own placed => exact absurd placed (own.key_ne (inside r member) document)

/-- In a clock order, what is before a record that was read was read as well. -/
theorem mem_take_of_clock_lt {ordered : List Record}
    (sorted : ordered.Pairwise fun first second => first.clock ≤ second.clock) {count : Nat}
    {r last : Record} (member : r ∈ ordered) (read : last ∈ ordered.take count)
    (earlier : r.clock < last.clock) : r ∈ ordered.take count := by
  rw [← List.take_append_drop count ordered] at member sorted
  rcases List.mem_append.mp member with taken | left
  · exact taken
  · have after := (List.pairwise_append.mp sorted).2.2 last read r left
    exact absurd earlier (not_lt.mpr after)

variable (listing : Listing store db.collection) {kv : KnowledgeVector} {absent : Option HLC}
  (known : ∀ nodeID clock, kv.lookup nodeID = some clock → db.vector.lookup nodeID = some clock)
  (sound : db.VectorSound absent (store.listAll db.collection))

theorem mem_ordered_iff {r : Record} : r ∈ listing.ordered ↔ r ∈ store.listAll db.collection := by
  rw [← listing.complete, Multiset.mem_coe]

include inside distinct unshared sound in
theorem holdsOrBeats_of_reached_or_read (platform : Platform) (envs : Nat → CallEnv)
    (index count : Nat) {r : Record} (member : r ∈ store.listAll db.collection)
    (document : isInternalID r.id = false)
    (reached : Watermark.Reached db.vector r.updatedBy r.clock ∨
      r ∈ (listing.ordered.filter (Server.unseen kv)).take count) :
    (db.ingestEach platform envs index
      ((listing.ordered.filter (Server.unseen kv)).take count)).store.HoldsOrBeats r := by
  have listed : ∀ q ∈ (listing.ordered.filter (Server.unseen kv)).take count,
      q ∈ store.listAll db.collection := fun q read =>
    (mem_ordered_iff listing).mp (List.mem_of_mem_filter (List.mem_of_mem_take read))
  apply holdsOrBeats_ingestEach inside distinct unshared listed member document
  rcases reached with ⟨mark, found, below⟩ | read
  · have held := sound r member document mark (by rw [found]; rfl) below
    exact covers_ingestEach held.covers index _
  · have covers := covers_ingestEach_of_mem platform envs index db read document
    rw [Record.defaulted_of_named (inside r member ▸ db.named)] at covers
    exact covers

include inside distinct unshared known sound in
/-- The vector is raised in clock order, so at every point of the pull it
vouches only for what has been ingested. -/
theorem vectorSound_ingestEach (platform : Platform) (envs : Nat → CallEnv)
    (index count : Nat) :
    (db.ingestEach platform envs index
      ((listing.ordered.filter (Server.unseen kv)).take count)).VectorSound absent
        (store.listAll db.collection) := by
  intro r member document mark vouched below
  by_cases seen : Watermark.Reached db.vector r.updatedBy r.clock
  · exact holdsOrBeats_of_reached_or_read inside distinct unshared listing sound platform envs
      index count member document (.inl seen)
  · have reachedIff := reached_ingestEach_iff platform envs index db
      ((listing.ordered.filter (Server.unseen kv)).take count) r.updatedBy
    cases found : (db.ingestEach platform envs index
        ((listing.ordered.filter (Server.unseen kv)).take count)).vector.lookup r.updatedBy with
    | none =>
        -- no entry appeared, so the vector vouches as it did before
        have absentBefore : db.vector.lookup r.updatedBy = none := by
          cases before : db.vector.lookup r.updatedBy with
          | none => rfl
          | some old =>
              obtain ⟨_, present, _⟩ := (reachedIff old).mpr (.inl ⟨old, before, le_rfl⟩)
              rw [found] at present
              contradiction
        rw [found, ← absentBefore] at vouched
        have held := sound r member document mark vouched below
        exact holdsOrBeats_ingestEach inside distinct unshared
          (fun q read => (mem_ordered_iff listing).mp
            (List.mem_of_mem_filter (List.mem_of_mem_take read))) member document
          (covers_ingestEach held.covers index _)
    | some raised =>
        rw [found, Option.some_or, Option.some.injEq] at vouched
        subst raised
        rcases (reachedIff r.clock).mp ⟨mark, found, below⟩ with before | later
        · exact absurd before seen
        · obtain ⟨last, read, _, sameWriter, _, notAfter, _⟩ := later
          refine holdsOrBeats_of_reached_or_read inside distinct unshared listing sound
            platform envs index count member document (.inr ?_)
          have streamed : r ∈ listing.ordered.filter (Server.unseen kv) := by
            refine List.mem_filter.mpr ⟨(mem_ordered_iff listing).mpr member, ?_⟩
            rw [Server.unseen_iff]
            rintro ⟨old, before, reached⟩
            exact seen ⟨old, known _ _ before, reached⟩
          rcases lt_or_eq_of_le notAfter with earlier | same
          · exact mem_take_of_clock_lt (listing.sorted.filter _) streamed read earlier
          · have lastListed := (mem_ordered_iff listing).mp
              (List.mem_of_mem_filter (List.mem_of_mem_take read))
            rw [distinct r last member lastListed sameWriter.symm same]
            exact read

end

/-- The state after a pull: the records that were read are ingested, and a
stream that came to its end may advance the clock. -/
theorem receive_state (platform : Platform) (envs : Nat → CallEnv) (last : CallEnv)
    (db : DocDB) (received : Bytes) (broken : Bool) :
    let ingested := db.ingestEach platform envs 0 (readFrames received.length received).1
    (db.receive platform envs last received broken).2 = ingested ∨
      ∃ clock, (db.receive platform envs last received broken).2 =
        ingested.finishSync platform last clock := by
  intro ingested
  unfold receive
  dsimp only
  split
  next => exact .inl rfl
  next =>
      split
      next => exact .inl rfl
      next => exact .inr ⟨_, rfl⟩

section

variable {db : DocDB} {store : MemoryStore}
  (inside : ∀ r ∈ store.listAll db.collection, r.collection = db.collection)
  (distinct : DistinctWrites (· ∈ store.listAll db.collection))
  (unshared : Unshared (store.listAll db.collection) db.store)
  (listing : Listing store db.collection) {kv : KnowledgeVector} {absent : Option HLC}
  (known : ∀ nodeID clock, kv.lookup nodeID = some clock → db.vector.lookup nodeID = some clock)
  (sound : db.VectorSound absent (store.listAll db.collection))

include inside distinct unshared known sound in
theorem receive_sound (platform : Platform) (envs : Nat → CallEnv) (last : CallEnv)
    (fits : ∀ r ∈ listing.ordered.filter (Server.unseen kv), FitsWire r) (cut : Nat)
    (broken : Bool) :
    let reply := wireFrames (listing.ordered.filter (Server.unseen kv))
    let next := (db.receive platform envs last (reply.take cut) broken).2
    next.VectorSound absent (store.listAll db.collection) ∧
      (reply.length ≤ cut → ∀ r ∈ store.listAll db.collection,
        isInternalID r.id = false → next.store.HoldsOrBeats r) := by
  intro reply next
  obtain ⟨count, read, complete⟩ := readFrames_take_wireFrames fits cut
  have after := receive_state platform envs last db (reply.take cut) broken
  rw [read] at after
  change next = _ ∨ ∃ clock, next = _ at after
  have soundNow := vectorSound_ingestEach inside distinct unshared listing known sound
    platform envs 0 count
  have delivered (uncut : reply.length ≤ cut) (r : Record)
      (member : r ∈ store.listAll db.collection) (document : isInternalID r.id = false) :
      (db.ingestEach platform envs 0 ((listing.ordered.filter
        (Server.unseen kv)).take count)).store.HoldsOrBeats r := by
    refine holdsOrBeats_of_reached_or_read inside distinct unshared listing sound
      platform envs 0 count member document ?_
    by_cases fresh : Server.unseen kv r = true
    · right
      rw [List.take_of_length_le (complete uncut)]
      exact List.mem_filter.mpr ⟨(mem_ordered_iff listing).mpr member, fresh⟩
    · left
      rw [Server.unseen_iff, not_not] at fresh
      obtain ⟨mark, found, below⟩ := fresh
      exact ⟨mark, known _ _ found, below⟩
  rcases after with same | ⟨clock, same⟩
  · rw [same]
    exact ⟨soundNow, delivered⟩
  · rw [same]
    refine ⟨soundNow.finishSync last clock, ?_⟩
    intro uncut r member document
    exact holdsOrBeats_finishSync (delivered uncut r member document) last clock

end

/-- A record at whose key nothing is received is held or beaten as before. -/
theorem holdsOrBeats_of_ingestEach {db : DocDB} {index : Nat} {records : List Record}
    {r : Record} (inside : r.collection = db.collection) (document : isInternalID r.id = false)
    (elsewhere : ∀ q ∈ records, q.defaulted.key ≠ r.key)
    (holds : (db.ingestEach platform envs index records).store.HoldsOrBeats r) :
    db.store.HoldsOrBeats r := by
  obtain ⟨held, found, above⟩ := holds
  cases lookup_ingestEach_source found with
  | before earlier => exact ⟨held, earlier, above⟩
  | received incoming member _ same placed =>
      exact absurd (same ▸ placed) (elsewhere incoming member)
  | kept own placed => exact absurd placed (own.key_ne inside document)

theorem holdsOrBeats_of_finishSync {db : DocDB} {r : Record}
    (inside : r.collection = db.collection) (document : isInternalID r.id = false)
    {env : CallEnv} {clock : HLC}
    (holds : (db.finishSync platform env clock).store.HoldsOrBeats r) :
    db.store.HoldsOrBeats r := by
  rcases finishSync_cases platform db env clock with same | ⟨kept, own, same⟩
  · rw [same] at holds
    exact holds
  · rw [same] at holds
    obtain ⟨held, found, above⟩ := holds
    rw [MemoryStore.afterPut_records, own.defaulted,
      Champion.lookup_enter_of_ne _ (own.key_ne inside document).symm] at found
    exact ⟨held, found, above⟩

/-- A record that does not decode is not delivered, wherever the stream is cut. -/
theorem not_delivered {db : DocDB} {sent rest : List Record} {bad : Record}
    (inside : bad.collection = db.collection) (document : isInternalID bad.id = false)
    (elsewhere : ∀ q ∈ sent, q.defaulted.key ≠ bad.key)
    (missing : ¬ db.store.HoldsOrBeats bad) (fits : ∀ r ∈ sent, FitsWire r)
    (framed : bad.marshalBinary.length < 2 ^ 32) {failure : Record.DecodeError}
    (undecodable : Record.unmarshalBinary bad.marshalBinary = .error failure)
    (last : CallEnv) (cut : Nat) (broken : Bool) :
    ¬ (db.receive platform envs last ((wireFrames (sent ++ bad :: rest)).take cut)
      broken).2.store.HoldsOrBeats bad := by
  have stream : wireFrames (sent ++ bad :: rest) =
      wireFrames sent ++ (wireFrame bad ++ wireFrames rest) := by
    simp [wireFrames]
  rw [stream]
  obtain ⟨count, read, _⟩ := readFrames_take_append fits
    (readFrames_undecodable framed undecodable (wireFrames rest)) cut (le_refl _)
  have after := receive_state platform envs last db
    ((wireFrames sent ++ (wireFrame bad ++ wireFrames rest)).take cut) broken
  rw [read] at after
  have apart : ∀ q ∈ sent.take count, q.defaulted.key ≠ bad.key := fun q member =>
    elsewhere q (List.mem_of_mem_take member)
  intro holds
  rcases after with same | ⟨clock, same⟩
  · rw [same] at holds
    exact missing (holdsOrBeats_of_ingestEach inside document apart holds)
  · rw [same] at holds
    have ingested := holdsOrBeats_of_finishSync (by simpa using inside) document holds
    exact missing (holdsOrBeats_of_ingestEach inside document apart ingested)

end DocDB

/-- If every record sent fits the wire, a pull that is cut at any byte leaves the
vector sound, and one that is not cut delivers every record.  The first record
sent that does not decode is not delivered by any pull. -/
theorem pull_cut_sound (platform : Platform) (envs : Nat → CallEnv) (last : CallEnv)
    {db : DocDB} {store : MemoryStore} (wellFormed : WellFormed store)
    (listing : Listing store db.collection) (entries : KnowledgeVector.Entries db.vector)
    (inside : ∀ r ∈ store.listAll db.collection, r.collection = db.collection)
    (distinct : DistinctWrites (· ∈ store.listAll db.collection))
    (unshared : DocDB.Unshared (store.listAll db.collection) db.store)
    {absent : Option HLC} (sound : db.VectorSound absent (store.listAll db.collection))
    (short : ∀ nodeID clock, db.vector.lookup nodeID = some clock → nodeID.length < 2 ^ 16) :
    ∃ kv reply, KnowledgeVector.unmarshalBinary (KnowledgeVector.marshalBinary entries) = .ok kv ∧
      handleBinCheck listing.ordered (KnowledgeVector.marshalBinary entries) = .ok reply ∧
      ((∀ r ∈ store.listAll db.collection, Server.unseen kv r = true → FitsWire r) →
        ∀ cut broken,
          let next := (db.receive platform envs last (reply.take cut) broken).2
          next.VectorSound absent (store.listAll db.collection) ∧
            (reply.length ≤ cut → ∀ r ∈ store.listAll db.collection,
              isInternalID r.id = false → next.store.HoldsOrBeats r)) ∧
      ∀ sent bad rest, listing.ordered.filter (Server.unseen kv) = sent ++ bad :: rest →
        (∀ r ∈ sent, FitsWire r) → bad.marshalBinary.length < 2 ^ 32 →
        (∃ failure, Record.unmarshalBinary bad.marshalBinary = .error failure) →
        isInternalID bad.id = false → ¬ db.store.HoldsOrBeats bad → ∀ cut broken,
          ¬ (db.receive platform envs last (reply.take cut) broken).2.store.HoldsOrBeats bad := by
  have shortEntries : ∀ entry ∈ entries.order, entry.1.length < 2 ^ 16 := by
    rintro ⟨nodeID, clock⟩ member
    exact short nodeID clock ((entries.complete nodeID clock).mp member)
  have decoded := KnowledgeVector.unmarshalBinary_marshalBinary entries shortEntries
  generalize KnowledgeVector.insertAll ∅ _ = kv at decoded
  have known : ∀ nodeID clock, kv.lookup nodeID = some clock →
      db.vector.lookup nodeID = some clock := fun nodeID clock found =>
    KnowledgeVector.lookup_of_unmarshalBinary entries shortEntries decoded found
  have listed {r : Record} (member : r ∈ listing.ordered.filter (Server.unseen kv)) :
      r ∈ store.listAll db.collection :=
    (DocDB.mem_ordered_iff listing).mp (List.mem_of_mem_filter member)
  refine ⟨kv, wireFrames (listing.ordered.filter (Server.unseen kv)), decoded, ?_, ?_, ?_⟩
  · simp only [handleBinCheck, decoded, bind, Except.bind, pure, Except.pure]
  · intro fits cut broken
    exact DocDB.receive_sound inside distinct unshared listing known sound platform envs last
      (fun r member => fits r (listed member) (List.of_mem_filter member)) cut broken
  · intro sent bad rest order fits framed undecodable document missing cut broken
    obtain ⟨failure, undecodable⟩ := undecodable
    have streamed : bad ∈ listing.ordered.filter (Server.unseen kv) := by simp [order]
    have elsewhere : ∀ q ∈ sent, q.defaulted.key ≠ bad.key := by
      intro q member sameKey
      have qStreamed : q ∈ listing.ordered.filter (Server.unseen kv) := by simp [order, member]
      rw [Record.defaulted_of_named (inside q (listed qStreamed) ▸ db.named)] at sameKey
      obtain ⟨_, _, _, foundQ⟩ := (mem_listAll_iff wellFormed _ q).mp (listed qStreamed)
      obtain ⟨_, _, _, foundBad⟩ := (mem_listAll_iff wellFormed _ bad).mp (listed streamed)
      rw [sameKey, foundBad, Option.some.injEq] at foundQ
      have roundTrip := Record.unmarshalBinary_marshalBinary (fits q member).binary []
      rw [List.append_nil, ← foundQ, undecodable] at roundTrip
      cases roundTrip
    rw [order]
    exact DocDB.not_delivered (inside bad (listed streamed)) document elsewhere missing fits
      framed undecodable last cut broken

/-- Two records of one writer, pulled by a new client. -/
theorem pull_cut_sound_two_records :
    let written (id : Byte) (wallTime : Int64) : Record :=
      { Record.zero with
        collection := defaultCollection
        id := [id]
        clock := ⟨wallTime, 0⟩
        updatedBy := ascii ['m'] }
    let store := ((newMemoryStore [] 0).afterPut (written 120 1000)).afterPut (written 121 2000)
    let db := newDocDB .revOnly (newMemoryStore [] 0) (ascii ['n']) [] []
    let reply := wireFrames [written 120 1000, written 121 2000]
    ∀ cut broken,
      let next := (db.receive .revOnly (fun _ => .at 3000) (.at 3000) (reply.take cut) broken).2
      next.VectorSound (some HLC.zero) (store.listAll db.collection) ∧
        (reply.length ≤ cut → ∀ r ∈ store.listAll db.collection,
          isInternalID r.id = false → next.store.HoldsOrBeats r) := by
  intro written store db reply
  let first := written 120 1000
  let second := written 121 2000
  have fitsFirst : FitsWire first := ⟨by decide +kernel, by decide +kernel⟩
  have fitsSecond : FitsWire second := ⟨by decide +kernel, by decide +kernel⟩
  have apart : first.clock ≠ second.clock := by decide +kernel
  have late : ¬ first.clock ≤ HLC.zero ∧ ¬ second.clock ≤ HLC.zero := by decide +kernel
  have inside : first.collection = db.collection ∧ second.collection = db.collection := by
    decide +kernel
  have noRecords : db.store.records = ∅ := by rfl
  have noMarks : db.vector = ∅ := by rfl
  let listing : Listing store db.collection :=
    ⟨[first, second], by decide +kernel, by decide +kernel⟩
  let entries : KnowledgeVector.Entries db.vector := KnowledgeVector.noEntries
  have answered : handleBinCheck listing.ordered (KnowledgeVector.marshalBinary entries) =
      .ok reply := by
    decide +kernel
  have wellFormed : WellFormed store :=
    ((wellFormed_newMemoryStore [] 0).afterPut first).afterPut second
  have members (r : Record) (member : r ∈ store.listAll db.collection) :
      r = first ∨ r = second := by
    rw [← listing.complete, Multiset.mem_coe] at member
    exact List.mem_pair.mp member
  clear_value listing entries first second db store reply
  have insideAll : ∀ r ∈ store.listAll db.collection, r.collection = db.collection := by
    intro r member
    rcases members r member with rfl | rfl
    · exact inside.1
    · exact inside.2
  have distinct : DistinctWrites (· ∈ store.listAll db.collection) := by
    intro r other member otherMember _ sameClock
    rcases members r member with rfl | rfl <;> rcases members other otherMember with rfl | rfl
    · rfl
    · exact absurd sameClock apart
    · exact absurd sameClock.symm apart
    · rfl
  have unshared : DocDB.Unshared (store.listAll db.collection) db.store := by
    intro r _ held found
    rw [noRecords, Finmap.lookup_empty] at found
    contradiction
  have sound : db.VectorSound (some HLC.zero) (store.listAll db.collection) := by
    intro r member _ mark vouched below
    rw [noMarks, Finmap.lookup_empty, Option.none_or, Option.some.injEq] at vouched
    subst mark
    rcases members r member with rfl | rfl
    · exact absurd below late.1
    · exact absurd below late.2
  obtain ⟨kv, sent, _, sentIs, whole, _⟩ := pull_cut_sound .revOnly (fun _ => .at 3000)
    (.at 3000) wellFormed listing entries insideAll distinct unshared sound
    (by simp [noMarks])
  rw [answered, Except.ok.injEq] at sentIs
  subst sent
  apply whole
  intro r member _
  rcases members r member with rfl | rfl
  · exact fitsFirst
  · exact fitsSecond

/-- The record is written by a node whose id has 65536 bytes: its frame does not
decode, so a pull of the complete stream does not deliver it. -/
theorem not_delivered_oversized {filler : Bytes} (sized : filler.length = 65532) :
    let r : Record := { writtenBy ([97, 97, 97, 97] ++ filler) with clock := ⟨1000, 0⟩ }
    let store := (newMemoryStore [] 0).afterPut r
    let db := newDocDB .revOnly (newMemoryStore [] 0) (ascii ['n']) [] []
    ∃ (listing : Listing store db.collection) (entries : KnowledgeVector.Entries db.vector)
      (reply : Bytes),
      handleBinCheck listing.ordered (KnowledgeVector.marshalBinary entries) = .ok reply ∧
      DistinctWrites (· ∈ store.listAll db.collection) ∧
      DocDB.Unshared (store.listAll db.collection) db.store ∧
      db.VectorSound (some HLC.zero) (store.listAll db.collection) ∧
      r ∈ store.listAll db.collection ∧ isInternalID r.id = false ∧
      ∀ envs last, ¬ (db.receive .revOnly envs last reply false).2.store.HoldsOrBeats r := by
  intro r store db
  have noRecords : db.store.records = ∅ := by rfl
  have noMarks : db.vector = ∅ := by rfl
  have named : defaultCollection ≠ [] := by decide
  have listed : store.listAll db.collection = {r} :=
    listAll_afterPut_of_absent (wellFormed_newMemoryStore [] 0) named (by rfl)
  have missing : ¬ db.store.HoldsOrBeats r := by
    rintro ⟨held, found, _⟩
    rw [noRecords, Finmap.lookup_empty] at found
    cases found
  have framed : r.marshalBinary.length < 2 ^ 32 := by
    have named : defaultCollection.length = 7 := by decide
    rw [Record.length_marshalBinary]
    simp only [r, writtenBy, Record.zero, List.length_append, List.length_cons, List.length_nil,
      sized, named]
    decide
  have late : ¬ r.clock ≤ HLC.zero := by
    change ¬ (⟨1000, 0⟩ : HLC) ≤ HLC.zero
    decide
  have undecodable := unmarshalBinary_oversized sized ⟨1000, 0⟩
  refine ⟨⟨[r], listed.symm ▸ rfl, List.pairwise_singleton _ _⟩, KnowledgeVector.noEntries,
    wireFrames [r], ?_, ?_, ?_, ?_, ?_, rfl, ?_⟩
  · have decoded : KnowledgeVector.unmarshalBinary
        (KnowledgeVector.marshalBinary KnowledgeVector.noEntries) = .ok ∅ := by
      decide
    change handleBinCheck [r] (@KnowledgeVector.marshalBinary ∅ KnowledgeVector.noEntries) = _
    rw [handleBinCheck, decoded]
    rfl
  · rw [listed]
    intro first second isFirst isSecond _ _
    rw [Multiset.mem_singleton.mp isFirst, Multiset.mem_singleton.mp isSecond]
  · intro _ _ held found
    rw [noRecords, Finmap.lookup_empty] at found
    cases found
  · intro other member _ mark vouched below
    rw [noMarks, Finmap.lookup_empty, Option.none_or, Option.some.injEq] at vouched
    subst mark
    rw [listed, Multiset.mem_singleton] at member
    rw [member] at below
    exact absurd below late
  · rw [listed]
    exact Multiset.mem_singleton_self r
  · intro envs last
    have cut := @DocDB.not_delivered .revOnly envs db [] [] r rfl rfl (by simp) missing
      (by simp) framed _ undecodable last (wireFrames [r]).length false
    rw [List.nil_append, List.take_length] at cut
    exact cut

theorem pull_misses_oversized :
    let r : Record :=
      { writtenBy ([97, 97, 97, 97] ++ List.replicate 65532 97) with clock := ⟨1000, 0⟩ }
    let store := (newMemoryStore [] 0).afterPut r
    let db := newDocDB .revOnly (newMemoryStore [] 0) (ascii ['n']) [] []
    ∃ (listing : Listing store db.collection) (entries : KnowledgeVector.Entries db.vector)
      (reply : Bytes),
      handleBinCheck listing.ordered (KnowledgeVector.marshalBinary entries) = .ok reply ∧
      DistinctWrites (· ∈ store.listAll db.collection) ∧
      DocDB.Unshared (store.listAll db.collection) db.store ∧
      db.VectorSound (some HLC.zero) (store.listAll db.collection) ∧
      r ∈ store.listAll db.collection ∧ isInternalID r.id = false ∧
      ∀ envs last, ¬ (db.receive .revOnly envs last reply false).2.store.HoldsOrBeats r :=
  not_delivered_oversized List.length_replicate

end NellDB
