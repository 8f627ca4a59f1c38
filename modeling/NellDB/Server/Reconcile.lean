import NellDB.Server.Check

namespace NellDB

open Data

namespace CheckReply

def overJson (reply : CheckReply) : CheckReply where
  missing := reply.missing.map Record.overJson
  nextCursor := Utf8.coerce reply.nextCursor
  hasMore := reply.hasMore

end CheckReply

/-- The peer's answer to one page request, as the caller decodes it. -/
inductive Answered (peer : MemoryStore) (server : Server) (cursor : GoString) :
    CheckReply → Prop
  | reply (listing : Listing peer defaultCollection)
      (sent : reply =
        handleCheck listing.ordered server.kv.overJson 0 (Utf8.coerce cursor))
      (encodes : reply.missing.all Record.hasJson = true) :
      Answered peer server cursor reply.overJson

/-- The loop that follows the cursor, for a peer store that does not change. -/
inductive Paging (peer : MemoryStore) : Server → CheckReply → Server → Prop
  | last (stops : reply.hasMore = false ∨ reply.nextCursor = []) :
      Paging peer server reply server
  | next (more : reply.hasMore = true) (cursor : reply.nextCursor ≠ [])
      (answered : Answered peer server reply.nextCursor page)
      (onward : Paging peer (server.ingestAll page.missing) page final) :
      Paging peer server reply final

/-- `reconcileOneInner` returns nil and leaves the server `final`. -/
def ReconcilesNil (peer : MemoryStore) (server final : Server) : Prop :=
  ∃ reply, Answered peer server [] reply ∧
    Paging peer (server.ingestAll reply.missing) reply final

/-- What the vector has reached of the peer's default collection is held or
beaten. -/
def SoundFor (peer : MemoryStore) (server : Server) : Prop :=
  ∀ r ∈ peer.listAll defaultCollection,
    Watermark.Reached server.kv r.updatedBy r.clock → server.store.HoldsOrBeats r

def DistinctWrites (members : Record → Prop) : Prop :=
  ∀ first second, members first → members second →
    first.updatedBy = second.updatedBy → first.clock = second.clock → first = second

def missingFrom (peer : MemoryStore) (kv : KnowledgeVector) : Multiset Record :=
  (peer.listAll defaultCollection).filter fun r => Server.unseen kv r = true

structure ClockOrder (ordered : List Record) (records : Multiset Record) : Prop where
  complete : (ordered : Multiset Record) = records
  sorted : ordered.Pairwise fun first second => first.clock ≤ second.clock

/-- At every full page that is not the last, in any clock order of the missing
records: the page ends in a nonempty id, a missing record has a greater id, and
a record with a greater id comes no later than the first one left over. -/
def CursorAdvances (peer : MemoryStore) (kv : KnowledgeVector) : Prop :=
  ∀ ordered, ClockOrder ordered (missingFrom peer kv) →
    ∀ fetched page x y rest, ordered = fetched ++ (page ++ x :: y :: rest) →
      100 ∣ fetched.length → page.length = 99 →
        x.id ≠ [] ∧ (∃ z ∈ page ++ x :: y :: rest, x.id < z.id) ∧
          ∃ w ∈ peer.listAll defaultCollection,
            x.id < w.id ∧ (w.clock < y.clock ∨ w = y)

namespace Server

theorem ingestAll_append (server : Server) (first second : List Record) :
    server.ingestAll (first ++ second) = (server.ingestAll first).ingestAll second :=
  List.foldl_append

theorem ingestAll_store (server : Server) (changes : List Record) :
    (server.ingestAll changes).store = server.store.putAll changes := by
  induction changes generalizing server with
  | nil => rfl
  | cons head rest ih => exact ih (server.ingest head)

theorem reached_ingestAll_iff (server : Server) (changes : List Record)
    (nodeID : GoString) (clock : HLC) :
    Watermark.Reached (server.ingestAll changes).kv nodeID clock ↔
      Watermark.Reached server.kv nodeID clock ∨
        ∃ r ∈ changes, r.updatedBy = nodeID ∧ clock ≤ r.clock := by
  induction changes generalizing server with
  | nil => simp [ingestAll]
  | cons head rest ih =>
      have step := ih (server.ingest head)
      have first : Watermark.Reached (server.ingest head).kv nodeID clock ↔
          Watermark.Reached server.kv nodeID clock ∨
            nodeID = head.updatedBy ∧ clock ≤ head.clock := by
        rw [ingest, KnowledgeVector.update_eq_raise, Watermark.reached_raise_iff]
      rw [first, or_assoc] at step
      simp only [List.exists_mem_cons_iff, eq_comm (a := head.updatedBy)]
      exact step

theorem validText_ingestAll {server : Server} (valid : server.kv.ValidText)
    {changes : List Record} (validChanges : ∀ r ∈ changes, Utf8.Valid r.updatedBy) :
    (server.ingestAll changes).kv.ValidText := by
  induction changes generalizing server with
  | nil => exact valid
  | cons head rest ih =>
      have validHead := validChanges head List.mem_cons_self
      exact ih (valid.update validHead head.clock) fun r member =>
        validChanges r (List.mem_cons_of_mem head member)

/-- The server as a peer knows it that has decoded its vector. -/
def decoded (server : Server) : Server :=
  { server with kv := server.kv.overJson }

end Server

/-- The writer's node id is the same after a JSON round trip, and no other node
id of the vector becomes it. -/
structure WriterKept (kv : KnowledgeVector) (r : Record) : Prop where
  valid : Utf8.Valid r.updatedBy
  carried : kv.Carried r.updatedBy

theorem WriterKept.update {kv : KnowledgeVector} {r head : Record} (kept : WriterKept kv r)
    (headKept : WriterKept kv head) : WriterKept (kv.update head.updatedBy head.clock) r := by
  have carried := kept.carried.update head.updatedBy head.clock
  rw [headKept.valid] at carried
  exact ⟨kept.valid, carried⟩

/-- Decoding commutes with the mark of a kept writer. -/
theorem WriterKept.overJson_update {kv : KnowledgeVector} {r : Record}
    (kept : WriterKept kv r) :
    (kv.update r.updatedBy r.clock).overJson = kv.overJson.update r.updatedBy r.clock := by
  apply Finmap.ext_lookup
  intro nodeID
  by_cases same : nodeID = r.updatedBy
  · rw [same, KnowledgeVector.lookup_overJson_of_carried (kept.update kept).carried,
      KnowledgeVector.update_eq_raise, KnowledgeVector.update_eq_raise]
    exact Watermark.lookup_raise_self_congr
      (KnowledgeVector.lookup_overJson_of_carried kept.carried).symm r.clock
  · rw [KnowledgeVector.lookup_overJson_update_of_ne kept.valid same,
      KnowledgeVector.update_eq_raise, Watermark.lookup_raise_of_ne _ _ same]

/-- What was ingested of kept writers is seen by the peer as well. -/
theorem Server.decoded_ingestAll {server : Server} {changes : List Record}
    (kept : ∀ r ∈ changes, WriterKept server.kv r) :
    (server.ingestAll changes).decoded = server.decoded.ingestAll changes := by
  induction changes generalizing server with
  | nil => rfl
  | cons head rest ih =>
      have headKept := kept head List.mem_cons_self
      have step : (server.ingest head).decoded = server.decoded.ingest head := by
        unfold decoded ingest
        rw [headKept.overJson_update]
      have onward : ((server.ingest head).ingestAll rest).decoded =
          (server.ingest head).decoded.ingestAll rest :=
        ih fun r member => (kept r (List.mem_cons_of_mem head member)).update headKept
      rw [step] at onward
      exact onward

/-! Records skipped by a cursor that has not passed the first missing one. -/

theorem filter_dropWhile {all : List Record} {fresh skips : Record → Bool}
    (sorted : all.Pairwise fun first second => first.clock ≤ second.clock)
    {y w : Record} {rest : List Record} (missing : all.filter fresh = y :: rest)
    (member : w ∈ all) (stops : skips w = false) (early : w.clock < y.clock ∨ w = y) :
    (all.dropWhile skips).filter fresh = y :: rest := by
  induction all with
  | nil => simp at member
  | cons head tail ih =>
      by_cases skipped : skips head = true
      · have inTail : w ∈ tail := by
          rcases List.mem_cons.mp member with rfl | later
          · rw [skipped] at stops
            contradiction
          · exact later
        have stale : ¬ fresh head = true := by
          intro isFresh
          rw [List.filter_cons_of_pos isFresh, List.cons.injEq] at missing
          obtain ⟨rfl, _⟩ := missing
          rcases early with before | rfl
          · exact absurd (List.rel_of_pairwise_cons sorted inTail) (not_le.mpr before)
          · rw [skipped] at stops
            contradiction
        rw [List.filter_cons_of_neg stale] at missing
        rw [List.dropWhile_cons_of_pos skipped]
        exact ih sorted.of_cons missing inTail
      · rw [List.dropWhile_cons_of_neg skipped]
        exact missing

/-! What is still missing after the first records of a clock order were
ingested is the rest of that order. -/

section Remaining

variable {peer : MemoryStore} {server : Server}
  (wellFormed : WellFormed peer)
  (distinct : DistinctWrites (· ∈ peer.listAll defaultCollection))

include wellFormed distinct

theorem missingFrom_ingestAll {fetched remaining : List Record}
    (order : ClockOrder (fetched ++ remaining) (missingFrom peer server.kv)) :
    missingFrom peer (server.ingestAll fetched).kv = remaining := by
  have nodup : (fetched ++ remaining).Nodup := by
    rw [← Multiset.coe_nodup, order.complete]
    exact (nodup_listAll wellFormed defaultCollection).filter _
  have isMissing : ∀ r, r ∈ fetched ++ remaining ↔
      r ∈ peer.listAll defaultCollection ∧
        ¬ Watermark.Reached server.kv r.updatedBy r.clock := by
    intro r
    rw [← Multiset.mem_coe, order.complete, missingFrom, Multiset.mem_filter,
      Server.unseen_iff]
  have remainingNodup := (List.nodup_append.mp nodup).2.1
  refine (Multiset.Nodup.ext ?_ (Multiset.coe_nodup.mpr remainingNodup)).mpr ?_
  · exact (nodup_listAll wellFormed defaultCollection).filter _
  intro r
  rw [missingFrom, Multiset.mem_filter, Server.unseen_iff, Server.reached_ingestAll_iff,
    not_or, Multiset.mem_coe, ← and_assoc, ← isMissing, List.mem_append]
  constructor
  · rintro ⟨early | late, unreported⟩
    · exact absurd ⟨r, early, rfl, le_rfl⟩ unreported
    · exact late
  · intro late
    refine ⟨.inr late, ?_⟩
    rintro ⟨f, early, sameWriter, above⟩
    have below := (List.pairwise_append.mp order.sorted).2.2 f early r late
    have inPeer := ((isMissing r).mp (List.mem_append_right _ late)).1
    have fetchedInPeer := ((isMissing f).mp (List.mem_append_left _ early)).1
    have same := distinct f r fetchedInPeer inPeer sameWriter (le_antisymm below above)
    exact (List.nodup_append.mp nodup).2.2 f early r late same

theorem filter_listing_perm (listing : Listing peer defaultCollection)
    {fetched remaining : List Record}
    (order : ClockOrder (fetched ++ remaining) (missingFrom peer server.kv)) :
    (listing.ordered.filter
      (Server.unseen (server.ingestAll fetched).kv)).Perm remaining := by
  have missing := missingFrom_ingestAll wellFormed distinct order
  rw [missingFrom, ← listing.complete, Multiset.filter_coe] at missing
  simpa using Multiset.coe_eq_coe.mp missing

/-- Every listing of the remaining records continues the clock order. -/
theorem ClockOrder.relist {fetched remaining : List Record}
    (order : ClockOrder (fetched ++ remaining) (missingFrom peer server.kv))
    (listing : Listing peer defaultCollection) :
    ClockOrder (fetched ++ listing.ordered.filter
      (Server.unseen (server.ingestAll fetched).kv)) (missingFrom peer server.kv) := by
  have perm := filter_listing_perm wellFormed distinct listing order
  obtain ⟨fetchedSorted, _, ahead⟩ := List.pairwise_append.mp order.sorted
  constructor
  · rw [← order.complete, Multiset.coe_eq_coe]
    exact perm.append_left fetched
  · rw [List.pairwise_append]
    refine ⟨fetchedSorted, listing.sorted.filter _, ?_⟩
    intro f early r late
    exact ahead f early r (perm.mem_iff.mp late)

end Remaining

/-- The state of the loop after a page: `fetched` came with earlier pages and
`ordered` was missing when this page was taken. -/
structure PageTaken (peer : MemoryStore) (start server : Server) (reply : CheckReply)
    (fetched ordered : List Record) : Prop where
  ingested : server = start.ingestAll (fetched ++ ordered.take 100)
  order : ClockOrder (fetched ++ ordered) (missingFrom peer start.kv.overJson)
  aligned : 100 ∣ fetched.length
  more : reply.hasMore = true ↔ 100 ≤ ordered.length ∧
    ∃ z ∈ ordered, ((ordered.take 100).getLast?.map Record.id).getD [] < z.id
  cursor : reply.hasMore = true →
    reply.nextCursor = ((ordered.take 100).getLast?.map Record.id).getD []

theorem handleCheck_reply {all : List Record} {vector : KnowledgeVector}
    {cursor : GoString} {ordered : List Record}
    (missing : (afterCursor all cursor).filter (Server.unseen vector) = ordered)
    (listed : all.filter (Server.unseen vector) = ordered) :
    (handleCheck all vector 0 cursor).missing = ordered.take 100 ∧
    ((handleCheck all vector 0 cursor).hasMore = true ↔ 100 ≤ ordered.length ∧
      ∃ z ∈ ordered, ((ordered.take 100).getLast?.map Record.id).getD [] < z.id) ∧
    ((handleCheck all vector 0 cursor).hasMore = true →
      (handleCheck all vector 0 cursor).nextCursor =
        ((ordered.take 100).getLast?.map Record.id).getD []) := by
  have page := handleCheck_missing all vector cursor
  rw [missing] at page
  have hasMore : (handleCheck all vector 0 cursor).hasMore = true ↔
      100 ≤ ordered.length ∧
        ∃ z ∈ ordered, ((ordered.take 100).getLast?.map Record.id).getD [] < z.id := by
    change (decide ((handleCheck all vector 0 cursor).missing.length ≥ 100) &&
      all.any fun r => !decide (r.id ≤
        (((handleCheck all vector 0 cursor).missing.getLast?.map Record.id).getD [])) &&
          Server.unseen vector r) = true ↔ _
    rw [page, ← listed]
    simp [and_assoc, and_comm]
  refine ⟨page, hasMore, ?_⟩
  intro more
  have full := (hasMore.mp more).1
  have nonempty : (handleCheck all vector 0 cursor).missing.isEmpty = false := by
    rw [page]
    cases ordered with
    | nil => simp at full
    | cons head rest => rfl
  change (if (handleCheck all vector 0 cursor).hasMore &&
      !(handleCheck all vector 0 cursor).missing.isEmpty then
        (((handleCheck all vector 0 cursor).missing.getLast?.map Record.id).getD [])
      else []) = _
  rw [more, nonempty, page]
  rfl

theorem exists_full_page {ordered : List Record} (full : 100 ≤ ordered.length) :
    ∃ page x, ordered.take 100 = page ++ [x] ∧ page.length = 99 := by
  have length : (ordered.take 100).length = 100 := List.length_take_of_le full
  have nonempty : ordered.take 100 ≠ [] := by
    intro empty
    rw [empty] at length
    contradiction
  refine ⟨(ordered.take 100).dropLast, (ordered.take 100).getLast nonempty,
    (List.dropLast_append_getLast nonempty).symm, ?_⟩
  rw [List.length_dropLast, length]

theorem validText_lastID {missing : List Record} (valid : ∀ r ∈ missing, r.ValidText) :
    Utf8.Valid ((missing.getLast?.map Record.id).getD []) := by
  cases last : missing.getLast? with
  | none => rfl
  | some r => exact (valid r (List.mem_of_getLast? last)).id

theorem handleCheck_sublist (all : List Record) (vector : KnowledgeVector)
    (cursor : GoString) : (handleCheck all vector 0 cursor).missing.Sublist all := by
  rw [handleCheck_missing]
  refine (List.take_sublist _ _).trans (List.filter_sublist.trans ?_)
  unfold afterCursor
  split
  next => exact List.Sublist.refl all
  next => exact List.dropWhile_sublist _

theorem unseen_of_mem_handleCheck {all : List Record} {vector : KnowledgeVector}
    {cursor : GoString} {r : Record} (member : r ∈ (handleCheck all vector 0 cursor).missing) :
    Server.unseen vector r = true := by
  rw [handleCheck_missing] at member
  exact List.of_mem_filter (List.mem_of_mem_take member)

theorem mem_missingFrom_iff {peer : MemoryStore} {kv : KnowledgeVector} {r : Record} :
    r ∈ missingFrom peer kv ↔ r ∈ peer.listAll defaultCollection ∧
      ¬ Watermark.Reached kv r.updatedBy r.clock := by
  rw [missingFrom, Multiset.mem_filter, Server.unseen_iff]

/-- Valid text crosses the wire unchanged. -/
theorem Answered.exists_listing {peer : MemoryStore} {server : Server}
    {cursor : GoString} {reply : CheckReply}
    (valid : ∀ r ∈ missingFrom peer server.kv.overJson, r.ValidText)
    (validCursor : Utf8.Valid cursor) (answered : Answered peer server cursor reply) :
    ∃ listing : Listing peer defaultCollection,
      reply = handleCheck listing.ordered server.kv.overJson 0 cursor := by
  cases answered with
  | @reply sentReply listing sent _ =>
      refine ⟨listing, ?_⟩
      rw [validCursor] at sent
      have validPage : ∀ r ∈ sentReply.missing, r.ValidText := by
        intro r member
        rw [sent] at member
        apply valid
        rw [missingFrom, Multiset.mem_filter, ← listing.complete]
        exact ⟨(handleCheck_sublist _ _ _).subset member, unseen_of_mem_handleCheck member⟩
      have validNext : Utf8.Valid sentReply.nextCursor := by
        have lastID := validText_lastID validPage
        rw [sent] at lastID ⊢
        unfold handleCheck at lastID ⊢
        dsimp only at lastID ⊢
        split
        next => exact lastID
        next => rfl
      rw [← sent]
      ext1
      · exact Record.map_overJson_of_valid validPage
      · exact validNext
      · rfl

/-- In any clock order of the missing records: no other node id of the vector
becomes the writer of a record on a full page. -/
def FullPagesKept (peer : MemoryStore) (kv : KnowledgeVector) : Prop :=
  ∀ ordered, ClockOrder ordered (missingFrom peer kv.overJson) →
    ∀ fetched rest, ordered = fetched ++ rest → 100 ∣ fetched.length →
      ∀ r ∈ fetched, kv.Carried r.updatedBy

/-- What the loop asks of the missing records: their texts arrive as they were
sent, the next request shows the full pages as seen, and its cursor passes the
records that are left. -/
structure Pageable (peer : MemoryStore) (kv : KnowledgeVector) : Prop where
  valid : ∀ r ∈ missingFrom peer kv.overJson, r.ValidText
  kept : FullPagesKept peer kv
  advances : CursorAdvances peer kv.overJson

section Complete

variable {peer : MemoryStore} {start : Server}
  (wellFormed : WellFormed peer)
  (distinct : DistinctWrites (· ∈ peer.listAll defaultCollection))
  (pageable : Pageable peer start.kv)

omit wellFormed distinct in
include pageable in
theorem Pageable.writerKept {fetched remaining : List Record}
    (order : ClockOrder (fetched ++ remaining) (missingFrom peer start.kv.overJson))
    (aligned : 100 ∣ fetched.length) : ∀ r ∈ fetched, WriterKept start.kv r := by
  intro r member
  have missing : r ∈ missingFrom peer start.kv.overJson := by
    rw [← order.complete]
    exact List.mem_append_left _ member
  exact ⟨(pageable.valid r missing).updatedBy,
    pageable.kept _ order fetched remaining rfl aligned r member⟩

include wellFormed distinct pageable in
/-- A page whose cursor skips no missing record continues the clock order. -/
theorem PageTaken.of_answered {fetched remaining : List Record} {cursor : GoString}
    {reply : CheckReply}
    (order : ClockOrder (fetched ++ remaining) (missingFrom peer start.kv.overJson))
    (aligned : 100 ∣ fetched.length) (validCursor : Utf8.Valid cursor)
    (keeps : ∀ listing : Listing peer defaultCollection,
      (afterCursor listing.ordered cursor).filter
          (Server.unseen (start.decoded.ingestAll fetched).kv) =
        listing.ordered.filter (Server.unseen (start.decoded.ingestAll fetched).kv))
    (answered : Answered peer (start.ingestAll fetched) cursor reply) :
    ∃ ordered, PageTaken peer start
      ((start.ingestAll fetched).ingestAll reply.missing) reply fetched ordered := by
  have view : (start.ingestAll fetched).kv.overJson = (start.decoded.ingestAll fetched).kv :=
    congrArg Server.kv (Server.decoded_ingestAll (pageable.writerKept order aligned))
  have valid : ∀ r ∈ missingFrom peer (start.ingestAll fetched).kv.overJson, r.ValidText := by
    intro r member
    have left : missingFrom peer (start.decoded.ingestAll fetched).kv = remaining :=
      missingFrom_ingestAll wellFormed distinct order
    rw [view, left] at member
    apply pageable.valid
    rw [← order.complete]
    exact List.mem_append_right _ member
  obtain ⟨listing, rfl⟩ := answered.exists_listing valid validCursor
  rw [view]
  obtain ⟨page, more, next⟩ := handleCheck_reply (keeps listing) rfl
  have relisted : ClockOrder (fetched ++ listing.ordered.filter
      (Server.unseen (start.decoded.ingestAll fetched).kv)) (missingFrom peer start.decoded.kv) :=
    order.relist wellFormed distinct listing
  refine ⟨_, ?_, relisted, aligned, more, next⟩
  rw [page, Server.ingestAll_append]

omit wellFormed distinct in
include pageable in
theorem PageTaken.continues {server : Server} {reply : CheckReply}
    {fetched ordered : List Record}
    (taken : PageTaken peer start server reply fetched ordered)
    (left : 100 < ordered.length) :
    reply.hasMore = true ∧ reply.nextCursor ≠ [] := by
  obtain ⟨page, x, pageEq, pageLength⟩ := exists_full_page left.le
  have lastID : ((ordered.take 100).getLast?.map Record.id).getD [] = x.id := by
    rw [pageEq, List.getLast?_concat]
    rfl
  cases rest : ordered.drop 100 with
  | nil =>
      have short := List.drop_eq_nil_iff.mp rest
      omega
  | cons y rest' =>
      have split : ordered = page ++ x :: y :: rest' := by
        rw [← List.take_append_drop 100 ordered, pageEq, rest]
        simp
      obtain ⟨named, ⟨z, member, above⟩, _⟩ := pageable.advances _ taken.order fetched page x y
        rest' (by rw [split]) taken.aligned pageLength
      have more : reply.hasMore = true := by
        rw [taken.more, lastID]
        exact ⟨left.le, z, by rw [split]; exact member, above⟩
      refine ⟨more, ?_⟩
      rw [taken.cursor more, lastID]
      exact named

include wellFormed distinct pageable in
/-- The cursor of a full page skips no record that is still missing. -/
theorem PageTaken.keeps {server : Server} {reply : CheckReply}
    {fetched ordered : List Record}
    (taken : PageTaken peer start server reply fetched ordered)
    (more : reply.hasMore = true) (named : reply.nextCursor ≠ [])
    (listing : Listing peer defaultCollection) :
    (afterCursor listing.ordered reply.nextCursor).filter
        (Server.unseen (start.decoded.ingestAll (fetched ++ ordered.take 100)).kv) =
      listing.ordered.filter
        (Server.unseen (start.decoded.ingestAll (fetched ++ ordered.take 100)).kv) := by
  obtain ⟨page, x, pageEq, pageLength⟩ := exists_full_page (taken.more.mp more).1
  have cursor : reply.nextCursor = x.id := by
    rw [taken.cursor more, pageEq, List.getLast?_concat]
    rfl
  have order : ClockOrder ((fetched ++ ordered.take 100) ++ ordered.drop 100)
      (missingFrom peer start.decoded.kv) := by
    rw [List.append_assoc, List.take_append_drop]
    exact taken.order
  have relisted := order.relist wellFormed distinct listing
  rw [afterCursor, if_neg named]
  generalize listed : listing.ordered.filter
    (Server.unseen (start.decoded.ingestAll (fetched ++ ordered.take 100)).kv) = missing
  rw [listed] at relisted
  cases missing with
  | nil =>
      have dropped := (List.dropWhile_sublist
        (fun r => decide (r.id ≤ reply.nextCursor)) (l := listing.ordered)).filter
          (Server.unseen (start.decoded.ingestAll (fetched ++ ordered.take 100)).kv)
      rw [listed] at dropped
      exact List.eq_nil_of_sublist_nil dropped
  | cons y rest =>
      have split : (fetched ++ ordered.take 100) ++ y :: rest =
          fetched ++ (page ++ x :: y :: rest) := by
        rw [pageEq]
        simp
      obtain ⟨_, _, w, member, above, early⟩ := pageable.advances _ relisted fetched page x y
        rest split taken.aligned pageLength
      have inListing : w ∈ listing.ordered := by
        rw [← Multiset.mem_coe, listing.complete]
        exact member
      apply filter_dropWhile listing.sorted listed inListing ?_ early
      rw [cursor, decide_eq_false_iff_not, not_le]
      exact above

omit wellFormed distinct in
include pageable in
theorem PageTaken.validCursor {server : Server} {reply : CheckReply}
    {fetched ordered : List Record}
    (taken : PageTaken peer start server reply fetched ordered)
    (more : reply.hasMore = true) : Utf8.Valid reply.nextCursor := by
  rw [taken.cursor more]
  apply validText_lastID
  intro r member
  apply pageable.valid
  rw [← taken.order.complete]
  exact List.mem_append_right _ (List.mem_of_mem_take member)

include wellFormed distinct pageable in
/-- The loop fetches exactly the records that were missing. -/
theorem Paging.complete {server final : Server} {reply : CheckReply}
    {fetched ordered : List Record}
    (paging : Paging peer server reply final)
    (taken : PageTaken peer start server reply fetched ordered) :
    ∃ all : List Record, final = start.ingestAll all ∧
      (all : Multiset Record) = missingFrom peer start.kv.overJson := by
  induction paging generalizing fetched ordered with
  | last stops =>
      by_cases left : 100 < ordered.length
      · obtain ⟨more, named⟩ := taken.continues pageable left
        rcases stops with noMore | unnamed
        · rw [more] at noMore
          contradiction
        · exact absurd unnamed named
      · refine ⟨fetched ++ ordered, ?_, taken.order.complete⟩
        have whole := taken.ingested
        rw [List.take_of_length_le (Nat.le_of_not_lt left)] at whole
        exact whole
  | next more named answered _ ih =>
      have order : ClockOrder ((fetched ++ ordered.take 100) ++ ordered.drop 100)
          (missingFrom peer start.kv.overJson) := by
        rw [List.append_assoc, List.take_append_drop]
        exact taken.order
      have aligned : 100 ∣ (fetched ++ ordered.take 100).length := by
        rw [List.length_append, List.length_take_of_le (taken.more.mp more).1]
        exact Nat.dvd_add taken.aligned (Nat.dvd_refl 100)
      rw [taken.ingested] at answered ih
      obtain ⟨next, onward⟩ := PageTaken.of_answered wellFormed distinct pageable
        order aligned (taken.validCursor pageable more)
        (taken.keeps wellFormed distinct pageable more named) answered
      exact ih onward

include wellFormed distinct pageable in
theorem ReconcilesNil.complete {final : Server}
    (reconciles : ReconcilesNil peer start final) :
    ∃ all : List Record, final = start.ingestAll all ∧
      (all : Multiset Record) = missingFrom peer start.kv.overJson := by
  obtain ⟨reply, answered, paging⟩ := reconciles
  have unset : Utf8.Valid [] := rfl
  obtain ⟨listing, _⟩ := answered.exists_listing pageable.valid unset
  have order : ClockOrder ([] ++ listing.ordered.filter (Server.unseen start.kv.overJson))
      (missingFrom peer start.kv.overJson) := by
    refine ⟨?_, listing.sorted.filter _⟩
    rw [missingFrom, ← listing.complete, Multiset.filter_coe, List.nil_append]
    simp
  obtain ⟨ordered, taken⟩ := PageTaken.of_answered wellFormed distinct pageable
    order (Nat.dvd_zero 100) unset (fun _ => rfl) answered
  exact paging.complete wellFormed distinct pageable taken

end Complete

def StampsAgree (peer : MemoryStore) (server : Server) : Prop :=
  ∀ r ∈ peer.listAll defaultCollection, ∀ held,
    server.store.records.lookup r.key = some held →
      held.updatedBy = r.updatedBy → held.clock = r.clock → held = r

theorem holdsOrBeats_ingestAll {peer : MemoryStore} {server : Server}
    (wellFormed : WellFormed peer)
    (distinct : DistinctWrites (· ∈ peer.listAll defaultCollection))
    (agree : StampsAgree peer server) {changes : List Record}
    (fromPeer : ∀ q ∈ changes, q ∈ peer.listAll defaultCollection) {r : Record}
    (member : r ∈ peer.listAll defaultCollection)
    (covers : (server.ingestAll changes).store.Covers r) :
    (server.ingestAll changes).store.HoldsOrBeats r := by
  apply covers.holdsOrBeats
  intro held found sameWriter sameClock
  rw [Server.ingestAll_store] at found
  rcases MemoryStore.lookup_putAll_source found with initial | ⟨q, inChanges, rfl, _⟩
  · exact agree r member held initial sameWriter sameClock
  · have inPeer := fromPeer q inChanges
    obtain ⟨_, _, _, stored⟩ := (mem_listAll_iff wellFormed _ q).mp inPeer
    rw [Record.defaulted_of_named (wellFormed.named stored)] at sameClock sameWriter ⊢
    exact distinct q r inPeer member sameWriter sameClock

/-- The records ingested by a call that returns nil leave nothing of the
peer's default collection uncovered. -/
theorem ReconcilesNil.covers {peer : MemoryStore} {server final : Server}
    (reconciles : ReconcilesNil peer server final) (wellFormed : WellFormed peer)
    (distinct : DistinctWrites (· ∈ peer.listAll defaultCollection))
    (pageable : Pageable peer server.kv)
    (sound : ∀ r ∈ peer.listAll defaultCollection,
      Watermark.Reached server.kv.overJson r.updatedBy r.clock → server.store.Covers r) :
    ∃ all, final = server.ingestAll all ∧
      (∀ q ∈ all, q ∈ peer.listAll defaultCollection) ∧
      ∀ r ∈ peer.listAll defaultCollection, (server.ingestAll all).store.Covers r := by
  obtain ⟨all, rfl, complete⟩ := reconciles.complete wellFormed distinct pageable
  have fetched : ∀ q, q ∈ all ↔ q ∈ missingFrom peer server.kv.overJson := by
    intro q
    rw [← complete, Multiset.mem_coe]
  refine ⟨all, rfl, ?_, ?_⟩
  · intro q inAll
    exact Multiset.mem_of_mem_filter ((fetched q).mp inAll)
  · intro r member
    rw [Server.ingestAll_store]
    by_cases seen : Watermark.Reached server.kv.overJson r.updatedBy r.clock
    · exact (sound r member seen).putAll all
    · have isMissing := mem_missingFrom_iff.mpr ⟨member, seen⟩
      obtain ⟨_, _, _, stored⟩ := (mem_listAll_iff wellFormed _ r).mp member
      have covers := MemoryStore.covers_putAll server.store ((fetched r).mpr isMissing)
      rw [Record.defaulted_of_named (wellFormed.named stored)] at covers
      exact covers

/-- Where all texts are valid, only the cursor matters. -/
theorem pageable_of_valid {peer : MemoryStore} {kv : KnowledgeVector}
    (validPeer : ∀ r ∈ peer.listAll defaultCollection, r.ValidText)
    (validKv : kv.ValidText) (advances : CursorAdvances peer kv) : Pageable peer kv := by
  constructor
  · intro r missing
    exact validPeer r (Multiset.mem_of_mem_filter missing)
  · intro ordered _ fetched rest _ _ r _ other clock found
    have kept : Utf8.coerce other = other := validKv other clock found
    rw [kept]
  · rw [KnowledgeVector.overJson_of_valid validKv]
    exact advances

theorem reconcile_complete (peer : MemoryStore) (wellFormed : WellFormed peer)
    (distinct : DistinctWrites (· ∈ peer.listAll defaultCollection))
    (server : Server) (agree : StampsAgree peer server) (sound : SoundFor peer server)
    (decodes : ∀ r ∈ peer.listAll defaultCollection,
      Watermark.Reached server.kv.overJson r.updatedBy r.clock →
        Watermark.Reached server.kv r.updatedBy r.clock ∨ server.store.HoldsOrBeats r)
    (pageable : Pageable peer server.kv)
    (final : Server) (reconciles : ReconcilesNil peer server final) :
    ∀ r ∈ peer.listAll defaultCollection, final.store.HoldsOrBeats r := by
  have seen : ∀ r ∈ peer.listAll defaultCollection,
      Watermark.Reached server.kv.overJson r.updatedBy r.clock → server.store.Covers r := by
    intro r member reached
    rcases decodes r member reached with itself | holds
    · exact (sound r member itself).covers
    · exact holds.covers
  obtain ⟨all, rfl, fromPeer, covers⟩ := reconciles.covers wellFormed distinct pageable seen
  intro r member
  exact holdsOrBeats_ingestAll wellFormed distinct agree fromPeer member (covers r member)

theorem cursorAdvances_of_few {peer : MemoryStore} {kv : KnowledgeVector}
    (few : (missingFrom peer kv).card ≤ 100) : CursorAdvances peer kv := by
  intro ordered order fetched page x y rest split _ full
  have bound : ordered.length ≤ 100 := by
    rw [← Multiset.coe_card, order.complete]
    exact few
  rw [split] at bound
  simp at bound
  omega

theorem reconcilesNil_of_reply {peer : MemoryStore} {server : Server}
    {ordered : List Record}
    (order : ClockOrder ordered (peer.listAll defaultCollection))
    (validKv : server.kv.ValidText) (valid : ∀ r ∈ ordered, r.ValidText)
    (encodes : ∀ r ∈ ordered, r.hasJson = true)
    (stops : (handleCheck ordered server.kv 0 []).hasMore = false) :
    ReconcilesNil peer server
      (server.ingestAll ((ordered.filter (Server.unseen server.kv)).take 100)) := by
  generalize replied : handleCheck ordered server.kv 0 [] = reply at stops
  have sent : reply = handleCheck ordered server.kv.overJson 0 (Utf8.coerce []) := by
    rw [KnowledgeVector.overJson_of_valid validKv]
    exact replied.symm
  have page : reply.missing = (ordered.filter (Server.unseen server.kv)).take 100 := by
    rw [← replied]
    exact handleCheck_missing ordered server.kv []
  have listed : ∀ r ∈ reply.missing, r ∈ ordered := by
    intro r member
    rw [page] at member
    exact List.mem_of_mem_filter (List.mem_of_mem_take member)
  have unchanged : reply.overJson.missing = reply.missing :=
    Record.map_overJson_of_valid fun r member => valid r (listed r member)
  have answered : Answered peer server [] reply.overJson := by
    refine .reply ⟨ordered, order.complete, order.sorted⟩ sent ?_
    rw [List.all_eq_true]
    exact fun r member => encodes r (listed r member)
  refine ⟨reply.overJson, answered, ?_⟩
  rw [unchanged, page]
  exact .last (.inl stops)

theorem reconcile_complete_two_records :
    let first : Record := { Record.zero with
      collection := defaultCollection, id := ascii ['x'], clock := ⟨5, 0⟩
      updatedBy := ascii ['a'] }
    let second : Record := { Record.zero with
      collection := defaultCollection, id := ascii ['y'], clock := ⟨7, 2⟩
      updatedBy := ascii ['b'] }
    let peer := (newMemoryStore (ascii ['p']) 0).putAll [second, first]
    let server := newServer (newMemoryStore (ascii ['l']) 0) (ascii ['l'])
    ∀ r ∈ peer.listAll defaultCollection,
      (server.ingestAll [first, second]).store.HoldsOrBeats r := by
  intro first second peer server
  have listed : peer.listAll defaultCollection = [second, first] :=
    listAll_putAll_new (by decide) (by decide) (by decide) _ _
  have valid : ∀ r ∈ [first, second], r.ValidText := by decide
  have members : ∀ r, r ∈ peer.listAll defaultCollection ↔ r ∈ [first, second] := by
    intro r
    rw [listed]
    simp [or_comm]
  have unseen : server.kv = ∅ := rfl
  have validKv : server.kv.ValidText := KnowledgeVector.validText_empty
  have order : ClockOrder [first, second] (peer.listAll defaultCollection) := by
    refine ⟨?_, by decide⟩
    rw [listed]
    exact Multiset.coe_eq_coe.mpr (.swap _ _ _)
  have reconciles : ReconcilesNil peer server (server.ingestAll [first, second]) :=
    reconcilesNil_of_reply order validKv valid (by decide) (by decide)
  have distinct : DistinctWrites (· ∈ peer.listAll defaultCollection) := by
    intro left right leftMember rightMember sameWriter _
    rw [members] at leftMember rightMember
    have apart : ∀ left ∈ [first, second], ∀ right ∈ [first, second],
        left.updatedBy = right.updatedBy → left = right := by decide
    exact apart left leftMember right rightMember sameWriter
  have advances : CursorAdvances peer server.kv := by
    apply cursorAdvances_of_few
    rw [missingFrom, listed]
    exact (Multiset.card_le_card (Multiset.filter_le _ _)).trans (by decide)
  have pageable : Pageable peer server.kv :=
    pageable_of_valid (fun r member => valid r ((members r).mp member)) validKv advances
  exact reconcile_complete peer ((wellFormed_newMemoryStore _ _).putAll _) distinct server
    (by intro r _ held found; simp [server, newServer, newMemoryStore] at found)
    (by rintro r _ ⟨mark, found, _⟩; simp [unseen] at found)
    (by
      rw [KnowledgeVector.overJson_of_valid validKv]
      exact fun _ _ reached => .inl reached)
    pageable _ reconciles

/-! One writer's records 1 to 101 by clock; the hundredth has the greatest id. -/

def numbered (index : Nat) : Record :=
  { Record.zero with
    collection := defaultCollection
    id := [if index = 99 then 127 else Fin.ofNat 256 (index + 1)]
    clock := ⟨Int64.ofNat (index + 1), 0⟩
    updatedBy := ascii ['w'] }

def hundredOne : List Record := (List.range 101).map numbered

theorem mem_hundredOne {r : Record} (member : r ∈ hundredOne) :
    ∃ index < 101, numbered index = r := by
  obtain ⟨index, inRange, same⟩ := List.mem_map.mp member
  exact ⟨index, List.mem_range.mp inRange, same⟩

theorem numbered_wallTime {index : Nat} (bound : index < 101) :
    (numbered index).clock.wallTime.toInt = index + 1 :=
  Int64.toInt_ofNat_of_lt (by omega)

theorem numbered_clock_lt {first second : Nat} (ordered : first < second)
    (bound : second < 101) : (numbered first).clock < (numbered second).clock := by
  apply HLC.lt_of_wallTime_lt
  rw [Int64.lt_iff_toInt_lt, numbered_wallTime (by omega), numbered_wallTime bound]
  omega

theorem numbered_injective_of_clock {first second : Nat} (firstBound : first < 101)
    (secondBound : second < 101)
    (sameClock : (numbered first).clock = (numbered second).clock) : first = second := by
  rcases Nat.lt_trichotomy first second with below | same | above
  · exact absurd sameClock (numbered_clock_lt below secondBound).ne
  · exact same
  · exact absurd sameClock (numbered_clock_lt above firstBound).ne'

theorem numbered_injective_of_key {first second : Nat} (firstBound : first < 101)
    (secondBound : second < 101)
    (sameKey : (numbered first).key = (numbered second).key) : first = second := by
  have sameId : (numbered first).id = (numbered second).id :=
    flatKey_right_injective defaultCollection sameKey
  have sameByte : (if first = 99 then 127 else (Fin.ofNat 256 (first + 1))).val =
      (if second = 99 then 127 else (Fin.ofNat 256 (second + 1))).val :=
    congrArg Fin.val (List.cons.inj sameId).1
  split at sameByte <;> split at sameByte <;> simp at sameByte <;> omega

/-- The first page ends in the greatest id, so no more is announced and the
last record is never fetched. -/
theorem reconcile_skips_record :
    let peer := (newMemoryStore (ascii ['p']) 0).putAll hundredOne
    let server := newServer (newMemoryStore (ascii ['l']) 0) (ascii ['l'])
    WellFormed peer ∧ DistinctWrites (· ∈ peer.listAll defaultCollection) ∧
      StampsAgree peer server ∧ SoundFor peer server ∧
      ∃ final, ReconcilesNil peer server final ∧
        numbered 100 ∈ peer.listAll defaultCollection ∧
        ¬ final.store.HoldsOrBeats (numbered 100) := by
  intro peer server
  have keys : (hundredOne.map Record.key).Nodup := by
    rw [hundredOne, List.map_map]
    refine List.Nodup.map_on ?_ List.nodup_range
    intro first firstRange second secondRange
    exact numbered_injective_of_key (List.mem_range.mp firstRange)
      (List.mem_range.mp secondRange)
  have listed : peer.listAll defaultCollection = hundredOne := by
    refine listAll_putAll_new (by decide) ?_ keys _ _
    intro r member
    obtain ⟨index, _, rfl⟩ := mem_hundredOne member
    rfl
  have unseen : server.kv = ∅ := rfl
  have validKv : server.kv.ValidText := KnowledgeVector.validText_empty
  have order : ClockOrder hundredOne (peer.listAll defaultCollection) := by
    refine ⟨listed.symm, ?_⟩
    rw [hundredOne, List.pairwise_map]
    refine List.pairwise_lt_range.imp_of_mem ?_
    intro first second _ secondRange ordered
    exact (numbered_clock_lt ordered (List.mem_range.mp secondRange)).le
  have reconciles := reconcilesNil_of_reply order validKv (by decide +kernel)
    (by decide +kernel) (by decide +kernel)
  refine ⟨(wellFormed_newMemoryStore _ _).putAll _, ?_, ?_, ?_, _, reconciles, ?_, ?_⟩
  · rw [listed]
    intro left right leftMember rightMember _ sameClock
    obtain ⟨first, firstBound, rfl⟩ := mem_hundredOne leftMember
    obtain ⟨second, secondBound, rfl⟩ := mem_hundredOne rightMember
    rw [numbered_injective_of_clock firstBound secondBound sameClock]
  · intro r _ held found
    simp [server, newServer, newMemoryStore] at found
  · rintro r _ ⟨mark, found, _⟩
    simp [unseen] at found
  · rw [listed]
    exact List.mem_map_of_mem (by decide)
  · rintro ⟨held, found, _⟩
    rw [Server.ingestAll_store] at found
    rcases MemoryStore.lookup_putAll_source found with initial | ⟨q, inPage, rfl, placed⟩
    · simp [server, newServer, newMemoryStore] at initial
    · have elsewhere : ∀ q ∈ (hundredOne.filter (Server.unseen ∅)).take 100,
          q.defaulted.key ≠ (numbered 100).key := by decide +kernel
      exact elsewhere q inPage placed

end NellDB
