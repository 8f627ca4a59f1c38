import NellDB.Server.Reconcile

namespace NellDB

open Data

/-! The page requests of one `reconcileOneInner` call. -/

/-- The pages the peer has sent so far, the newest first, and the server that has
ingested them.  The call may end after any of them: when no more is announced,
or with an error. -/
inductive Pages (peer : MemoryStore) (start : Server) : List CheckReply → Server → Prop
  | first (listing : Listing peer defaultCollection)
      (sent : reply = handleCheck listing.ordered start.kv.overJson 0 (Utf8.coerce []))
      (encodes : reply.missing.all Record.hasJson = true) :
      Pages peer start [reply] (start.ingestAll reply.overJson.missing)
  | next (pages : Pages peer start (last :: earlier) server)
      (more : last.hasMore = true) (named : last.overJson.nextCursor ≠ [])
      (listing : Listing peer defaultCollection)
      (sent : reply = handleCheck listing.ordered server.kv.overJson 0
        (Utf8.coerce last.overJson.nextCursor))
      (encodes : reply.missing.all Record.hasJson = true) :
      Pages peer start (reply :: last :: earlier) (server.ingestAll reply.overJson.missing)

theorem Paging.pages {peer : MemoryStore} {start server final : Server} {reply : CheckReply}
    (paging : Paging peer server reply final) {last : CheckReply} {earlier : List CheckReply}
    (decoded : reply = last.overJson) (run : Pages peer start (last :: earlier) server) :
    ∃ pages, Pages peer start pages final := by
  induction paging generalizing last earlier with
  | last _ => exact ⟨_, run⟩
  | next more named answered _ ih =>
      subst decoded
      cases answered with
      | reply listing sent encodes => exact ih rfl (run.next more named listing sent encodes)

/-- A call that returns nil is a run of page requests. -/
theorem ReconcilesNil.pages {peer : MemoryStore} {start final : Server}
    (reconciles : ReconcilesNil peer start final) : ∃ pages, Pages peer start pages final := by
  obtain ⟨reply, answered, paging⟩ := reconciles
  cases answered with
  | reply listing sent encodes => exact paging.pages rfl (.first listing sent encodes)

/-- More is announced behind full pages only. -/
theorem full_of_hasMore {all : List Record} {vector : KnowledgeVector} {cursor : GoString}
    (more : (handleCheck all vector 0 cursor).hasMore = true) :
    100 ≤ (handleCheck all vector 0 cursor).missing.length :=
  of_decide_eq_true (Bool.and_eq_true_iff.mp more).1

theorem Server.carried_ingestAll {server : Server} {nodeID : GoString}
    (carried : server.kv.Carried nodeID) (changes : List Record) :
    (server.ingestAll (changes.map Record.overJson)).kv.Carried nodeID := by
  induction changes generalizing server with
  | nil => exact carried
  | cons head rest ih => exact ih (carried.update head.updatedBy head.clock)

namespace Pages

variable {peer : MemoryStore} {start server : Server} {pages : List CheckReply}

theorem within (run : Pages peer start pages server) :
    ∀ page ∈ pages, (page.missing : Multiset Record) ≤ peer.listAll defaultCollection := by
  induction run with
  | first listing sent _ =>
      intro page member
      rw [List.mem_singleton.mp member, sent, ← listing.complete]
      exact (handleCheck_sublist _ _ _).subperm
  | next _ _ _ listing sent _ ih =>
      intro page member
      rcases List.mem_cons.mp member with rfl | inEarlier
      · rw [sent, ← listing.complete]
        exact (handleCheck_sublist _ _ _).subperm
      · exact ih page inEarlier

theorem full_of_more (run : Pages peer start pages server) :
    ∀ page ∈ pages, page.hasMore = true → 100 ≤ page.missing.length := by
  induction run with
  | first _ sent _ =>
      intro page member more
      rw [List.mem_singleton.mp member, sent] at more ⊢
      exact full_of_hasMore more
  | next _ _ _ _ sent _ ih =>
      intro page member more
      rcases List.mem_cons.mp member with rfl | inEarlier
      · rw [sent] at more ⊢
        exact full_of_hasMore more
      · exact ih page inEarlier more

theorem carried (run : Pages peer start pages server) {nodeID : GoString}
    (initially : start.kv.Carried nodeID) : server.kv.Carried nodeID := by
  induction run with
  | first => exact Server.carried_ingestAll initially _
  | next _ _ _ _ _ _ ih => exact Server.carried_ingestAll ih _

/-- A record whose writer is valid text is marked as seen once its page was
ingested. -/
theorem reached (run : Pages peer start pages server) :
    ∀ page ∈ pages, ∀ r ∈ page.missing, Utf8.Valid r.updatedBy →
      Watermark.Reached server.kv r.updatedBy r.clock := by
  have ingested {server : Server} {page : CheckReply} {r : Record} (member : r ∈ page.missing)
      (valid : Utf8.Valid r.updatedBy) :
      Watermark.Reached (server.ingestAll page.overJson.missing).kv r.updatedBy r.clock :=
    (Server.reached_ingestAll_iff _ _ _ _).mpr
      (.inr ⟨r.overJson, List.mem_map_of_mem member, valid, le_rfl⟩)
  induction run with
  | first =>
      intro page member r inPage valid
      rw [List.mem_singleton.mp member] at inPage
      exact ingested inPage valid
  | next _ _ _ _ _ _ ih =>
      intro page member r inPage valid
      rcases List.mem_cons.mp member with rfl | inEarlier
      · exact ingested inPage valid
      · exact (Server.reached_ingestAll_iff _ _ _ _).mpr
          (.inl (ih page inEarlier r inPage valid))

end Pages

theorem Pages.disjoint {peer : MemoryStore} {start server : Server} {pages : List CheckReply}
    (run : Pages peer start pages server)
    (kept : ∀ page ∈ pages.tail, ∀ r ∈ page.missing, WriterKept start.kv r) :
    pages.Pairwise fun later earlier => later.missing.Disjoint earlier.missing := by
  induction run with
  | first => exact List.pairwise_singleton _ _
  | next run _ _ _ sent _ ih =>
      refine List.pairwise_cons.mpr ⟨?_, ih ?_⟩
      · -- the vector of the request has reached whatever came before it
        intro page member r again inPage
        have writer := kept page member r inPage
        have seen := run.reached page member r inPage writer.valid
        rw [sent] at again
        have fresh := (Server.unseen_iff _ _).mp (unseen_of_mem_handleCheck again)
        apply fresh
        unfold Watermark.Reached at seen ⊢
        rw [KnowledgeVector.lookup_overJson_of_carried (run.carried writer.carried)]
        exact seen
      · intro page member
        exact kept page (List.mem_of_mem_tail member)

theorem coe_flatten_le_of_disjoint {α : Type*} {parts : List (List α)} {whole : Multiset α}
    (below : ∀ part ∈ parts, (part : Multiset α) ≤ whole)
    (disjoint : parts.Pairwise List.Disjoint) : (parts.flatten : Multiset α) ≤ whole := by
  classical
  induction parts with
  | nil => exact Multiset.zero_le whole
  | cons part rest ih =>
      obtain ⟨apart, others⟩ := List.pairwise_cons.mp disjoint
      have onward := ih (fun other member => below other (List.mem_cons_of_mem part member)) others
      have separate : Disjoint (part : Multiset α) (rest.flatten : Multiset α) := by
        rw [Multiset.coe_disjoint]
        intro entry inPart inRest
        obtain ⟨other, member, inOther⟩ := List.mem_flatten.mp inRest
        exact apart other member inPart inOther
      rw [List.flatten_cons, ← Multiset.coe_add,
        Multiset.add_eq_union_iff_disjoint.mpr separate]
      exact Multiset.union_le (below part List.mem_cons_self) onward

/-- The requests of a call that has received these pages: the first one, and one
behind each page that announces more. -/
def requestsIssued (pages : List CheckReply) : Nat :=
  1 + pages.countP fun page => page.hasMore && decide (page.overJson.nextCursor ≠ [])

theorem length_flatten_of_full {pages : List CheckReply}
    (full : ∀ page ∈ pages, page.hasMore = true → 100 ≤ page.missing.length) :
    100 * (pages.countP fun page => page.hasMore && decide (page.overJson.nextCursor ≠ [])) ≤
      (pages.map CheckReply.missing).flatten.length := by
  induction pages with
  | nil => exact Nat.le_refl 0
  | cons page rest ih =>
      have onward := ih fun other member => full other (List.mem_cons_of_mem page member)
      have first := full page List.mem_cons_self
      rw [List.countP_cons, List.map_cons, List.flatten_cons, List.length_append]
      split
      next asks =>
          have room := first (Bool.and_eq_true_iff.mp asks).1
          omega
      next => omega

/-- Where every page that is followed by another request holds only records whose
writers JSON keeps apart, the loop ends and sends nothing twice. -/
theorem paging_ends {peer : MemoryStore} {start server : Server} {pages : List CheckReply}
    (run : Pages peer start pages server)
    (kept : ∀ page ∈ pages.tail, ∀ r ∈ page.missing, WriterKept start.kv r) :
    requestsIssued pages ≤ 1 + (peer.listAll defaultCollection).card / 100 ∧
      pages.Pairwise fun later earlier => later.missing.Disjoint earlier.missing := by
  have disjoint := run.disjoint kept
  refine ⟨?_, disjoint⟩
  have below : ∀ part ∈ pages.map CheckReply.missing,
      (part : Multiset Record) ≤ peer.listAll defaultCollection := by
    intro part member
    obtain ⟨page, inPages, rfl⟩ := List.mem_map.mp member
    exact run.within page inPages
  have together := coe_flatten_le_of_disjoint below (List.pairwise_map.mpr disjoint)
  have fitting := Multiset.card_le_card together
  rw [Multiset.coe_card] at fitting
  have counted := length_flatten_of_full run.full_of_more
  unfold requestsIssued
  omega

/-! One writer's records 1 to 101 by clock; the hundredth has the smallest id. -/

def shuffled (writer : GoString) (index : Nat) : Record :=
  { numbered index with
    id := [if index = 99 then 1 else Fin.ofNat 256 (index + 2)]
    updatedBy := writer }

def shuffledRecords (writer : GoString) : List Record := (List.range 101).map (shuffled writer)

def shuffledPeer (writer : GoString) : MemoryStore :=
  (newMemoryStore (ascii ['p']) 0).putAll (shuffledRecords writer)

theorem shuffled_injective_of_key (writer : GoString) {first second : Nat}
    (firstBound : first < 101) (secondBound : second < 101)
    (sameKey : (shuffled writer first).key = (shuffled writer second).key) :
    first = second := by
  have sameId : (shuffled writer first).id = (shuffled writer second).id :=
    flatKey_right_injective defaultCollection sameKey
  have sameByte : (if first = 99 then 1 else (Fin.ofNat 256 (first + 2))).val =
      (if second = 99 then 1 else (Fin.ofNat 256 (second + 2))).val :=
    congrArg Fin.val (List.cons.inj sameId).1
  split at sameByte <;> split at sameByte <;> simp at sameByte <;> omega

theorem listAll_shuffledPeer (writer : GoString) :
    (shuffledPeer writer).listAll defaultCollection = shuffledRecords writer := by
  refine listAll_putAll_new (by decide) ?_ ?_ _ _
  · intro r member
    obtain ⟨index, _, rfl⟩ := List.mem_map.mp member
    rfl
  · rw [shuffledRecords, List.map_map]
    refine List.Nodup.map_on ?_ List.nodup_range
    intro first firstRange second secondRange
    exact shuffled_injective_of_key writer (List.mem_range.mp firstRange)
      (List.mem_range.mp secondRange)

def shuffledListing (writer : GoString) : Listing (shuffledPeer writer) defaultCollection where
  ordered := shuffledRecords writer
  complete := (listAll_shuffledPeer writer).symm
  sorted := by
    rw [shuffledRecords, List.pairwise_map]
    refine List.pairwise_lt_range.imp_of_mem ?_
    intro first second _ secondRange ordered
    exact (numbered_clock_lt ordered (List.mem_range.mp secondRange)).le

theorem hasJson_shuffled (writer : GoString) (vector : KnowledgeVector) (cursor : GoString) :
    (handleCheck (shuffledRecords writer) vector 0 cursor).missing.all Record.hasJson = true := by
  rw [List.all_eq_true]
  intro r member
  obtain ⟨index, _, rfl⟩ := List.mem_map.mp ((handleCheck_sublist _ _ _).subset member)
  rfl

/-- A vector that does not know the writer gets the first hundred records, however
the request was continued. -/
theorem handleCheck_shuffled {writer : GoString} {vector : KnowledgeVector}
    (unknown : vector.lookup writer = none) {cursor : GoString}
    (early : cursor = [] ∨ cursor = [1]) :
    (handleCheck (shuffledRecords writer) vector 0 cursor).missing =
        (shuffledRecords writer).take 100 ∧
      (handleCheck (shuffledRecords writer) vector 0 cursor).hasMore = true ∧
      (handleCheck (shuffledRecords writer) vector 0 cursor).nextCursor = [1] := by
  have listed : (shuffledRecords writer).filter (Server.unseen vector) =
      shuffledRecords writer := by
    rw [List.filter_eq_self]
    intro r member
    obtain ⟨index, _, rfl⟩ := List.mem_map.mp member
    change Server.unseen vector { numbered index with id := _, updatedBy := writer } = true
    simp only [Server.unseen, unknown]
  have firstID : (shuffled writer 0).id = [2] := rfl
  have notSkipped : afterCursor (shuffledRecords writer) cursor = shuffledRecords writer := by
    rcases early with rfl | rfl
    · rfl
    · rw [afterCursor, if_neg (by decide)]
      refine List.dropWhile_cons_of_neg ?_
      rw [firstID]
      decide
  have ids : (shuffledRecords writer).map Record.id = (shuffledRecords []).map Record.id := by
    rw [shuffledRecords, shuffledRecords, List.map_map, List.map_map]
    rfl
  have lastID : (((shuffledRecords writer).take 100).getLast?.map Record.id).getD [] = [1] := by
    rw [← List.getLast?_map, List.map_take, ids]
    decide +kernel
  obtain ⟨page, more, next⟩ := handleCheck_reply (by rw [notSkipped, listed]) listed
  have hasMore := more.mpr ⟨by simp [shuffledRecords], shuffled writer 0,
    List.mem_map_of_mem (by decide), by rw [lastID, firstID]; decide⟩
  exact ⟨page, hasMore, (next hasMore).trans lastID⟩

theorem overJson_nextCursor {reply : CheckReply} (cursor : reply.nextCursor = [1]) :
    reply.overJson.nextCursor = [1] := by
  change Utf8.coerce reply.nextCursor = [1]
  rw [cursor]
  decide

theorem paging_ends_shuffled_ids :
    let server := newServer (newMemoryStore (ascii ['l']) 0) (ascii ['l'])
    ∃ first second final, Pages (shuffledPeer (ascii ['w'])) server [second, first] final ∧
      requestsIssued [second, first] ≤ 2 ∧ second.missing.Disjoint first.missing := by
  intro server
  have valid : server.kv.ValidText := KnowledgeVector.validText_empty
  have unknown : server.kv.overJson.lookup (ascii ['w']) = none := by
    rw [KnowledgeVector.overJson_of_valid valid]
    rfl
  obtain ⟨_, more, cursor⟩ := handleCheck_shuffled unknown (.inl rfl)
  have firstRun : Pages (shuffledPeer (ascii ['w'])) server _ _ :=
    .first (shuffledListing _) rfl (hasJson_shuffled _ _ _)
  have named {text : GoString} (one : text = [1]) : text ≠ [] := by
    rw [one]
    decide
  have run := firstRun.next more (named (overJson_nextCursor cursor)) (shuffledListing _) rfl
    (hasJson_shuffled _ _ _)
  have kept : ∀ r ∈ shuffledRecords (ascii ['w']), WriterKept server.kv r := by
    intro r member
    obtain ⟨index, _, rfl⟩ := List.mem_map.mp member
    refine ⟨(by decide : Utf8.Valid (ascii ['w'])), ?_⟩
    intro other clock found
    simp [server, newServer, newMemoryStore] at found
  obtain ⟨ended, disjoint⟩ := paging_ends run fun page member r inPage =>
    kept r ((handleCheck_sublist _ _ _).subset (List.mem_singleton.mp member ▸ inPage))
  refine ⟨_, _, _, run, ?_, (List.pairwise_cons.mp disjoint).1 _ (List.mem_singleton_self _)⟩
  rw [listAll_shuffledPeer] at ended
  simpa [shuffledRecords] using ended

/-- The writer's id is not UTF-8, so the vector of a request never has a mark for
it: every page brings the same records and announces more. -/
theorem paging_never_ends :
    let server := newServer (newMemoryStore (ascii ['l']) 0) (ascii ['l'])
    ∀ count, ∃ pages final, Pages (shuffledPeer [0xff]) server pages final ∧
      pages.length = count + 1 ∧ requestsIssued pages = count + 2 ∧
      ∀ page ∈ pages, page.missing = (shuffledRecords [0xff]).take 100 := by
  intro server count
  have unknown {kv : KnowledgeVector} (valid : kv.ValidText) :
      kv.overJson.lookup [0xff] = none := by
    rw [KnowledgeVector.overJson_of_valid valid]
    cases found : kv.lookup [0xff] with
    | none => rfl
    | some clock => exact absurd (valid _ _ found) (by decide)
  have validDecoded (page : CheckReply) : ∀ r ∈ page.overJson.missing,
      Utf8.Valid r.updatedBy := by
    intro r member
    obtain ⟨sent, _, rfl⟩ := List.mem_map.mp member
    exact Utf8.valid_coerce sent.updatedBy
  suffices endless : ∃ last earlier final,
      Pages (shuffledPeer [0xff]) server (last :: earlier) final ∧ final.kv.ValidText ∧
      earlier.length = count ∧ ∀ page ∈ last :: earlier,
        page.missing = (shuffledRecords [0xff]).take 100 ∧ page.hasMore = true ∧
          page.nextCursor = [1] by
    obtain ⟨last, earlier, final, run, _, length, same⟩ := endless
    refine ⟨last :: earlier, final, run, by rw [List.length_cons, length], ?_,
      fun page member => (same page member).1⟩
    have asking : ∀ page ∈ last :: earlier,
        (page.hasMore && decide (page.overJson.nextCursor ≠ [])) = true := by
      intro page member
      obtain ⟨_, more, cursor⟩ := same page member
      rw [more, overJson_nextCursor cursor]
      decide
    rw [requestsIssued, List.countP_eq_length.mpr asking, List.length_cons, length]
    omega
  induction count with
  | zero =>
      have valid : server.kv.ValidText := KnowledgeVector.validText_empty
      refine ⟨_, [], _, .first (shuffledListing _) rfl (hasJson_shuffled _ _ _),
        Server.validText_ingestAll valid (validDecoded _), rfl, ?_⟩
      intro page member
      rw [List.mem_singleton.mp member]
      exact handleCheck_shuffled (unknown valid) (.inl rfl)
  | succ count ih =>
      obtain ⟨last, earlier, final, run, valid, length, same⟩ := ih
      obtain ⟨_, more, cursor⟩ := same last List.mem_cons_self
      have decoded := overJson_nextCursor cursor
      have onward := run.next more (by rw [decoded]; decide) (shuffledListing _) rfl
        (hasJson_shuffled _ _ _)
      refine ⟨_, _, _, onward, Server.validText_ingestAll valid (validDecoded _),
        by rw [List.length_cons, length], ?_⟩
      intro page member
      rcases List.mem_cons.mp member with rfl | inEarlier
      · apply handleCheck_shuffled (unknown valid)
        rw [decoded]
        exact .inr rfl
      · exact same page inEarlier

end NellDB
