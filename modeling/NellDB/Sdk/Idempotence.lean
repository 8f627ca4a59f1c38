import NellDB.Sdk.Sync

namespace NellDB

open Data

/-! Two calls of `Sync`, one after the other. -/

/-- The server holds or has beaten every document of the client, and the client
has written down a clock that is not before them. -/
structure UpToDate (db : DocDB) (server : Server) : Prop where
  covers : ∀ r ∈ db.documents, server.store.Covers r
  seen : ∀ r ∈ db.documents, r.clock ≤ db.horizon

namespace SyncRun

section

variable {platform : Platform} {db : DocDB} {server : Server}
  (run : SyncRun platform db server) {writers : Finset GoString}
  (wellFormed : WellFormed db.store) (tracked : Tracked server.store)
  (fits : SyncFits writers db server)

include wellFormed tracked fits

theorem upToDate_after : UpToDate run.client run.finalServer := by
  have final := run.finalServer_tracked tracked fits
  have stored {r : Record} (sent : r ∈ run.streamed) :
      run.finalServer.store.records.lookup r.key = some r :=
    ((mem_listAll_iff_listed final.wellFormed _ r).mp (run.mem_streamed_iff.mp sent).1).2
  have horizon := run.client_horizon wellFormed tracked fits
  refine ⟨?_, ?_⟩
  · intro r member
    rcases run.document_source wellFormed tracked fits member with before | sent
    · rw [run.finalServer_eq fits, Server.ingestAll_store]
      have covers := server.store.covers_putAll (run.mem_shared_iff.mpr before)
      rwa [Record.defaulted_of_named (document_named wellFormed before)] at covers
    · exact ⟨r, stored sent, le_rfl⟩
  · intro r member
    rw [horizon]
    rcases run.document_source wellFormed tracked fits member with before | sent
    · have below := (DocDB.foldl_seeClock_le_iff.mp (le_refl run.maxSent)).2 r
        (run.mem_shared_iff.mpr before)
      exact below.trans ((le_max_right _ _).trans (le_max_left _ _))
    · have below := (DocDB.foldl_seeClock_le_iff.mp (le_refl run.maxSeen)).2 r sent
      exact below.trans (le_max_right _ _)

/-- A pull lowers no mark of the client's vector. -/
theorem getD_vector_le (writer : GoString) :
    (db.vector.lookup writer).getD HLC.zero ≤ (run.client.vector.lookup writer).getD HLC.zero := by
  have reached := run.reached_client_iff wellFormed tracked fits writer
  cases before : db.vector.lookup writer with
  | some mark =>
      exact Watermark.le_getD_of_reached ((reached mark).mpr (.inl ⟨mark, before, le_rfl⟩)) _
  | none =>
      cases after : run.client.vector.lookup writer with
      | none => exact le_rfl
      | some mark =>
          -- a new mark was raised above the zero clock
          rcases (reached mark).mp ⟨mark, after, le_rfl⟩ with ⟨seen, found, _⟩ | ⟨r, sent, document,
            sameWriter, named, _, raises⟩
          · rw [before] at found
            contradiction
          · have marked := (reached r.clock).mpr
              (.inr ⟨r, sent, document, sameWriter, named, le_rfl, raises⟩)
            have below := Watermark.le_getD_of_reached marked HLC.zero
            rw [before] at raises
            rw [after] at below
            exact raises.le.trans below

/-- What fits the wire once fits it after a sync too: the next sync sends nothing
that this one did not send or list, and the vector has risen already. -/
theorem fits_after : SyncFits writers run.client run.finalServer := by
  have listed : ∀ r, Stands run.finalServer.store run.client.collection run.client.documents r →
      Stands server.store db.collection db.documents r := by
    intro r stands
    have member := stands.listed_of_covers (run.upToDate_after wellFormed tracked fits).covers
    rw [run.client_collection wellFormed tracked fits] at member
    exact (run.mem_finalServer_listAll_iff wellFormed tracked fits).mp member
  refine ⟨fits.few, fits.short, ?_, ?_, ?_, ?_⟩
  · intro writer isKey
    obtain ⟨clock, found⟩ := Finmap.mem_iff.mp (Finmap.mem_keys.mp isKey)
    rcases (run.reached_client_iff wellFormed tracked fits writer clock).mp ⟨clock, found, le_rfl⟩
      with ⟨seen, before, _⟩ | ⟨r, sent, document, rfl, named, _, raises⟩
    · exact fits.vector writer (Finmap.mem_keys.mpr (Finmap.mem_of_lookup_eq_some before))
    · exact fits.raised r ((run.mem_finalServer_listAll_iff wellFormed tracked fits).mp
        (run.mem_streamed_iff.mp sent).1) document named raises
  · intro r member
    rcases run.document_source wellFormed tracked fits member with before | sent
    · exact fits.client r before
    · exact run.streamed_fits wellFormed tracked fits sent
  · intro r stands unreached
    refine fits.streamed r (listed r stands) fun reached => unreached ?_
    exact (run.reached_client_iff wellFormed tracked fits _ _).mpr (.inl reached)
  · intro r stands document named raises
    have before := run.getD_vector_le wellFormed tracked fits r.updatedBy
    exact fits.raised r (listed r stands) document named (before.trans_lt raises)

end

/-- The sync moves nothing and changes nothing. -/
structure Quiet {platform : Platform} {db : DocDB} {server : Server}
    (run : SyncRun platform db server) : Prop where
  pushed : run.pushed = 0
  pulled : run.pulled = 0
  failure : run.failure = none
  client : run.client = db
  store : SameContents run.finalServer.store server.store
  kv : run.finalServer.kv = server.kv

section

variable {platform : Platform} {db : DocDB} {server : Server}
  (run : SyncRun platform db server) {writers : Finset GoString}
  (wellFormed : WellFormed db.store) (tracked : Tracked server.store)
  (fits : SyncFits writers db server)

include fits

theorem pushed_eq : run.pushed = (server.applyChanges (shared run.all)).1 % 256 ^ 4 := by
  have answer : (server.handleBinPush (wireFrames (shared run.all))).1 =
      bigEndian 4 (server.applyChanges (shared run.all)).1 := by
    unfold Server.handleBinPush
    rw [run.decodePush_shared fits]
  unfold pushed DocDB.push
  dsimp only
  rw [answer, List.take_of_length_le (length_bigEndian _ _).le, fieldValue_bigEndian_mod]

theorem finalServer_kv_eq_iff :
    run.finalServer.kv = server.kv ↔
      ∀ r ∈ db.documents, Watermark.Reached server.kv r.updatedBy r.clock := by
  rw [run.finalServer_eq fits, Server.ingestAll_kv_eq_iff]
  simp only [run.mem_shared_iff]

include wellFormed tracked

theorem push_quiet (upToDate : UpToDate db server) :
    run.pushed = 0 ∧ SameContents run.finalServer.store server.store := by
  obtain ⟨accepted, same⟩ := server.applyChanges_covered tracked
    (fun r member => document_named wellFormed (run.mem_shared_iff.mp member))
    (fun r member => upToDate.covers r (run.mem_shared_iff.mp member))
  rw [Server.applyChanges_server, ← run.finalServer_eq fits] at same
  refine ⟨?_, same⟩
  rw [run.pushed_eq fits, accepted]
  rfl

/-- Between an up-to-date pair a sync is quiet if each side's vector has reached
what the other side lists. -/
theorem quiet_iff (upToDate : UpToDate db server) :
    run.Quiet ↔
      (∀ r ∈ server.store.listAll db.collection,
        Watermark.Reached db.vector r.updatedBy r.clock) ∧
      ∀ r ∈ db.documents, Watermark.Reached server.kv r.updatedBy r.clock := by
  obtain ⟨pushed, same⟩ := run.push_quiet wellFormed tracked fits upToDate
  have pulls := run.pulls_eq wellFormed tracked fits
  have mem_streamed {r : Record} : r ∈ run.streamed ↔
      r ∈ server.store.listAll db.collection ∧
        ¬ Watermark.Reached db.vector r.updatedBy r.clock := by
    rw [run.mem_streamed_iff, same.listAll]
  constructor
  · intro quiet
    refine ⟨?_, (run.finalServer_kv_eq_iff fits).mp quiet.kv⟩
    intro r member
    have pulled : run.pulls.1.1 = 0 := quiet.pulled
    rw [pulls] at pulled
    have none := List.eq_nil_of_length_eq_zero pulled
    by_contra unreached
    have sent := mem_streamed.mpr ⟨member, unreached⟩
    rw [none] at sent
    exact List.not_mem_nil sent
  · rintro ⟨reached, known⟩
    have none : run.streamed = [] := by
      rw [List.eq_nil_iff_forall_not_mem]
      intro r sent
      obtain ⟨member, unreached⟩ := mem_streamed.mp sent
      exact unreached (reached r member)
    have sent : run.maxSent ≤ db.horizon := by
      refine DocDB.foldl_seeClock_le_iff.mpr ⟨le_max_left _ _, ?_⟩
      exact fun r member => upToDate.seen r (run.mem_shared_iff.mp member)
    have seen : run.maxSeen ≤ db.horizon := by
      unfold maxSeen
      rw [none]
      exact le_max_left _ _
    rw [DocDB.finishSync_of_le sent, none, DocDB.ingestEach, DocDB.finishSync_of_le seen] at pulls
    exact
      { pushed
        pulled := congrArg (fun outcome => outcome.1.1) pulls
        failure := congrArg (fun outcome => outcome.1.2) pulls
        client := congrArg Prod.snd pulls
        store := same
        kv := (run.finalServer_kv_eq_iff fits).mpr known }

end

theorem exists_listing (store : MemoryStore) (collection : GoString) :
    Nonempty (Listing store collection) := by
  obtain ⟨all, listed⟩ := Quot.exists_rep (store.listAll collection)
  let earlier (first second : Record) : Bool := decide (first.clock ≤ second.clock)
  have transitive (first second third : Record) (onward : earlier first second)
      (further : earlier second third) : earlier first third :=
    decide_eq_true ((of_decide_eq_true onward).trans (of_decide_eq_true further))
  have total (first second : Record) : (earlier first second || earlier second first) = true := by
    simp only [earlier, Bool.or_eq_true, decide_eq_true_eq]
    exact le_total _ _
  refine ⟨all.mergeSort earlier, ?_, ?_⟩
  · rw [← listed]
    exact Multiset.coe_eq_coe.mpr (List.mergeSort_perm all earlier)
  · exact (List.pairwise_mergeSort transitive total all).imp of_decide_eq_true

theorem exists_run (platform : Platform) (env : CallEnv) (db : DocDB) (server : Server) :
    Nonempty (SyncRun platform db server) := by
  obtain ⟨all, listed⟩ := Quot.exists_rep (db.store.listAll db.collection)
  obtain ⟨listing⟩ := exists_listing (db.push platform env server all).2.2.store db.collection
  let order := Iteration.sorted (db.push platform env server all).2.1.vector
  exact ⟨⟨all, listed, env, fun _ => env, env, listing,
    ⟨order.order, order.distinct, order.complete⟩⟩⟩

end SyncRun

/-- Each record that the server will list after the push is reached by the
vector of the client, or will be: a document of its writer that is as late raises
the vector. -/
def Settled (db : DocDB) (server : Server) : Prop :=
  ∀ r, Stands server.store db.collection db.documents r →
    Watermark.Reached db.vector r.updatedBy r.clock ∨
      ∃ q, Stands server.store db.collection db.documents q ∧ isInternalID q.id = false ∧
        q.updatedBy = r.updatedBy ∧ r.updatedBy ≠ [] ∧ r.clock ≤ q.clock ∧
          (db.vector.lookup r.updatedBy).getD HLC.zero < q.clock

theorem SyncRun.settled_iff {platform : Platform} {db : DocDB} {server : Server}
    (run : SyncRun platform db server) {writers : Finset GoString}
    (wellFormed : WellFormed db.store) (tracked : Tracked server.store)
    (fits : SyncFits writers db server) :
    Settled db server ↔ ∀ r ∈ run.finalServer.store.listAll db.collection,
      Watermark.Reached run.client.vector r.updatedBy r.clock := by
  unfold Settled
  refine forall_congr' fun r => ?_
  rw [run.mem_finalServer_listAll_iff wellFormed tracked fits,
    run.reached_client_iff wellFormed tracked fits]
  refine imp_congr_right fun _ => or_congr Iff.rfl (exists_congr fun q => ?_)
  rw [run.mem_streamed_iff, run.mem_finalServer_listAll_iff wellFormed tracked fits]
  constructor
  · rintro ⟨stands, document, sameWriter, named, later, raises⟩
    refine ⟨⟨stands, ?_⟩, document, sameWriter, named, later, raises⟩
    rw [sameWriter]
    exact fun reached => absurd raises (not_lt.mpr (Watermark.le_getD_of_reached reached _))
  · rintro ⟨⟨stands, _⟩, rest⟩
    exact ⟨stands, rest⟩

/-- The documents that the server will stream to the client. -/
def Streams (db : DocDB) (server : Server) : Set Record :=
  {r | Stands server.store db.collection db.documents r ∧ isInternalID r.id = false ∧
    ¬ Watermark.Reached db.vector r.updatedBy r.clock}

/-- The client will take the record from the server, which does not count it as
seen, and pushes nothing of its writer that is as late. -/
structure Unheard (db : DocDB) (server : Server) (r : Record) : Prop where
  streams : r ∈ Streams db server
  taken : r.collection = db.collection →
    Stands db.store db.collection (Streams db server) r
  unseen : ¬ Watermark.Reached server.kv r.updatedBy r.clock
  unpushed : ∀ p ∈ db.documents, p.updatedBy = r.updatedBy → p.clock < r.clock

namespace SyncRun

section

variable {platform : Platform} {db : DocDB} {server : Server}
  (run : SyncRun platform db server) {writers : Finset GoString}
  (wellFormed : WellFormed db.store) (tracked : Tracked server.store)
  (fits : SyncFits writers db server)

include fits in
theorem reached_finalServer_iff (writer : GoString) (clock : HLC) :
    Watermark.Reached run.finalServer.kv writer clock ↔
      Watermark.Reached server.kv writer clock ∨
        ∃ p ∈ db.documents, p.updatedBy = writer ∧ clock ≤ p.clock := by
  rw [run.finalServer_eq fits, Server.reached_ingestAll_iff]
  simp only [run.mem_shared_iff]

include wellFormed tracked fits

theorem mem_streams_iff {r : Record} :
    r ∈ Streams db server ↔ r ∈ run.streamed ∧ isInternalID r.id = false := by
  rw [run.mem_streamed_iff, run.mem_finalServer_listAll_iff wellFormed tracked fits, Streams,
    Set.mem_ofPred_eq]
  tauto

theorem known_of_unheard (none : ∀ r, ¬ Unheard db server r) {r : Record}
    (member : r ∈ run.client.documents) :
    Watermark.Reached run.finalServer.kv r.updatedBy r.clock := by
  rw [run.reached_finalServer_iff fits]
  rcases run.document_source wellFormed tracked fits member with before | sent
  · exact .inr ⟨r, before, rfl, le_rfl⟩
  · by_contra unknown
    obtain ⟨unseen, unpushed⟩ := not_or.mp unknown
    refine none r ⟨(run.mem_streams_iff wellFormed tracked fits).mpr ⟨sent, member.2⟩, ?_, unseen,
      ?_⟩
    · intro inside
      refine (stands_congr fun p _ => ?_).mp
        ((run.mem_client_documents_iff wellFormed tracked fits inside member.2).mp member)
      exact (run.mem_streams_iff wellFormed tracked fits).symm
    · intro p pushed sameWriter
      exact not_le.mp fun later => unpushed ⟨p, pushed, sameWriter, later⟩

theorem unknown_of_unheard {r : Record} (unheard : Unheard db server r)
    (inside : r.collection = db.collection) :
    r ∈ run.client.documents ∧ ¬ Watermark.Reached run.finalServer.kv r.updatedBy r.clock := by
  constructor
  · refine (run.mem_client_documents_iff wellFormed tracked fits inside
      unheard.streams.2.1).mpr ((stands_congr fun p _ => ?_).mp (unheard.taken inside))
    exact run.mem_streams_iff wellFormed tracked fits
  · rw [run.reached_finalServer_iff fits]
    rintro (seen | ⟨p, pushed, sameWriter, later⟩)
    · exact unheard.unseen seen
    · exact absurd later (not_le.mpr (unheard.unpushed p pushed sameWriter))

end

end SyncRun

/-- `Sync` succeeds.  A second `Sync` moves and changes nothing if the first one
leaves nothing that the vector will not reach and the server has not heard of;
and only then, but for records of another collection that are listed under this
one. -/
theorem sync_idempotent {platform : Platform} {db : DocDB} {server : Server}
    {writers : Finset GoString} (wellFormed : WellFormed db.store)
    (tracked : Tracked server.store) (fits : SyncFits writers db server)
    (first : SyncRun platform db server) :
    first.failure = none ∧
      (Settled db server ∧ (∀ r, ¬ Unheard db server r) →
        ∀ second : SyncRun platform first.client first.finalServer, second.Quiet) ∧
      ((∀ second : SyncRun platform first.client first.finalServer, second.Quiet) →
        Settled db server ∧ ∀ r, Unheard db server r → r.collection ≠ db.collection) := by
  have clientWellFormed := first.client_wellFormed wellFormed tracked fits
  have finalTracked := first.finalServer_tracked tracked fits
  have finalFits := first.fits_after wellFormed tracked fits
  have upToDate := first.upToDate_after wellFormed tracked fits
  have settled := first.settled_iff wellFormed tracked fits
  rw [← first.client_collection wellFormed tracked fits] at settled
  refine ⟨?_, ?_, ?_⟩
  · unfold SyncRun.failure
    rw [first.pulls_eq wellFormed tracked fits]
  · rintro ⟨isSettled, heard⟩ second
    refine (second.quiet_iff clientWellFormed finalTracked finalFits upToDate).mpr
      ⟨settled.mp isSettled, ?_⟩
    exact fun r => first.known_of_unheard wellFormed tracked fits heard
  · intro quiet
    obtain ⟨second⟩ := SyncRun.exists_run platform first.pushEnv first.client first.finalServer
    obtain ⟨reached, known⟩ :=
      (second.quiet_iff clientWellFormed finalTracked finalFits upToDate).mp (quiet second)
    refine ⟨settled.mpr reached, ?_⟩
    intro r unheard inside
    obtain ⟨member, unknown⟩ := first.unknown_of_unheard wellFormed tracked fits unheard inside
    exact unknown (known r member)

/-- A new client pulls one record. -/
theorem sync_idempotent_one_record :
    let r : Record :=
      { Record.zero with
        collection := defaultCollection
        id := [120]
        clock := ⟨1000, 0⟩
        updatedBy := ascii ['m'] }
    let server := (newServer (newMemoryStore [] 0) []).ingest r
    let db := newDocDB .revOnly (newMemoryStore [] 0) (ascii ['n']) [] []
    ∀ first : SyncRun .revOnly db server, first.failure = none ∧
      ∀ second : SyncRun .revOnly first.client first.finalServer, second.Quiet := by
  intro r server db
  have fitsWire : FitsWire r := ⟨by decide +kernel, by decide +kernel⟩
  have nothing : db.store.listAll db.collection = 0 := by rfl
  have noMarks : db.vector = ∅ := by rfl
  have late : HLC.zero < r.clock := by decide +kernel
  have named : r.updatedBy ≠ [] := by decide +kernel
  have document : isInternalID r.id = false := by decide +kernel
  have short : r.updatedBy.length < 2 ^ 16 := by decide +kernel
  have listed : server.store.listAll db.collection = {r} := by decide +kernel
  have seen : Watermark.Reached server.kv r.updatedBy r.clock := ⟨r.clock, by rfl, le_rfl⟩
  have wellFormed : WellFormed db.store := wellFormed_newMemoryStore [] 0
  have tracked : Tracked server.store := (tracked_newMemoryStore [] 0).afterPut r
  clear_value r server db
  have noDocuments : db.documents = ∅ := by
    ext other
    simp [DocDB.documents, nothing]
  have stands {other : Record} :
      Stands server.store db.collection db.documents other ↔ other = r := by
    rw [noDocuments, stands_empty_iff, listed, Multiset.mem_singleton]
  have fits : SyncFits {r.updatedBy} db server := by
    refine ⟨by simp, ?_, by simp [noMarks], by simp [noDocuments], ?_, ?_⟩
    · intro writer member
      rw [Finset.mem_singleton.mp member]
      exact short
    · intro other standing _
      rw [stands.mp standing]
      exact fitsWire
    · intro other standing _ _ _
      rw [stands.mp standing]
      exact Finset.mem_singleton_self _
  have settled : Settled db server := by
    intro other standing
    rw [stands.mp standing]
    refine .inr ⟨r, stands.mpr rfl, document, rfl, named, le_rfl, ?_⟩
    rw [noMarks, Finmap.lookup_empty]
    exact late
  have heard (other : Record) (unheard : Unheard db server other) : False := by
    have unseen := unheard.unseen
    rw [stands.mp unheard.streams.1] at unseen
    exact unseen seen
  intro first
  obtain ⟨succeeds, quiet, _⟩ := sync_idempotent wellFormed tracked fits first
  exact ⟨succeeds, quiet ⟨settled, heard⟩⟩

/-- A record whose clock is zero is pulled again by every sync. -/
theorem not_sync_idempotent :
    let r : Record :=
      { Record.zero with
        collection := defaultCollection
        id := [120]
        updatedBy := ascii ['m'] }
    let server := (newServer (newMemoryStore [] 0) []).ingest r
    let db := newDocDB .revOnly (newMemoryStore [] 0) (ascii ['n']) [] []
    ∃ (first : SyncRun .revOnly db server)
      (second : SyncRun .revOnly first.client first.finalServer),
      first.failure = none ∧ first.pulled = 1 ∧
        second.failure = none ∧ second.pushed = 0 ∧ second.pulled = 1 := by
  intro r server db
  let first : SyncRun .revOnly db server :=
    ⟨[], by decide +kernel, .at 1000, fun _ => .at 1000, .at 1000,
      ⟨[r], by decide +kernel, List.pairwise_singleton _ _⟩, KnowledgeVector.noEntries⟩
  let entries : KnowledgeVector.Entries
      (first.client.push .revOnly (.at 2000) first.finalServer [r]).2.1.vector :=
    { order := []
      distinct := List.nodup_nil
      complete := by
        -- the vector does not rise to a zero clock
        have noMarks :
            (first.client.push .revOnly (.at 2000) first.finalServer [r]).2.1.vector = ∅ := by
          decide +kernel
        simp [noMarks] }
  let second : SyncRun .revOnly first.client first.finalServer :=
    ⟨[r], by decide +kernel, .at 2000, fun _ => .at 2000, .at 2000,
      ⟨[r], by decide +kernel, List.pairwise_singleton _ _⟩, entries⟩
  exact ⟨first, second, by decide +kernel⟩

end NellDB
