import NellDB.Server.Handler

namespace NellDB

open Data

/-! A request that comes in again.  The signature of a request stays valid for a minute,
so that whoever sees one can send it once more. -/

theorem MemoryStore.Covers.not_newer {s : MemoryStore} {r : Record}
    (covers : s.Covers r.defaulted) : ¬ s.Newer r := by
  intro newer
  obtain ⟨existing, present, above⟩ := covers
  exact absurd ((beats_iff _ _).mp (newer existing present)) (not_lt.mpr above)

namespace Server

/-- The server has stored the record, or a later one, and its vector has reached it. -/
structure Saw (server : Server) (r : Record) : Prop where
  covers : server.store.Covers r.defaulted
  reached : Watermark.Reached server.kv r.updatedBy r.clock

structure SameState (server other : Server) : Prop where
  records : server.store.records = other.store.records
  kv : server.kv = other.kv

variable {server other : Server}

theorem SameState.trans {third : Server} (first : server.SameState other)
    (second : other.SameState third) : server.SameState third where
  records := first.records.trans second.records
  kv := first.kv.trans second.kv

theorem Saw.of_sameState {r : Record} (saw : other.Saw r) (same : server.SameState other) :
    server.Saw r where
  covers := by
    unfold MemoryStore.Covers
    rw [same.records]
    exact saw.covers
  reached := by
    rw [same.kv]
    exact saw.reached

theorem Saw.ingestAll {r : Record} (saw : server.Saw r) (changes : List Record) :
    (server.ingestAll changes).Saw r where
  covers := by
    rw [ingestAll_store]
    exact saw.covers.putAll changes
  reached := (reached_ingestAll_iff _ _ _ _).mpr (.inl saw.reached)

theorem saw_ingestAll {changes : List Record} {r : Record} (member : r ∈ changes) :
    (server.ingestAll changes).Saw r where
  covers := by
    rw [ingestAll_store]
    exact server.store.covers_putAll member
  reached := (reached_ingestAll_iff _ _ _ _).mpr (.inr ⟨r, member, rfl, le_rfl⟩)

theorem ingest_of_saw {r : Record} (saw : server.Saw r) :
    (server.ingest r).SameState server where
  records := MemoryStore.records_afterPut_of_not_newer saw.covers.not_newer
  kv := by
    rw [ingest, KnowledgeVector.update_eq_raise]
    exact Watermark.raise_of_reached saw.reached

theorem ingestAll_of_saw {changes : List Record} (saw : ∀ r ∈ changes, server.Saw r) :
    (server.ingestAll changes).SameState server := by
  induction changes generalizing server with
  | nil => exact ⟨rfl, rfl⟩
  | cons r rest ih =>
      obtain ⟨first, later⟩ := List.forall_mem_cons.mp saw
      have same := ingest_of_saw first
      exact (ih fun q member => (later q member).of_sameState same).trans same

theorem acceptedOf_of_saw {changes : List Record} (saw : ∀ r ∈ changes, server.Saw r) :
    server.acceptedOf changes = [] := by
  induction changes generalizing server with
  | nil => rfl
  | cons r rest ih =>
      obtain ⟨first, later⟩ := List.forall_mem_cons.mp saw
      have refused : ¬ (server.store.put r).1 = true := by
        rw [MemoryStore.put_accepts_iff_newer]
        exact first.covers.not_newer
      rw [acceptedOf, if_neg refused]
      exact ih fun q member => (later q member).of_sameState (ingest_of_saw first)

/-- What a request can do to the server: all that it pushes is ingested, or nothing
changes, as it pushes nothing or is answered with an error. -/
inductive Handled (server : Server) (pushes : List Record) (outcome : Outcome) : Prop
  | ingested (same : outcome.server = server.ingestAll pushes)
  | idle (same : outcome.server.SameState server) (none : pushes = [])
  | refused (same : outcome.server.SameState server) (message : String)
      (isError : outcome.reply.content = .error message)

variable {cfg : SiteConfig} {now : Int} {request : HttpRequest} {pushes : List Record}

theorem handled_error (status : Nat) (message : String) :
    server.Handled pushes (server.replies (.error status message)) :=
  .refused ⟨rfl, rfl⟩ message rfl

theorem handled_postOnly {outcome : Outcome} (handled : server.Handled pushes outcome) :
    server.Handled pushes (server.postOnly request outcome) := by
  unfold postOnly
  split
  next => exact handled_error 405 _
  next => exact handled

theorem handled_servePush (codec : SyncCodec) (body : Bytes) :
    server.Handled (SyncRoute.push.pushes codec body) (server.servePush codec body) := by
  unfold servePush SyncRoute.pushes
  cases decodeBody codec.push body with
  | error failure => exact handled_error _ _
  | ok changes => exact .ingested (handlePush_server server changes)

theorem serveBinPush_content (server : Server) (body : Bytes) :
    ∃ bytes, (server.serveBinPush body).reply.content = .frames bytes :=
  ⟨_, rfl⟩

theorem serveBinPush_server (server : Server) (body : Bytes) :
    (server.serveBinPush body).server = server.ingestAll (decodePush body.length body) :=
  handleBinPush_server server body

theorem handled_serveSync (codec : SyncCodec)
    (listing : Listing server.store (orDefault request.col)) (body : ServedBody)
    (route : SyncRoute) :
    server.Handled (route.pushes codec body.received)
      (server.serveSync codec request listing body route) := by
  cases route with
  | pull =>
      refine handled_postOnly (.idle ?_ rfl)
      unfold servePull
      cases decodeBody codec.pull body.received with
      | error => exact ⟨rfl, rfl⟩
      | ok since => exact ⟨server.store.getChangesSince_records since, rfl⟩
  | push => exact handled_postOnly (handled_servePush codec body.received)
  | check =>
      refine handled_postOnly (.idle ?_ rfl)
      unfold serveCheck
      cases decodeBody codec.check body.received <;> exact ⟨rfl, rfl⟩
  | binCheck =>
      refine handled_postOnly (.idle ?_ rfl)
      unfold serveBinCheck
      cases body.broken with
      | true => exact ⟨rfl, rfl⟩
      | false =>
          cases NellDB.handleBinCheck listing.ordered body.received <;> exact ⟨rfl, rfl⟩
  | binPush => exact handled_postOnly (.ingested (serveBinPush_server server body.received))
  | ws =>
      refine .idle ?_ rfl
      unfold serveSync serveWebSocket
      cases request.upgradeRefusal <;> exact ⟨rfl, rfl⟩

/-- With a secret or without, a request is refused, or its body is handed on. -/
theorem authenticated_outcome (nonempty : ∀ message, cfg.mac cfg.secret message ≠ [])
    (next : ServedBody → Outcome) :
    (∃ status message, server.authenticated cfg now request next =
      server.replies (.error status message)) ∨
    ∃ broken, server.authenticated cfg now request next = next ⟨request.received, broken⟩ := by
  by_cases keyed : cfg.secret = []
  · exact .inr ⟨_, authenticated_of_open keyed next⟩
  · refine (authenticated_cases keyed nonempty next).imp_right ?_
    intro served
    exact ⟨false, served.2⟩

theorem serve_sync (nonempty : ∀ message, cfg.mac cfg.secret message ≠ [])
    (listing : Listing server.store (orDefault request.col)) {route : SyncRoute}
    (isRoute : request.path = .sync route) :
    (∃ status message, server.serve cfg now request listing =
      server.replies (.error status message)) ∨
    ∃ broken, server.serve cfg now request listing =
      server.serveSync cfg.codec request listing ⟨request.received, broken⟩ route := by
  unfold serve
  simp only [isRoute]
  exact authenticated_outcome nonempty _

theorem handled_serve (nonempty : ∀ message, cfg.mac cfg.secret message ≠ [])
    (listing : Listing server.store (orDefault request.col)) :
    server.Handled (request.pushes cfg.codec) (server.serve cfg now request listing) := by
  unfold HttpRequest.pushes
  cases path : request.path with
  | sync route =>
      rcases @serve_sync server cfg now request nonempty listing route path with
        ⟨status, message, isError⟩ | ⟨broken, served⟩
      · rw [isError]
        exact handled_error status message
      · rw [served]
        exact handled_serveSync cfg.codec listing ⟨request.received, broken⟩ route
  | health | ready | redirected =>
      unfold serve
      simp only [path]
      exact .idle ⟨rfl, rfl⟩ rfl
  | unknown =>
      unfold serve
      simp only [path]
      exact handled_error 404 _
  | unknownSync =>
      unfold serve
      simp only [path]
      rcases @authenticated_outcome server cfg now request nonempty
        (fun _ => server.replies (.error 404 "404 page not found")) with
        ⟨status, message, isError⟩ | ⟨_, served⟩
      · rw [isError]
        exact handled_error status message
      · rw [served]
        exact handled_error 404 _

theorem handled_handler (nonempty : ∀ message, cfg.mac cfg.secret message ≠ [])
    (listing : Listing server.store (orDefault request.col)) :
    server.Handled (request.pushes cfg.codec) (server.handler cfg now request listing) := by
  unfold handler
  dsimp only
  split
  next => exact handled_error 415 _
  next => exact handled_serve nonempty listing

theorem handler_sync (nonempty : ∀ message, cfg.mac cfg.secret message ≠ [])
    (listing : Listing server.store (orDefault request.col)) {route : SyncRoute}
    (isRoute : request.path = .sync route) :
    (∃ status message, server.handler cfg now request listing =
      server.replies (.error status message)) ∨
    ∃ broken, server.handler cfg now request listing =
      server.serveSync cfg.codec request listing ⟨request.received, broken⟩ route := by
  unfold handler
  dsimp only
  split
  next => exact .inl ⟨415, _, rfl⟩
  next => exact serve_sync nonempty listing isRoute

/-- An authentic binary push gets through to its handler. -/
theorem handler_binPush (keyed : cfg.secret ≠ [])
    (nonempty : ∀ message, cfg.mac cfg.secret message ≠ [])
    (listing : Listing server.store (orDefault request.col))
    (isPush : request.path = .sync .binPush) (isPost : request.method = methodPost)
    (octets : Header.get request.header contentTypeHeader = octetStream)
    (authentic : request.Authentic cfg now) :
    server.handler cfg now request listing = server.serveBinPush request.received := by
  rw [handler_of_octetStream octets listing isPush,
    authenticated_of_authentic keyed nonempty authentic]
  unfold serveSync postOnly
  dsimp only
  rw [if_neg (not_not.mpr isPost)]

/-- A binary push of what the server has seen is not passed on. -/
theorem handler_binPush_of_saw (nonempty : ∀ message, cfg.mac cfg.secret message ≠ [])
    (listing : Listing server.store (orDefault request.col))
    (isPush : request.path = .sync .binPush)
    (saw : ∀ r ∈ request.pushes cfg.codec, server.Saw r) :
    (server.handler cfg now request listing).broadcast = none := by
  rcases @handler_sync server cfg now request nonempty listing .binPush isPush with
    ⟨status, message, isError⟩ | ⟨broken, served⟩
  · rw [isError]
    rfl
  · rw [served]
    unfold serveSync postOnly
    dsimp only
    split
    next => rfl
    next =>
        unfold HttpRequest.pushes at saw
        rw [isPush] at saw
        have none : server.acceptedOf (decodePush request.received.length request.received) = [] :=
          acceptedOf_of_saw saw
        rw [serveBinPush, binPushBroadcast_exact, acceptedBroadcast, none]
        rfl

/-- A JSON push of what the server has seen is passed on all the same. -/
theorem handler_push_of_saw (nonempty : ∀ message, cfg.mac cfg.secret message ≠ [])
    (listing : Listing server.store (orDefault request.col))
    (isPush : request.path = .sync .push)
    (saw : ∀ r ∈ request.pushes cfg.codec, server.Saw r) {accepted total : Nat}
    (answered : (server.handler cfg now request listing).reply.content =
      .pushed accepted total) :
    accepted = 0 ∧
      (server.handler cfg now request listing).broadcast = some (request.pushes cfg.codec) := by
  unfold HttpRequest.pushes at saw ⊢
  simp only [isPush] at saw ⊢
  rcases @handler_sync server cfg now request nonempty listing .push isPush with
    ⟨status, message, isError⟩ | ⟨broken, served⟩
  · rw [isError] at answered
    cases answered
  · rw [served] at answered ⊢
    unfold serveSync postOnly at answered ⊢
    dsimp only at answered ⊢
    split at answered
    next => cases answered
    next isPost =>
        rw [if_neg isPost]
        unfold servePush at answered ⊢
        unfold SyncRoute.pushes at saw ⊢
        dsimp only at saw answered ⊢
        cases decoded : decodeBody cfg.codec.push request.received with
        | error failure =>
            rw [decoded] at answered
            cases answered
        | ok changes =>
            rw [decoded] at saw answered
            have counted := applyChanges_count server changes
            rw [acceptedOf_of_saw saw] at counted
            simp only [handlePush, Content.pushed.injEq] at answered
            exact ⟨answered.1.symm.trans counted, rfl⟩

theorem Saw.handled {r : Record} (saw : server.Saw r) {outcome : Outcome}
    (handled : server.Handled pushes outcome) : outcome.server.Saw r := by
  cases handled with
  | ingested same =>
      rw [same]
      exact saw.ingestAll pushes
  | idle same => exact saw.of_sameState same
  | refused same => exact saw.of_sameState same

end Server

namespace Site

variable {cfg : SiteConfig} {site next : Site} {event : SiteEvent}

theorem Step.saw (step : Step cfg site event next)
    (nonempty : ∀ message, cfg.mac cfg.secret message ≠ []) {r : Record}
    (saw : site.server.Saw r) : next.server.Saw r := by
  cases step with
  | request now request listing =>
      rw [answer_server]
      exact saw.handled (Server.handled_handler nonempty listing)
  | message number changes connection found reading =>
      rw [receive, Server.handleWebSocket_server]
      exact saw.ingestAll changes
  | ended number connection found reading => exact saw
  | removed number connection found hasEnded => exact saw

theorem saw_of_run {start : Site} (run : Run (Step cfg) (fun _ _ => True) start site)
    (nonempty : ∀ message, cfg.mac cfg.secret message ≠ []) {r : Record}
    (saw : start.server.Saw r) : site.server.Saw r := by
  induction run with
  | start => exact saw
  | step _ _ taken ih => exact taken.saw nonempty ih

end Site

end NellDB
