import NellDB.Server.Handler

namespace NellDB

open Data

/-! Which connections a broadcast goes to: the map of the peers is kept by address,
and a connection that is removed takes out whatever stands at its address. -/

namespace Site

/-- The goroutine of the connection has not yet removed it from the peers.  It reads
from it, or its read loop has ended. -/
def Served (site : Site) (number : Nat) (addr : GoString) : Prop :=
  ∃ connection, site.connections[number]? = some connection ∧ connection.phase ≠ .removed ∧
    connection.remoteAddr = addr

/-- The connections that `broadcast` starts a write to. -/
def recipients (site : Site) : Set Nat := {number | ∃ addr, site.peers.lookup addr = some number}

/-- No new connection comes from the address of one that is still served. -/
def Fresh (site : Site) : SiteEvent → Prop
  | .request _ request => ∀ number, ¬ site.Served number request.remoteAddr
  | _ => True

variable {cfg : SiteConfig} {site next : Site} {event : SiteEvent} {number other : Nat}
  {addr : GoString}

theorem served_register_iff {now : Int} {request : HttpRequest} :
    (site.register now request).Served number addr ↔
      site.Served number addr ∨ number = site.connections.length ∧ request.remoteAddr = addr := by
  unfold Served register
  dsimp only
  rw [List.getElem?_append]
  split
  next inside =>
      have different : number ≠ site.connections.length := inside.ne
      simp [different]
  next outside =>
      rw [List.getElem?_eq_none (not_lt.mp outside), List.getElem?_singleton]
      by_cases same : number = site.connections.length
      · simp [same]
      · have behind : number - site.connections.length ≠ 0 := by omega
        simp [same, behind]

theorem served_leaveLoop_iff {connection : Connection}
    (found : site.connections[number]? = some connection)
    (reading : connection.phase = .reading) :
    (site.leaveLoop number connection).Served other addr ↔ site.Served other addr := by
  have inside := (List.getElem?_eq_some_iff.mp found).1
  unfold Served leaveLoop
  dsimp only
  rw [List.getElem?_set]
  by_cases same : other = number
  · rw [same, found, if_pos rfl, if_pos inside]
    simp [reading]
  · simp [Ne.symm same]

theorem served_removePeer_iff {connection : Connection}
    (found : site.connections[number]? = some connection) :
    (site.removePeer number connection).Served other addr ↔
      site.Served other addr ∧ other ≠ number := by
  have inside := (List.getElem?_eq_some_iff.mp found).1
  unfold Served removePeer
  dsimp only
  rw [List.getElem?_set]
  by_cases same : other = number
  · simp [same, inside]
  · simp [same, Ne.symm same]

/-- Whether or not a request is answered with an upgrade, the step is one of these. -/
theorem answer_cases (site : Site) (now : Int) (request : HttpRequest) (outcome : Outcome) :
    let served : Site :=
      { site with server := outcome.server, requests := site.requests ++ [(now, request)] }
    site.answer now request outcome = served ∨
      site.answer now request outcome = served.register now request := by
  unfold answer
  dsimp only
  split
  next => exact .inr rfl
  next => exact .inl rfl

/-- What is in the map is served, at the address it stands under. -/
def Sound (site : Site) : Prop :=
  ∀ addr number, site.peers.lookup addr = some number → site.Served number addr

def Complete (site : Site) : Prop :=
  ∀ addr number, site.Served number addr → site.peers.lookup addr = some number

theorem Sound.register (sound : site.Sound) (now : Int) (request : HttpRequest) :
    (site.register now request).Sound := by
  intro addr number found
  rw [served_register_iff]
  rcases FiniteMap.lookup_insert_cases found with ⟨sameAddr, isNew⟩ | ⟨_, before⟩
  · exact .inr ⟨isNew, sameAddr.symm⟩
  · exact .inl (sound addr number before)

theorem Sound.removePeer (sound : site.Sound) {connection : Connection}
    (found : site.connections[number]? = some connection) :
    (site.removePeer number connection).Sound := by
  intro addr other registered
  rw [served_removePeer_iff found]
  have elsewhere : addr ≠ connection.remoteAddr := by
    intro same
    rw [same] at registered
    exact absurd (registered.symm.trans (Finmap.lookup_erase _ _)) nofun
  rw [Site.removePeer, Finmap.lookup_erase_ne elsewhere] at registered
  have served := sound addr other registered
  refine ⟨served, fun same => ?_⟩
  obtain ⟨held, present, _, isAddr⟩ := served
  rw [same, found, Option.some.injEq] at present
  exact elsewhere (present ▸ isAddr.symm)

theorem Complete.register (complete : site.Complete) {now : Int} {request : HttpRequest}
    (fresh : ∀ number, ¬ site.Served number request.remoteAddr) :
    (site.register now request).Complete := by
  intro addr number served
  rcases served_register_iff.mp served with before | ⟨rfl, rfl⟩
  · have different : addr ≠ request.remoteAddr := by
      intro same
      exact fresh number (same ▸ before)
    rw [Site.register, Finmap.lookup_insert_of_ne _ different]
    exact complete addr number before
  · exact Finmap.lookup_insert _

/-- A connection that is removed stood in the map itself, so no other is taken out. -/
theorem Complete.removePeer (complete : site.Complete) {connection : Connection}
    (found : site.connections[number]? = some connection)
    (hasEnded : connection.phase = .ended) : (site.removePeer number connection).Complete := by
  intro addr other stays
  obtain ⟨stillServed, different⟩ := (served_removePeer_iff found).mp stays
  have registered := complete addr other stillServed
  have unremoved : connection.phase ≠ .removed := by
    rw [hasEnded]
    decide
  have elsewhere : addr ≠ connection.remoteAddr := by
    intro same
    have own := complete addr number ⟨connection, found, unremoved, same.symm⟩
    rw [registered, Option.some.injEq] at own
    exact different own
  rw [Site.removePeer, Finmap.lookup_erase_ne elsewhere]
  exact registered

theorem Step.sound (step : Step cfg site event next) (sound : site.Sound) : next.Sound := by
  cases step with
  | request now request listing =>
      rcases site.answer_cases now request (site.server.handler cfg now request listing) with
        same | same
      · rw [same]
        exact sound
      · rw [same]
        exact Sound.register sound now request
  | message => exact sound
  | ended number connection found reading =>
      intro addr other registered
      exact (served_leaveLoop_iff found reading).mpr (sound addr other registered)
  | removed number connection found => exact sound.removePeer found

theorem Step.complete (step : Step cfg site event next) (fresh : site.Fresh event)
    (complete : site.Complete) : next.Complete := by
  cases step with
  | request now request listing =>
      rcases site.answer_cases now request (site.server.handler cfg now request listing) with
        same | same
      · rw [same]
        exact complete
      · rw [same]
        exact Complete.register complete fresh
  | message => exact complete
  | ended number connection found reading =>
      intro addr other served
      exact complete addr other ((served_leaveLoop_iff found reading).mp served)
  | removed number connection found hasEnded => exact complete.removePeer found hasEnded

theorem sound_start (first : Server) : (start first).Sound :=
  fun _ _ found => nomatch found

theorem complete_start (first : Server) : (start first).Complete :=
  fun _ _ ⟨_, found, _⟩ => nomatch found

end Site

end NellDB
