import NellDB.Data.RelayInvariant

namespace NellDB.Data

namespace Relay

universe u₁ u₂ u₃ u₄ u₅ u₆

variable {ι : Type u₁} {κ : Type u₂} {ω : Type u₃} {α : Type u₄} {ρ : Type u₅} {τ : Type u₆}
variable [DecidableEq κ] [DecidableEq ω] [LinearOrder ρ] [LinearOrder τ]

/-! Rounds in which no node writes.  Copies move from the nodes to the hub, and
from the hub to the nodes, until every table holds the same shared entries. -/

section

variable (scheme : Scheme ι κ ω α ρ τ)

/-- What the node shares is on the hub, or waits in an upload. -/
def Posted (s : State ι κ ω α τ) (c : ι) : Prop :=
  ∀ entry, At scheme s (.node c) entry →
    scheme.Covers s.hub entry ∨ ∃ sender, At scheme s (.upload sender) entry

/-- No copy anywhere is ahead of the hub. -/
def Saturated (s : State ι κ ω α τ) : Prop :=
  ∀ place entry, At scheme s place entry → scheme.Covers s.hub entry

/-- What the hub holds is at the node, asked for, or on its way. -/
def Informed (s : State ι κ ω α τ) (c : ι) : Prop :=
  ∀ entry, At scheme s .hub entry → scheme.Covers (s.table c) entry ∨
    (∃ marks, (c, marks) ∈ s.requests ∧
      ¬ Watermark.Reached marks (scheme.author entry) (scheme.time entry)) ∨
    At scheme s (.download c) entry

end

variable {scheme : Scheme ι κ ω α ρ τ} {s next : State ι κ ω α τ}

omit [DecidableEq ω] [LinearOrder τ] in
theorem posted_of_upload {c : ι} {sent : List α} (flying : (c, sent) ∈ s.uploads)
    (complete : ∀ entry, At scheme s (.node c) entry → entry ∈ sent) : Posted scheme s c := by
  intro entry held
  exact .inr ⟨c, sent, flying, complete entry held⟩

namespace Sound

theorem saturated (sound : Sound scheme s) (posted : ∀ c, Posted scheme s c)
    (drained : s.uploads = 0) : Saturated scheme s := by
  have idle {sender : ι} {entry : α} : ¬ At scheme s (.upload sender) entry := by
    simp [At, drained]
  intro place entry present
  cases place with
  | hub => exact ⟨entry, present, le_rfl⟩
  | node c =>
      rcases posted c entry present with covers | ⟨_, waits⟩
      · exact covers
      · exact absurd waits idle
  | upload c => exact absurd present idle
  | download c =>
      apply sound.fetched _ entry present
      rintro _ (elsewhere | elsewhere) <;> cases elsewhere

/-- A node that has asked is informed: what its request does not ask for, it has. -/
theorem informed (sound : Sound scheme s) {c : ι} {marks : FiniteMap ω τ}
    (asked : (c, marks) ∈ s.requests) : Informed scheme s c := by
  intro entry present
  by_cases reached : Watermark.Reached marks (scheme.author entry) (scheme.time entry)
  · obtain ⟨held, found, outcome⟩ :=
      sound.held_or_beaten present (sound.asked c marks asked _ _ reached)
    refine .inl ⟨held, found, ?_⟩
    rcases outcome with rfl | below
    · exact le_rfl
    · exact below.le
  · exact .inr (.inl ⟨marks, asked, reached⟩)

theorem eq_of_rank (sound : Sound scheme s) {first second : α} {here there : Place ι}
    (firstPresent : At scheme s here first) (secondPresent : At scheme s there second)
    (same : scheme.rank first = scheme.rank second) : first = second := by
  obtain ⟨_, _, firstWritten⟩ := sound.written here first firstPresent
  obtain ⟨_, _, secondWritten⟩ := sound.written there second secondPresent
  obtain ⟨sameAuthor, sameTime⟩ := scheme.attributed same
  exact sound.eq_of_time firstWritten secondWritten sameAuthor sameTime

/-- When nothing is asked for or under way, the node holds what the hub holds. -/
theorem agrees (sound : Sound scheme s) (saturated : Saturated scheme s) {c : ι}
    (informed : Informed scheme s c) (unasked : s.requests = 0) (quiet : s.downloads = 0)
    (entry : α) : At scheme s .hub entry ↔ At scheme s (.node c) entry := by
  have fetched {entry : α} (present : At scheme s .hub entry) :
      At scheme s (.node c) entry := by
    have covers : scheme.Covers (s.table c) entry := by
      rcases informed entry present with covers | ⟨marks, asked, _⟩ | ⟨reply, flying, _⟩
      · exact covers
      · simp [unasked] at asked
      · simp [quiet] at flying
    obtain ⟨held, found, above⟩ := covers
    have placed : scheme.key held = scheme.key entry := sound.keyedTable c found
    have atNode : At scheme s (.node c) held := by
      rw [At, placed]
      exact ⟨(sound.written .hub entry present).1, found⟩
    obtain ⟨stored, onHub, below⟩ := saturated _ held atNode
    rw [placed, show s.hub.lookup (scheme.key entry) = some entry from present] at onHub
    cases onHub
    rw [sound.eq_of_rank present atNode (le_antisymm above below)]
    exact atNode
  constructor
  · exact fetched
  · intro held
    obtain ⟨stored, onHub, _⟩ := saturated _ entry held
    have placed : scheme.key stored = scheme.key entry := sound.keyedHub onHub
    have present : At scheme s .hub stored := by
      rw [At, placed]
      exact onHub
    have atNode := (fetched present).2
    rw [placed, held.2] at atNode
    cases atNode
    exact present

/-- Every entry written reaches every table, or a greater one does. -/
theorem delivered (sound : Sound scheme s) (saturated : Saturated scheme s) {c writer : ι}
    (agrees : ∀ entry, At scheme s .hub entry ↔ At scheme s (.node c) entry) {entry : α}
    (isShared : scheme.shared (scheme.key entry)) (member : entry ∈ s.written writer) :
    scheme.Covers (s.table c) entry := by
  obtain ⟨held, found, above⟩ := sound.own writer entry member
  have placed : scheme.key held = scheme.key entry := sound.keyedTable writer found
  have atWriter : At scheme s (.node writer) held := by
    rw [At, placed]
    exact ⟨isShared, found⟩
  obtain ⟨stored, onHub, higher⟩ := saturated _ held atWriter
  have storedPlaced : scheme.key stored = scheme.key held := sound.keyedHub onHub
  have present : At scheme s .hub stored := by
    rw [At, storedPlaced]
    exact onHub
  have atNode := ((agrees stored).mp present).2
  rw [storedPlaced, placed] at atNode
  exact ⟨stored, atNode, above.trans higher⟩

end Sound

variable [DecidableEq ι]

namespace Step

theorem written_suffix (step : Step scheme s next) (c : ι) :
    s.written c <:+ next.written c := by
  cases step with
  | @write node entry =>
      by_cases same : c = node
      · subst node
        simp
      · simp [Function.update_of_ne same]
  | _ => exact List.suffix_rfl

omit [DecidableEq ω] [DecidableEq ι] in
theorem not_fresh (silent : next.written = s.written) {c : ι} {entry : α} :
    ¬ Fresh scheme s next c entry := by
  intro fresh
  have member := fresh.member
  rw [silent] at member
  exact absurd (fresh.later entry member) (lt_irrefl _)

theorem download_progress (step : Step scheme s next) {c : ι} {entry : α}
    (coming : At scheme s (.download c) entry) :
    At scheme next (.download c) entry ∨ scheme.Covers (next.table c) entry := by
  obtain ⟨list, flying, member⟩ := coming
  cases step with
  | answer => exact .inl ⟨list, Multiset.mem_cons_of_mem flying, member⟩
  | @ingest node taken rest others _ waiting =>
      rw [waiting] at flying
      rcases Multiset.mem_cons.mp flying with same | before
      · cases same
        rcases List.mem_cons.mp member with rfl | later
        · refine .inr ?_
          simp only [Function.update_self]
          exact Champion.covers_enter_self (s.table c) entry
        · exact .inl ⟨rest, Multiset.mem_cons_self _ _, later⟩
      · exact .inl ⟨list, Multiset.mem_cons_of_mem before, member⟩
  | finish waiting =>
      rw [waiting] at flying
      rcases Multiset.mem_cons.mp flying with same | before
      · cases same
        simp at member
      · exact .inl ⟨list, before, member⟩
  | _ => exact .inl ⟨list, flying, member⟩

/-- A request stays until its answer brings what it asks for. -/
theorem request_progress (step : Step scheme s next) {c : ι} {marks : FiniteMap ω τ}
    (asked : (c, marks) ∈ s.requests) {entry : α} (present : At scheme s .hub entry)
    (unreached : ¬ Watermark.Reached marks (scheme.author entry) (scheme.time entry)) :
    (c, marks) ∈ next.requests ∨ At scheme next (.download c) entry := by
  cases step with
  | request => exact .inl (Multiset.mem_cons_of_mem asked)
  | @answer node sent others reply waiting _ complete =>
      rw [waiting] at asked
      rcases Multiset.mem_cons.mp asked with same | before
      · cases same
        exact .inr ⟨reply, Multiset.mem_cons_self _ _,
          (complete entry).mpr ⟨present, unreached⟩⟩
      · exact .inl before
  | _ => exact .inl asked

end Step

theorem Posted.step {c : ι} (posted : Posted scheme s c) (sound : Sound scheme s)
    (step : Step scheme s next) (silent : next.written = s.written) :
    Posted scheme next c := by
  intro entry held
  rcases step.at_source held with before | ⟨source, hop, before⟩ | ⟨_, _, _, fresh⟩
  · rcases posted entry before with covers | ⟨sender, waits⟩
    · exact .inl (step.covers_hub covers)
    · rcases step.upload_progress waits with waiting | covers
      · exact .inr ⟨sender, waiting⟩
      · exact .inl covers
  · cases hop
    refine .inl (step.covers_hub (sound.fetched _ entry before ?_))
    rintro _ (elsewhere | elsewhere) <;> cases elsewhere
  · exact absurd fresh (Step.not_fresh silent)

namespace Saturated

theorem step (saturated : Saturated scheme s) (step : Step scheme s next)
    (silent : next.written = s.written) : Saturated scheme next := by
  intro place entry present
  rcases step.at_source present with before | ⟨source, _, before⟩ | ⟨_, _, _, fresh⟩
  · exact step.covers_hub (saturated place entry before)
  · exact step.covers_hub (saturated source entry before)
  · exact absurd fresh (Step.not_fresh silent)

/-- A saturated hub takes nothing new. -/
theorem hub_source (saturated : Saturated scheme s) (step : Step scheme s next) {entry : α}
    (present : At scheme next .hub entry) : At scheme s .hub entry := by
  cases step with
  | @apply c candidate rest others waiting =>
      have covers := saturated (.upload c) candidate
        ⟨candidate :: rest, waiting ▸ Multiset.mem_cons_self _ _, List.mem_cons_self⟩
      have unchanged : scheme.enter s.hub candidate = s.hub := covers.enter_eq
      rw [At, unchanged] at present
      exact present
  | _ => exact present

end Saturated

theorem Informed.step {c : ι} (informed : Informed scheme s c)
    (saturated : Saturated scheme s) (step : Step scheme s next) :
    Informed scheme next c := by
  intro entry present
  have before := saturated.hub_source step present
  rcases informed entry before with covers | ⟨marks, asked, unreached⟩ | coming
  · exact .inl (step.covers_table covers)
  · rcases step.request_progress asked before unreached with waiting | coming
    · exact .inr (.inl ⟨marks, waiting, unreached⟩)
    · exact .inr (.inr coming)
  · rcases step.download_progress coming with onward | covers
    · exact .inr (.inr onward)
    · exact .inl covers

/-- What sound steps without writes keep, a run without writes keeps. -/
theorem Sound.keeps {invariant : State ι κ ω α τ → Prop}
    (kept : ∀ {s next}, Sound scheme s → invariant s → Step scheme s next →
      next.written = s.written → invariant next)
    (sound : Sound scheme s) (run : Relation.ReflTransGen (Step scheme) s next)
    (silent : next.written = s.written) (initial : invariant s) : invariant next := by
  have grows {s next : State ι κ ω α τ} (run : Relation.ReflTransGen (Step scheme) s next)
      (c : ι) : s.written c <:+ next.written c := by
    induction run with
    | refl => exact List.suffix_rfl
    | tail _ step ih => exact ih.trans (step.written_suffix c)
  induction run using Relation.ReflTransGen.head_induction_on with
  | refl => exact initial
  | @head s middle step rest ih =>
      have between : middle.written = s.written := by
        funext c
        have through := grows rest c
        rw [silent] at through
        exact (step.written_suffix c).eq_of_length_le through.length_le |>.symm
      exact ih (sound.step step) (silent.trans between.symm) (kept sound initial step between)

end Relay

end NellDB.Data
