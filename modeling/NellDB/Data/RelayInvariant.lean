import NellDB.Data.Relay

namespace NellDB.Data

namespace Relay

universe u₁ u₂ u₃ u₄ u₅ u₆

variable {ι : Type u₁} {κ : Type u₂} {ω : Type u₃} {α : Type u₄} {ρ : Type u₅} {τ : Type u₆}
variable [DecidableEq κ] [DecidableEq ω] [LinearOrder ρ] [LinearOrder τ]
variable {scheme : Scheme ι κ ω α ρ τ} {s next : State ι κ ω α τ}

namespace Sound

/-! One lemma for each part of the invariant. -/

theorem mem_written (sound : Sound scheme s) {place : Place ι} {entry : α} {c : ι}
    (present : At scheme s place entry) (authored : scheme.author entry = scheme.name c) :
    entry ∈ s.written c := by
  obtain ⟨_, d, member⟩ := sound.written place entry present
  have same : d = c := scheme.name_injective ((sound.authored d entry member).symm.trans authored)
  exact same ▸ member

/-- An older entry of an author with an entry in an orderly answer is covered. -/
theorem covered_of_inOrder (sound : Sound scheme s) {b : ι} {reply : List α}
    (inOrder : InOrder scheme s b reply) {entry earlier : α} {place : Place ι}
    (member : entry ∈ reply) (atHub : At scheme s .hub entry)
    (present : At scheme s place earlier)
    (sameAuthor : scheme.author earlier = scheme.author entry)
    (below : scheme.time earlier ≤ scheme.time entry) :
    scheme.Covers s.hub earlier ∨ scheme.Covers (s.table b) earlier := by
  by_cases abroad : ∀ c, place = .node c ∨ place = .upload c →
      scheme.author earlier ≠ scheme.name c
  · exact .inl (sound.fetched place earlier present abroad)
  · push Not at abroad
    obtain ⟨c, rfl | rfl, authored⟩ := abroad
    · rcases sound.posted c .hub entry earlier atHub (by simp)
        (sameAuthor.symm.trans authored) present authored below with covers | ⟨sender, waits⟩
      · exact .inl covers
      · exact inOrder entry member sender earlier waits sameAuthor below
    · exact inOrder entry member c earlier present sameAuthor below

theorem pending_answer (sound : Sound scheme s) {b : ι} {marks : FiniteMap ω τ}
    {reply : List α} (asked : (b, marks) ∈ s.requests)
    (complete : ∀ entry, entry ∈ reply ↔ At scheme s .hub entry ∧
      ¬ Watermark.Reached marks (scheme.author entry) (scheme.time entry))
    (inOrder : InOrder scheme s b reply) {entry earlier : α} {place : Place ι}
    (member : entry ∈ reply) (present : At scheme s place earlier)
    (sameAuthor : scheme.author earlier = scheme.author entry)
    (below : scheme.time earlier ≤ scheme.time entry) :
    scheme.Covers (s.table b) earlier ∨ scheme.Beats s.hub earlier ∨ earlier ∈ reply := by
  rcases sound.covered_of_inOrder inOrder member ((complete entry).mp member).1 present
    sameAuthor below with hub | node
  · rcases sound.beats_or_at_hub present hub with beats | atHub
    · exact .inr (.inl beats)
    · by_cases reached :
          Watermark.Reached marks (scheme.author earlier) (scheme.time earlier)
      · rcases sound.known b place earlier present (sound.asked b marks asked _ _ reached) with
          covers | beats
        · exact .inl covers
        · exact .inr (.inl beats)
      · exact .inr (.inr ((complete earlier).mpr ⟨atHub, reached⟩))
  · exact .inl node

theorem lt_fresh (sound : Sound scheme s) {c : ι} {entry fresh : α} {place : Place ι}
    (isFresh : Fresh scheme s next c fresh) (present : At scheme s place entry)
    (sameAuthor : scheme.author fresh = scheme.author entry) :
    scheme.time entry < scheme.time fresh :=
  isFresh.later entry
    (sound.mem_written present (sameAuthor.symm.trans isFresh.authored))

variable [DecidableEq ι]

theorem present_source (step : Step scheme s next) {place : Place ι} {entry : α}
    (present : At scheme next place entry) :
    (∃ source, At scheme s source entry) ∨ ∃ c, Fresh scheme s next c entry := by
  rcases step.at_source present with before | ⟨source, _, before⟩ | ⟨c, _, _, fresh⟩
  · exact .inl ⟨place, before⟩
  · exact .inl ⟨source, before⟩
  · exact .inr ⟨c, fresh⟩

theorem written_step (sound : Sound scheme s) (step : Step scheme s next)
    {place : Place ι} {entry : α} (present : At scheme next place entry) :
    scheme.shared (scheme.key entry) ∧ ∃ c, entry ∈ next.written c := by
  have kept {source : Place ι} (before : At scheme s source entry) :
      scheme.shared (scheme.key entry) ∧ ∃ c, entry ∈ next.written c := by
    obtain ⟨isShared, c, member⟩ := sound.written source entry before
    exact ⟨isShared, c, step.mem_written member⟩
  rcases step.at_source present with before | ⟨source, _, before⟩ | ⟨c, _, isShared, fresh⟩
  · exact kept before
  · exact kept before
  · exact ⟨isShared, c, fresh.member⟩

theorem fetched_step (sound : Sound scheme s) (step : Step scheme s next)
    {place : Place ι} {entry : α} (present : At scheme next place entry)
    (abroad : ∀ c, place = .node c ∨ place = .upload c →
      scheme.author entry ≠ scheme.name c) :
    scheme.Covers next.hub entry := by
  rcases step.at_source present with before | ⟨source, hop, before⟩ | ⟨c, rfl, _, fresh⟩
  · exact step.covers_hub (sound.fetched place entry before abroad)
  · cases hop with
    | @send c =>
        refine step.covers_hub (sound.fetched (.node c) entry before ?_)
        intro d same
        cases same with
        | inl isNode =>
            cases isNode
            exact abroad c (.inr rfl)
        | inr isUpload => cases isUpload
    | apply => exact ⟨entry, present, le_rfl⟩
    | reply => exact step.covers_hub ⟨entry, before, le_rfl⟩
    | ingest => exact step.covers_hub (sound.fetched _ entry before (by simp))
  · exact absurd fresh.authored (abroad c (.inl rfl))

theorem posted_step (sound : Sound scheme s) (step : Step scheme s next) {c : ι}
    {place : Place ι} {entry earlier : α} (present : At scheme next place entry)
    (away : place ≠ .node c) (authored : scheme.author entry = scheme.name c)
    (held : At scheme next (.node c) earlier)
    (earlierAuthored : scheme.author earlier = scheme.name c)
    (below : scheme.time earlier ≤ scheme.time entry) :
    scheme.Covers next.hub earlier ∨ ∃ sender, At scheme next (.upload sender) earlier := by
  have sameAuthor := earlierAuthored.trans authored.symm
  have onward {source : Place ι} (before : At scheme s source entry)
      (sourceAway : source ≠ .node c) (heldBefore : At scheme s (.node c) earlier) :
      scheme.Covers next.hub earlier ∨
        ∃ sender, At scheme next (.upload sender) earlier := by
    rcases sound.posted c source entry earlier before sourceAway authored heldBefore
      earlierAuthored below with covers | ⟨sender, waits⟩
    · exact .inl (step.covers_hub covers)
    · rcases step.upload_progress waits with still | covers
      · exact .inr ⟨sender, still⟩
      · exact .inl covers
  -- The later entry is not new, since a new one is with its author only.
  have entryBefore : ∃ source, At scheme s source entry := by
    rcases step.at_source present with before | ⟨source, _, before⟩ | ⟨d, rfl, _, fresh⟩
    · exact ⟨place, before⟩
    · exact ⟨source, before⟩
    · rw [scheme.name_injective (fresh.authored.symm.trans authored)] at away
      exact absurd rfl away
  obtain ⟨_, entryPresent⟩ := entryBefore
  rcases step.at_source held with heldBefore | ⟨_, hop, before⟩ | ⟨_, _, _, fresh⟩
  · rcases step.at_source present with before | ⟨source, hop, before⟩ | ⟨d, rfl, _, fresh⟩
    · exact onward before away heldBefore
    · cases hop with
      | @send d =>
          by_cases same : d = c
          · subst d
            rcases step.upload_complete present with waited | complete
            · exact onward waited (by simp) heldBefore
            · exact .inr ⟨c, complete earlier heldBefore⟩
          · exact onward before (by simpa using same) heldBefore
      | apply => exact onward before (by simp) heldBefore
      | reply => exact onward before (by simp) heldBefore
      | ingest => exact onward before (by simp) heldBefore
    · exact absurd (sound.lt_fresh fresh entryPresent rfl) (lt_irrefl _)
  · cases hop with
    | ingest =>
        exact .inl (step.covers_hub (sound.fetched _ earlier before (by simp)))
  · exact absurd (sound.lt_fresh fresh entryPresent sameAuthor) (not_lt.mpr below)

theorem bounded_step (sound : Sound scheme s) (step : Step scheme s next) {b c : ι}
    {bound : τ} (after : Watermark.Reached (next.marks b) (scheme.name c) bound) :
    ∃ entry ∈ next.written c, bound ≤ scheme.time entry := by
  rcases step.reached_source after with
    before | ⟨entry, fresh, same, below⟩ | ⟨entry, rest, flying, same, below, _⟩
  · obtain ⟨entry, member, below⟩ := sound.bounded b c bound before
    exact ⟨entry, step.mem_written member, below⟩
  · exact ⟨entry, scheme.name_injective same ▸ fresh.member, below⟩
  · have present : At scheme s (.download b) entry :=
      ⟨entry :: rest, flying, List.mem_cons_self⟩
    exact ⟨entry, step.mem_written (sound.mem_written present same.symm), below⟩

theorem asked_step (sound : Sound scheme s) (step : Step scheme s next) {c : ι}
    {marks : FiniteMap ω τ} (asked : (c, marks) ∈ next.requests) {source : ω} {bound : τ}
    (reached : Watermark.Reached marks source bound) :
    Watermark.Reached (next.marks c) source bound := by
  rcases step.request_source asked with before | known
  · exact step.reached (sound.asked c marks before source bound reached)
  · exact step.reached (known source bound reached)

theorem known_step (sound : Sound scheme s) (step : Step scheme s next) {b : ι}
    {place : Place ι} {entry : α} (present : At scheme next place entry)
    (after : Watermark.Reached (next.marks b) (scheme.author entry) (scheme.time entry)) :
    scheme.Covers (next.table b) entry ∨ scheme.Beats next.hub entry := by
  have still (before : scheme.Covers (s.table b) entry ∨ scheme.Beats s.hub entry) :
      scheme.Covers (next.table b) entry ∨ scheme.Beats next.hub entry :=
    before.imp step.covers_table step.beats_hub
  rcases present_source step present with ⟨source, before⟩ | ⟨c, fresh⟩
  · rcases step.reached_source after with
      reached | ⟨own, ownFresh, same, _⟩ | ⟨first, rest, flying, same, below, covered⟩
    · exact still (sound.known b source entry before reached)
    · exact still (.inl (sound.own b entry (sound.mem_written before same)))
    · -- The mark comes from a download: its first entry is the oldest of its list.
      rcases sound.pending b _ flying first List.mem_cons_self source entry before same below
        with covers | beats | member
      · exact still (.inl covers)
      · exact still (.inr beats)
      · rcases List.mem_cons.mp member with rfl | later
        · exact .inl covered
        · have ordered := (List.pairwise_cons.mp (sound.sorted b _ flying)).1 entry later
          have firstPresent : At scheme s (.download b) first :=
            ⟨first :: rest, flying, List.mem_cons_self⟩
          obtain ⟨_, c, entryWritten⟩ := sound.written source entry before
          obtain ⟨_, d, firstWritten⟩ := sound.written _ first firstPresent
          rw [sound.eq_of_time entryWritten firstWritten same (le_antisymm below ordered)]
          exact .inl covered
  · by_cases own : b = c
    · exact .inl (own ▸ fresh.covered)
    · exfalso
      rcases step.reached_source after with
        reached | ⟨_, _, same, _⟩ | ⟨first, rest, flying, same, below, _⟩
      · rw [fresh.authored] at reached
        obtain ⟨earlier, member, below⟩ := sound.bounded b c _ reached
        exact absurd (fresh.later earlier member) (not_lt.mpr below)
      · exact own (scheme.name_injective (same.symm.trans fresh.authored))
      · have firstPresent : At scheme s (.download b) first :=
          ⟨first :: rest, flying, List.mem_cons_self⟩
        exact absurd (sound.lt_fresh fresh firstPresent same) (not_lt.mpr below)

theorem sorted_step (sound : Sound scheme s) (step : Step scheme s next) {b : ι}
    {reply : List α} (flying : (b, reply) ∈ next.downloads) :
    reply.Pairwise fun first second => scheme.time first ≤ scheme.time second := by
  rcases step.download_source flying with
    before | ⟨entry, before, _⟩ | ⟨_, _, sorted, _, _⟩
  · exact sound.sorted b reply before
  · exact (List.pairwise_cons.mp (sound.sorted b _ before)).2
  · exact sorted

theorem pending_step (sound : Sound scheme s) (step : Step scheme s next) {b : ι}
    {reply : List α} (flying : (b, reply) ∈ next.downloads) {entry : α}
    (member : entry ∈ reply) {place : Place ι} {earlier : α}
    (present : At scheme next place earlier)
    (sameAuthor : scheme.author earlier = scheme.author entry)
    (below : scheme.time earlier ≤ scheme.time entry) :
    scheme.Covers (next.table b) earlier ∨ scheme.Beats next.hub earlier ∨
      earlier ∈ reply := by
  have still (before : scheme.Covers (s.table b) earlier ∨ scheme.Beats s.hub earlier ∨
      earlier ∈ reply) : scheme.Covers (next.table b) earlier ∨
        scheme.Beats next.hub earlier ∨ earlier ∈ reply :=
    before.imp step.covers_table (Or.imp_left step.beats_hub)
  rcases present_source step present with ⟨source, before⟩ | ⟨c, fresh⟩
  · rcases step.download_source flying with
      old | ⟨taken, old, covered⟩ | ⟨marks, asked, _, complete, inOrder⟩
    · exact still (sound.pending b reply old entry member source earlier before sameAuthor
        below)
    · rcases sound.pending b _ old entry (List.mem_cons_of_mem taken member) source earlier
        before sameAuthor below with covers | beats | waiting
      · exact still (.inl covers)
      · exact still (.inr (.inl beats))
      · rcases List.mem_cons.mp waiting with rfl | later
        · exact .inl covered
        · exact .inr (.inr later)
    · exact still (sound.pending_answer asked complete inOrder member before sameAuthor below)
  · have entryPresent : ∃ source, At scheme s source entry := by
      rcases step.download_source flying with
        old | ⟨taken, old, _⟩ | ⟨_, _, _, complete, _⟩
      · exact ⟨.download b, reply, old, member⟩
      · exact ⟨.download b, taken :: reply, old, List.mem_cons_of_mem taken member⟩
      · exact ⟨.hub, ((complete entry).mp member).1⟩
    obtain ⟨_, before⟩ := entryPresent
    exact absurd (sound.lt_fresh fresh before sameAuthor) (not_lt.mpr below)

theorem step (sound : Sound scheme s) (step : Step scheme s next) : Sound scheme next where
  keyedHub := step.keyedHub sound.keyedHub
  keyedTable _ := step.keyedTable (sound.keyedTable _)
  authored c entry member := (step.written_source member).elim
    (sound.authored c entry) Fresh.authored
  increasing c := step.increasing (sound.increasing c)
  written _ _ present := sound.written_step step present
  own c entry member := (step.written_source member).elim
    (fun before => step.covers_table (sound.own c entry before)) Fresh.covered
  fetched _ _ present abroad := sound.fetched_step step present abroad
  posted _ _ _ _ present away authored held earlierAuthored below :=
    sound.posted_step step present away authored held earlierAuthored below
  bounded _ _ _ after := sound.bounded_step step after
  asked _ _ asked _ _ reached := sound.asked_step step asked reached
  known _ _ _ present after := sound.known_step step present after
  sorted _ _ flying := sound.sorted_step step flying
  pending _ _ flying _ member _ _ present sameAuthor below :=
    sound.pending_step step flying member present sameAuthor below

theorem steps (sound : Sound scheme s)
    (run : Relation.ReflTransGen (Step scheme) s next) : Sound scheme next := by
  induction run with
  | refl => exact sound
  | tail _ step ih => exact ih.step step

end Sound

def State.start (ι : Type u₁) (κ : Type u₂) (ω : Type u₃) (α : Type u₄) (τ : Type u₆) :
    State ι κ ω α τ where
  hub := ∅
  table _ := ∅
  marks _ := ∅
  written _ := []
  requests := 0
  uploads := 0
  downloads := 0

omit [DecidableEq ω] [LinearOrder τ] in
theorem not_at_start (place : Place ι) (entry : α) :
    ¬ At scheme (State.start ι κ ω α τ) place entry := by
  cases place <;> simp [At, State.start]

theorem sound_start : Sound scheme (State.start ι κ ω α τ) where
  keyedHub := Champion.wellKeyed_empty
  keyedTable _ := Champion.wellKeyed_empty
  authored _ _ member := by simp [State.start] at member
  increasing _ := List.Pairwise.nil
  written place entry present := absurd present (not_at_start place entry)
  own _ _ member := by simp [State.start] at member
  fetched place entry present := absurd present (not_at_start place entry)
  posted _ place entry _ present := absurd present (not_at_start place entry)
  bounded _ _ _ reached := by simp [Watermark.Reached, State.start] at reached
  asked _ _ asked := by simp [State.start] at asked
  known _ place entry present := absurd present (not_at_start place entry)
  sorted _ _ flying := by simp [State.start] at flying
  pending _ _ flying := by simp [State.start] at flying

end Relay

end NellDB.Data
