import Mathlib.Logic.Relation
import NellDB.Data.Watermark

namespace NellDB.Data

/-! Replication through a hub.  Every node keeps a table of greatest entries and,
for each author, a mark of the latest entry it has seen.  A node uploads copies
of its shared entries, which the hub takes one by one; it sends its marks, and is
answered with the entries of the hub beyond them. -/

namespace Relay

universe u₁ u₂ u₃ u₄ u₅ u₆

structure Scheme (ι : Type u₁) (κ : Type u₂) (ω : Type u₃) (α : Type u₄) (ρ : Type u₅)
    (τ : Type u₆) [LinearOrder ρ] where
  key : α → κ
  rank : α → ρ
  author : α → ω
  time : α → τ
  name : ι → ω
  shared : κ → Prop
  name_injective : Function.Injective name
  attributed : ∀ {first second}, rank first = rank second →
    author first = author second ∧ time first = time second

/-- Uploads and downloads hold what is still to be taken; `written` lists the
entries of each node, the latest first. -/
structure State (ι : Type u₁) (κ : Type u₂) (ω : Type u₃) (α : Type u₄) (τ : Type u₆) where
  hub : FiniteMap κ α
  table : ι → FiniteMap κ α
  marks : ι → FiniteMap ω τ
  written : ι → List α
  requests : Multiset (ι × FiniteMap ω τ)
  uploads : Multiset (ι × List α)
  downloads : Multiset (ι × List α)

inductive Place (ι : Type u₁) where
  | hub
  | node (c : ι)
  | upload (c : ι)
  | download (c : ι)

section

variable {ω : Type u₃} {τ : Type u₆} [DecidableEq ω] [LinearOrder τ]

structure Raised (old : FiniteMap ω τ) (author : ω) (time : τ) (new : FiniteMap ω τ) :
    Prop where
  kept : ∀ {source bound}, Watermark.Reached old source bound →
    Watermark.Reached new source bound
  added : ∀ {source bound}, Watermark.Reached new source bound →
    Watermark.Reached old source bound ∨ source = author ∧ bound ≤ time

end

section

variable {ι : Type u₁} {κ : Type u₂} {ω : Type u₃} {α : Type u₄} {ρ : Type u₅} {τ : Type u₆}
variable [DecidableEq ι] [DecidableEq κ] [DecidableEq ω] [LinearOrder ρ] [LinearOrder τ]
variable (scheme : Scheme ι κ ω α ρ τ)

def Scheme.enter (table : FiniteMap κ α) (entry : α) : FiniteMap κ α :=
  Champion.enter scheme.key scheme.rank table entry

def Scheme.Covers (table : FiniteMap κ α) (entry : α) : Prop :=
  Champion.Covers scheme.key scheme.rank table entry

def Scheme.Beats (table : FiniteMap κ α) (entry : α) : Prop :=
  Champion.Beats scheme.key scheme.rank table entry

def At (s : State ι κ ω α τ) : Place ι → α → Prop
  | .hub, entry => s.hub.lookup (scheme.key entry) = some entry
  | .node c, entry => scheme.shared (scheme.key entry) ∧
      (s.table c).lookup (scheme.key entry) = some entry
  | .upload c, entry => ∃ sent, (c, sent) ∈ s.uploads ∧ entry ∈ sent
  | .download c, entry => ∃ reply, (c, reply) ∈ s.downloads ∧ entry ∈ reply

/-- Nothing waits in an upload that is older than an entry of the same author in
the reply, unless the hub or the node has it covered. -/
def InOrder (s : State ι κ ω α τ) (c : ι) (reply : List α) : Prop :=
  ∀ entry ∈ reply, ∀ sender waiting, At scheme s (.upload sender) waiting →
    scheme.author waiting = scheme.author entry →
    scheme.time waiting ≤ scheme.time entry →
    scheme.Covers s.hub waiting ∨ scheme.Covers (s.table c) waiting

/-- The steps of a run in which authors write in increasing time and requests
are answered in order. -/
inductive Step : State ι κ ω α τ → State ι κ ω α τ → Prop
  | write {s c entry marks} (authored : scheme.author entry = scheme.name c)
      (later : ∀ earlier ∈ s.written c, scheme.time earlier < scheme.time entry)
      (raised : Raised (s.marks c) (scheme.name c) (scheme.time entry) marks) :
      Step s { s with
        table := Function.update s.table c (scheme.enter (s.table c) entry)
        marks := Function.update s.marks c marks
        written := Function.update s.written c (entry :: s.written c) }
  | note {s c entry} (isPrivate : ¬ scheme.shared (scheme.key entry)) :
      Step s { s with
        table := Function.update s.table c (scheme.enter (s.table c) entry) }
  | upload {s c sent} (complete : ∀ entry, entry ∈ sent ↔ At scheme s (.node c) entry) :
      Step s { s with uploads := (c, sent) ::ₘ s.uploads }
  | apply {s c entry rest others} (waiting : s.uploads = (c, entry :: rest) ::ₘ others) :
      Step s { s with
        hub := scheme.enter s.hub entry
        uploads := (c, rest) ::ₘ others }
  | settle {s c others} (waiting : s.uploads = (c, []) ::ₘ others) :
      Step s { s with uploads := others }
  | request {s c marks} (known : ∀ source bound, Watermark.Reached marks source bound →
        Watermark.Reached (s.marks c) source bound) :
      Step s { s with requests := (c, marks) ::ₘ s.requests }
  | answer {s c marks others reply} (waiting : s.requests = (c, marks) ::ₘ others)
      (sorted : reply.Pairwise fun first second => scheme.time first ≤ scheme.time second)
      (complete : ∀ entry, entry ∈ reply ↔ At scheme s .hub entry ∧
        ¬ Watermark.Reached marks (scheme.author entry) (scheme.time entry))
      (inOrder : InOrder scheme s c reply) :
      Step s { s with
        requests := others
        downloads := (c, reply) ::ₘ s.downloads }
  | ingest {s c entry rest others marks} (waiting : s.downloads = (c, entry :: rest) ::ₘ others)
      (raised : Raised (s.marks c) (scheme.author entry) (scheme.time entry) marks) :
      Step s { s with
        table := Function.update s.table c (scheme.enter (s.table c) entry)
        marks := Function.update s.marks c marks
        downloads := (c, rest) ::ₘ others }
  | finish {s c others} (waiting : s.downloads = (c, []) ::ₘ others) :
      Step s { s with downloads := others }

/-- The invariant of such runs. -/
structure Sound (s : State ι κ ω α τ) : Prop where
  keyedHub : Champion.WellKeyed scheme.key s.hub
  keyedTable : ∀ c, Champion.WellKeyed scheme.key (s.table c)
  authored : ∀ c entry, entry ∈ s.written c → scheme.author entry = scheme.name c
  increasing : ∀ c, (s.written c).Pairwise fun later earlier =>
    scheme.time earlier < scheme.time later
  written : ∀ place entry, At scheme s place entry →
    scheme.shared (scheme.key entry) ∧ ∃ c, entry ∈ s.written c
  own : ∀ c entry, entry ∈ s.written c → scheme.Covers (s.table c) entry
  /-- What has left its author is on the hub. -/
  fetched : ∀ place entry, At scheme s place entry →
    (∀ c, place = .node c ∨ place = .upload c → scheme.author entry ≠ scheme.name c) →
    scheme.Covers s.hub entry
  /-- An author whose later entry is abroad has sent the earlier ones. -/
  posted : ∀ c place entry earlier, At scheme s place entry → place ≠ .node c →
    scheme.author entry = scheme.name c → At scheme s (.node c) earlier →
    scheme.author earlier = scheme.name c → scheme.time earlier ≤ scheme.time entry →
    scheme.Covers s.hub earlier ∨ ∃ sender, At scheme s (.upload sender) earlier
  bounded : ∀ b c bound, Watermark.Reached (s.marks b) (scheme.name c) bound →
    ∃ entry ∈ s.written c, bound ≤ scheme.time entry
  asked : ∀ c marks, (c, marks) ∈ s.requests → ∀ source bound,
    Watermark.Reached marks source bound → Watermark.Reached (s.marks c) source bound
  known : ∀ b place entry, At scheme s place entry →
    Watermark.Reached (s.marks b) (scheme.author entry) (scheme.time entry) →
    scheme.Covers (s.table b) entry ∨ scheme.Beats s.hub entry
  sorted : ∀ b reply, (b, reply) ∈ s.downloads →
    reply.Pairwise fun first second => scheme.time first ≤ scheme.time second
  pending : ∀ b reply, (b, reply) ∈ s.downloads → ∀ entry ∈ reply, ∀ place earlier,
    At scheme s place earlier → scheme.author earlier = scheme.author entry →
    scheme.time earlier ≤ scheme.time entry →
    scheme.Covers (s.table b) earlier ∨ scheme.Beats s.hub earlier ∨ earlier ∈ reply

end

variable {ι : Type u₁} {κ : Type u₂} {ω : Type u₃} {α : Type u₄} {ρ : Type u₅} {τ : Type u₆}
variable [DecidableEq κ] [DecidableEq ω] [LinearOrder ρ] [LinearOrder τ]
variable {scheme : Scheme ι κ ω α ρ τ} {s next : State ι κ ω α τ}

namespace Sound

theorem eq_of_time (sound : Sound scheme s) {first second : α} {c d : ι}
    (firstWritten : first ∈ s.written c) (secondWritten : second ∈ s.written d)
    (sameAuthor : scheme.author first = scheme.author second)
    (sameTime : scheme.time first = scheme.time second) : first = second := by
  have same : c = d := by
    apply scheme.name_injective
    rw [← sound.authored c first firstWritten, sameAuthor,
      sound.authored d second secondWritten]
  subst d
  have symmetric : Std.Symm fun left right : α => scheme.time left ≠ scheme.time right :=
    ⟨fun _ _ different => different.symm⟩
  have distinct : (s.written c).Pairwise fun left right =>
      scheme.time left ≠ scheme.time right :=
    (sound.increasing c).imp fun later => later.ne'
  by_contra different
  exact distinct.forall firstWritten secondWritten different sameTime

theorem beats_or_at_hub (sound : Sound scheme s) {place : Place ι} {entry : α}
    (present : At scheme s place entry) (covers : scheme.Covers s.hub entry) :
    scheme.Beats s.hub entry ∨ At scheme s .hub entry := by
  obtain ⟨held, found, above⟩ := covers
  rcases lt_or_eq_of_le above with below | equal
  · exact .inl ⟨held, found, below⟩
  · have atHub : At scheme s .hub held := by
      rw [At, sound.keyedHub found]
      exact found
    obtain ⟨_, c, entryWritten⟩ := sound.written place entry present
    obtain ⟨_, d, heldWritten⟩ := sound.written .hub held atHub
    obtain ⟨sameAuthor, sameTime⟩ := scheme.attributed equal
    rw [sound.eq_of_time entryWritten heldWritten sameAuthor sameTime]
    exact .inr atHub

/-- Where authors write in increasing time, every entry of the hub that a node
has marked is held by the node, or beaten by what it holds. -/
theorem held_or_beaten (sound : Sound scheme s) {b : ι} {entry : α}
    (present : At scheme s .hub entry)
    (reached : Watermark.Reached (s.marks b) (scheme.author entry) (scheme.time entry)) :
    ∃ held, (s.table b).lookup (scheme.key entry) = some held ∧
      (held = entry ∨ scheme.rank entry < scheme.rank held) := by
  have covers : scheme.Covers (s.table b) entry := by
    rcases sound.known b .hub entry present reached with covers | ⟨held, found, below⟩
    · exact covers
    · rw [show s.hub.lookup (scheme.key entry) = some entry from present] at found
      cases found
      exact absurd below (lt_irrefl _)
  obtain ⟨held, found, above⟩ := covers
  refine ⟨held, found, ?_⟩
  rcases lt_or_eq_of_le above with below | equal
  · exact .inr below
  · obtain ⟨isShared, c, entryWritten⟩ := sound.written .hub entry present
    have atNode : At scheme s (.node b) held := by
      rw [At, sound.keyedTable b found]
      exact ⟨isShared, found⟩
    obtain ⟨_, d, heldWritten⟩ := sound.written (.node b) held atNode
    obtain ⟨sameAuthor, sameTime⟩ := scheme.attributed equal
    exact .inl (sound.eq_of_time entryWritten heldWritten sameAuthor sameTime).symm

end Sound

theorem mem_before_taking {c node : ι} {taken entry : α} {list rest : List α}
    {lists others : Multiset (ι × List α)} (waiting : lists = (c, taken :: rest) ::ₘ others)
    (flying : (node, list) ∈ (c, rest) ::ₘ others) (member : entry ∈ list) :
    ∃ list, (node, list) ∈ lists ∧ entry ∈ list := by
  rcases Multiset.mem_cons.mp flying with same | before
  · cases same
    exact ⟨taken :: list, waiting ▸ Multiset.mem_cons_self _ _,
      List.mem_cons_of_mem taken member⟩
  · exact ⟨list, waiting ▸ Multiset.mem_cons_of_mem before, member⟩

variable [DecidableEq ι]

namespace Step

/-! What a step can do to each part of the state. -/

theorem covers_hub (step : Step scheme s next) {entry : α}
    (covers : scheme.Covers s.hub entry) : scheme.Covers next.hub entry := by
  cases step with
  | apply => exact Champion.Covers.enter covers _
  | _ => exact covers

theorem covers_table (step : Step scheme s next) {c : ι} {entry : α}
    (covers : scheme.Covers (s.table c) entry) : scheme.Covers (next.table c) entry := by
  have entered (node : ι) (candidate : α) : scheme.Covers
      (Function.update s.table node (scheme.enter (s.table node) candidate) c) entry := by
    by_cases same : c = node
    · subst node
      rw [Function.update_self]
      exact Champion.Covers.enter covers candidate
    · rw [Function.update_of_ne same]
      exact covers
  cases step with
  | write | note | ingest => exact entered _ _
  | _ => exact covers

theorem reached (step : Step scheme s next) {c : ι} {source : ω} {bound : τ}
    (before : Watermark.Reached (s.marks c) source bound) :
    Watermark.Reached (next.marks c) source bound := by
  have raised {node : ι} {author : ω} {time : τ} {marks : FiniteMap ω τ}
      (raised : Raised (s.marks node) author time marks) :
      Watermark.Reached (Function.update s.marks node marks c) source bound := by
    by_cases same : c = node
    · subst node
      rw [Function.update_self]
      exact raised.kept before
    · rw [Function.update_of_ne same]
      exact before
  cases step with
  | write _ _ marked => exact raised marked
  | ingest _ marked => exact raised marked
  | _ => exact before

theorem beats_hub (step : Step scheme s next) {entry : α}
    (beats : scheme.Beats s.hub entry) : scheme.Beats next.hub entry := by
  cases step with
  | apply => exact Champion.Beats.enter beats _
  | _ => exact beats

theorem mem_written (step : Step scheme s next) {c : ι} {entry : α}
    (member : entry ∈ s.written c) : entry ∈ next.written c := by
  cases step with
  | @write node =>
      by_cases same : c = node
      · subst node
        simp [member]
      · simpa [Function.update_of_ne same] using member
  | _ => exact member

end Step

structure Fresh (scheme : Scheme ι κ ω α ρ τ) (s next : State ι κ ω α τ) (c : ι)
    (entry : α) : Prop where
  authored : scheme.author entry = scheme.name c
  later : ∀ earlier ∈ s.written c, scheme.time earlier < scheme.time entry
  member : entry ∈ next.written c
  covered : scheme.Covers (next.table c) entry

inductive Hop : Place ι → Place ι → Prop
  | send : Hop (.node c) (.upload c)
  | apply : Hop (.upload c) .hub
  | reply : Hop .hub (.download c)
  | ingest : Hop (.download c) (.node c)

namespace Step

theorem written_source (step : Step scheme s next) {c : ι} {entry : α}
    (member : entry ∈ next.written c) :
    entry ∈ s.written c ∨ Fresh scheme s next c entry := by
  cases step with
  | @write node fresh _ authored later =>
      by_cases same : c = node
      · subst node
        simp only [Function.update_self] at member
        rcases List.mem_cons.mp member with rfl | before
        · refine .inr ⟨authored, later, by simp, ?_⟩
          simp only [Function.update_self]
          exact Champion.covers_enter_self (s.table c) entry
        · exact .inl before
      · simp only [Function.update_of_ne same] at member
        exact .inl member
  | _ => exact .inl member

omit [DecidableEq ω] [LinearOrder τ] in
theorem lookup_update_enter_source {table : ι → FiniteMap κ α} {c node : ι}
    {candidate entry : α} {position : κ}
    (found : (Function.update table node (scheme.enter (table node) candidate) c).lookup
      position = some entry) :
    (table c).lookup position = some entry ∨ c = node ∧ entry = candidate := by
  by_cases same : c = node
  · subst node
    rw [Function.update_self] at found
    rcases Champion.lookup_enter_source found with before | ⟨new, _⟩
    · exact .inl before
    · exact .inr ⟨rfl, new⟩
  · rw [Function.update_of_ne same] at found
    exact .inl found

/-- A copy found after a step was there before, has moved, or is new. -/
theorem at_source (step : Step scheme s next) {place : Place ι} {entry : α}
    (present : At scheme next place entry) :
    At scheme s place entry ∨ (∃ source, Hop source place ∧ At scheme s source entry) ∨
      ∃ c, place = .node c ∧ scheme.shared (scheme.key entry) ∧
        Fresh scheme s next c entry := by
  cases step with
  | @write c fresh _ authored later =>
      cases place with
      | node node =>
          obtain ⟨isShared, found⟩ := present
          rcases lookup_update_enter_source found with before | ⟨rfl, rfl⟩
          · exact .inl ⟨isShared, before⟩
          · refine .inr (.inr ⟨node, rfl, isShared, authored, later, by simp, ?_⟩)
            simp only [Function.update_self]
            exact Champion.covers_enter_self (s.table node) entry
      | _ => exact .inl present
  | note isPrivate =>
      cases place with
      | node node =>
          obtain ⟨isShared, found⟩ := present
          rcases lookup_update_enter_source found with before | ⟨rfl, rfl⟩
          · exact .inl ⟨isShared, before⟩
          · exact absurd isShared isPrivate
      | _ => exact .inl present
  | @upload c sent complete =>
      cases place with
      | upload node =>
          obtain ⟨list, flying, member⟩ := present
          rcases Multiset.mem_cons.mp flying with same | before
          · cases same
            exact .inr (.inl ⟨.node c, .send, (complete entry).mp member⟩)
          · exact .inl ⟨list, before, member⟩
      | _ => exact .inl present
  | @apply c candidate rest others waiting =>
      cases place with
      | hub =>
          rcases Champion.lookup_enter_source present with before | ⟨rfl, _⟩
          · exact .inl before
          · exact .inr (.inl ⟨.upload c, .apply, entry :: rest,
              waiting ▸ Multiset.mem_cons_self _ _, List.mem_cons_self⟩)
      | upload node =>
          obtain ⟨list, flying, member⟩ := present
          exact .inl (mem_before_taking waiting flying member)
      | _ => exact .inl present
  | settle waiting =>
      cases place with
      | upload node =>
          obtain ⟨list, flying, member⟩ := present
          exact .inl ⟨list, waiting ▸ Multiset.mem_cons_of_mem flying, member⟩
      | _ => exact .inl present
  | request => exact .inl present
  | answer waiting sorted complete =>
      cases place with
      | download node =>
          obtain ⟨list, flying, member⟩ := present
          rcases Multiset.mem_cons.mp flying with same | before
          · cases same
            exact .inr (.inl ⟨.hub, .reply, ((complete entry).mp member).1⟩)
          · exact .inl ⟨list, before, member⟩
      | _ => exact .inl present
  | @ingest c candidate rest others _ waiting =>
      cases place with
      | node node =>
          obtain ⟨isShared, found⟩ := present
          rcases lookup_update_enter_source found with before | ⟨rfl, rfl⟩
          · exact .inl ⟨isShared, before⟩
          · exact .inr (.inl ⟨.download node, .ingest, entry :: rest,
              waiting ▸ Multiset.mem_cons_self _ _, List.mem_cons_self⟩)
      | download node =>
          obtain ⟨list, flying, member⟩ := present
          exact .inl (mem_before_taking waiting flying member)
      | _ => exact .inl present
  | finish waiting =>
      cases place with
      | download node =>
          obtain ⟨list, flying, member⟩ := present
          exact .inl ⟨list, waiting ▸ Multiset.mem_cons_of_mem flying, member⟩
      | _ => exact .inl present

/-- Marks grow by an own entry or by the first entry of a download. -/
theorem reached_source (step : Step scheme s next) {b : ι} {source : ω} {bound : τ}
    (after : Watermark.Reached (next.marks b) source bound) :
    Watermark.Reached (s.marks b) source bound ∨
      (∃ entry, Fresh scheme s next b entry ∧ source = scheme.name b ∧
        bound ≤ scheme.time entry) ∨
      ∃ entry rest, (b, entry :: rest) ∈ s.downloads ∧ source = scheme.author entry ∧
        bound ≤ scheme.time entry ∧ scheme.Covers (next.table b) entry := by
  cases step with
  | @write c entry marks authored later raised =>
      by_cases same : b = c
      · subst c
        simp only [Function.update_self] at after
        rcases raised.added after with before | ⟨rfl, below⟩
        · exact .inl before
        · refine .inr (.inl ⟨entry, ⟨authored, later, by simp, ?_⟩, rfl, below⟩)
          simp only [Function.update_self]
          exact Champion.covers_enter_self (s.table b) entry
      · simp only [Function.update_of_ne same] at after
        exact .inl after
  | @ingest c entry rest others marks waiting raised =>
      by_cases same : b = c
      · subst c
        simp only [Function.update_self] at after
        rcases raised.added after with before | ⟨rfl, below⟩
        · exact .inl before
        · refine .inr (.inr ⟨entry, rest, waiting ▸ Multiset.mem_cons_self _ _, rfl,
            below, ?_⟩)
          simp only [Function.update_self]
          exact Champion.covers_enter_self (s.table b) entry
      · simp only [Function.update_of_ne same] at after
        exact .inl after
  | _ => exact .inl after

/-- A download is an old one, the rest of an old one, or a new answer. -/
theorem download_source (step : Step scheme s next) {b : ι} {reply : List α}
    (flying : (b, reply) ∈ next.downloads) :
    (b, reply) ∈ s.downloads ∨
      (∃ entry, (b, entry :: reply) ∈ s.downloads ∧ scheme.Covers (next.table b) entry) ∨
      ∃ marks, (b, marks) ∈ s.requests ∧
        (reply.Pairwise fun first second => scheme.time first ≤ scheme.time second) ∧
        (∀ entry, entry ∈ reply ↔ At scheme s .hub entry ∧
          ¬ Watermark.Reached marks (scheme.author entry) (scheme.time entry)) ∧
        InOrder scheme s b reply := by
  cases step with
  | @answer c marks others answered waiting sorted complete inOrder =>
      rcases Multiset.mem_cons.mp flying with same | before
      · cases same
        exact .inr (.inr ⟨marks, waiting ▸ Multiset.mem_cons_self _ _, sorted, complete,
          inOrder⟩)
      · exact .inl before
  | @ingest c entry rest others marks waiting raised =>
      rcases Multiset.mem_cons.mp flying with same | before
      · cases same
        refine .inr (.inl ⟨entry, waiting ▸ Multiset.mem_cons_self _ _, ?_⟩)
        simp only [Function.update_self]
        exact Champion.covers_enter_self (s.table b) entry
      · exact .inl (waiting ▸ Multiset.mem_cons_of_mem before)
  | finish waiting => exact .inl (waiting ▸ Multiset.mem_cons_of_mem flying)
  | _ => exact .inl flying

/-- What waits in an upload keeps waiting until the hub takes it. -/
theorem upload_progress (step : Step scheme s next) {c : ι} {entry : α}
    (waits : At scheme s (.upload c) entry) :
    At scheme next (.upload c) entry ∨ scheme.Covers next.hub entry := by
  obtain ⟨list, flying, member⟩ := waits
  cases step with
  | upload => exact .inl ⟨list, Multiset.mem_cons_of_mem flying, member⟩
  | @apply node taken rest others waiting =>
      rw [waiting] at flying
      rcases Multiset.mem_cons.mp flying with same | before
      · cases same
        rcases List.mem_cons.mp member with rfl | later
        · exact .inr (Champion.covers_enter_self s.hub entry)
        · exact .inl ⟨rest, Multiset.mem_cons_self _ _, later⟩
      · exact .inl ⟨list, Multiset.mem_cons_of_mem before, member⟩
  | settle waiting =>
      rw [waiting] at flying
      rcases Multiset.mem_cons.mp flying with same | before
      · cases same
        simp at member
      · exact .inl ⟨list, before, member⟩
  | _ => exact .inl ⟨list, flying, member⟩

/-- An upload that is new takes all that its node holds. -/
theorem upload_complete (step : Step scheme s next) {c : ι} {entry : α}
    (waits : At scheme next (.upload c) entry) :
    At scheme s (.upload c) entry ∨
      ∀ other, At scheme s (.node c) other → At scheme next (.upload c) other := by
  obtain ⟨list, flying, member⟩ := waits
  cases step with
  | @upload node sent complete =>
      rcases Multiset.mem_cons.mp flying with same | before
      · cases same
        exact .inr fun other held =>
          ⟨list, Multiset.mem_cons_self _ _, (complete other).mpr held⟩
      · exact .inl ⟨list, before, member⟩
  | apply waiting => exact .inl (mem_before_taking waiting flying member)
  | settle waiting =>
      exact .inl ⟨list, waiting ▸ Multiset.mem_cons_of_mem flying, member⟩
  | _ => exact .inl ⟨list, flying, member⟩

theorem request_source (step : Step scheme s next) {c : ι} {marks : FiniteMap ω τ}
    (asked : (c, marks) ∈ next.requests) :
    (c, marks) ∈ s.requests ∨ ∀ source bound, Watermark.Reached marks source bound →
      Watermark.Reached (s.marks c) source bound := by
  cases step with
  | request known =>
      rcases Multiset.mem_cons.mp asked with same | before
      · cases same
        exact .inr known
      · exact .inl before
  | answer waiting => exact .inl (waiting ▸ Multiset.mem_cons_of_mem asked)
  | _ => exact .inl asked

theorem keyedHub (step : Step scheme s next)
    (keyed : Champion.WellKeyed scheme.key s.hub) :
    Champion.WellKeyed scheme.key next.hub := by
  cases step with
  | apply => exact Champion.WellKeyed.enter keyed _
  | _ => exact keyed

theorem keyedTable (step : Step scheme s next) {c : ι}
    (keyed : Champion.WellKeyed scheme.key (s.table c)) :
    Champion.WellKeyed scheme.key (next.table c) := by
  intro position stored found
  have entered {node : ι} {candidate : α}
      (found : (Function.update s.table node (scheme.enter (s.table node) candidate)
        c).lookup position = some stored) : scheme.key stored = position := by
    by_cases same : c = node
    · subst node
      rw [Function.update_self] at found
      exact Champion.WellKeyed.enter keyed candidate found
    · rw [Function.update_of_ne same] at found
      exact keyed found
  cases step with
  | write | note | ingest => exact entered found
  | _ => exact keyed found

theorem increasing (step : Step scheme s next) {c : ι}
    (increasing : (s.written c).Pairwise fun later earlier =>
      scheme.time earlier < scheme.time later) :
    (next.written c).Pairwise fun later earlier =>
      scheme.time earlier < scheme.time later := by
  cases step with
  | @write node entry _ _ later =>
      by_cases same : c = node
      · subst node
        simp only [Function.update_self]
        exact List.pairwise_cons.mpr ⟨later, increasing⟩
      · simp only [Function.update_of_ne same]
        exact increasing
  | _ => exact increasing

end Step

end Relay

end NellDB.Data
