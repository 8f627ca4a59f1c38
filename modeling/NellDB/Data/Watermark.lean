import NellDB.Data.Champion

namespace NellDB.Data

/-! Finite maps of maxima: each key is mapped to the highest value reported
for it so far. -/

namespace Watermark

section

variable {κ : Type u} {σ : Type v} [DecidableEq κ] [LinearOrder σ]

def raise (marks : FiniteMap κ σ) (source : κ) (value : σ) : FiniteMap κ σ :=
  match marks.lookup source with
  | none => marks.insert source value
  | some current =>
      if current < value then marks.insert source value else marks

def raiseAll (marks : FiniteMap κ σ) (reports : List (κ × σ)) : FiniteMap κ σ :=
  reports.foldl (fun marks report => raise marks report.1 report.2) marks

def Reached (marks : FiniteMap κ σ) (source : κ) (value : σ) : Prop :=
  ∃ mark, marks.lookup source = some mark ∧ value ≤ mark

instance (marks : FiniteMap κ σ) (source : κ) (value : σ) :
    Decidable (Reached marks source value) :=
  match found : marks.lookup source with
  | none => isFalse (by
      rintro ⟨mark, present, _⟩
      rw [found] at present
      contradiction)
  | some mark => decidable_of_iff (value ≤ mark)
      ⟨fun below => ⟨mark, found, below⟩, by
        rintro ⟨other, present, below⟩
        rw [found] at present
        cases present
        exact below⟩

end

variable {κ : Type u} {σ : Type v} [DecidableEq κ] [LinearOrder σ]

theorem lookup_raise_of_ne (marks : FiniteMap κ σ) {source other : κ} (value : σ)
    (different : other ≠ source) :
    (raise marks source value).lookup other = marks.lookup other := by
  unfold raise
  split
  next => exact Finmap.lookup_insert_of_ne _ different
  next =>
      split
      next => exact Finmap.lookup_insert_of_ne _ different
      next => rfl

theorem lookup_raise_self (marks : FiniteMap κ σ) (source : κ) (value : σ) :
    ∃ mark, (raise marks source value).lookup source = some mark ∧
      value ≤ mark ∧ (mark = value ∨ marks.lookup source = some mark) ∧
      ∀ old, marks.lookup source = some old → old ≤ mark := by
  cases present : marks.lookup source with
  | none => exact ⟨value, by simp [raise, present], le_rfl, .inl rfl, by simp⟩
  | some current =>
      by_cases below : current < value
      · refine ⟨value, by simp [raise, present, below], le_rfl, .inl rfl, ?_⟩
        intro old same
        cases same
        exact below.le
      · refine ⟨current, by simp [raise, present, below], not_lt.mp below,
          .inr rfl, ?_⟩
        intro old same
        cases same
        exact le_rfl

theorem lookup_raise_self_congr {first second : FiniteMap κ σ} {source : κ}
    (same : first.lookup source = second.lookup source) (value : σ) :
    (raise first source value).lookup source = (raise second source value).lookup source := by
  unfold raise
  rw [same]
  split
  next => rw [Finmap.lookup_insert, Finmap.lookup_insert]
  next =>
      split
      next => rw [Finmap.lookup_insert, Finmap.lookup_insert]
      next => exact same

theorem raise_of_reached {marks : FiniteMap κ σ} {source : κ} {value : σ}
    (reached : Reached marks source value) : raise marks source value = marks := by
  obtain ⟨mark, found, below⟩ := reached
  simp [raise, found, not_lt.mpr below]

theorem reached_raise_iff (marks : FiniteMap κ σ) (source other : κ)
    (value bound : σ) :
    Reached (raise marks source value) other bound ↔
      Reached marks other bound ∨ other = source ∧ bound ≤ value := by
  by_cases same : other = source
  · subst same
    obtain ⟨mark, found, above, origin, dominates⟩ :=
      lookup_raise_self marks other value
    constructor
    · rintro ⟨held, heldFound, below⟩
      rw [found] at heldFound
      cases heldFound
      rcases origin with rfl | kept
      · exact .inr ⟨rfl, below⟩
      · exact .inl ⟨mark, kept, below⟩
    · rintro (⟨old, oldFound, below⟩ | ⟨_, below⟩)
      · exact ⟨mark, found, below.trans (dominates old oldFound)⟩
      · exact ⟨mark, found, below.trans above⟩
  · simp [Reached, lookup_raise_of_ne marks value same, same]

theorem reached_raiseAll_iff (marks : FiniteMap κ σ) (reports : List (κ × σ))
    (source : κ) (bound : σ) :
    Reached (raiseAll marks reports) source bound ↔
      Reached marks source bound ∨
        ∃ report ∈ reports, report.1 = source ∧ bound ≤ report.2 := by
  induction reports generalizing marks with
  | nil => simp [raiseAll]
  | cons report rest ih =>
      rw [raiseAll, List.foldl_cons, ← raiseAll, ih, reached_raise_iff]
      simp only [List.mem_cons, exists_eq_or_imp, or_assoc, eq_comm (a := source)]

/-- A source without a mark counts from a floor. -/
def raiseAbove (floor : σ) (marks : FiniteMap κ σ) (source : κ) (value : σ) : FiniteMap κ σ :=
  if (marks.lookup source).getD floor < value then marks.insert source value else marks

def raiseAllAbove (floor : σ) (marks : FiniteMap κ σ) (reports : List (κ × σ)) :
    FiniteMap κ σ :=
  reports.foldl (fun marks report => raiseAbove floor marks report.1 report.2) marks

theorem le_getD_of_reached {marks : FiniteMap κ σ} {source : κ} {value : σ}
    (reached : Reached marks source value) (floor : σ) :
    value ≤ (marks.lookup source).getD floor := by
  obtain ⟨mark, found, below⟩ := reached
  rw [found]
  exact below

theorem reached_raiseAbove_iff (floor : σ) (marks : FiniteMap κ σ) (source other : κ)
    (value bound : σ) :
    Reached (raiseAbove floor marks source value) other bound ↔
      Reached marks other bound ∨
        other = source ∧ bound ≤ value ∧ (marks.lookup source).getD floor < value := by
  unfold raiseAbove
  split
  next above =>
      by_cases same : other = source
      · subst other
        constructor
        · rintro ⟨mark, found, below⟩
          rw [Finmap.lookup_insert] at found
          cases found
          exact .inr ⟨rfl, below, above⟩
        · rintro (before | ⟨_, below, _⟩)
          · exact ⟨value, Finmap.lookup_insert _,
              (le_getD_of_reached before floor).trans above.le⟩
          · exact ⟨value, Finmap.lookup_insert _, below⟩
      · simp [Reached, Finmap.lookup_insert_of_ne _ same, same]
  next notAbove => simp [notAbove]

theorem getD_raiseAbove (floor : σ) (marks : FiniteMap κ σ) (source other : κ) (value : σ) :
    ((raiseAbove floor marks source value).lookup other).getD floor =
      if other = source then max ((marks.lookup source).getD floor) value
      else (marks.lookup other).getD floor := by
  unfold raiseAbove
  split
  next above =>
      by_cases same : other = source
      · rw [if_pos same, same, Finmap.lookup_insert, max_eq_right above.le]
        rfl
      · rw [if_neg same, Finmap.lookup_insert_of_ne _ same]
  next notAbove =>
      by_cases same : other = source
      · rw [if_pos same, same, max_eq_left (not_lt.mp notAbove)]
      · rw [if_neg same]

/-- Only reports above the mark that was there before count, in any order. -/
theorem reached_raiseAllAbove_iff (floor : σ) (marks : FiniteMap κ σ)
    (reports : List (κ × σ)) (source : κ) (bound : σ) :
    Reached (raiseAllAbove floor marks reports) source bound ↔
      Reached marks source bound ∨ ∃ report ∈ reports, report.1 = source ∧
        bound ≤ report.2 ∧ (marks.lookup source).getD floor < report.2 := by
  induction reports generalizing marks with
  | nil => simp [raiseAllAbove]
  | cons report rest ih =>
      rw [raiseAllAbove, List.foldl_cons, ← raiseAllAbove, ih, reached_raiseAbove_iff,
        getD_raiseAbove]
      simp only [List.mem_cons, exists_eq_or_imp]
      by_cases same : source = report.1
      · subst source
        simp only [true_and, if_true, max_lt_iff]
        constructor
        · rintro ((before | now) | ⟨later, member, isSource, below, above, _⟩)
          · exact .inl before
          · exact .inr (.inl now)
          · exact .inr (.inr ⟨later, member, isSource, below, above⟩)
        · rintro (before | now | ⟨later, member, isSource, below, above⟩)
          · exact .inl (.inl before)
          · exact .inl (.inr now)
          · by_cases past : report.2 < later.2
            · exact .inr ⟨later, member, isSource, below, above, past⟩
            · have within := not_lt.mp past
              exact .inl (.inr ⟨below.trans within, above.trans_le within⟩)
      · have different : report.1 ≠ source := fun equal => same equal.symm
        simp only [same, different, if_false, false_and, or_false, false_or]

/-- A map of maxima is determined by what it has reached. -/
theorem eq_of_reached_iff {first second : FiniteMap κ σ}
    (same : ∀ source bound,
      Reached first source bound ↔ Reached second source bound) :
    first = second := by
  apply Finmap.ext_lookup
  intro source
  cases leftFound : first.lookup source with
  | none =>
      cases rightFound : second.lookup source with
      | none => rfl
      | some mark =>
          obtain ⟨held, heldFound, _⟩ :=
            (same source mark).mpr ⟨mark, rightFound, le_rfl⟩
          rw [leftFound] at heldFound
          contradiction
  | some mark =>
      obtain ⟨held, heldFound, below⟩ :=
        (same source mark).mp ⟨mark, leftFound, le_rfl⟩
      obtain ⟨back, backFound, above⟩ :=
        (same source held).mpr ⟨held, heldFound, le_rfl⟩
      rw [leftFound] at backFound
      cases backFound
      rw [heldFound, le_antisymm below above]

theorem raiseAll_congr {first second : List (κ × σ)}
    (sameReports : ∀ report, report ∈ first ↔ report ∈ second)
    (marks : FiniteMap κ σ) :
    raiseAll marks first = raiseAll marks second := by
  apply eq_of_reached_iff
  intro source bound
  simp only [reached_raiseAll_iff, sameReports]

end Watermark

end NellDB.Data
