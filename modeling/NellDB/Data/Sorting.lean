import Mathlib.Data.List.Perm.Basic

namespace NellDB.Data

/-! Sorting with a comparison function, stable or not. -/

/-- The output has the entries of the input, and no entry is less than an earlier
one. -/
structure Sorts (less : α → α → Bool) (input output : List α) : Prop where
  perm : output.Perm input
  ordered : output.Pairwise fun first second => less second first = false

theorem sorts_mergeSort {less : α → α → Bool}
    (trans : ∀ first second third, less second first = false → less third second = false →
      less third first = false)
    (total : ∀ first second, less second first = false ∨ less first second = false)
    (input : List α) :
    Sorts less input (input.mergeSort fun first second => !less second first) where
  perm := List.mergeSort_perm _ _
  ordered := by
    refine (List.pairwise_mergeSort ?_ ?_ input).imp ?_
    · intro first second third
      simpa using trans first second third
    · intro first second
      simpa using total first second
    · intro first second ordered
      simpa using ordered

/-- Where any two entries are told apart, the order is strict. -/
theorem Sorts.strict {less : α → α → Bool} {input output : List α}
    (sorts : Sorts less input output)
    (apart : input.Pairwise fun first second =>
      less first second = true ∨ less second first = true) :
    output.Pairwise fun first second => less first second = true := by
  have toldApart : output.Pairwise fun first second =>
      less first second = true ∨ less second first = true :=
    sorts.perm.symm.pairwise apart fun either => either.symm
  refine (sorts.ordered.and toldApart).imp ?_
  rintro first second ⟨notLess, either⟩
  rcases either with less | more
  · exact less
  · rw [notLess] at more
    contradiction

/-- A strict order leaves one way to list a set. -/
theorem eq_of_strictly_ordered {before : α → α → Prop}
    (asymm : ∀ first second, before first second → ¬ before second first)
    {first second : List α} (firstOrdered : first.Pairwise before)
    (secondOrdered : second.Pairwise before) (same : ∀ entry, entry ∈ first ↔ entry ∈ second) :
    first = second := by
  have nodup {entries : List α} (ordered : entries.Pairwise before) : entries.Nodup := by
    refine ordered.imp ?_
    rintro entry _ strictly rfl
    exact asymm entry entry strictly strictly
  refine List.Perm.eq_of_pairwise ?_ firstOrdered secondOrdered
    ((List.perm_ext_iff_of_nodup (nodup firstOrdered) (nodup secondOrdered)).mpr same)
  intro entry other _ _ ahead behind
  exact absurd behind (asymm entry other ahead)

end NellDB.Data
