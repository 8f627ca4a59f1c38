import NellDB.Data.Champion

namespace NellDB.Data

/-! Filtered maps, and the orders in which a loop may visit a map. -/

namespace FiniteMap

variable {κ : Type u} {α : Type v}

def filter (keep : α → Bool) (table : FiniteMap κ α) : FiniteMap κ α where
  entries := table.entries.filter fun entry => keep entry.2
  nodupKeys := by
    rw [← Multiset.nodup_keys]
    have distinct := Multiset.nodup_keys.mpr table.nodupKeys
    exact Multiset.nodup_of_le (Multiset.map_le_map (Multiset.filter_le _ _)) distinct

variable [DecidableEq κ]

theorem lookup_filter_iff {keep : α → Bool} {table : FiniteMap κ α} {key : κ} {value : α} :
    (table.filter keep).lookup key = some value ↔
      table.lookup key = some value ∧ keep value = true := by
  rw [Finmap.lookup_eq_some_iff, Finmap.lookup_eq_some_iff]
  exact Multiset.mem_filter

end FiniteMap

theorem FiniteMap.lookup_singleton_iff {κ : Type u} {α : Type v} [DecidableEq κ]
    {key position : κ} {value entry : α} :
    (Finmap.singleton key value : FiniteMap κ α).lookup position = some entry ↔
      position = key ∧ entry = value := by
  constructor
  · intro found
    have member : position ∈ (Finmap.singleton key value : FiniteMap κ α) :=
      Finmap.mem_of_lookup_eq_some found
    rw [Finmap.mem_singleton] at member
    subst member
    rw [Finmap.lookup_singleton_eq, Option.some.injEq] at found
    exact ⟨rfl, found.symm⟩
  · rintro ⟨rfl, rfl⟩
    exact Finmap.lookup_singleton_eq

structure Iteration {κ : Type u} {α : Type v} [DecidableEq κ] (table : FiniteMap κ α) where
  order : List (κ × α)
  distinct : (order.map Prod.fst).Nodup
  complete : ∀ key value, (key, value) ∈ order ↔ table.lookup key = some value

theorem Iteration.length_order {κ : Type u} {α : Type v} [DecidableEq κ]
    {table : FiniteMap κ α} (iteration : Iteration table) :
    iteration.order.length = table.keys.card := by
  have keys : (iteration.order.map Prod.fst).toFinset = table.keys := by
    apply Finset.ext
    intro key
    rw [List.mem_toFinset, Finmap.mem_keys, List.mem_map]
    constructor
    · rintro ⟨⟨visited, value⟩, member, rfl⟩
      exact Finmap.mem_of_lookup_eq_some ((iteration.complete visited value).mp member)
    · intro present
      obtain ⟨value, found⟩ := Option.isSome_iff_exists.mp (Finmap.lookup_isSome.mpr present)
      exact ⟨(key, value), (iteration.complete key value).mpr found, rfl⟩
  rw [← keys, List.toFinset_card_of_nodup iteration.distinct, List.length_map]

def Iteration.sorted {κ : Type u} {α : Type v} [LinearOrder κ] [DecidableEq κ]
    (table : FiniteMap κ α) : Iteration table where
  order := table.sortedKeys.filterMap fun key => (table.lookup key).map (key, ·)
  distinct := by
    have keys : (table.sortedKeys.filterMap fun key =>
        (table.lookup key).map (key, ·)).map Prod.fst = table.sortedKeys.filter
          fun key => (table.lookup key).isSome := by
      induction table.sortedKeys with
      | nil => rfl
      | cons key rest ih => cases found : table.lookup key <;> simp [found, ih]
    rw [keys]
    exact (Finset.sort_nodup _ _).filter _
  complete key value := by
    rw [List.mem_filterMap]
    constructor
    · rintro ⟨visited, _, found⟩
      obtain ⟨stored, present, same⟩ := Option.map_eq_some_iff.mp found
      cases same
      exact present
    · intro found
      refine ⟨key, ?_, by rw [found]; rfl⟩
      rw [FiniteMap.mem_sortedKeys]
      exact Finmap.mem_of_lookup_eq_some found

end NellDB.Data
