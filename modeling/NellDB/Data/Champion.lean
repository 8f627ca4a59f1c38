import Mathlib.Data.Finmap
import Mathlib.Data.Finset.Sort
import Mathlib.Order.Lattice
import Mathlib.Tactic

namespace NellDB.Data

abbrev FiniteMap (κ : Type u) (α : Type v) := Finmap fun _ : κ => α

def FiniteMap.sortedKeys {κ : Type u} {α : Type v} [LinearOrder κ]
    (table : FiniteMap κ α) : List κ :=
  table.keys.sort (· ≤ ·)

theorem FiniteMap.mem_sortedKeys {κ : Type u} {α : Type v} [LinearOrder κ]
    {table : FiniteMap κ α} {key : κ} : key ∈ table.sortedKeys ↔ key ∈ table := by
  rw [sortedKeys, Finset.mem_sort, Finmap.mem_keys]

/-- Which keys of some kind come in which order depends on the keys of that kind
only. -/
theorem FiniteMap.filter_sortedKeys_congr {κ : Type u} {α : Type v} [LinearOrder κ]
    {first second : FiniteMap κ α} {kind : κ → Bool}
    (same : ∀ key, kind key = true → (key ∈ first ↔ key ∈ second)) :
    first.sortedKeys.filter kind = second.sortedKeys.filter kind := by
  have nodup (table : FiniteMap κ α) : (table.sortedKeys.filter kind).Nodup :=
    (Finset.sort_nodup _ _).filter _
  have sorted (table : FiniteMap κ α) :
      (table.sortedKeys.filter kind).Pairwise (· ≤ ·) :=
    (Finset.pairwise_sort _ _).filter _
  refine List.Perm.eq_of_pairwise' (sorted first) (sorted second) ?_
  refine (List.perm_ext_iff_of_nodup (nodup first) (nodup second)).mpr ?_
  intro key
  rw [List.mem_filter, List.mem_filter, mem_sortedKeys, mem_sortedKeys]
  exact and_congr_left (same key)

theorem FiniteMap.insert_of_lookup {κ : Type u} {α : Type v} [DecidableEq κ]
    {table : FiniteMap κ α} {key : κ} {value : α} (found : table.lookup key = some value) :
    table.insert key value = table := by
  apply Finmap.ext_lookup
  intro other
  by_cases same : other = key
  · rw [same, Finmap.lookup_insert, found]
  · rw [Finmap.lookup_insert_of_ne _ same]

/-- What is found after an insertion is what was inserted, or was there before. -/
theorem FiniteMap.lookup_insert_cases {κ : Type u} {α : Type v} [DecidableEq κ]
    {table : FiniteMap κ α} {key position : κ} {value entry : α}
    (found : (table.insert key value).lookup position = some entry) :
    position = key ∧ entry = value ∨ position ≠ key ∧ table.lookup position = some entry := by
  by_cases same : position = key
  · rw [same, Finmap.lookup_insert, Option.some.injEq] at found
    exact .inl ⟨same, found.symm⟩
  · rw [Finmap.lookup_insert_of_ne _ same] at found
    exact .inr ⟨same, found⟩

theorem FiniteMap.lookup_foldl_insert_of_absent {κ : Type u} {α : Type v} {β : Type w}
    [DecidableEq κ] (key : β → κ) (value : β → α) (table : FiniteMap κ α) {entries : List β}
    {position : κ} (absent : ∀ entry ∈ entries, key entry ≠ position) :
    (entries.foldl (fun table entry => table.insert (key entry) (value entry))
      table).lookup position = table.lookup position := by
  induction entries generalizing table with
  | nil => rfl
  | cons head rest ih =>
      have elsewhere : position ≠ key head := (absent head List.mem_cons_self).symm
      rw [List.foldl_cons, ih _ fun entry member => absent entry (List.mem_cons_of_mem _ member),
        Finmap.lookup_insert_of_ne _ elsewhere]

/-- Entries that agree on a position leave their value there. -/
theorem FiniteMap.lookup_foldl_insert_of_mem {κ : Type u} {α : Type v} {β : Type w}
    [DecidableEq κ] (key : β → κ) (value : β → α) (table : FiniteMap κ α) {entries : List β}
    {position : κ} {expected : α} (present : ∃ entry ∈ entries, key entry = position)
    (agree : ∀ entry ∈ entries, key entry = position → value entry = expected) :
    (entries.foldl (fun table entry => table.insert (key entry) (value entry))
      table).lookup position = some expected := by
  induction entries generalizing table with
  | nil =>
      obtain ⟨_, member, _⟩ := present
      contradiction
  | cons head rest ih =>
      rw [List.foldl_cons]
      by_cases later : ∃ entry ∈ rest, key entry = position
      · exact ih _ later fun entry member => agree entry (List.mem_cons_of_mem head member)
      · have isHead : key head = position := by
          obtain ⟨entry, member, same⟩ := present
          cases member with
          | head => exact same
          | tail _ member => exact absurd ⟨entry, member, same⟩ later
        have absent : ∀ entry ∈ rest, key entry ≠ position :=
          fun entry member same => later ⟨entry, member, same⟩
        rw [lookup_foldl_insert_of_absent key value _ absent, isHead, Finmap.lookup_insert,
          agree head List.mem_cons_self isHead]

theorem FiniteMap.finite_entries {κ : Type u} {α : Type v} [DecidableEq κ]
    (table : FiniteMap κ α) : {entry | ∃ key, table.lookup key = some entry}.Finite := by
  have images := table.keys.finite_toSet.image table.lookup
  refine (images.preimage (Option.some_injective α).injOn).subset ?_
  rintro entry ⟨key, found⟩
  exact ⟨key, Finmap.mem_keys.mpr (Finmap.mem_of_lookup_eq_some found), found⟩

/-! Tables that keep one entry of greatest rank for each key. -/

namespace Champion

section

variable {κ : Type u} {α : Type v} {σ : Type w}
variable [DecidableEq κ] [LinearOrder σ]
variable (key : α → κ) (rank : α → σ)

def prefer (current candidate : α) : α :=
  if rank current < rank candidate then candidate else current

def enter (table : FiniteMap κ α) (candidate : α) : FiniteMap κ α :=
  match table.lookup (key candidate) with
  | none => table.insert (key candidate) candidate
  | some current => table.insert (key candidate) (prefer rank current candidate)

def enterAll (table : FiniteMap κ α) (candidates : List α) : FiniteMap κ α :=
  candidates.foldl (enter key rank) table

/-- The table holds an entry at the candidate's key that is ranked at least
as high as the candidate. -/
def Covers (table : FiniteMap κ α) (candidate : α) : Prop :=
  ∃ entry, table.lookup (key candidate) = some entry ∧
    rank candidate ≤ rank entry

def Beats (table : FiniteMap κ α) (candidate : α) : Prop :=
  ∃ entry, table.lookup (key candidate) = some entry ∧
    rank candidate < rank entry

def WellKeyed (table : FiniteMap κ α) : Prop :=
  ∀ {position entry}, table.lookup position = some entry → key entry = position

/-- Equal keys and equal ranks identify the members of a collection. -/
def Separated (members : α → Prop) : Prop :=
  ∀ first second, members first → members second →
    key first = key second → rank first = rank second → first = second

/-- The entry is a member at the position and no member there outranks it. -/
structure IsChampion (members : α → Prop) (position : κ) (entry : α) : Prop where
  member : members entry
  placed : key entry = position
  greatest : ∀ other, members other → key other = position →
    rank other ≤ rank entry

/-- The table holds nothing but members, and covers them all. -/
structure Settled (members : α → Prop) (table : FiniteMap κ α) : Prop where
  keyed : WellKeyed key table
  source : ∀ {position entry}, table.lookup position = some entry → members entry
  covers : ∀ {candidate}, members candidate → Covers key rank table candidate

end

variable {κ : Type u} {α : Type v} {σ : Type w}
variable [DecidableEq κ] [LinearOrder σ]
variable {key : α → κ} {rank : α → σ}

theorem le_rank_prefer_left (current candidate : α) :
    rank current ≤ rank (prefer rank current candidate) := by
  unfold prefer
  split
  next outranked => exact outranked.le
  next => exact le_rfl

theorem le_rank_prefer_right (current candidate : α) :
    rank candidate ≤ rank (prefer rank current candidate) := by
  unfold prefer
  split
  next => exact le_rfl
  next kept => exact not_lt.mp kept

theorem prefer_eq_or (rank : α → σ) (current candidate : α) :
    prefer rank current candidate = current ∨
      prefer rank current candidate = candidate := by
  unfold prefer
  split
  next => exact .inr rfl
  next => exact .inl rfl

theorem lookup_enter_of_ne (table : FiniteMap κ α) {candidate : α} {position : κ}
    (different : position ≠ key candidate) :
    (enter key rank table candidate).lookup position = table.lookup position := by
  unfold enter
  split <;> exact Finmap.lookup_insert_of_ne _ different

theorem lookup_enter_of_none {table : FiniteMap κ α} {candidate : α}
    (absent : table.lookup (key candidate) = none) :
    (enter key rank table candidate).lookup (key candidate) = some candidate := by
  simp [enter, absent]

theorem lookup_enter_of_some {table : FiniteMap κ α} {candidate current : α}
    (present : table.lookup (key candidate) = some current) :
    (enter key rank table candidate).lookup (key candidate) =
      some (prefer rank current candidate) := by
  simp [enter, present]

theorem lookup_enter_self_iff {table : FiniteMap κ α} {candidate entry : α} :
    (enter key rank table candidate).lookup (key candidate) = some entry ↔
      table.lookup (key candidate) = some entry ∧ rank candidate ≤ rank entry ∨
        entry = candidate ∧
          ∀ held, table.lookup (key candidate) = some held → rank held < rank candidate := by
  cases present : table.lookup (key candidate) with
  | none =>
      rw [lookup_enter_of_none present]
      simp [eq_comm]
  | some held =>
      rw [lookup_enter_of_some present, prefer]
      simp only [Option.some.injEq, forall_eq']
      split
      next newer =>
          constructor
          · rintro rfl
            exact .inr ⟨rfl, newer⟩
          · rintro (⟨rfl, above⟩ | ⟨rfl, _⟩)
            · exact absurd newer (not_lt.mpr above)
            · rfl
      next kept =>
          constructor
          · rintro rfl
            exact .inl ⟨rfl, not_lt.mp kept⟩
          · rintro (⟨rfl, _⟩ | ⟨_, newer⟩)
            · rfl
            · exact absurd newer kept

theorem enter_eq_insert {table : FiniteMap κ α} {candidate : α}
    (dominates : ∀ current, table.lookup (key candidate) = some current →
      current = candidate ∨ rank current < rank candidate) :
    enter key rank table candidate = table.insert (key candidate) candidate := by
  unfold enter
  split
  next => rfl
  next current present =>
      rcases dominates current present with rfl | below
      · simp [prefer]
      · simp [prefer, below]

theorem covers_enter_self (table : FiniteMap κ α) (candidate : α) :
    Covers key rank (enter key rank table candidate) candidate := by
  cases present : table.lookup (key candidate) with
  | none => exact ⟨candidate, lookup_enter_of_none present, le_rfl⟩
  | some current =>
      exact ⟨_, lookup_enter_of_some present, le_rank_prefer_right _ _⟩

theorem lookup_enter_le (key : α → κ) (rank : α → σ) {table : FiniteMap κ α}
    {position : κ} {entry : α} (found : table.lookup position = some entry) (candidate : α) :
    ∃ later, (enter key rank table candidate).lookup position = some later ∧
      rank entry ≤ rank later := by
  by_cases same : position = key candidate
  · subst same
    exact ⟨_, lookup_enter_of_some found, le_rank_prefer_left entry candidate⟩
  · exact ⟨entry, by rw [lookup_enter_of_ne table same, found], le_rfl⟩

theorem Covers.enter {table : FiniteMap κ α} {covered : α}
    (covers : Covers key rank table covered) (candidate : α) :
    Covers key rank (enter key rank table candidate) covered := by
  obtain ⟨entry, found, ranked⟩ := covers
  obtain ⟨later, kept, above⟩ := lookup_enter_le key rank found candidate
  exact ⟨later, kept, ranked.trans above⟩

theorem Beats.enter {table : FiniteMap κ α} {beaten : α}
    (beats : Beats key rank table beaten) (candidate : α) :
    Beats key rank (enter key rank table candidate) beaten := by
  obtain ⟨entry, found, ranked⟩ := beats
  obtain ⟨later, kept, above⟩ := lookup_enter_le key rank found candidate
  exact ⟨later, kept, ranked.trans_le above⟩

theorem Covers.enter_eq {table : FiniteMap κ α} {candidate : α}
    (covers : Covers key rank table candidate) :
    Champion.enter key rank table candidate = table := by
  obtain ⟨entry, found, above⟩ := covers
  unfold Champion.enter
  rw [found]
  simp only [prefer, not_lt.mpr above, if_false]
  exact FiniteMap.insert_of_lookup found

theorem Covers.enterAll {table : FiniteMap κ α} {covered : α}
    (covers : Covers key rank table covered) (candidates : List α) :
    Covers key rank (enterAll key rank table candidates) covered := by
  induction candidates generalizing table with
  | nil => exact covers
  | cons candidate rest ih => exact ih (covers.enter candidate)

theorem covers_enterAll_of_mem (key : α → κ) (rank : α → σ)
    (table : FiniteMap κ α) {candidates : List α} {candidate : α}
    (member : candidate ∈ candidates) :
    Covers key rank (enterAll key rank table candidates) candidate := by
  induction candidates generalizing table with
  | nil => simp at member
  | cons head rest ih =>
      rcases List.mem_cons.mp member with rfl | later
      · exact (covers_enter_self table candidate).enterAll rest
      · exact ih (enter key rank table head) later

theorem Covers.of_le {table : FiniteMap κ α} {covered lower : α}
    (covers : Covers key rank table covered)
    (same : key lower = key covered) (below : rank lower ≤ rank covered) :
    Covers key rank table lower := by
  obtain ⟨entry, found, ranked⟩ := covers
  exact ⟨entry, by rw [same, found], below.trans ranked⟩

theorem lookup_enter_source {table : FiniteMap κ α} {candidate entry : α}
    {position : κ}
    (found : (enter key rank table candidate).lookup position = some entry) :
    table.lookup position = some entry ∨
      entry = candidate ∧ position = key candidate := by
  by_cases same : position = key candidate
  · subst same
    cases present : table.lookup (key candidate) with
    | none =>
        rw [lookup_enter_of_none present] at found
        exact .inr ⟨(Option.some.inj found).symm, rfl⟩
    | some current =>
        rw [lookup_enter_of_some present] at found
        rcases prefer_eq_or rank current candidate with kept | taken
        · exact .inl (by rw [← found, kept])
        · exact .inr ⟨by rw [← Option.some.inj found, taken], rfl⟩
  · rw [lookup_enter_of_ne table same] at found
    exact .inl found

theorem lookup_enterAll_source {table : FiniteMap κ α} {candidates : List α}
    {entry : α} {position : κ}
    (found : (enterAll key rank table candidates).lookup position = some entry) :
    table.lookup position = some entry ∨
      entry ∈ candidates ∧ key entry = position := by
  induction candidates generalizing table with
  | nil => exact .inl found
  | cons candidate rest ih =>
      rcases ih found with earlier | ⟨member, placed⟩
      · rcases lookup_enter_source earlier with before | ⟨rfl, rfl⟩
        · exact .inl before
        · exact .inr ⟨List.mem_cons_self, rfl⟩
      · exact .inr ⟨List.mem_cons_of_mem candidate member, placed⟩

theorem WellKeyed.enter {table : FiniteMap κ α}
    (keyed : WellKeyed key table) (candidate : α) :
    WellKeyed key (enter key rank table candidate) := by
  intro position entry found
  rcases lookup_enter_source found with before | ⟨rfl, rfl⟩
  · exact keyed before
  · rfl

theorem wellKeyed_empty : WellKeyed key (∅ : FiniteMap κ α) := by
  intro position entry found
  simp at found

theorem WellKeyed.enterAll {table : FiniteMap κ α} (keyed : WellKeyed key table)
    (candidates : List α) : WellKeyed key (enterAll key rank table candidates) := by
  induction candidates generalizing table with
  | nil => exact keyed
  | cons candidate rest ih => exact ih (keyed.enter candidate)

theorem Settled.isChampion {members : α → Prop} {table : FiniteMap κ α}
    (settled : Settled key rank members table) {position : κ} {entry : α}
    (found : table.lookup position = some entry) :
    IsChampion key rank members position entry := by
  refine ⟨settled.source found, settled.keyed found, ?_⟩
  intro other member placed
  obtain ⟨held, heldFound, ranked⟩ := settled.covers member
  rw [placed, found] at heldFound
  cases heldFound
  exact ranked

theorem settled_enterAll (key : α → κ) (rank : α → σ) (candidates : List α) :
    Settled key rank (· ∈ candidates) (enterAll key rank ∅ candidates) where
  keyed := wellKeyed_empty.enterAll candidates
  source found := by
    rcases lookup_enterAll_source found with initial | ⟨member, _⟩
    · simp at initial
    · exact member
  covers member := covers_enterAll_of_mem key rank ∅ member

theorem isChampion_enterAll {candidates : List α} {position : κ} {entry : α}
    (found : (enterAll key rank ∅ candidates).lookup position = some entry) :
    IsChampion key rank (· ∈ candidates) position entry :=
  (settled_enterAll key rank candidates).isChampion found

theorem isSome_lookup_enterAll (key : α → κ) (rank : α → σ)
    {candidates : List α} {candidate : α}
    (member : candidate ∈ candidates) :
    ∃ entry, (enterAll key rank ∅ candidates).lookup (key candidate) = some entry := by
  obtain ⟨entry, found, _⟩ :=
    covers_enterAll_of_mem key rank ∅ member
  exact ⟨entry, found⟩

omit [DecidableEq κ] in
theorem IsChampion.unique {members : α → Prop} {position : κ} {first second : α}
    (separated : Separated key rank members)
    (left : IsChampion key rank members position first)
    (right : IsChampion key rank members position second) : first = second := by
  refine separated first second left.member right.member
    (left.placed.trans right.placed.symm) (le_antisymm ?_ ?_)
  · exact right.greatest first left.member left.placed
  · exact left.greatest second right.member right.placed

theorem Settled.lookup_eq {members : α → Prop} {left right : FiniteMap κ α}
    (separated : Separated key rank members) (leftSettled : Settled key rank members left)
    (rightSettled : Settled key rank members right) {position : κ} {entry : α}
    (found : left.lookup position = some entry) : right.lookup position = some entry := by
  obtain ⟨held, heldFound, _⟩ := rightSettled.covers (leftSettled.source found)
  rw [leftSettled.keyed found] at heldFound
  rw [heldFound, (leftSettled.isChampion found).unique separated
    (rightSettled.isChampion heldFound)]

theorem Settled.unique {members : α → Prop} {left right : FiniteMap κ α}
    (separated : Separated key rank members) (leftSettled : Settled key rank members left)
    (rightSettled : Settled key rank members right) : left = right := by
  apply Finmap.ext_lookup
  intro position
  apply Option.ext
  intro entry
  exact ⟨leftSettled.lookup_eq separated rightSettled,
    rightSettled.lookup_eq separated leftSettled⟩

/-- The table depends only on which candidates were entered: neither their
order nor their multiplicity matters. -/
theorem enterAll_congr {first second : List α}
    (separated : Separated key rank (· ∈ first))
    (sameMembers : ∀ candidate, candidate ∈ first ↔ candidate ∈ second) :
    enterAll key rank ∅ first = enterAll key rank ∅ second := by
  have transport : (· ∈ second) = (· ∈ first) := by
    funext candidate
    exact propext (sameMembers candidate).symm
  have settled := settled_enterAll key rank second
  rw [transport] at settled
  exact (settled_enterAll key rank first).unique separated settled

/-- A table whose entries are at their own keys is built by entering them. -/
theorem enterAll_eq_of_entries {table : FiniteMap κ α} (keyed : WellKeyed key table)
    {entries : List α}
    (same : ∀ entry, entry ∈ entries ↔ table.lookup (key entry) = some entry) :
    enterAll key rank ∅ entries = table := by
  have separated : Separated key rank (· ∈ entries) := by
    intro first second left right sameKey _
    have found := (same first).mp left
    rw [sameKey, (same second).mp right, Option.some.injEq] at found
    exact found.symm
  refine (settled_enterAll key rank entries).unique separated ⟨keyed, ?_, ?_⟩
  · intro position entry found
    rw [same, keyed found]
    exact found
  · intro entry member
    exact ⟨entry, (same entry).mp member, le_rfl⟩

/-! The keys and ranks of a pool that a table may still take in. -/

def pending (rank : α → σ) (table : FiniteMap κ α) (pool : Finset (κ × σ)) :
    Finset (κ × σ) :=
  pool.filter fun pair =>
    (table.lookup pair.1).all fun entry => decide (rank entry < pair.2)

theorem mem_pending_iff {table : FiniteMap κ α} {pool : Finset (κ × σ)} {pair : κ × σ} :
    pair ∈ pending rank table pool ↔
      pair ∈ pool ∧ ∀ entry, table.lookup pair.1 = some entry → rank entry < pair.2 := by
  simp [pending, Option.all_eq_true]

theorem pending_enter_subset (key : α → κ) (rank : α → σ) (table : FiniteMap κ α)
    (pool : Finset (κ × σ)) (candidate : α) :
    pending rank (enter key rank table candidate) pool ⊆ pending rank table pool := by
  intro pair member
  obtain ⟨inPool, above⟩ := mem_pending_iff.mp member
  refine mem_pending_iff.mpr ⟨inPool, fun entry found => ?_⟩
  obtain ⟨later, kept, raised⟩ := lookup_enter_le key rank found candidate
  exact raised.trans_lt (above later kept)

/-- A candidate of the pool that outranks the entry at its key is used up. -/
theorem pending_enter_ssubset {table : FiniteMap κ α} {pool : Finset (κ × σ)} {candidate : α}
    (inPool : (key candidate, rank candidate) ∈ pool)
    (wins : ∀ entry, table.lookup (key candidate) = some entry → rank entry < rank candidate) :
    pending rank (enter key rank table candidate) pool ⊂ pending rank table pool := by
  refine Finset.ssubset_iff_of_subset (pending_enter_subset key rank table pool candidate) |>.mpr ?_
  refine ⟨(key candidate, rank candidate), mem_pending_iff.mpr ⟨inPool, wins⟩, ?_⟩
  intro still
  have covers : Covers key rank (enter key rank table candidate) candidate :=
    covers_enter_self table candidate
  obtain ⟨entry, found, ranked⟩ := covers
  exact absurd ((mem_pending_iff.mp still).2 entry found) ranked.not_gt

end Champion

end NellDB.Data
