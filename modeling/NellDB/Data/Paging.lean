import Mathlib.Data.Multiset.Count
import Mathlib.Data.Multiset.Replicate
import Mathlib.Tactic

namespace NellDB.Data

/-! A collection read page by page, where every request may list it in another
order. -/

/-- The pages from one on, up to the first empty one, put end to end. -/
inductive Paged (page : Nat → List α) : Nat → List α → Prop
  | done (empty : page index = []) : Paged page index []
  | more (nonempty : page index ≠ []) (rest : Paged page (index + 1) listed) :
      Paged page index (page index ++ listed)

/-- The page at an offset of that many pages. -/
def pageOf (size : Nat) (order : Nat → List α) (index : Nat) : List α :=
  ((order index).drop (index * size)).take size

theorem Paged.unique {page : Nat → List α} {index : Nat} {first second : List α}
    (left : Paged page index first) (right : Paged page index second) : first = second := by
  induction left generalizing second with
  | done empty =>
      cases right with
      | done => rfl
      | more nonempty => exact absurd empty nonempty
  | more nonempty _ ih =>
      cases right with
      | done empty => exact absurd empty nonempty
      | more _ rest => rw [ih rest]

section

variable {size : Nat} (positive : 0 < size)

include positive

theorem pageOf_eq_nil_iff (order : Nat → List α) (index : Nat) :
    pageOf size order index = [] ↔ (order index).length ≤ index * size := by
  rw [pageOf, List.take_eq_nil_iff, List.drop_eq_nil_iff]
  exact or_iff_right positive.ne'

theorem paged_of_same_within {order : Nat → List α} {whole : List α} {start : Nat}
    (same : ∀ index, start ≤ index → order index = whole) {count : Nat}
    (enough : whole.length ≤ (start + count) * size) :
    Paged (pageOf size order) start (whole.drop (start * size)) := by
  have own := same start le_rfl
  induction count generalizing start with
  | zero =>
      rw [Nat.add_zero] at enough
      rw [List.drop_eq_nil_of_le enough]
      exact .done ((pageOf_eq_nil_iff positive order start).mpr (own ▸ enough))
  | succ count ih =>
      by_cases beyond : whole.length ≤ start * size
      · rw [List.drop_eq_nil_of_le beyond]
        exact .done ((pageOf_eq_nil_iff positive order start).mpr (own ▸ beyond))
      · rw [← Nat.add_assoc, Nat.add_right_comm] at enough
        have onward := ih (fun index later => same index (Nat.le_of_succ_le later)) enough
          (same (start + 1) (Nat.le_succ start))
        have nonempty : pageOf size order start ≠ [] := by
          rw [Ne, pageOf_eq_nil_iff positive, own]
          exact beyond
        have split : whole.drop (start * size) =
            pageOf size order start ++ whole.drop ((start + 1) * size) := by
          rw [pageOf, own, Nat.succ_mul, ← List.drop_drop, List.take_append_drop]
        rw [split]
        exact .more nonempty onward

/-- While the order stays the same, the pages are what is left of it. -/
theorem paged_of_same {order : Nat → List α} {whole : List α} {start : Nat}
    (same : ∀ index, start ≤ index → order index = whole) :
    Paged (pageOf size order) start (whole.drop (start * size)) := by
  have enough : whole.length ≤ (start + whole.length) * size :=
    calc
      whole.length ≤ start + whole.length := Nat.le_add_left _ _
      _ ≤ (start + whole.length) * size := Nat.le_mul_of_pos_right _ positive
  exact paged_of_same_within positive same enough

/-- The first page of one order, and what a second order has behind its first
page. -/
theorem paged_of_changed {first later : List α} (sameLength : first.length = later.length) :
    Paged (pageOf size fun index => if index = 0 then first else later) 0
      (first.take size ++ later.drop size) := by
  have onward : Paged (pageOf size fun index => if index = 0 then first else later) 1
      (later.drop (1 * size)) :=
    paged_of_same positive fun index behind => if_neg (by omega)
  rw [Nat.one_mul] at onward
  have page : pageOf size (fun index => if index = 0 then first else later) 0 =
      first.take size := by
    rw [pageOf, Nat.zero_mul, List.drop_zero]
    rfl
  by_cases empty : first = []
  · have gone : later = [] := List.eq_nil_of_length_eq_zero (by rw [← sameLength, empty]; rfl)
    rw [empty, gone, List.take_nil] at page
    rw [empty, gone, List.take_nil, List.drop_nil]
    exact .done page
  · rw [← page]
    refine .more ?_ onward
    rw [page, Ne, List.take_eq_nil_iff]
    exact fun either => either.elim positive.ne' empty

theorem paged_of_few {order : Nat → List α} {rows : Multiset α}
    (lists : ∀ index, (order index : Multiset α) = rows) (few : rows.card ≤ size) :
    ∃ listed, Paged (pageOf size order) 0 listed ∧ (listed : Multiset α) = rows := by
  have length (index : Nat) : (order index).length = rows.card := by
    rw [← lists index, Multiset.coe_card]
  have page : pageOf size order 0 = order 0 := by
    rw [pageOf, Nat.zero_mul, List.drop_zero, List.take_of_length_le]
    rw [length]
    exact few
  have ended : Paged (pageOf size order) 1 [] := by
    refine .done ((pageOf_eq_nil_iff positive order 1).mpr ?_)
    rw [length, Nat.one_mul]
    exact few
  by_cases empty : pageOf size order 0 = []
  · refine ⟨[], .done empty, ?_⟩
    rw [← lists 0, ← page, empty]
  · refine ⟨_, .more empty ended, ?_⟩
    rw [page, List.append_nil]
    exact lists 0

theorem paged_of_alike {order : Nat → List α} {rows : Multiset α}
    (lists : ∀ index, (order index : Multiset α) = rows)
    (alike : ∀ first ∈ rows, ∀ second ∈ rows, first = second) :
    ∃ listed, Paged (pageOf size order) 0 listed ∧ (listed : Multiset α) = rows := by
  have same (index : Nat) : order index = order 0 := by
    have perm : (order index).Perm (order 0) :=
      Multiset.coe_eq_coe.mp ((lists index).trans (lists 0).symm)
    refine List.ext_getElem perm.length_eq fun position before after => ?_
    apply alike
    · rw [← lists index]
      exact List.getElem_mem before
    · rw [← lists 0]
      exact List.getElem_mem after
  have paged : Paged (pageOf size order) 0 ((order 0).drop (0 * size)) :=
    paged_of_same positive fun index _ => same index
  rw [Nat.zero_mul, List.drop_zero] at paged
  exact ⟨_, paged, lists 0⟩

end

/-- Two entries that trade places behind the first page: one of them is listed twice
and the other not at all. -/
theorem not_paged_complete {first second : α} (apart : first ≠ second) {rest : List α}
    {size : Nat} (room : size ≤ rest.length) :
    ∃ order : Nat → List α,
      (∀ index, (order index : Multiset α) = first ::ₘ second ::ₘ rest) ∧
      ∀ listed, Paged (pageOf (size + 1) order) 0 listed →
        (listed : Multiset α) ≠ first ::ₘ second ::ₘ rest := by
  classical
  let before := first :: (rest.take size ++ second :: rest.drop size)
  let after := second :: (rest.take size ++ first :: rest.drop size)
  have whole : rest.take size ++ rest.drop size = rest := List.take_append_drop size rest
  have lists (inFront behind : α) :
      ((inFront :: (rest.take size ++ behind :: rest.drop size) : List α) : Multiset α) =
        inFront ::ₘ behind ::ₘ rest := by
    rw [Multiset.cons_coe, Multiset.cons_coe, Multiset.coe_eq_coe, List.perm_cons]
    refine List.perm_middle.trans ?_
    rw [whole]
  refine ⟨fun index => if index = 0 then before else after, ?_, ?_⟩
  · intro index
    dsimp only
    split
    next => exact lists first second
    next => exact (lists second first).trans (Multiset.cons_swap second first rest)
  · intro listed paged same
    have expected : Paged (pageOf (size + 1) fun index => if index = 0 then before else after) 0
        (before.take (size + 1) ++ after.drop (size + 1)) :=
      paged_of_changed (Nat.succ_pos size) (by simp [before, after])
    have taken : (rest.take size).length = size := List.length_take_of_le room
    have page : before.take (size + 1) = first :: rest.take size := by
      rw [List.take_succ_cons, List.take_left' taken]
    have onward : after.drop (size + 1) = first :: rest.drop size := by
      rw [List.drop_succ_cons, List.drop_left' taken]
    rw [paged.unique expected, page, onward] at same
    have counted := congrArg (Multiset.count second) same
    rw [Multiset.coe_count, List.cons_append, List.count_cons_of_ne apart, List.count_append,
      List.count_cons_of_ne apart, ← List.count_append, whole,
      Multiset.count_cons_of_ne apart.symm, Multiset.count_cons_self, Multiset.coe_count] at counted
    omega

/-- The pages make up the collection, in whatever order each request lists it,
exactly when it fits one page or its entries are all the same. -/
theorem paged_complete_iff {size : Nat} (positive : 0 < size) (rows : Multiset α) :
    (∀ order : Nat → List α, (∀ index, (order index : Multiset α) = rows) →
      ∃ listed, Paged (pageOf size order) 0 listed ∧ (listed : Multiset α) = rows) ↔
      rows.card ≤ size ∨ ∀ first ∈ rows, ∀ second ∈ rows, first = second := by
  constructor
  · intro complete
    by_contra neither
    obtain ⟨many, different⟩ := not_or.mp neither
    push Not at different
    obtain ⟨first, inRows, second, inRowsToo, apart⟩ := different
    obtain ⟨others, rfl⟩ := Multiset.exists_cons_of_mem inRows
    have inOthers := (Multiset.mem_cons.mp inRowsToo).resolve_left apart.symm
    obtain ⟨others, rfl⟩ := Multiset.exists_cons_of_mem inOthers
    obtain ⟨rest, rfl⟩ := Quot.exists_rep others
    obtain ⟨size, rfl⟩ : ∃ less, size = less + 1 := ⟨size - 1, by omega⟩
    have room : size ≤ rest.length := by
      change ¬ Multiset.card (first ::ₘ second ::ₘ (rest : Multiset α)) ≤ size + 1 at many
      rw [Multiset.card_cons, Multiset.card_cons, Multiset.coe_card] at many
      omega
    obtain ⟨order, lists, never⟩ := not_paged_complete apart room
    obtain ⟨listed, paged, same⟩ := complete order lists
    exact never listed paged same
  · rintro (few | alike) order lists
    · exact paged_of_few positive lists few
    · exact paged_of_alike positive lists alike

theorem exists_perm_map {f : α → β} {entries : List α} {images : List β}
    (perm : images.Perm (entries.map f)) :
    ∃ ordered : List α, ordered.Perm entries ∧ ordered.map f = images := by
  induction images generalizing entries with
  | nil =>
      have none := List.map_eq_nil_iff.mp perm.symm.eq_nil
      exact ⟨[], none ▸ .refl [], rfl⟩
  | cons image rest ih =>
      classical
      obtain ⟨entry, member, rfl⟩ := List.mem_map.mp (perm.subset List.mem_cons_self)
      have taken := List.perm_cons_erase member
      obtain ⟨ordered, others, images⟩ := ih (perm.trans (taken.map f)).cons_inv
      exact ⟨entry :: ordered, (others.cons entry).trans taken.symm, by rw [List.map_cons, images]⟩

end NellDB.Data
