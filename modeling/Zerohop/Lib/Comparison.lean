/-
# Comparisons that compare keys

A comparison written by hand is one that sorted containers can rely on if it
compares a key in a linear order. Then it is oriented and transitive, sorting
with it and dropping the elements equal to the one before them leaves a list
strictly sorted by the key with the same keys, and binary search is right on
that list.

Key definitions: `ComparesBy`, `sortDedup`, `binarySearchBy`.
Key theorems: `ComparesBy.transCmp`, `ComparesBy.binarySearchBy_error`,
`sortDedup_sorted`, `exists_mem_sortDedup`.
-/
import Mathlib.Data.List.Destutter
import Zerohop.Lib.BinarySearch

namespace Zerohop
namespace Comparison

open BinarySearch

variable {α κ : Type*} {key : α → κ} {cmp : α → α → Ordering} {eq : α → α → Bool}

/-! ### Dropping repetitions -/

/-- The list sorted, without the elements equal to the one kept before them. -/
def sortDedup (cmp : α → α → Ordering) (eq : α → α → Bool) (l : List α) : List α :=
  (l.mergeSort fun a b => cmp a b != .gt).destutter fun a b => eq a b = false

theorem exists_mem_destutter' (heq : ∀ a b, eq a b = true ↔ key a = key b) :
    ∀ (l : List α) (a x : α), x ∈ a :: l →
      ∃ y ∈ l.destutter' (fun a b => eq a b = false) a, key y = key x
  | [], a, x, hx => by
    obtain rfl := List.mem_singleton.mp hx
    exact ⟨x, List.mem_destutter' _ _ x, rfl⟩
  | b :: l, a, x, hx => by
    have ih := exists_mem_destutter' heq l
    by_cases hab : eq a b = false
    · rw [List.destutter'_cons, if_pos hab]
      rcases List.mem_cons.mp hx with rfl | hx
      · exact ⟨x, List.mem_cons_self .., rfl⟩
      · obtain ⟨y, hy, hk⟩ := ih b x hx
        exact ⟨y, List.mem_cons_of_mem _ hy, hk⟩
    · -- `b` is dropped, and `a` has its key
      rw [List.destutter'_cons, if_neg hab]
      rw [Bool.not_eq_false, heq] at hab
      rcases List.mem_cons.mp hx with rfl | hx
      · exact ih x x (List.mem_cons_self ..)
      · rcases List.mem_cons.mp hx with rfl | hx
        · obtain ⟨y, hy, hk⟩ := ih a a (List.mem_cons_self ..)
          exact ⟨y, hy, hk.trans hab⟩
        · exact ih a x (List.mem_cons_of_mem _ hx)

theorem mem_of_mem_sortDedup {l : List α} {x : α} (hx : x ∈ sortDedup cmp eq l) : x ∈ l :=
  List.mem_mergeSort.mp ((List.destutter_sublist _ _).subset hx)

/-- No key is lost. -/
theorem exists_mem_sortDedup (heq : ∀ a b, eq a b = true ↔ key a = key b) {l : List α} {x : α}
    (hx : x ∈ l) : ∃ y ∈ sortDedup cmp eq l, key y = key x := by
  unfold sortDedup
  have hmem : x ∈ l.mergeSort fun a b => cmp a b != .gt := List.mem_mergeSort.mpr hx
  generalize l.mergeSort (fun a b => cmp a b != .gt) = sorted at hmem ⊢
  cases sorted with
  | nil => cases hmem
  | cons a sorted => exact exists_mem_destutter' heq sorted a x hmem

/-! ### Comparing keys -/

variable [LinearOrder κ]

/-- `cmp` compares the keys. -/
def ComparesBy (key : α → κ) (cmp : α → α → Ordering) : Prop :=
  ∀ a b, cmp a b = compare (key a) (key b)

/-- The loop of `BinarySearch.searchBase`, asking where each element stands. -/
def searchBaseBy (place : α → Ordering) (l : List α) : ℕ → ℕ → ℕ → ℕ
  | 0, base, _ => base
  | fuel + 1, base, size =>
    if 1 < size then
      match l[base + size / 2]? with
      | some y =>
        searchBaseBy place l fuel (if place y = .gt then base else base + size / 2) (size - size / 2)
      | none => base
    else base

/-- The answer where the loop ends at `base`. -/
def answerAt (place : α → Ordering) (l : List α) (base : ℕ) : Except ℕ ℕ :=
  match l[base]? with
  | none => .error 0
  | some y =>
    match place y with
    | .eq => .ok base
    | .lt => .error (base + 1)
    | .gt => .error base

/-- `BinarySearch.binarySearch`, asking where each element stands. -/
def binarySearchBy (place : α → Ordering) (l : List α) : Except ℕ ℕ :=
  answerAt place l (searchBaseBy place l l.length 0 l.length)

theorem searchBaseBy_compare (l : List α) (k : κ) : ∀ (fuel base size : ℕ),
    searchBaseBy (fun y => compare (key y) k) l fuel base size = searchBase key l k fuel base size
  | 0, _, _ => rfl
  | fuel + 1, base, size => by
    rw [searchBaseBy, searchBase]
    by_cases h1 : 1 < size
    · rw [if_pos h1, if_pos h1]
      cases l[base + size / 2]? with
      | none => rfl
      | some y => exact searchBaseBy_compare l k fuel _ _
    · rw [if_neg h1, if_neg h1]

namespace ComparesBy

theorem lt_iff (h : ComparesBy key cmp) {a b : α} : cmp a b = .lt ↔ key a < key b := by
  rw [h, compare_lt_iff_lt]

theorem eq_iff (h : ComparesBy key cmp) {a b : α} : cmp a b = .eq ↔ key a = key b := by
  rw [h, compare_eq_iff_eq]

theorem ne_gt_iff (h : ComparesBy key cmp) {a b : α} : cmp a b ≠ .gt ↔ key a ≤ key b := by
  rw [h, Ne, compare_gt_iff_gt, not_lt]

theorem swap (h : ComparesBy key cmp) (a b : α) : cmp b a = (cmp a b).swap := by
  rw [h, h]
  exact Std.OrientedCmp.eq_swap

/-- **Transitive**, whichever way the two comparisons go. -/
theorem trans (h : ComparesBy key cmp) {a b c : α} {o : Ordering} (hab : cmp a b = o)
    (hbc : cmp b c = o) : cmp a c = o := by
  rw [h] at hab hbc ⊢
  cases o with
  | lt => exact compare_lt_iff_lt.mpr ((compare_lt_iff_lt.mp hab).trans (compare_lt_iff_lt.mp hbc))
  | eq => exact compare_eq_iff_eq.mpr ((compare_eq_iff_eq.mp hab).trans (compare_eq_iff_eq.mp hbc))
  | gt => exact compare_gt_iff_gt.mpr ((compare_gt_iff_gt.mp hbc).trans (compare_gt_iff_gt.mp hab))

theorem trans_ne_gt (h : ComparesBy key cmp) {a b c : α} (hab : cmp a b ≠ .gt)
    (hbc : cmp b c ≠ .gt) : cmp a c ≠ .gt :=
  h.ne_gt_iff.mpr ((h.ne_gt_iff.mp hab).trans (h.ne_gt_iff.mp hbc))

/-- What an ordered map asks of the comparison of its keys. -/
theorem transCmp (h : ComparesBy key cmp) : Std.TransCmp cmp where
  eq_swap := h.swap _ _
  isLE_trans hab hbc := by
    rw [Ordering.isLE_iff_ne_gt] at hab hbc ⊢
    exact h.trans_ne_gt hab hbc

theorem binarySearchBy_eq (h : ComparesBy key cmp) (l : List α) (x : α) :
    binarySearchBy (cmp · x) l = binarySearch key l (key x) := by
  have hcmp : (cmp · x) = fun y => compare (key y) (key x) := funext fun y => h y x
  calc binarySearchBy (cmp · x) l
      = answerAt (fun y => compare (key y) (key x)) l
          (searchBase key l (key x) l.length 0 l.length) := by
        rw [hcmp, binarySearchBy, searchBaseBy_compare]
    _ = binarySearch key l (key x) := rfl

theorem binarySearchBy_ok (h : ComparesBy key cmp) {l : List α} {x : α} {i : ℕ}
    (hi : binarySearchBy (cmp · x) l = .ok i) : ∃ y, l[i]? = some y ∧ cmp y x = .eq := by
  rw [h.binarySearchBy_eq] at hi
  obtain ⟨y, hy, hk⟩ := binarySearch_ok hi
  exact ⟨y, hy, h.eq_iff.mpr hk⟩

/-- **What it does not find is not there**, and it belongs where the search points. -/
theorem binarySearchBy_error (h : ComparesBy key cmp) {l : List α} {x : α} {i : ℕ}
    (hs : Sorted key l) (hi : binarySearchBy (cmp · x) l = .error i) :
    i ≤ l.length ∧ (∀ y ∈ l.take i, cmp y x = .lt) ∧ ∀ y ∈ l.drop i, cmp x y = .lt := by
  rw [h.binarySearchBy_eq] at hi
  obtain ⟨hle, hlo, hhi⟩ := binarySearch_error hs hi
  exact ⟨hle, fun y hy => h.lt_iff.mpr (hlo y hy), fun y hy => h.lt_iff.mpr (hhi y hy)⟩

end ComparesBy

/-! ### Sorted lists -/

/-- **The kept elements are strictly sorted.** -/
theorem sortDedup_sorted (h : ComparesBy key cmp) (heq : ∀ a b, eq a b = true ↔ key a = key b)
    (l : List α) : Sorted key (sortDedup cmp eq l) := by
  have hsort : (l.mergeSort fun a b => cmp a b != .gt).Pairwise
      fun a b => (cmp a b != .gt) = true := by
    apply List.pairwise_mergeSort
    · intro a b c hab hbc
      rw [bne_iff_ne] at hab hbc ⊢
      exact h.trans_ne_gt hab hbc
    · intro a b
      rw [Bool.or_eq_true, bne_iff_ne, bne_iff_ne, h.ne_gt_iff, h.ne_gt_iff]
      exact le_total (key a) (key b)
  have hle : (sortDedup cmp eq l).Pairwise fun a b => key a ≤ key b := by
    refine (hsort.sublist (List.destutter_sublist _ _)).imp ?_
    intro a b hab
    exact h.ne_gt_iff.mp (bne_iff_ne.mp hab)
  have hne : (sortDedup cmp eq l).IsChain fun a b => key a ≠ key b := by
    refine (List.isChain_destutter _ _).imp ?_
    intro a b hab hk
    rw [(heq a b).mpr hk] at hab
    cases hab
  have hlt : (sortDedup cmp eq l).IsChain fun a b => key a < key b := by
    rw [List.isChain_iff_getElem] at hne ⊢
    intro i hi
    apply lt_of_le_of_ne _ (hne i hi)
    exact List.pairwise_iff_getElem.mp hle i (i + 1) (by omega) hi (Nat.lt_succ_self i)
  have : IsTrans α fun a b => key a < key b := ⟨fun _ _ _ => lt_trans⟩
  exact List.isChain_iff_pairwise.mp hlt

end Comparison
end Zerohop
