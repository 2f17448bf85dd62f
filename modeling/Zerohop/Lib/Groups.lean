/-
# Groups stored as counts

A flat list with one count for each group: position `j` belongs to the group
whose counts before it sum to at most `j` while those up to it sum to more.
The groups of all positions are the counts written out one after the other, in
order. Where the counts are those of some list, that is the list sorted; so
the counts give the list back where it was sorted already and nowhere else.

Key definitions: `Recovers`, `spread`, `tally`.
Key theorems: `recovers_iff`, `spread_tally_perm`, `spread_tally_eq_iff`.
-/
import Mathlib.Algebra.BigOperators.Group.List.Basic
import Mathlib.Algebra.Ring.Nat
import Mathlib.Data.List.Count
import Mathlib.Data.List.GetD
import Mathlib.Data.List.Sort

namespace Zerohop
namespace Groups

/-- Position `j` lies in group `o`. -/
def Recovers (counts : List ℕ) (j o : ℕ) : Prop :=
  (counts.take o).sum ≤ j ∧ j < (counts.take (o + 1)).sum

instance (counts : List ℕ) (j o : ℕ) : Decidable (Recovers counts j o) :=
  inferInstanceAs (Decidable (_ ∧ _))

/-- The groups from `s` on, each as often as it counts. -/
def spreadFrom : ℕ → List ℕ → List ℕ
  | _, [] => []
  | s, c :: counts => List.replicate c s ++ spreadFrom (s + 1) counts

def spread (counts : List ℕ) : List ℕ := spreadFrom 0 counts

/-- How often each of the first `n` groups occurs in `l`. -/
def tally (n : ℕ) (l : List ℕ) : List ℕ := (List.range n).map fun o => l.count o

/-! ### The counts written out -/

theorem spreadFrom_length : ∀ (counts : List ℕ) (s : ℕ), (spreadFrom s counts).length = counts.sum
  | [], _ => rfl
  | c :: counts, s => by
    unfold spreadFrom
    rw [List.length_append, List.length_replicate, spreadFrom_length counts, List.sum_cons]

theorem spread_length (counts : List ℕ) : (spread counts).length = counts.sum :=
  spreadFrom_length counts 0

theorem le_of_mem_spreadFrom : ∀ (counts : List ℕ) (s : ℕ), ∀ o ∈ spreadFrom s counts, s ≤ o
  | [], _, _, h => by cases h
  | c :: counts, s, o, h => by
    unfold spreadFrom at h
    rcases List.mem_append.mp h with h | h
    · exact (List.eq_of_mem_replicate h).ge
    · have := le_of_mem_spreadFrom counts (s + 1) o h
      omega

theorem spreadFrom_sorted : ∀ (counts : List ℕ) (s : ℕ), (spreadFrom s counts).Pairwise (· ≤ ·)
  | [], _ => List.Pairwise.nil
  | c :: counts, s => by
    unfold spreadFrom
    rw [List.pairwise_append]
    refine ⟨List.pairwise_replicate.mpr (Or.inr (Nat.le_refl s)), spreadFrom_sorted counts (s + 1), ?_⟩
    intro a ha b hb
    have := le_of_mem_spreadFrom counts (s + 1) b hb
    have := List.eq_of_mem_replicate ha
    omega

theorem spread_sorted (counts : List ℕ) : (spread counts).Pairwise (· ≤ ·) :=
  spreadFrom_sorted counts 0

theorem recovers_iff_from : ∀ (counts : List ℕ) (s j o : ℕ),
    Recovers counts j o ↔ (spreadFrom s counts)[j]? = some (s + o)
  | [], s, j, o => by simp [Recovers, spreadFrom]
  | c :: counts, s, j, o => by
    unfold Recovers spreadFrom
    by_cases hj : j < c
    · -- the position lies in the first group
      rw [List.getElem?_append_left (by rwa [List.length_replicate]), List.getElem?_replicate_of_lt hj]
      cases o with
      | zero => simp [hj]
      | succ o =>
        rw [List.take_succ_cons, List.sum_cons, Option.some.injEq]
        omega
    · rw [List.getElem?_append_right (by rw [List.length_replicate]; omega), List.length_replicate]
      cases o with
      | zero =>
        constructor
        · intro h
          simp at h
          omega
        · intro h
          have := le_of_mem_spreadFrom counts (s + 1) _ (List.mem_of_getElem? h)
          omega
      | succ o =>
        have ih := recovers_iff_from counts (s + 1) (j - c) o
        rw [show s + (o + 1) = s + 1 + o by omega, ← ih]
        unfold Recovers
        rw [List.take_succ_cons, List.take_succ_cons, List.sum_cons, List.sum_cons]
        omega

/-- **A position lies in one group, the one written there.** -/
theorem recovers_iff {counts : List ℕ} {j o : ℕ} :
    Recovers counts j o ↔ (spread counts)[j]? = some o := by
  unfold spread
  rw [recovers_iff_from counts 0 j o, Nat.zero_add]

/-! ### The counts of a list -/

theorem count_spreadFrom : ∀ (counts : List ℕ) (s o : ℕ),
    (spreadFrom s counts).count (s + o) = counts.getD o 0
  | [], s, o => by simp [spreadFrom]
  | c :: counts, s, o => by
    unfold spreadFrom
    rw [List.count_append]
    cases o with
    | zero =>
      have hnot : s ∉ spreadFrom (s + 1) counts := by
        intro h
        have := le_of_mem_spreadFrom counts (s + 1) s h
        omega
      rw [Nat.add_zero, List.count_replicate_self, List.count_eq_zero_of_not_mem hnot, Nat.add_zero]
      rfl
    | succ o =>
      rw [List.count_replicate, if_neg (by simp), Nat.zero_add, show s + (o + 1) = s + 1 + o by omega,
        count_spreadFrom counts (s + 1) o]
      rfl

theorem tally_getD {n : ℕ} {l : List ℕ} (h : ∀ o ∈ l, o < n) (o : ℕ) :
    (tally n l).getD o 0 = l.count o := by
  unfold tally
  rw [List.getD_eq_getElem?_getD, List.getElem?_map]
  by_cases ho : o < n
  · rw [List.getElem?_range ho]
    rfl
  · have hnot : o ∉ l := fun hmem => ho (h o hmem)
    rw [List.getElem?_eq_none (by rw [List.length_range]; omega), List.count_eq_zero_of_not_mem hnot]
    rfl

/-- The counts of a list, written out, are the list in some order. -/
theorem spread_tally_perm {n : ℕ} {l : List ℕ} (h : ∀ o ∈ l, o < n) : (spread (tally n l)).Perm l := by
  rw [List.perm_iff_count]
  intro o
  have hcount := count_spreadFrom (tally n l) 0 o
  rw [Nat.zero_add, tally_getD h] at hcount
  exact hcount

theorem tally_sum {n : ℕ} {l : List ℕ} (h : ∀ o ∈ l, o < n) : (tally n l).sum = l.length := by
  rw [← spread_length, (spread_tally_perm h).length_eq]

/-- **The counts give the list back just where it is sorted.** -/
theorem spread_tally_eq_iff {n : ℕ} {l : List ℕ} (h : ∀ o ∈ l, o < n) :
    spread (tally n l) = l ↔ l.Pairwise (· ≤ ·) := by
  constructor
  · intro heq
    rw [← heq]
    exact spread_sorted _
  · intro hsorted
    apply List.Perm.eq_of_pairwise _ (spread_sorted _) hsorted (spread_tally_perm h)
    exact fun a b _ _ => Nat.le_antisymm

end Groups
end Zerohop
