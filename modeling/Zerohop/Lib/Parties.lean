/-
# Counting over parties

A machine of `n` parties keeps where each of them stands. When one party moves,
a sum over all of them changes by what that party counts for, and so does the
number of parties in a place.

Of unboundedly many parties a finite set may be somewhere (`Exactly`).

Key definitions: `Exactly`, `countIn`.
Key theorems: `update_eq_iff`, `Exactly.exists_update`, `sum_update_mem`,
`sum_update`, `countIn_update`.
-/
import Mathlib.Algebra.BigOperators.Fin
import Mathlib.Algebra.Order.BigOperators.Group.Finset
import Mathlib.Data.Fintype.BigOperators

namespace Zerohop
namespace Parties

variable {β : Type*} {n : ℕ}

/-- Where a party stands after one has moved: it is that one, or it stood there before. -/
theorem update_eq_iff {ι : Type*} [DecidableEq ι] {g : ι → β} {i j : ι} {x y : β} :
    Function.update g i x j = y ↔ j = i ∧ x = y ∨ j ≠ i ∧ g j = y := by
  rw [Function.update_apply, ite_eq_iff]

/-- The parties in `S`, and no others, stand where `p` holds. -/
def Exactly {ι : Type*} (g : ι → β) (p : β → Prop) (S : Finset ι) : Prop := ∀ i, i ∈ S ↔ p (g i)

namespace Exactly

variable {ι : Type*} [DecidableEq ι] {g : ι → β} {p : β → Prop} {S : Finset ι} {i : ι} {x : β}

theorem insert (h : Exactly g p S) (hx : p x) : Exactly (Function.update g i x) p (insert i S) := by
  intro j
  rw [Finset.mem_insert, h j]
  by_cases hj : j = i
  · subst hj
    simp [hx]
  · simp [hj]

theorem erase (h : Exactly g p S) (hx : ¬ p x) : Exactly (Function.update g i x) p (S.erase i) := by
  intro j
  rw [Finset.mem_erase, h j]
  by_cases hj : j = i
  · subst hj
    simp [hx]
  · simp [hj]

theorem keep (h : Exactly g p S) (hx : p (g i) ↔ p x) : Exactly (Function.update g i x) p S := by
  intro j
  rw [h j]
  by_cases hj : j = i
  · subst hj
    rw [Function.update_self, hx]
  · rw [Function.update_of_ne hj]

theorem exists_update (h : Exactly g p S) (i : ι) (x : β) : ∃ S', Exactly (Function.update g i x) p S' := by
  by_cases hx : p x
  · exact ⟨_, h.insert hx⟩
  · exact ⟨_, h.erase hx⟩

end Exactly

theorem sum_update_mem {ι : Type*} [DecidableEq ι] {S : Finset ι} (f : β → ℕ) (g : ι → β) {i : ι}
    (hi : i ∈ S) (x : β) : ∑ j ∈ S, f (Function.update g i x j) + f (g i) = ∑ j ∈ S, f (g j) + f x := by
  have hrest : ∑ j ∈ S.erase i, f (Function.update g i x j) = ∑ j ∈ S.erase i, f (g j) := by
    apply Finset.sum_congr rfl
    intro j hj
    rw [Function.update_of_ne (Finset.ne_of_mem_erase hj)]
  have hnew := Finset.add_sum_erase S (fun j => f (Function.update g i x j)) hi
  have hold := Finset.add_sum_erase S (fun j => f (g j)) hi
  simp only [Function.update_self] at hnew
  omega

theorem sum_update (f : β → ℕ) (g : Fin n → β) (i : Fin n) (x : β) :
    ∑ j, f (Function.update g i x j) + f (g i) = ∑ j, f (g j) + f x :=
  sum_update_mem f g (Finset.mem_univ i) x

variable [DecidableEq β]

/-- How many parties stand at `p`. -/
def countIn (g : Fin n → β) (p : β) : ℕ := (Finset.univ.filter fun i => g i = p).card

theorem countIn_eq_sum (g : Fin n → β) (p : β) : countIn g p = ∑ i, if g i = p then 1 else 0 :=
  Finset.card_filter _ _

theorem countIn_update (g : Fin n → β) (i : Fin n) (x p : β) :
    countIn (Function.update g i x) p + (if g i = p then 1 else 0) =
      countIn g p + if x = p then 1 else 0 := by
  rw [countIn_eq_sum, countIn_eq_sum]
  exact sum_update (fun y => if y = p then 1 else 0) g i x

theorem countIn_lt {g : Fin n → β} {i : Fin n} {p : β} (h : g i ≠ p) : countIn g p < n := by
  have hlt : countIn g p < (Finset.univ : Finset (Fin n)).card := by
    apply Finset.card_lt_card
    rw [Finset.ssubset_univ_iff]
    intro hall
    have hi := Finset.mem_univ i
    rw [← hall, Finset.mem_filter] at hi
    exact h hi.2
  rwa [Finset.card_univ, Fintype.card_fin] at hlt

end Parties
end Zerohop
