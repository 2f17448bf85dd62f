/-
# Which outer instruction an inner one belongs to

The inner instructions of a transaction are one flat list in the order of the
calls; of the outer instruction each was appended under only a count is left,
in `l1_inner`. The counts sum to the length of the list and give each inner
instruction an owner. These owners are the ones passed to `append_inner` in
sorted order, so they are the right ones just where the calls were made in that
order.

Key definitions: `owners`, `innerCounts`.
Key theorem: `inner_owners_recovered`.
-/
import Zerohop.Lib.Groups
import Zerohop.Store.Builder

namespace Zerohop
namespace Store

open Groups

/-- The outer instruction of an `append_inner`. -/
def Append.owner (a : Append) : Option ℕ :=
  match a.target with
  | .outer => none
  | .inner o => some o

/-- The outer instructions passed to `append_inner`, in the order of the calls. -/
def owners (as : List Append) : List ℕ := as.filterMap Append.owner

/-- The entries of `l1_inner` as numbers. -/
def innerCounts (tx : CatscopeTransaction) : List ℕ := tx.l1Inner.map UInt8.toNat

/-! ### The owners of a run -/

theorem owners_append (as : List Append) (a : Append) :
    owners (as ++ [a]) = owners as ++ a.owner.toList := by
  unfold owners
  rw [List.filterMap_append]
  cases h : a.owner <;> simp [h]

theorem owners_count (as : List Append) (o : ℕ) : (owners as).count o = innerCount as o := by
  induction as using List.reverseRecOn with
  | nil => rfl
  | append_singleton as a ih =>
    rw [owners_append, List.count_append, ih, innerCount_append]
    unfold Append.owner
    cases a.target with
    | outer => rfl
    | inner o' =>
      by_cases ho : o' = o
      · simp [ho]
      · simp [ho]

theorem owners_length (as : List Append) :
    (owners as).length = (as.filter fun a => !a.isOuter).length := by
  induction as using List.reverseRecOn with
  | nil => rfl
  | append_singleton as a ih =>
    rw [owners_append, List.length_append, ih, List.filter_append, List.length_append]
    unfold Append.owner
    cases h : a.target <;> simp [Append.isOuter, h]

theorem owners_lt {as : List Append} (hex : Existing as) : ∀ o ∈ owners as, o < outerCount as := by
  induction as using List.reverseRecOn with
  | nil => exact fun o ho => by cases ho
  | append_singleton as a ih =>
    obtain ⟨hex, hlt⟩ := existing_append.mp hex
    intro o ho
    rw [owners_append, List.mem_append] at ho
    have hle : outerCount as ≤ outerCount (as ++ [a]) := by
      rw [outerCount_append]
      exact Nat.le_add_right _ _
    rcases ho with ho | ho
    · exact (ih hex o ho).trans_le hle
    · have howner : a.target = .inner o := by
        unfold Append.owner at ho
        cases ht : a.target with
        | outer => simp [ht] at ho
        | inner o' => simpa [ht, eq_comm] using ho
      exact (hlt o howner).trans_le hle

/-- Where no counter overflows, `l1_inner` holds how often each outer instruction was an owner. -/
theorem innerCounts_eq {as : List Append} {tx : CatscopeTransaction} (h : Records as tx)
    (hfit : ∀ o, innerCount as o ≤ 255) : innerCounts tx = tally (outerCount as) (owners as) := by
  unfold innerCounts tally
  rw [h.l1Inner, List.map_map]
  apply List.map_congr_left
  intro o _
  have hlt : innerCount as o < UInt8.size := Nat.lt_succ_of_le (hfit o)
  rw [owners_count, Function.comp_apply, UInt8.toNat_ofNat_of_lt' hlt]

/-- **The counts recover the owners in sorted order**, so the owners passed just where the calls
were made in that order. -/
theorem inner_owners_recovered (debug : Bool) {as : List Append} (hex : Existing as)
    (hfit : ∀ o, innerCount as o ≤ 255) :
    ∃ tx, build debug as = some tx ∧ tx.outer.length = outerCount as ∧
      tx.l1Inner.length = tx.outer.length ∧
      (∀ o : ℕ, o < tx.outer.length → (innerCounts tx)[o]? = some (innerCount as o)) ∧
      (innerCounts tx).sum = tx.inner.length ∧
      (∀ j : ℕ, j < tx.inner.length → ∃! o, Recovers (innerCounts tx) j o) ∧
      ∃ recovered : List ℕ, recovered.length = tx.inner.length ∧
        (∀ j o : ℕ, Recovers (innerCounts tx) j o ↔ recovered[j]? = some o) ∧
        recovered.Pairwise (· ≤ ·) ∧ recovered.Perm (owners as) ∧
        ((∀ j : ℕ, recovered[j]? = (owners as)[j]?) ↔ (owners as).Pairwise (· ≤ ·)) := by
  obtain ⟨tx, hb, hB⟩ : ∃ tx, build debug as = some tx ∧ Built as tx := by
    rcases build_spec debug hex with ⟨hno, -⟩ | ⟨-, hb⟩
    · exact absurd (fun _ => hfit) hno
    · exact hb
  have hcounts := innerCounts_eq hB.toRecords hfit
  have hlt := owners_lt hex
  have houter : tx.outer.length = outerCount as := by
    rw [hB.outer, List.length_map, ← List.countP_eq_length_filter]
    rfl
  have hinner : tx.inner.length = (owners as).length := by
    rw [hB.inner, List.length_map, owners_length]
  have hsum : (innerCounts tx).sum = tx.inner.length := by
    rw [hcounts, tally_sum hlt, hinner]
  have hlength : (spread (innerCounts tx)).length = tx.inner.length := by
    rw [spread_length, hsum]
  refine ⟨tx, hb, houter, ?_, ?_, hsum, ?_, spread (innerCounts tx), hlength, fun j o => recovers_iff,
    spread_sorted _, ?_, ?_⟩
  · rw [hB.l1Inner, List.length_map, List.length_range, houter]
  · intro o ho
    rw [hcounts, tally, List.getElem?_map, List.getElem?_range (houter ▸ ho), Option.map_some,
      owners_count]
  · intro j hj
    obtain ⟨o, ho⟩ : ∃ o, (spread (innerCounts tx))[j]? = some o :=
      ⟨_, List.getElem?_eq_getElem (hlength ▸ hj)⟩
    refine ⟨o, recovers_iff.mpr ho, ?_⟩
    intro o' ho'
    exact Option.some.inj ((recovers_iff.mp ho').symm.trans ho)
  · rw [hcounts]
    exact spread_tally_perm hlt
  · rw [← List.ext_getElem?_iff, hcounts]
    exact spread_tally_eq_iff hlt

/-- Two outer instructions, then one inner instruction under the second and one under the first. -/
def crossedCalls : List Append :=
  [⟨.outer, 1, [10], [1]⟩, ⟨.outer, 2, [20], [2]⟩, ⟨.inner 1, 3, [30], [3]⟩, ⟨.inner 0, 4, [40], [4]⟩]

theorem crossedCalls_misattributed :
    ∃ (tx : CatscopeTransaction) (recovered : List ℕ), build true crossedCalls = some tx ∧
    (∀ j o : ℕ, Recovers (innerCounts tx) j o ↔ recovered[j]? = some o) ∧
    recovered.Perm (owners crossedCalls) ∧ ¬ ∀ j : ℕ, recovered[j]? = (owners crossedCalls)[j]? := by
  have hfit : ∀ o, innerCount crossedCalls o ≤ 255 := fun o =>
    (List.countP_le_length).trans (show crossedCalls.length ≤ 255 by decide)
  obtain ⟨tx, hb, -, -, -, -, -, recovered, -, hrec, -, hperm, hiff⟩ :=
    inner_owners_recovered true (show Existing crossedCalls by decide) hfit
  exact ⟨tx, recovered, hb, hrec, hperm, fun h => absurd (hiff.mp h) (by decide)⟩

end Store
end Zerohop
