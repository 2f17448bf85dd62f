/-
# Binary search, and insertion where it points

The size-halving search of a sorted list: `base` is the last position known
to hold an element not above the target, `size` the length of the part still
open. On a list strictly sorted by a key the answer is the position of the
target, or the position at which inserting it keeps the list sorted.

Key definitions: `searchBase`, `binarySearch`, `insertUnique`.
Key theorems: `binarySearch_ok`, `binarySearch_error`, `insertUnique_sorted`,
`mem_insertUnique`.
-/
import Mathlib.Data.List.Basic
import Mathlib.Data.List.InsertIdx
import Mathlib.Order.Compare
import Mathlib.Order.Lattice

namespace Zerohop
namespace BinarySearch

variable {α β : Type*} [LinearOrder β] (key : α → β)

/-- The search loop: halves `size` while it is above 1. -/
def searchBase (l : List α) (x : β) : ℕ → ℕ → ℕ → ℕ
  | 0, base, _ => base
  | fuel + 1, base, size =>
    if 1 < size then
      match l[base + size / 2]? with
      | some y => searchBase l x fuel (if compare (key y) x = .gt then base else base + size / 2)
          (size - size / 2)
      | none => base
    else base

/-- `ok i`: the target is at `i`. `error i`: it is absent and belongs at `i`. -/
def binarySearch (l : List α) (x : β) : Except ℕ ℕ :=
  match l[searchBase key l x l.length 0 l.length]? with
  | none => .error 0
  | some y =>
    match compare (key y) x with
    | .eq => .ok (searchBase key l x l.length 0 l.length)
    | .lt => .error (searchBase key l x l.length 0 l.length + 1)
    | .gt => .error (searchBase key l x l.length 0 l.length)

/-- The list with `x` inserted where the search points, unless its key is there. -/
def insertUnique (l : List α) (x : α) : List α :=
  match binarySearch key l (key x) with
  | .ok _ => l
  | .error i => l.insertIdx i x

/-- Strictly increasing in the key. -/
abbrev Sorted (l : List α) : Prop := l.Pairwise fun a b => key a < key b

/-- Everything before `base` is below the target or `base` is 0, everything
from `base + size` on is above it. -/
structure Open (l : List α) (x : β) (base size : ℕ) : Prop where
  pos : 0 < size
  le : base + size ≤ l.length
  below : ∀ y, l[base]? = some y → base = 0 ∨ key y ≤ x
  above : ∀ j y, base + size ≤ j → l[j]? = some y → x < key y

variable {key}

theorem Sorted.lt {l : List α} (hs : Sorted key l) {i j : ℕ} (hij : i < j) {a b : α}
    (ha : l[i]? = some a) (hb : l[j]? = some b) : key a < key b := by
  obtain ⟨hi, rfl⟩ := List.getElem?_eq_some_iff.mp ha
  obtain ⟨hj, rfl⟩ := List.getElem?_eq_some_iff.mp hb
  exact List.pairwise_iff_getElem.mp hs i j hi hj hij

theorem Open.halve {l : List α} {x : β} {base size : ℕ} (hs : Sorted key l)
    (h : Open key l x base size) (h1 : 1 < size) {y : α} (hy : l[base + size / 2]? = some y) :
    Open key l x (if compare (key y) x = .gt then base else base + size / 2) (size - size / 2) := by
  have hle := h.le
  split_ifs with hc
  · -- the middle is above the target, and so is all that follows it
    have hgt : x < key y := compare_gt_iff_gt.mp hc
    refine ⟨by omega, by omega, h.below, ?_⟩
    intro j z hj hz
    by_cases hlt : base + size / 2 < j
    · exact hgt.trans (hs.lt hlt hy hz)
    · obtain rfl : j = base + size / 2 := by omega
      rw [hy] at hz
      exact Option.some.inj hz ▸ hgt
  · have hyx : key y ≤ x := not_lt.mp fun hlt => hc (compare_gt_iff_gt.mpr hlt)
    refine ⟨by omega, by omega, fun z hz => Or.inr ?_, fun j z hj hz => h.above j z (by omega) hz⟩
    rw [hy] at hz
    exact Option.some.inj hz ▸ hyx

theorem searchBase_open {l : List α} {x : β} (hs : Sorted key l) : ∀ (fuel base size : ℕ),
    size ≤ fuel → Open key l x base size → Open key l x (searchBase key l x fuel base size) 1
  | 0, base, size, hf, h => by
    have := h.pos
    omega
  | fuel + 1, base, size, hf, h => by
    unfold searchBase
    split_ifs with h1
    · have hlt : base + size / 2 < l.length := by
        have := h.le
        omega
      have hy : l[base + size / 2]? = some l[base + size / 2] := List.getElem?_eq_getElem hlt
      rw [hy]
      exact searchBase_open hs fuel _ _ (by omega) (h.halve hs h1 hy)
    · obtain rfl : size = 1 := by
        have := h.pos
        omega
      exact h

theorem search_open {l : List α} (x : β) (hs : Sorted key l) (hl : l ≠ []) :
    Open key l x (searchBase key l x l.length 0 l.length) 1 := by
  have hpos : 0 < l.length := List.length_pos_iff.mpr hl
  refine searchBase_open hs _ _ _ (Nat.le_refl _) ⟨hpos, by omega, fun _ _ => Or.inl rfl, ?_⟩
  intro j y hj hy
  obtain ⟨hlt, -⟩ := List.getElem?_eq_some_iff.mp hy
  omega

/-- A found position holds the target; no order is needed for this. -/
theorem binarySearch_ok {l : List α} {x : β} {i : ℕ} (h : binarySearch key l x = .ok i) :
    ∃ y, l[i]? = some y ∧ key y = x := by
  unfold binarySearch at h
  split at h
  · cases h
  · rename_i y hy
    split at h
    · rename_i hc
      cases h
      exact ⟨y, hy, compare_eq_iff_eq.mp hc⟩
    · cases h
    · cases h

/-- **The insertion point** splits a sorted list at the target. -/
theorem binarySearch_error {l : List α} {x : β} {i : ℕ} (hs : Sorted key l)
    (h : binarySearch key l x = .error i) :
    i ≤ l.length ∧ (∀ y ∈ l.take i, key y < x) ∧ ∀ y ∈ l.drop i, x < key y := by
  by_cases hl : l = []
  · subst hl
    obtain rfl : 0 = i := by simpa [binarySearch] using h
    simp
  have ho := search_open x hs hl
  unfold binarySearch at h
  generalize searchBase key l x l.length 0 l.length = base at ho h
  have hlt : base < l.length := by
    have := ho.le
    omega
  rw [List.getElem?_eq_getElem hlt] at h
  have hy : l[base]? = some l[base] := List.getElem?_eq_getElem hlt
  have hdrop : ∀ y ∈ l.drop (base + 1), x < key y := fun y hy => by
    obtain ⟨j, hj⟩ := List.getElem?_of_mem hy
    rw [List.getElem?_drop] at hj
    exact ho.above _ y (by omega) hj
  simp only at h
  split at h
  · cases h
  · -- the target belongs right after `base`
    rename_i hc
    cases h
    have hbx : key l[base] < x := compare_lt_iff_lt.mp hc
    refine ⟨hlt, ?_, hdrop⟩
    intro y hy'
    obtain ⟨j, hj⟩ := List.getElem?_of_mem hy'
    rw [List.getElem?_take] at hj
    split_ifs at hj with hjl
    by_cases hjb : j < base
    · exact (hs.lt hjb hj hy).trans hbx
    · obtain rfl : j = base := by omega
      rw [hy] at hj
      exact Option.some.inj hj ▸ hbx
  · -- the target is below everything
    rename_i hc
    obtain rfl := Except.error.inj h
    have hbx : x < key l[base] := compare_gt_iff_gt.mp hc
    obtain rfl : base = 0 := by
      rcases ho.below _ hy with h0 | hle
      · exact h0
      · exact absurd hbx (not_lt.mpr hle)
    refine ⟨Nat.zero_le _, by simp, ?_⟩
    intro y hy'
    obtain ⟨j, hj⟩ := List.getElem?_of_mem hy'
    rw [List.getElem?_drop, Nat.zero_add] at hj
    rcases Nat.eq_zero_or_pos j with rfl | hjp
    · rw [hy] at hj
      exact Option.some.inj hj ▸ hbx
    · exact hbx.trans (hs.lt hjp hy hj)

theorem insertIdx_eq_take_cons_drop : ∀ (l : List α) (i : ℕ) (x : α), i ≤ l.length →
    l.insertIdx i x = l.take i ++ x :: l.drop i
  | l, 0, x, _ => by simp
  | [], i + 1, x, h => by simp at h
  | a :: l, i + 1, x, h => by
    simp [insertIdx_eq_take_cons_drop l i x (by simpa using h)]

theorem insertUnique_sorted {l : List α} (hs : Sorted key l) (x : α) :
    Sorted key (insertUnique key l x) := by
  unfold insertUnique
  split
  · exact hs
  · rename_i i hi
    obtain ⟨hle, hlo, hhi⟩ := binarySearch_error hs hi
    rw [insertIdx_eq_take_cons_drop l i x hle]
    refine List.pairwise_append.mpr ⟨hs.sublist (List.take_sublist i l),
      List.pairwise_cons.mpr ⟨hhi, hs.sublist (List.drop_sublist i l)⟩, ?_⟩
    intro a ha b hb
    rcases List.mem_cons.mp hb with rfl | hb
    · exact hlo a ha
    · exact (hlo a ha).trans (hhi b hb)

theorem mem_insertUnique {l : List α} (hs : Sorted key l) (hinj : Function.Injective key) (x y : α) :
    y ∈ insertUnique key l x ↔ y = x ∨ y ∈ l := by
  unfold insertUnique
  split
  · rename_i i hi
    obtain ⟨z, hz, hzx⟩ := binarySearch_ok hi
    have hx : x ∈ l := hinj hzx ▸ List.mem_of_getElem? hz
    exact ⟨Or.inr, fun h => h.elim (fun e => e ▸ hx) id⟩
  · rename_i i hi
    exact List.mem_insertIdx (binarySearch_error hs hi).1

end BinarySearch
end Zerohop
