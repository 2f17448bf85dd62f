/-
# Blocks laid end to end, and the table of their ends

Blocks of varying length are stored one after the other in a single list; a
table keeps the end of each. `ends` is that table as running totals of the
lengths, `slice` the subrange a bounds-checked language gives for
`l[start..finish]` (`none` where it panics), and `cutAt` the loop that cuts a
list at the ends of a table. Cutting the laid out blocks at their ends gives
the blocks back (`cutAt_flatten`).

Key definitions: `slice`, `ends`, `cutAt`, `pieces`, `overwrite`.
Key theorems: `slice_eq_some_iff`, `getElem?_endsFrom`, `endsFrom_sorted`,
`cutAt_flatten`, `cutAt_eq_some_iff`.
-/
import Mathlib.Data.List.Basic
import Mathlib.Algebra.BigOperators.Group.List.Basic
import Mathlib.Algebra.Ring.Nat

namespace Zerohop
namespace Cuts

variable {α : Type*}

/-- `l[start..finish]`, `none` where the bounds check fails. -/
def slice (l : List α) (start finish : ℕ) : Option (List α) :=
  if start ≤ finish ∧ finish ≤ l.length then some ((l.take finish).drop start) else none

/-- The list with its part from `start` on replaced by `xs`, as far as `xs` goes. -/
def overwrite (l : List α) (start : ℕ) (xs : List α) : List α :=
  l.take start ++ xs ++ l.drop (start + xs.length)

/-- The ends of blocks of the lengths `ns` laid from position `a` on. -/
def endsFrom : ℕ → List ℕ → List ℕ
  | _, [] => []
  | a, n :: ns => (a + n) :: endsFrom (a + n) ns

/-- The ends of blocks of the lengths `ns`. -/
def ends (ns : List ℕ) : List ℕ := endsFrom 0 ns

/-- The pieces of `l` between consecutive ends, the first from `start`. -/
def cutAt (l : List α) : ℕ → List ℕ → Option (List (List α))
  | _, [] => some []
  | start, finish :: fs => do
    let b ← slice l start finish
    let bs ← cutAt l finish fs
    pure (b :: bs)

/-- What lies between consecutive ends, the first from `start`, of a list that
reaches them. -/
def pieces (l : List α) (start : ℕ) (fs : List ℕ) : List (List α) :=
  ((start :: fs).zip fs).map fun p => (l.take p.2).drop p.1

/-! ### Slices -/

theorem slice_isSome_iff {l : List α} {start finish : ℕ} :
    (slice l start finish).isSome ↔ start ≤ finish ∧ finish ≤ l.length := by
  unfold slice
  split <;> simp_all

theorem slice_eq_some_iff {l b : List α} {start finish : ℕ} : slice l start finish = some b ↔
    (start ≤ finish ∧ finish ≤ l.length) ∧ (l.take finish).drop start = b := by
  unfold slice
  split_ifs with h
  · simp [h]
  · simp only [false_iff]
    exact fun hb => h hb.1

theorem slice_eq_some {l : List α} {start finish : ℕ} (h1 : start ≤ finish)
    (h2 : finish ≤ l.length) : slice l start finish = some ((l.take finish).drop start) :=
  if_pos ⟨h1, h2⟩

theorem slice_append (pre b post : List α) :
    slice (pre ++ b ++ post) pre.length (pre.length + b.length) = some b := by
  rw [slice_eq_some (by omega) (by simp), ← List.length_append, List.take_left, List.drop_left]

theorem slice_self (l : List α) (k : ℕ) (h : k ≤ l.length) : slice l k k = some [] := by
  rw [slice_eq_some (Nat.le_refl k) h]
  simp

theorem overwrite_length {l xs : List α} {start : ℕ} (h : start + xs.length ≤ l.length) :
    (overwrite l start xs).length = l.length := by
  simp only [overwrite, List.length_append, List.length_take, List.length_drop]
  omega

theorem overwrite_append_replicate (l xs : List α) (d : α) :
    overwrite (l ++ List.replicate xs.length d) l.length xs = l ++ xs := by
  simp [overwrite]

/-! ### The table of ends -/

@[simp] theorem endsFrom_length : ∀ (a : ℕ) (ns : List ℕ), (endsFrom a ns).length = ns.length
  | _, [] => rfl
  | a, n :: ns => by simp [endsFrom, endsFrom_length (a + n) ns]

theorem endsFrom_append : ∀ (a : ℕ) (ns : List ℕ) (n : ℕ),
    endsFrom a (ns ++ [n]) = endsFrom a ns ++ [a + ns.sum + n]
  | a, [], n => by simp [endsFrom]
  | a, m :: ns, n => by
    simp only [List.cons_append, endsFrom, endsFrom_append (a + m) ns n, List.sum_cons]
    simp [Nat.add_assoc]

theorem ends_append (ns : List ℕ) (n : ℕ) : ends (ns ++ [n]) = ends ns ++ [ns.sum + n] := by
  simp [ends, endsFrom_append]

/-- The `k`-th end is the total up to and with block `k`. -/
theorem getElem?_endsFrom : ∀ (a : ℕ) (ns : List ℕ) (k : ℕ), k < ns.length →
    (endsFrom a ns)[k]? = some (a + (ns.take (k + 1)).sum)
  | _, [], k, h => by simp at h
  | a, n :: ns, 0, _ => by simp [endsFrom]
  | a, n :: ns, k + 1, h => by
    have ih := getElem?_endsFrom (a + n) ns k (by simpa using h)
    simp only [endsFrom, List.getElem?_cons_succ, ih, List.take_succ_cons, List.sum_cons]
    simp [Nat.add_assoc]

theorem le_of_mem_endsFrom : ∀ {a : ℕ} {ns : List ℕ} {e : ℕ}, e ∈ endsFrom a ns →
    a ≤ e ∧ e ≤ a + ns.sum
  | _, [], _, h => by simp [endsFrom] at h
  | a, n :: ns, e, h => by
    simp only [endsFrom, List.mem_cons] at h
    rw [List.sum_cons]
    rcases h with rfl | h
    · omega
    · have := le_of_mem_endsFrom h
      omega

theorem endsFrom_sorted : ∀ (a : ℕ) (ns : List ℕ), (endsFrom a ns).Pairwise (· ≤ ·)
  | _, [] => List.Pairwise.nil
  | a, n :: ns => by
    refine List.pairwise_cons.mpr ⟨?_, endsFrom_sorted (a + n) ns⟩
    intro e he
    exact (le_of_mem_endsFrom he).1

theorem endsFrom_getLastD : ∀ (a : ℕ) (ns : List ℕ), (endsFrom a ns).getLastD a = a + ns.sum
  | a, [] => by simp [endsFrom]
  | a, n :: ns => by
    have ih := endsFrom_getLastD (a + n) ns
    rw [endsFrom, List.getLastD_cons, ih, List.sum_cons, Nat.add_assoc]

/-! ### Cutting -/

theorem cutAt_flatten_from : ∀ (bs : List (List α)) (pre : List α),
    cutAt (pre ++ bs.flatten) pre.length (endsFrom pre.length (bs.map List.length)) = some bs
  | [], _ => rfl
  | b :: bs, pre => by
    have h1 := slice_append pre b bs.flatten
    have h2 := cutAt_flatten_from bs (pre ++ b)
    rw [List.append_assoc] at h1
    rw [List.length_append, List.append_assoc] at h2
    simp only [List.flatten_cons, List.map_cons, endsFrom, cutAt, h1, h2]
    rfl

/-- **Cutting at the ends gives the blocks back**, each whole and in order. -/
theorem cutAt_flatten (bs : List (List α)) :
    cutAt bs.flatten 0 (ends (bs.map List.length)) = some bs := by
  simpa [ends] using cutAt_flatten_from bs []

/-- **What can be cut**: exactly the ends that do not decrease from `start` and
stay in the list. -/
theorem cutAt_eq_some_iff {l : List α} : ∀ {fs : List ℕ} {start : ℕ} {bs : List (List α)},
    cutAt l start fs = some bs ↔
      ((start :: fs).Pairwise (· ≤ ·) ∧ ∀ f ∈ fs, f ≤ l.length) ∧ pieces l start fs = bs
  | [], start, bs => by simp [cutAt, pieces]
  | finish :: fs, start, bs => by
    have ih : ∀ {cs}, cutAt l finish fs = some cs ↔
        ((finish :: fs).Pairwise (· ≤ ·) ∧ ∀ f ∈ fs, f ≤ l.length) ∧ pieces l finish fs = cs :=
      cutAt_eq_some_iff
    have hpieces : pieces l start (finish :: fs) =
        (l.take finish).drop start :: pieces l finish fs := rfl
    simp only [cutAt, Option.bind_eq_bind, Option.pure_def, Option.bind_eq_some_iff,
      Option.some.injEq, slice_eq_some_iff, ih, hpieces, List.mem_cons, forall_eq_or_imp]
    constructor
    · rintro ⟨b, ⟨⟨hle, hlen⟩, rfl⟩, cs, ⟨⟨hsorted, hmem⟩, rfl⟩, rfl⟩
      refine ⟨⟨List.pairwise_cons.mpr ⟨?_, hsorted⟩, hlen, hmem⟩, rfl⟩
      intro f hf
      rcases List.mem_cons.mp hf with rfl | hf
      · exact hle
      · exact hle.trans (List.rel_of_pairwise_cons hsorted hf)
    · rintro ⟨⟨hsorted, hlen, hmem⟩, rfl⟩
      have hle : start ≤ finish := List.rel_of_pairwise_cons hsorted (List.mem_cons_self ..)
      exact ⟨_, ⟨⟨hle, hlen⟩, rfl⟩, _, ⟨⟨(List.pairwise_cons.mp hsorted).2, hmem⟩, rfl⟩, rfl⟩

/-- A piece of the list starts where it ends less its length. -/
theorem take_drop_eq (l : List α) (start n : ℕ) :
    (l.take (start + n)).drop start = (l.drop start).take n := by
  rw [List.drop_take, Nat.add_sub_cancel_left]

theorem cutAt_endsFrom {l : List α} {start : ℕ} {ns : List ℕ} (h : start + ns.sum ≤ l.length) :
    cutAt l start (endsFrom start ns) = some (pieces l start (endsFrom start ns)) := by
  refine cutAt_eq_some_iff.mpr ⟨⟨List.pairwise_cons.mpr ⟨?_, endsFrom_sorted start ns⟩, ?_⟩, rfl⟩
  · exact fun f hf => (le_of_mem_endsFrom hf).1
  · exact fun f hf => (le_of_mem_endsFrom hf).2.trans h

/-- Laid end to end the pieces are what they were cut from. -/
theorem flatten_pieces {l : List α} : ∀ (ns : List ℕ) (start : ℕ),
    (pieces l start (endsFrom start ns)).flatten = (l.take (start + ns.sum)).drop start
  | [], start => by simp [pieces, endsFrom]
  | n :: ns, start => by
    have ih := flatten_pieces (l := l) ns (start + n)
    have hcons : pieces l start (endsFrom start (n :: ns)) =
        (l.take (start + n)).drop start :: pieces l (start + n) (endsFrom (start + n) ns) := rfl
    rw [List.sum_cons, hcons, List.flatten_cons, ih]
    calc (l.take (start + n)).drop start ++ (l.take (start + n + ns.sum)).drop (start + n)
      _ = (l.drop start).take n ++ ((l.drop start).drop n).take ns.sum := by
        rw [take_drop_eq, take_drop_eq, List.drop_drop]
      _ = (l.drop start).take (n + ns.sum) := List.take_add.symm
      _ = (l.take (start + (n + ns.sum))).drop start := (take_drop_eq l start _).symm

end Cuts
end Zerohop
