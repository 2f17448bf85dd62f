/-
# Items that expire

A log of stamped items, of which those younger than `ttl` are alive at a time
`now`; an item stamped after `now` has age 0. Keeping the alive ones of those
kept before is keeping the alive ones of the log, as long as time does not run
back (`filter_alive_filter`); where the stamps do not decrease, what is kept is
a suffix of the log (`filter_alive_suffix`).

Checks that come at least `gap` apart find an item alive only so often
(`length_le_of_spaced`).

Key definition: `alive`.
-/
import Mathlib.Data.List.Basic

namespace Zerohop
namespace Expiry

variable {α : Type*} (stamp : α → ℕ) (ttl : ℕ)

/-- Alive at the last check; everything is before the first. -/
def alive : Option ℕ → α → Bool
  | none, _ => true
  | some now, a => decide (now - stamp a < ttl)

variable {stamp ttl}

/-- Time does not run back, so what is alive was alive. -/
theorem alive_of_alive {last : Option ℕ} {now : ℕ} (h : ∀ m, last = some m → m ≤ now) {a : α}
    (ha : alive stamp ttl (some now) a) : alive stamp ttl last a := by
  cases last with
  | none => rfl
  | some m =>
    have := h m rfl
    simp only [alive, decide_eq_true_eq] at ha ⊢
    omega

theorem filter_alive_filter {last : Option ℕ} {now : ℕ} (h : ∀ m, last = some m → m ≤ now)
    (log : List α) : (log.filter (alive stamp ttl last)).filter (alive stamp ttl (some now)) =
      log.filter (alive stamp ttl (some now)) := by
  rw [List.filter_filter]
  apply List.filter_congr
  intro a _
  cases ha : alive stamp ttl (some now) a
  · rfl
  · rw [alive_of_alive h ha]
    rfl

theorem alive_of_le {last : Option ℕ} {a : α} (httl : 0 < ttl) (h : ∀ m, last = some m → m ≤ stamp a) :
    alive stamp ttl last a := by
  cases last with
  | none => rfl
  | some m =>
    have := h m rfl
    simp only [alive, decide_eq_true_eq]
    omega

theorem filter_alive_append {last : Option ℕ} {a : α} (httl : 0 < ttl)
    (h : ∀ m, last = some m → m ≤ stamp a) (log : List α) :
    (log ++ [a]).filter (alive stamp ttl last) = log.filter (alive stamp ttl last) ++ [a] := by
  rw [List.filter_append, List.filter_singleton, alive_of_le httl h]
  rfl

/-- **What is alive is a suffix** of a log whose stamps do not decrease. -/
theorem filter_alive_suffix (last : Option ℕ) : ∀ {log : List α},
    log.Pairwise (fun a b => stamp a ≤ stamp b) → log.filter (alive stamp ttl last) <:+ log
  | [], _ => List.suffix_rfl
  | a :: log, h => by
    obtain ⟨ha, hlog⟩ := List.pairwise_cons.mp h
    cases hal : alive stamp ttl last a
    · rw [List.filter_cons_of_neg (by simp [hal])]
      exact (filter_alive_suffix last hlog).trans (List.suffix_cons a log)
    · -- the oldest is alive, and so are all
      have hall : ∀ b ∈ a :: log, alive stamp ttl last b := fun b hb => by
        rcases List.mem_cons.mp hb with rfl | hb
        · exact hal
        · have hle := ha b hb
          cases last with
          | none => rfl
          | some m =>
            simp only [alive, decide_eq_true_eq] at hal ⊢
            omega
      simp only [List.filter_eq_self.mpr hall, List.suffix_rfl]

/-! ### How often an item is found alive -/

/-- Checks after `base`, at least `gap` apart, end that much later. -/
theorem exists_late_of_spaced {gap : ℕ} : ∀ {times : List ℕ} (base : ℕ), times ≠ [] →
    (∀ t ∈ times, base + gap ≤ t) → times.Pairwise (fun t u => t + gap ≤ u) →
    ∃ t ∈ times, base + times.length * gap ≤ t
  | [], _, hne, _, _ => absurd rfl hne
  | [t], base, _, hbase, _ => ⟨t, List.mem_singleton_self t, by simpa using hbase t (by simp)⟩
  | t :: u :: times, base, _, hbase, h => by
    obtain ⟨ht, htail⟩ := List.pairwise_cons.mp h
    obtain ⟨v, hv, hle⟩ := exists_late_of_spaced t (List.cons_ne_nil u times) ht htail
    refine ⟨v, List.mem_cons_of_mem t hv, ?_⟩
    have := hbase t (List.mem_cons_self ..)
    rw [List.length_cons, Nat.succ_mul]
    omega

/-- **An item is found alive `n` times at most** where it lives `n` gaps and
every check after the first comes a gap after the one before and a gap after
the item's stamp. -/
theorem length_le_of_spaced {times : List ℕ} {born gap n : ℕ} (hn : 0 < n)
    (hspaced : times.Pairwise fun t u => t + gap ≤ u ∧ born + gap ≤ u)
    (halive : ∀ t ∈ times, t - born < n * gap) : times.length ≤ n := by
  match times, hspaced, halive with
  | [], _, _ => exact Nat.zero_le n
  | [t], _, _ => exact hn
  | t :: u :: times, hspaced, halive =>
    obtain ⟨ht, htail⟩ := List.pairwise_cons.mp hspaced
    obtain ⟨v, hv, hle⟩ := exists_late_of_spaced born (List.cons_ne_nil u times)
      (fun w hw => (ht w hw).2) (htail.imp fun h => h.1)
    have hlt := halive v (List.mem_cons_of_mem t hv)
    have : (u :: times).length * gap < n * gap := by omega
    exact Nat.lt_of_mul_lt_mul_right this

end Expiry
end Zerohop
