/-
# The last entries of a log in a circular array

A log grows at its end, and `n` slots hold what they can of it: entry `s`
lies in slot `s % n` until entry `s + n` takes its place. Entry `s` of a log
of length `w` is in the window when `w ≤ s + n`.

Writing a slot may lag behind the growth of the log, so `Holds` speaks of the
entries in `done` only: growing keeps it as long as the new entry is not done
(`Holds.grow`), and writing an entry makes it done, provided no other done
entry of the window loses its slot (`Holds.write`). With both at once every
entry is done (`Full.push`).

A reader at position `r` is owed entry `next n w r`: its own, or the oldest
still in the window if it fell behind (`deliver`). It reads the entries in
their order and misses one only when `n` others have followed (`Follows`).
-/
import Mathlib.Algebra.Ring.Nat
import Mathlib.Data.List.Basic
import Mathlib.Data.Fin.Basic
import Mathlib.Logic.Function.Basic

namespace Zerohop
namespace Window

variable {α : Type*} {n : ℕ} [NeZero n]

/-- The slot of entry `s`. -/
def slotOf (n : ℕ) [NeZero n] (s : ℕ) : Fin n := ⟨s % n, Nat.mod_lt s (Nat.pos_of_neZero n)⟩

/-- The done entries of the window are in their slots. -/
def Holds (done : ℕ → Prop) (log : List α) (slots : Fin n → Option α) : Prop :=
  ∀ s x, done s → log[s]? = some x → log.length ≤ s + n → slots (slotOf n s) = some x

/-- Every entry of the window is in its slot. -/
abbrev Full (log : List α) (slots : Fin n → Option α) : Prop := Holds (fun _ => True) log slots

theorem slotOf_eq_iff {s t : ℕ} : slotOf n s = slotOf n t ↔ s % n = t % n := by
  simp [slotOf, Fin.ext_iff]

/-- Two entries less than `n` apart that share a slot are the same. -/
theorem eq_of_slotOf_eq {s t : ℕ} (h : slotOf n s = slotOf n t) (hst : s < t + n) (hts : t < s + n) :
    s = t := by
  rw [slotOf_eq_iff] at h
  have hn : 0 < n := Nat.pos_of_neZero n
  have hs := Nat.div_add_mod s n
  have ht := Nat.div_add_mod t n
  have hd : s / n = t / n := by
    have h1 : n * (s / n) < n * (t / n) + n := by omega
    have h2 : n * (t / n) < n * (s / n) + n := by omega
    rw [← Nat.mul_succ] at h1 h2
    have h3 := Nat.lt_of_mul_lt_mul_left h1
    have h4 := Nat.lt_of_mul_lt_mul_left h2
    omega
  rw [← hs, ← ht, hd, h]

theorem Holds.nil (done : ℕ → Prop) (slots : Fin n → Option α) : Holds done [] slots := by
  intro s x _ hs
  simp at hs

theorem Holds.mono {done done' : ℕ → Prop} {log : List α} {slots : Fin n → Option α}
    (h : Holds done log slots) (hd : ∀ s, done' s → done s) : Holds done' log slots :=
  fun s x hs hx hw => h s x (hd s hs) hx hw

/-- The log grows by an entry that is not done. -/
theorem Holds.grow {done : ℕ → Prop} {log : List α} {slots : Fin n → Option α}
    (h : Holds done log slots) (x : α) (hd : ¬ done log.length) : Holds done (log ++ [x]) slots := by
  intro s y hs hy hw
  rw [List.length_append, List.length_singleton] at hw
  have hne : s ≠ log.length := fun he => hd (he ▸ hs)
  have hlt : s < log.length := by
    have := (List.getElem?_eq_some_iff.mp hy).1
    rw [List.length_append, List.length_singleton] at this
    omega
  rw [List.getElem?_append_left hlt] at hy
  exact h s y hs hy (by omega)

/-- Entry `q` is written: it becomes done if no other done entry of the window
lies in its slot. -/
theorem Holds.write {done : ℕ → Prop} {log : List α} {slots : Fin n → Option α}
    (h : Holds done log slots) {q : ℕ} {x : α} (hq : log[q]? = some x)
    (hfree : ∀ s, done s → s < log.length → log.length ≤ s + n → slotOf n s = slotOf n q → s = q) :
    Holds (fun s => done s ∨ s = q) log (Function.update slots (slotOf n q) (some x)) := by
  intro s y hs hy hw
  have hlt : s < log.length := (List.getElem?_eq_some_iff.mp hy).1
  by_cases hslot : slotOf n s = slotOf n q
  · have hsq : s = q := hs.elim (fun hd => hfree s hd hlt hw hslot) id
    subst hsq
    rw [Function.update_self, ← hq, hy]
  · rw [Function.update_of_ne hslot]
    rcases hs with hs | rfl
    · exact h s y hs hy hw
    · exact absurd rfl hslot

/-- **Growing and writing at once** keeps the window full. -/
theorem Full.push {log : List α} {slots : Fin n → Option α} (h : Full log slots) (x : α) :
    Full (log ++ [x]) (Function.update slots (slotOf n log.length) (some x)) := by
  have h1 : Holds (fun s => s < log.length) (log ++ [x]) slots :=
    (h.mono fun _ _ => trivial).grow x (lt_irrefl _)
  have h2 := h1.write (q := log.length) (x := x) (by simp) fun s _ hs hw hslot => by
    rw [List.length_append, List.length_singleton] at hs hw
    exact eq_of_slotOf_eq hslot (by have := Nat.pos_of_neZero n; omega) (by omega)
  intro s y _ hy hw
  have hs : s < log.length + 1 := by
    simpa using (List.getElem?_eq_some_iff.mp hy).1
  exact h2 s y (by omega) hy hw

/-! ### Readers -/

/-- The entry a reader at `r` is owed from a log of length `w`. -/
def next (n w r : ℕ) : ℕ := max r (w - n)

/-- What a reader at `r` gets: nothing when it has read the whole log. -/
def deliver (n : ℕ) (log : List α) (r : ℕ) : Option (ℕ × α) :=
  (log[next n log.length r]?).map fun x => (next n log.length r, x)

theorem deliver_eq_none {log : List α} {r : ℕ} : deliver n log r = none ↔ log.length ≤ r := by
  have hn : 0 < n := Nat.pos_of_neZero n
  simp only [deliver, next, Option.map_eq_none_iff, List.getElem?_eq_none_iff]
  omega

omit [NeZero n] in
theorem deliver_eq_some {log : List α} {r p : ℕ} {x : α} :
    deliver n log r = some (p, x) ↔ p = next n log.length r ∧ log[p]? = some x := by
  simp only [deliver, Option.map_eq_some_iff, Prod.mk.injEq]
  constructor
  · rintro ⟨y, hy, rfl, rfl⟩
    exact ⟨rfl, hy⟩
  · rintro ⟨rfl, hx⟩
    exact ⟨x, hx, rfl, rfl⟩

theorem next_window (n w r : ℕ) : w ≤ next n w r + n := by
  unfold next
  omega

omit [NeZero n] in
/-- A reader skips an entry only if `n` later ones are in the log. -/
theorem skipped {w r q : ℕ} (hr : r ≤ q) (hq : q < next n w r) : n ≤ w - (q + 1) := by
  unfold next at hq
  omega

theorem Holds.serves {done : ℕ → Prop} {log : List α} {slots : Fin n → Option α}
    (h : Holds done log slots) {r : ℕ} (hr : r < log.length) (hd : done (next n log.length r)) :
    ∃ x, deliver n log r = some (next n log.length r, x) ∧
      slots (slotOf n (next n log.length r)) = some x := by
  cases hdel : deliver n log r with
  | none =>
    have := deliver_eq_none.mp hdel
    omega
  | some px =>
    obtain ⟨p, x⟩ := px
    obtain ⟨rfl, hx⟩ := deliver_eq_some.mp hdel
    exact ⟨x, rfl, h _ x hd hx (next_window n _ r)⟩

/-! ### The history of a reader -/

/-- A reader that began at entry `start` is at `r`, has read the entries
`seqs`, and has missed only such as `n` others have followed. -/
structure Follows (n start r w : ℕ) (seqs : List ℕ) : Prop where
  le : r ≤ w
  start_le : start ≤ r
  increasing : seqs.Pairwise (· < ·)
  range : ∀ q ∈ seqs, start ≤ q ∧ q < r
  missed : ∀ q, start ≤ q → q < r → q ∈ seqs ∨ q + n < w

theorem Follows.begin (n w : ℕ) : Follows n w w w [] where
  le := Nat.le_refl w
  start_le := Nat.le_refl w
  increasing := List.Pairwise.nil
  range := nofun
  missed := fun _ h1 h2 => absurd h1 (Nat.not_le.mpr h2)

variable {start r w w' : ℕ} {seqs : List ℕ}

omit [NeZero n] in
theorem Follows.grow (h : Follows n start r w seqs) (hw : w ≤ w') : Follows n start r w' seqs where
  le := Nat.le_trans h.le hw
  start_le := h.start_le
  increasing := h.increasing
  range := h.range
  missed := fun q h1 h2 => (h.missed q h1 h2).imp_right fun h3 => Nat.lt_of_lt_of_le h3 hw

theorem Follows.read (h : Follows n start r w seqs) (hr : r < w) :
    Follows n start (next n w r + 1) w (seqs ++ [next n w r]) where
  le := by
    have := Nat.pos_of_neZero n
    unfold next
    omega
  start_le := by
    have := h.start_le
    unfold next
    omega
  increasing := by
    refine List.pairwise_append.mpr ⟨h.increasing, List.pairwise_singleton _ _, ?_⟩
    intro q hq q' hq'
    obtain rfl := List.mem_singleton.mp hq'
    exact Nat.lt_of_lt_of_le (h.range q hq).2 (Nat.le_max_left ..)
  range := by
    have hle : r ≤ next n w r := Nat.le_max_left ..
    intro q hq
    rcases List.mem_append.mp hq with hq | hq
    · obtain ⟨h1, h2⟩ := h.range q hq
      exact ⟨h1, by omega⟩
    · obtain rfl := List.mem_singleton.mp hq
      exact ⟨Nat.le_trans h.start_le hle, Nat.lt_succ_self _⟩
  missed := by
    intro q h1 h2
    rcases Nat.lt_or_ge q r with hlt | hge
    · exact (h.missed q h1 hlt).imp_left fun hq => List.mem_append_left _ hq
    · rcases Nat.lt_succ_iff_lt_or_eq.mp h2 with hlt | rfl
      · have := skipped hge hlt
        have := Nat.pos_of_neZero n
        exact Or.inr (by omega)
      · exact Or.inl (List.mem_append_right _ (List.mem_singleton_self _))

end Window
end Zerohop
