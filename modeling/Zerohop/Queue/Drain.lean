/-
# A batch ends

A dequeue moves the index, and from then on no enqueue comes to the queue that
it drains, except those that had read the index before. So until the next
dequeue, what is yielded from that queue, what is in it and the enqueues still
on their way to it add up to the same number (`batch_closed`), and a loop over
the batch ends, whatever the producers do.

Key definitions: `Thread.HeadedFor`, `Draining`.
-/
import Zerohop.Queue.Lengths

namespace Zerohop
namespace Queue
namespace Interleaved

open Machine
open Parties (Exactly)

variable {α : Type*}

/-- It is in `enqueue` and will push on queue `k`. -/
def Thread.HeadedFor (k : Fin 2) : Thread α → Prop
  | .loaded k' _ => k' = k
  | .counted k' _ => k' = k
  | _ => False

/-- The action starts a dequeue. -/
def Action.dequeues : Action α → Bool
  | .advance _ => true
  | _ => false

/-- The index has moved on from queue `k`; the threads in `S` are headed for it,
and with them `n` items are or will be. -/
structure Draining (s : State α) (k : Fin 2) (S : Finset ℕ) (n : ℕ) : Prop where
  moved : s.ring.selected ≠ k
  headed : Exactly s.threads (Thread.HeadedFor k) S
  total : s.yieldedFrom k + (s.ring.items k).length + S.card = n

section

variable {s u : State α} {k : Fin 2} {S : Finset ℕ} {n : ℕ}

/-! ### One step -/

/-- Wherever the threads go, those headed for a queue are finitely many. -/
theorem exists_headed_step {a : Action α} (h : ∃ S, Exactly s.threads (Thread.HeadedFor k) S)
    (hs : s.step a = some u) : ∃ S, Exactly u.threads (Thread.HeadedFor k) S := by
  obtain ⟨S, hS⟩ := h
  cases move_of_step hs with
  | load value ht => exact hS.exists_update _ _
  | count ht => exact hS.exists_update _ _
  | push ht => exact hS.exists_update _ _
  | advance ht => exact hS.exists_update _ _
  | clear ht => exact hS.exists_update _ _
  | pop hi => exact ⟨S, hS⟩

/-- A push by a thread that is headed for the queue or for the other one. -/
theorem Draining.push (h : Draining s k S n) (hun : s.ring.Uncounted) {t : ℕ} {k' : Fin 2} {value : α}
    (ht : s.threads t = .counted k' value) :
    ∃ S' ⊆ S, Draining { s.setThread t .idle with
      ring := s.ring.push k' value, pushed := s.pushed ++ [value] } k S' n := by
  by_cases hk : k' = k
  · subst hk
    have hmem : t ∈ S := by
      rw [h.headed t, ht]
      rfl
    refine ⟨S.erase t, Finset.erase_subset t S, h.moved, h.headed.erase id, ?_⟩
    have hitems := length_items_push hun k' value k'
    rw [if_pos rfl] at hitems
    have hcard := Finset.card_erase_add_one hmem
    have htotal := h.total
    change s.yieldedFrom k' + ((s.ring.push k' value).items k').length + (S.erase t).card = n
    omega
  · have hitems := length_items_push hun k' value k
    rw [if_neg hk, Nat.add_zero] at hitems
    refine ⟨S, subset_rfl, h.moved, h.headed.keep ?_, ?_⟩
    · rw [ht]
      exact iff_of_false hk id
    · change s.yieldedFrom k + ((s.ring.push k' value).items k).length + S.card = n
      rw [hitems]
      exact h.total

/-- **Until the next dequeue the queue is closed.** -/
theorem Draining.step {a : Action α} (h : Draining s k S n) (hun : s.ring.Uncounted)
    (ha : a.dequeues = false) (hs : s.step a = some u) : ∃ S' ⊆ S, Draining u k S' n := by
  cases move_of_step hs with
  | load value ht =>
    -- it heads for the other queue
    refine ⟨S, subset_rfl, h.moved, h.headed.keep ?_, h.total⟩
    rw [ht]
    exact iff_of_false id h.moved
  | count ht =>
    refine ⟨S, subset_rfl, h.moved, h.headed.keep ?_, h.total⟩
    rw [ht]
    exact Iff.rfl
  | push ht => exact h.push hun ht
  | advance ht => cases ha
  | @clear t oldK ht =>
    refine ⟨S, subset_rfl, h.moved, h.headed.keep ?_, ?_⟩
    · rw [ht]
      exact Iff.rfl
    · rw [yieldedFrom_clear]
      exact h.total
  | pop hi =>
    have htotal := congrArg (· + S.card) (yieldedFrom_pop hun hi k)
    exact ⟨S, subset_rfl, h.moved, h.headed, htotal.trans h.total⟩

end

/-! ### Runs -/

/-- **A batch is closed and ends.** Take any reachable state in which the index
has moved on from a queue. The threads `S` are headed for it; in every run
without a further dequeue what is yielded from it, what is in it and the part of
`S` still headed for it stay the same number: so no more is yielded than was in
it and one item for each thread of `S`. -/
theorem batch_closed {s : State α} (h : (machine α).Reachable s) {k : Fin 2} (hk : s.ring.selected ≠ k) :
    ∃ S : Finset ℕ, (∀ t, t ∈ S ↔ (s.threads t).HeadedFor k) ∧
      ∀ as u, (∀ a ∈ as, a.dequeues = false) → (machine α).run s as = some u →
        ∃ S' ⊆ S, (∀ t, t ∈ S' ↔ (u.threads t).HeadedFor k) ∧
          u.yieldedFrom k + (u.ring.items k).length + S'.card =
            s.yieldedFrom k + (s.ring.items k).length + S.card := by
  have hinit : ∃ S, Exactly (State.init : State α).threads (Thread.HeadedFor k) S :=
    ⟨∅, fun t => by simp [State.init, Thread.HeadedFor]⟩
  obtain ⟨S, hS⟩ := h.invariant (I := fun s => ∃ S, Exactly s.threads (Thread.HeadedFor k) S) hinit
    fun _ _ _ hu hs => exists_headed_step hu hs
  refine ⟨S, hS, ?_⟩
  intro as u has hrun
  let total := s.yieldedFrom k + (s.ring.items k).length + S.card
  have hstep : ∀ (v : State α) (a : Action α) (w : State α),
      (Kept v ∧ ∃ S' ⊆ S, Draining v k S' total) → a.dequeues = false → (machine α).step v a = some w →
      Kept w ∧ ∃ S' ⊆ S, Draining w k S' total := by
    rintro v a w ⟨hkept, S', hS', hd⟩ ha hw
    obtain ⟨S'', hS'', hd'⟩ := hd.step hkept.uncounted ha hw
    exact ⟨hkept.step hw, S'', hS''.trans hS', hd'⟩
  obtain ⟨-, S', hS', hd⟩ := run_invariant (fun a => Action.dequeues a = false) hstep as
    ⟨reachable_kept h, S, subset_rfl, hk, hS, rfl⟩ has hrun
  exact ⟨S', hS', hd.headed, hd.total⟩

/-- An enqueue that has read the index before a dequeue still comes to its
queue; one that reads it afterwards does not. -/
theorem batch_closed_late : ∃ (s u : State Char) (S : Finset ℕ),
    (machine Char).run State.init [.load 0 'a', .advance 1, .clear 1] = some s ∧
    (machine Char).run s [.load 2 'b', .count 2, .push 2, .count 0, .push 0, .pop 0] = some u ∧
    u.iters.map Iter.items = [['a']] ∧ u.ring.items 1 = ['b'] ∧ S = {0} ∧
    u.yieldedFrom 0 ≤ s.yieldedFrom 0 + (s.ring.items 0).length + S.card := by
  obtain ⟨s, u, hs, hu, hiters, hone, hsel, hheaded⟩ : ∃ s u : State Char,
      (machine Char).run State.init [.load 0 'a', .advance 1, .clear 1] = some s ∧
      (machine Char).run s [.load 2 'b', .count 2, .push 2, .count 0, .push 0, .pop 0] = some u ∧
      u.iters.map Iter.items = [['a']] ∧ u.ring.items 1 = ['b'] ∧ s.ring.selected ≠ 0 ∧
      ∀ t, (s.threads t).HeadedFor 0 ↔ t = 0 := by
    refine ⟨_, _, rfl, rfl, rfl, rfl, by decide, ?_⟩
    rintro (_ | _ | t)
    · exact iff_of_true rfl rfl
    · exact iff_of_false id Nat.one_ne_zero
    · exact iff_of_false id (Nat.succ_ne_zero _)
  obtain ⟨S, hS, hclosed⟩ := batch_closed (reachable_of_run hs) hsel
  obtain ⟨S', -, -, htotal⟩ := hclosed _ u (by decide) hu
  have hzero : S = {0} := by
    ext t
    rw [hS, hheaded, Finset.mem_singleton]
  exact ⟨s, u, S, hs, hu, hiters, hone, hzero, by omega⟩

end Interleaved
end Queue
end Zerohop
