/-
# The ring is lock-free

A producer loses an exchange only to a claim made since its load, so the steps
that producers take are paid for by claims. The account: a producer that has
loaded the cursor has one step to come, and once another claim has made its
value stale three more; a claim pays for these of every other producer and for
its own write. So from any state, however the steps are interleaved and
whatever the cursor does, producers that go on taking steps go on making claims
(`push_lock_free`), spurious failures of the weak exchange apart.

Key definition: `Producer.credit`.
-/
import Zerohop.Buffer.Claims
import Zerohop.Lib.Parties

namespace Zerohop
namespace Buffer
namespace Interleaved

open Machine

variable {α : Type*}

/-- The steps that a producer has still paid for, with the cursor at `cursor`. -/
def Producer.credit (cursor : ℕ) : Producer α → ℕ
  | idle => 3
  | loading _ _ => 2
  | loaded _ _ current => if current = cursor then 1 else 4
  | claimed _ _ => 4

theorem Producer.credit_fresh (weak : Bool) (tx : α) (cursor : ℕ) :
    (loaded weak tx cursor).credit cursor = 1 := if_pos rfl

theorem Producer.credit_stale (weak : Bool) (tx : α) {current cursor : ℕ} (h : current ≠ cursor) :
    (loaded weak tx current).credit cursor = 4 := if_neg h

/-- Another claim costs a producer at most three more steps. -/
theorem Producer.credit_le (x : Producer α) (cursor cursor' : ℕ) :
    x.credit cursor' ≤ x.credit cursor + 3 := by
  cases x with
  | loaded weak tx current =>
    simp only [credit]
    split_ifs <;> omega
  | _ => exact Nat.le_add_right ..

theorem Producer.credit_le_four (x : Producer α) (cursor : ℕ) : x.credit cursor ≤ 4 := by
  cases x with
  | loaded weak tx current =>
    simp only [credit]
    split_ifs <;> omega
  | _ => simp [credit]

/-- The credit of the producers in `P`. -/
def State.credit (P : Finset ℕ) (s : State α) : ℕ := ∑ p ∈ P, (s.producers p).credit s.ring.writeCursor

/-- A producer takes the step. -/
def Action.byProducer : Action α → Bool
  | .consumer _ => false
  | .tryPop _ => false
  | _ => true

/-- An exchange that fails spuriously, if it is a weak one. -/
def Action.spurious : Action α → Bool
  | .exchange _ spurious => spurious
  | _ => false

section

variable {P : Finset ℕ} {s t : State α}

/-- A producer takes a step under the same cursor, with `k` to spare. -/
theorem credit_setProducer {p k : ℕ} (hp : p ∈ P) {x : Producer α}
    (hle : 1 + x.credit s.ring.writeCursor ≤ (s.producers p).credit s.ring.writeCursor + k) :
    1 + (s.setProducer p x).credit P ≤ s.credit P + k := by
  have hsum : (s.setProducer p x).credit P + (s.producers p).credit s.ring.writeCursor =
      s.credit P + x.credit s.ring.writeCursor :=
    Parties.sum_update_mem (Producer.credit s.ring.writeCursor) s.producers hp x
  omega

/-- Producer `p` claims: the others may need to load again. -/
theorem credit_claim {p : ℕ} (hp : p ∈ P) (tx : α) (current cursor : ℕ) (claims : List (Claim α)) :
    State.credit P { s.setProducer p (.claimed tx current) with
        ring := { s.ring with writeCursor := cursor }, claims } +
      (s.producers p).credit s.ring.writeCursor + 3 ≤ s.credit P + 3 * P.card + 4 := by
  have hothers : ∑ q ∈ P.erase p, (Function.update s.producers p (.claimed tx current) q).credit cursor ≤
      ∑ q ∈ P.erase p, ((s.producers q).credit s.ring.writeCursor + 3) := by
    apply Finset.sum_le_sum
    intro q hq
    rw [Function.update_of_ne (Finset.ne_of_mem_erase hq)]
    exact Producer.credit_le _ _ _
  have hnew := Finset.add_sum_erase P
    (fun q => (Function.update s.producers p (.claimed tx current) q).credit cursor) hp
  have hold := Finset.add_sum_erase P (fun q => (s.producers q).credit s.ring.writeCursor) hp
  have hcard := Finset.card_erase_add_one hp
  rw [Finset.sum_add_distrib, Finset.sum_const, smul_eq_mul] at hothers
  have hself : (Function.update s.producers p (.claimed tx current) p).credit cursor = 4 := by
    rw [Function.update_self]
    rfl
  simp only [hself] at hnew
  simp only [State.credit, State.setProducer]
  omega

theorem exchange_claims {p : ℕ} {weak : Bool} {tx : α}
    (h : s.producers p = .loaded weak tx s.ring.writeCursor)
    (hs : s.step (.exchange p false) = some t) : s.claims.length < t.claims.length := by
  simp only [State.step, h, State.exchange, Bool.and_false, Bool.false_eq_true, if_false,
    RingBufferInner.compareExchange, if_true, Option.some.injEq] at hs
  rw [← hs]
  simp

/-- **A producer's step is paid for**, by its credit, a claim or a spurious failure. -/
theorem step_credit {a : Action α} (hP : ∀ p, a.producer = some p → p ∈ P) (h : s.step a = some t) :
    (if a.byProducer then 1 else 0) + t.credit P + (3 * P.card + 1) * s.claims.length ≤
      s.credit P + (if a.spurious then 3 else 0) + (3 * P.card + 1) * t.claims.length := by
  cases a with
  | call p weak tx =>
    obtain ⟨hp, rfl⟩ := step_call h
    exact Nat.add_le_add_right (credit_setProducer (hP p rfl) (by rw [hp]; exact Nat.le_refl 3)) _
  | load p =>
    obtain ⟨weak, tx, hp, rfl⟩ := step_load h
    refine Nat.add_le_add_right (credit_setProducer (hP p rfl) ?_) _
    rw [hp, Producer.credit_fresh]
    exact Nat.le_refl 2
  | exchange p spurious =>
    obtain ⟨weak, tx, current, hp, ⟨rfl, ht⟩ | ⟨-, rfl⟩⟩ := step_exchange h
    · have hclaim : t.credit P + 1 + 3 ≤ s.credit P + 3 * P.card + 4 := by
        rw [ht, ← Producer.credit_fresh weak tx s.ring.writeCursor, ← hp]
        exact credit_claim (hP p rfl) tx _ _ _
      have hlen : t.claims.length = s.claims.length + 1 := by
        rw [ht]
        exact List.length_append
      rw [hlen, Nat.mul_succ]
      simp only [Action.byProducer, if_true]
      omega
    · refine Nat.add_le_add_right (credit_setProducer (hP p rfl) ?_) _
      have hnew : (if weak then Producer.loading weak tx else .idle).credit s.ring.writeCursor ≤ 3 := by
        split <;> simp [Producer.credit]
      rw [hp]
      by_cases hc : current = s.ring.writeCursor
      · subst hc
        rw [Producer.credit_fresh]
        cases spurious with
        | true =>
          simp only [Action.spurious, if_true]
          omega
        | false => exact absurd (exchange_claims hp h) (Nat.lt_irrefl _)
      · -- it lost to a claim made since its load
        rw [Producer.credit_stale weak tx hc]
        omega
  | write p =>
    obtain ⟨tx, seq, hp, rfl⟩ := step_write h
    exact Nat.add_le_add_right (credit_setProducer (x := .idle) (hP p rfl)
      (by rw [hp]; exact Nat.le_refl 4)) _
  | consumer c =>
    obtain rfl := step_consumer h
    simp [Action.byProducer, Action.spurious, State.credit]
  | tryPop c =>
    obtain ⟨cons, -, rfl | ⟨-, rfl⟩⟩ := step_tryPop h <;>
      simp [Action.byProducer, Action.spurious, State.credit]

/-- **Lock-freedom.** From any state, in any order: as long as producers take
steps they make claims, one at least for every `3n + 1` steps of `n` producers
past the first `4n`, spurious failures apart. -/
theorem push_lock_free {as : List (Action α)} (hP : ∀ a ∈ as, ∀ p, a.producer = some p → p ∈ P)
    (h : (machine α).run s as = some t) :
    as.countP Action.byProducer + (3 * P.card + 1) * s.claims.length ≤
      (3 * P.card + 1) * t.claims.length + 3 * as.countP Action.spurious + 4 * P.card := by
  have hstep : ∀ u a v, True → (∀ p, Action.producer a = some p → p ∈ P) → (machine α).step u a = some v →
      True ∧ (if a.byProducer then 1 else 0) + State.credit P v + (3 * P.card + 1) * u.claims.length ≤
        State.credit P u + (if a.spurious then 3 else 0) + (3 * P.card + 1) * v.claims.length :=
    fun u a v _ ha huv => ⟨trivial, step_credit ha huv⟩
  have hrun := (run_amortized (fun a => ∀ p, Action.producer a = some p → p ∈ P)
    (fun a => if a.byProducer then 1 else 0) (fun a => if a.spurious then 3 else 0) (State.credit P)
    (fun u => (3 * P.card + 1) * u.claims.length) hstep as trivial hP h).2
  have hinit : s.credit P ≤ P.card * 4 :=
    Finset.sum_le_card_nsmul P _ 4 fun p _ => Producer.credit_le_four _ _
  rw [sum_map_ite, sum_map_ite] at hrun
  omega

end

/-- Two producers load the same cursor: one claims, the other has to load again. -/
theorem push_lock_free_two : ∃ t : State Char,
    (machine Char).run State.init [.call 0 true 'a', .call 1 true 'b', .load 0, .load 1, .exchange 0 false,
      .exchange 1 false] = some t ∧ t.claims.length = 1 ∧
    6 + (3 * 2 + 1) * 0 ≤ (3 * 2 + 1) * t.claims.length + 3 * 0 + 4 * 2 := by
  obtain ⟨t, ht, hlen⟩ : ∃ t : State Char, (machine Char).run State.init [.call 0 true 'a', .call 1 true 'b',
      .load 0, .load 1, .exchange 0 false, .exchange 1 false] = some t ∧ t.claims.length = 1 :=
    ⟨_, rfl, rfl⟩
  have hP : ∀ a ∈ [.call 0 true 'a', .call 1 true 'b', .load 0, .load 1, .exchange 0 false,
      .exchange 1 false], ∀ p, Action.producer (α := Char) a = some p → p ∈ ({0, 1} : Finset ℕ) := by
    simp [Action.producer]
  exact ⟨t, ht, hlen, push_lock_free hP ht⟩

end Interleaved
end Buffer
end Zerohop
