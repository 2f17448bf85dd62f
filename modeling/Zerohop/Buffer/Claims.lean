/-
# Sequence numbers under contention

Over the runs of the shared ring with fewer than 2^64 claims, in whatever
order the producers load and exchange: the numbers claimed are 0, 1, … up to
the cursor, each producer's own in the order of its calls, and a `try_push`
that returns `None` lost to a claim made after its load
(`sequence_numbers`). A loaded value can be arbitrarily stale; what ties it to
the cursor is the step of the run that loaded it (`loaded_since`).
-/
import Mathlib.Data.List.Induction
import Zerohop.Buffer.Interleaved

namespace Zerohop
namespace Buffer
namespace Interleaved

open Machine

variable {α : Type*}

/-- The producer that takes the step. -/
def Action.producer : Action α → Option ℕ
  | .call p _ _ => some p
  | .load p => some p
  | .exchange p _ => some p
  | .write p => some p
  | .consumer _ => none
  | .tryPop _ => none

/-! ### One step -/

theorem step_producers {s t : State α} {a : Action α} {p : ℕ} (hp : a.producer ≠ some p)
    (h : s.step a = some t) : t.producers p = s.producers p := by
  have hset : ∀ q x, q ≠ p → (s.setProducer q x).producers p = s.producers p := by
    intro q x hq
    simp [State.setProducer, Ne.symm hq]
  cases a with
  | call q weak tx =>
    obtain ⟨-, rfl⟩ := step_call h
    exact hset q _ (by simpa [Action.producer] using hp)
  | load q =>
    obtain ⟨weak, tx, -, rfl⟩ := step_load h
    exact hset q _ (by simpa [Action.producer] using hp)
  | exchange q spurious =>
    have hq : q ≠ p := by simpa [Action.producer] using hp
    obtain ⟨weak, tx, current, -, ⟨-, rfl⟩ | ⟨-, rfl⟩⟩ := step_exchange h
    · exact hset q _ hq
    · exact hset q _ hq
  | write q =>
    obtain ⟨tx, seq, -, rfl⟩ := step_write h
    exact hset q _ (by simpa [Action.producer] using hp)
  | consumer c =>
    obtain rfl := step_consumer h
    rfl
  | tryPop c =>
    obtain ⟨cons, -, rfl | ⟨-, rfl⟩⟩ := step_tryPop h <;> rfl

theorem step_claims {s t : State α} {a : Action α} (h : s.step a = some t) :
    ∃ more, t.claims = s.claims ++ more ∧ ∀ cl ∈ more, a.producer = some cl.producer := by
  have hsame : t.claims = s.claims →
      ∃ more, t.claims = s.claims ++ more ∧ ∀ cl ∈ more, a.producer = some cl.producer := by
    intro he
    exact ⟨[], by rw [he, List.append_nil], by simp⟩
  cases a with
  | call p weak tx =>
    obtain ⟨-, rfl⟩ := step_call h
    exact hsame rfl
  | load p =>
    obtain ⟨weak, tx, -, rfl⟩ := step_load h
    exact hsame rfl
  | exchange p spurious =>
    obtain ⟨weak, tx, current, -, ⟨-, rfl⟩ | ⟨-, rfl⟩⟩ := step_exchange h
    · exact ⟨[⟨p, current, tx⟩], rfl, by simp [Action.producer]⟩
    · exact hsame rfl
  | write p =>
    obtain ⟨tx, seq, -, rfl⟩ := step_write h
    exact hsame rfl
  | consumer c =>
    obtain rfl := step_consumer h
    exact hsame rfl
  | tryPop c =>
    obtain ⟨cons, -, rfl | ⟨-, rfl⟩⟩ := step_tryPop h <;> exact hsame rfl

theorem step_loaded {s t : State α} {a : Action α} {p : ℕ} {weak : Bool} {tx : α} {current : ℕ}
    (ha : a.producer = some p) (h : s.step a = some t) (hp : t.producers p = .loaded weak tx current) :
    a = .load p ∧ s.producers p = .loading weak tx ∧ s.ring.writeCursor = current := by
  cases a with
  | call q weak' tx' =>
    obtain rfl : q = p := Option.some.inj ha
    obtain ⟨-, rfl⟩ := step_call h
    simp [State.setProducer] at hp
  | load q =>
    obtain rfl : q = p := Option.some.inj ha
    obtain ⟨weak', tx', hq, rfl⟩ := step_load h
    simp only [State.setProducer, Function.update_self, Producer.loaded.injEq] at hp
    obtain ⟨rfl, rfl, hc⟩ := hp
    exact ⟨rfl, hq, hc⟩
  | exchange q spurious =>
    obtain rfl : q = p := Option.some.inj ha
    obtain ⟨weak', tx', current', -, ⟨-, rfl⟩ | ⟨-, rfl⟩⟩ := step_exchange h
    · simp [State.setProducer] at hp
    · simp only [State.setProducer, Function.update_self] at hp
      split at hp <;> cases hp
  | write q =>
    obtain rfl : q = p := Option.some.inj ha
    obtain ⟨tx', seq, -, rfl⟩ := step_write h
    simp [State.setProducer] at hp
  | consumer c => cases ha
  | tryPop c => cases ha

/-! ### Over a run -/

/-- A step after which there are fewer than 2^64 claims keeps the numbering:
only a successful exchange needs room for its claim. -/
theorem Numbered.step_of_lt {s t : State α} {a : Action α} (h : Numbered s)
    (hb : t.claims.length < 2 ^ 64) (hs : s.step a = some t) : Numbered t := by
  cases a with
  | exchange p spurious =>
    obtain ⟨weak, tx, current, -, ⟨rfl, rfl⟩ | ⟨-, rfl⟩⟩ := step_exchange hs
    · have hroom : s.ring.writeCursor + 1 < 2 ^ 64 := by
        rw [h.cursor]
        simpa using hb
      exact h.claim p tx hroom
    · exact h.setProducer p _ (by split <;> simp) (by split <;> simp)
  | _ =>
    refine h.step ?_ hs
    trivial

theorem numbered_of_lt {s : State α} (h : (machine α).Reachable s) (hb : s.claims.length < 2 ^ 64) :
    Numbered s := by
  induction h with
  | init => exact Numbered.init
  | step a _ _ hs ih =>
    obtain ⟨more, hmore, -⟩ := step_claims hs
    have hlen := congrArg List.length hmore
    rw [List.length_append] at hlen
    exact (ih (by omega)).step_of_lt hb hs

theorem Numbered.claimed_seqs {s : State α} (h : Numbered s) :
    s.claims.map Claim.seq = List.range s.ring.writeCursor := by
  apply List.ext_getElem
  · rw [List.length_map, List.length_range, h.cursor]
  · intro i h1 h2
    have hi : i < s.claims.length := by simpa using h1
    rw [List.getElem_map, List.getElem_range]
    exact h.seq i _ (List.getElem?_eq_getElem hi)

/-- The claims of one producer, in the order of its calls. -/
def claimsOf (s : State α) (p : ℕ) : List (Claim α) := s.claims.filter fun cl => cl.producer == p

theorem Numbered.increasing {s : State α} (h : Numbered s) (p : ℕ) :
    ((claimsOf s p).map Claim.seq).Pairwise (· < ·) := by
  have hsub : ((claimsOf s p).map Claim.seq).Sublist (s.claims.map Claim.seq) :=
    List.filter_sublist.map _
  rw [h.claimed_seqs] at hsub
  exact List.pairwise_lt_range.sublist hsub

/-- Where a loaded value comes from: the load after which its producer has not
moved, and the claims of others since. -/
theorem loaded_since {p : ℕ} {weak : Bool} {tx : α} {current : ℕ} (acts : List (Action α)) :
    ∀ {s : State α}, (machine α).run State.init acts = some s →
      s.producers p = .loaded weak tx current →
      ∃ before after s₀ more, acts = before ++ .load p :: after ∧
        (∀ a ∈ after, a.producer ≠ some p) ∧
        (machine α).run State.init before = some s₀ ∧ s₀.ring.writeCursor = current ∧
        s.claims = s₀.claims ++ more ∧ ∀ cl ∈ more, cl.producer ≠ p := by
  induction acts using List.reverseRecOn with
  | nil =>
    intro s hrun hp
    obtain rfl : State.init = s := Option.some.inj hrun
    cases hp
  | append_singleton as a ih =>
    intro s hrun hp
    obtain ⟨u, hu, hs⟩ := run_concat.mp hrun
    obtain ⟨more, hmore, hby⟩ := step_claims hs
    by_cases ha : a.producer = some p
    · -- its last step is the load itself
      obtain ⟨rfl, -, hc⟩ := step_loaded ha hs hp
      obtain ⟨weak', tx', -, rfl⟩ := step_load hs
      exact ⟨as, [], u, [], rfl, by simp, hu, hc, (List.append_nil _).symm, by simp⟩
    · rw [step_producers ha hs] at hp
      obtain ⟨before, after, s₀, others, rfl, hafter, hrun₀, hc, hcl, hne⟩ := ih hu hp
      refine ⟨before, after ++ [a], s₀, others ++ more, by simp, ?_, hrun₀, hc, ?_, ?_⟩
      · intro b hb
        rcases List.mem_append.mp hb with hb | hb
        · exact hafter b hb
        · rwa [List.mem_singleton.mp hb]
      · rw [hmore, hcl, List.append_assoc]
      · intro cl hmem
        rcases List.mem_append.mp hmem with hmem | hmem
        · exact hne cl hmem
        · intro hcp
          exact ha ((hby cl hmem).trans (congrArg some hcp))

theorem step_exchange_idle {s t : State α} {p : ℕ} {spurious weak : Bool} {tx : α} {current : ℕ}
    (hp : s.producers p = .loaded weak tx current) (h : s.step (.exchange p spurious) = some t)
    (hidle : t.producers p = .idle) :
    s.ring.writeCursor ≠ current ∧ t.ring = s.ring ∧ t.claims = s.claims := by
  obtain ⟨weak', tx', current', hp', ⟨-, rfl⟩ | ⟨hne, rfl⟩⟩ := step_exchange h
  · simp [State.setProducer] at hidle
  · rw [hp] at hp'
    obtain ⟨rfl, rfl, rfl⟩ := Producer.loaded.inj hp'
    refine ⟨?_, rfl, rfl⟩
    rcases hne with rfl | hne
    · simp [State.setProducer] at hidle
    · exact hne

/-- The `try_push` of producer `p`, about to exchange after the schedule
`acts`, loaded at a step since which `p` has not moved and others have made at
least one claim. -/
def LostToAnother (acts : List (Action α)) (s : State α) (p : ℕ) : Prop :=
  ∃ before after s₀ more, acts = before ++ .load p :: after ∧ (∀ a ∈ after, a.producer ≠ some p) ∧
    (machine α).run State.init before = some s₀ ∧
    s.claims = s₀.claims ++ more ∧ more ≠ [] ∧ ∀ cl ∈ more, cl.producer ≠ p

/-- **Sequence numbers are unique and gap-free**, and a `try_push` gives up
only to another claim, changing nothing. -/
theorem sequence_numbers {acts : List (Action α)} {s : State α}
    (h : (machine α).run State.init acts = some s) (hb : s.claims.length < 2 ^ 64) :
    (s.claims.map Claim.seq).Nodup ∧
    s.claims.map Claim.seq = List.range s.ring.writeCursor ∧
    (∀ p, ((claimsOf s p).map Claim.seq).Pairwise (· < ·)) ∧
    ∀ p tx current spurious t, s.producers p = .loaded false tx current →
      s.step (.exchange p spurious) = some t → t.producers p = .idle →
      t.ring = s.ring ∧ t.claims = s.claims ∧ LostToAnother acts s p := by
  have hreach : (machine α).Reachable s := reachable_of_run h
  have hnum : Numbered s := numbered_of_lt hreach hb
  refine ⟨?_, hnum.claimed_seqs, hnum.increasing, ?_⟩
  · rw [hnum.claimed_seqs]
    exact List.nodup_range
  · intro p tx current spurious t hp hs hidle
    obtain ⟨hne, hring, hclaims⟩ := step_exchange_idle hp hs hidle
    obtain ⟨before, after, s₀, more, hacts, hafter, hrun₀, hc, hcl, hothers⟩ := loaded_since acts h hp
    refine ⟨hring, hclaims, before, after, s₀, more, hacts, hafter, hrun₀, hcl, ?_, hothers⟩
    -- without a claim in between the cursor would still be the loaded one
    intro hnil
    rw [hnil, List.append_nil] at hcl
    have hnum₀ : Numbered s₀ := numbered_of_lt (reachable_of_run hrun₀) (hcl ▸ hb)
    exact hne (by rw [hnum.cursor, hcl, ← hnum₀.cursor, hc])

/-- Two producers load 0; one claims, the `try_push` of the other gives up. -/
theorem sequence_numbers_contended : ∃ s,
    (machine Char).run State.init [.call 0 true 'a', .load 0, .call 1 false 'b', .load 1,
      .exchange 0 false] = some s ∧
    s.claims.map Claim.seq = [0] ∧ (∃ t, s.step (.exchange 1 false) = some t ∧ t.producers 1 = .idle) ∧
    LostToAnother [.call 0 true 'a', .load 0, .call 1 false 'b', .load 1, .exchange 0 false] s 1 := by
  have hrun : ∃ s, (machine Char).run State.init [.call 0 true 'a', .load 0, .call 1 false 'b', .load 1,
      .exchange 0 false] = some s ∧ s.claims.map Claim.seq = [0] ∧ s.claims.length < 2 ^ 64 ∧
      s.producers 1 = .loaded false 'b' 0 ∧
      ∃ t, s.step (.exchange 1 false) = some t ∧ t.producers 1 = .idle :=
    ⟨_, rfl, rfl, (by decide : (1 : ℕ) < 2 ^ 64), rfl, _, rfl, rfl⟩
  obtain ⟨s, hs, hseq, hb, hp, t, ht, hidle⟩ := hrun
  exact ⟨s, hs, hseq, ⟨t, ht, hidle⟩,
    ((sequence_numbers hs hb).2.2.2 1 'b' 0 false t hp ht hidle).2.2⟩

end Interleaved
end Buffer
end Zerohop
