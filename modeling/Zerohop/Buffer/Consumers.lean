/-
# What a consumer sees under contention

Whatever the producers and the other consumers do, and whether or not the slots
it reads have been written: the sequence numbers that a consumer consumes
increase, and those from its creation on that it has passed over were lapped,
with a ring of later claims before them (`consumer_history`). A record beside
the machine keeps the cursor at which each consumer was created.

Key definitions: `recorded`, `seqsOf`.
-/
import Zerohop.Buffer.Claims
import Zerohop.Lib.Parties

namespace Zerohop
namespace Buffer
namespace Interleaved

open Window Machine

variable {α : Type*}

/-- A new consumer starts at the cursor. -/
def noteStart (s : State α) (a : Action α) (starts : ℕ → Option ℕ) : ℕ → Option ℕ :=
  match a with
  | .consumer c => Function.update starts c (some s.ring.writeCursor)
  | _ => starts

/-- The ring with the record of where its consumers started. -/
def recorded (α : Type*) : Machine (State α × (ℕ → Option ℕ)) (Action α) :=
  (machine α).observed (fun _ => none) noteStart

/-- The sequence numbers that consumer `c` has consumed, in their order. -/
def seqsOf (pops : List (Pop α)) (c : ℕ) : List ℕ :=
  (pops.filter fun pop => pop.consumer == c).map Pop.seq

/-- Every consumer follows the claims from where it started. -/
structure Following (s : State α) (starts : ℕ → Option ℕ) : Prop where
  absent : ∀ c, s.consumers c = none → seqsOf s.pops c = []
  present : ∀ c cons, s.consumers c = some cons → ∃ start, starts c = some start ∧
    Follows ringSize start cons.readCursor s.ring.writeCursor (seqsOf s.pops c)

theorem seqsOf_concat_self (pops : List (Pop α)) (c seq : ℕ) (slot : Option α) :
    seqsOf (pops ++ [⟨c, seq, slot⟩]) c = seqsOf pops c ++ [seq] := by
  simp [seqsOf]

theorem seqsOf_concat_ne (pops : List (Pop α)) {c c' : ℕ} (h : c ≠ c') (seq : ℕ) (slot : Option α) :
    seqsOf (pops ++ [⟨c, seq, slot⟩]) c' = seqsOf pops c' := by
  simp [seqsOf, h]

section

variable {s t : State α} {starts : ℕ → Option ℕ}

theorem Following.grow (h : Following s starts) (hc : t.consumers = s.consumers) (hp : t.pops = s.pops)
    (hw : s.ring.writeCursor ≤ t.ring.writeCursor) : Following t starts := by
  refine ⟨?_, ?_⟩
  · rw [hc, hp]
    exact h.absent
  · rw [hc, hp]
    intro c cons hcons
    obtain ⟨start, hstart, hf⟩ := h.present c cons hcons
    exact ⟨start, hstart, hf.grow hw⟩

/-- A new consumer starts at the cursor, where it has missed nothing. -/
theorem Following.consumer (h : Following s starts) {c : ℕ} (hnew : s.consumers c = none) :
    Following { s with consumers := Function.update s.consumers c (some s.ring.consumer) }
      (Function.update starts c (some s.ring.writeCursor)) := by
  refine ⟨?_, ?_⟩
  · intro c' hc'
    rcases Parties.update_eq_iff.mp hc' with ⟨rfl, hsome⟩ | ⟨-, hc'⟩
    · cases hsome
    · exact h.absent c' hc'
  · intro c' cons hc'
    rcases Parties.update_eq_iff.mp hc' with ⟨rfl, hsome⟩ | ⟨hne, hc'⟩
    · cases hsome
      refine ⟨s.ring.writeCursor, Function.update_self .., ?_⟩
      rw [h.absent c' hnew]
      exact Follows.begin ringSize s.ring.writeCursor
    · rw [Function.update_of_ne hne]
      exact h.present c' cons hc'

theorem Following.pop (h : Following s starts) (hw : s.ring.writeCursor < 2 ^ 64) {c : ℕ} {cons : Consumer}
    (hc : s.consumers c = some cons) (hlt : cons.readCursor < s.ring.writeCursor) (slot : Option α) :
    Following { s with
      consumers := Function.update s.consumers c
        (some ⟨wrappingSucc (next ringSize s.ring.writeCursor cons.readCursor)⟩)
      pops := s.pops ++ [⟨c, wrappingSucc (next ringSize s.ring.writeCursor cons.readCursor) - 1, slot⟩] }
      starts := by
  obtain ⟨start, hstart, hf⟩ := h.present c cons hc
  have hread := hf.read hlt
  have hsucc : wrappingSucc (next ringSize s.ring.writeCursor cons.readCursor) =
      next ringSize s.ring.writeCursor cons.readCursor + 1 :=
    wrappingSucc_of_lt (Nat.lt_of_le_of_lt hread.le hw)
  rw [hsucc, Nat.add_sub_cancel]
  refine ⟨?_, ?_⟩
  · intro c' hc'
    rcases Parties.update_eq_iff.mp hc' with ⟨rfl, hsome⟩ | ⟨hne, hc'⟩
    · cases hsome
    · rw [seqsOf_concat_ne _ hne.symm]
      exact h.absent c' hc'
  · intro c' cons' hc'
    rcases Parties.update_eq_iff.mp hc' with ⟨rfl, hsome⟩ | ⟨hne, hc'⟩
    · cases hsome
      rw [seqsOf_concat_self]
      exact ⟨start, hstart, hread⟩
    · rw [seqsOf_concat_ne _ hne.symm]
      exact h.present c' cons' hc'

/-- Only an exchange moves the cursor, and it moves it up. -/
theorem Numbered.cursor_le {a : Action α} (h : Numbered s) (hb : t.claims.length < 2 ^ 64)
    (hs : s.step a = some t) : s.ring.writeCursor ≤ t.ring.writeCursor := by
  obtain ⟨more, hmore, -⟩ := step_claims hs
  rw [h.cursor, (h.step_of_lt hb hs).cursor, hmore, List.length_append]
  exact Nat.le_add_right ..

theorem Following.step {a : Action α} (h : Following s starts) (hn : Numbered s)
    (hb : t.claims.length < 2 ^ 64) (hs : s.step a = some t) : Following t (noteStart s a starts) := by
  have hcursor := hn.cursor_le hb hs
  cases a with
  | call p weak tx =>
    obtain ⟨-, rfl⟩ := step_call hs
    exact h.grow rfl rfl hcursor
  | load p =>
    obtain ⟨weak, tx, -, rfl⟩ := step_load hs
    exact h.grow rfl rfl hcursor
  | exchange p spurious =>
    obtain ⟨weak, tx, current, -, ⟨-, rfl⟩ | ⟨-, rfl⟩⟩ := step_exchange hs
    · exact h.grow rfl rfl hcursor
    · exact h.grow rfl rfl hcursor
  | write p =>
    obtain ⟨tx, seq, -, rfl⟩ := step_write hs
    exact h.grow rfl rfl hcursor
  | consumer c =>
    have hnew : s.consumers c = none := by
      simp only [State.step] at hs
      split at hs
      · assumption
      · cases hs
    obtain rfl := step_consumer hs
    exact h.consumer hnew
  | tryPop c =>
    obtain ⟨cons, hc, rfl | ⟨hlt, rfl⟩⟩ := step_tryPop hs
    · rw [← hc, Function.update_eq_self]
      exact h
    · refine h.pop ?_ hc hlt _
      rw [hn.cursor]
      exact hb

theorem following_of_lt (h : (recorded α).Reachable (s, starts)) (hb : s.claims.length < 2 ^ 64) :
    Following s starts := by
  suffices ∀ p, (recorded α).Reachable p → p.1.claims.length < 2 ^ 64 → Following p.1 p.2 from
    this (s, starts) h hb
  intro p hp
  induction hp with
  | init => exact fun _ => ⟨fun _ _ => rfl, fun _ _ hc => by cases hc⟩
  | @step p q a hr _ hs ih =>
    intro hb
    obtain ⟨hstep, hnote⟩ := observed_step_eq_some.mp hs
    obtain ⟨more, hmore, -⟩ := step_claims hstep
    have hlt : p.1.claims.length < 2 ^ 64 := by
      rw [hmore, List.length_append] at hb
      omega
    have hn : Numbered p.1 := numbered_of_lt (reachable_of_observed hr) hlt
    rw [hnote]
    exact (ih hlt).step hn hb hstep

/-- **The history of a consumer**, in any run with fewer than 2^64 claims: the
numbers it has consumed increase; they were claimed and lie between its start
and its position; and any other number there is followed by a whole ring of
claims. -/
theorem consumer_history (h : (recorded α).Reachable (s, starts)) (hb : s.claims.length < 2 ^ 64)
    {c : ℕ} {cons : Consumer} (hc : s.consumers c = some cons) :
    ∃ start, starts c = some start ∧ start ≤ cons.readCursor ∧
      (seqsOf s.pops c).Pairwise (· < ·) ∧
      (∀ q ∈ seqsOf s.pops c, start ≤ q ∧ q < cons.readCursor ∧ ∃ cl ∈ s.claims, cl.seq = q) ∧
      ∀ q, start ≤ q → q < cons.readCursor →
        q ∈ seqsOf s.pops c ∨ ∃ cl ∈ s.claims, cl.seq = q + ringSize := by
  obtain ⟨start, hstart, hf⟩ := (following_of_lt h hb).present c cons hc
  have hn : Numbered s := numbered_of_lt (reachable_of_observed h) hb
  have hclaimed : ∀ q, q < s.ring.writeCursor → ∃ cl ∈ s.claims, cl.seq = q := by
    intro q hq
    rw [← List.mem_map, hn.claimed_seqs]
    exact List.mem_range.mpr hq
  refine ⟨start, hstart, hf.start_le, hf.increasing, ?_, ?_⟩
  · intro q hq
    obtain ⟨h1, h2⟩ := hf.range q hq
    exact ⟨h1, h2, hclaimed q (Nat.lt_of_lt_of_le h2 hf.le)⟩
  · intro q h1 h2
    exact (hf.missed q h1 h2).imp_right (hclaimed _)

end

/-- A consumer that pops a number which is claimed and not yet written. -/
theorem consumer_history_unwritten : ∃ (s : State Char) (starts : ℕ → Option ℕ),
    (recorded Char).Reachable (s, starts) ∧ s.consumers 0 = some ⟨1⟩ ∧
      ∃ start, starts 0 = some start ∧ (seqsOf s.pops 0).Pairwise (· < ·) ∧
        ∀ q, start ≤ q → q < 1 → q ∈ seqsOf s.pops 0 ∨ ∃ cl ∈ s.claims, cl.seq = q + ringSize := by
  obtain ⟨s, starts, hs, hc, hb⟩ : ∃ s starts, (recorded Char).run (recorded Char).init
      [.consumer 0, .call 0 true 'a', .load 0, .exchange 0 false, .tryPop 0] = some (s, starts) ∧
      s.consumers 0 = some ⟨1⟩ ∧ s.claims.length < 2 ^ 64 :=
    ⟨_, _, rfl, rfl, (by decide : (1 : ℕ) < 2 ^ 64)⟩
  have hr : (recorded Char).Reachable (s, starts) := reachable_of_run hs
  obtain ⟨start, hstart, -, hinc, -, hmissed⟩ := consumer_history hr hb hc
  exact ⟨s, starts, hr, hc, start, hstart, hinc, hmissed⟩

end Interleaved
end Buffer
end Zerohop
