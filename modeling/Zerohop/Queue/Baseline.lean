/-
# The baseline of the counter

The counted queue in the hands of several threads: each access to the counter
and to the lock-free queue is one step, and between its steps a thread can be
overtaken by any others. A dequeue takes the counter down before it knows
whether there is an element, and stores `baseline` when the value it took down
was too low; `len` stores it when the value it loaded was.

A value below `baseline` sends the dequeue that finds it to its store, and each
thread can be on its way to only one, so below `baseline - 1` the counter is
never further down than the threads on their way (`Inv.low`). With fewer
threads than `baseline` the unsigned counter does not wrap.

Key definitions: `step`, `machine`, `State.caught`, `Inv`.
Key theorem: `baseline_prevents_wrap`.
-/
import Zerohop.Lib.Parties
import Zerohop.Queue.Lockless

namespace Zerohop
namespace Queue
namespace Baseline

open Machine Parties

/-- Where a thread stands in its call. -/
inductive Thread where
  | idle
  /-- `enqueue` has pushed. -/
  | pushed
  /-- `dequeue` has taken down a value below `BASELINE`. -/
  | resetting
  /-- `dequeue` is about to pop. -/
  | popping
  /-- `len` has loaded a value below `BASELINE`. -/
  | lenResetting
deriving DecidableEq, Repr

/-- The counter and the queue, the threads, and what they have done: pushes,
`fetch_add`s, what `dequeue` and `len` have returned. -/
structure State (n : ℕ) (α : Type*) where
  count : ℕ
  q : List α
  threads : Fin n → Thread
  pushes : ℕ
  adds : ℕ
  dequeued : List (Option α)
  lens : List ℕ

inductive Action (n : ℕ) (α : Type*) where
  | push (i : Fin n) (value : α)
  | fetchAdd (i : Fin n)
  | fetchSub (i : Fin n)
  | store (i : Fin n)
  | pop (i : Fin n)
  | load (i : Fin n)
  | lenStore (i : Fin n)

variable {n : ℕ} {α : Type*}

namespace State

def init : State n α := ⟨baseline, [], fun _ => .idle, 0, 0, [], []⟩

def move (s : State n α) (i : Fin n) (place : Thread) : State n α :=
  { s with threads := Function.update s.threads i place }

/-- The dequeues that have taken down a value below `BASELINE` and not yet stored. -/
def caught (s : State n α) : ℕ := countIn s.threads .resetting

end State

/-- One atomic step of one thread. -/
def step (s : State n α) : Action n α → Option (State n α)
  | .push i value =>
    if s.threads i = .idle then
      some { s.move i .pushed with q := s.q ++ [value], pushes := s.pushes + 1 }
    else none
  | .fetchAdd i =>
    if s.threads i = .pushed then
      some { s.move i .idle with count := wrappingSucc s.count, adds := s.adds + 1 }
    else none
  | .fetchSub i =>
    if s.threads i = .idle then
      -- the value before the step decides
      some { s.move i (if s.count < baseline then .resetting else .popping) with
        count := wrappingPred s.count }
    else none
  | .store i =>
    if s.threads i = .resetting then some { s.move i .popping with count := baseline } else none
  | .pop i =>
    if s.threads i = .popping then
      some { s.move i .idle with q := s.q.tail, dequeued := s.dequeued ++ [s.q.head?] }
    else none
  | .load i =>
    if s.threads i = .idle then
      if s.count < baseline then some (s.move i .lenResetting)
      else some { s with lens := s.lens ++ [s.count - baseline] }
    else none
  | .lenStore i =>
    if s.threads i = .lenResetting then
      some { s.move i .idle with count := baseline, lens := s.lens ++ [0] }
    else none

def machine (n : ℕ) (α : Type*) : Machine (State n α) (Action n α) := ⟨State.init, step⟩

/-! ### A call that nothing interrupts -/

/-- The counted queue of a state. -/
def State.queue (s : State n α) : LocklessQueue α := ⟨some s.count, s.q⟩

/-- The steps of `dequeue`, by the value that it takes down. -/
def dequeueSteps (s : State n α) (i : Fin n) : List (Action n α) :=
  if s.count < baseline then [.fetchSub i, .store i, .pop i] else [.fetchSub i, .pop i]

/-- The steps of `len`, by the value that it loads. -/
def lenSteps (s : State n α) (i : Fin n) : List (Action n α) :=
  if s.count < baseline then [.load i, .lenStore i] else [.load i]

section

variable {s : State n α} {i : Fin n} (hi : s.threads i = .idle)
include hi

theorem enqueue_alone (value : α) :
    ((machine n α).run s [.push i value, .fetchAdd i]).map State.queue =
      some (s.queue.enqueue value) := by
  simp [run, machine, step, hi, State.move, State.queue, LocklessQueue.enqueue]

theorem dequeue_alone :
    ((machine n α).run s (dequeueSteps s i)).map (fun t => (t.queue, t.dequeued)) =
      some (s.queue.dequeue.1, s.dequeued ++ [s.queue.dequeue.2]) := by
  unfold dequeueSteps LocklessQueue.dequeue LocklessQueue.pop State.queue
  by_cases hlow : s.count < baseline
  · cases hq : s.q <;> simp [run, machine, step, hi, hlow, hq, State.move]
  · cases hq : s.q <;> simp [run, machine, step, hi, hlow, hq, State.move]

theorem len_alone :
    ((machine n α).run s (lenSteps s i)).map (fun t => (t.queue, t.lens)) =
      some (s.queue.len.1, s.lens ++ s.queue.len.2.toList) := by
  unfold lenSteps LocklessQueue.len State.queue
  by_cases hlow : s.count < baseline
  · simp [run, machine, step, hi, hlow, State.move]
  · simp [run, machine, step, hi, hlow]

end

/-! ### The invariant -/

/-- What the steps keep while fewer than 2^63 elements are pushed. -/
structure Inv (s : State n α) : Prop where
  low : baseline ≤ s.count + 1 + s.caught
  high : s.count ≤ baseline + s.adds
  uncounted : s.adds + countIn s.threads .pushed = s.pushes
  lens : ∀ r ∈ s.lens, r ≤ s.adds

theorem inv_init : Inv (State.init : State n α) where
  low := by
    have : baseline ≤ baseline + 1 := Nat.le_succ _
    exact this.trans (Nat.le_add_right _ _)
  high := Nat.le_refl _
  uncounted := by
    show 0 + countIn (fun _ : Fin n => Thread.idle) .pushed = 0
    rw [Nat.zero_add, countIn_eq_sum]
    exact Finset.sum_eq_zero fun _ _ => rfl
  lens := fun r hr => by cases hr

theorem countIn_move (s : State n α) (i : Fin n) (x p : Thread) :
    countIn (s.move i x).threads p + (if s.threads i = p then 1 else 0) =
      countIn s.threads p + if x = p then 1 else 0 :=
  countIn_update s.threads i x p

/-- **What a dequeue takes down is at least 1**: the thread is not among those caught. -/
theorem Inv.count_pos (hn : n ≤ 999999) {s : State n α} (h : Inv s) {i : Fin n}
    (hi : s.threads i = .idle) : 0 < s.count := by
  have hcaught : s.caught < n := countIn_lt (by rw [hi]; decide)
  have hlow := h.low
  have hbase : baseline = 1000000 := rfl
  omega

theorem Inv.moved {s t : State n α} (h : Inv s) {i : Fin n} {x y : Thread} (hi : s.threads i = x)
    (ht : t.threads = (s.move i y).threads)
    (hlow : ∀ c, c + (if x = .resetting then 1 else 0) = s.caught + (if y = .resetting then 1 else 0) →
      baseline ≤ t.count + 1 + c)
    (hhigh : t.count ≤ baseline + t.adds)
    (hcounted : t.adds + s.pushes + (if y = .pushed then 1 else 0) =
      s.adds + t.pushes + if x = .pushed then 1 else 0)
    (hlens : ∀ r ∈ t.lens, r ≤ t.adds) : Inv t := by
  subst hi
  have hcaught := countIn_move s i y .resetting
  have hpushed := countIn_move s i y .pushed
  rw [← ht] at hcaught hpushed
  have huncounted := h.uncounted
  exact ⟨hlow _ hcaught, hhigh, by omega, hlens⟩

/-- **One step** keeps the invariant. -/
theorem Inv.step (hn : n ≤ 999999) {s t : State n α} (h : Inv s) (hpushes : s.pushes < 2 ^ 63)
    {a : Action n α} (ha : Baseline.step s a = some t) : Inv t := by
  have hlow := h.low
  have hhigh := h.high
  have huncounted := h.uncounted
  have hbase : baseline = 1000000 := rfl
  unfold Baseline.step at ha
  cases a with
  | push i value =>
    simp only at ha
    split_ifs at ha with hi
    obtain rfl := Option.some.inj ha
    refine h.moved hi rfl ?_ hhigh rfl h.lens
    intro c hc
    rw [show c = s.caught from hc]
    exact hlow
  | fetchAdd i =>
    simp only at ha
    split_ifs at ha with hi
    have hroom : s.count + 1 < 2 ^ 64 := by omega
    rw [wrappingSucc_of_lt hroom] at ha
    obtain rfl := Option.some.inj ha
    refine h.moved hi rfl ?_ (Nat.succ_le_succ hhigh) ?_ fun r hr => (h.lens r hr).trans (Nat.le_succ _)
    · intro c hc
      rw [show c = s.caught from hc]
      show baseline ≤ s.count + 1 + 1 + s.caught
      omega
    · show s.adds + 1 + s.pushes + 0 = s.adds + s.pushes + 1
      omega
  | fetchSub i =>
    simp only at ha
    split_ifs at ha with hi hbelow
    · -- one more thread is caught
      have hpos := h.count_pos hn hi
      rw [wrappingPred_of_pos hpos (by omega)] at ha
      obtain rfl := Option.some.inj ha
      refine h.moved hi rfl ?_ ((Nat.sub_le _ _).trans hhigh) rfl h.lens
      intro c hc
      rw [show c = s.caught + 1 from hc]
      show baseline ≤ s.count - 1 + 1 + (s.caught + 1)
      omega
    · have hpos := h.count_pos hn hi
      rw [wrappingPred_of_pos hpos (by omega)] at ha
      obtain rfl := Option.some.inj ha
      refine h.moved hi rfl ?_ ((Nat.sub_le _ _).trans hhigh) rfl h.lens
      intro c _
      show baseline ≤ s.count - 1 + 1 + c
      omega
  | store i =>
    simp only at ha
    split_ifs at ha with hi
    obtain rfl := Option.some.inj ha
    refine h.moved hi rfl ?_ (Nat.le_add_right _ _) rfl h.lens
    intro c _
    show baseline ≤ baseline + 1 + c
    omega
  | pop i =>
    simp only at ha
    split_ifs at ha with hi
    obtain rfl := Option.some.inj ha
    refine h.moved hi rfl ?_ hhigh rfl h.lens
    intro c hc
    rw [show c = s.caught from hc]
    exact hlow
  | load i =>
    simp only at ha
    split_ifs at ha with hi hbelow
    · obtain rfl := Option.some.inj ha
      refine h.moved hi rfl ?_ hhigh rfl h.lens
      intro c hc
      rw [show c = s.caught from hc]
      exact hlow
    · -- the value that is reported
      obtain rfl := Option.some.inj ha
      refine ⟨hlow, hhigh, huncounted, ?_⟩
      intro r hr
      rcases List.mem_append.mp hr with hr | hr
      · exact h.lens r hr
      · rw [List.mem_singleton.mp hr]
        show s.count - baseline ≤ s.adds
        omega
  | lenStore i =>
    simp only at ha
    split_ifs at ha with hi
    obtain rfl := Option.some.inj ha
    refine h.moved hi rfl ?_ (Nat.le_add_right _ _) rfl ?_
    · intro c _
      show baseline ≤ baseline + 1 + c
      omega
    · intro r hr
      rcases List.mem_append.mp hr with hr | hr
      · exact h.lens r hr
      · rw [List.mem_singleton.mp hr]
        exact Nat.zero_le _

theorem pushes_le {s t : State n α} {a : Action n α} (ha : Baseline.step s a = some t) :
    s.pushes ≤ t.pushes := by
  unfold Baseline.step at ha
  cases a with
  | push i value =>
    simp only at ha
    split_ifs at ha
    obtain rfl := Option.some.inj ha
    exact Nat.le_succ _
  | _ =>
    simp only at ha
    split_ifs at ha
    all_goals
      obtain rfl := Option.some.inj ha
      exact Nat.le_refl _

theorem inv_of_reachable (hn : n ≤ 999999) {s : State n α} (h : (machine n α).Reachable s) :
    s.pushes < 2 ^ 63 → Inv s := by
  refine Reachable.invariant (I := fun s => s.pushes < 2 ^ 63 → Inv s) (fun _ => inv_init) ?_ h
  intro s a t ih ha ht
  have hs : s.pushes < 2 ^ 63 := (pushes_le ha).trans_lt ht
  exact (ih hs).step hn hs ha

/-- **The baseline keeps the counter from wrapping.** -/
theorem baseline_prevents_wrap (hn : n ≤ 999999) {s : State n α} (h : (machine n α).Reachable s)
    (hpushes : s.pushes < 2 ^ 63) :
    baseline - 1 - s.caught ≤ s.count ∧ s.count ≤ baseline + s.adds ∧ s.adds ≤ s.pushes ∧
      (∀ (i : Fin n) (t : State n α), step s (.fetchSub i) = some t →
        0 < s.count ∧ t.count + 1 = s.count) ∧
      ∀ r ∈ s.lens, r ≤ s.adds := by
  have hI := inv_of_reachable hn h hpushes
  have hlow := hI.low
  have huncounted := hI.uncounted
  refine ⟨by omega, hI.high, by omega, ?_, hI.lens⟩
  intro i t ht
  unfold step at ht
  simp only at ht
  have hi : s.threads i = .idle := by
    by_contra hne
    rw [if_neg hne] at ht
    cases ht
  have hpos := hI.count_pos hn hi
  have hroom : s.count < 2 ^ 64 := by
    have hhigh := hI.high
    have hbase : baseline = 1000000 := rfl
    omega
  rw [if_pos hi, wrappingPred_of_pos hpos hroom] at ht
  obtain rfl := Option.some.inj ht
  exact ⟨hpos, Nat.succ_pred_eq_of_pos hpos⟩

/-- Two dequeues of an empty queue, the second not yet at its store: the counter is as low as it can be. -/
theorem baseline_two_dequeues : ∃ s : State 1 ℕ, (machine 1 ℕ).Reachable s ∧ s.caught = 1 ∧
    s.count = baseline - 1 - s.caught ∧ s.count ≤ baseline + s.adds := by
  obtain ⟨s, hs⟩ : ∃ s, (machine 1 ℕ).run State.init [.fetchSub 0, .pop 0, .fetchSub 0] = some s :=
    ⟨_, rfl⟩
  have hcaught : ((machine 1 ℕ).run State.init [.fetchSub 0, .pop 0, .fetchSub 0]).map State.caught =
      some 1 := rfl
  have hcount : ((machine 1 ℕ).run State.init [.fetchSub 0, .pop 0, .fetchSub 0]).map State.count =
      some (baseline - 2) := rfl
  have hpushes : ((machine 1 ℕ).run State.init [.fetchSub 0, .pop 0, .fetchSub 0]).map State.pushes =
      some 0 := rfl
  rw [hs, Option.map_some, Option.some.injEq] at hcaught hcount hpushes
  have hreach : (machine 1 ℕ).Reachable s := reachable_of_run hs
  obtain ⟨hlow, hhigh, -⟩ := baseline_prevents_wrap (by decide) hreach (by rw [hpushes]; decide)
  refine ⟨s, hreach, hcaught, ?_, hhigh⟩
  rw [hcaught] at hlow ⊢
  exact hcount

end Baseline
end Queue
end Zerohop
