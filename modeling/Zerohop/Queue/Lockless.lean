/-
# The counted queue

`LocklessQueue` of `queue.rs`, each call alone; a clone is the same queue. The
lock-free queue under it is a first-in-first-out list. The counter is a 64-bit
word that starts at `baseline` and is taken down before the pop is known to
succeed.

A dequeue of the empty queue leaves the counter one below `baseline`, and the
reset, which looks at the value before, comes with the next such dequeue or
with `len` (`below_baseline_iff`). An enqueue in between is not seen by the count
(`enqueue_uncounted`); without one the count is exact (`counter_exact_iff`).
-/
import Zerohop.Lib.Machine
import Zerohop.Lib.Word

namespace Zerohop
namespace Queue

/-- `BASELINE`. -/
def baseline : ℕ := 1000000

/-- `LocklessQueue`. -/
structure LocklessQueue (α : Type*) where
  count : Option ℕ
  q : List α

variable {α : Type*}

namespace LocklessQueue

/-- `new`. -/
def new : LocklessQueue α := ⟨none, []⟩

/-- `new_with_counter`. -/
def newWithCounter : LocklessQueue α := ⟨some baseline, []⟩

/-- `q.pop()`. -/
def pop (queue : LocklessQueue α) : LocklessQueue α × Option α :=
  match queue.q with
  | [] => (queue, none)
  | x :: q => ({ queue with q }, some x)

def enqueue (queue : LocklessQueue α) (value : α) : LocklessQueue α :=
  let queue := { queue with q := queue.q ++ [value] }
  match queue.count with
  | some count => { queue with count := some (wrappingSucc count) }
  | none => queue

def dequeue (queue : LocklessQueue α) : LocklessQueue α × Option α :=
  match queue.count with
  | some oldValue =>
    let queue := { queue with count := some (wrappingPred oldValue) }
    if oldValue < baseline then { queue with count := some baseline }.pop else queue.pop
  | none => queue.pop

def len (queue : LocklessQueue α) : LocklessQueue α × Option ℕ :=
  match queue.count with
  | some count =>
    if count < baseline then ({ queue with count := some baseline }, some 0)
    else (queue, some (count - baseline))
  | none => (queue, none)

def isEmpty (queue : LocklessQueue α) : LocklessQueue α × Bool :=
  match queue.len with
  | (queue, some n) => (queue, n == 0)
  | (queue, none) => (queue, false)

/-! ### Without a counter -/

@[simp] theorem dequeue_uncounted_nil :
    (⟨none, []⟩ : LocklessQueue α).dequeue = (⟨none, []⟩, none) := rfl

@[simp] theorem dequeue_uncounted_cons (x : α) (q : List α) :
    (⟨none, x :: q⟩ : LocklessQueue α).dequeue = (⟨none, q⟩, some x) := rfl

/-! ### The counter -/

inductive Call (α : Type*) where
  | enqueue (value : α)
  | dequeue
  | len
  | isEmpty

/-- The queue after a call. -/
def call (queue : LocklessQueue α) : Call α → LocklessQueue α
  | .enqueue value => queue.enqueue value
  | .dequeue => queue.dequeue.1
  | .len => queue.len.1
  | .isEmpty => queue.isEmpty.1

/-- What `len` and `is_empty` would now answer is right. -/
def Exact (queue : LocklessQueue α) : Prop :=
  queue.len.2 = some queue.q.length ∧ (queue.isEmpty.2 = true ↔ queue.q = [])

/-- The call is not an enqueue that finds the counter below `baseline`, nor one
that takes it past 64 bits. -/
def Counted (queue : LocklessQueue α) : Call α → Prop
  | .enqueue _ => ∀ count ∈ queue.count, baseline ≤ count ∧ count + 1 < 2 ^ 64
  | _ => True

/-- The counter shows the number of elements, or the queue is empty and it is
one below. -/
def Level (queue : LocklessQueue α) : Prop :=
  ∃ count < 2 ^ 64, queue.count = some count ∧
    (count = baseline + queue.q.length ∨ queue.q = [] ∧ count + 1 = baseline)

theorem level_newWithCounter : (newWithCounter : LocklessQueue α).Level :=
  ⟨baseline, by decide, rfl, Or.inl rfl⟩

theorem isEmpty_fst (queue : LocklessQueue α) : queue.isEmpty.1 = queue.len.1 := by
  unfold isEmpty
  split <;> simp_all

theorem exact_iff {q : List α} {count : ℕ} : (⟨some count, q⟩ : LocklessQueue α).Exact ↔
    count - baseline = q.length := by
  unfold Exact isEmpty len
  simp only
  split
  · rename_i hlt
    simp only [Option.some.injEq, beq_self_eq_true, true_iff]
    constructor
    · rintro ⟨hlen, -⟩
      omega
    · intro h
      have h0 : q.length = 0 := by omega
      exact ⟨h0.symm, List.length_eq_zero_iff.mp h0⟩
  · rename_i hge
    simp only [Option.some.injEq, beq_iff_eq]
    apply and_iff_left_of_imp
    intro h
    rw [h, List.length_eq_zero_iff]

theorem Level.exact {queue : LocklessQueue α} (h : queue.Level) : queue.Exact := by
  obtain ⟨count, q⟩ := queue
  obtain ⟨c, -, rfl, hc⟩ := h
  rw [exact_iff]
  simp only at hc
  rcases hc with hc | ⟨rfl, hc⟩
  · rw [hc, Nat.add_sub_cancel_left]
  · rw [List.length_nil]
    omega

/-- **One call** that is counted keeps the counter level: what a dequeue of the
empty queue takes too much, the next call but an enqueue gives back. -/
theorem Level.call {queue : LocklessQueue α} (h : queue.Level) {call : Call α}
    (hc : queue.Counted call) : (queue.call call).Level := by
  obtain ⟨count, q⟩ := queue
  obtain ⟨c, hlt, rfl, hcount⟩ := h
  simp only at hcount
  have hbase : 0 < baseline := by decide
  have hlen : (⟨some c, q⟩ : LocklessQueue α).len.1.Level := by
    unfold len
    simp only
    split
    · rename_i hlow
      have hq : q = [] := by
        rcases hcount with hcount | ⟨hq, -⟩
        · omega
        · exact hq
      exact ⟨baseline, by decide, rfl, Or.inl (by rw [hq]; rfl)⟩
    · exact ⟨c, hlt, rfl, hcount⟩
  cases call with
  | enqueue value =>
    obtain ⟨hge, hroom⟩ := hc c rfl
    rcases hcount with hcount | ⟨-, hcount⟩
    · refine ⟨wrappingSucc c, Nat.mod_lt _ (by decide), rfl, Or.inl ?_⟩
      rw [wrappingSucc_of_lt hroom, hcount]
      simp [LocklessQueue.call, enqueue, Nat.add_assoc]
    · omega
  | dequeue =>
    rcases hcount with hcount | ⟨rfl, hcount⟩
    · have hge : ¬ c < baseline := by omega
      have hdec : wrappingPred c = c - 1 := wrappingPred_of_pos (by omega) hlt
      simp only [LocklessQueue.call, dequeue, if_neg hge, hdec]
      cases q with
      | nil =>
        rw [List.length_nil, Nat.add_zero] at hcount
        exact ⟨c - 1, by omega, rfl, Or.inr ⟨rfl, by omega⟩⟩
      | cons x q =>
        rw [List.length_cons] at hcount
        refine ⟨c - 1, by omega, rfl, Or.inl ?_⟩
        simp only [pop]
        omega
    · have hlow : c < baseline := by omega
      simp only [LocklessQueue.call, dequeue, if_pos hlow]
      exact ⟨baseline, by decide, rfl, Or.inl rfl⟩
  | len => exact hlen
  | isEmpty =>
    rw [LocklessQueue.call, isEmpty_fst]
    exact hlen

/-- An enqueue that is not counted makes the count wrong at once. -/
theorem Level.counted_of_exact {queue : LocklessQueue α} (h : queue.Level) {call : Call α}
    (he : (queue.call call).Exact) : queue.Counted call := by
  obtain ⟨count, q⟩ := queue
  obtain ⟨c, hlt, rfl, hcount⟩ := h
  simp only at hcount
  cases call with
  | enqueue value =>
    intro c' hc'
    obtain rfl : c = c' := Option.some.inj hc'
    have he' : wrappingSucc c - baseline = (q ++ [value]).length := exact_iff.mp he
    rw [List.length_append, List.length_singleton] at he'
    by_cases hroom : c + 1 < 2 ^ 64
    · rw [wrappingSucc_of_lt hroom] at he'
      exact ⟨by omega, hroom⟩
    · have hwrap : c + 1 = 2 ^ 64 := by omega
      rw [wrappingSucc, hwrap, Nat.mod_self] at he'
      omega
  | _ => trivial

/-! ### When the counter is below its baseline -/

/-- Whether a dequeue of the empty queue is still to be made up for: each one
turns it over, `len` and `is_empty` clear it. -/
def owes (queue : LocklessQueue α) (owing : Bool) : Call α → Bool
  | .enqueue _ => owing
  | .dequeue => if queue.q.isEmpty then !owing else owing
  | .len => false
  | .isEmpty => false

/-- The same over a list of calls. -/
def owing : LocklessQueue α → Bool → List (Call α) → Bool
  | _, o, [] => o
  | queue, o, c :: calls => owing (queue.call c) (queue.owes o c) calls

/-- The counter is below `baseline` as long as something is owed. -/
def Owed (queue : LocklessQueue α) (owing : Bool) : Prop :=
  ∀ count ∈ queue.count, count < baseline ↔ owing = true

theorem Level.owed_len {queue : LocklessQueue α} (h : queue.Level) : queue.len.1.Owed false := by
  obtain ⟨count, q⟩ := queue
  obtain ⟨c, -, rfl, -⟩ := h
  unfold len
  simp only
  split
  · rintro _ ⟨⟩
    exact iff_of_false (Nat.lt_irrefl _) Bool.false_ne_true
  · rename_i hge
    rintro _ ⟨⟩
    exact iff_of_false hge Bool.false_ne_true

/-- **One call** that is counted. -/
theorem Level.owed {queue : LocklessQueue α} (h : queue.Level) {o : Bool} (ho : queue.Owed o)
    {call : Call α} (hc : queue.Counted call) : (queue.call call).Owed (queue.owes o call) := by
  have hlen := h.owed_len
  obtain ⟨count, q⟩ := queue
  obtain ⟨c, hlt, rfl, hcount⟩ := h
  simp only at hcount
  have hbelow : c < baseline ↔ o = true := ho c rfl
  have hbase : 0 < baseline := by decide
  cases call with
  | enqueue value =>
    obtain ⟨hge, hroom⟩ := hc c rfl
    rintro _ ⟨⟩
    rw [wrappingSucc_of_lt hroom, owes, ← hbelow]
    exact iff_of_false (by omega) (by omega)
  | dequeue =>
    rintro d hd
    by_cases hlow : c < baseline
    · -- the reset makes up for it, and the queue is empty
      have hq : q = [] := by
        rcases hcount with hcount | ⟨hq, -⟩
        · omega
        · exact hq
      subst hq
      simp only [LocklessQueue.call, dequeue, if_pos hlow, pop] at hd
      cases hd
      simp [owes, hbelow.mp hlow]
    · have hdec : wrappingPred c = c - 1 := wrappingPred_of_pos (by omega) hlt
      have hno : o = false := by simpa using mt hbelow.mpr hlow
      simp only [LocklessQueue.call, dequeue, if_neg hlow, hdec] at hd
      cases q with
      | nil =>
        cases hd
        simp only [List.length_nil] at hcount
        simp only [owes, hno, List.isEmpty_nil, if_true, Bool.not_false, iff_true]
        omega
      | cons x q =>
        cases hd
        simp only [List.length_cons, reduceCtorEq, false_and, or_false] at hcount
        simp only [owes, hno, List.isEmpty_cons, Bool.false_eq_true, if_false, iff_false]
        omega
  | len => exact hlen
  | isEmpty =>
    rw [LocklessQueue.call, isEmpty_fst]
    exact hlen

/-- **The counter is below `baseline`** from a dequeue of the empty queue up to
the next one, or the next `len` or `is_empty`, as long as every enqueue is counted. -/
theorem below_baseline_iff : ∀ (calls : List (Call α)) {queue : LocklessQueue α} {o : Bool},
    queue.Level → queue.Owed o →
    (∀ before c, before ++ [c] <+: calls → (before.foldl call queue).Counted c) →
    (calls.foldl call queue).Owed (owing queue o calls)
  | [], _, _, _, ho, _ => ho
  | c :: calls, queue, o, h, ho, hall => by
    have hc : queue.Counted c := hall [] c ((List.prefix_cons_inj c).mpr List.nil_prefix)
    refine below_baseline_iff calls (h.call hc) (h.owed ho hc) ?_
    intro before d hd
    exact hall (c :: before) d ((List.prefix_cons_inj c).mpr hd)

/-- **When the counter is exact.** After every prefix of a list of calls `len`
and `is_empty` are right, exactly if no enqueue of the list finds the counter
below `baseline`, or at the end of its range. -/
theorem counter_exact_iff (calls : List (Call α)) :
    (∀ before, before <+: calls → (before.foldl call newWithCounter).Exact) ↔
      ∀ before c, before ++ [c] <+: calls → (before.foldl call newWithCounter).Counted c :=
  forall_prefix_iff (f := call) (I := Level) (P := Exact) (fun _ => Level.exact) (fun _ _ h hc => h.call hc)
    (fun _ _ h he => h.counted_of_exact he) calls level_newWithCounter

/-- **A dequeue of the empty queue, then an enqueue**: one element is queued,
`len` answers 0 and `is_empty` true. -/
theorem enqueue_uncounted : ∃ queue,
    [Call.dequeue, .enqueue 'a'].foldl call newWithCounter = queue ∧ queue.q = ['a'] ∧
      queue.len.2 = some 0 ∧ queue.isEmpty.2 = true ∧ ¬ queue.Exact := by
  refine ⟨⟨some baseline, ['a']⟩, rfl, rfl, rfl, rfl, ?_⟩
  rw [exact_iff]
  decide

end LocklessQueue

end Queue
end Zerohop
