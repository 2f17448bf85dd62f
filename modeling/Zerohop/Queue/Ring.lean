/-
# The ring of two queues

`QueueRing` and `QueueIterator` of `queue.rs`: the atomic accesses of each
call, and the calls made of them, each alone. A clone of the ring is the same
ring. The queues keep no counter. The index wraps at 2^64; what matters of it
is its parity, which changes with every dequeue.
-/
import Mathlib.Data.Fin.Basic
import Mathlib.Logic.Function.Basic
import Zerohop.Lib.Word
import Zerohop.Queue.Lockless

namespace Zerohop
namespace Queue

/-- `QueueRing`. -/
structure QueueRing (α : Type*) where
  nextI : ℕ
  lLen : Fin 2 → ℕ
  lQ : Fin 2 → LocklessQueue α

/-- `QueueIterator`; its queue is one of the ring's. -/
structure QueueIterator where
  len : ℕ
  safteyCount : ℕ
  q : Fin 2
deriving DecidableEq

/-- The queue of an index. -/
def queueIdx (i : ℕ) : Fin 2 := ⟨i % 2, Nat.mod_lt i (by decide)⟩

variable {α : Type*}

namespace QueueRing

/-- `default`. -/
def default : QueueRing α := ⟨0, fun _ => 0, fun _ => LocklessQueue.new⟩

/-! ### Atomic accesses -/

/-- The queue that `next_i` selects. -/
def selected (ring : QueueRing α) : Fin 2 := queueIdx ring.nextI

/-- The other one. -/
def drained (ring : QueueRing α) : Fin 2 := queueIdx (ring.nextI + 1)

/-- `l_len[k].fetch_add(1)`. -/
def countUp (ring : QueueRing α) (k : Fin 2) : QueueRing α :=
  { ring with lLen := Function.update ring.lLen k (wrappingSucc (ring.lLen k)) }

/-- `l_q[k].enqueue(value)`. -/
def push (ring : QueueRing α) (k : Fin 2) (value : α) : QueueRing α :=
  { ring with lQ := Function.update ring.lQ k ((ring.lQ k).enqueue value) }

/-- `next_i.fetch_add(1)`. -/
def advance (ring : QueueRing α) : QueueRing α := { ring with nextI := wrappingSucc ring.nextI }

/-- `l_len[k].swap(0)`. -/
def clearLen (ring : QueueRing α) (k : Fin 2) : QueueRing α :=
  { ring with lLen := Function.update ring.lLen k 0 }

/-- `q.dequeue()` on queue `k`. -/
def pop (ring : QueueRing α) (k : Fin 2) : QueueRing α × Option α :=
  let (queue, x) := (ring.lQ k).dequeue
  ({ ring with lQ := Function.update ring.lQ k queue }, x)

/-! ### Calls -/

/-- `enqueue`. -/
def enqueue (ring : QueueRing α) (value : α) : QueueRing α :=
  let k := ring.selected
  (ring.countUp k).push k value

/-- `dequeue`. -/
def dequeue (ring : QueueRing α) : QueueRing α × QueueIterator :=
  let oldK := ring.selected
  let length := ring.advance.lLen oldK
  (ring.advance.clearLen oldK, ⟨length, 0, oldK⟩)

end QueueRing

namespace QueueIterator

/-- The loop of `next` that retries. -/
def retry (iter : QueueIterator) : ℕ → QueueRing α → QueueRing α × Option α
  | 0, ring => (ring, none)
  | tries + 1, ring =>
    match ring.pop iter.q with
    | (ring, some x) => (ring, some x)
    | (ring, none) => iter.retry tries ring

/-- `next`. -/
def next (iter : QueueIterator) (ring : QueueRing α) : QueueRing α × QueueIterator × Option α :=
  match ring.pop iter.q with
  | (ring, some x) => (ring, { iter with safteyCount := wrappingSucc iter.safteyCount }, some x)
  | (ring, none) =>
    let (ring, x) := iter.retry 3 ring
    (ring, iter, x)

end QueueIterator

/-! ### The two queues -/

theorem queueIdx_succ_ne (i : ℕ) : queueIdx (i + 1) ≠ queueIdx i := by
  intro h
  have hmod : (i + 1) % 2 = i % 2 := congrArg Fin.val h
  omega

theorem queueIdx_add_two (i : ℕ) : queueIdx (i + 2) = queueIdx i := Fin.ext (Nat.add_mod_right i 2)

/-- The parity of the next index, also where the index wraps. -/
theorem queueIdx_wrappingSucc (i : ℕ) : queueIdx (wrappingSucc i) = queueIdx (i + 1) :=
  Fin.ext (wrappingSucc_mod_two i)

theorem eq_or_eq_of_ne {j k : Fin 2} (h : j ≠ k) (i : Fin 2) : i = j ∨ i = k := by
  omega

namespace QueueRing

theorem drained_ne_selected (ring : QueueRing α) : ring.drained ≠ ring.selected :=
  queueIdx_succ_ne ring.nextI

/-- A dequeue makes the queues change places. -/
@[simp] theorem selected_advance (ring : QueueRing α) : ring.advance.selected = ring.drained :=
  queueIdx_wrappingSucc ring.nextI

@[simp] theorem drained_advance (ring : QueueRing α) : ring.advance.drained = ring.selected := by
  have hparity := wrappingSucc_mod_two ring.nextI
  calc queueIdx (wrappingSucc ring.nextI + 1) = queueIdx (ring.nextI + 2) := by
        apply Fin.ext
        show (wrappingSucc ring.nextI + 1) % 2 = (ring.nextI + 2) % 2
        omega
    _ = queueIdx ring.nextI := queueIdx_add_two ring.nextI

/-- The items in queue `k`. -/
def items (ring : QueueRing α) (k : Fin 2) : List α := (ring.lQ k).q

/-- No queue has a counter. -/
def Uncounted (ring : QueueRing α) : Prop := ∀ k, (ring.lQ k).count = none

theorem uncounted_default : (default : QueueRing α).Uncounted := fun _ => rfl

@[simp] theorem items_clearLen (ring : QueueRing α) (j k : Fin 2) :
    (ring.clearLen k).items j = ring.items j := rfl

theorem Uncounted.lQ_eq {ring : QueueRing α} (h : ring.Uncounted) (k : Fin 2) :
    ring.lQ k = ⟨none, ring.items k⟩ := by
  rw [← h k]
  rfl

theorem Uncounted.push_eq {ring : QueueRing α} (h : ring.Uncounted) (k : Fin 2) (value : α) :
    ring.push k value =
      { ring with lQ := Function.update ring.lQ k ⟨none, ring.items k ++ [value]⟩ } := by
  rw [QueueRing.push, h.lQ_eq k]
  rfl

theorem Uncounted.items_push {ring : QueueRing α} (h : ring.Uncounted) (k : Fin 2) (value : α) :
    (ring.push k value).items = Function.update ring.items k (ring.items k ++ [value]) := by
  rw [h.push_eq]
  funext j
  by_cases hj : j = k
  · subst hj
    simp only [items, Function.update_self]
  · simp only [items, Function.update_of_ne hj]

theorem Uncounted.push {ring : QueueRing α} (h : ring.Uncounted) (k : Fin 2) (value : α) :
    (ring.push k value).Uncounted := by
  rw [h.push_eq]
  intro j
  by_cases hj : j = k
  · subst hj
    simp only [Function.update_self]
  · simpa only [Function.update_of_ne hj] using h j

theorem Uncounted.pop_nil {ring : QueueRing α} (h : ring.Uncounted) {k : Fin 2}
    (hk : ring.items k = []) : ring.pop k = (ring, none) := by
  have hq : ring.lQ k = ⟨none, []⟩ := by rw [h.lQ_eq k, hk]
  simp only [pop, hq, LocklessQueue.dequeue_uncounted_nil]
  rw [← hq, Function.update_eq_self]

theorem Uncounted.pop_cons {ring : QueueRing α} (h : ring.Uncounted) {k : Fin 2} {x : α} {xs : List α}
    (hk : ring.items k = x :: xs) :
    ∃ ring', ring.pop k = (ring', some x) ∧ ring'.Uncounted ∧ ring'.nextI = ring.nextI ∧
      ring'.lLen = ring.lLen ∧ ring'.items = Function.update ring.items k xs := by
  have hq : ring.lQ k = ⟨none, x :: xs⟩ := by rw [h.lQ_eq k, hk]
  refine ⟨{ ring with lQ := Function.update ring.lQ k ⟨none, xs⟩ }, ?_, ?_, rfl, rfl, ?_⟩
  · simp only [pop, hq, LocklessQueue.dequeue_uncounted_cons]
  · intro j
    by_cases hj : j = k
    · subst hj
      simp
    · simpa [hj] using h j
  · funext j
    by_cases hj : j = k
    · subst hj
      simp [items]
    · simp [items, hj]

end QueueRing

namespace QueueIterator

theorem next_nil (iter : QueueIterator) {ring : QueueRing α} (h : ring.Uncounted)
    (hk : ring.items iter.q = []) : iter.next ring = (ring, iter, none) := by
  simp only [next, retry, h.pop_nil hk]

theorem next_cons (iter : QueueIterator) {ring : QueueRing α} (h : ring.Uncounted) {x : α}
    {xs : List α} (hk : ring.items iter.q = x :: xs) :
    ∃ ring' iter', iter.next ring = (ring', iter', some x) ∧ iter'.q = iter.q ∧
      iter'.len = iter.len ∧ ring'.Uncounted ∧ ring'.nextI = ring.nextI ∧
      ring'.lLen = ring.lLen ∧ ring'.items = Function.update ring.items iter.q xs := by
  obtain ⟨ring', hpop, hun, hnext, hlen, hitems⟩ := h.pop_cons hk
  refine ⟨ring', { iter with safteyCount := wrappingSucc iter.safteyCount }, ?_, rfl, rfl, hun, hnext,
    hlen, hitems⟩
  simp only [next, hpop]

end QueueIterator

end Queue
end Zerohop
