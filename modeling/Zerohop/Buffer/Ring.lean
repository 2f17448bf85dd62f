/-
# The transaction ring

`TransactionRing` of `buffer.rs`: a circular array of `RING_SIZE` slots and
one write cursor that producers advance by compare-and-exchange before they
write the slot they claimed. A consumer carries a read cursor of its own. A
slot is `none` while it is `MaybeUninit::uninit()`; the cursors are `u64` and
wrap. The ring only moves the transactions it holds, so their type is a
variable.

The operations are given as the atomic steps the source takes on the shared
memory (`load`, `compareExchange`, `write`) and as what an uninterrupted call
does with them (`push`, `tryPush`, `tryPop`).
-/
import Zerohop.Lib.Window
import Zerohop.Lib.Word

namespace Zerohop
namespace Buffer

open Window

/-- `RING_SIZE`. -/
def ringSize : ℕ := 8192

/-- `RING_MASK`. -/
def ringMask : ℕ := ringSize - 1

instance : NeZero ringSize := ⟨by decide⟩

theorem and_ringMask (seq : ℕ) : seq &&& ringMask = seq % ringSize :=
  Nat.and_two_pow_sub_one_eq_mod seq 13

/-- `(seq & RING_MASK) as usize`, always an index of the slots. -/
def slotIdx (seq : ℕ) : Fin ringSize :=
  ⟨seq &&& ringMask, by rw [and_ringMask]; exact Nat.mod_lt _ (by decide)⟩

theorem slotIdx_eq (seq : ℕ) : slotIdx seq = slotOf ringSize seq :=
  Fin.ext (and_ringMask seq)

/-- `RingBufferInner`. -/
structure RingBufferInner (α : Type*) where
  writeCursor : ℕ
  slots : Fin ringSize → Option α

/-- `Consumer`: its private read cursor. -/
structure Consumer where
  readCursor : ℕ
deriving DecidableEq, Repr

variable {α : Type*}

namespace RingBufferInner

/-- `TransactionRing::new`. -/
def new : RingBufferInner α := ⟨0, fun _ => none⟩

/-- `write_cursor.load`. -/
def load (r : RingBufferInner α) : ℕ := r.writeCursor

/-- `write_cursor.compare_exchange(current, new)`. -/
def compareExchange (r : RingBufferInner α) (current new : ℕ) : Option (RingBufferInner α) :=
  if r.writeCursor = current then some { r with writeCursor := new } else none

/-- `ptr::write` into the slot of `seq`. -/
def write (r : RingBufferInner α) (seq : ℕ) (tx : α) : RingBufferInner α :=
  { r with slots := Function.update r.slots (slotIdx seq) (some tx) }

/-- The claim loop of `push` when its weak exchange fails spuriously `fails`
times; `none` where it would go on looping. -/
def claim (r : RingBufferInner α) : ℕ → Option (ℕ × RingBufferInner α)
  | 0 => (r.compareExchange r.load (wrappingSucc r.load)).map fun r' => (r.load, r')
  | fails + 1 => claim r fails

/-- `Producer::push`, uninterrupted. -/
def push (r : RingBufferInner α) (fails : ℕ) (tx : α) : Option (ℕ × RingBufferInner α) :=
  (r.claim fails).map fun (seq, r') => (seq, r'.write seq tx)

/-- `Producer::try_push`, uninterrupted. -/
def tryPush (r : RingBufferInner α) (tx : α) : Option ℕ × RingBufferInner α :=
  match r.compareExchange r.load (wrappingSucc r.load) with
  | some r' => (some r.load, r'.write r.load tx)
  | none => (none, r)

/-- `TransactionRing::consumer`. -/
def consumer (r : RingBufferInner α) : Consumer := ⟨r.load⟩

theorem write_slots (r : RingBufferInner α) (seq : ℕ) (tx : α) :
    (r.write seq tx).slots = Function.update r.slots (slotOf ringSize seq) (some tx) := by
  rw [write, slotIdx_eq]

theorem compareExchange_eq_some {r r' : RingBufferInner α} {current new : ℕ} :
    r.compareExchange current new = some r' ↔
      r.writeCursor = current ∧ r' = { r with writeCursor := new } := by
  unfold compareExchange
  split_ifs with h
  · simp [h, eq_comm]
  · simp [h]

/-- What an uninterrupted claim and write leave. -/
def pushed (r : RingBufferInner α) (tx : α) : RingBufferInner α :=
  ⟨wrappingSucc r.writeCursor, Function.update r.slots (slotOf ringSize r.writeCursor) (some tx)⟩

/-- However often the weak exchange fails, an uninterrupted `push` returns
the cursor it found. -/
theorem push_eq (r : RingBufferInner α) (fails : ℕ) (tx : α) :
    r.push fails tx = some (r.writeCursor, r.pushed tx) := by
  have hclaim : r.claim fails =
      some (r.writeCursor, { r with writeCursor := wrappingSucc r.writeCursor }) := by
    induction fails with
    | zero => simp [claim, compareExchange, load]
    | succ fails ih => exact ih
  rw [push, hclaim]
  simp [write, slotIdx_eq, pushed]

theorem tryPush_eq (r : RingBufferInner α) (tx : α) :
    r.tryPush tx = (some r.writeCursor, r.pushed tx) := by
  simp [tryPush, compareExchange, load, write, slotIdx_eq, pushed]

end RingBufferInner

namespace Consumer

/-- `Consumer::try_pop`. The outer `none` is its `None`; the inner one a read
of uninitialised memory. -/
def tryPop (c : Consumer) (r : RingBufferInner α) : Option (Option α) × Consumer :=
  let writePos := r.load
  if c.readCursor ≥ writePos then (none, c)
  else
    let distance := writePos - c.readCursor
    let cursor := if distance > ringSize then writePos - ringSize else c.readCursor
    (some (r.slots (slotIdx cursor)), ⟨wrappingSucc cursor⟩)

/-- `Consumer::position`. -/
def position (c : Consumer) : ℕ := c.readCursor

/-- `Consumer::lag`. -/
def lag (c : Consumer) (r : RingBufferInner α) : ℕ := r.load - c.readCursor

/-- `Consumer::is_lapped`. -/
def isLapped (c : Consumer) (r : RingBufferInner α) : Bool := decide (c.lag r > ringSize)

theorem tryPop_of_le {c : Consumer} {r : RingBufferInner α} (h : r.writeCursor ≤ c.readCursor) :
    c.tryPop r = (none, c) :=
  if_pos h

/-- With something to read, `try_pop` reads the slot of the entry the reader
is owed and moves past it. -/
theorem tryPop_of_lt {c : Consumer} {r : RingBufferInner α} (h : c.readCursor < r.writeCursor) :
    c.tryPop r = (some (r.slots (slotOf ringSize (next ringSize r.writeCursor c.readCursor))),
      ⟨wrappingSucc (next ringSize r.writeCursor c.readCursor)⟩) := by
  have hnew : ¬ c.readCursor ≥ r.load := Nat.not_le.mpr h
  have hcur : (if r.load - c.readCursor > ringSize then r.load - ringSize else c.readCursor) =
      next ringSize r.writeCursor c.readCursor := by
    unfold next RingBufferInner.load
    split_ifs <;> omega
  simp only [tryPop, if_neg hnew, hcur, slotIdx_eq]

theorem tryPop_eq_none_iff {c : Consumer} {r : RingBufferInner α} :
    (c.tryPop r).1 = none ↔ r.writeCursor ≤ c.readCursor := by
  by_cases h : c.readCursor < r.writeCursor
  · rw [tryPop_of_lt h]
    simp [h]
  · rw [Nat.not_lt] at h
    rw [tryPop_of_le h]
    simp [h]

end Consumer

end Buffer
end Zerohop
