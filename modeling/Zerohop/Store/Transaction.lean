/-
# Catscope transactions

`CatscopeTransaction` of `store.rs`: the instructions of a transaction in two
lists, outer and inner, their account ids and data in two shared chunks, and
for each chunk a `u16` table of ends, one entry per instruction. An
instruction record carries the index of its entry in each table.

`appendOuter` and `appendInner` return a writer, whose `program`, `account`
and `data` are called before it is dropped; the writer's drop merges the
account ids of its instruction into the sorted list of touched accounts. The
writer borrows the transaction, so it holds it here and `drop` hands it back.
`none` is a panic: a failed assertion, an index or slice out of range, and,
where overflow checks are on (`debug`), an addition that overflows. Vector
lengths are natural numbers: memory ends before a `usize` does.
-/
import Mathlib.Data.Nat.Basic
import Zerohop.Lib.BinarySearch
import Zerohop.Lib.Cuts
import Zerohop.Lib.Machine

namespace Zerohop
namespace Store

open BinarySearch Cuts

/-- `AccountId`. -/
abbrev AccountId := UInt64

/-- `CatscopeInstruction`. -/
structure CatscopeInstruction where
  program : AccountId
  dataChunkI : UInt16
  accountChunkI : UInt16
deriving DecidableEq, Repr

/-- `CatscopeInstruction::default()`. -/
def CatscopeInstruction.default : CatscopeInstruction := ⟨0, 0, 0⟩

/-- `CatscopeTransaction`. -/
structure CatscopeTransaction where
  signature : Vector UInt8 64
  index : UInt64
  dataChunkLast : List UInt16
  dataChunk : List UInt8
  accountChunkLast : List UInt16
  accountChunk : List AccountId
  outer : List CatscopeInstruction
  l1Inner : List UInt8
  inner : List CatscopeInstruction
  account : List AccountId
deriving DecidableEq

/-- `CatscopeTransaction::default()`. -/
def CatscopeTransaction.default : CatscopeTransaction :=
  ⟨Vector.replicate 64 0, 0, [], [], [], [], [], [], [], []⟩

/-- `IxIndex`. -/
inductive IxIndex where
  | outer (i : ℕ)
  | inner (i : ℕ)
deriving DecidableEq, Repr

/-! ### Reading a chunk -/

/-- The record an `IxIndex` stands for. -/
def instructionAt (outer inner : List CatscopeInstruction) : IxIndex → Option CatscopeInstruction
  | .outer i => outer[i]?
  | .inner i => inner[i]?

/-- `(start, finish)` of chunk `chunkI`: the entry before it, or 0 for the
first, and its own. -/
def chunkRange (last : List UInt16) (chunkI : ℕ) : Option (ℕ × ℕ) :=
  if chunkI = 0 then do
    let finish ← last[chunkI]?
    pure (0, finish.toNat)
  else do
    let start ← last[chunkI - 1]?
    let finish ← last[chunkI]?
    pure (start.toNat, finish.toNat)

/-- `&chunk[start..finish]` for chunk `chunkI`. -/
def chunkSlice {α : Type} (last : List UInt16) (chunk : List α) (chunkI : ℕ) : Option (List α) := do
  let (start, finish) ← chunkRange last chunkI
  slice chunk start finish

/-- `CatscopeInstructionRead`. -/
structure CatscopeInstructionRead where
  i : IxIndex
  tx : CatscopeTransaction

namespace CatscopeInstructionRead

variable (r : CatscopeInstructionRead)

def program : Option AccountId :=
  (instructionAt r.tx.outer r.tx.inner r.i).map (·.program)

def data : Option (List UInt8) := do
  let ix ← instructionAt r.tx.outer r.tx.inner r.i
  chunkSlice r.tx.dataChunkLast r.tx.dataChunk ix.dataChunkI.toNat

def account : Option (List AccountId) := do
  let ix ← instructionAt r.tx.outer r.tx.inner r.i
  chunkSlice r.tx.accountChunkLast r.tx.accountChunk ix.accountChunkI.toNat

end CatscopeInstructionRead

/-- `CatscopeInstructionReadOuterIterator` and its inner twin: the next
position and the transaction. -/
structure InstructionReadIterator where
  i : ℕ
  tx : CatscopeTransaction

namespace InstructionReadIterator

/-- `next`, over the list that `len` measures. -/
def next (len : CatscopeTransaction → ℕ) (mk : ℕ → IxIndex) (it : InstructionReadIterator) :
    Option (CatscopeInstructionRead × InstructionReadIterator) :=
  if len it.tx ≤ it.i then none
  else some (⟨mk it.i, it.tx⟩, { it with i := it.i + 1 })

/-- `CatscopeInstructionReadOuterIterator::next`. -/
def nextOuter := next (fun tx => tx.outer.length) IxIndex.outer

/-- `CatscopeInstructionReadInnerIterator::next`. -/
def nextInner := next (fun tx => tx.inner.length) IxIndex.inner

theorem drain_next (len : CatscopeTransaction → ℕ) (mk : ℕ → IxIndex) (tx : CatscopeTransaction) :
    ∀ (fuel i : ℕ), len tx - i < fuel →
      drain (next len mk) fuel ⟨i, tx⟩ =
        some ((List.range' i (len tx - i)).map fun j => ⟨mk j, tx⟩)
  | 0, _, h => by omega
  | fuel + 1, i, h => by
    by_cases hi : len tx ≤ i
    · have h0 : len tx - i = 0 := by omega
      simp [drain, next, hi, h0]
    · have hs : len tx - i = (len tx - (i + 1)) + 1 := by omega
      have ih := drain_next len mk tx fuel (i + 1) (by omega)
      simp only [drain, next, hi, if_false, ih, Option.map_some]
      rw [hs, List.range'_succ, List.map_cons]

end InstructionReadIterator

namespace CatscopeTransaction

variable (tx : CatscopeTransaction)

open InstructionReadIterator

/-- Everything `outer()` yields. -/
def readOuter : Option (List CatscopeInstructionRead) :=
  drain nextOuter (tx.outer.length + 1) ⟨0, tx⟩

/-- Everything `inner()` yields. -/
def readInner : Option (List CatscopeInstructionRead) :=
  drain nextInner (tx.inner.length + 1) ⟨0, tx⟩

theorem readOuter_eq : tx.readOuter =
    some ((List.range tx.outer.length).map fun i => ⟨.outer i, tx⟩) := by
  rw [readOuter, nextOuter, drain_next _ _ _ _ _ (by omega), List.range_eq_range', Nat.sub_zero]

theorem readInner_eq : tx.readInner =
    some ((List.range tx.inner.length).map fun i => ⟨.inner i, tx⟩) := by
  rw [readInner, nextInner, drain_next _ _ _ _ _ (by omega), List.range_eq_range', Nat.sub_zero]

end CatscopeTransaction

/-! ### Writing an instruction -/

/-- `CatscopeInstructionWrite`, with the transaction it borrows. -/
structure CatscopeInstructionWrite where
  i : IxIndex
  dataChunkI : ℕ
  accountChunkI : ℕ
  accountSet : Bool
  dataSet : Bool
  tx : CatscopeTransaction

/-- `+= 1` on a `u8`. -/
def addOne (debug : Bool) (x : UInt8) : Option UInt8 :=
  if debug && x == 255 then none else some (x + 1)

namespace CatscopeTransaction

def appendOuter (tx : CatscopeTransaction) : CatscopeInstructionWrite where
  i := .outer tx.outer.length
  dataChunkI := tx.dataChunkLast.length
  accountChunkI := tx.accountChunkLast.length
  accountSet := false
  dataSet := false
  tx := { tx with
    outer := tx.outer ++ [CatscopeInstruction.default]
    l1Inner := tx.l1Inner ++ [0]
    accountChunkLast := tx.accountChunkLast ++ [0]
    dataChunkLast := tx.dataChunkLast ++ [0] }

def appendInner (debug : Bool) (tx : CatscopeTransaction) (outerIdx : ℕ) :
    Option CatscopeInstructionWrite := do
  let count ← tx.l1Inner[outerIdx]?
  let count ← addOne debug count
  pure {
    i := .inner tx.inner.length
    dataChunkI := tx.dataChunkLast.length
    accountChunkI := tx.accountChunkLast.length
    accountSet := false
    dataSet := false
    tx := { tx with
      l1Inner := tx.l1Inner.set outerIdx count
      inner := tx.inner ++ [CatscopeInstruction.default]
      accountChunkLast := tx.accountChunkLast ++ [0]
      dataChunkLast := tx.dataChunkLast ++ [0] } }

end CatscopeTransaction

/-- What `account(size)` and `data(size)` of a writer do with their table and
their chunk: the chunk grows by `size` zeros and its new end, cut to 16 bits,
becomes the entry `chunkI` of the table. Also where the new part starts. -/
def allocate {α : Type} (isSet : Bool) (last : List UInt16) (chunk : List α) (zero : α)
    (chunkI size : ℕ) : Option (List UInt16 × List α × ℕ) := do
  guard (isSet = false)
  let start := chunk.length
  let finish := start + size
  let _ ← last[chunkI]?
  pure (last.set chunkI (UInt16.ofNat finish), chunk ++ List.replicate size zero, start)

namespace CatscopeInstructionWrite

variable (w : CatscopeInstructionWrite)

def program (programId : AccountId) : Option CatscopeInstructionWrite :=
  match w.i with
  | .outer i => do
    let ix ← w.tx.outer[i]?
    pure { w with tx := { w.tx with outer := w.tx.outer.set i { ix with program := programId } } }
  | .inner i => do
    let ix ← w.tx.inner[i]?
    pure { w with tx := { w.tx with inner := w.tx.inner.set i { ix with program := programId } } }

/-- The writer after `account(size)`, and where the slice it returns starts. -/
def account (size : ℕ) : Option (CatscopeInstructionWrite × ℕ) := do
  let (accountChunkLast, accountChunk, start) ←
    allocate w.accountSet w.tx.accountChunkLast w.tx.accountChunk 0 w.accountChunkI size
  pure ({ w with accountSet := true, tx := { w.tx with accountChunkLast, accountChunk } }, start)

/-- The writer after `data(size)`, and where the slice it returns starts. -/
def data (size : ℕ) : Option (CatscopeInstructionWrite × ℕ) := do
  let (dataChunkLast, dataChunk, start) ←
    allocate w.dataSet w.tx.dataChunkLast w.tx.dataChunk 0 w.dataChunkI size
  pure ({ w with dataSet := true, tx := { w.tx with dataChunkLast, dataChunk } }, start)

/-- The caller fills the slice of accounts that starts at `start`. -/
def fillAccount (start : ℕ) (ids : List AccountId) : CatscopeInstructionWrite :=
  { w with tx := { w.tx with accountChunk := overwrite w.tx.accountChunk start ids } }

/-- The caller fills the slice of data that starts at `start`. -/
def fillData (start : ℕ) (bytes : List UInt8) : CatscopeInstructionWrite :=
  { w with tx := { w.tx with dataChunk := overwrite w.tx.dataChunk start bytes } }

end CatscopeInstructionWrite

/-- The loop of `drop` over `n` positions of the account chunk from `i` on:
an id that the binary search does not find is inserted where it points. -/
def touch (accountChunk : List AccountId) : ℕ → ℕ → List AccountId → Option (List AccountId)
  | _, 0, account => some account
  | i, n + 1, account => do
    let accountId ← accountChunk[i]?
    touch accountChunk (i + 1) n (insertUnique UInt64.toNat account accountId)

/-- `Drop for CatscopeInstructionWrite`. -/
def CatscopeInstructionWrite.drop (w : CatscopeInstructionWrite) : Option CatscopeTransaction := do
  guard (w.accountSet = true)
  guard (w.dataSet = true)
  let ix ← instructionAt w.tx.outer w.tx.inner w.i
  let (start, finish) ← chunkRange w.tx.accountChunkLast ix.accountChunkI.toNat
  guard ((start = 0 ∧ finish = 0) ∨ 0 < finish)
  let account ← touch w.tx.accountChunk start (finish - start) w.tx.account
  pure { w.tx with account }

end Store
end Zerohop
