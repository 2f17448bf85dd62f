/-
# The wire format of transactions

`CatscopeTransaction::write_to` and the zero-copy view
`CatscopeTransactionReadWrapper` of `store.rs`: a 96-byte header, then eight
sections back to back, whose lengths follow from the five of the header.

Memory is a list of bytes and the address of its first one. `write_to` copies
the values as they lie in memory, with whatever the padding of an instruction
record holds (`pad`). The view takes its sections by advancing an offset; the
sums are those of 64-bit `usize`, checked as in the source.
-/
import Zerohop.Err
import Zerohop.Lib.Bytes
import Zerohop.Store.Transaction

namespace Zerohop
namespace Store

open Bytes Cuts

/-! ### Values in memory -/

/-- `CatscopeTransactionHeader`. -/
structure CatscopeTransactionHeader where
  signature : Vector UInt8 64
  index : UInt64
  outerLen : UInt32
  innerLen : UInt32
  accountLen : UInt32
  accountChunkLen : UInt32
  dataChunkLen : UInt32
  pad : UInt32
deriving DecidableEq

/-- The `w` bytes at offset `off`. -/
def bytesAt (bs : List UInt8) (off w : ℕ) : List UInt8 := (bs.drop off).take w

/-- A header in memory, `repr(C)`: 96 bytes without padding. -/
def headerRepr : Bytes.Repr CatscopeTransactionHeader where
  size := 96
  align := 8
  read bs := {
    signature := Vector.ofFn fun i : Fin 64 => bs.getD i 0
    index := Repr.u64.read (bytesAt bs 64 8)
    outerLen := Repr.u32.read (bytesAt bs 72 4)
    innerLen := Repr.u32.read (bytesAt bs 76 4)
    accountLen := Repr.u32.read (bytesAt bs 80 4)
    accountChunkLen := Repr.u32.read (bytesAt bs 84 4)
    dataChunkLen := Repr.u32.read (bytesAt bs 88 4)
    pad := Repr.u32.read (bytesAt bs 92 4) }

def CatscopeTransactionHeader.bytes (hdr : CatscopeTransactionHeader) : List UInt8 :=
  hdr.signature.toList ++ leBytes 8 hdr.index.toNat ++ leBytes 4 hdr.outerLen.toNat ++
    leBytes 4 hdr.innerLen.toNat ++ leBytes 4 hdr.accountLen.toNat ++
    leBytes 4 hdr.accountChunkLen.toNat ++ leBytes 4 hdr.dataChunkLen.toNat ++
    leBytes 4 hdr.pad.toNat

/-- An instruction record in memory, `repr(C, align(8))`: 12 bytes and 4 of
padding. -/
def instructionRepr : Bytes.Repr CatscopeInstruction where
  size := 16
  align := 8
  read bs := {
    program := Repr.u64.read (bytesAt bs 0 8)
    dataChunkI := Repr.u16.read (bytesAt bs 8 2)
    accountChunkI := Repr.u16.read (bytesAt bs 10 2) }

def CatscopeInstruction.bytes (pad : Vector UInt8 4) (ix : CatscopeInstruction) : List UInt8 :=
  leBytes 8 ix.program.toNat ++ leBytes 2 ix.dataChunkI.toNat ++ leBytes 2 ix.accountChunkI.toNat ++
    pad.toList

/-! ### Writing -/

/-- `+` on `u32`. -/
def addU32 (debug : Bool) (x y : UInt32) : Option UInt32 :=
  if debug = true ∧ 2 ^ 32 ≤ x.toNat + y.toNat then none else some (x + y)

namespace CatscopeTransaction

variable (tx : CatscopeTransaction)

/-- The header that `write_to` writes. -/
def header : CatscopeTransactionHeader where
  signature := tx.signature
  index := tx.index
  outerLen := UInt32.ofNat tx.outer.length
  innerLen := UInt32.ofNat tx.inner.length
  accountLen := UInt32.ofNat tx.account.length
  accountChunkLen := UInt32.ofNat tx.accountChunk.length
  dataChunkLen := UInt32.ofNat tx.dataChunk.length
  pad := 0

/-- The three `debug_assert`s of `write_to`. -/
def asserts (ixCount : ℕ) : Prop :=
  tx.accountChunkLast.length = ixCount ∧ tx.dataChunkLast.length = ixCount ∧
    tx.l1Inner.length = tx.header.outerLen.toNat

instance (ixCount : ℕ) : Decidable (tx.asserts ixCount) :=
  inferInstanceAs (Decidable (_ ∧ _ ∧ _))

/-- The sections after the header, in the order they are appended. -/
def sections (pad : IxIndex → Vector UInt8 4) : List UInt8 :=
  writeMany (fun i ix => ix.bytes (pad (.outer i))) 0 tx.outer ++
  (writeMany (fun i ix => ix.bytes (pad (.inner i))) 0 tx.inner ++
  (writeMany (fun _ id => leBytes 8 id.toNat) 0 tx.account ++
  (writeMany (fun _ id => leBytes 8 id.toNat) 0 tx.accountChunk ++
  (writeMany (fun _ last => leBytes 2 last.toNat) 0 tx.accountChunkLast ++
  (writeMany (fun _ last => leBytes 2 last.toNat) 0 tx.dataChunkLast ++
  (tx.l1Inner ++ tx.dataChunk))))))

/-- `write_to(buf)`: the buffer afterwards. -/
def writeTo (debug : Bool) (pad : IxIndex → Vector UInt8 4) (buf : List UInt8) :
    Option (List UInt8) := do
  let ixCount ← addU32 debug tx.header.outerLen tx.header.innerLen
  guard (debug = true → tx.asserts ixCount.toNat)
  pure (buf ++ tx.header.bytes ++ tx.sections pad)

end CatscopeTransaction

/-! ### The view -/

/-- `CatscopeTransactionReadWrapper`. -/
structure CatscopeTransactionReadWrapper where
  signature : Vector UInt8 64
  index : UInt64
  account : List AccountId
  l1Inner : List UInt8
  dataChunk : List UInt8
  outer : List CatscopeInstruction
  inner : List CatscopeInstruction
  accountChunk : List AccountId
  accountChunkLast : List UInt16
  dataChunkLast : List UInt16
deriving DecidableEq

/-- `checked_mul`, or out of range. -/
def checkedMul (x y : ℕ) : Except CatscopeZerohopError ℕ :=
  if x * y < 2 ^ 64 then .ok (x * y) else .error .outofRange

/-- `checked_add`, or out of range. -/
def checkedAdd (x y : ℕ) : Except CatscopeZerohopError ℕ :=
  if x + y < 2 ^ 64 then .ok (x + y) else .error .outofRange

/-- `take_slice`: `count` values from `offset` on, and the offset after them. -/
def takeSlice {T : Type} (R : Bytes.Repr T) (addr : ℕ) (data : List UInt8) (offset count : ℕ) :
    Except CatscopeZerohopError (List T × ℕ) := do
  let byteLen ← checkedMul count R.size
  let start := offset
  let finish ← checkedAdd start byteLen
  if data.length < finish then .error .outofRange
  else if (addr + start) % R.align ≠ 0 then .error .unalignedMemory
  else pure (readMany R count (data.drop start), finish)

/-- The eight sections of the lengths that the header gives. -/
def CatscopeTransactionHeader.takeSections (hdr : CatscopeTransactionHeader) (addr : ℕ)
    (data : List UInt8) : Except CatscopeZerohopError CatscopeTransactionReadWrapper := do
  let outerLen := hdr.outerLen.toNat
  let innerLen := hdr.innerLen.toNat
  let ixCount ← checkedAdd outerLen innerLen
  let off := headerRepr.size
  let (outer, off) ← takeSlice instructionRepr addr data off outerLen
  let (inner, off) ← takeSlice instructionRepr addr data off innerLen
  let (account, off) ← takeSlice Repr.u64 addr data off hdr.accountLen.toNat
  let (accountChunk, off) ← takeSlice Repr.u64 addr data off hdr.accountChunkLen.toNat
  let (accountChunkLast, off) ← takeSlice Repr.u16 addr data off ixCount
  let (dataChunkLast, off) ← takeSlice Repr.u16 addr data off ixCount
  let (l1Inner, off) ← takeSlice Repr.u8 addr data off outerLen
  let (dataChunk, _) ← takeSlice Repr.u8 addr data off hdr.dataChunkLen.toNat
  pure { signature := hdr.signature, index := hdr.index, outer, inner, account, accountChunk,
         accountChunkLast, dataChunkLast, l1Inner, dataChunk }

/-- `try_from` on the bytes `data` at the address `addr`. -/
def CatscopeTransactionReadWrapper.tryFrom (addr : ℕ) (data : List UInt8) :
    Except CatscopeZerohopError CatscopeTransactionReadWrapper :=
  if data.length < headerRepr.size then .error .outofRange
  else if addr % headerRepr.align ≠ 0 then .error .unalignedMemory
  else (headerRepr.read data).takeSections addr data

/-- `CatscopeInstructionViewRead`. -/
structure CatscopeInstructionViewRead where
  i : IxIndex
  view : CatscopeTransactionReadWrapper

namespace CatscopeInstructionViewRead

variable (r : CatscopeInstructionViewRead)

def program : Option AccountId :=
  (instructionAt r.view.outer r.view.inner r.i).map (·.program)

def data : Option (List UInt8) := do
  let ix ← instructionAt r.view.outer r.view.inner r.i
  chunkSlice r.view.dataChunkLast r.view.dataChunk ix.dataChunkI.toNat

def account : Option (List AccountId) := do
  let ix ← instructionAt r.view.outer r.view.inner r.i
  chunkSlice r.view.accountChunkLast r.view.accountChunk ix.accountChunkI.toNat

end CatscopeInstructionViewRead

namespace CatscopeTransactionReadWrapper

variable (view : CatscopeTransactionReadWrapper)

/-- Everything `outer()` yields. -/
def readOuter : List CatscopeInstructionViewRead :=
  (List.range view.outer.length).map fun i => ⟨.outer i, view⟩

/-- Everything `inner()` yields. -/
def readInner : List CatscopeInstructionViewRead :=
  (List.range view.inner.length).map fun i => ⟨.inner i, view⟩

end CatscopeTransactionReadWrapper

/-! ### One section -/

theorem bytesAt_length {bs : List UInt8} {off w : ℕ} (h : off + w ≤ bs.length) :
    (bytesAt bs off w).length = w := by
  rw [bytesAt, List.length_take, List.length_drop]
  omega

theorem checkedMul_eq_ok {x y z : ℕ} : checkedMul x y = .ok z ↔ x * y < 2 ^ 64 ∧ z = x * y := by
  unfold checkedMul
  split_ifs with h
  · simp only [h, true_and, Except.ok.injEq, eq_comm]
  · simp only [h, false_and]

theorem checkedAdd_eq_ok {x y z : ℕ} : checkedAdd x y = .ok z ↔ x + y < 2 ^ 64 ∧ z = x + y := by
  unfold checkedAdd
  split_ifs with h
  · simp only [h, true_and, Except.ok.injEq, eq_comm]
  · simp only [h, false_and]

section

variable {T : Type} {R : Bytes.Repr T} {data : List UInt8}

theorem takeSlice_eq_ok {addr offset count : ℕ} {ts : List T} {finish : ℕ} :
    takeSlice R addr data offset count = .ok (ts, finish) ↔
      offset + count * R.size < 2 ^ 64 ∧ offset + count * R.size ≤ data.length ∧
      (addr + offset) % R.align = 0 ∧ ts = readMany R count (data.drop offset) ∧
      finish = offset + count * R.size := by
  have hle : count * R.size ≤ offset + count * R.size := Nat.le_add_left _ _
  simp only [takeSlice, bind, bind_eq_ok, checkedMul_eq_ok, checkedAdd_eq_ok]
  constructor
  · rintro ⟨_, ⟨hm, rfl⟩, _, ⟨ha, rfl⟩, h⟩
    split_ifs at h with hl hal
    cases h
    exact ⟨ha, Nat.not_lt.mp hl, not_not.mp hal, rfl, rfl⟩
  · rintro ⟨ha, hl, hal, rfl, rfl⟩
    refine ⟨_, ⟨Nat.lt_of_le_of_lt hle ha, rfl⟩, _, ⟨ha, rfl⟩, ?_⟩
    rw [if_neg (Nat.not_lt.mpr hl), if_neg (not_not.mpr hal)]
    rfl

/-- A section whose bytes are an image of `ts` is taken as `ts`, and what
follows it is left. -/
theorem takeSlice_image (addr : ℕ) {offset count : ℕ} {ts : List T} {sec rest : List UInt8}
    (hlt : data.length < 2 ^ 64) (hoff : offset ≤ data.length) (hd : data.drop offset = sec ++ rest)
    (hi : Image R ts sec) (hcount : ts.length = count) (ha : (addr + offset) % R.align = 0) :
    takeSlice R addr data offset count = .ok (ts, offset + count * R.size) ∧
      data.drop (offset + count * R.size) = rest ∧ offset + count * R.size ≤ data.length := by
  subst hcount
  have hlen : data.length - offset = ts.length * R.size + rest.length := by
    rw [← List.length_drop, hd, List.length_append, hi.length]
  refine ⟨takeSlice_eq_ok.mpr ⟨by omega, by omega, ha, ?_, rfl⟩, ?_, by omega⟩
  · rw [hd, readMany_image hi]
  · rw [← List.drop_drop, hd, ← hi.length, List.drop_left]

end

end Store
end Zerohop
