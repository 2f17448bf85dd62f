/-
# Reading accepted buffers

What `try_from` promises of a buffer it accepts, whoever wrote it: the
sections have the lengths of the header. It looks at no value inside them, so
the chunk indices of the instructions and the ends in the tables are whatever
the buffer holds, and the accessors check them when they slice.

Key theorems: `tryFrom_lengths`, `chunkSlice_isSome_iff`, `accepted_readers`.
-/
import Zerohop.Store.Wire

namespace Zerohop
namespace Store

open Bytes Cuts

theorem takeSlice_length {T : Type} {R : Bytes.Repr T} {addr offset count finish : ℕ}
    {data : List UInt8} {ts : List T} (h : takeSlice R addr data offset count = .ok (ts, finish)) :
    ts.length = count := by
  rw [(takeSlice_eq_ok.mp h).2.2.2.1, readMany_length]

/-- The lengths of a view, as a header gives them. -/
structure Lengths (hdr : CatscopeTransactionHeader) (view : CatscopeTransactionReadWrapper) :
    Prop where
  outer : view.outer.length = hdr.outerLen.toNat
  inner : view.inner.length = hdr.innerLen.toNat
  account : view.account.length = hdr.accountLen.toNat
  accountChunk : view.accountChunk.length = hdr.accountChunkLen.toNat
  accountChunkLast : view.accountChunkLast.length = hdr.outerLen.toNat + hdr.innerLen.toNat
  dataChunkLast : view.dataChunkLast.length = hdr.outerLen.toNat + hdr.innerLen.toNat
  l1Inner : view.l1Inner.length = hdr.outerLen.toNat
  dataChunk : view.dataChunk.length = hdr.dataChunkLen.toNat

theorem takeSections_lengths {hdr : CatscopeTransactionHeader} {addr : ℕ} {data : List UInt8}
    {view : CatscopeTransactionReadWrapper} (h : hdr.takeSections addr data = .ok view) :
    Lengths hdr view := by
  simp only [CatscopeTransactionHeader.takeSections, bind, bind_eq_ok, checkedAdd_eq_ok,
    Prod.exists] at h
  obtain ⟨_, ⟨-, rfl⟩, _, _, t1, _, _, t2, _, _, t3, _, _, t4, _, _, t5, _, _, t6, _, _, t7, _, _, t8,
    h⟩ := h
  cases h
  exact ⟨takeSlice_length t1, takeSlice_length t2, takeSlice_length t3, takeSlice_length t4,
    takeSlice_length t5, takeSlice_length t6, takeSlice_length t7, takeSlice_length t8⟩

/-- **What acceptance promises.** -/
theorem tryFrom_lengths {addr : ℕ} {data : List UInt8} {view : CatscopeTransactionReadWrapper}
    (h : CatscopeTransactionReadWrapper.tryFrom addr data = .ok view) :
    Lengths (headerRepr.read data) view := by
  unfold CatscopeTransactionReadWrapper.tryFrom at h
  split_ifs at h
  exact takeSections_lengths h

/-- Chunk `chunkI` is one of `entries`; its end in the table is inside a section
of `size` values, and its start, the end before it or 0 for the first chunk, is
not after its end. -/
def ChunkInside (last : List UInt16) (entries size chunkI : ℕ) : Prop :=
  chunkI < entries ∧ ∃ finish : UInt16, last[chunkI]? = some finish ∧ finish.toNat ≤ size ∧
    (chunkI ≠ 0 → ∃ start : UInt16, last[chunkI - 1]? = some start ∧ start.toNat ≤ finish.toNat)

theorem chunkRange_eq_some {last : List UInt16} {chunkI start finish : ℕ} :
    chunkRange last chunkI = some (start, finish) ↔
      (last[chunkI]?).map UInt16.toNat = some finish ∧
        (if chunkI = 0 then some 0 else (last[chunkI - 1]?).map UInt16.toNat) = some start := by
  unfold chunkRange
  split_ifs with h0
  · cases last[chunkI]? <;> simp [and_comm]
  · cases last[chunkI - 1]? <;> cases last[chunkI]? <;> simp [and_comm]

theorem chunkSlice_isSome_iff {α : Type} {last : List UInt16} {chunk : List α} {chunkI : ℕ} :
    (chunkSlice last chunk chunkI).isSome ↔ ChunkInside last last.length chunk.length chunkI := by
  have hslice : (chunkSlice last chunk chunkI).isSome ↔
      ∃ start finish, chunkRange last chunkI = some (start, finish) ∧ start ≤ finish ∧
        finish ≤ chunk.length := by
    unfold chunkSlice
    cases chunkRange last chunkI with
    | none => simp
    | some range => simp [slice_isSome_iff, Prod.ext_iff]
  rw [hslice]
  constructor
  · rintro ⟨start, finish, hr, h1, h2⟩
    obtain ⟨hfinish, hstart⟩ := chunkRange_eq_some.mp hr
    obtain ⟨last', hlast, rfl⟩ := Option.map_eq_some_iff.mp hfinish
    refine ⟨(List.getElem?_eq_some_iff.mp hlast).1, last', hlast, h2, ?_⟩
    intro h0
    rw [if_neg h0] at hstart
    obtain ⟨before, hbefore, rfl⟩ := Option.map_eq_some_iff.mp hstart
    exact ⟨before, hbefore, h1⟩
  · rintro ⟨-, finish, hfinish, h2, hstart⟩
    by_cases h0 : chunkI = 0
    · exact ⟨0, finish.toNat, chunkRange_eq_some.mpr ⟨by rw [hfinish]; rfl, if_pos h0⟩, Nat.zero_le _, h2⟩
    · obtain ⟨start, hbefore, h1⟩ := hstart h0
      refine ⟨start.toNat, finish.toNat, chunkRange_eq_some.mpr ⟨by rw [hfinish]; rfl, ?_⟩, h1, h2⟩
      rw [if_neg h0, hbefore]
      rfl

section

variable {view : CatscopeTransactionReadWrapper} {r : CatscopeInstructionViewRead}

theorem instruction_of_mem (h : r ∈ view.readOuter ++ view.readInner) :
    r.view = view ∧ ∃ ix, instructionAt view.outer view.inner r.i = some ix := by
  rcases List.mem_append.mp h with h | h <;> obtain ⟨i, hi, rfl⟩ := List.mem_map.mp h
  all_goals exact ⟨rfl, _, List.getElem?_eq_getElem (List.mem_range.mp hi)⟩

end

/-- **The readers of an accepted buffer.** The sections of every accepted buffer
have the lengths of the header. Of every instruction that the view yields the
program is there; the account ids and the data are where the stored chunk index
and the ends in the table lie inside, which acceptance leaves open. -/
theorem accepted_readers {addr : ℕ} {bytes : List UInt8} {view : CatscopeTransactionReadWrapper}
    (h : CatscopeTransactionReadWrapper.tryFrom addr bytes = .ok view)
    {hdr : CatscopeTransactionHeader} (hhdr : hdr = headerRepr.read bytes) :
    Lengths hdr view ∧
    ∀ r ∈ view.readOuter ++ view.readInner,
      ∃ ix, instructionAt view.outer view.inner r.i = some ix ∧ r.program = some ix.program ∧
        (r.account.isSome ↔ ChunkInside view.accountChunkLast
          (hdr.outerLen.toNat + hdr.innerLen.toNat) hdr.accountChunkLen.toNat ix.accountChunkI.toNat) ∧
        (r.data.isSome ↔ ChunkInside view.dataChunkLast
          (hdr.outerLen.toNat + hdr.innerLen.toNat) hdr.dataChunkLen.toNat ix.dataChunkI.toNat) := by
  subst hhdr
  have hl := tryFrom_lengths h
  refine ⟨hl, ?_⟩
  intro r hr
  obtain ⟨rfl, ix, hix⟩ := instruction_of_mem hr
  refine ⟨ix, hix, ?_, ?_, ?_⟩
  · simp [CatscopeInstructionViewRead.program, hix]
  · simp only [CatscopeInstructionViewRead.account, hix, Option.bind_eq_bind, Option.bind_some]
    rw [chunkSlice_isSome_iff, hl.accountChunkLast, hl.accountChunk]
  · simp only [CatscopeInstructionViewRead.data, hix, Option.bind_eq_bind, Option.bind_some]
    rw [chunkSlice_isSome_iff, hl.dataChunkLast, hl.dataChunk]

/-- One outer instruction whose data chunk index is 1, in tables of one entry. -/
def strayIndex : List UInt8 :=
  List.replicate 72 0 ++ [1, 0, 0, 0] ++ List.replicate 20 0 ++
  (List.replicate 8 0 ++ [1, 0] ++ [0, 0] ++ List.replicate 4 0) ++
  [0, 0] ++ [0, 0] ++ [0]

theorem stray_index_readers : ∃ (view : CatscopeTransactionReadWrapper) (ix : CatscopeInstruction),
    CatscopeTransactionReadWrapper.tryFrom 64 strayIndex = .ok view ∧ view.dataChunkLast = [0] ∧
    CatscopeInstructionViewRead.program ⟨.outer 0, view⟩ = some ix.program ∧
    ((CatscopeInstructionViewRead.account ⟨.outer 0, view⟩).isSome ↔
      ChunkInside view.accountChunkLast 1 0 ix.accountChunkI.toNat) ∧
    ((CatscopeInstructionViewRead.data ⟨.outer 0, view⟩).isSome ↔
      ChunkInside view.dataChunkLast 1 0 ix.dataChunkI.toNat) := by
  have hv : CatscopeTransactionReadWrapper.tryFrom 64 strayIndex = .ok _ := rfl
  obtain ⟨-, hreaders⟩ := accepted_readers hv rfl
  obtain ⟨ix, -, hp, ha, hd⟩ := hreaders ⟨.outer 0, _⟩
    (List.mem_append_left _ (List.mem_map.mpr ⟨0, by decide, rfl⟩))
  exact ⟨_, ix, hv, rfl, hp, ha, hd⟩

/-- `try_from` accepts `strayIndex` and the reader of its instruction panics. -/
theorem stray_index_accepted : ∃ view r, CatscopeTransactionReadWrapper.tryFrom 64 strayIndex = .ok view ∧
    r ∈ view.readOuter ∧ r.data = none := by
  refine ⟨_, _, rfl, List.mem_map.mpr ⟨0, by decide, rfl⟩, by decide⟩

end Store
end Zerohop
