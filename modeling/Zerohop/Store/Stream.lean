/-
# Transactions one after the other

`write_to` appends, so a caller may write several transactions into one buffer.
Each takes the bytes that the lengths in its header say, so a reader can go from
one to the next (`offset`), and the view of one looks at nothing behind it. But
nothing pads a transaction: the bytes of its last two sections are as many as
they are, and the next one can be viewed only if they end at a multiple of 8
(`writeAll_views`).

Key definitions: `CatscopeTransaction.frame`, `writeAll`, `offset`.
-/
import Zerohop.Store.Format

namespace Zerohop
namespace Store

open Bytes

namespace CatscopeTransaction

/-- What `write_to` appends. -/
def frame (tx : CatscopeTransaction) (pad : IxIndex → Vector UInt8 4) : List UInt8 :=
  tx.header.bytes ++ tx.sections pad

end CatscopeTransaction

/-- `write_to` of one transaction after the other, each with what the padding
of its records holds. -/
def writeAll (debug : Bool) (txs : List (CatscopeTransaction × (IxIndex → Vector UInt8 4)))
    (buf : List UInt8) : Option (List UInt8) :=
  txs.foldlM (fun buf tx => tx.1.writeTo debug tx.2 buf) buf

/-- Where transaction `k` starts in a buffer that held `start` bytes. -/
def offset (start : ℕ) (txs : List (CatscopeTransaction × (IxIndex → Vector UInt8 4))) (k : ℕ) : ℕ :=
  start + ((txs.take k).map fun tx => tx.1.header.extent).sum

/-! ### What a view looks at -/

theorem readMany_append {T : Type} {R : Bytes.Repr T} {n : ℕ} {bs : List UInt8} (rest : List UInt8)
    (h : n * R.size ≤ bs.length) : readMany R n (bs ++ rest) = readMany R n bs := by
  have hread := readMany_image (image_readMany n bs h) (bs.drop (n * R.size) ++ rest)
  rw [readMany_length, ← List.append_assoc, List.take_append_drop] at hread
  exact hread

/-- The view looks at nothing behind its end. -/
theorem viewOf_append {hdr : CatscopeTransactionHeader} {data : List UInt8} (rest : List UInt8)
    (h : hdr.extent ≤ data.length) : hdr.viewOf (data ++ rest) = hdr.viewOf data := by
  unfold CatscopeTransactionHeader.extent at h
  have hsection : ∀ {T : Type} (R : Bytes.Repr T) (n start w : ℕ), R.size = w →
      start + n * w ≤ data.length →
      readMany R n ((data ++ rest).drop start) = readMany R n (data.drop start) := by
    intro T R n start w hw hle
    subst hw
    rw [List.drop_append_of_le_length (by omega)]
    exact readMany_append rest (by rw [List.length_drop]; omega)
  simp only [CatscopeTransactionHeader.viewOf]
  rw [hsection instructionRepr _ 96 16 rfl (by omega), hsection instructionRepr _ _ 16 rfl (by omega),
    hsection Repr.u64 _ _ 8 rfl (by omega), hsection Repr.u64 _ _ 8 rfl (by omega),
    hsection Repr.u16 _ _ 2 rfl (by omega), hsection Repr.u16 _ _ 2 rfl (by omega),
    hsection Repr.u8 _ _ 1 rfl (by omega), hsection Repr.u8 _ _ 1 rfl (by omega)]

namespace Framed

variable {tx : CatscopeTransaction} (h : Framed tx) (pad : IxIndex → Vector UInt8 4)

include h

theorem frame_length : (tx.frame pad).length = tx.header.extent := by
  have ⟨⟨hoi, hacc, hac, hdc⟩, hal, hdl, hl1⟩ := h
  have ho : tx.header.outerLen.toNat = tx.outer.length := toNat_ofNat_length (by omega)
  have hi : tx.header.innerLen.toNat = tx.inner.length := toNat_ofNat_length (by omega)
  have ha : tx.header.accountLen.toNat = tx.account.length := toNat_ofNat_length hacc
  have hc : tx.header.accountChunkLen.toNat = tx.accountChunk.length := toNat_ofNat_length hac
  have hd : tx.header.dataChunkLen.toNat = tx.dataChunk.length := toNat_ofNat_length hdc
  unfold CatscopeTransactionHeader.extent
  rw [ho, hi, ha, hc, hd]
  simp only [CatscopeTransaction.frame, List.length_append, header_bytes_length,
    CatscopeTransaction.sections, (image_instructions _ _).length, (image_u64 _).length,
    (image_u16 _).length]
  simp only [headerRepr, instructionRepr, Repr.u64, Repr.u16]
  omega

/-- **A frame is viewed wherever it lies**, if it is aligned. -/
theorem tryFrom_frame (addr : ℕ) (rest : List UInt8) :
    CatscopeTransactionReadWrapper.tryFrom addr (tx.frame pad ++ rest) =
      if addr % 8 = 0 then .ok tx.view else .error .unalignedMemory := by
  have hread : headerRepr.read (tx.frame pad ++ rest) = tx.header := by
    rw [CatscopeTransaction.frame, List.append_assoc, header_read_bytes]
  have hlen := h.frame_length pad
  have hview : tx.header.viewOf (tx.frame pad) = tx.view := by
    have hok := (tryFrom_eq_ok_iff.mp (h.tryFrom_eq pad (Nat.zero_mod 8))).2
    rwa [header_read_bytes] at hok
  rcases tryFrom_cases addr (tx.frame pad ++ rest) with
    ⟨-, h8, -, hok⟩ | ⟨-, hne, herr⟩ | ⟨hnot, hshort, -⟩
  · rw [if_pos h8, hok, hread, viewOf_append rest (Nat.le_of_eq hlen.symm), hview]
  · rw [if_neg hne, herr]
  · -- the frame is as long as its header says
    rw [hread] at hshort
    rw [List.length_append, hlen] at hshort
    have h96 : 96 ≤ tx.header.extent := by
      rw [CatscopeTransactionHeader.extent_eq]
      omega
    omega

end Framed

/-! ### The buffer -/

variable {txs : List (CatscopeTransaction × (IxIndex → Vector UInt8 4))}

theorem writeAll_eq (debug : Bool) (h : ∀ tx ∈ txs, Framed tx.1) (buf : List UInt8) :
    writeAll debug txs buf = some (buf ++ txs.flatMap fun tx => tx.1.frame tx.2) := by
  unfold writeAll
  induction txs generalizing buf with
  | nil => simp
  | cons tx txs ih =>
    obtain ⟨hframed, hrest⟩ := List.forall_mem_cons.mp h
    rw [List.foldlM_cons, hframed.writeTo_eq debug tx.2 buf, Option.bind_eq_bind, Option.bind_some,
      ih hrest, List.flatMap_cons, List.append_assoc]
    rfl

theorem drop_offset (h : ∀ tx ∈ txs, Framed tx.1) (buf : List UInt8) (k : ℕ) :
    (buf ++ txs.flatMap fun tx => tx.1.frame tx.2).drop (offset buf.length txs k) =
      (txs.drop k).flatMap fun tx => tx.1.frame tx.2 := by
  have hlen : ((txs.take k).flatMap fun tx => tx.1.frame tx.2).length =
      ((txs.take k).map fun tx => tx.1.header.extent).sum := by
    rw [List.length_flatMap]
    congr 1
    apply List.map_congr_left
    intro tx htx
    exact (h tx (List.mem_of_mem_take htx)).frame_length tx.2
  calc (buf ++ txs.flatMap fun tx => tx.1.frame tx.2).drop (offset buf.length txs k)
      = (txs.flatMap fun tx => tx.1.frame tx.2).drop ((txs.take k).map fun tx => tx.1.header.extent).sum := by
        rw [offset, ← List.drop_drop, List.drop_left]
    _ = (((txs.take k).flatMap fun tx => tx.1.frame tx.2) ++
          (txs.drop k).flatMap fun tx => tx.1.frame tx.2).drop
            ((txs.take k).flatMap fun tx => tx.1.frame tx.2).length := by
        rw [hlen, ← List.flatMap_append, List.take_append_drop]
    _ = (txs.drop k).flatMap fun tx => tx.1.frame tx.2 := List.drop_left

theorem offset_succ (start : ℕ) {k : ℕ} (hk : k < txs.length) :
    offset start txs (k + 1) = offset start txs k + txs[k].1.header.extent := by
  rw [offset, List.take_succ_eq_append_getElem hk, List.map_append, List.sum_append, List.map_singleton,
    List.sum_singleton, ← Nat.add_assoc]
  rfl

/-- **Transactions one after the other.** All are written behind what the
buffer held; the header at the offset of one gives the offset of the next; and
each is viewed as the transaction it is if its offset is aligned, whatever
follows it, and reported as unaligned if not. -/
theorem writeAll_views (debug : Bool) (h : ∀ tx ∈ txs, Framed tx.1) (buf : List UInt8) {addr : ℕ}
    (haddr : addr % 8 = 0) : ∃ data, writeAll debug txs buf = some data ∧ data.take buf.length = buf ∧
      ∀ k (hk : k < txs.length),
        offset buf.length txs (k + 1) = offset buf.length txs k +
          (headerRepr.read (data.drop (offset buf.length txs k))).extent ∧
        CatscopeTransactionReadWrapper.tryFrom (addr + offset buf.length txs k)
            (data.drop (offset buf.length txs k)) =
          if offset buf.length txs k % 8 = 0 then .ok txs[k].1.view else .error .unalignedMemory := by
  refine ⟨_, writeAll_eq debug h buf, List.take_left, ?_⟩
  intro k hk
  have hframed := h txs[k] (List.getElem_mem hk)
  rw [drop_offset h, List.drop_eq_getElem_cons hk, List.flatMap_cons]
  constructor
  · rw [offset_succ _ hk, CatscopeTransaction.frame, List.append_assoc, header_read_bytes]
  · rw [hframed.tryFrom_frame, Nat.add_mod, haddr, Nat.zero_add, Nat.mod_mod]

/-- Two transactions of one byte of data each: the first is viewed, the second,
118 bytes on, is not. -/
theorem writeAll_views_two : ∃ tx data, build true [⟨.outer, 7, [], [1]⟩] = some tx ∧
    writeAll true [(tx, fun _ => Vector.replicate 4 0), (tx, fun _ => Vector.replicate 4 0)] [] = some data ∧
    CatscopeTransactionReadWrapper.tryFrom 64 data = .ok tx.view ∧
    CatscopeTransactionReadWrapper.tryFrom 182 (data.drop 118) = .error .unalignedMemory := by
  have hb : build true [⟨.outer, 7, [], [1]⟩] = some _ := rfl
  have hframed := (built_of_build (by decide) hb).2.framed ⟨by decide, by decide, by decide, by decide⟩
    (Vector.replicate 64 0) 0
  obtain ⟨data, hdata, -, hviews⟩ :=
    @writeAll_views (List.replicate 2 (_, fun _ => Vector.replicate 4 0)) true
    (fun tx htx => by rw [List.eq_of_mem_replicate htx]; exact hframed) [] 64 (by decide)
  exact ⟨_, data, hb, hdata, (hviews 0 (by decide)).2, (hviews 1 (by decide)).2⟩

end Store
end Zerohop
