/-
# Writing and viewing a transaction

What `write_to` appends is viewed by `try_from` as the transaction it was
called on. The header and the instruction records are read back from their
bytes whatever the padding is, each of the eight sections is an image of its
list, and the offsets at which `try_from` takes them are where they stand. The
three lists whose lengths the header does not give have the lengths it implies,
by the invariant of the builder.

Key theorems: `header_read_bytes`, `takeSections_eq`, `write_then_view`.
-/
import Zerohop.Store.Builder
import Zerohop.Store.Wire

namespace Zerohop
namespace Store

open Bytes

/-! ### Records -/

theorem bytesAt_here {x rest : List UInt8} {w : ℕ} (h : x.length = w) :
    bytesAt (x ++ rest) 0 w = x := by
  rw [bytesAt, List.drop_zero, List.take_left' h]

theorem bytesAt_skip {x rest : List UInt8} {off w : ℕ} (h : x.length ≤ off) :
    bytesAt (x ++ rest) off w = bytesAt rest (off - x.length) w := by
  rw [bytesAt, bytesAt, List.drop_append, List.drop_eq_nil_of_le h, List.nil_append]

theorem instruction_bytes_length (pad : Vector UInt8 4) (ix : CatscopeInstruction) :
    (ix.bytes pad).length = instructionRepr.size := by
  simp [CatscopeInstruction.bytes, instructionRepr]

theorem instruction_read_bytes (pad : Vector UInt8 4) (ix : CatscopeInstruction) :
    instructionRepr.read (ix.bytes pad) = ix := by
  simp (disch := simp) only [instructionRepr, CatscopeInstruction.bytes, List.append_assoc,
    bytesAt_here, bytesAt_skip, leBytes_length, Nat.reduceSub, read_u64, read_u16]

theorem header_bytes_length (hdr : CatscopeTransactionHeader) :
    hdr.bytes.length = headerRepr.size := by
  simp [CatscopeTransactionHeader.bytes, headerRepr]

/-- A header is read back from the front of what follows it. -/
theorem header_read_bytes (hdr : CatscopeTransactionHeader) (rest : List UInt8) :
    headerRepr.read (hdr.bytes ++ rest) = hdr := by
  have hsig : (Vector.ofFn fun i : Fin 64 => (hdr.bytes ++ rest).getD i 0) = hdr.signature := by
    apply Vector.ext
    intro i hi
    have hlt : i < hdr.signature.toList.length := by simpa using hi
    rw [Vector.getElem_ofFn]
    simp only [CatscopeTransactionHeader.bytes, List.append_assoc]
    rw [List.getD_eq_getElem?_getD, List.getElem?_append_left hlt, List.getElem?_eq_getElem hlt,
      Option.getD_some, Vector.getElem_toList]
  simp only [headerRepr, hsig]
  simp (disch := simp) only [CatscopeTransactionHeader.bytes, List.append_assoc, bytesAt_here,
    bytesAt_skip, leBytes_length, Vector.length_toList, Nat.reduceSub, read_u64, read_u32]

/-! ### Sections -/

theorem image_instructions (pad : ℕ → Vector UInt8 4) (l : List CatscopeInstruction) :
    Image instructionRepr l (writeMany (fun i ix => ix.bytes (pad i)) 0 l) :=
  image_writeMany (fun i ix => instruction_bytes_length (pad i) ix)
    (fun i ix => instruction_read_bytes (pad i) ix) 0 l

theorem image_u64 (l : List UInt64) :
    Image Repr.u64 l (writeMany (fun _ x => leBytes 8 x.toNat) 0 l) :=
  image_writeMany (fun _ _ => leBytes_length ..) (fun _ x => read_u64 x) 0 l

theorem image_u16 (l : List UInt16) :
    Image Repr.u16 l (writeMany (fun _ x => leBytes 2 x.toNat) 0 l) :=
  image_writeMany (fun _ _ => leBytes_length ..) (fun _ x => read_u16 x) 0 l

theorem image_u8 : ∀ l : List UInt8, Image Repr.u8 l l
  | [] => Image.nil
  | x :: l => by
    have h := Image.cons (R := Repr.u8) [x] rfl (image_u8 l)
    rwa [read_u8] at h

/-- What the view of a transaction should be. -/
def CatscopeTransaction.view (tx : CatscopeTransaction) : CatscopeTransactionReadWrapper where
  signature := tx.signature
  index := tx.index
  account := tx.account
  l1Inner := tx.l1Inner
  dataChunk := tx.dataChunk
  outer := tx.outer
  inner := tx.inner
  accountChunk := tx.accountChunk
  accountChunkLast := tx.accountChunkLast
  dataChunkLast := tx.dataChunkLast

/-- Every vector fits its `u32` length. -/
structure Short (tx : CatscopeTransaction) : Prop where
  outer_inner : tx.outer.length + tx.inner.length < 2 ^ 32
  account : tx.account.length < 2 ^ 32
  accountChunk : tx.accountChunk.length < 2 ^ 32
  dataChunk : tx.dataChunk.length < 2 ^ 32

/-- The lengths fit the header, and those it does not give are implied. -/
structure Framed (tx : CatscopeTransaction) : Prop extends Short tx where
  accountChunkLast : tx.accountChunkLast.length = tx.outer.length + tx.inner.length
  dataChunkLast : tx.dataChunkLast.length = tx.outer.length + tx.inner.length
  l1Inner : tx.l1Inner.length = tx.outer.length

theorem toNat_ofNat_length {α : Type} {l : List α} (h : l.length < 2 ^ 32) :
    (UInt32.ofNat l.length).toNat = l.length := by
  rw [UInt32.toNat_ofNat']
  exact Nat.mod_eq_of_lt h

/-- **The sections are taken as they were laid**, each at its own offset. -/
theorem takeSections_eq {tx : CatscopeTransaction} (h : Framed tx) (pad : IxIndex → Vector UInt8 4)
    {addr : ℕ} (haddr : addr % 8 = 0) :
    tx.header.takeSections addr (tx.header.bytes ++ tx.sections pad) = .ok tx.view := by
  have ⟨⟨hoi, hacc, hac, hdc⟩, hal, hdl, hl1⟩ := h
  have hlen : (tx.header.bytes ++ tx.sections pad).length = 96 + tx.outer.length * 16 +
      tx.inner.length * 16 + tx.account.length * 8 + tx.accountChunk.length * 8 +
      tx.accountChunkLast.length * 2 + tx.dataChunkLast.length * 2 + tx.l1Inner.length +
      tx.dataChunk.length := by
    simp only [List.length_append, header_bytes_length, CatscopeTransaction.sections,
      (image_instructions _ _).length, (image_u64 _).length, (image_u16 _).length]
    simp only [headerRepr, instructionRepr, Repr.u64, Repr.u16]
    omega
  have h0 : (tx.header.bytes ++ tx.sections pad).drop headerRepr.size = tx.sections pad :=
    List.drop_left' (header_bytes_length _)
  generalize tx.header.bytes ++ tx.sections pad = data at hlen h0
  have hlt : data.length < 2 ^ 64 := by omega
  have hoff : headerRepr.size ≤ data.length := by
    simp only [headerRepr]
    omega
  obtain ⟨t1, h1, o1⟩ := takeSlice_image addr hlt hoff h0 (image_instructions _ tx.outer) rfl
    (by simp only [headerRepr, instructionRepr]; omega)
  obtain ⟨t2, h2, o2⟩ := takeSlice_image addr hlt o1 h1 (image_instructions _ tx.inner) rfl
    (by simp only [headerRepr, instructionRepr]; omega)
  obtain ⟨t3, h3, o3⟩ := takeSlice_image addr hlt o2 h2 (image_u64 tx.account) rfl
    (by simp only [headerRepr, instructionRepr, Repr.u64]; omega)
  obtain ⟨t4, h4, o4⟩ := takeSlice_image addr hlt o3 h3 (image_u64 tx.accountChunk) rfl
    (by simp only [headerRepr, instructionRepr, Repr.u64]; omega)
  obtain ⟨t5, h5, o5⟩ := takeSlice_image addr hlt o4 h4 (image_u16 tx.accountChunkLast) hal
    (by simp only [headerRepr, instructionRepr, Repr.u64, Repr.u16]; omega)
  obtain ⟨t6, h6, o6⟩ := takeSlice_image addr hlt o5 h5 (image_u16 tx.dataChunkLast) hdl
    (by simp only [headerRepr, instructionRepr, Repr.u64, Repr.u16]; omega)
  obtain ⟨t7, h7, o7⟩ := takeSlice_image addr hlt o6 h6 (image_u8 tx.l1Inner) hl1
    (Nat.mod_one _)
  obtain ⟨t8, -, -⟩ := takeSlice_image addr hlt o7 (h7.trans (List.append_nil _).symm)
    (image_u8 tx.dataChunk) rfl (Nat.mod_one _)
  have ho : tx.header.outerLen.toNat = tx.outer.length := toNat_ofNat_length (by omega)
  have hi : tx.header.innerLen.toNat = tx.inner.length := toNat_ofNat_length (by omega)
  have ha : tx.header.accountLen.toNat = tx.account.length := toNat_ofNat_length hacc
  have hc : tx.header.accountChunkLen.toNat = tx.accountChunk.length := toNat_ofNat_length hac
  have hd : tx.header.dataChunkLen.toNat = tx.dataChunk.length := toNat_ofNat_length hdc
  have hix : checkedAdd tx.outer.length tx.inner.length = .ok (tx.outer.length + tx.inner.length) :=
    checkedAdd_eq_ok.mpr ⟨by omega, rfl⟩
  simp only [CatscopeTransactionHeader.takeSections, ho, hi, ha, hc, hd, hix, t1, t2, t3, t4, t5, t6, t7,
    t8, bind, Except.bind]
  rfl

/-! ### The round trip -/

theorem Framed.asserts {tx : CatscopeTransaction} (h : Framed tx) :
    tx.asserts (tx.header.outerLen + tx.header.innerLen).toNat := by
  have hoi := h.outer_inner
  have ho : tx.header.outerLen.toNat = tx.outer.length := toNat_ofNat_length (by omega)
  have hi : tx.header.innerLen.toNat = tx.inner.length := toNat_ofNat_length (by omega)
  have hsum : (tx.header.outerLen + tx.header.innerLen).toNat = tx.outer.length + tx.inner.length := by
    rw [UInt32.toNat_add, ho, hi]
    omega
  exact ⟨h.accountChunkLast.trans hsum.symm, h.dataChunkLast.trans hsum.symm,
    h.l1Inner.trans ho.symm⟩

theorem Framed.writeTo_eq {tx : CatscopeTransaction} (h : Framed tx) (debug : Bool)
    (pad : IxIndex → Vector UInt8 4) (buf : List UInt8) :
    tx.writeTo debug pad buf = some (buf ++ (tx.header.bytes ++ tx.sections pad)) := by
  have hoi := h.outer_inner
  have hadd : addU32 debug tx.header.outerLen tx.header.innerLen =
      some (tx.header.outerLen + tx.header.innerLen) := by
    have ho : tx.header.outerLen.toNat = tx.outer.length := toNat_ofNat_length (by omega)
    have hi : tx.header.innerLen.toNat = tx.inner.length := toNat_ofNat_length (by omega)
    apply if_neg
    intro hov
    omega
  have has : debug = true → tx.asserts (tx.header.outerLen + tx.header.innerLen).toNat :=
    fun _ => h.asserts
  simp only [CatscopeTransaction.writeTo, hadd, Option.bind_eq_bind, Option.bind_some, guard]
  rw [if_pos has, ← List.append_assoc]
  rfl

/-- **Writing, then viewing.** -/
theorem Framed.tryFrom_eq {tx : CatscopeTransaction} (h : Framed tx)
    (pad : IxIndex → Vector UInt8 4) {addr : ℕ} (haddr : addr % 8 = 0) :
    CatscopeTransactionReadWrapper.tryFrom addr (tx.header.bytes ++ tx.sections pad) =
      .ok tx.view := by
  have hlen : ¬ (tx.header.bytes ++ tx.sections pad).length < headerRepr.size := by
    rw [List.length_append, header_bytes_length]
    omega
  have halign : ¬ addr % headerRepr.align ≠ 0 := not_not.mpr haddr
  rw [CatscopeTransactionReadWrapper.tryFrom, if_neg hlen, if_neg halign, header_read_bytes,
    takeSections_eq h pad haddr]

/-- The public fields, set by the caller. -/
def CatscopeTransaction.identify (tx : CatscopeTransaction) (signature : Vector UInt8 64)
    (index : UInt64) : CatscopeTransaction :=
  { tx with signature, index }

/-- The builder keeps the implied lengths. -/
theorem Built.framed {as : List Append} {tx : CatscopeTransaction} (h : Built as tx) (hs : Short tx)
    (signature : Vector UInt8 64) (index : UInt64) : Framed (tx.identify signature index) := by
  have hlen : as.length = tx.outer.length + tx.inner.length := by
    rw [h.outer, h.inner, List.length_map, List.length_map]
    exact List.length_eq_length_filter_add Append.isOuter
  refine ⟨⟨hs.outer_inner, hs.account, hs.accountChunk, hs.dataChunk⟩, ?_, ?_, ?_⟩
  · exact (h.accountChunkLast ▸ table_length Append.account as).trans hlen
  · exact (h.dataChunkLast ▸ table_length Append.data as).trans hlen
  · have hl : tx.l1Inner.length = outerCount as := by simp [h.l1Inner]
    have ho : tx.outer.length = outerCount as := by
      rw [h.outer, List.length_map, outerCount, List.countP_eq_length_filter]
    exact hl.trans ho.symm

/-- Two readers return the same. -/
def SameRead (v : CatscopeInstructionViewRead) (r : CatscopeInstructionRead) : Prop :=
  v.program = r.program ∧ v.account = r.account ∧ v.data = r.data

/-- The view's iterators yield as many readers as the transaction's, in the
same order, and they read the same. -/
def SameReads (view : CatscopeTransactionReadWrapper) (tx : CatscopeTransaction) : Prop :=
  (∃ rs, tx.readOuter = some rs ∧ List.Forall₂ SameRead view.readOuter rs) ∧
    ∃ rs, tx.readInner = some rs ∧ List.Forall₂ SameRead view.readInner rs

theorem sameReads_view (tx : CatscopeTransaction) : SameReads tx.view tx := by
  refine ⟨⟨_, tx.readOuter_eq, ?_⟩, ⟨_, tx.readInner_eq, ?_⟩⟩
  all_goals
    refine List.forall₂_map_left_iff.mpr (List.forall₂_map_right_iff.mpr (List.forall₂_same.mpr ?_))
    exact fun i _ => ⟨rfl, rfl, rfl⟩

/-- **A built transaction survives the wire**: the lengths that the header
does not give are implied, `write_to` passes its assertions and appends, and
what it appends is viewed as the transaction, field by field and reader by
reader. -/
theorem write_then_view (debug : Bool) {as : List Append} (hex : Existing as)
    {built : CatscopeTransaction} (hb : build debug as = some built) (hs : Short built)
    (signature : Vector UInt8 64) (index : UInt64) (pad : IxIndex → Vector UInt8 4)
    (buf : List UInt8) {addr : ℕ} (haddr : addr % 8 = 0) {tx : CatscopeTransaction}
    (htx : tx = built.identify signature index) :
    tx.accountChunkLast.length = tx.outer.length + tx.inner.length ∧
    tx.dataChunkLast.length = tx.outer.length + tx.inner.length ∧
    tx.l1Inner.length = tx.outer.length ∧
    tx.asserts (tx.header.outerLen + tx.header.innerLen).toNat ∧
    ∃ bytes, tx.writeTo debug pad buf = some (buf ++ bytes) ∧
      CatscopeTransactionReadWrapper.tryFrom addr bytes = .ok tx.view ∧ SameReads tx.view tx := by
  subst htx
  have hf := (built_of_build hex hb).2.framed hs signature index
  exact ⟨hf.accountChunkLast, hf.dataChunkLast, hf.l1Inner, hf.asserts, _, hf.writeTo_eq debug pad buf,
    hf.tryFrom_eq pad haddr, sameReads_view _⟩

theorem write_then_view_two : ∃ built bytes,
    build true [⟨.outer, 7, [32, 85], [0, 1, 13, 0]⟩, ⟨.inner 0, 9, [4], [5]⟩] = some built ∧
    built.writeTo true (fun _ => Vector.replicate 4 255) [1, 2, 3] = some ([1, 2, 3] ++ bytes) ∧
    CatscopeTransactionReadWrapper.tryFrom 64 bytes = .ok built.view := by
  have hb : build true [⟨.outer, 7, [32, 85], [0, 1, 13, 0]⟩, ⟨.inner 0, 9, [4], [5]⟩] = some _ := rfl
  obtain ⟨-, -, -, -, bytes, hw, hv, -⟩ := write_then_view true (by decide) hb
    ⟨by decide, by decide, by decide, by decide⟩ (Vector.replicate 64 0) 0
    (fun _ => Vector.replicate 4 255) [1, 2, 3] (show 64 % 8 = 0 by decide) rfl
  exact ⟨_, bytes, hb, hw, hv⟩

end Store
end Zerohop
