/-
# What the parser accepts

The five lengths of a header give the sizes of the eight sections, and so where
the format ends. `try_from` accepts a buffer exactly if it is aligned and
reaches that far: every section starts aligned whatever the lengths are, and no
sum of them leaves `usize`. The sections of an accepted buffer lie end to end
from the header on, and writing what was viewed gives the bytes back, up to
those that carry no value.

Key definitions: `sectionSizes`, `extent`, `Significant`.
Key theorems: `decided_takeSections`, `tryFrom_eq_ok_iff`, `agree_viewOf`,
`accepts_format`.
-/
import Mathlib.Algebra.Order.BigOperators.Group.List
import Zerohop.Store.Accessors
import Zerohop.Store.RoundTrip

namespace Zerohop
namespace Store

open Bytes Cuts

namespace CatscopeTransactionHeader

variable (hdr : CatscopeTransactionHeader)

/-- The sizes of the eight sections in bytes. -/
def sectionSizes : List ℕ :=
  [hdr.outerLen.toNat * 16, hdr.innerLen.toNat * 16, hdr.accountLen.toNat * 8,
    hdr.accountChunkLen.toNat * 8, (hdr.outerLen.toNat + hdr.innerLen.toNat) * 2,
    (hdr.outerLen.toNat + hdr.innerLen.toNat) * 2, hdr.outerLen.toNat * 1, hdr.dataChunkLen.toNat * 1]

/-- How many bytes the format takes. -/
def extent : ℕ :=
  96 + 16 * (hdr.outerLen.toNat + hdr.innerLen.toNat) +
    8 * (hdr.accountLen.toNat + hdr.accountChunkLen.toNat) +
    4 * (hdr.outerLen.toNat + hdr.innerLen.toNat) + hdr.outerLen.toNat + hdr.dataChunkLen.toNat

/-- The byte `k` carries a value: it is neither in the last word of the header
nor in the padding of an instruction record. -/
def Significant (k : ℕ) : Prop :=
  ¬ (92 ≤ k ∧ k < 96) ∧
    ¬ (96 ≤ k ∧ k < 96 + 16 * (hdr.outerLen.toNat + hdr.innerLen.toNat) ∧ 12 ≤ (k - 96) % 16)

/-- The view of the sections, each read where the one before it ends. -/
def viewOf (data : List UInt8) : CatscopeTransactionReadWrapper :=
  let outerEnd := 96 + hdr.outerLen.toNat * 16
  let innerEnd := outerEnd + hdr.innerLen.toNat * 16
  let accountEnd := innerEnd + hdr.accountLen.toNat * 8
  let accountChunkEnd := accountEnd + hdr.accountChunkLen.toNat * 8
  let ixCount := hdr.outerLen.toNat + hdr.innerLen.toNat
  let accountChunkLastEnd := accountChunkEnd + ixCount * 2
  let dataChunkLastEnd := accountChunkLastEnd + ixCount * 2
  let l1InnerEnd := dataChunkLastEnd + hdr.outerLen.toNat * 1
  { signature := hdr.signature
    index := hdr.index
    outer := readMany instructionRepr hdr.outerLen.toNat (data.drop 96)
    inner := readMany instructionRepr hdr.innerLen.toNat (data.drop outerEnd)
    account := readMany Repr.u64 hdr.accountLen.toNat (data.drop innerEnd)
    accountChunk := readMany Repr.u64 hdr.accountChunkLen.toNat (data.drop accountEnd)
    accountChunkLast := readMany Repr.u16 ixCount (data.drop accountChunkEnd)
    dataChunkLast := readMany Repr.u16 ixCount (data.drop accountChunkLastEnd)
    l1Inner := readMany Repr.u8 hdr.outerLen.toNat (data.drop dataChunkLastEnd)
    dataChunk := readMany Repr.u8 hdr.dataChunkLen.toNat (data.drop l1InnerEnd) }

theorem extent_eq : hdr.extent = 96 + hdr.sectionSizes.sum := by
  simp only [extent, sectionSizes, List.sum_cons, List.sum_nil]
  ring

/-- Five words of 32 bits stay far below a word of 64. -/
theorem extent_lt : hdr.extent < 2 ^ 64 := by
  have ho := hdr.outerLen.toNat_lt
  have hi := hdr.innerLen.toNat_lt
  have ha := hdr.accountLen.toNat_lt
  have hc := hdr.accountChunkLen.toNat_lt
  have hd := hdr.dataChunkLen.toNat_lt
  unfold extent
  omega

theorem size_lt {n : ℕ} (h : n ∈ hdr.sectionSizes) : n < 2 ^ 64 := by
  have hle := List.single_le_sum (fun x _ => Nat.zero_le x) n h
  have hlt := hdr.extent_lt
  rw [extent_eq] at hlt
  omega

theorem sectionEnd_lt {e : ℕ} (h : e ∈ endsFrom 96 hdr.sectionSizes) : e < 2 ^ 64 := by
  have hle := (le_of_mem_endsFrom h).2
  have hlt := hdr.extent_lt
  rw [extent_eq] at hlt
  omega

end CatscopeTransactionHeader

/-! ### Acceptance -/

/-- The parse `x` of `data` gives `v` if the buffer reaches `finish`, and finds
it out of range otherwise. -/
def Decided {α : Type} (finish : ℕ) (data : List UInt8) (x : Except CatscopeZerohopError α) (v : α) :
    Prop :=
  (finish ≤ data.length ∧ x = .ok v) ∨ (data.length < finish ∧ x = .error .outofRange)

/-- **One section**: where its address is aligned it is taken and the parse goes
on behind it, or it is missing and so is the end. -/
theorem decided_takeSlice {T α : Type} {R : Bytes.Repr T} {addr count finish : ℕ} {data : List UInt8}
    {k : List T × ℕ → Except CatscopeZerohopError α} {v : α} (offset w align : ℕ) (hw : R.size = w)
    (halign : R.align = align) (ha : (addr + offset) % align = 0) (hlt : finish < 2 ^ 64)
    (hle : offset + count * w ≤ finish)
    (hk : offset + count * w ≤ data.length →
      Decided finish data (k (readMany R count (data.drop offset), offset + count * w)) v) :
    Decided finish data (takeSlice R addr data offset count >>= k) v := by
  subst hw halign
  by_cases hshort : data.length < offset + count * R.size
  · have hmul : checkedMul count R.size = .ok (count * R.size) :=
      checkedMul_eq_ok.mpr ⟨by omega, rfl⟩
    have hadd : checkedAdd offset (count * R.size) = .ok (offset + count * R.size) :=
      checkedAdd_eq_ok.mpr ⟨by omega, rfl⟩
    refine Or.inr ⟨by omega, ?_⟩
    simp only [takeSlice, hmul, hadd, bind, Except.bind, if_pos hshort]
  · have hfits : offset + count * R.size ≤ data.length := Nat.not_lt.mp hshort
    have hok := takeSlice_eq_ok.mpr ⟨Nat.lt_of_le_of_lt hle hlt, hfits, ha, rfl, rfl⟩
    rw [hok]
    exact hk hfits

/-- **The eight sections** of an aligned buffer are all there, or it is too
short for them. -/
theorem decided_takeSections (hdr : CatscopeTransactionHeader) {addr : ℕ} (data : List UInt8)
    (haddr : addr % 8 = 0) :
    Decided hdr.extent data (hdr.takeSections addr data) (hdr.viewOf data) := by
  have hlt := hdr.extent_lt
  have hix : checkedAdd hdr.outerLen.toNat hdr.innerLen.toNat =
      .ok (hdr.outerLen.toNat + hdr.innerLen.toNat) := by
    refine checkedAdd_eq_ok.mpr ⟨?_, rfl⟩
    unfold CatscopeTransactionHeader.extent at hlt
    omega
  simp only [CatscopeTransactionHeader.takeSections, hix]
  generalize hE : hdr.extent = finish at hlt ⊢
  unfold CatscopeTransactionHeader.extent at hE
  apply decided_takeSlice 96 16 8 rfl rfl (by omega) hlt (by omega)
  intro houter
  apply decided_takeSlice _ 16 8 rfl rfl (by omega) hlt (by omega)
  intro hinner
  apply decided_takeSlice _ 8 8 rfl rfl (by omega) hlt (by omega)
  intro haccount
  apply decided_takeSlice _ 8 8 rfl rfl (by omega) hlt (by omega)
  intro haccountChunk
  apply decided_takeSlice _ 2 2 rfl rfl (by omega) hlt (by omega)
  intro haccountChunkLast
  apply decided_takeSlice _ 2 2 rfl rfl (by omega) hlt (by omega)
  intro hdataChunkLast
  apply decided_takeSlice _ 1 1 rfl rfl (by omega) hlt (by omega)
  intro hl1Inner
  apply decided_takeSlice _ 1 1 rfl rfl (by omega) hlt (by omega)
  intro hdataChunk
  exact Or.inl ⟨by omega, rfl⟩

/-- What `try_from` gives, by what it checks in order. -/
theorem tryFrom_cases (addr : ℕ) (data : List UInt8) :
    (96 ≤ data.length ∧ addr % 8 = 0 ∧ (headerRepr.read data).extent ≤ data.length ∧
        CatscopeTransactionReadWrapper.tryFrom addr data = .ok ((headerRepr.read data).viewOf data)) ∨
      (96 ≤ data.length ∧ addr % 8 ≠ 0 ∧
        CatscopeTransactionReadWrapper.tryFrom addr data = .error .unalignedMemory) ∨
      (¬ (96 ≤ data.length ∧ addr % 8 ≠ 0) ∧
        data.length < max 96 (headerRepr.read data).extent ∧
        CatscopeTransactionReadWrapper.tryFrom addr data = .error .outofRange) := by
  unfold CatscopeTransactionReadWrapper.tryFrom
  by_cases hlen : data.length < headerRepr.size
  · rw [if_pos hlen]
    have h96 : data.length < 96 := hlen
    exact Or.inr (Or.inr ⟨by omega, by omega, rfl⟩)
  · rw [if_neg hlen]
    have h96 : 96 ≤ data.length := Nat.not_lt.mp hlen
    by_cases ha : addr % headerRepr.align ≠ 0
    · rw [if_pos ha]
      exact Or.inr (Or.inl ⟨h96, ha, rfl⟩)
    · rw [if_neg ha]
      have h8 : addr % 8 = 0 := not_not.mp ha
      rcases decided_takeSections (headerRepr.read data) data h8 with ⟨hfits, hok⟩ | ⟨hshort, herr⟩
      · exact Or.inl ⟨h96, h8, hfits, hok⟩
      · exact Or.inr (Or.inr ⟨by omega, by omega, herr⟩)

/-- **The accepted buffers** and their view. -/
theorem tryFrom_eq_ok_iff {addr : ℕ} {data : List UInt8} {view : CatscopeTransactionReadWrapper} :
    CatscopeTransactionReadWrapper.tryFrom addr data = .ok view ↔
      (96 ≤ data.length ∧ addr % 8 = 0 ∧ (headerRepr.read data).extent ≤ data.length) ∧
        (headerRepr.read data).viewOf data = view := by
  rcases tryFrom_cases addr data with ⟨h96, h8, hfits, hok⟩ | ⟨-, hne, herr⟩ | ⟨-, hshort, herr⟩
  · rw [hok, Except.ok.injEq]
    exact ⟨fun h => ⟨⟨h96, h8, hfits⟩, h⟩, fun h => h.2⟩
  · rw [herr]
    exact iff_of_false nofun fun h => hne h.1.2.1
  · rw [herr]
    apply iff_of_false nofun
    intro h
    omega

theorem tryFrom_error {addr : ℕ} {data : List UInt8} {e : CatscopeZerohopError}
    (h : CatscopeTransactionReadWrapper.tryFrom addr data = .error e) :
    e = if 96 ≤ data.length ∧ addr % 8 ≠ 0 then .unalignedMemory else .outofRange := by
  rcases tryFrom_cases addr data with ⟨-, -, -, hok⟩ | ⟨h96, hne, herr⟩ | ⟨hnot, -, herr⟩
  · rw [hok] at h
    cases h
  · rw [if_pos ⟨h96, hne⟩]
    exact Except.error.inj (h.symm.trans herr)
  · rw [if_neg hnot]
    exact Except.error.inj (h.symm.trans herr)

/-! ### The sections of an accepted buffer -/

/-- The pieces `secs` are the memory of the sections of `view`, in order. -/
def Sections (view : CatscopeTransactionReadWrapper) (secs : List (List UInt8)) : Prop :=
  ∃ outer inner account accountChunk accountChunkLast dataChunkLast l1Inner dataChunk : List UInt8,
    secs = [outer, inner, account, accountChunk, accountChunkLast, dataChunkLast, l1Inner,
      dataChunk] ∧
    Image instructionRepr view.outer outer ∧ Image instructionRepr view.inner inner ∧
    Image Repr.u64 view.account account ∧ Image Repr.u64 view.accountChunk accountChunk ∧
    Image Repr.u16 view.accountChunkLast accountChunkLast ∧
    Image Repr.u16 view.dataChunkLast dataChunkLast ∧
    Image Repr.u8 view.l1Inner l1Inner ∧ Image Repr.u8 view.dataChunk dataChunk

variable {hdr : CatscopeTransactionHeader} {data : List UInt8}

/-- **The sections tile the buffer** from the header on. -/
theorem sections_viewOf (h : hdr.extent ≤ data.length) :
    Sections (hdr.viewOf data) (pieces data 96 (endsFrom 96 hdr.sectionSizes)) := by
  unfold CatscopeTransactionHeader.extent at h
  have himage : ∀ {T : Type} {R : Bytes.Repr T} {n : ℕ} (start w : ℕ), R.size = w →
      start + n * w ≤ data.length →
      Image R (readMany R n (data.drop start)) ((data.take (start + n * w)).drop start) := by
    intro T R n start w hw hle
    subst hw
    rw [take_drop_eq]
    exact image_readMany n _ (by rw [List.length_drop]; omega)
  exact ⟨_, _, _, _, _, _, _, _, rfl, himage 96 16 rfl (by omega), himage _ 16 rfl (by omega),
    himage _ 8 rfl (by omega), himage _ 8 rfl (by omega), himage _ 2 rfl (by omega),
    himage _ 2 rfl (by omega), himage _ 1 rfl (by omega), himage _ 1 rfl (by omega)⟩

/-! ### Writing what was viewed -/

theorem header_bytes_read (h : 96 ≤ data.length) : (headerRepr.read data).bytes = data.take 96 := by
  have hsig : (Vector.ofFn fun i : Fin 64 => data.getD i 0).toList = data.take 64 := by
    apply List.ext_getElem
    · simp
      omega
    · intro i hi _
      have hlt : i < data.length := by
        simp at hi
        omega
      simp [hlt]
  have hword : ∀ off, off + 4 ≤ data.length →
      leBytes 4 (Repr.u32.read (bytesAt data off 4)).toNat = bytesAt data off 4 :=
    fun off hoff => leBytes_read_u32 (bytesAt_length hoff)
  have hindex : leBytes 8 (Repr.u64.read (bytesAt data 64 8)).toNat = bytesAt data 64 8 :=
    leBytes_read_u64 (bytesAt_length (by omega))
  simp only [CatscopeTransactionHeader.bytes, headerRepr, hsig, hindex]
  rw [hword 72 (by omega), hword 76 (by omega), hword 80 (by omega), hword 84 (by omega),
    hword 88 (by omega), hword 92 (by omega)]
  simp only [bytesAt, ← List.take_add, Nat.reduceAdd]

theorem instruction_bytes_read (pad : Vector UInt8 4) {b : List UInt8} (h : b.length = 16) :
    (instructionRepr.read b).bytes pad = b.take 12 ++ pad.toList := by
  have hprogram : leBytes 8 (Repr.u64.read (bytesAt b 0 8)).toNat = bytesAt b 0 8 :=
    leBytes_read_u64 (bytesAt_length (by omega))
  have hdata : leBytes 2 (Repr.u16.read (bytesAt b 8 2)).toNat = bytesAt b 8 2 :=
    leBytes_read_u16 (bytesAt_length (by omega))
  have haccount : leBytes 2 (Repr.u16.read (bytesAt b 10 2)).toNat = bytesAt b 10 2 :=
    leBytes_read_u16 (bytesAt_length (by omega))
  simp only [CatscopeInstruction.bytes, instructionRepr, hprogram, hdata, haccount]
  simp only [bytesAt, List.drop_zero, ← List.take_add, Nat.reduceAdd]

/-- The header is written back but for its last word. -/
theorem agree_header (h : 96 ≤ data.length) :
    Agree (headerRepr.read data).Significant
      ({ headerRepr.read data with pad := 0 } : CatscopeTransactionHeader).bytes (data.take 96) := by
  rw [← header_bytes_read h]
  refine (Agree.refl _ _).append ⟨by simp, ?_⟩
  intro k hk hsig
  simp only [leBytes_length, List.length_append, Vector.length_toList] at hk hsig
  exact absurd hsig.1 (by omega)

theorem writeMany_section {T : Type} {R : Bytes.Repr T} (data : List UInt8)
    (w : ℕ → T → List UInt8) (size : ℕ) (hsize : R.size = size)
    (hw : ∀ i b, b.length = R.size → w i (R.read b) = b) (n start : ℕ)
    (h : start + n * size ≤ data.length) :
    writeMany w 0 (readMany R n (data.drop start)) = (data.take (start + n * size)).drop start := by
  subst hsize
  rw [take_drop_eq]
  exact writeMany_readMany hw n 0 _ (by rw [List.length_drop]; omega)

theorem agree_instructions (data : List UInt8) (pad : ℕ → Vector UInt8 4) (n start : ℕ)
    (h : start + n * 16 ≤ data.length) :
    Agree (fun k => k % 16 < 12)
      (writeMany (fun i ix => ix.bytes (pad i)) 0 (readMany instructionRepr n (data.drop start)))
      ((data.take (start + n * 16)).drop start) := by
  rw [take_drop_eq]
  refine agree_writeMany (R := instructionRepr) ?_ ?_ n 0 _ ?_
  · intro k
    show (16 + k) % 16 < 12 ↔ k % 16 < 12
    rw [Nat.add_mod_left]
  · intro i b hb
    have hrest : Agree (fun k => ((b.take 12).length + k) % 16 < 12) (pad i).toList (b.drop 12) := by
      have h16 : b.length = 16 := hb
      refine ⟨by simp [h16], ?_⟩
      intro k hk hpad
      simp only [Vector.length_toList, List.length_take, h16] at hk hpad
      omega
    have hagree := (Agree.refl (fun k => k % 16 < 12) (b.take 12)).append hrest
    rwa [List.take_append_drop, ← instruction_bytes_read (pad i) hb] at hagree
  · rw [List.length_drop]
    show n * 16 ≤ data.length - start
    omega

/-- The transaction with the fields of a view. -/
def CatscopeTransactionReadWrapper.transaction (view : CatscopeTransactionReadWrapper) :
    CatscopeTransaction where
  signature := view.signature
  index := view.index
  dataChunkLast := view.dataChunkLast
  dataChunk := view.dataChunk
  accountChunkLast := view.accountChunkLast
  accountChunk := view.accountChunk
  outer := view.outer
  l1Inner := view.l1Inner
  inner := view.inner
  account := view.account

theorem header_transaction (hdr : CatscopeTransactionHeader) (data : List UInt8) :
    (hdr.viewOf data).transaction.header = { hdr with pad := 0 } := by
  simp only [CatscopeTransaction.header, CatscopeTransactionReadWrapper.transaction,
    CatscopeTransactionHeader.viewOf, readMany_length, UInt32.ofNat_toNat]

/-- **The sections are written back** but for the padding of the records. -/
theorem agree_sections (h : hdr.extent ≤ data.length) (pad : IxIndex → Vector UInt8 4) :
    Agree (fun k => hdr.Significant (96 + k)) ((hdr.viewOf data).transaction.sections pad)
      ((data.take hdr.extent).drop 96) := by
  rw [CatscopeTransactionHeader.extent_eq, ← flatten_pieces]
  unfold CatscopeTransactionHeader.extent at h
  have hids := writeMany_section (R := Repr.u64) data (fun _ id => leBytes 8 id.toNat) 8 rfl
    fun _ _ hb => leBytes_read_u64 hb
  have hlasts := writeMany_section (R := Repr.u16) data (fun _ last => leBytes 2 last.toNat) 2 rfl
    fun _ _ hb => leBytes_read_u16 hb
  have hbytes : ∀ n start, start + n * 1 ≤ data.length →
      readMany Repr.u8 n (data.drop start) = (data.take (start + n * 1)).drop start := by
    intro n start hle
    rw [take_drop_eq, Nat.mul_one]
    exact readMany_u8 n _ (by rw [List.length_drop]; omega)
  simp (disch := omega) only [CatscopeTransaction.sections,
    CatscopeTransactionReadWrapper.transaction, CatscopeTransactionHeader.viewOf, hids, hlasts, hbytes]
  simp only [CatscopeTransactionHeader.sectionSizes, pieces, endsFrom, List.zip_cons_cons,
    List.zip_nil_right, List.map_cons, List.map_nil, List.flatten_cons, List.flatten_nil, List.append_nil]
  have houter := agree_instructions data (fun i => pad (.outer i)) hdr.outerLen.toNat 96 (by omega)
  have hinner := agree_instructions data (fun i => pad (.inner i)) hdr.innerLen.toNat
    (96 + hdr.outerLen.toNat * 16) (by omega)
  have hol := houter.1
  have hil := hinner.1
  rw [List.length_drop, List.length_take] at hol hil
  refine (houter.mono ?_).append ((hinner.mono ?_).append (Agree.refl _ _))
  · intro k hk hsig
    have hpad := hsig.2
    omega
  · intro k hk hsig
    have hpad := hsig.2
    omega

/-- Without overflow checks `write_to` never panics. -/
theorem writeTo_unchecked (tx : CatscopeTransaction) (pad : IxIndex → Vector UInt8 4)
    (buf : List UInt8) :
    tx.writeTo false pad buf = some (buf ++ (tx.header.bytes ++ tx.sections pad)) := by
  have hadd : addU32 false tx.header.outerLen tx.header.innerLen =
      some (tx.header.outerLen + tx.header.innerLen) := if_neg fun h => Bool.noConfusion h.1
  simp only [CatscopeTransaction.writeTo, hadd, Option.bind_eq_bind, Option.bind_some, guard]
  rw [if_pos (fun h => Bool.noConfusion h), ← List.append_assoc]
  rfl

/-- **What was viewed is written back**, but for the bytes that carry no value. -/
theorem agree_viewOf (h96 : 96 ≤ data.length) (hhdr : hdr = headerRepr.read data)
    (h : hdr.extent ≤ data.length) (pad : IxIndex → Vector UInt8 4) :
    Agree hdr.Significant ((hdr.viewOf data).transaction.header.bytes ++
      (hdr.viewOf data).transaction.sections pad) (data.take hdr.extent) := by
  have hle : 96 ≤ hdr.extent := by
    rw [CatscopeTransactionHeader.extent_eq]
    omega
  have hsplit : data.take hdr.extent = data.take 96 ++ (data.take hdr.extent).drop 96 := by
    calc data.take hdr.extent
      _ = (data.take hdr.extent).take 96 ++ (data.take hdr.extent).drop 96 :=
        (List.take_append_drop 96 _).symm
      _ = data.take 96 ++ (data.take hdr.extent).drop 96 := by
        rw [List.take_take, Nat.min_eq_left hle]
  rw [hsplit, header_transaction]
  apply Agree.append (hhdr ▸ agree_header h96)
  have hlen : ({ hdr with pad := 0 } : CatscopeTransactionHeader).bytes.length = 96 :=
    header_bytes_length _
  rw [hlen]
  exact agree_sections h pad

/-- **The parser accepts exactly its format.** A buffer is viewed if and only if
it has a header, is aligned and reaches the end that the header gives; a
missing alignment is reported where there is a header, and everything else is
out of range. The count, the sizes and the ends of the sections fit a `usize`
for every header. The sections of a view are consecutive parts of the buffer
that tile it from the header to the end, and `write_to` gives the same bytes
at every position that carries a value. -/
theorem accepts_format (addr : ℕ) (data : List UInt8) :
    ((∃ view, CatscopeTransactionReadWrapper.tryFrom addr data = .ok view) ↔
      96 ≤ data.length ∧ addr % 8 = 0 ∧ (headerRepr.read data).extent ≤ data.length) ∧
    (∀ e, CatscopeTransactionReadWrapper.tryFrom addr data = .error e →
      e = if 96 ≤ data.length ∧ addr % 8 ≠ 0 then .unalignedMemory else .outofRange) ∧
    (∀ hdr : CatscopeTransactionHeader,
      hdr.outerLen.toNat + hdr.innerLen.toNat < 2 ^ 64 ∧ (∀ n ∈ hdr.sectionSizes, n < 2 ^ 64) ∧
        ∀ finish ∈ endsFrom 96 hdr.sectionSizes, finish < 2 ^ 64) ∧
    ∀ view, CatscopeTransactionReadWrapper.tryFrom addr data = .ok view →
      (96 :: endsFrom 96 (headerRepr.read data).sectionSizes).Pairwise (· ≤ ·) ∧
      (∃ secs, cutAt data 96 (endsFrom 96 (headerRepr.read data).sectionSizes) = some secs ∧
        secs.flatten = (data.take (headerRepr.read data).extent).drop 96 ∧ Sections view secs) ∧
      view.transaction.header = { headerRepr.read data with pad := 0 } ∧
      ∀ pad,
        (∀ buf, view.transaction.writeTo false pad buf =
          some (buf ++ (view.transaction.header.bytes ++ view.transaction.sections pad))) ∧
        Agree (headerRepr.read data).Significant
          (view.transaction.header.bytes ++ view.transaction.sections pad)
          (data.take (headerRepr.read data).extent) := by
  refine ⟨⟨?_, ?_⟩, fun e => tryFrom_error, ?_, ?_⟩
  · intro ⟨view, hv⟩
    exact (tryFrom_eq_ok_iff.mp hv).1
  · intro h
    exact ⟨_, tryFrom_eq_ok_iff.mpr ⟨h, rfl⟩⟩
  · intro hdr
    refine ⟨?_, fun n => hdr.size_lt, fun finish => hdr.sectionEnd_lt⟩
    have hlt := hdr.extent_lt
    unfold CatscopeTransactionHeader.extent at hlt
    omega
  · intro view hv
    obtain ⟨⟨h96, -, hfits⟩, rfl⟩ := tryFrom_eq_ok_iff.mp hv
    have hsum : 96 + (headerRepr.read data).sectionSizes.sum ≤ data.length := by
      rwa [← CatscopeTransactionHeader.extent_eq]
    have hsorted : (96 :: endsFrom 96 (headerRepr.read data).sectionSizes).Pairwise (· ≤ ·) :=
      List.pairwise_cons.mpr ⟨fun f hf => (le_of_mem_endsFrom hf).1, endsFrom_sorted 96 _⟩
    refine ⟨hsorted, ⟨_, cutAt_endsFrom hsum, ?_, sections_viewOf hfits⟩, header_transaction _ _, ?_⟩
    · rw [flatten_pieces, CatscopeTransactionHeader.extent_eq]
    · intro pad
      exact ⟨writeTo_unchecked _ pad, agree_viewOf h96 rfl hfits pad⟩

end Store
end Zerohop
