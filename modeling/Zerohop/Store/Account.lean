/-
# Account snapshots

A `SolanaAccount` of `store.rs` is a blob of memory, a header and behind it the
data of the account, and perhaps a second blob with its edges. `header`, `data`
and `edge` read them in place; `none` is a panic, of an assertion or of a slice
out of range, or a pointer that is not aligned. A `NamedBlob` is a blob read as
an array.

The header and the data that are read are those of just one way to lay out the
blob, up to its padding (`snapshot_iff`), and so are the edges (`edges_iff`). Two
things are left to whoever made the blob and are not checked by the source: that
the byte of `executable` is 0 or 1, and that edges and arrays are aligned.

Key definitions: `AccountHeader`, `SolanaAccount`, `NamedBlob`, `fromRawParts`.
Key theorems: `account_header_read_bytes`, `snapshot_iff`, `named_blob_iff`,
`edges_iff`.
-/
import Zerohop.Store.Edge
import Zerohop.Store.RoundTrip

namespace Zerohop
namespace Store

open Bytes

abbrev Pubkey := Vector UInt8 32

/-- The header of an account. -/
structure AccountHeader where
  pubkey : Pubkey
  lamports : UInt64
  accountId : AccountId
  owner : Pubkey
  writeVersion : UInt64
  slot : UInt64
  dataSize : UInt32
  executable : Bool
deriving DecidableEq

namespace AccountHeader

/-- The order of headers, by slot alone. -/
def cmp (a b : AccountHeader) : Ordering := compare a.slot b.slot

def partialCmp (a b : AccountHeader) : Option Ordering := some (a.cmp b)

theorem comparesBy_slot : Comparison.ComparesBy (fun header : AccountHeader => header.slot.toNat) cmp :=
  fun a b => AccountEdge.compare_toNat64 a.slot b.slot

/-- An ordered map has one entry a slot, although headers of one slot need not be equal. -/
theorem orderedMap_by_slot {β : Type} (m : Std.TreeMap AccountHeader β cmp) (k e : AccountHeader)
    (v : β) : (m.insert k v)[e]? = if k.slot = e.slot then some v else m[e]? := by
  have := comparesBy_slot.transCmp
  rw [Std.TreeMap.getElem?_insert]
  refine if_congr ?_ rfl rfl
  rw [comparesBy_slot.eq_iff, UInt64.toNat_inj]

end AccountHeader

/-! ### Values in memory -/

/-- The `n` bytes at offset `off`, as they are. -/
def vectorAt (n : ℕ) (bs : List UInt8) (off : ℕ) : Vector UInt8 n :=
  Vector.ofFn fun i => bs.getD (off + i) 0

/-- A header in memory, `repr(C, align(8))`: 101 bytes and 3 of padding. -/
def accountHeaderRepr : Bytes.Repr AccountHeader where
  size := 104
  align := 8
  read bs := {
    pubkey := vectorAt 32 bs 0
    lamports := Repr.u64.read (bytesAt bs 32 8)
    accountId := Repr.u64.read (bytesAt bs 40 8)
    owner := vectorAt 32 bs 48
    writeVersion := Repr.u64.read (bytesAt bs 80 8)
    slot := Repr.u64.read (bytesAt bs 88 8)
    dataSize := Repr.u32.read (bytesAt bs 96 4)
    executable := bytesAt bs 100 1 == [1] }

/-- A `bool` in memory. -/
def boolBytes (b : Bool) : List UInt8 := [if b then 1 else 0]

def AccountHeader.bytes (pad : Vector UInt8 3) (header : AccountHeader) : List UInt8 :=
  header.pubkey.toList ++ leBytes 8 header.lamports.toNat ++ leBytes 8 header.accountId.toNat ++
    header.owner.toList ++ leBytes 8 header.writeVersion.toNat ++ leBytes 8 header.slot.toNat ++
    leBytes 4 header.dataSize.toNat ++ boolBytes header.executable ++ pad.toList

/-- An edge in memory, `repr(C, align(8))`, with 4 bytes of padding before the slot. -/
def edgeRepr : Bytes.Repr AccountEdge where
  size := 32
  align := 8
  read bs := {
    fromId := Repr.u64.read (bytesAt bs 0 8)
    toId := Repr.u64.read (bytesAt bs 8 8)
    weight := Repr.u32.read (bytesAt bs 16 4)
    slot := Repr.u64.read (bytesAt bs 24 8) }

def AccountEdge.bytes (pad : Vector UInt8 4) (edge : AccountEdge) : List UInt8 :=
  leBytes 8 edge.fromId.toNat ++ leBytes 8 edge.toId.toNat ++ leBytes 4 edge.weight.toNat ++ pad.toList ++
    leBytes 8 edge.slot.toNat

/-! ### Blobs and accounts -/

/-- What `slice()` of a blob gives, and the address of its first byte. -/
structure Blob where
  addr : ℕ
  slice : List UInt8

/-- `bytes_to_struct`, with its two assertions. -/
def bytesToStruct {T : Type} (R : Bytes.Repr T) (addr : ℕ) (data : List UInt8) : Option T := do
  guard (R.size = data.length)
  guard (addr % R.align = 0)
  pure (R.read data)

/-- `slice::from_raw_parts` for `count` values. Its pointer must be aligned, which
is undefined behaviour otherwise, and an abort with debug assertions. -/
def fromRawParts {T : Type} (R : Bytes.Repr T) (addr count : ℕ) (data : List UInt8) : Option (List T) := do
  guard (addr % R.align = 0)
  pure (readMany R count data)

structure SolanaAccount where
  blob : Blob
  oEdge : Option Blob
  ticket : UInt64

namespace SolanaAccount

variable (account : SolanaAccount)

def header : Option AccountHeader := do
  let slice := account.blob.slice
  guard (accountHeaderRepr.size ≤ slice.length)
  bytesToStruct accountHeaderRepr account.blob.addr (slice.take accountHeaderRepr.size)

/-- The data, if there is any. -/
def data : Option (Option (List UInt8)) :=
  let slice := account.blob.slice
  if slice.length = accountHeaderRepr.size then some none
  else (Cuts.slice slice accountHeaderRepr.size slice.length).map some

/-- The edges, if there is a blob of them. -/
def edge : Option (Option (List AccountEdge)) :=
  match account.oEdge with
  | none => some none
  | some blob => do
    guard (blob.slice ≠ [] ∧ blob.slice.length % edgeRepr.size = 0)
    let edges ← fromRawParts edgeRepr blob.addr (blob.slice.length / edgeRepr.size) blob.slice
    pure (some edges)

end SolanaAccount

/-- `NamedBlob<T>`. -/
structure NamedBlob where
  blob : Blob

namespace NamedBlob

variable {T : Type}

def new (R : Bytes.Repr T) (blob : Blob) : Except CatscopeZerohopError NamedBlob :=
  if blob.slice.length % R.size ≠ 0 then .error .unalignedMemory else .ok ⟨blob⟩

def vecPayload (R : Bytes.Repr T) (named : NamedBlob) : Option (List T) := do
  let slice := named.blob.slice
  guard (R.size ≠ 0) -- the remainder by it is taken
  guard (slice.length % R.size = 0)
  fromRawParts R named.blob.addr (slice.length / R.size) slice

end NamedBlob

/-! ### Reading back -/

theorem vectorAt_toList {n : ℕ} {bs : List UInt8} {off : ℕ} (h : off + n ≤ bs.length) :
    (vectorAt n bs off).toList = bytesAt bs off n := by
  apply List.ext_getElem
  · rw [Vector.length_toList, bytesAt_length h]
  · intro i hi _
    have hlt : off + i < bs.length := by
      rw [Vector.length_toList] at hi
      omega
    simp [vectorAt, bytesAt, List.getElem_take, List.getElem_drop, hlt]

theorem vectorAt_eq {n : ℕ} {bs : List UInt8} {off : ℕ} {key : Vector UInt8 n} (h : off + n ≤ bs.length)
    (hkey : bytesAt bs off n = key.toList) : vectorAt n bs off = key := by
  apply Vector.toList_inj.mp
  rw [vectorAt_toList h, hkey]

theorem account_header_bytes_length (pad : Vector UInt8 3) (header : AccountHeader) :
    (header.bytes pad).length = accountHeaderRepr.size := by
  simp [AccountHeader.bytes, boolBytes, accountHeaderRepr]

/-- A header is read back from the front of what follows it, whatever its padding holds. -/
theorem account_header_read_bytes (pad : Vector UInt8 3) (header : AccountHeader) (rest : List UInt8) :
    accountHeaderRepr.read (header.bytes pad ++ rest) = header := by
  have hlen : ∀ off, off + 32 ≤ 104 → off + 32 ≤ (header.bytes pad ++ rest).length := by
    intro off hoff
    rw [List.length_append, account_header_bytes_length]
    simp only [accountHeaderRepr]
    omega
  have hpubkey : vectorAt 32 (header.bytes pad ++ rest) 0 = header.pubkey := by
    apply vectorAt_eq (hlen 0 (by omega))
    simp (disch := simp) only [AccountHeader.bytes, List.append_assoc, bytesAt_here]
  have howner : vectorAt 32 (header.bytes pad ++ rest) 48 = header.owner := by
    apply vectorAt_eq (hlen 48 (by omega))
    simp (disch := simp) only [AccountHeader.bytes, List.append_assoc, bytesAt_here, bytesAt_skip,
      leBytes_length, Vector.length_toList, Nat.reduceSub]
  have hbool : (boolBytes header.executable == [1]) = header.executable := by
    cases header.executable <;> rfl
  simp only [accountHeaderRepr, hpubkey, howner]
  simp (disch := simp [boolBytes]) only [AccountHeader.bytes, List.append_assoc, bytesAt_here, bytesAt_skip,
    leBytes_length, Vector.length_toList, Nat.reduceSub, read_u64, read_u32, hbool]

/-- The bytes that a header was read from, its `bool` being one. -/
theorem account_header_bytes_read {bs : List UInt8} (h : bs.length = 104)
    (hbool : bytesAt bs 100 1 = [0] ∨ bytesAt bs 100 1 = [1]) :
    (accountHeaderRepr.read bs).bytes (vectorAt 3 bs 101) = bs := by
  have hword : ∀ off, off + 8 ≤ bs.length →
      leBytes 8 (Repr.u64.read (bytesAt bs off 8)).toNat = bytesAt bs off 8 :=
    fun off hoff => leBytes_read_u64 (bytesAt_length hoff)
  have hsize : leBytes 4 (Repr.u32.read (bytesAt bs 96 4)).toNat = bytesAt bs 96 4 :=
    leBytes_read_u32 (bytesAt_length (by omega))
  have hexecutable : boolBytes (bytesAt bs 100 1 == [1]) = bytesAt bs 100 1 := by
    rcases hbool with h0 | h1
    · rw [h0]
      rfl
    · rw [h1]
      rfl
  simp only [AccountHeader.bytes, accountHeaderRepr, hexecutable, hsize]
  rw [hword 32 (by omega), hword 40 (by omega), hword 80 (by omega), hword 88 (by omega),
    vectorAt_toList (by omega), vectorAt_toList (by omega), vectorAt_toList (by omega)]
  simp only [bytesAt, List.drop_zero, ← List.take_add, Nat.reduceAdd]
  exact List.take_of_length_le (Nat.le_of_eq h)

theorem edge_bytes_length (pad : Vector UInt8 4) (edge : AccountEdge) :
    (edge.bytes pad).length = edgeRepr.size := by
  simp [AccountEdge.bytes, edgeRepr]

theorem edge_read_bytes (pad : Vector UInt8 4) (edge : AccountEdge) :
    edgeRepr.read (edge.bytes pad) = edge := by
  rw [← List.append_nil (edge.bytes pad)]
  simp (disch := simp) only [edgeRepr, AccountEdge.bytes, List.append_assoc, bytesAt_here, bytesAt_skip,
    leBytes_length, Vector.length_toList, Nat.reduceSub, read_u64, read_u32]

theorem edge_bytes_read {bs : List UInt8} (h : bs.length = edgeRepr.size) :
    ∃ pad, (edgeRepr.read bs).bytes pad = bs := by
  have h32 : bs.length = 32 := h
  have hword : ∀ off, off + 8 ≤ bs.length →
      leBytes 8 (Repr.u64.read (bytesAt bs off 8)).toNat = bytesAt bs off 8 :=
    fun off hoff => leBytes_read_u64 (bytesAt_length hoff)
  have hweight : leBytes 4 (Repr.u32.read (bytesAt bs 16 4)).toNat = bytesAt bs 16 4 :=
    leBytes_read_u32 (bytesAt_length (by omega))
  refine ⟨vectorAt 4 bs 20, ?_⟩
  simp only [AccountEdge.bytes, edgeRepr, hweight]
  rw [hword 0 (by omega), hword 8 (by omega), hword 24 (by omega), vectorAt_toList (by omega)]
  simp only [bytesAt, List.drop_zero, ← List.take_add, Nat.reduceAdd]
  exact List.take_of_length_le (Nat.le_of_eq h32)

/-! ### Snapshots -/

namespace SolanaAccount

variable {account : SolanaAccount}

theorem header_eq_some {header : AccountHeader} : account.header = some header ↔
    104 ≤ account.blob.slice.length ∧ account.blob.addr % 8 = 0 ∧
      accountHeaderRepr.read (account.blob.slice.take 104) = header := by
  have hsize : accountHeaderRepr.size = 104 := rfl
  have halign : accountHeaderRepr.align = 8 := rfl
  unfold SolanaAccount.header bytesToStruct
  rw [hsize, halign]
  by_cases hlen : 104 ≤ account.blob.slice.length
  · simp [guard, hlen, Option.bind_eq_some_iff]
  · simp [guard, hlen]

theorem data_eq_some {body : List UInt8} :
    account.data = some (if body = [] then none else some body) ↔
      104 ≤ account.blob.slice.length ∧ account.blob.slice.drop 104 = body := by
  have hsize : accountHeaderRepr.size = 104 := rfl
  unfold SolanaAccount.data
  rw [hsize]
  rcases Nat.lt_trichotomy account.blob.slice.length 104 with hlt | heq | hgt
  · have hslice : Cuts.slice account.blob.slice 104 account.blob.slice.length = none :=
      if_neg fun h => absurd h.1 (Nat.not_le.mpr hlt)
    simp [hslice, Nat.ne_of_lt hlt, Nat.not_le.mpr hlt]
  · have hdrop : account.blob.slice.drop 104 = [] := List.drop_eq_nil_of_le (Nat.le_of_eq heq)
    rw [if_pos heq, hdrop]
    by_cases hbody : body = []
    · simp [hbody, heq]
    · simp [hbody, Ne.symm hbody]
  · have hne : account.blob.slice.drop 104 ≠ [] := by
      rw [Ne, List.drop_eq_nil_iff]
      omega
    rw [if_neg (Nat.ne_of_gt hgt), Cuts.slice_eq_some (Nat.le_of_lt hgt) (Nat.le_refl _), List.take_length,
      Option.map_some]
    by_cases hbody : body = []
    · simp [hbody, hne]
    · simp [hbody, Nat.le_of_lt hgt]

end SolanaAccount

/-- **A snapshot and its parts.** A header and data are read from a blob exactly
if the blob is aligned and is the memory of that header, whatever its padding
holds, with that data behind it. -/
theorem snapshot_iff (account : SolanaAccount)
    (hbool : ∀ b, account.blob.slice[100]? = some b → b = 0 ∨ b = 1) (header : AccountHeader)
    (body : List UInt8) :
    account.header = some header ∧ account.data = some (if body = [] then none else some body) ↔
      account.blob.addr % 8 = 0 ∧ ∃ pad, account.blob.slice = header.bytes pad ++ body := by
  rw [SolanaAccount.header_eq_some, SolanaAccount.data_eq_some]
  constructor
  · rintro ⟨⟨hlen, haddr, hread⟩, -, hbody⟩
    have htake : (account.blob.slice.take 104).length = 104 := by
      rw [List.length_take]
      omega
    have hbyte : bytesAt (account.blob.slice.take 104) 100 1 = [0] ∨
        bytesAt (account.blob.slice.take 104) 100 1 = [1] := by
      have hlt : 100 < account.blob.slice.length := by omega
      have hone : bytesAt (account.blob.slice.take 104) 100 1 = [account.blob.slice[100]] := by
        rw [bytesAt, List.drop_take, List.drop_eq_getElem_cons hlt]
        rfl
      rw [hone]
      exact (hbool _ (List.getElem?_eq_getElem hlt)).imp (fun h => by rw [h]) (fun h => by rw [h])
    have hbytes := account_header_bytes_read htake hbyte
    rw [hread] at hbytes
    refine ⟨haddr, vectorAt 3 (account.blob.slice.take 104) 101, ?_⟩
    rw [hbytes, ← hbody, List.take_append_drop]
  · rintro ⟨haddr, pad, hslice⟩
    have hlen : (header.bytes pad).length = 104 := account_header_bytes_length pad header
    have hle : 104 ≤ account.blob.slice.length := by
      rw [hslice, List.length_append]
      omega
    have hread := account_header_read_bytes pad header []
    rw [List.append_nil] at hread
    refine ⟨⟨hle, haddr, ?_⟩, hle, ?_⟩
    · rw [hslice, List.take_left' hlen, hread]
    · rw [hslice, List.drop_left' hlen]

/-- An account of one lamport whose data is one byte. -/
def oneLamport : AccountHeader where
  pubkey := Vector.replicate 32 0
  lamports := .ofNat 1
  accountId := 7
  owner := Vector.replicate 32 0
  writeVersion := 5
  slot := 9
  dataSize := .ofNat 1
  executable := true

theorem snapshot_iff_one_lamport : ∃ account : SolanaAccount,
    account.header = some oneLamport ∧ account.data = some (some [255]) := by
  let pad : Vector UInt8 3 := Vector.replicate 3 170
  let account : SolanaAccount := ⟨⟨4096, oneLamport.bytes pad ++ [255]⟩, none, 5⟩
  have hbool : ∀ b, account.blob.slice[100]? = some b → b = 0 ∨ b = 1 := by
    have hbyte : account.blob.slice[100]? = some 1 := by decide
    intro b hb
    rw [hbyte] at hb
    exact .inr (Option.some.inj hb).symm
  have haligned : account.blob.addr % 8 = 0 := by decide
  exact ⟨account, (snapshot_iff account hbool oneLamport [255]).mpr ⟨haligned, pad, rfl⟩⟩

/-! ### Arrays -/

section Arrays

variable {T : Type} {R : Bytes.Repr T}

theorem readMany_eq_iff (hR : 0 < R.size) {bs : List UInt8} {ts : List T} :
    bs.length % R.size = 0 ∧ readMany R (bs.length / R.size) bs = ts ↔ Image R ts bs := by
  constructor
  · rintro ⟨hmod, hread⟩
    have hlen : bs.length / R.size * R.size = bs.length := Nat.div_mul_cancel (Nat.dvd_of_mod_eq_zero hmod)
    have himage := image_readMany (R := R) (bs.length / R.size) bs (Nat.le_of_eq hlen)
    rwa [hread, hlen, List.take_length] at himage
  · intro himage
    have hread := readMany_image himage []
    rw [List.append_nil] at hread
    rw [himage.length, Nat.mul_mod_left, Nat.mul_div_cancel _ hR]
    exact ⟨rfl, hread⟩

theorem fromRawParts_eq_some {addr count : ℕ} {data : List UInt8} {ts : List T} :
    fromRawParts R addr count data = some ts ↔ addr % R.align = 0 ∧ readMany R count data = ts := by
  simp [fromRawParts, guard, Option.bind_eq_some_iff]

/-- **A blob as an array.** `new` accepts a blob and `vec_payload` gives `ts`
exactly if the blob is aligned for them and is the memory of `ts`. -/
theorem named_blob_iff (hR : 0 < R.size) (blob : Blob) (ts : List T) :
    (∃ named, NamedBlob.new R blob = .ok named ∧ named.vecPayload R = some ts) ↔
      blob.addr % R.align = 0 ∧ Image R ts blob.slice := by
  rw [← readMany_eq_iff hR]
  unfold NamedBlob.new
  by_cases hmod : blob.slice.length % R.size = 0
  · simp [NamedBlob.vecPayload, guard, hmod, Nat.ne_of_gt hR, fromRawParts_eq_some]
  · simp [hmod]

end Arrays

/-- **The edges of an account.** They are read exactly if there is a blob of
them, not an empty one, that is aligned and is their memory, whatever the
padding of each. -/
theorem edges_iff (account : SolanaAccount) (edges : List AccountEdge) :
    account.edge = some (some edges) ↔ edges ≠ [] ∧ ∃ (blob : Blob) (pad : ℕ → Vector UInt8 4),
      account.oEdge = some blob ∧ blob.addr % 8 = 0 ∧
        blob.slice = writeMany (fun i edge => edge.bytes (pad i)) 0 edges := by
  have hread : account.edge = some (some edges) ↔
      ∃ blob, account.oEdge = some blob ∧ blob.slice ≠ [] ∧ blob.addr % 8 = 0 ∧
        Image edgeRepr edges blob.slice := by
    have halign : edgeRepr.align = 8 := rfl
    unfold SolanaAccount.edge
    cases account.oEdge with
    | none => simp
    | some blob =>
      simp [guard, Option.bind_eq_some_iff, fromRawParts_eq_some, halign,
        ← readMany_eq_iff (R := edgeRepr) (by decide), and_assoc, and_left_comm]
  have hempty : ∀ {bs : List UInt8}, Image edgeRepr edges bs → (bs ≠ [] ↔ edges ≠ []) := by
    intro bs himage
    have hlen := himage.length
    rw [← List.length_pos_iff, ← List.length_pos_iff, hlen]
    simp only [edgeRepr]
    omega
  rw [hread]
  constructor
  · rintro ⟨blob, hblob, hne, haddr, himage⟩
    obtain ⟨pad, hpad⟩ := himage.exists_writeMany (fun _ => edge_bytes_read) 0
    exact ⟨(hempty himage).mp hne, blob, pad, hblob, haddr, hpad.symm⟩
  · rintro ⟨hne, blob, pad, hblob, haddr, hslice⟩
    have himage : Image edgeRepr edges blob.slice := by
      rw [hslice]
      exact image_writeMany (fun i => edge_bytes_length (pad i)) (fun i => edge_read_bytes (pad i)) 0 edges
    exact ⟨blob, hblob, (hempty himage).mpr hne, haddr, himage⟩

end Store
end Zerohop
