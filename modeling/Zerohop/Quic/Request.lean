/-
# Transaction requests

`TransactionRequest` of `quic.rs`, a struct in memory shared with clients: up
to 20 byte strings end to end in `data`, their number in `count` and their ends
in `list`. `append` is the writer, the slicing loop of `on_request` the reader.
`none` is a panic: an index or a slice out of range.

`append` never stores an end, so `list` stays all zero and the reader cuts
empty strings (`appends_spec`, `frames_iff_all_empty`).
-/
import Zerohop.Lib.Cuts
import Zerohop.Lib.Machine

namespace Zerohop
namespace Quic

open Cuts

/-- `MAX_TX_BUNDLE_SIZE`. -/
def maxTxBundleSize : ℕ := 20

/-- `MAX_TX_SIZE`. -/
def maxTxSize : ℕ := 1500

/-- `TransactionRequest`. -/
structure TransactionRequest where
  count : UInt8
  list : Vector UInt16 maxTxBundleSize
  data : List UInt8
  data_length : data.length = maxTxSize * maxTxBundleSize

namespace TransactionRequest

/-- `TransactionRequest::default()`. -/
def default : TransactionRequest where
  count := 0
  list := Vector.replicate maxTxBundleSize 0
  data := List.replicate (maxTxSize * maxTxBundleSize) 0
  data_length := List.length_replicate

/-- `self.data[start..start + bytes.len()].copy_from_slice(bytes)`. -/
def copyFromSlice (request : TransactionRequest) (start : ℕ) (bytes : List UInt8) :
    Option TransactionRequest :=
  if h : start + bytes.length ≤ request.data.length then
    some { request with
      data := overwrite request.data start bytes
      data_length := (overwrite_length h).trans request.data_length }
  else none

/-- Where entry `i` starts: at the end of the one before it. -/
def startOf (request : TransactionRequest) (i : ℕ) : Option UInt16 :=
  if i = 0 then some 0 else request.list.toList[i - 1]?

/-- `append`: the request afterwards and the answer. -/
def append (request : TransactionRequest) (bytes : List UInt8) : Option (TransactionRequest × Bool) :=
  if maxTxBundleSize ≤ request.count.toNat then some (request, false)
  else do
    let i := request.count.toNat
    let request := { request with count := request.count + 1 }
    let start ← request.startOf i
    if maxTxSize < bytes.length then some (request, false)
    else do
      let request ← request.copyFromSlice start.toNat bytes
      some (request, true)

/-- The slicing loop of `on_request` from index `i` on, `n` entries to go. -/
def cutFrom (request : TransactionRequest) : ℕ → ℕ → UInt16 → Option (List (List UInt8))
  | _, 0, _ => some []
  | i, n + 1, start => do
    let finish ← request.list.toList[i]?
    let tx ← slice request.data start.toNat finish.toNat
    let txs ← cutFrom request (i + 1) n finish
    some (tx :: txs)

/-- The batch that `on_request` cuts out of a request. -/
def cut (request : TransactionRequest) : Option (List (List UInt8)) :=
  request.cutFrom 0 request.count.toNat 0

/-! ### What `append` leaves -/

/-- No end has been stored. -/
def NoEnds (request : TransactionRequest) : Prop :=
  request.list = Vector.replicate maxTxBundleSize 0

theorem NoEnds.getElem? {request : TransactionRequest} (h : request.NoEnds) {i : ℕ} (hi : i < 20) :
    request.list.toList[i]? = some 0 := by
  have hlen : i < request.list.toList.length := by
    rw [Vector.length_toList]
    exact hi
  rw [List.getElem?_eq_getElem hlen]
  simp [show request.list = Vector.replicate maxTxBundleSize 0 from h]

/-- An append that fits is accepted and stores no end. -/
theorem append_spec {request : TransactionRequest} (h : request.NoEnds) {bytes : List UInt8}
    (hc : request.count.toNat < 20) (hb : bytes.length ≤ 1500) :
    ∃ request', request.append bytes = some (request', true) ∧ request'.NoEnds ∧
      request'.count.toNat = request.count.toNat + 1 := by
  have hfit : 0 + bytes.length ≤ request.data.length := by
    rw [request.data_length]
    simp only [maxTxSize, maxTxBundleSize]
    omega
  have hstart : request.startOf request.count.toNat = some 0 := by
    unfold startOf
    split_ifs
    · rfl
    · exact h.getElem? (by omega)
  have hcount : (request.count + 1).toNat = request.count.toNat + 1 := by
    rw [UInt8.toNat_add]
    exact Nat.mod_eq_of_lt (by simp; omega)
  refine ⟨{ request with
    count := request.count + 1
    data := overwrite request.data 0 bytes
    data_length := (overwrite_length hfit).trans request.data_length }, ?_, h, hcount⟩
  have h1 : ¬ maxTxBundleSize ≤ request.count.toNat := Nat.not_le.mpr hc
  have h2 : ¬ maxTxSize < bytes.length := Nat.not_lt.mpr hb
  have hstart' : ({ request with count := request.count + 1 } : TransactionRequest).startOf
      request.count.toNat = some 0 := hstart
  simp only [append, if_neg h1, hstart', if_neg h2, Option.bind_eq_bind, Option.bind_some,
    copyFromSlice, UInt16.toNat_zero, dif_pos hfit]

/-- **A whole run of appends**: while they fit all are accepted, and no end is
stored. -/
theorem appends_spec : ∀ (bs : List (List UInt8)) {request : TransactionRequest}, request.NoEnds →
    request.count.toNat + bs.length ≤ 20 → (∀ b ∈ bs, b.length ≤ 1500) →
    ∃ request', calls append request bs = some (request', bs.map fun _ => true) ∧
      request'.NoEnds ∧ request'.count.toNat = request.count.toNat + bs.length
  | [], request, h, _, _ => ⟨request, rfl, h, rfl⟩
  | b :: bs, request, h, hc, hb => by
    rw [List.length_cons] at hc
    obtain ⟨r1, ha, h1, hc1⟩ := append_spec h (by omega) (hb b (List.mem_cons_self ..))
    obtain ⟨r2, hs, h2, hc2⟩ := appends_spec bs h1 (by omega) fun b' hb' =>
      hb b' (List.mem_cons_of_mem _ hb')
    refine ⟨r2, calls_cons_eq_some.mpr ⟨r1, true, _, ha, hs, rfl⟩, h2, ?_⟩
    rw [List.length_cons]
    omega

/-! ### What the reader cuts -/

theorem NoEnds.cutFrom {request : TransactionRequest} (h : request.NoEnds) : ∀ (n i : ℕ),
    i + n ≤ 20 → request.cutFrom i n 0 = some (List.replicate n [])
  | 0, _, _ => rfl
  | n + 1, i, hi => by
    have hcut := h.cutFrom n (i + 1) (by omega)
    simp only [TransactionRequest.cutFrom, h.getElem? (show i < 20 by omega), UInt16.toNat_zero,
      slice_self request.data 0 (Nat.zero_le _), hcut, Option.bind_eq_bind, Option.bind_some,
      List.replicate_succ]

theorem NoEnds.cut {request : TransactionRequest} (h : request.NoEnds)
    (hc : request.count.toNat ≤ 20) :
    request.cut = some (List.replicate request.count.toNat []) :=
  h.cutFrom _ 0 (by omega)

theorem replicate_nil_eq_iff {bs : List (List UInt8)} :
    List.replicate bs.length [] = bs ↔ ∀ b ∈ bs, b = [] := by
  rw [eq_comm, List.eq_replicate_iff]
  exact and_iff_right rfl

/-- Every append is accepted and the reader cuts what was appended. -/
def Frames (bs : List (List UInt8)) : Prop :=
  ∃ request, calls append default bs = some (request, bs.map fun _ => true) ∧ request.cut = some bs

theorem frames_iff {bs : List (List UInt8)} (hn : bs.length ≤ 20) (hb : ∀ b ∈ bs, b.length ≤ 1500) :
    Frames bs ↔ List.replicate bs.length [] = bs := by
  have h0 : NoEnds default := rfl
  obtain ⟨request, hr, hz, hc⟩ := appends_spec bs h0 (by simpa [default] using hn) hb
  have hcount : request.count.toNat = bs.length := by simpa [default] using hc
  have hcut := hz.cut (by omega)
  rw [hcount] at hcut
  simp only [Frames, hr, Option.some.injEq, Prod.mk.injEq, and_true, exists_eq_left', hcut]

/-- **A bundle within the limits survives exactly if** all its strings are
empty. -/
theorem frames_iff_all_empty {bs : List (List UInt8)} (hn : bs.length ≤ maxTxBundleSize)
    (hb : ∀ b ∈ bs, b.length ≤ maxTxSize) : Frames bs ↔ ∀ b ∈ bs, b = [] :=
  (frames_iff hn hb).trans replicate_nil_eq_iff

theorem frames_two_empty : Frames [[], []] :=
  (frames_iff_all_empty (by decide) (by decide)).mpr (by decide)

/-- One string of one byte: it is accepted and cut empty. -/
theorem one_byte_lost : ([[1]] : List (List UInt8)).length ≤ maxTxBundleSize ∧ ¬ Frames [[1]] := by
  refine ⟨by decide, ?_⟩
  intro h
  have := (frames_iff (by decide) (by decide)).mp h
  revert this
  decide

end TransactionRequest

end Quic
end Zerohop
