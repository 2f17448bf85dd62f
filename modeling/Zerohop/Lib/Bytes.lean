/-
# Values in memory, little-endian

A `Repr` says how a type lies in memory: the size and alignment of one value
and how a value is read from its bytes. A type with padding has many byte
images of one value, so the writing side is a relation: `Image R ts bs` holds
when `bs` is one of the images of the array `ts`. Reading an array back from
any image of it gives the array (`readMany_image`), and every long enough run
of bytes is an image of the array read from it (`image_readMany`).

Where only the bytes that are not padding matter, byte strings are compared at
the positions of a predicate (`Agree`).

Key definitions: `leBytes`, `ofLe`, `Repr`, `Image`, `writeMany`, `readMany`,
`Agree`.
-/
import Mathlib.Data.List.Basic
import Mathlib.Data.Nat.Basic
import Mathlib.Logic.Function.Basic
import Mathlib.Tactic.Ring

namespace Zerohop
namespace Bytes

/-- The `w` low bytes of `n`, least significant first. -/
def leBytes : ℕ → ℕ → List UInt8
  | 0, _ => []
  | w + 1, n => UInt8.ofNat n :: leBytes w (n / 256)

/-- The number whose bytes, least significant first, are `bs`. -/
def ofLe : List UInt8 → ℕ
  | [] => 0
  | b :: bs => b.toNat + 256 * ofLe bs

@[simp] theorem leBytes_length : ∀ w n : ℕ, (leBytes w n).length = w
  | 0, _ => rfl
  | w + 1, n => by simp [leBytes, leBytes_length w]

theorem ofLe_leBytes : ∀ w n : ℕ, n < 256 ^ w → ofLe (leBytes w n) = n
  | 0, n, h => by
    obtain rfl : n = 0 := by simpa using h
    rfl
  | w + 1, n, h => by
    have hq : n / 256 < 256 ^ w := by
      rw [pow_succ] at h
      exact Nat.div_lt_of_lt_mul (by rwa [Nat.mul_comm] at h)
    simp only [leBytes, ofLe, ofLe_leBytes w _ hq, UInt8.toNat_ofNat']
    omega

theorem ofLe_lt : ∀ bs : List UInt8, ofLe bs < 256 ^ bs.length
  | [] => by simp [ofLe]
  | b :: bs => by
    have ih := ofLe_lt bs
    have hb := b.toNat_lt
    rw [ofLe, List.length_cons, pow_succ]
    omega

theorem leBytes_ofLe : ∀ bs : List UInt8, leBytes bs.length (ofLe bs) = bs
  | [] => rfl
  | b :: bs => by
    have hb := b.toNat_lt
    have hlow : UInt8.ofNat (b.toNat + 256 * ofLe bs) = b := by
      apply UInt8.toNat_inj.mp
      rw [UInt8.toNat_ofNat']
      omega
    have hhigh : (b.toNat + 256 * ofLe bs) / 256 = ofLe bs := by omega
    rw [List.length_cons, ofLe, leBytes, hlow, hhigh, leBytes_ofLe bs]

/-- How a type lies in memory. -/
structure Repr (T : Type*) where
  size : ℕ
  align : ℕ
  read : List UInt8 → T

namespace Repr

def u8 : Repr UInt8 := ⟨1, 1, fun bs => UInt8.ofNat (ofLe bs)⟩

def u16 : Repr UInt16 := ⟨2, 2, fun bs => UInt16.ofNat (ofLe bs)⟩

def u32 : Repr UInt32 := ⟨4, 4, fun bs => UInt32.ofNat (ofLe bs)⟩

def u64 : Repr UInt64 := ⟨8, 8, fun bs => UInt64.ofNat (ofLe bs)⟩

end Repr

theorem read_u8 (x : UInt8) : Repr.u8.read [x] = x := by
  simp [Repr.u8, ofLe]

theorem read_u16 (x : UInt16) : Repr.u16.read (leBytes 2 x.toNat) = x := by
  simp only [Repr.u16, ofLe_leBytes 2 _ x.toNat_lt, UInt16.ofNat_toNat]

theorem read_u32 (x : UInt32) : Repr.u32.read (leBytes 4 x.toNat) = x := by
  simp only [Repr.u32, ofLe_leBytes 4 _ x.toNat_lt, UInt32.ofNat_toNat]

theorem read_u64 (x : UInt64) : Repr.u64.read (leBytes 8 x.toNat) = x := by
  simp only [Repr.u64, ofLe_leBytes 8 _ x.toNat_lt, UInt64.ofNat_toNat]

theorem leBytes_read_u16 {bs : List UInt8} (h : bs.length = 2) :
    leBytes 2 (Repr.u16.read bs).toNat = bs := by
  have hlt := ofLe_lt bs
  rw [h] at hlt
  simp only [Repr.u16, UInt16.toNat_ofNat_of_lt' hlt]
  rw [← h, leBytes_ofLe]

theorem leBytes_read_u32 {bs : List UInt8} (h : bs.length = 4) :
    leBytes 4 (Repr.u32.read bs).toNat = bs := by
  have hlt := ofLe_lt bs
  rw [h] at hlt
  simp only [Repr.u32, UInt32.toNat_ofNat_of_lt' hlt]
  rw [← h, leBytes_ofLe]

theorem leBytes_read_u64 {bs : List UInt8} (h : bs.length = 8) :
    leBytes 8 (Repr.u64.read bs).toNat = bs := by
  have hlt := ofLe_lt bs
  rw [h] at hlt
  simp only [Repr.u64, UInt64.toNat_ofNat_of_lt' hlt]
  rw [← h, leBytes_ofLe]

section Arrays

variable {T : Type*} (R : Repr T)

/-- `bs` is the memory of the array `ts`, whatever its padding. -/
inductive Image : List T → List UInt8 → Prop
  | nil : Image [] []
  | cons {ts : List T} {bs : List UInt8} (b : List UInt8) : b.length = R.size → Image ts bs →
      Image (R.read b :: ts) (b ++ bs)

/-- The `n` values that start at the front of `bs`. -/
def readMany : ℕ → List UInt8 → List T
  | 0, _ => []
  | n + 1, bs => R.read (bs.take R.size) :: readMany n (bs.drop R.size)

/-- The bytes of an array whose `i`-th value `t` is written as `w i t`. -/
def writeMany (w : ℕ → T → List UInt8) : ℕ → List T → List UInt8
  | _, [] => []
  | i, t :: ts => w i t ++ writeMany w (i + 1) ts

variable {R}

theorem Image.length {ts : List T} {bs : List UInt8} (h : Image R ts bs) :
    bs.length = ts.length * R.size := by
  induction h with
  | nil => simp
  | cons b hb _ ih => rw [List.length_append, List.length_cons, hb, ih]; ring

@[simp] theorem readMany_length : ∀ (n : ℕ) (bs : List UInt8), (readMany R n bs).length = n
  | 0, _ => rfl
  | n + 1, bs => by simp [readMany, readMany_length n]

/-- **An array is read back from each of its images.** -/
theorem readMany_image {ts : List T} {bs : List UInt8} (h : Image R ts bs) (rest : List UInt8) :
    readMany R ts.length (bs ++ rest) = ts := by
  induction h with
  | nil => rfl
  | cons b hb _ ih =>
    rw [List.length_cons, readMany, List.append_assoc, List.take_left' hb, List.drop_left' hb, ih]

theorem take_succ_mul (n w : ℕ) (bs : List UInt8) :
    bs.take ((n + 1) * w) = bs.take w ++ (bs.drop w).take (n * w) := by
  rw [Nat.succ_mul, Nat.add_comm, List.take_add]

/-- Bytes are an image of what is read from them. -/
theorem image_readMany : ∀ (n : ℕ) (bs : List UInt8), n * R.size ≤ bs.length →
    Image R (readMany R n bs) (bs.take (n * R.size))
  | 0, bs, _ => by simpa [readMany] using Image.nil
  | n + 1, bs, h => by
    have hs : R.size ≤ bs.length := by
      rw [Nat.succ_mul] at h
      omega
    rw [take_succ_mul, readMany]
    refine Image.cons _ (by rw [List.length_take]; omega) (image_readMany n _ ?_)
    rw [List.length_drop]
    rw [Nat.succ_mul] at h
    omega

theorem readMany_u8 : ∀ (n : ℕ) (bs : List UInt8), n ≤ bs.length →
    readMany Repr.u8 n bs = bs.take n
  | 0, _, _ => rfl
  | n + 1, [], h => by simp at h
  | n + 1, x :: bs, h => by
    have ih := readMany_u8 n bs (by simpa using h)
    show Repr.u8.read [x] :: readMany Repr.u8 n bs = x :: bs.take n
    rw [read_u8, ih]

theorem image_writeMany {w : ℕ → T → List UInt8} (hlen : ∀ i t, (w i t).length = R.size)
    (hread : ∀ i t, R.read (w i t) = t) : ∀ (i : ℕ) (ts : List T), Image R ts (writeMany w i ts)
  | _, [] => Image.nil
  | i, t :: ts => by
    have h := Image.cons (w i t) (hlen i t) (image_writeMany hlen hread (i + 1) ts)
    rwa [hread] at h

theorem writeMany_congr {w w' : ℕ → T → List UInt8} : ∀ {i : ℕ} (ts : List T),
    (∀ j, i ≤ j → w j = w' j) → writeMany w i ts = writeMany w' i ts
  | _, [], _ => rfl
  | i, t :: ts, h => by
    rw [writeMany, writeMany, h i (Nat.le_refl i),
      writeMany_congr ts fun j hj => h j (Nat.le_of_succ_le hj)]

/-- **Every image was written with some padding**, if every value is, whatever
its bytes. -/
theorem Image.exists_writeMany {P : Type*} [Nonempty P] {w : P → T → List UInt8}
    (hw : ∀ b, b.length = R.size → ∃ p, w p (R.read b) = b) {ts : List T} {bs : List UInt8}
    (h : Image R ts bs) (i : ℕ) : ∃ pad : ℕ → P, writeMany (fun j t => w (pad j) t) i ts = bs := by
  induction h generalizing i with
  | nil => exact ⟨fun _ => Classical.arbitrary P, rfl⟩
  | cons b hb _ ih =>
    obtain ⟨p, hp⟩ := hw b hb
    obtain ⟨pad, hpad⟩ := ih (i + 1)
    refine ⟨Function.update pad i p, ?_⟩
    rw [writeMany, Function.update_self, hp, ← hpad]
    congr 1
    apply writeMany_congr
    intro j hj
    rw [Function.update_of_ne (by omega)]

end Arrays

section Padding

/-- As many bytes, and the same ones at the positions of `P`. -/
def Agree (P : ℕ → Prop) (xs ys : List UInt8) : Prop :=
  xs.length = ys.length ∧ ∀ k < xs.length, P k → xs[k]? = ys[k]?

theorem Agree.refl (P : ℕ → Prop) (xs : List UInt8) : Agree P xs xs := ⟨rfl, fun _ _ _ => rfl⟩

theorem Agree.mono {P Q : ℕ → Prop} {xs ys : List UInt8} (h : Agree P xs ys)
    (hPQ : ∀ k < xs.length, Q k → P k) : Agree Q xs ys :=
  ⟨h.1, fun k hk hq => h.2 k hk (hPQ k hk hq)⟩

/-- What follows `xs` counts its positions from there. -/
theorem Agree.append {P : ℕ → Prop} {xs ys xs' ys' : List UInt8} (h : Agree P xs ys)
    (h' : Agree (fun k => P (xs.length + k)) xs' ys') : Agree P (xs ++ xs') (ys ++ ys') := by
  refine ⟨by rw [List.length_append, List.length_append, h.1, h'.1], ?_⟩
  intro k hk hP
  rw [List.length_append] at hk
  by_cases hlt : k < xs.length
  · rw [List.getElem?_append_left hlt, List.getElem?_append_left (h.1 ▸ hlt)]
    exact h.2 k hlt hP
  · have hge : xs.length ≤ k := Nat.not_lt.mp hlt
    rw [List.getElem?_append_right hge, List.getElem?_append_right (h.1 ▸ hge), ← h.1]
    refine h'.2 _ (by omega) ?_
    show P (xs.length + (k - xs.length))
    rwa [Nat.add_sub_cancel' hge]

/-- **What was read is written back**, up to the padding of each value. -/
theorem agree_writeMany {T : Type*} {R : Repr T} {w : ℕ → T → List UInt8} {P : ℕ → Prop}
    (hP : ∀ k, P (R.size + k) ↔ P k)
    (hw : ∀ i b, b.length = R.size → Agree P (w i (R.read b)) b) : ∀ (n i : ℕ) (bs : List UInt8),
    n * R.size ≤ bs.length → Agree P (writeMany w i (readMany R n bs)) (bs.take (n * R.size))
  | 0, i, bs, _ => by
    rw [Nat.zero_mul, List.take_zero]
    exact Agree.refl P []
  | n + 1, i, bs, h => by
    rw [Nat.succ_mul] at h
    have hb : (bs.take R.size).length = R.size := by
      rw [List.length_take]
      omega
    have hfront := hw i (bs.take R.size) hb
    have hrest := agree_writeMany hP hw n (i + 1) (bs.drop R.size) (by rw [List.length_drop]; omega)
    rw [take_succ_mul, readMany, writeMany]
    refine hfront.append (hrest.mono ?_)
    intro k _ hk
    rw [hfront.1, hb] at hk
    exact (hP k).mp hk

/-- A type without padding is written back as it was read. -/
theorem writeMany_readMany {T : Type*} {R : Repr T} {w : ℕ → T → List UInt8}
    (hw : ∀ i b, b.length = R.size → w i (R.read b) = b) : ∀ (n i : ℕ) (bs : List UInt8),
    n * R.size ≤ bs.length → writeMany w i (readMany R n bs) = bs.take (n * R.size)
  | 0, i, bs, _ => by
    rw [Nat.zero_mul, List.take_zero]
    rfl
  | n + 1, i, bs, h => by
    rw [Nat.succ_mul] at h
    have hrest := writeMany_readMany hw n (i + 1) (bs.drop R.size) (by rw [List.length_drop]; omega)
    rw [take_succ_mul, readMany, writeMany, hrest, hw i _ (by rw [List.length_take]; omega)]

end Padding

end Bytes
end Zerohop
