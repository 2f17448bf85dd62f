/-
# The offset tables

When the tables of ends cut the chunks of a built transaction into the
payloads of its instructions. An end is stored in 16 bits while the chunks
grow without bound, so the tables are right as long as the totals are below
2^16 (`Built.partitions_iff`, `tables_partition_iff_small`).
-/
import Zerohop.Store.Builder

namespace Zerohop
namespace Store

open Cuts

/-- The table of `last` entries cuts `chunk` into `payloads`: entry `j` is
the length of the payloads up to `j`. -/
structure Partitions {α : Type} (last : List UInt16) (chunk : List α) (payloads : List (List α)) :
    Prop where
  length_eq : last.length = payloads.length
  total : ∀ j < payloads.length, last[j]?.map UInt16.toNat =
    some ((payloads.take (j + 1)).map List.length).sum
  sorted : (last.map UInt16.toNat).Pairwise (· ≤ ·)
  end_eq : (last.map UInt16.toNat).getLastD 0 = chunk.length
  cut : cutAt chunk 0 (last.map UInt16.toNat) = some payloads

/-- The length of all payloads `f`. -/
def total {α : Type} (f : Append → List α) (as : List Append) : ℕ :=
  (as.map fun a => (f a).length).sum

section

variable {α : Type} (f : Append → List α)

theorem total_earlier {pre as : List Append} (hp : pre <+: as) : total f pre ≤ total f as := by
  obtain ⟨bs, rfl⟩ := hp
  simp [total]

/-- While the total fits in 16 bits no end is cut. -/
theorem table_toNat {as : List Append} (h : total f as < 65536) :
    (table f as).map UInt16.toNat = ends (as.map fun a => (f a).length) := by
  rw [table, List.map_map]
  refine (List.map_congr_left ?_).trans (List.map_id _)
  intro e he
  have hle := (le_of_mem_endsFrom he).2
  have hlt : e < 65536 := by
    unfold total at h
    omega
  rw [Function.comp_apply, UInt16.toNat_ofNat']
  exact Nat.mod_eq_of_lt hlt

theorem getLastD_lt : ∀ {l : List UInt16} {d : ℕ}, d < 65536 →
    (l.map UInt16.toNat).getLastD d < 65536
  | [], _, h => h
  | x :: l, d, _ => by
    rw [List.map_cons, List.getLastD_cons]
    exact getLastD_lt x.toNat_lt

/-- **The table of a run partitions its chunk exactly if** the total fits. -/
theorem partitions_iff (as : List Append) :
    Partitions (table f as) (as.flatMap f) (as.map f) ↔ total f as < 65536 := by
  constructor
  · intro h
    have := getLastD_lt (l := table f as) (d := 0) (by decide)
    rw [h.end_eq, flatMap_length] at this
    exact this
  · intro h
    have ht := table_toNat f h
    have hmap : (as.map f).map List.length = as.map fun a => (f a).length := by
      simp
    refine ⟨by simp, ?_, ?_, ?_, ?_⟩
    · intro j hj
      have hj' : j < (as.map fun a => (f a).length).length := by simpa using hj
      calc (table f as)[j]?.map UInt16.toNat
          = (ends (as.map fun a => (f a).length))[j]? := by
            rw [← List.getElem?_map, ht]
        _ = some ((as.map fun a => (f a).length).take (j + 1)).sum := by
            rw [ends, getElem?_endsFrom 0 _ j hj', Nat.zero_add]
        _ = some (((as.map f).take (j + 1)).map List.length).sum := by
            rw [List.map_take, hmap]
    · rw [ht]
      exact endsFrom_sorted 0 _
    · rw [ht, ends, endsFrom_getLastD, Nat.zero_add, flatMap_length]
    · rw [ht, List.flatMap_def, ← hmap]
      exact cutAt_flatten (as.map f)

end

/-- Both tables of a transaction cut its chunks into what was written. -/
def TablesPartition (tx : CatscopeTransaction) (as : List Append) : Prop :=
  Partitions tx.dataChunkLast tx.dataChunk (as.map Append.data) ∧
    Partitions tx.accountChunkLast tx.accountChunk (as.map Append.account)

theorem Built.partitions_iff {as : List Append} {tx : CatscopeTransaction} (h : Built as tx) :
    TablesPartition tx as ↔ total Append.data as < 65536 ∧ total Append.account as < 65536 := by
  rw [TablesPartition, h.dataChunkLast, h.dataChunk, h.accountChunkLast, h.accountChunk,
    Store.partitions_iff, Store.partitions_iff]

/-- **The tables are right after every append exactly if** all data bytes and
all account ids together are fewer than 2^16, and no checked counter overflows. -/
theorem tables_partition_iff_small (debug : Bool) {as : List Append} (h : Existing as) :
    (∀ pre, pre <+: as → ∃ tx, build debug pre = some tx ∧ TablesPartition tx pre) ↔
      InnersFit debug as ∧ total Append.data as < 65536 ∧ total Append.account as < 65536 := by
  constructor
  · intro hall
    obtain ⟨tx, hb, hx⟩ := hall as List.prefix_rfl
    obtain ⟨hf, hB⟩ := built_of_build h hb
    exact ⟨hf, hB.partitions_iff.mp hx⟩
  · rintro ⟨hf, hd, ha⟩ pre hp
    obtain ⟨tx, hb, hB⟩ := built_earlier h hf hp
    refine ⟨tx, hb, hB.partitions_iff.mpr ⟨?_, ?_⟩⟩
    · exact Nat.lt_of_le_of_lt (total_earlier _ hp) hd
    · exact Nat.lt_of_le_of_lt (total_earlier _ hp) ha

/-- An outer instruction and its inner one, with two payloads. -/
def smallData : List Append := [⟨.outer, 1, [20, 10], [1]⟩, ⟨.inner 0, 2, [], [2, 3]⟩]

theorem tables_partition_small : Existing smallData ∧
    ∀ pre, pre <+: smallData → ∃ tx, build true pre = some tx ∧ TablesPartition tx pre := by
  have hex : Existing smallData := by decide
  refine ⟨hex, (tables_partition_iff_small true hex).mpr ⟨?_, by decide, by decide⟩⟩
  intro _ o
  exact Nat.le_trans List.countP_le_length (by decide)

/-- 33 outer instructions of 2048 data bytes each. -/
def longData : List Append := List.replicate 33 ⟨.outer, 1, [], List.replicate 2048 0⟩

/-- 33 * 2048 = 67584 bytes do not fit the ends of the data. -/
theorem long_data_cut : Existing longData ∧
    ¬ ∀ pre, pre <+: longData → ∃ tx, build false pre = some tx ∧ TablesPartition tx pre := by
  have hex : Existing longData := by decide
  refine ⟨hex, ?_⟩
  intro hall
  obtain ⟨tx, hb, hx⟩ := hall longData List.prefix_rfl
  obtain ⟨-, hB⟩ := built_of_build hex hb
  have := (hB.partitions_iff.mp hx).1
  simp only [total, longData, List.map_replicate, List.length_replicate, List.sum_replicate_nat]
    at this
  omega

end Store
end Zerohop
