/-
# The order on account edges

An edge goes from one account to another with a weight, and carries a slot that
no comparison looks at. Equality, the partial order and the order are three
separate pieces of code. All three compare one key, source, destination and
weight, so they agree and sorted lists and ordered maps of edges can rely on
them.

Key definitions: `AccountEdge.eq`, `AccountEdge.partialCmp`, `AccountEdge.cmp`,
`AccountEdge.key`.
Key theorem: `edge_comparisons_coherent`.
-/
import Mathlib.Data.Prod.Lex
import Zerohop.Lib.Comparison
import Zerohop.Store.Transaction

namespace Zerohop
namespace Store

open BinarySearch
open Comparison

/-- Directed relationship between two accounts; the slot is deprecated. -/
structure AccountEdge where
  fromId : AccountId
  toId : AccountId
  weight : UInt32
  slot : UInt64
deriving DecidableEq, Repr

namespace AccountEdge

/-! ### Direction -/

/-- `WEIGHT_IS_OUTGOING`. -/
def weightIsOutgoing : UInt32 := .ofNat (1 <<< 0)

/-- `edge_is_outgoing`. -/
def edgeIsOutgoing (weight : UInt32) : Bool := 0 < weight &&& weightIsOutgoing

/-- The account that an edge belongs to. -/
def account (edge : AccountEdge) : AccountId :=
  if edgeIsOutgoing edge.weight then edge.fromId else edge.toId

/-- Outgoing edges are those of odd weight. -/
theorem edgeIsOutgoing_iff (weight : UInt32) : edgeIsOutgoing weight = true ↔ weight.toNat % 2 = 1 := by
  have hand : (weight &&& weightIsOutgoing).toNat = weight.toNat % 2 := by
    rw [UInt32.toNat_and]
    exact Nat.and_one_is_mod _
  rw [edgeIsOutgoing, decide_eq_true_iff, UInt32.lt_iff_toNat_lt, hand]
  show 0 < weight.toNat % 2 ↔ _
  omega

/-! ### The three pieces of code -/

/-- The slot is not compared. -/
def eq (a b : AccountEdge) : Bool :=
  a.fromId == b.fromId && a.toId == b.toId && a.weight == b.weight

/-- `partial_cmp` of the integers, which is never `None`. -/
def intPartialCmp {ι : Type} [Ord ι] (a b : ι) : Option Ordering :=
  some (compare a b)

/-- An early return of `partial_cmp`: the comparison of one field unless it is `Equal` or `None`. -/
def returnOr (ord : Option Ordering) (next : Option Ordering) : Option Ordering :=
  match ord with
  | some .eq => next
  | ord => if ord.isSome then ord else next

def partialCmp (a b : AccountEdge) : Option Ordering :=
  returnOr (intPartialCmp a.fromId b.fromId) <|
  returnOr (intPartialCmp a.toId b.toId) <|
    let ord := intPartialCmp a.weight b.weight
    if ord.isSome then ord else some .eq

def cmp (a b : AccountEdge) : Ordering :=
  match compare a.fromId b.fromId with
  | .gt => .gt
  | .lt => .lt
  | .eq =>
    match compare a.toId b.toId with
    | .gt => .gt
    | .lt => .lt
    | .eq =>
      match compare a.weight b.weight with
      | .gt => .gt
      | .lt => .lt
      | .eq => .eq

/-! ### The key they compare -/

/-- Source, then destination, then weight. -/
def key (e : AccountEdge) : ℕ ×ₗ ℕ ×ₗ ℕ :=
  toLex (e.fromId.toNat, toLex (e.toId.toNat, e.weight.toNat))

theorem compare_toNat64 (a b : UInt64) : compare a b = compare a.toNat b.toNat := by
  simp only [compare, compareOfLessAndEq, UInt64.lt_iff_toNat_lt, ← UInt64.toNat_inj]

theorem compare_toNat32 (a b : UInt32) : compare a b = compare a.toNat b.toNat := by
  simp only [compare, compareOfLessAndEq, UInt32.lt_iff_toNat_lt, ← UInt32.toNat_inj]

theorem cmp_eq_then (a b : AccountEdge) :
    a.cmp b = (compare a.fromId b.fromId).then
      ((compare a.toId b.toId).then (compare a.weight b.weight)) := by
  unfold cmp
  cases compare a.fromId b.fromId <;> cases compare a.toId b.toId <;>
    cases compare a.weight b.weight <;> rfl

theorem comparesBy_key : ComparesBy key cmp := by
  intro a b
  rw [cmp_eq_then, compare_toNat64, compare_toNat64, compare_toNat32]
  rfl

theorem key_eq_iff {a b : AccountEdge} :
    a.key = b.key ↔ a.fromId = b.fromId ∧ a.toId = b.toId ∧ a.weight = b.weight := by
  unfold key
  rw [toLex_inj, Prod.mk.injEq, toLex_inj, Prod.mk.injEq, UInt64.toNat_inj, UInt64.toNat_inj,
    UInt32.toNat_inj]

theorem eq_iff_key {a b : AccountEdge} : a.eq b = true ↔ a.key = b.key := by
  unfold eq
  rw [key_eq_iff, Bool.and_eq_true, Bool.and_eq_true, beq_iff_eq, beq_iff_eq, beq_iff_eq, and_assoc]

/-- The partial order is the order: no field falls through as `None`. -/
theorem partialCmp_eq (a b : AccountEdge) : a.partialCmp b = some (a.cmp b) := by
  unfold partialCmp cmp intPartialCmp
  cases compare a.fromId b.fromId <;> cases compare a.toId b.toId <;>
    cases compare a.weight b.weight <;> rfl

theorem key_lt_iff {a b : AccountEdge} :
    a.key < b.key ↔ a.fromId < b.fromId ∨
      a.fromId = b.fromId ∧ (a.toId < b.toId ∨ a.toId = b.toId ∧ a.weight < b.weight) := by
  unfold key
  rw [Prod.Lex.toLex_lt_toLex, Prod.Lex.toLex_lt_toLex, UInt64.toNat_inj, UInt64.toNat_inj,
    ← UInt64.lt_iff_toNat_lt, ← UInt64.lt_iff_toNat_lt, ← UInt32.lt_iff_toNat_lt]

theorem cmp_eq_iff {a b : AccountEdge} : a.cmp b = .eq ↔ a.eq b = true := by
  rw [comparesBy_key.eq_iff, eq_iff_key]

theorem cmp_lt_iff {a b : AccountEdge} :
    a.cmp b = .lt ↔ a.fromId < b.fromId ∨
      a.fromId = b.fromId ∧ (a.toId < b.toId ∨ a.toId = b.toId ∧ a.weight < b.weight) := by
  rw [comparesBy_key.lt_iff, key_lt_iff]

/-! ### Sorted lists and ordered maps of edges -/

/-- A list of edges sorted, without the edges equal to the one before them. -/
def sortedEdges (l : List AccountEdge) : List AccountEdge :=
  sortDedup cmp eq l

/-- The sorted list of edges without repetitions holds the same edges, strictly sorted. -/
theorem sortedEdges_sound (l : List AccountEdge) :
    (sortedEdges l).Pairwise (fun a b => a.cmp b = .lt) ∧
      (∀ a ∈ sortedEdges l, a ∈ l) ∧ ∀ a ∈ l, ∃ b ∈ sortedEdges l, b.eq a = true := by
  have heq : ∀ a b : AccountEdge, a.eq b = true ↔ a.key = b.key := fun _ _ => eq_iff_key
  have hsort : Sorted key (sortedEdges l) := sortDedup_sorted comparesBy_key heq l
  refine ⟨hsort.imp comparesBy_key.lt_iff.mpr, fun a ha => mem_of_mem_sortDedup ha, ?_⟩
  intro a ha
  obtain ⟨b, hb, hk⟩ := exists_mem_sortDedup heq ha
  exact ⟨b, hb, eq_iff_key.mpr hk⟩

/-- Binary search finds an equal edge wherever a strictly sorted list has one. -/
theorem binarySearch_sound {l : List AccountEdge} (hl : l.Pairwise fun a b => a.cmp b = .lt)
    (e : AccountEdge) :
    (∃ i y, binarySearchBy (cmp · e) l = .ok i ∧ l[i]? = some y ∧ y.eq e = true) ∨
      (∃ i, binarySearchBy (cmp · e) l = .error i) ∧ ∀ y ∈ l, y.eq e = false := by
  have hsort : Sorted key l := hl.imp comparesBy_key.lt_iff.mp
  cases hi : binarySearchBy (cmp · e) l with
  | ok i =>
    obtain ⟨y, hy, hk⟩ := comparesBy_key.binarySearchBy_ok hi
    exact Or.inl ⟨i, y, rfl, hy, cmp_eq_iff.mp hk⟩
  | error i =>
    obtain ⟨-, hlo, hhi⟩ := comparesBy_key.binarySearchBy_error hsort hi
    refine Or.inr ⟨⟨i, rfl⟩, ?_⟩
    intro y hy
    rw [← Bool.not_eq_true, ← cmp_eq_iff]
    intro heq
    rw [← List.take_append_drop i l, List.mem_append] at hy
    rcases hy with hy | hy
    · have hlt := hlo y hy
      rw [heq] at hlt
      cases hlt
    · have hlt := hhi y hy
      rw [comparesBy_key.swap, heq] at hlt
      cases hlt

/-- An ordered map looks an edge up under every edge equal to it and under no other. -/
theorem orderedMap_sound {β : Type} (m : Std.TreeMap AccountEdge β cmp) (k e : AccountEdge) (v : β) :
    (m.insert k v)[e]? = if k.eq e then some v else m[e]? := by
  have := comparesBy_key.transCmp
  rw [Std.TreeMap.getElem?_insert]
  exact if_congr cmp_eq_iff rfl rfl

end AccountEdge

open AccountEdge

/-- **The comparisons of edges are coherent**: one lexicographic order on source, destination and
weight, on which sorted lists, binary search and ordered maps rely. -/
theorem edge_comparisons_coherent :
    (∀ a b : AccountEdge, a.partialCmp b = some (a.cmp b)) ∧
      (∀ a b : AccountEdge, a.cmp b = .eq ↔ a.eq b = true) ∧
      (∀ a b : AccountEdge, b.cmp a = (a.cmp b).swap) ∧
      (∀ (a b c : AccountEdge) (o : Ordering), a.cmp b = o → b.cmp c = o → a.cmp c = o) ∧
      (∀ a b c : AccountEdge, a.cmp b ≠ .gt → b.cmp c ≠ .gt → a.cmp c ≠ .gt) ∧
      (∀ a b : AccountEdge, a.cmp b = .lt ↔ a.fromId < b.fromId ∨
        a.fromId = b.fromId ∧ (a.toId < b.toId ∨ a.toId = b.toId ∧ a.weight < b.weight)) ∧
      (∀ l : List AccountEdge, (sortedEdges l).Pairwise (fun a b => a.cmp b = .lt) ∧
        (∀ a ∈ sortedEdges l, a ∈ l) ∧ ∀ a ∈ l, ∃ b ∈ sortedEdges l, b.eq a = true) ∧
      (∀ (l : List AccountEdge) (e : AccountEdge), l.Pairwise (fun a b => a.cmp b = .lt) →
        (∃ i y, binarySearchBy (cmp · e) l = .ok i ∧ l[i]? = some y ∧ y.eq e = true) ∨
          (∃ i, binarySearchBy (cmp · e) l = .error i) ∧ ∀ y ∈ l, y.eq e = false) ∧
      (∀ (β : Type) (m : Std.TreeMap AccountEdge β cmp) (k e : AccountEdge) (v : β),
        (m.insert k v)[e]? = if k.eq e then some v else m[e]?) :=
  ⟨partialCmp_eq, fun _ _ => cmp_eq_iff, comparesBy_key.swap,
    fun _ _ _ _ => comparesBy_key.trans, fun _ _ _ => comparesBy_key.trans_ne_gt,
    fun _ _ => cmp_lt_iff, sortedEdges_sound, fun _ e hl => binarySearch_sound hl e,
    fun _ => orderedMap_sound⟩

end Store
end Zerohop
