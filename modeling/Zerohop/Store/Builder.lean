/-
# Runs of the builder

A caller builds a transaction from `CatscopeTransaction::default()` by
appending instructions one after the other: `append_outer` or `append_inner`,
then `program`, `account` and `data` on the writer, each slice filled, then
the drop. `build` is such a run.

`Built as tx` says what the run over `as` leaves in `tx`, field by field. Each
append of a run keeps it (`appendOne_built`) unless the count of the inner
instructions of an outer one overflows where overflow checks are on; so a run
either panics there or ends in the state described (`build_spec`).

No append stores its chunk index in its instruction record, so every record
points at chunk 0 of both chunks: `firstPart`, the part of the first
instruction's payload that its 16-bit table entry reaches, is what readers
and drops see.
-/
import Mathlib.Data.List.Induction
import Zerohop.Store.Transaction

namespace Zerohop
namespace Store

open BinarySearch Cuts

/-- Where an instruction is appended: at the top level or under an outer one. -/
inductive Target where
  | outer
  | inner (outerIdx : ℕ)
deriving DecidableEq, Repr

/-- One append: its kind and what the caller writes. -/
structure Append where
  target : Target
  program : AccountId
  account : List AccountId
  data : List UInt8
deriving DecidableEq, Repr

namespace Append

def isOuter (a : Append) : Bool := decide (a.target = .outer)

/-- The record that is left of it. -/
def record (a : Append) : CatscopeInstruction :=
  { CatscopeInstruction.default with program := a.program }

end Append

/-- `append_outer` or `append_inner`. -/
def CatscopeTransaction.append (debug : Bool) (tx : CatscopeTransaction) :
    Target → Option CatscopeInstructionWrite
  | .outer => some tx.appendOuter
  | .inner outerIdx => tx.appendInner debug outerIdx

/-- The calls on the writer before its drop. -/
def CatscopeInstructionWrite.fill (w : CatscopeInstructionWrite) (a : Append) :
    Option CatscopeInstructionWrite := do
  let w ← w.program a.program
  let (w, start) ← w.account a.account.length
  let w := w.fillAccount start a.account
  let (w, start) ← w.data a.data.length
  pure (w.fillData start a.data)

/-- One append, from the call to the drop. -/
def appendOne (debug : Bool) (tx : CatscopeTransaction) (a : Append) :
    Option CatscopeTransaction := do
  let w ← tx.append debug a.target
  let w ← w.fill a
  w.drop

/-- The run of the builder over `as`. -/
def build (debug : Bool) (as : List Append) : Option CatscopeTransaction :=
  as.foldlM (appendOne debug) CatscopeTransaction.default

/-! ### What a run is about -/

def outerCount (as : List Append) : ℕ := as.countP Append.isOuter

def innerCount (as : List Append) (o : ℕ) : ℕ := as.countP fun a => a.target = .inner o

/-- Every `append_inner` names an outer instruction that exists by then. -/
def existingFrom : ℕ → List Append → Prop
  | _, [] => True
  | n, a :: as =>
    match a.target with
    | .outer => existingFrom (n + 1) as
    | .inner o => o < n ∧ existingFrom n as

def Existing (as : List Append) : Prop := existingFrom 0 as

instance decidableExistingFrom : ∀ (n : ℕ) (as : List Append), Decidable (existingFrom n as)
  | _, [] => isTrue trivial
  | n, ⟨.outer, _, _, _⟩ :: as => decidableExistingFrom (n + 1) as
  | n, ⟨.inner o, _, _, _⟩ :: as =>
    haveI := decidableExistingFrom n as
    inferInstanceAs (Decidable (o < n ∧ existingFrom n as))

instance (as : List Append) : Decidable (Existing as) := decidableExistingFrom 0 as

/-- No outer instruction gets more inner ones than its counter holds, where
overflow is checked. -/
def InnersFit (debug : Bool) (as : List Append) : Prop :=
  debug = true → ∀ o, innerCount as o ≤ 255

/-- The ends of the payloads `f`, each cut to 16 bits. -/
def table {α : Type} (f : Append → List α) (as : List Append) : List UInt16 :=
  (ends (as.map fun a => (f a).length)).map UInt16.ofNat

/-- What chunk 0 reads as: the first payload, up to its length modulo 2^16. -/
def firstPart {α : Type} (f : Append → List α) : List Append → List α
  | [] => []
  | a :: _ => (f a).take ((f a).length % 65536)

/-- The instruction records of a run. -/
structure Records (as : List Append) (tx : CatscopeTransaction) : Prop where
  outer : tx.outer = (as.filter Append.isOuter).map Append.record
  inner : tx.inner = (as.filter fun a => !a.isOuter).map Append.record
  l1Inner : tx.l1Inner = (List.range (outerCount as)).map fun o => UInt8.ofNat (innerCount as o)

/-- The payloads of a run, and the accounts its drops have merged. -/
structure Payloads (as : List Append) (tx : CatscopeTransaction) : Prop where
  accountChunk : tx.accountChunk = as.flatMap Append.account
  accountChunkLast : tx.accountChunkLast = table Append.account as
  dataChunk : tx.dataChunk = as.flatMap Append.data
  dataChunkLast : tx.dataChunkLast = table Append.data as
  sorted : Sorted UInt64.toNat tx.account
  account : ∀ id, id ∈ tx.account ↔ id ∈ firstPart Append.account as

/-- **What a run leaves.** -/
structure Built (as : List Append) (tx : CatscopeTransaction) : Prop
  extends Records as tx, Payloads as tx

/-! ### Lists -/

theorem existingFrom_append : ∀ (n : ℕ) (as : List Append) (a : Append),
    existingFrom n (as ++ [a]) ↔
      existingFrom n as ∧ ∀ o, a.target = .inner o → o < n + outerCount as
  | n, [], ⟨t, _, _, _⟩ => by cases t <;> simp [existingFrom, outerCount]
  | n, b :: as, a => by
    have ih := fun m => existingFrom_append m as a
    rw [List.cons_append, existingFrom, existingFrom, outerCount, List.countP_cons]
    cases hb : b.target with
    | outer =>
      simp only [ih, Append.isOuter, hb, decide_true, if_true, outerCount]
      rw [show n + 1 + as.countP Append.isOuter = n + (as.countP Append.isOuter + 1) by omega]
    | inner o =>
      simp only [ih, Append.isOuter, hb, outerCount, reduceCtorEq, decide_false,
        Bool.false_eq_true, if_false, Nat.add_zero, and_assoc]

theorem existing_append {as : List Append} {a : Append} : Existing (as ++ [a]) ↔
    Existing as ∧ ∀ o, a.target = .inner o → o < outerCount as := by
  rw [Existing, existingFrom_append, Nat.zero_add]
  rfl

section Tables

variable {α : Type} (f : Append → List α)

theorem flatMap_length (as : List Append) :
    (as.flatMap f).length = (as.map fun a => (f a).length).sum := by
  rw [List.length_flatMap]

theorem table_append (as : List Append) (a : Append) : table f (as ++ [a]) =
    table f as ++ [UInt16.ofNat ((as.flatMap f).length + (f a).length)] := by
  simp only [table, List.map_append, List.map_cons, List.map_nil, ends_append, flatMap_length]

@[simp] theorem table_length (as : List Append) : (table f as).length = as.length := by
  simp [table, ends]

theorem flatMap_append_one (as : List Append) (a : Append) :
    (as ++ [a]).flatMap f = as.flatMap f ++ f a := by
  simp

theorem chunkRange_zero (a : Append) (as : List Append) :
    chunkRange (table f (a :: as)) 0 = some (0, (f a).length % 65536) := by
  simp [chunkRange, table, ends, endsFrom]

theorem take_flatMap (a : Append) (as : List Append) :
    ((a :: as).flatMap f).take ((f a).length % 65536) = firstPart f (a :: as) := by
  rw [List.flatMap_cons, firstPart, List.take_append_of_le_length (Nat.mod_le _ _)]

theorem chunkSlice_zero {as : List Append} (h : as ≠ []) :
    chunkSlice (table f as) (as.flatMap f) 0 = some (firstPart f as) := by
  obtain ⟨a, as, rfl⟩ := List.exists_cons_of_ne_nil h
  have hle : (f a).length % 65536 ≤ ((a :: as).flatMap f).length := by
    have := Nat.mod_le (f a).length 65536
    rw [List.flatMap_cons, List.length_append]
    omega
  simp only [chunkSlice, chunkRange_zero, Option.bind_eq_bind, Option.bind_some]
  rw [slice_eq_some (Nat.zero_le _) hle, List.drop_zero, take_flatMap]

theorem firstPart_append {as : List Append} (h : as ≠ []) (a : Append) :
    firstPart f (as ++ [a]) = firstPart f as := by
  obtain ⟨b, as, rfl⟩ := List.exists_cons_of_ne_nil h
  rfl

end Tables

/-! ### The drop -/

/-- Where the chunk reaches far enough the loop ends, and has inserted each
of its ids. -/
theorem touch_eq (chunk : List AccountId) : ∀ (n i : ℕ) (account : List AccountId),
    i + n ≤ chunk.length →
      touch chunk i n account =
        some (((chunk.drop i).take n).foldl (insertUnique UInt64.toNat) account)
  | 0, i, account, _ => by simp [touch]
  | n + 1, i, account, h => by
    have hi : i < chunk.length := by omega
    rw [touch, List.getElem?_eq_getElem hi, List.drop_eq_getElem_cons hi, List.take_succ_cons,
      List.foldl_cons]
    exact touch_eq chunk n (i + 1) _ (by omega)

theorem foldl_insertUnique : ∀ (ids account : List AccountId), Sorted UInt64.toNat account →
    Sorted UInt64.toNat (ids.foldl (insertUnique UInt64.toNat) account) ∧
      ∀ id, id ∈ ids.foldl (insertUnique UInt64.toNat) account ↔ id ∈ ids ∨ id ∈ account
  | [], account, hs => ⟨hs, fun id => by simp⟩
  | x :: ids, account, hs => by
    obtain ⟨h1, h2⟩ := foldl_insertUnique ids _ (insertUnique_sorted hs x)
    refine ⟨h1, ?_⟩
    intro id
    have hinj : Function.Injective UInt64.toNat := fun a b h => UInt64.toNat_inj.mp h
    rw [List.foldl_cons, h2, mem_insertUnique hs hinj, List.mem_cons, or_assoc]
    exact or_left_comm

/-- The drop of a completed writer whose record points at chunk 0. -/
theorem drop_eq {w : CatscopeInstructionWrite} {ix : CatscopeInstruction} {finish : ℕ}
    (ha : w.accountSet = true) (hd : w.dataSet = true)
    (hix : instructionAt w.tx.outer w.tx.inner w.i = some ix) (hi : ix.accountChunkI = 0)
    (hr : chunkRange w.tx.accountChunkLast 0 = some (0, finish))
    (hle : finish ≤ w.tx.accountChunk.length) :
    w.drop = some { w.tx with
      account := (w.tx.accountChunk.take finish).foldl (insertUnique UInt64.toNat) w.tx.account } := by
  have ht := touch_eq w.tx.accountChunk finish 0 w.tx.account (by omega)
  have hg : finish = 0 ∨ 0 < finish := by omega
  rw [List.drop_zero] at ht
  simp only [CatscopeInstructionWrite.drop, ha, hd, hix, hi, UInt16.toNat_zero, hr, Nat.sub_zero, ht,
    guard, true_and, hg, if_true, Option.bind_eq_bind, Option.pure_def, Option.bind_some]

/-! ### One append -/

/-- `tx` after the payload of `a` is written to its chunks and tables. -/
def CatscopeTransaction.addPayload (tx : CatscopeTransaction) (a : Append) : CatscopeTransaction :=
  { tx with
    accountChunk := tx.accountChunk ++ a.account
    accountChunkLast := tx.accountChunkLast ++
      [UInt16.ofNat (tx.accountChunk.length + a.account.length)]
    dataChunk := tx.dataChunk ++ a.data
    dataChunkLast := tx.dataChunkLast ++ [UInt16.ofNat (tx.dataChunk.length + a.data.length)] }

theorem fill_outer (tx : CatscopeTransaction) (a : Append) : tx.appendOuter.fill a =
    some { tx.appendOuter with
      accountSet := true
      dataSet := true
      tx := { tx.addPayload a with
        outer := tx.outer ++ [a.record]
        l1Inner := tx.l1Inner ++ [0] } } := by
  simp [CatscopeInstructionWrite.fill, CatscopeTransaction.appendOuter, CatscopeInstructionWrite.program,
    CatscopeInstructionWrite.account, CatscopeInstructionWrite.data, allocate, Append.record,
    CatscopeInstructionWrite.fillAccount, CatscopeInstructionWrite.fillData,
    overwrite_append_replicate, CatscopeTransaction.addPayload, guard]

theorem fill_inner {debug : Bool} {tx : CatscopeTransaction} {o : ℕ} {c count : UInt8} (a : Append)
    (hc : tx.l1Inner[o]? = some c) (hcount : addOne debug c = some count) :
    ∃ w, tx.appendInner debug o = some w ∧ w.i = .inner tx.inner.length ∧ w.fill a =
      some { w with
        accountSet := true
        dataSet := true
        tx := { tx.addPayload a with
          l1Inner := tx.l1Inner.set o count
          inner := tx.inner ++ [a.record] } } := by
  simp only [CatscopeTransaction.appendInner, hc, hcount, Option.bind_eq_bind, Option.bind_some,
    Option.pure_def]
  refine ⟨_, rfl, rfl, ?_⟩
  simp [CatscopeInstructionWrite.fill, CatscopeInstructionWrite.program,
    CatscopeInstructionWrite.account, CatscopeInstructionWrite.data, allocate, Append.record,
    CatscopeInstructionWrite.fillAccount, CatscopeInstructionWrite.fillData,
    overwrite_append_replicate, CatscopeTransaction.addPayload, guard]

/-- The sorted list after the ids `ids` were merged into it. -/
def merged (account ids : List AccountId) : List AccountId :=
  ids.foldl (insertUnique UInt64.toNat) account

section

variable {debug : Bool} {tx : CatscopeTransaction} {a : Append} {finish : ℕ}

theorem appendOne_outer (ht : a.target = .outer)
    (hr : chunkRange (tx.addPayload a).accountChunkLast 0 = some (0, finish))
    (hle : finish ≤ (tx.addPayload a).accountChunk.length) :
    appendOne debug tx a = some { tx.addPayload a with
      outer := tx.outer ++ [a.record]
      l1Inner := tx.l1Inner ++ [0]
      account := merged tx.account ((tx.addPayload a).accountChunk.take finish) } := by
  simp only [appendOne, CatscopeTransaction.append, ht, Option.bind_eq_bind, Option.bind_some,
    fill_outer]
  have hix : instructionAt (tx.outer ++ [a.record]) tx.inner (.outer tx.outer.length) =
      some a.record := by
    simp [instructionAt]
  exact drop_eq rfl rfl hix rfl hr hle

theorem appendOne_inner {o : ℕ} {c count : UInt8} (ht : a.target = .inner o)
    (hc : tx.l1Inner[o]? = some c) (hcount : addOne debug c = some count)
    (hr : chunkRange (tx.addPayload a).accountChunkLast 0 = some (0, finish))
    (hle : finish ≤ (tx.addPayload a).accountChunk.length) :
    appendOne debug tx a = some { tx.addPayload a with
      l1Inner := tx.l1Inner.set o count
      inner := tx.inner ++ [a.record]
      account := merged tx.account ((tx.addPayload a).accountChunk.take finish) } := by
  obtain ⟨w, hw, hi, hf⟩ := fill_inner a hc hcount
  simp only [appendOne, CatscopeTransaction.append, ht, hw, hf, Option.bind_eq_bind,
    Option.bind_some]
  have hix : instructionAt tx.outer (tx.inner ++ [a.record]) w.i = some a.record := by
    simp [instructionAt, hi]
  exact drop_eq rfl rfl hix rfl hr hle

theorem appendOne_overflow {o : ℕ} {c : UInt8} (ht : a.target = .inner o)
    (hc : tx.l1Inner[o]? = some c) (hcount : addOne debug c = none) :
    appendOne debug tx a = none := by
  simp only [appendOne, CatscopeTransaction.append, ht, CatscopeTransaction.appendInner, hc, hcount,
    Option.bind_eq_bind, Option.bind_some, Option.bind_none]

end

/-- The range that the drop of the last append reads. -/
theorem Payloads.range {as : List Append} {tx : CatscopeTransaction} (h : Payloads as tx)
    (a : Append) : ∃ finish, chunkRange (tx.addPayload a).accountChunkLast 0 = some (0, finish) ∧
      finish ≤ (tx.addPayload a).accountChunk.length ∧
      (tx.addPayload a).accountChunk.take finish = firstPart Append.account (as ++ [a]) := by
  obtain ⟨b, bs, hb⟩ := List.exists_cons_of_ne_nil (show as ++ [a] ≠ [] by simp)
  have hlast : (tx.addPayload a).accountChunkLast = table Append.account (as ++ [a]) := by
    rw [table_append, ← h.accountChunk, ← h.accountChunkLast]
    rfl
  have hchunk : (tx.addPayload a).accountChunk = (as ++ [a]).flatMap Append.account := by
    rw [flatMap_append_one, ← h.accountChunk]
    rfl
  rw [hlast, hchunk, hb]
  refine ⟨_, chunkRange_zero Append.account b bs, ?_, take_flatMap Append.account b bs⟩
  have := Nat.mod_le b.account.length 65536
  rw [List.flatMap_cons, List.length_append]
  omega

theorem Payloads.append {as : List Append} {tx tx' : CatscopeTransaction} (h : Payloads as tx)
    (a : Append) (hac : tx'.accountChunk = (tx.addPayload a).accountChunk)
    (hal : tx'.accountChunkLast = (tx.addPayload a).accountChunkLast)
    (hdc : tx'.dataChunk = (tx.addPayload a).dataChunk)
    (hdl : tx'.dataChunkLast = (tx.addPayload a).dataChunkLast)
    (hm : tx'.account = merged tx.account (firstPart Append.account (as ++ [a]))) :
    Payloads (as ++ [a]) tx' := by
  obtain ⟨hsorted, hmem⟩ := foldl_insertUnique (firstPart Append.account (as ++ [a])) _ h.sorted
  refine ⟨?_, ?_, ?_, ?_, hm ▸ hsorted, ?_⟩
  · rw [hac, flatMap_append_one, ← h.accountChunk]
    rfl
  · rw [hal, table_append, ← h.accountChunk, ← h.accountChunkLast]
    rfl
  · rw [hdc, flatMap_append_one, ← h.dataChunk]
    rfl
  · rw [hdl, table_append, ← h.dataChunk, ← h.dataChunkLast]
    rfl
  · intro id
    rw [hm, merged, hmem, h.account, or_iff_left_iff_imp]
    intro hid
    -- only the first append adds ids, the others merge the same part again
    have hne : as ≠ [] := by
      rintro rfl
      cases hid
    rwa [firstPart_append Append.account hne]

/-! ### The counters of the inner instructions -/

theorem addOne_ofNat (debug : Bool) (k : ℕ) : addOne debug (UInt8.ofNat k) =
    if debug = true ∧ k % 256 = 255 then none else some (UInt8.ofNat (k + 1)) := by
  have h255 : (UInt8.ofNat k == 255) = decide (k % 256 = 255) := by
    rw [Bool.eq_iff_iff, beq_iff_eq, decide_eq_true_iff, ← UInt8.toNat_inj]
    simp
  have hadd : UInt8.ofNat k + 1 = UInt8.ofNat (k + 1) := (UInt8.ofNat_add k 1).symm
  simp only [addOne, h255, hadd, Bool.and_eq_true, decide_eq_true_eq]

/-- No inner instruction names an outer one that does not exist. -/
theorem innerCount_eq_zero : ∀ (n : ℕ) (as : List Append) (o : ℕ), existingFrom n as →
    n + outerCount as ≤ o → innerCount as o = 0
  | _, [], _, _, _ => rfl
  | n, ⟨.outer, p, l, d⟩ :: as, o, he, ho => by
    have hcount : outerCount (⟨.outer, p, l, d⟩ :: as) = outerCount as + 1 := by
      simp [outerCount, Append.isOuter]
    have ih := innerCount_eq_zero (n + 1) as o he (by omega)
    simpa [innerCount] using ih
  | n, ⟨.inner o', p, l, d⟩ :: as, o, he, ho => by
    have hcount : outerCount (⟨.inner o', p, l, d⟩ :: as) = outerCount as := by
      simp [outerCount, Append.isOuter]
    have ih := innerCount_eq_zero n as o he.2 (by omega)
    have hne : o' ≠ o := by
      have := he.1
      omega
    simpa [innerCount, hne] using ih

theorem innerCount_append (as : List Append) (a : Append) (o : ℕ) :
    innerCount (as ++ [a]) o = innerCount as o + if a.target = .inner o then 1 else 0 := by
  simp [innerCount, List.countP_append, List.countP_singleton]

theorem outerCount_append (as : List Append) (a : Append) :
    outerCount (as ++ [a]) = outerCount as + if a.target = .outer then 1 else 0 := by
  simp [outerCount, List.countP_append, List.countP_singleton, Append.isOuter]

theorem set_counts (n o : ℕ) (c : ℕ → ℕ) :
    ((List.range n).map fun i => UInt8.ofNat (c i)).set o (UInt8.ofNat (c o + 1)) =
      (List.range n).map fun i => UInt8.ofNat (c i + if o = i then 1 else 0) := by
  apply List.ext_getElem
  · simp
  · intro i h1 h2
    rw [List.getElem_set, List.getElem_map, List.getElem_map, List.getElem_range]
    split_ifs with hi
    · rw [hi]
    · rfl

/-! ### The run -/

/-- **One append of a run**: it panics where the counter of inner instructions
overflows and is checked, and else leaves what the longer run should. -/
theorem appendOne_built (debug : Bool) {as : List Append} {tx : CatscopeTransaction} {a : Append}
    (hex : Existing (as ++ [a])) (h : Built as tx) :
    ((∃ o, a.target = .inner o ∧ debug = true ∧ innerCount as o % 256 = 255) ∧
      appendOne debug tx a = none) ∨
    ((∀ o, a.target = .inner o → ¬ (debug = true ∧ innerCount as o % 256 = 255)) ∧
      ∃ tx', appendOne debug tx a = some tx' ∧ Built (as ++ [a]) tx') := by
  obtain ⟨hex, hlt⟩ := existing_append.mp hex
  obtain ⟨finish, hr, hle, htake⟩ := h.toPayloads.range a
  cases ht : a.target with
  | outer =>
    refine Or.inr ⟨by simp, _, appendOne_outer ht hr hle, ⟨?_, ?_, ?_⟩,
      h.toPayloads.append a rfl rfl rfl rfl (by rw [← htake])⟩
    · simp [h.outer, Append.isOuter, ht]
    · simp [h.inner, Append.isOuter, ht, CatscopeTransaction.addPayload]
    · -- the new outer instruction has no inner one yet
      have h0 : innerCount as (outerCount as) = 0 :=
        innerCount_eq_zero 0 as _ hex (by omega)
      simp [h.l1Inner, outerCount_append, innerCount_append, ht, List.range_succ, h0]
  | inner o =>
    have ho := hlt o ht
    have hc : tx.l1Inner[o]? = some (UInt8.ofNat (innerCount as o)) := by
      simp [h.l1Inner, ho]
    have hadd := addOne_ofNat debug (innerCount as o)
    split_ifs at hadd with hof
    · exact Or.inl ⟨⟨o, rfl, hof⟩, appendOne_overflow ht hc hadd⟩
    · refine Or.inr ⟨?_, _, appendOne_inner ht hc hadd hr hle, ⟨?_, ?_, ?_⟩,
        h.toPayloads.append a rfl rfl rfl rfl (by rw [← htake])⟩
      · rintro o' ho'
        cases ho'
        exact hof
      · simp [h.outer, Append.isOuter, ht, CatscopeTransaction.addPayload]
      · simp [h.inner, Append.isOuter, ht]
      · have hcounts := set_counts (outerCount as) o (innerCount as)
        simp only [h.l1Inner, hcounts, outerCount_append, innerCount_append, ht, reduceCtorEq, if_false,
          Nat.add_zero, Target.inner.injEq]

theorem build_append (debug : Bool) (as : List Append) (a : Append) :
    build debug (as ++ [a]) = (build debug as).bind fun tx => appendOne debug tx a := by
  simp only [build, List.foldlM_append, List.foldlM_cons, List.foldlM_nil, Option.bind_eq_bind,
    bind_pure]

theorem innersFit_append {debug : Bool} {as : List Append} {a : Append} (h : InnersFit debug as) :
    InnersFit debug (as ++ [a]) ↔
      ∀ o, a.target = .inner o → ¬ (debug = true ∧ innerCount as o % 256 = 255) := by
  constructor
  · rintro hf o ht ⟨hd, ho⟩
    have h1 := hf hd o
    have h2 := h hd o
    rw [innerCount_append, if_pos ht] at h1
    omega
  · intro hf hd o
    have h1 := h hd o
    rw [innerCount_append]
    split_ifs with ht
    · have := hf o ht
      simp only [hd, true_and] at this
      omega
    · exact h1

/-- **A whole run**, by induction on its appends: it panics exactly where an
inner counter overflows and is checked, and else ends as `Built` says. -/
theorem build_spec (debug : Bool) : ∀ {as : List Append}, Existing as →
    (¬ InnersFit debug as ∧ build debug as = none) ∨
      (InnersFit debug as ∧ ∃ tx, build debug as = some tx ∧ Built as tx) := by
  intro as
  induction as using List.reverseRecOn with
  | nil =>
    intro _
    refine Or.inr ⟨fun _ o => Nat.zero_le _, _, rfl, ⟨rfl, rfl, rfl⟩, rfl, rfl, rfl, rfl,
      List.Pairwise.nil, fun id => Iff.rfl⟩
  | append_singleton as a ih =>
    intro hex
    rcases ih (existing_append.mp hex).1 with ⟨hf, hb⟩ | ⟨hf, tx, hb, hB⟩
    · refine Or.inl ⟨fun h => hf fun hd o => ?_, by simp [build_append, hb]⟩
      have := h hd o
      rw [innerCount_append] at this
      omega
    · rw [innersFit_append hf, build_append, hb, Option.bind_some]
      rcases appendOne_built debug hex hB with ⟨⟨o, ht, ho⟩, hp⟩ | ⟨hno, tx', hp, hB'⟩
      · exact Or.inl ⟨fun h => h o ht ho, hp⟩
      · exact Or.inr ⟨hno, tx', hp, hB'⟩

theorem existing_of_append {as bs : List Append} (h : Existing (as ++ bs)) : Existing as := by
  induction bs using List.reverseRecOn with
  | nil => simpa using h
  | append_singleton bs b ih =>
    rw [← List.append_assoc] at h
    exact ih (existing_append.mp h).1

theorem InnersFit.earlier {debug : Bool} {pre as : List Append} (h : InnersFit debug as)
    (hp : pre <+: as) : InnersFit debug pre := fun hd o =>
  (hp.sublist.countP_le).trans (h hd o)

/-- Where a run does not panic, none of its prefixes does. -/
theorem built_earlier {debug : Bool} {pre as : List Append} (h : Existing as)
    (hf : InnersFit debug as) (hp : pre <+: as) :
    ∃ tx, build debug pre = some tx ∧ Built pre tx := by
  obtain ⟨bs, rfl⟩ := hp
  rcases build_spec debug (existing_of_append h) with ⟨hf', -⟩ | ⟨-, hb⟩
  · exact absurd (hf.earlier (List.prefix_append _ _)) hf'
  · exact hb

theorem built_of_build {debug : Bool} {as : List Append} {tx : CatscopeTransaction}
    (h : Existing as) (hb : build debug as = some tx) : InnersFit debug as ∧ Built as tx := by
  rcases build_spec debug h with ⟨-, hb'⟩ | ⟨hf, tx', hb', hB⟩
  · rw [hb] at hb'
    cases hb'
  · rw [hb] at hb'
    cases hb'
    exact ⟨hf, hB⟩

end Store
end Zerohop
