/-
# Reading a built transaction back

What the readers of a built transaction return, and what its list of touched
accounts holds. Every reader and every drop looks at chunk 0, so they agree
with what was written exactly on the runs whose later instructions repeat the
first one, as far as that one fits its 16-bit end.

Key theorems: `Built.reads_iff`, `reads_back_iff_uniform`,
`account_exact_iff_first`.
-/
import Mathlib.Data.List.Forall2
import Zerohop.Store.Builder

namespace Zerohop
namespace Store

open BinarySearch Cuts

/-- The reader gives back what the append wrote. -/
def Reads (r : CatscopeInstructionRead) (a : Append) : Prop :=
  r.program = some a.program ∧ r.account = some a.account ∧ r.data = some a.data

/-- `outer()` and `inner()` yield the instructions that were appended, in
order, each with what was written for it. -/
def ReadsBack (tx : CatscopeTransaction) (as : List Append) : Prop :=
  (∃ rs, tx.readOuter = some rs ∧ List.Forall₂ Reads rs (as.filter Append.isOuter)) ∧
    ∃ rs, tx.readInner = some rs ∧ List.Forall₂ Reads rs (as.filter fun a => !a.isOuter)

/-- All instructions have one and the same payload, which fits its ends. -/
def Uniform (as : List Append) : Prop :=
  ∀ a ∈ as, a.account.length < 65536 ∧ a.data.length < 65536 ∧
    ∀ b ∈ as, b.account = a.account ∧ b.data = a.data

/-- Every instruction has the payload that chunk 0 reads as. -/
def LikeFirst (as : List Append) (a : Append) : Prop :=
  a.account = firstPart Append.account as ∧ a.data = firstPart Append.data as

/-! ### Readers -/

/-- A reader of a built transaction sees its own program and chunk 0. -/
theorem Built.reads_iff {as : List Append} {tx : CatscopeTransaction} (h : Built as tx)
    (hne : as ≠ []) {i : IxIndex} {a : Append}
    (hix : instructionAt tx.outer tx.inner i = some a.record) :
    Reads ⟨i, tx⟩ a ↔ LikeFirst as a := by
  have hp : CatscopeInstructionRead.program ⟨i, tx⟩ = some a.program := by
    simp [CatscopeInstructionRead.program, hix, Append.record]
  have ha : CatscopeInstructionRead.account ⟨i, tx⟩ = some (firstPart Append.account as) := by
    simp only [CatscopeInstructionRead.account, hix, h.accountChunkLast, h.accountChunk,
      Option.bind_eq_bind, Option.bind_some]
    exact chunkSlice_zero Append.account hne
  have hd : CatscopeInstructionRead.data ⟨i, tx⟩ = some (firstPart Append.data as) := by
    simp only [CatscopeInstructionRead.data, hix, h.dataChunkLast, h.dataChunk,
      Option.bind_eq_bind, Option.bind_some]
    exact chunkSlice_zero Append.data hne
  simp only [Reads, LikeFirst, hp, ha, hd, true_and, Option.some.injEq]
  exact and_congr eq_comm eq_comm

theorem Built.forall₂_reads_iff {as l : List Append} {tx : CatscopeTransaction} (h : Built as tx)
    (mk : ℕ → IxIndex) (hl : l ⊆ as)
    (hmk : ∀ i, instructionAt tx.outer tx.inner (mk i) = (l.map Append.record)[i]?) :
    List.Forall₂ Reads ((List.range l.length).map fun i => ⟨mk i, tx⟩) l ↔
      ∀ a ∈ l, LikeFirst as a := by
  have hreads : ∀ i (hi : i < l.length), Reads ⟨mk i, tx⟩ l[i] ↔ LikeFirst as l[i] := fun i hi =>
    h.reads_iff (List.ne_nil_of_mem (hl (List.getElem_mem hi))) (by simp [hmk, hi])
  rw [List.forall₂_iff_get]
  constructor
  · rintro ⟨-, hf⟩ a ha
    obtain ⟨i, hi, rfl⟩ := List.getElem_of_mem ha
    have := hf i (by simpa using hi) hi
    exact (hreads i hi).mp (by simpa using this)
  · intro hf
    refine ⟨by simp, ?_⟩
    intro i h1 h2
    simpa using (hreads i h2).mpr (hf _ (List.getElem_mem h2))

/-- **What a built transaction reads back**: chunk 0 for every instruction. -/
theorem Built.readsBack_iff {as : List Append} {tx : CatscopeTransaction} (h : Built as tx) :
    ReadsBack tx as ↔ ∀ a ∈ as, LikeFirst as a := by
  have houter := h.forall₂_reads_iff (l := as.filter Append.isOuter) IxIndex.outer
    List.filter_sublist.subset (fun i => by rw [instructionAt, h.outer])
  have hinner := h.forall₂_reads_iff (l := as.filter fun a => !a.isOuter) IxIndex.inner
    List.filter_sublist.subset (fun i => by rw [instructionAt, h.inner])
  have hol : tx.outer.length = (as.filter Append.isOuter).length := by simp [h.outer]
  have hil : tx.inner.length = (as.filter fun a => !a.isOuter).length := by simp [h.inner]
  simp only [ReadsBack, tx.readOuter_eq, tx.readInner_eq, Option.some.injEq, exists_eq_left',
    hol, hil, houter, hinner, List.mem_filter]
  constructor
  · rintro ⟨ho, hi⟩ a ha
    cases hb : a.isOuter
    · exact hi a ⟨ha, by simp [hb]⟩
    · exact ho a ⟨ha, hb⟩
  · exact fun hall => ⟨fun a ha => hall a ha.1, fun a ha => hall a ha.1⟩

/-! ### Runs that repeat their first payload -/

theorem eq_take_mod_iff {α : Type} (l : List α) :
    l = l.take (l.length % 65536) ↔ l.length < 65536 := by
  rw [eq_comm, List.take_eq_self_iff]
  omega

theorem forall_likeFirst_iff : ∀ as : List Append, (∀ a ∈ as, LikeFirst as a) ↔ Uniform as
  | [] => by simp [Uniform]
  | b :: as => by
    constructor
    · intro h a ha
      have hb := h b (List.mem_cons_self ..)
      have hla : b.account.length < 65536 := (eq_take_mod_iff _).mp hb.1
      have hld : b.data.length < 65536 := (eq_take_mod_iff _).mp hb.2
      have hab : ∀ c ∈ b :: as, c.account = b.account ∧ c.data = b.data := fun c hc =>
        ⟨(h c hc).1.trans hb.1.symm, (h c hc).2.trans hb.2.symm⟩
      refine ⟨(hab a ha).1 ▸ hla, (hab a ha).2 ▸ hld, ?_⟩
      intro c hc
      exact ⟨(hab c hc).1.trans (hab a ha).1.symm, (hab c hc).2.trans (hab a ha).2.symm⟩
    · intro h a ha
      obtain ⟨hla, hld, hall⟩ := h b (List.mem_cons_self ..)
      exact ⟨(hall a ha).1.trans ((eq_take_mod_iff _).mpr hla),
        (hall a ha).2.trans ((eq_take_mod_iff _).mpr hld)⟩

/-- **A run reads back what it wrote exactly if** all its instructions have the
same payload, and no checked counter overflows. -/
theorem reads_back_iff_uniform (debug : Bool) {as : List Append} (h : Existing as) :
    (∃ tx, build debug as = some tx ∧ ReadsBack tx as) ↔ InnersFit debug as ∧ Uniform as := by
  constructor
  · rintro ⟨tx, hb, hr⟩
    obtain ⟨hf, hB⟩ := built_of_build h hb
    exact ⟨hf, (forall_likeFirst_iff as).mp (hB.readsBack_iff.mp hr)⟩
  · rintro ⟨hf, hu⟩
    obtain ⟨tx, hb, hB⟩ := built_earlier h hf List.prefix_rfl
    exact ⟨tx, hb, hB.readsBack_iff.mpr ((forall_likeFirst_iff as).mpr hu)⟩

/-- Two outer instructions and an inner one between them, all of one payload. -/
def onePayload : List Append :=
  [⟨.outer, 7, [32, 85], [0, 1, 13]⟩, ⟨.inner 0, 8, [32, 85], [0, 1, 13]⟩, ⟨.outer, 9, [32, 85], [0, 1, 13]⟩]

theorem reads_back_one_payload : Existing onePayload ∧
    ∃ tx, build true onePayload = some tx ∧ ReadsBack tx onePayload := by
  have hex : Existing onePayload := by decide
  refine ⟨hex, (reads_back_iff_uniform true hex).mpr ⟨?_, by unfold Uniform; decide⟩⟩
  intro _ o
  exact Nat.le_trans List.countP_le_length (by decide)

/-- Two outer instructions with payloads of their own. -/
def twoPayloads : List Append := [⟨.outer, 1, [10], [1]⟩, ⟨.outer, 2, [20], [2]⟩]

/-- The second instruction of `twoPayloads` reads as the first. -/
theorem two_payloads_read_first : Existing twoPayloads ∧
    ¬ ∃ tx, build false twoPayloads = some tx ∧ ReadsBack tx twoPayloads := by
  refine ⟨by decide, ?_⟩
  rintro ⟨tx, hb, hr⟩
  obtain ⟨-, hB⟩ := built_of_build (by decide) hb
  have := (hB.readsBack_iff.mp hr ⟨.outer, 2, [20], [2]⟩ (by decide)).1
  revert this
  decide

/-! ### The touched accounts -/

/-- `account()` holds the ids of the instructions appended, each once and in
increasing order. -/
def AccountExact (tx : CatscopeTransaction) (as : List Append) : Prop :=
  Sorted UInt64.toNat tx.account ∧ ∀ id, id ∈ tx.account ↔ ∃ a ∈ as, id ∈ a.account

theorem mem_of_mem_firstPart {α : Type} {f : Append → List α} : ∀ {as : List Append} {x : α},
    x ∈ firstPart f as → ∃ a ∈ as, x ∈ f a
  | [], _, h => by cases h
  | a :: as, _, h => ⟨a, List.mem_cons_self .., List.mem_of_mem_take h⟩

/-- The list is sorted after every run; it misses what chunk 0 misses. -/
theorem Built.accountExact_iff {as : List Append} {tx : CatscopeTransaction} (h : Built as tx) :
    AccountExact tx as ↔ ∀ a ∈ as, ∀ id ∈ a.account, id ∈ firstPart Append.account as := by
  constructor
  · rintro ⟨-, hmem⟩ a ha id hid
    exact (h.account id).mp ((hmem id).mpr ⟨a, ha, hid⟩)
  · intro hall
    refine ⟨h.sorted, fun id => ⟨fun hid => mem_of_mem_firstPart ((h.account id).mp hid), ?_⟩⟩
    rintro ⟨a, ha, hid⟩
    exact (h.account id).mpr (hall a ha id hid)

theorem firstPart_earlier {α : Type} {f : Append → List α} {pre as : List Append} (hp : pre <+: as)
    (hne : pre ≠ []) : firstPart f pre = firstPart f as := by
  obtain ⟨bs, rfl⟩ := hp
  obtain ⟨a, pre, rfl⟩ := List.exists_cons_of_ne_nil hne
  rfl

/-- **The touched accounts are exact after every append exactly if** every id
written is among those that the first instruction's entry reaches, and no
checked counter overflows. -/
theorem account_exact_iff_first (debug : Bool) {as : List Append} (h : Existing as) :
    (∀ pre, pre <+: as → ∃ tx, build debug pre = some tx ∧ AccountExact tx pre) ↔
      InnersFit debug as ∧ ∀ a ∈ as, ∀ id ∈ a.account, id ∈ firstPart Append.account as := by
  constructor
  · intro hall
    obtain ⟨tx, hb, hx⟩ := hall as List.prefix_rfl
    obtain ⟨hf, hB⟩ := built_of_build h hb
    exact ⟨hf, hB.accountExact_iff.mp hx⟩
  · rintro ⟨hf, hall⟩ pre hp
    obtain ⟨tx, hb, hB⟩ := built_earlier h hf hp
    refine ⟨tx, hb, hB.accountExact_iff.mpr ?_⟩
    intro a ha id hid
    rw [firstPart_earlier hp (List.ne_nil_of_mem ha)]
    exact hall a (hp.subset ha) id hid

/-- An outer instruction and an inner one that repeats an id of it. -/
def oneRepeat : List Append := [⟨.outer, 1, [20, 10], []⟩, ⟨.inner 0, 2, [10], []⟩]

theorem account_exact_repeat : Existing oneRepeat ∧
    ∀ pre, pre <+: oneRepeat → ∃ tx, build true pre = some tx ∧ AccountExact tx pre := by
  have hex : Existing oneRepeat := by decide
  refine ⟨hex, (account_exact_iff_first true hex).mpr ⟨?_, ?_⟩⟩
  · intro _ o
    exact Nat.le_trans List.countP_le_length (by decide)
  · simp [oneRepeat, firstPart]

/-- The id of the second instruction of `twoPayloads` is missing after its drop. -/
theorem two_payloads_miss_account : Existing twoPayloads ∧
    ¬ ∀ pre, pre <+: twoPayloads → ∃ tx, build false pre = some tx ∧ AccountExact tx pre := by
  refine ⟨by decide, ?_⟩
  intro hall
  obtain ⟨tx, hb, hx⟩ := hall twoPayloads List.prefix_rfl
  obtain ⟨-, hB⟩ := built_of_build (by decide) hb
  have := hB.accountExact_iff.mp hx ⟨.outer, 2, [20], [2]⟩ (by decide) 20 (by decide)
  revert this
  decide

end Store
end Zerohop
