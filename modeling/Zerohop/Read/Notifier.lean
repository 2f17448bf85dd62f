/-
# Delete notifications

`AccountDeleteNotifier` of `read.rs` keeps a status for each account it has
been asked about, and answers whether a header is to be sent on: a live one
always, a deletion unless the last header of the account was one too.

Every call overwrites the status of its account with one that depends on the
header alone, so the map is a table that keeps the last value written.

Key definitions: `AccountDeleteNotifier.checkSend`, `answers`.
Key theorem: `deletes_filtered_exactly`.
-/
import Zerohop.Lib.LastWriter
import Zerohop.Store.Account

namespace Zerohop
namespace Read

open LastWriter Store

/-- `AccountDeleteSentStatus`. -/
inductive AccountDeleteSentStatus where
  | notSent
  | sent
  | deleteSent
deriving DecidableEq, Repr

/-- `AccountDeleteNotifier`. -/
structure AccountDeleteNotifier where
  mAccountId : AccountId → Option AccountDeleteSentStatus

namespace AccountDeleteNotifier

/-- `AccountDeleteNotifier::default()`. -/
def default : AccountDeleteNotifier := ⟨fun _ => none⟩

/-- `*entry = status`. -/
def set (n : AccountDeleteNotifier) (id : AccountId) (status : AccountDeleteSentStatus) :
    AccountDeleteNotifier :=
  ⟨Function.update n.mAccountId id (some status)⟩

/-- `entry(id).or_insert(status)`. -/
def orInsert (n : AccountDeleteNotifier) (id : AccountId) (status : AccountDeleteSentStatus) :
    AccountDeleteNotifier × AccountDeleteSentStatus :=
  match n.mAccountId id with
  | some entry => (n, entry)
  | none => (n.set id status, status)

/-- `check_send`: whether the account is ok to send. -/
def checkSend (n : AccountDeleteNotifier) (header : AccountHeader) : AccountDeleteNotifier × Bool :=
  let (n, entry) := n.orInsert header.accountId .notSent
  if 0 < header.lamports then (n.set header.accountId .sent, true)
  else
    match entry with
    -- not seen yet; still delivered, so that the client knows it exists
    | .notSent => (n.set header.accountId .deleteSent, true)
    | .sent => (n.set header.accountId .deleteSent, true)
    | .deleteSent => (n, false)

/-- The answers to a sequence of calls. -/
def checkSends (n : AccountDeleteNotifier) : List AccountHeader → List Bool
  | [] => []
  | header :: hs => (n.checkSend header).2 :: (n.checkSend header).1.checkSends hs

end AccountDeleteNotifier

open AccountDeleteNotifier

/-- The answers of a fresh notifier. -/
def answers (hs : List AccountHeader) : List Bool :=
  AccountDeleteNotifier.default.checkSends hs

/-- The answers that the headers of one account get. -/
def answersFor (id : AccountId) (hs : List AccountHeader) : List Bool :=
  ((hs.zip (answers hs)).filter fun p => p.1.accountId = id).map (·.2)

/-! ### One call -/

/-- The status that a header leaves. -/
def statusAfter (header : AccountHeader) : AccountDeleteSentStatus :=
  if 0 < header.lamports then .sent else .deleteSent

/-- What a header writes to the map. -/
def written (header : AccountHeader) : Option (AccountId × AccountDeleteSentStatus) :=
  some (header.accountId, statusAfter header)

theorem statusAfter_live {header : AccountHeader} :
    statusAfter header = .sent ↔ 0 < header.lamports := by
  unfold statusAfter
  by_cases hlive : 0 < header.lamports <;> simp [hlive]

theorem statusAfter_deleted {header : AccountHeader} :
    statusAfter header = .deleteSent ↔ ¬ 0 < header.lamports := by
  unfold statusAfter
  by_cases hlive : 0 < header.lamports <;> simp [hlive]

theorem statusAfter_ne_notSent (header : AccountHeader) : statusAfter header ≠ .notSent := by
  unfold statusAfter
  by_cases hlive : 0 < header.lamports <;> simp [hlive]

theorem written_eq_some {header : AccountHeader} {id : AccountId} {status : AccountDeleteSentStatus} :
    written header = some (id, status) ↔ header.accountId = id ∧ statusAfter header = status := by
  unfold written
  rw [Option.some.injEq, Prod.mk.injEq]

namespace AccountDeleteNotifier

theorem checkSend_map (n : AccountDeleteNotifier) (header : AccountHeader) :
    (n.checkSend header).1.mAccountId = write written n.mAccountId header := by
  unfold checkSend orInsert write written statusAfter
  by_cases hlive : 0 < header.lamports
  · cases hentry : n.mAccountId header.accountId <;> simp [hlive, set]
  · cases hentry : n.mAccountId header.accountId with
    | none => simp [hlive, set]
    | some entry =>
      cases entry with
      | notSent => simp [hlive, set]
      | sent => simp [hlive, set]
      | deleteSent =>
        simp only [hlive, if_false]
        rw [← hentry, Function.update_eq_self]

/-- The answer: a deletion is held back only after a deletion. -/
theorem checkSend_answer (n : AccountDeleteNotifier) (header : AccountHeader) :
    (n.checkSend header).2 = true ↔
      0 < header.lamports ∨ n.mAccountId header.accountId ≠ some .deleteSent := by
  unfold checkSend orInsert
  by_cases hlive : 0 < header.lamports
  · simp [hlive]
  · cases hentry : n.mAccountId header.accountId with
    | none => simp [hlive]
    | some entry => cases entry <;> simp [hlive]

theorem checkSends_cons (n : AccountDeleteNotifier) (header : AccountHeader) (hs : List AccountHeader) :
    n.checkSends (header :: hs) = (n.checkSend header).2 :: (n.checkSend header).1.checkSends hs := rfl

theorem checkSends_length (hs : List AccountHeader) : ∀ n : AccountDeleteNotifier,
    (n.checkSends hs).length = hs.length := by
  induction hs with
  | nil => exact fun _ => rfl
  | cons header hs ih => exact fun n => congrArg (· + 1) (ih _)

theorem checkSends_getElem? (hs : List AccountHeader) : ∀ (n : AccountDeleteNotifier) (i : ℕ),
    (n.checkSends hs)[i]? =
      hs[i]?.map fun h => (((hs.take i).foldl (fun n g => (n.checkSend g).1) n).checkSend h).2 := by
  induction hs with
  | nil => exact fun _ _ => rfl
  | cons header hs ih =>
    intro n i
    cases i with
    | zero => rfl
    | succ i => exact ih (n.checkSend header).1 i

theorem foldl_checkSend_map (hs : List AccountHeader) : ∀ n : AccountDeleteNotifier,
    (hs.foldl (fun n g => (n.checkSend g).1) n).mAccountId =
      hs.foldl (write written) n.mAccountId := by
  induction hs with
  | nil => exact fun _ => rfl
  | cons header hs ih =>
    intro n
    rw [List.foldl_cons, List.foldl_cons, ih, checkSend_map]

/-- The answers for one account depend on its entry and its headers only. -/
theorem checkSends_filter (id : AccountId) (hs : List AccountHeader) :
    ∀ n n' : AccountDeleteNotifier, n.mAccountId id = n'.mAccountId id →
      ((hs.zip (n.checkSends hs)).filter fun p => p.1.accountId = id).map (·.2) =
        n'.checkSends (hs.filter fun h => h.accountId = id) := by
  induction hs with
  | nil => exact fun _ _ _ => rfl
  | cons header hs ih =>
    intro n n' hn
    rw [checkSends_cons, List.zip_cons_cons]
    by_cases hid : header.accountId = id
    · have hsame : (n.checkSend header).1.mAccountId id = (n'.checkSend header).1.mAccountId id := by
        have hw := written_eq_some.mpr ⟨hid, rfl⟩
        rw [checkSend_map, checkSend_map, write_same hw, write_same hw]
      have hanswer : (n.checkSend header).2 = (n'.checkSend header).2 := by
        rw [Bool.eq_iff_iff, checkSend_answer, checkSend_answer, hid, hn]
      rw [List.filter_cons_of_pos (by simpa using hid), List.filter_cons_of_pos (by simpa using hid),
        List.map_cons, ih _ _ hsame, hanswer, checkSends_cons]
    · have hother : (n.checkSend header).1.mAccountId id = n'.mAccountId id := by
        rw [checkSend_map, write_other, hn]
        intro status hstatus
        exact hid (written_eq_some.mp hstatus).1
      rw [List.filter_cons_of_neg (by simpa using hid), List.filter_cons_of_neg (by simpa using hid),
        ih _ _ hother]

end AccountDeleteNotifier

/-! ### The last header of an account -/

/-- No header of the account before position `i`. -/
def NoneBefore (hs : List AccountHeader) (i : ℕ) (id : AccountId) : Prop :=
  ∀ (j : ℕ) (h : AccountHeader), j < i → hs[j]? = some h → h.accountId ≠ id

/-- The last header of the account before position `i` is `prev`, at `j`. -/
def LastBefore (hs : List AccountHeader) (i : ℕ) (id : AccountId) (j : ℕ) (prev : AccountHeader) : Prop :=
  j < i ∧ hs[j]? = some prev ∧ prev.accountId = id ∧
    ∀ (m : ℕ) (h : AccountHeader), j < m → m < i → hs[m]? = some h → h.accountId ≠ id

/-- The entry of an account after the headers before position `i`. -/
def entryAt (hs : List AccountHeader) (i : ℕ) (id : AccountId) : Option AccountDeleteSentStatus :=
  writeAll written (hs.take i) id

theorem entryAt_eq_none {hs : List AccountHeader} {i : ℕ} {id : AccountId} :
    entryAt hs i id = none ↔ NoneBefore hs i id := by
  unfold entryAt NoneBefore
  rw [writeAll_eq_none]
  constructor
  · intro hall j h hj hget hid
    have hmem : h ∈ hs.take i := List.mem_of_getElem? ((List.getElem?_take_of_lt hj).trans hget)
    exact hall h hmem (statusAfter h) (written_eq_some.mpr ⟨hid, rfl⟩)
  · intro hnone h hmem status hstatus
    obtain ⟨j, hj⟩ := List.getElem?_of_mem hmem
    rw [List.getElem?_take] at hj
    split_ifs at hj with hji
    exact hnone j h hji hj (written_eq_some.mp hstatus).1

theorem entryAt_eq_some {hs : List AccountHeader} {i : ℕ} {id : AccountId}
    {status : AccountDeleteSentStatus} : entryAt hs i id = some status ↔
      ∃ j prev, LastBefore hs i id j prev ∧ statusAfter prev = status := by
  unfold entryAt LastBefore
  rw [writeAll_eq_some]
  constructor
  · rintro ⟨j, prev, hj, hprev, hlater⟩
    rw [List.getElem?_take] at hj
    split_ifs at hj with hji
    obtain ⟨hid, hstatus⟩ := written_eq_some.mp hprev
    refine ⟨j, prev, ⟨hji, hj, hid, ?_⟩, hstatus⟩
    intro m h hm hmi hget hid
    exact hlater m h (statusAfter h) hm ((List.getElem?_take_of_lt hmi).trans hget)
      (written_eq_some.mpr ⟨hid, rfl⟩)
  · rintro ⟨j, prev, ⟨hji, hj, hid, hlater⟩, hstatus⟩
    refine ⟨j, prev, (List.getElem?_take_of_lt hji).trans hj, written_eq_some.mpr ⟨hid, hstatus⟩, ?_⟩
    intro m h w hm hget hw
    rw [List.getElem?_take] at hget
    split_ifs at hget with hmi
    exact hlater m h hm hmi hget (written_eq_some.mp hw).1

theorem answers_getElem? {hs : List AccountHeader} {i : ℕ} {h : AccountHeader}
    (hi : hs[i]? = some h) : (answers hs)[i]? = some true ↔
      0 < h.lamports ∨ entryAt hs i h.accountId ≠ some .deleteSent := by
  unfold answers
  rw [checkSends_getElem?, hi, Option.map_some, Option.some.injEq, checkSend_answer,
    foldl_checkSend_map]
  rfl

/-! ### What is delivered -/

/-- A header is held back only if it is a deletion and the last one of its account was one too. -/
theorem answer_iff {hs : List AccountHeader} {i : ℕ} {h : AccountHeader} (hi : hs[i]? = some h) :
    (answers hs)[i]? = some true ↔ 0 < h.lamports ∨ NoneBefore hs i h.accountId ∨
      ∃ j prev, LastBefore hs i h.accountId j prev ∧ 0 < prev.lamports := by
  have hlive : (∃ j prev, LastBefore hs i h.accountId j prev ∧ 0 < prev.lamports) ↔
      entryAt hs i h.accountId = some .sent := by
    rw [entryAt_eq_some]
    simp only [statusAfter_live]
  rw [answers_getElem? hi, hlive, ← entryAt_eq_none]
  cases hentry : entryAt hs i h.accountId with
  | none => simp
  | some status =>
    cases status with
    | notSent =>
      obtain ⟨j, prev, -, hprev⟩ := entryAt_eq_some.mp hentry
      exact absurd hprev (statusAfter_ne_notSent prev)
    | sent => simp
    | deleteSent => simp

theorem live_delivered {hs : List AccountHeader} {i : ℕ} {h : AccountHeader} (hi : hs[i]? = some h)
    (hlive : 0 < h.lamports) : (answers hs)[i]? = some true :=
  (answer_iff hi).mpr (Or.inl hlive)

theorem live_between {hs : List AccountHeader} {i j : ℕ} {h g : AccountHeader} (hij : i < j)
    (hi : hs[i]? = some h) (hj : hs[j]? = some g) (hid : h.accountId = g.accountId)
    (hdead : ¬ 0 < h.lamports) (hgdead : ¬ 0 < g.lamports) (hsent : (answers hs)[j]? = some true) :
    ∃ m live, i < m ∧ m < j ∧ hs[m]? = some live ∧ live.accountId = g.accountId ∧
      0 < live.lamports ∧ (answers hs)[m]? = some true := by
  rcases (answer_iff hj).mp hsent with hlive | hnone | ⟨m, live, ⟨hmj, hm, hmid, hlater⟩, hlive⟩
  · exact absurd hlive hgdead
  · exact absurd hid (hnone i h hij hi)
  · have him : i < m := by
      by_contra him
      rcases Nat.lt_or_eq_of_le (Nat.le_of_not_lt him) with hmi | rfl
      · exact hlater i h hmi hij hi hid
      · rw [hi] at hm
        obtain rfl := Option.some.inj hm
        exact hdead hlive
    exact ⟨m, live, him, hmj, hm, hmid, hlive, live_delivered hm hlive⟩

theorem first_delete_delivered {hs : List AccountHeader} {i j : ℕ} {h g : AccountHeader} (hij : i < j)
    (hi : hs[i]? = some h) (hj : hs[j]? = some g) (hid : h.accountId = g.accountId)
    (hlive : 0 < h.lamports)
    (hbetween : ∀ (m : ℕ) (x : AccountHeader), i < m → m < j → hs[m]? = some x →
      x.accountId = g.accountId → 0 < x.lamports) : (answers hs)[j]? = some true := by
  rw [answers_getElem? hj]
  refine Or.inr ?_
  intro hentry
  obtain ⟨m, prev, ⟨hmj, hm, hmid, hlater⟩, hprev⟩ := entryAt_eq_some.mp hentry
  have hdead : ¬ 0 < prev.lamports := statusAfter_deleted.mp hprev
  rcases Nat.lt_trichotomy m i with hmi | rfl | him
  · exact hlater i h hmi hij hi hid
  · rw [hi] at hm
    obtain rfl := Option.some.inj hm
    exact hdead hlive
  · exact hdead (hbetween m prev him hmj hm hmid)

/-- **Deletions are filtered exactly**: the answer to each header, and what follows from it for the
deliveries of one account. -/
theorem deletes_filtered_exactly (hs : List AccountHeader) :
    (answers hs).length = hs.length ∧
      (∀ (i : ℕ) (h : AccountHeader), hs[i]? = some h →
        ((answers hs)[i]? = some true ↔ 0 < h.lamports ∨ NoneBefore hs i h.accountId ∨
          ∃ j prev, LastBefore hs i h.accountId j prev ∧ 0 < prev.lamports)) ∧
      (∀ (i j : ℕ) (h g : AccountHeader), i < j → hs[i]? = some h → hs[j]? = some g →
        h.accountId = g.accountId → ¬ 0 < h.lamports → ¬ 0 < g.lamports →
        (answers hs)[i]? = some true → (answers hs)[j]? = some true →
        ∃ m live, i < m ∧ m < j ∧ hs[m]? = some live ∧ live.accountId = g.accountId ∧
          0 < live.lamports ∧ (answers hs)[m]? = some true) ∧
      (∀ (i : ℕ) (h : AccountHeader), hs[i]? = some h → 0 < h.lamports →
        (answers hs)[i]? = some true) ∧
      (∀ (i j : ℕ) (h g : AccountHeader), i < j → hs[i]? = some h → hs[j]? = some g →
        h.accountId = g.accountId → 0 < h.lamports →
        (∀ (m : ℕ) (x : AccountHeader), i < m → m < j → hs[m]? = some x →
          x.accountId = g.accountId → 0 < x.lamports) → (answers hs)[j]? = some true) ∧
      ∀ id : AccountId, answersFor id hs = answers (hs.filter fun h => h.accountId = id) := by
  refine ⟨checkSends_length hs _, fun i h hi => answer_iff hi, ?_, fun i h => live_delivered, ?_, ?_⟩
  · intro i j h g hij hi hj hid hdead hgdead _ hsent
    exact live_between hij hi hj hid hdead hgdead hsent
  · intro i j h g hij hi hj hid hlive hbetween
    exact first_delete_delivered hij hi hj hid hlive hbetween
  · intro id
    exact checkSends_filter id hs _ _ rfl

end Read
end Zerohop
