/-
# A writer called in any order

`program`, `account` and `data` of a `CatscopeInstructionWrite` may be called in
any order and any number of times between `append_outer` or `append_inner` and
the drop (`Session`). `account` and `data` assert that they are called for the
first time, the drop asserts that both were. So a session ends exactly if each
is called once, and then it is the one append of the last program, or of 0, and
of these accounts and data: the order of the calls leaves no trace
(`sessions_eq`).

A `Draft` is what a writer has been told so far; `draw` is the writer that has
been told it.

Key definitions: `Session`, `Session.append?`, `Draft`.
Key theorems: `Fresh.calls_eq`, `sessions_eq`.
-/
import Zerohop.Store.Builder

namespace Zerohop
namespace Store

open Cuts

/-- A call on a writer, and what the caller writes into the slice it returns. -/
inductive Call where
  | program (programId : AccountId)
  | account (ids : List AccountId)
  | data (bytes : List UInt8)
deriving DecidableEq, Repr

namespace Call

def program? : Call → Option AccountId
  | program programId => some programId
  | _ => none

def account? : Call → Option (List AccountId)
  | account ids => some ids
  | _ => none

def data? : Call → Option (List UInt8)
  | data bytes => some bytes
  | _ => none

end Call

namespace CatscopeInstructionWrite

def call (w : CatscopeInstructionWrite) : Call → Option CatscopeInstructionWrite
  | .program programId => w.program programId
  | .account ids => do
    let (w, start) ← w.account ids.length
    pure (w.fillAccount start ids)
  | .data bytes => do
    let (w, start) ← w.data bytes.length
    pure (w.fillData start bytes)

def calls (w : CatscopeInstructionWrite) (cs : List Call) : Option CatscopeInstructionWrite :=
  cs.foldlM call w

end CatscopeInstructionWrite

/-- One instruction, from the append to the drop. -/
structure Session where
  target : Target
  calls : List Call
deriving DecidableEq, Repr

namespace Session

def run (debug : Bool) (tx : CatscopeTransaction) (session : Session) : Option CatscopeTransaction := do
  let w ← tx.append debug session.target
  let w ← w.calls session.calls
  w.drop

/-- The append that a session comes to, if `account` and `data` are called once. -/
def append? (session : Session) : Option Append :=
  match session.calls.filterMap Call.account?, session.calls.filterMap Call.data? with
  | [account], [data] =>
    some ⟨session.target, (session.calls.filterMap Call.program?).getLast?.getD 0, account, data⟩
  | _, _ => none

end Session

/-- The run of a caller that goes through `sessions`. -/
def runSessions (debug : Bool) (sessions : List Session) : Option CatscopeTransaction :=
  sessions.foldlM (Session.run debug) CatscopeTransaction.default

/-! ### Drafts -/

/-- What a writer has been told. -/
structure Draft where
  program : AccountId
  account : Option (List AccountId)
  data : Option (List UInt8)

namespace Draft

def empty : Draft := ⟨0, none, none⟩

def call (d : Draft) : Call → Option Draft
  | .program program => some { d with program }
  | .account ids => if d.account.isSome then none else some { d with account := some ids }
  | .data bytes => if d.data.isSome then none else some { d with data := some bytes }

/-- The append it comes to. -/
def append? (d : Draft) (target : Target) : Option Append := do
  let account ← d.account
  let data ← d.data
  pure ⟨target, d.program, account, data⟩

/-- Of an append. -/
def ofAppend (a : Append) : Draft := ⟨a.program, some a.account, some a.data⟩

/-- **What the calls come to**: the last program, and accounts and data if there
is at most one of each. -/
theorem foldlM_call : ∀ (cs : List Call) (d : Draft), cs.foldlM call d =
    if (d.account.toList ++ cs.filterMap Call.account?).length ≤ 1 ∧
        (d.data.toList ++ cs.filterMap Call.data?).length ≤ 1 then
      some ⟨(cs.filterMap Call.program?).getLast?.getD d.program,
        (d.account.toList ++ cs.filterMap Call.account?).head?,
        (d.data.toList ++ cs.filterMap Call.data?).head?⟩
    else none
  | [], ⟨program, account, data⟩ => by cases account <;> cases data <;> simp
  | .program program' :: cs, ⟨program, account, data⟩ => by
    simp only [List.foldlM_cons, call, Option.bind_eq_bind, Option.bind_some, foldlM_call cs]
    simp [List.filterMap_cons, Call.account?, Call.data?, Call.program?, List.getLast?_cons]
  | .account ids :: cs, ⟨program, account, data⟩ => by
    cases account with
    | none =>
      simp only [List.foldlM_cons, call, Option.isSome_none, Bool.false_eq_true, if_false,
        Option.bind_eq_bind, Option.bind_some, foldlM_call cs]
      simp [List.filterMap_cons, Call.account?, Call.data?, Call.program?]
    | some ids' =>
      simp [List.foldlM_cons, call, List.filterMap_cons, Call.account?]
  | .data bytes :: cs, ⟨program, account, data⟩ => by
    cases data with
    | none =>
      simp only [List.foldlM_cons, call, Option.isSome_none, Bool.false_eq_true, if_false,
        Option.bind_eq_bind, Option.bind_some, foldlM_call cs]
      simp [List.filterMap_cons, Call.account?, Call.data?, Call.program?]
    | some bytes' =>
      simp [List.foldlM_cons, call, List.filterMap_cons, Call.data?]

theorem append?_eq (session : Session) :
    (session.calls.foldlM call empty).bind (fun d => d.append? session.target) = session.append? := by
  rw [foldlM_call, Session.append?]
  generalize session.calls.filterMap Call.account? = accounts
  generalize session.calls.filterMap Call.data? = datas
  match accounts, datas with
  | [], _ => split_ifs <;> rfl
  | [_], [] => rfl
  | [_], [_] => rfl
  | [_], _ :: _ :: _ => simp [empty]
  | _ :: _ :: _, _ => simp [empty]

end Draft

/-! ### The writer that has been told -/

namespace CatscopeInstructionWrite

/-- Just appended: nothing is set, and its record and its table entries are there. -/
structure Fresh (w : CatscopeInstructionWrite) : Prop where
  accountSet : w.accountSet = false
  dataSet : w.dataSet = false
  record : instructionAt w.tx.outer w.tx.inner w.i = some CatscopeInstruction.default
  accountChunkI : w.accountChunkI < w.tx.accountChunkLast.length
  dataChunkI : w.dataChunkI < w.tx.dataChunkLast.length

/-- The list of records that `i` points into, with a program at `i`. -/
def setOuter (i : IxIndex) (program : AccountId) (outer : List CatscopeInstruction) :
    List CatscopeInstruction :=
  match i with
  | .outer i => outer.set i { CatscopeInstruction.default with program }
  | .inner _ => outer

def setInner (i : IxIndex) (program : AccountId) (inner : List CatscopeInstruction) :
    List CatscopeInstruction :=
  match i with
  | .outer _ => inner
  | .inner i => inner.set i { CatscopeInstruction.default with program }

/-- A table with the end of what has been allocated, if anything has. -/
def setLast {α : Type} (last : List UInt16) (chunkI : ℕ) (chunk : List α) : Option (List α) → List UInt16
  | none => last
  | some items => last.set chunkI (UInt16.ofNat (chunk.length + items.length))

/-- A fresh writer that has been told `d`. -/
def draw (w : CatscopeInstructionWrite) (d : Draft) : CatscopeInstructionWrite :=
  { w with
    accountSet := d.account.isSome
    dataSet := d.data.isSome
    tx := { w.tx with
      outer := setOuter w.i d.program w.tx.outer
      inner := setInner w.i d.program w.tx.inner
      accountChunkLast := setLast w.tx.accountChunkLast w.accountChunkI w.tx.accountChunk d.account
      accountChunk := w.tx.accountChunk ++ d.account.getD []
      dataChunkLast := setLast w.tx.dataChunkLast w.dataChunkI w.tx.dataChunk d.data
      dataChunk := w.tx.dataChunk ++ d.data.getD [] } }

theorem set_of_getElem? {α : Type} {l : List α} {i : ℕ} {x : α} (h : l[i]? = some x) : l.set i x = l := by
  obtain ⟨hi, rfl⟩ := List.getElem?_eq_some_iff.mp h
  exact List.set_getElem_self hi

variable {w : CatscopeInstructionWrite}

theorem Fresh.draw_empty (h : w.Fresh) : w.draw Draft.empty = w := by
  have houter : setOuter w.i 0 w.tx.outer = w.tx.outer := by
    have hr := h.record
    cases hi : w.i with
    | outer i =>
      rw [hi] at hr
      exact set_of_getElem? hr
    | inner i => rfl
  have hinner : setInner w.i 0 w.tx.inner = w.tx.inner := by
    have hr := h.record
    cases hi : w.i with
    | outer i => rfl
    | inner i =>
      rw [hi] at hr
      exact set_of_getElem? hr
  simp only [draw, Draft.empty, houter, hinner, setLast, Option.getD_none, List.append_nil,
    Option.isSome_none]
  obtain ⟨i, dataChunkI, accountChunkI, accountSet, dataSet, tx⟩ := w
  obtain rfl : accountSet = false := h.accountSet
  obtain rfl : dataSet = false := h.dataSet
  rfl

theorem allocate_fresh {α : Type} {last : List UInt16} {chunkI : ℕ} (h : chunkI < last.length)
    (chunk : List α) (zero : α) (size : ℕ) : allocate false last chunk zero chunkI size =
      some (last.set chunkI (UInt16.ofNat (chunk.length + size)), chunk ++ List.replicate size zero,
        chunk.length) := by
  simp [allocate, guard, List.getElem?_eq_getElem h]

theorem allocate_set {α : Type} (last : List UInt16) (chunk : List α) (zero : α) (chunkI size : ℕ) :
    allocate true last chunk zero chunkI size = none := rfl

/-- **One call** tells the writer what it tells the draft. -/
theorem Fresh.call_draw (h : w.Fresh) (d : Draft) (c : Call) :
    (w.draw d).call c = (d.call c).map w.draw := by
  cases c with
  | program program =>
    have hr := h.record
    simp only [call, CatscopeInstructionWrite.program, draw, Draft.call, Option.map_some]
    cases hi : w.i with
    | outer i =>
      rw [hi] at hr
      obtain ⟨hlt, -⟩ := List.getElem?_eq_some_iff.mp hr
      simp [setOuter, setInner, hlt]
    | inner i =>
      rw [hi] at hr
      obtain ⟨hlt, -⟩ := List.getElem?_eq_some_iff.mp hr
      simp [setOuter, setInner, hlt]
  | account ids =>
    cases ha : d.account with
    | none =>
      simp only [call, CatscopeInstructionWrite.account, draw, Draft.call, ha, setLast, Option.isSome_none,
        Option.getD_none, List.append_nil, allocate_fresh h.accountChunkI, Option.bind_eq_bind,
        Option.bind_some, Option.pure_def, fillAccount, overwrite_append_replicate, Bool.false_eq_true,
        if_false, Option.map_some, Option.isSome_some, Option.getD_some]
    | some ids' =>
      simp only [call, CatscopeInstructionWrite.account, draw, Draft.call, ha, Option.isSome_some,
        allocate_set, Option.bind_eq_bind, Option.bind_none, if_true, Option.map_none]
  | data bytes =>
    cases hd : d.data with
    | none =>
      simp only [call, CatscopeInstructionWrite.data, draw, Draft.call, hd, setLast, Option.isSome_none,
        Option.getD_none, List.append_nil, allocate_fresh h.dataChunkI, Option.bind_eq_bind,
        Option.bind_some, Option.pure_def, fillData, overwrite_append_replicate, Bool.false_eq_true,
        if_false, Option.map_some, Option.isSome_some, Option.getD_some]
    | some bytes' =>
      simp only [call, CatscopeInstructionWrite.data, draw, Draft.call, hd, Option.isSome_some,
        allocate_set, Option.bind_eq_bind, Option.bind_none, if_true, Option.map_none]

theorem Fresh.calls_draw (h : w.Fresh) : ∀ (cs : List Call) (d : Draft),
    (w.draw d).calls cs = (cs.foldlM Draft.call d).map w.draw
  | [], d => rfl
  | c :: cs, d => by
    rw [calls, List.foldlM_cons, List.foldlM_cons, h.call_draw]
    cases d.call c with
    | none => rfl
    | some d' => exact h.calls_draw cs d'

theorem drop_draw (w : CatscopeInstructionWrite) (d : Draft) (target : Target) :
    (w.draw d).drop = (d.append? target).bind fun a => (w.draw (Draft.ofAppend a)).drop := by
  obtain ⟨program, account, data⟩ := d
  cases account with
  | none => rfl
  | some account =>
    cases data with
    | none => rfl
    | some data => rfl

theorem Fresh.fill_eq (h : w.Fresh) (a : Append) : w.fill a = some (w.draw (Draft.ofAppend a)) := by
  have hcalls := h.calls_draw [.program a.program, .account a.account, .data a.data] Draft.empty
  rw [h.draw_empty] at hcalls
  have hfill : w.fill a = w.calls [.program a.program, .account a.account, .data a.data] := by
    simp only [fill, calls, call, List.foldlM_cons, List.foldlM_nil, bind_assoc, pure_bind, bind_pure]
  rw [hfill, hcalls]
  rfl

/-- **Whatever the order of the calls**, they come to the canonical ones of the
append, if to one. -/
theorem Fresh.calls_eq (h : w.Fresh) (session : Session) :
    (w.calls session.calls).bind drop = session.append?.bind fun a => (w.fill a).bind drop := by
  have hcalls := h.calls_draw session.calls Draft.empty
  rw [h.draw_empty] at hcalls
  rw [hcalls, ← Draft.append?_eq]
  cases session.calls.foldlM Draft.call Draft.empty with
  | none => rfl
  | some d =>
    rw [Option.map_some, Option.bind_some, drop_draw w d session.target, Option.bind_some]
    simp only [h.fill_eq, Option.bind_some]

end CatscopeInstructionWrite

/-! ### Sessions -/

theorem fresh_appendOuter (tx : CatscopeTransaction) : tx.appendOuter.Fresh where
  accountSet := rfl
  dataSet := rfl
  record := by simp [CatscopeTransaction.appendOuter, instructionAt]
  accountChunkI := by simp [CatscopeTransaction.appendOuter]
  dataChunkI := by simp [CatscopeTransaction.appendOuter]

theorem fresh_append {debug : Bool} {tx : CatscopeTransaction} {target : Target}
    {w : CatscopeInstructionWrite} (h : tx.append debug target = some w) : w.Fresh := by
  cases target with
  | outer =>
    obtain rfl := Option.some.inj h
    exact fresh_appendOuter tx
  | inner outerIdx =>
    simp only [CatscopeTransaction.append, CatscopeTransaction.appendInner, Option.bind_eq_bind,
      Option.bind_eq_some_iff, Option.pure_def, Option.some.injEq] at h
    obtain ⟨_, -, _, -, rfl⟩ := h
    exact ⟨rfl, rfl, by simp [instructionAt], by simp, by simp⟩

/-- One session is its append, if it comes to one, and panics if not. -/
theorem Session.run_eq (debug : Bool) (tx : CatscopeTransaction) (session : Session) :
    session.run debug tx = session.append?.bind (appendOne debug tx) := by
  have htarget : ∀ a, session.append? = some a → a.target = session.target := by
    intro a ha
    unfold Session.append? at ha
    split at ha <;> cases ha
    rfl
  unfold Session.run
  cases hw : tx.append debug session.target with
  | none =>
    cases ha : session.append? with
    | none => rfl
    | some a => simp [appendOne, htarget a ha, hw]
  | some w =>
    have hcalls := (fresh_append hw).calls_eq session
    simp only [Option.bind_eq_bind, Option.bind_some]
    rw [hcalls]
    cases ha : session.append? with
    | none => rfl
    | some a => simp [appendOne, htarget a ha, hw]

theorem foldlM_run (debug : Bool) : ∀ (sessions : List Session) (tx : CatscopeTransaction),
    sessions.foldlM (Session.run debug) tx =
      (sessions.mapM Session.append?).bind fun as => as.foldlM (appendOne debug) tx
  | [], _ => rfl
  | session :: sessions, tx => by
    rw [List.foldlM_cons, List.mapM_cons, Session.run_eq]
    cases session.append? with
    | none => rfl
    | some a =>
      simp only [Option.bind_eq_bind, Option.bind_some, foldlM_run debug sessions, Option.pure_def,
        Option.bind_assoc, List.foldlM_cons]
      exact Option.bind_comm ..

/-- **Any order of calls.** A run of writers called in any order is the run of
the appends they come to, if each of them comes to one; if one does not, the
run panics. -/
theorem sessions_eq (debug : Bool) (sessions : List Session) :
    runSessions debug sessions = (sessions.mapM Session.append?).bind (build debug) :=
  foldlM_run debug sessions _

/-- The last of two programs counts, wherever it is set. -/
example : Session.append? ⟨.outer, [.data [1], .program 3, .account [2], .program 4]⟩ =
    some ⟨.outer, 4, [2], [1]⟩ := by decide

end Store
end Zerohop
