/-
# Errors

`CatscopeZerohopError` of `err.rs`. The boxed error of a failed transaction
is kept as its text.
-/
import Mathlib.Tactic.Common

namespace Zerohop

/-- `CatscopeZerohopError`. -/
inductive CatscopeZerohopError where
  | unknown (msg : String)
  | notImplemented
  | unalignedMemory
  | transactionFailure (error : String)
  | outofRange
  | configError (msg : String)
  | connectionError (msg : String)
  | connectionCanceled
  | bufferFull
deriving DecidableEq, Repr

/-- `TxFwdErrorCode`. -/
abbrev TxFwdErrorCode := UInt8

/-- `From<CatscopeZerohopError> for TxFwdErrorCode`. -/
def CatscopeZerohopError.code : CatscopeZerohopError → TxFwdErrorCode
  | unknown _ => 1
  | notImplemented => 2
  | unalignedMemory => 3
  | transactionFailure _ => 4
  | outofRange => 5
  | configError _ => 6
  | connectionError _ => 7
  | connectionCanceled => 8
  | bufferFull => 9

theorem bind_eq_ok {ε α β : Type*} {x : Except ε α} {f : α → Except ε β} {b : β} :
    x.bind f = .ok b ↔ ∃ a, x = .ok a ∧ f a = .ok b := by
  cases x <;> simp [Except.bind]

end Zerohop
