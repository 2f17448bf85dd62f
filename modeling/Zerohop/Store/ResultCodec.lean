/-
# Transaction results in 16 bytes

`result_to_bytes` and `result_from_bytes` of `store.rs` with their tables of
the variants of `TransactionError` and `InstructionError`. Byte 0 tells `Ok`
from `Err`; the slot of an `Ok` is in bytes 8 to 15; of an `Err` byte 1 is the
variant, byte 2 the variant of its instruction error, byte 3 an index and
bytes 4 to 7 a custom code. What a variant does not carry is written as zero
and not read.

Only the variants that the tables name are modelled, so the catch-all of
`encode_tx_error` for the others of a non-exhaustive enum has no case here.
-/
import Mathlib.Tactic.IntervalCases
import Zerohop.Err
import Zerohop.Store.Wire

namespace Zerohop
namespace Store

open Bytes

inductive InstructionError where
  | genericError
  | invalidArgument
  | invalidInstructionData
  | invalidAccountData
  | accountDataTooSmall
  | insufficientFunds
  | incorrectProgramId
  | missingRequiredSignature
  | accountAlreadyInitialized
  | uninitializedAccount
  | unbalancedInstruction
  | modifiedProgramId
  | externalAccountLamportSpend
  | externalAccountDataModified
  | readonlyLamportChange
  | readonlyDataModified
  | duplicateAccountIndex
  | executableModified
  | rentEpochModified
  | notEnoughAccountKeys
  | accountDataSizeChanged
  | accountNotExecutable
  | accountBorrowFailed
  | accountBorrowOutstanding
  | duplicateAccountOutOfSync
  | custom (code : UInt32)
  | invalidError
  | executableDataModified
  | executableLamportChange
  | executableAccountNotRentExempt
  | unsupportedProgramId
  | callDepth
  | missingAccount
  | reentrancyNotAllowed
  | maxSeedLengthExceeded
  | invalidSeeds
  | invalidRealloc
  | computationalBudgetExceeded
  | privilegeEscalation
  | programEnvironmentSetupFailure
  | programFailedToComplete
  | programFailedToCompile
  | immutable
  | incorrectAuthority
  | borshIoError
  | accountNotRentExempt
  | invalidAccountOwner
  | arithmeticOverflow
  | unsupportedSysvar
  | illegalOwner
  | maxAccountsDataAllocationsExceeded
  | maxAccountsExceeded
  | maxInstructionTraceLengthExceeded
  | builtinProgramsMustConsumeComputeUnits
deriving DecidableEq

inductive TransactionError where
  | accountInUse
  | accountLoadedTwice
  | accountNotFound
  | programAccountNotFound
  | insufficientFundsForFee
  | invalidAccountForFee
  | alreadyProcessed
  | blockhashNotFound
  | instructionError (index : UInt8) (error : InstructionError)
  | callChainTooDeep
  | missingSignatureForFee
  | invalidAccountIndex
  | signatureFailure
  | invalidProgramForExecution
  | sanitizeFailure
  | clusterMaintenance
  | accountBorrowOutstanding
  | wouldExceedMaxBlockCostLimit
  | unsupportedVersion
  | invalidWritableAccount
  | wouldExceedMaxAccountCostLimit
  | wouldExceedAccountDataBlockLimit
  | tooManyAccountLocks
  | addressLookupTableNotFound
  | invalidAddressLookupTableOwner
  | invalidAddressLookupTableData
  | invalidAddressLookupTableIndex
  | invalidRentPayingAccount
  | wouldExceedMaxVoteCostLimit
  | wouldExceedAccountDataTotalLimit
  | duplicateInstruction (index : UInt8)
  | insufficientFundsForRent (accountIndex : UInt8)
  | maxLoadedAccountsDataSizeExceeded
  | invalidLoadedAccountsDataSizeLimit
  | resanitizationNeeded
  | programExecutionTemporarilyRestricted (accountIndex : UInt8)
  | unbalancedTransaction
  | programCacheHitMaxLimit
  | commitCancelled
deriving DecidableEq

/-- `encode_instruction_error`: `(ie_disc, custom_u32)`. -/
def encodeInstructionError : InstructionError → UInt8 × UInt32
  | .genericError => (0, 0)
  | .invalidArgument => (1, 0)
  | .invalidInstructionData => (2, 0)
  | .invalidAccountData => (3, 0)
  | .accountDataTooSmall => (4, 0)
  | .insufficientFunds => (5, 0)
  | .incorrectProgramId => (6, 0)
  | .missingRequiredSignature => (7, 0)
  | .accountAlreadyInitialized => (8, 0)
  | .uninitializedAccount => (9, 0)
  | .unbalancedInstruction => (10, 0)
  | .modifiedProgramId => (11, 0)
  | .externalAccountLamportSpend => (12, 0)
  | .externalAccountDataModified => (13, 0)
  | .readonlyLamportChange => (14, 0)
  | .readonlyDataModified => (15, 0)
  | .duplicateAccountIndex => (16, 0)
  | .executableModified => (17, 0)
  | .rentEpochModified => (18, 0)
  | .notEnoughAccountKeys => (19, 0)
  | .accountDataSizeChanged => (20, 0)
  | .accountNotExecutable => (21, 0)
  | .accountBorrowFailed => (22, 0)
  | .accountBorrowOutstanding => (23, 0)
  | .duplicateAccountOutOfSync => (24, 0)
  | .custom code => (25, code)
  | .invalidError => (26, 0)
  | .executableDataModified => (27, 0)
  | .executableLamportChange => (28, 0)
  | .executableAccountNotRentExempt => (29, 0)
  | .unsupportedProgramId => (30, 0)
  | .callDepth => (31, 0)
  | .missingAccount => (32, 0)
  | .reentrancyNotAllowed => (33, 0)
  | .maxSeedLengthExceeded => (34, 0)
  | .invalidSeeds => (35, 0)
  | .invalidRealloc => (36, 0)
  | .computationalBudgetExceeded => (37, 0)
  | .privilegeEscalation => (38, 0)
  | .programEnvironmentSetupFailure => (39, 0)
  | .programFailedToComplete => (40, 0)
  | .programFailedToCompile => (41, 0)
  | .immutable => (42, 0)
  | .incorrectAuthority => (43, 0)
  | .borshIoError => (44, 0)
  | .accountNotRentExempt => (45, 0)
  | .invalidAccountOwner => (46, 0)
  | .arithmeticOverflow => (47, 0)
  | .unsupportedSysvar => (48, 0)
  | .illegalOwner => (49, 0)
  | .maxAccountsDataAllocationsExceeded => (50, 0)
  | .maxAccountsExceeded => (51, 0)
  | .maxInstructionTraceLengthExceeded => (52, 0)
  | .builtinProgramsMustConsumeComputeUnits => (53, 0)

/-- `encode_tx_error`: `(tx_disc, aux_u8, ie_disc, custom_u32)`. -/
def encodeTxError : TransactionError → UInt8 × UInt8 × UInt8 × UInt32
  | .accountInUse => (0, 0, 0, 0)
  | .accountLoadedTwice => (1, 0, 0, 0)
  | .accountNotFound => (2, 0, 0, 0)
  | .programAccountNotFound => (3, 0, 0, 0)
  | .insufficientFundsForFee => (4, 0, 0, 0)
  | .invalidAccountForFee => (5, 0, 0, 0)
  | .alreadyProcessed => (6, 0, 0, 0)
  | .blockhashNotFound => (7, 0, 0, 0)
  | .instructionError ix ie =>
    let (ieDisc, custom) := encodeInstructionError ie
    (8, ix, ieDisc, custom)
  | .callChainTooDeep => (9, 0, 0, 0)
  | .missingSignatureForFee => (10, 0, 0, 0)
  | .invalidAccountIndex => (11, 0, 0, 0)
  | .signatureFailure => (12, 0, 0, 0)
  | .invalidProgramForExecution => (13, 0, 0, 0)
  | .sanitizeFailure => (14, 0, 0, 0)
  | .clusterMaintenance => (15, 0, 0, 0)
  | .accountBorrowOutstanding => (16, 0, 0, 0)
  | .wouldExceedMaxBlockCostLimit => (17, 0, 0, 0)
  | .unsupportedVersion => (18, 0, 0, 0)
  | .invalidWritableAccount => (19, 0, 0, 0)
  | .wouldExceedMaxAccountCostLimit => (20, 0, 0, 0)
  | .wouldExceedAccountDataBlockLimit => (21, 0, 0, 0)
  | .tooManyAccountLocks => (22, 0, 0, 0)
  | .addressLookupTableNotFound => (23, 0, 0, 0)
  | .invalidAddressLookupTableOwner => (24, 0, 0, 0)
  | .invalidAddressLookupTableData => (25, 0, 0, 0)
  | .invalidAddressLookupTableIndex => (26, 0, 0, 0)
  | .invalidRentPayingAccount => (27, 0, 0, 0)
  | .wouldExceedMaxVoteCostLimit => (28, 0, 0, 0)
  | .wouldExceedAccountDataTotalLimit => (29, 0, 0, 0)
  | .duplicateInstruction ix => (30, ix, 0, 0)
  | .insufficientFundsForRent accountIndex => (31, accountIndex, 0, 0)
  | .maxLoadedAccountsDataSizeExceeded => (32, 0, 0, 0)
  | .invalidLoadedAccountsDataSizeLimit => (33, 0, 0, 0)
  | .resanitizationNeeded => (34, 0, 0, 0)
  | .programExecutionTemporarilyRestricted accountIndex => (35, accountIndex, 0, 0)
  | .unbalancedTransaction => (36, 0, 0, 0)
  | .programCacheHitMaxLimit => (37, 0, 0, 0)
  | .commitCancelled => (38, 0, 0, 0)

/-- `decode_instruction_error`. -/
def decodeInstructionError (ieDisc : UInt8) (custom : UInt32) :
    Except CatscopeZerohopError InstructionError :=
  match ieDisc with
  | 0 => .ok .genericError
  | 1 => .ok .invalidArgument
  | 2 => .ok .invalidInstructionData
  | 3 => .ok .invalidAccountData
  | 4 => .ok .accountDataTooSmall
  | 5 => .ok .insufficientFunds
  | 6 => .ok .incorrectProgramId
  | 7 => .ok .missingRequiredSignature
  | 8 => .ok .accountAlreadyInitialized
  | 9 => .ok .uninitializedAccount
  | 10 => .ok .unbalancedInstruction
  | 11 => .ok .modifiedProgramId
  | 12 => .ok .externalAccountLamportSpend
  | 13 => .ok .externalAccountDataModified
  | 14 => .ok .readonlyLamportChange
  | 15 => .ok .readonlyDataModified
  | 16 => .ok .duplicateAccountIndex
  | 17 => .ok .executableModified
  | 18 => .ok .rentEpochModified
  | 19 => .ok .notEnoughAccountKeys
  | 20 => .ok .accountDataSizeChanged
  | 21 => .ok .accountNotExecutable
  | 22 => .ok .accountBorrowFailed
  | 23 => .ok .accountBorrowOutstanding
  | 24 => .ok .duplicateAccountOutOfSync
  | 25 => .ok (.custom custom)
  | 26 => .ok .invalidError
  | 27 => .ok .executableDataModified
  | 28 => .ok .executableLamportChange
  | 29 => .ok .executableAccountNotRentExempt
  | 30 => .ok .unsupportedProgramId
  | 31 => .ok .callDepth
  | 32 => .ok .missingAccount
  | 33 => .ok .reentrancyNotAllowed
  | 34 => .ok .maxSeedLengthExceeded
  | 35 => .ok .invalidSeeds
  | 36 => .ok .invalidRealloc
  | 37 => .ok .computationalBudgetExceeded
  | 38 => .ok .privilegeEscalation
  | 39 => .ok .programEnvironmentSetupFailure
  | 40 => .ok .programFailedToComplete
  | 41 => .ok .programFailedToCompile
  | 42 => .ok .immutable
  | 43 => .ok .incorrectAuthority
  | 44 => .ok .borshIoError
  | 45 => .ok .accountNotRentExempt
  | 46 => .ok .invalidAccountOwner
  | 47 => .ok .arithmeticOverflow
  | 48 => .ok .unsupportedSysvar
  | 49 => .ok .illegalOwner
  | 50 => .ok .maxAccountsDataAllocationsExceeded
  | 51 => .ok .maxAccountsExceeded
  | 52 => .ok .maxInstructionTraceLengthExceeded
  | 53 => .ok .builtinProgramsMustConsumeComputeUnits
  | _ => .error .outofRange

/-- `decode_tx_error`. -/
def decodeTxError (txDisc aux ieDisc : UInt8) (custom : UInt32) :
    Except CatscopeZerohopError TransactionError :=
  match txDisc with
  | 0 => .ok .accountInUse
  | 1 => .ok .accountLoadedTwice
  | 2 => .ok .accountNotFound
  | 3 => .ok .programAccountNotFound
  | 4 => .ok .insufficientFundsForFee
  | 5 => .ok .invalidAccountForFee
  | 6 => .ok .alreadyProcessed
  | 7 => .ok .blockhashNotFound
  | 8 => do
    let ie ← decodeInstructionError ieDisc custom
    .ok (.instructionError aux ie)
  | 9 => .ok .callChainTooDeep
  | 10 => .ok .missingSignatureForFee
  | 11 => .ok .invalidAccountIndex
  | 12 => .ok .signatureFailure
  | 13 => .ok .invalidProgramForExecution
  | 14 => .ok .sanitizeFailure
  | 15 => .ok .clusterMaintenance
  | 16 => .ok .accountBorrowOutstanding
  | 17 => .ok .wouldExceedMaxBlockCostLimit
  | 18 => .ok .unsupportedVersion
  | 19 => .ok .invalidWritableAccount
  | 20 => .ok .wouldExceedMaxAccountCostLimit
  | 21 => .ok .wouldExceedAccountDataBlockLimit
  | 22 => .ok .tooManyAccountLocks
  | 23 => .ok .addressLookupTableNotFound
  | 24 => .ok .invalidAddressLookupTableOwner
  | 25 => .ok .invalidAddressLookupTableData
  | 26 => .ok .invalidAddressLookupTableIndex
  | 27 => .ok .invalidRentPayingAccount
  | 28 => .ok .wouldExceedMaxVoteCostLimit
  | 29 => .ok .wouldExceedAccountDataTotalLimit
  | 30 => .ok (.duplicateInstruction aux)
  | 31 => .ok (.insufficientFundsForRent aux)
  | 32 => .ok .maxLoadedAccountsDataSizeExceeded
  | 33 => .ok .invalidLoadedAccountsDataSizeLimit
  | 34 => .ok .resanitizationNeeded
  | 35 => .ok (.programExecutionTemporarilyRestricted aux)
  | 36 => .ok .unbalancedTransaction
  | 37 => .ok .programCacheHitMaxLimit
  | 38 => .ok .commitCancelled
  | _ => .error .outofRange

/-- `buf[start..start + bytes.len()].copy_from_slice(bytes)` on a buffer of 16
bytes that has room. -/
def copyFromSlice (buf : Vector UInt8 16) (start : ℕ) (bytes : List UInt8) : Vector UInt8 16 :=
  Vector.ofFn fun i => if start ≤ i.val then bytes.getD (i.val - start) buf[i.val] else buf[i.val]

/-- `result_to_bytes`. -/
def resultToBytes (result : Except TransactionError UInt64) : Vector UInt8 16 :=
  let buf := Vector.replicate 16 0
  match result with
  | .ok slot => copyFromSlice (buf.set 0 0) 8 (leBytes 8 slot.toNat)
  | .error e =>
    let (txDisc, aux, ieDisc, custom) := encodeTxError e
    copyFromSlice ((((buf.set 0 1).set 1 txDisc).set 2 ieDisc).set 3 aux) 4 (leBytes 4 custom.toNat)

/-- `result_from_bytes`. -/
def resultFromBytes (buf : Vector UInt8 16) :
    Except CatscopeZerohopError (Except TransactionError UInt64) :=
  match buf[0] with
  | 0 => .ok (.ok (Repr.u64.read (bytesAt buf.toList 8 8)))
  | 1 => do
    let e ← decodeTxError buf[1] buf[3] buf[2] (Repr.u32.read (bytesAt buf.toList 4 4))
    .ok (.error e)
  | _ => .error .outofRange

/-! ### What a variant carries -/

namespace TransactionError

/-- An index, in byte 3. -/
def hasIndex : TransactionError → Bool
  | instructionError _ _ => true
  | duplicateInstruction _ => true
  | insufficientFundsForRent _ => true
  | programExecutionTemporarilyRestricted _ => true
  | _ => false

/-- An instruction error, in byte 2. -/
def hasInstructionError : TransactionError → Bool
  | instructionError _ _ => true
  | _ => false

/-- A custom code, in bytes 4 to 7. -/
def hasCustom : TransactionError → Bool
  | instructionError _ (.custom _) => true
  | _ => false

end TransactionError

/-- The bytes that a result takes up. -/
def Significant : Except TransactionError UInt64 → ℕ → Prop
  | .ok _, i => i = 0 ∨ 8 ≤ i
  | .error e, i => i = 0 ∨ i = 1 ∨ (i = 2 ∧ e.hasInstructionError) ∨ (i = 3 ∧ e.hasIndex) ∨
      (4 ≤ i ∧ i < 8 ∧ e.hasCustom)

/-! ### The tables -/

theorem decode_encodeInstructionError (ie : InstructionError) :
    decodeInstructionError (encodeInstructionError ie).1 (encodeInstructionError ie).2 = .ok ie := by
  cases ie <;> rfl

/-- The decoder's entry is the encoder's; only `Custom` reads the code. -/
theorem encode_decodeInstructionError {ieDisc : UInt8} {custom : UInt32} {ie : InstructionError}
    (h : decodeInstructionError ieDisc custom = .ok ie) (aux : UInt8) :
    encodeInstructionError ie =
      (ieDisc, if (TransactionError.instructionError aux ie).hasCustom then custom else 0) := by
  unfold decodeInstructionError at h
  split at h <;> cases h <;> rfl

theorem decodeInstructionError_of_le {ieDisc : UInt8} (h : ieDisc.toNat ≤ 53) (custom : UInt32) :
    ∃ ie, decodeInstructionError ieDisc custom = .ok ie := by
  rw [← UInt8.ofNat_toNat (x := ieDisc)]
  generalize ieDisc.toNat = n at h
  interval_cases n <;> exact ⟨_, rfl⟩

theorem decodeInstructionError_of_lt {ieDisc : UInt8} (h : 53 < ieDisc.toNat) (custom : UInt32) :
    decodeInstructionError ieDisc custom = .error .outofRange := by
  unfold decodeInstructionError
  split <;> first | rfl | exact absurd h (by decide)

theorem decode_encodeTxError (e : TransactionError) :
    decodeTxError (encodeTxError e).1 (encodeTxError e).2.1 (encodeTxError e).2.2.1
      (encodeTxError e).2.2.2 = .ok e := by
  cases e with
  | instructionError ix ie =>
    show (decodeInstructionError (encodeInstructionError ie).1 (encodeInstructionError ie).2).bind _ = _
    rw [decode_encodeInstructionError]
    rfl
  | _ => rfl

/-- The decoder's entry is the encoder's; what a variant does not carry is
encoded as zero. -/
theorem encode_decodeTxError {txDisc aux ieDisc : UInt8} {custom : UInt32} {e : TransactionError}
    (h : decodeTxError txDisc aux ieDisc custom = .ok e) :
    encodeTxError e = (txDisc, if e.hasIndex then aux else 0,
      if e.hasInstructionError then ieDisc else 0, if e.hasCustom then custom else 0) := by
  unfold decodeTxError at h
  split at h
  case h_9 =>
    obtain ⟨ie, hie, he⟩ := bind_eq_ok.mp h
    cases he
    simp only [encodeTxError, encode_decodeInstructionError hie aux]
    rfl
  all_goals cases h <;> rfl

theorem decodeTxError_of_le {txDisc : UInt8} (h : txDisc.toNat ≤ 38) (h8 : txDisc ≠ 8)
    (aux ieDisc : UInt8) (custom : UInt32) : ∃ e, decodeTxError txDisc aux ieDisc custom = .ok e := by
  rw [← UInt8.ofNat_toNat (x := txDisc)] at h8 ⊢
  generalize txDisc.toNat = n at h h8
  interval_cases n <;> first | exact ⟨_, rfl⟩ | exact absurd rfl h8

theorem decodeTxError_of_lt {txDisc : UInt8} (h : 38 < txDisc.toNat) (aux ieDisc : UInt8)
    (custom : UInt32) : decodeTxError txDisc aux ieDisc custom = .error .outofRange := by
  unfold decodeTxError
  split <;> first | rfl | exact absurd h (by decide)

/-- **The rejected tags**: those past the ends of the tables. -/
theorem decodeTxError_eq_error_iff {txDisc aux ieDisc : UInt8} {custom : UInt32}
    {error : CatscopeZerohopError} : decodeTxError txDisc aux ieDisc custom = .error error ↔
      error = .outofRange ∧ (38 < txDisc.toNat ∨ txDisc = 8 ∧ 53 < ieDisc.toNat) := by
  by_cases hlt : 38 < txDisc.toNat
  · rw [decodeTxError_of_lt hlt]
    simp [hlt, eq_comm]
  · have hle : txDisc.toNat ≤ 38 := Nat.not_lt.mp hlt
    by_cases h8 : txDisc = 8
    · subst h8
      have hbind : decodeTxError 8 aux ieDisc custom =
          (decodeInstructionError ieDisc custom).bind fun ie => .ok (.instructionError aux ie) := rfl
      rw [hbind]
      by_cases hie : 53 < ieDisc.toNat
      · rw [decodeInstructionError_of_lt hie]
        simp [Except.bind, hie, eq_comm]
      · rw [Nat.not_lt] at hie
        obtain ⟨ie, hok⟩ := decodeInstructionError_of_le hie custom
        rw [hok]
        simp [Except.bind, Nat.not_lt.mpr hie]
    · obtain ⟨e, hok⟩ := decodeTxError_of_le hle h8 aux ieDisc custom
      rw [hok]
      simp [h8, Nat.not_lt.mpr hle]

/-! ### The buffer -/

theorem copyFromSlice_getElem (buf : Vector UInt8 16) (start : ℕ) (bytes : List UInt8) {i : ℕ}
    (hi : i < 16) : (copyFromSlice buf start bytes)[i] =
      if start ≤ i then bytes.getD (i - start) buf[i] else buf[i] := by
  simp [copyFromSlice]

theorem bytesAt_copyFromSlice (buf : Vector UInt8 16) (bytes : List UInt8) {start w : ℕ}
    (hw : bytes.length = w) (h : start + w ≤ 16) :
    bytesAt (copyFromSlice buf start bytes).toList start w = bytes := by
  apply List.ext_getElem
  · simp only [bytesAt, List.length_take, List.length_drop, Vector.length_toList]
    omega
  · intro i h1 h2
    simp only [bytesAt, List.getElem_take, List.getElem_drop, Vector.getElem_toList]
    rw [copyFromSlice_getElem _ _ _ (by omega), if_pos (Nat.le_add_right start i),
      Nat.add_sub_cancel_left, List.getD_eq_getElem?_getD, List.getElem?_eq_getElem h2, Option.getD_some]

theorem getD_bytesAt (buf : Vector UInt8 16) (start w : ℕ) {i : ℕ} (hi : i < 16) (h1 : start ≤ i)
    (h2 : i < start + w) (d : UInt8) : (bytesAt buf.toList start w).getD (i - start) d = buf[i] := by
  have hlen : i - start < (bytesAt buf.toList start w).length := by
    simp only [bytesAt, List.length_take, List.length_drop, Vector.length_toList]
    omega
  rw [List.getD_eq_getElem?_getD, List.getElem?_eq_getElem hlen, Option.getD_some]
  simp only [bytesAt, List.getElem_take, List.getElem_drop, Vector.getElem_toList]
  congr 1
  omega

theorem resultFromBytes_eq_ok {buf : Vector UInt8 16} {slot : UInt64} :
    resultFromBytes buf = .ok (.ok slot) ↔
      buf[0] = 0 ∧ Repr.u64.read (bytesAt buf.toList 8 8) = slot := by
  unfold resultFromBytes
  split
  · rename_i h0
    simp [h0]
  · rename_i h1
    rw [h1]
    refine iff_of_false ?_ (by simp)
    intro h
    obtain ⟨e, -, he⟩ := bind_eq_ok.mp h
    cases he
  · rename_i h0 _
    exact iff_of_false nofun fun h => h0 h.1

theorem resultFromBytes_eq_err {buf : Vector UInt8 16} {e : TransactionError} :
    resultFromBytes buf = .ok (.error e) ↔ buf[0] = 1 ∧
      decodeTxError buf[1] buf[3] buf[2] (Repr.u32.read (bytesAt buf.toList 4 4)) = .ok e := by
  unfold resultFromBytes
  split
  · rename_i h0
    rw [h0]
    exact iff_of_false nofun (by simp)
  · rename_i h1
    rw [h1]
    apply Iff.trans bind_eq_ok
    simp
  · rename_i h1
    exact iff_of_false nofun fun h => h1 h.1

/-- **The rejected buffers.** -/
theorem resultFromBytes_eq_error_iff {buf : Vector UInt8 16} {error : CatscopeZerohopError} :
    resultFromBytes buf = .error error ↔ error = .outofRange ∧
      (1 < buf[0].toNat ∨ buf[0] = 1 ∧ 38 < buf[1].toNat ∨
        buf[0] = 1 ∧ buf[1] = 8 ∧ 53 < buf[2].toNat) := by
  unfold resultFromBytes
  split
  · rename_i h0
    rw [h0]
    exact iff_of_false nofun (by simp)
  · rename_i h1
    rw [h1]
    have hbind : ∀ x : Except CatscopeZerohopError TransactionError,
        (x.bind fun e => .ok (.error e : Except TransactionError UInt64)) = .error error ↔
          x = .error error := by
      intro x
      cases x <;> simp [Except.bind]
    refine (hbind _).trans (decodeTxError_eq_error_iff.trans ?_)
    simp
  · rename_i h0 h1
    have hgt : 1 < buf[0].toNat := by
      have h0' : buf[0].toNat ≠ 0 := fun h => h0 (UInt8.toNat_inj.mp h)
      have h1' : buf[0].toNat ≠ 1 := fun h => h1 (UInt8.toNat_inj.mp h)
      omega
    simp [hgt, eq_comm]

/-! ### Round trips -/

/-- **Every result is read back.** -/
theorem resultFromBytes_resultToBytes (result : Except TransactionError UInt64) :
    resultFromBytes (resultToBytes result) = .ok result := by
  cases result with
  | ok slot =>
    refine resultFromBytes_eq_ok.mpr ⟨?_, ?_⟩
    · simp [resultToBytes, copyFromSlice_getElem]
    · rw [resultToBytes, bytesAt_copyFromSlice _ _ (leBytes_length 8 _) (by decide), read_u64]
  | error e =>
    refine resultFromBytes_eq_err.mpr ⟨?_, ?_⟩
    · simp [resultToBytes, copyFromSlice_getElem]
    · have hread : Repr.u32.read (bytesAt (resultToBytes (.error e)).toList 4 4) =
          (encodeTxError e).2.2.2 := by
        rw [resultToBytes, bytesAt_copyFromSlice _ _ (leBytes_length 4 _) (by decide), read_u32]
      rw [hread]
      simpa [resultToBytes, copyFromSlice_getElem] using decode_encodeTxError e

theorem resultToBytes_injective : Function.Injective resultToBytes := by
  intro r r' h
  have hr := resultFromBytes_resultToBytes r
  rw [h, resultFromBytes_resultToBytes r'] at hr
  exact (Except.ok.inj hr).symm

theorem resultToBytes_slot {buf : Vector UInt8 16} {slot : UInt64}
    (h : resultFromBytes buf = .ok (.ok slot)) {i : ℕ} (hi : i < 16) :
    (resultToBytes (.ok slot))[i] = if 8 ≤ i then buf[i] else 0 := by
  have hslot := (resultFromBytes_eq_ok.mp h).2
  have hbytes : leBytes 8 slot.toNat = bytesAt buf.toList 8 8 := by
    rw [← hslot, leBytes_read_u64 (bytesAt_length (by simp))]
  unfold resultToBytes
  rw [copyFromSlice_getElem _ _ _ hi, hbytes]
  by_cases h8 : 8 ≤ i
  · rw [if_pos h8, if_pos h8, getD_bytesAt buf 8 8 hi h8 hi]
  · rw [if_neg h8, if_neg h8]
    simp

/-- The bytes written for the error that was read: those it carries. -/
theorem resultToBytes_err {buf : Vector UInt8 16} {e : TransactionError}
    (h : resultFromBytes buf = .ok (.error e)) {i : ℕ} (hi : i < 16) :
    (resultToBytes (.error e))[i] =
      if i < 2 ∨ i = 2 ∧ e.hasInstructionError ∨ i = 3 ∧ e.hasIndex ∨ (4 ≤ i ∧ i < 8 ∧ e.hasCustom)
      then buf[i] else 0 := by
  obtain ⟨h1, hdec⟩ := resultFromBytes_eq_err.mp h
  have henc := encode_decodeTxError hdec
  have hbytes : leBytes 4 (Repr.u32.read (bytesAt buf.toList 4 4)).toNat = bytesAt buf.toList 4 4 :=
    leBytes_read_u32 (bytesAt_length (by simp))
  simp only [resultToBytes, henc]
  rw [copyFromSlice_getElem _ _ _ hi]
  by_cases hlt : i < 4
  · rw [if_neg (by omega)]
    interval_cases i <;> simp [h1]
  · have hge : 4 ≤ i := Nat.not_lt.mp hlt
    have hold : ∀ x y z : UInt8,
        (((((Vector.replicate 16 (0 : UInt8)).set 0 1).set 1 x).set 2 y).set 3 z)[i] = 0 := by
      intro x y z
      simp only [Vector.getElem_set, Vector.getElem_replicate]
      rw [if_neg (by omega), if_neg (by omega), if_neg (by omega), if_neg (by omega)]
    rw [if_pos hge, hold]
    by_cases hc : e.hasCustom = true
    · rw [if_pos hc, hbytes]
      by_cases h8 : i < 8
      · rw [getD_bytesAt buf 4 4 hi hge h8, if_pos (Or.inr (Or.inr (Or.inr ⟨hge, h8, hc⟩)))]
      · rw [Nat.not_lt] at h8
        rw [if_neg (by omega), List.getD_eq_getElem?_getD, List.getElem?_eq_none, Option.getD_none]
        rw [bytesAt_length (by simp)]
        omega
    · have hzero : leBytes 4 (0 : UInt32).toNat = List.replicate 4 0 := rfl
      have hnot : ¬ (i < 2 ∨ i = 2 ∧ e.hasInstructionError ∨ i = 3 ∧ e.hasIndex ∨
          (4 ≤ i ∧ i < 8 ∧ e.hasCustom)) := by
        rintro (h | ⟨h, -⟩ | ⟨h, -⟩ | ⟨-, -, h⟩)
        · omega
        · omega
        · omega
        · exact hc h
      rw [if_neg hc, if_neg hnot, hzero, List.getD_eq_getElem?_getD, List.getElem?_replicate]
      split <;> rfl

/-- **The codec.** Every result is read back, so no two have the same bytes; a
buffer that is read has, in the bytes its result takes up, what the result is
written as, which is zero elsewhere; and the rejected buffers are those with a
tag past its table. -/
theorem result_codec :
    (∀ result, resultFromBytes (resultToBytes result) = .ok result) ∧
    Function.Injective resultToBytes ∧
    (∀ buf result, resultFromBytes buf = .ok result →
      (∀ i (hi : i < 16), Significant result i → (resultToBytes result)[i] = buf[i]) ∧
      (∀ i (hi : i < 16), ¬ Significant result i → (resultToBytes result)[i] = 0) ∧
      resultFromBytes (resultToBytes result) = .ok result) ∧
    ∀ buf error, resultFromBytes buf = .error error ↔ error = .outofRange ∧
      (1 < buf[0].toNat ∨ buf[0] = 1 ∧ 38 < buf[1].toNat ∨
        buf[0] = 1 ∧ buf[1] = 8 ∧ 53 < buf[2].toNat) := by
  refine ⟨resultFromBytes_resultToBytes, resultToBytes_injective, ?_,
    fun buf error => resultFromBytes_eq_error_iff⟩
  intro buf result h
  refine ⟨?_, ?_, resultFromBytes_resultToBytes result⟩
  · intro i hi hsig
    cases result with
    | ok slot =>
      rw [resultToBytes_slot h hi]
      rcases hsig with rfl | h8
      · exact (resultFromBytes_eq_ok.mp h).1.symm
      · exact if_pos h8
    | error e =>
      rw [resultToBytes_err h hi, if_pos]
      rcases hsig with rfl | rfl | hsig
      · exact Or.inl (by decide)
      · exact Or.inl (by decide)
      · exact Or.inr hsig
  · intro i hi hsig
    cases result with
    | ok slot =>
      rw [resultToBytes_slot h hi, if_neg]
      exact fun h8 => hsig (Or.inr h8)
    | error e =>
      rw [resultToBytes_err h hi, if_neg]
      rintro (h2 | hrest)
      · exact hsig (by rcases (by omega : i = 0 ∨ i = 1) with rfl | rfl <;> simp [Significant])
      · exact hsig (Or.inr (Or.inr hrest))

/-! ### Slot statuses -/

/-- `SlotStatus`. -/
inductive SlotStatus where
  | processed
  | rooted
  | confirmed
  | firstShredReceived
  | completed
  | createdBank
  | dead (error : String)
deriving DecidableEq

/-- `convert_slot_status_from`. -/
def convertSlotStatusFrom : SlotStatus → UInt8
  | .processed => 1
  | .rooted => 2
  | .confirmed => 3
  | .firstShredReceived => 4
  | .completed => 5
  | .createdBank => 6
  | .dead _ => 7

/-- `convert_slot_status_to`. -/
def convertSlotStatusTo (statusu8 : UInt8) : Except CatscopeZerohopError SlotStatus :=
  match statusu8 with
  | 1 => .ok .processed
  | 2 => .ok .rooted
  | 3 => .ok .confirmed
  | 4 => .ok .firstShredReceived
  | 5 => .ok .completed
  | 6 => .ok .createdBank
  | 7 => .ok (.dead "blank")
  | _ => .error .outofRange

/-- A status is read back from its byte, except that why a slot is dead is lost. -/
theorem convertSlotStatusTo_eq_ok {statusu8 : UInt8} {status : SlotStatus} :
    convertSlotStatusTo statusu8 = .ok status ↔
      convertSlotStatusFrom status = statusu8 ∧ ∀ error, status = .dead error → error = "blank" := by
  constructor
  · intro h
    unfold convertSlotStatusTo at h
    split at h <;> cases h <;> simp [convertSlotStatusFrom]
  · rintro ⟨rfl, hdead⟩
    cases status with
    | dead error => rw [hdead error rfl]; rfl
    | _ => rfl

end Store
end Zerohop
