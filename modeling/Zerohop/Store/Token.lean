/-
# Token accounts

`parse_token` of `util.rs` finds the mint, the owner and the amount at the
front of the data of a token account. It asks for the 165 bytes of an account
without extensions and looks at the state byte behind the 36 bytes that it
skips; whatever follows is left alone.

Key definitions: `TokenReference`, `parseToken`, `TokenReference.bytes`.
Key theorem: `parse_token_iff`.
-/
import Zerohop.Store.Account

namespace Zerohop
namespace Store

open Bytes

structure TokenReference where
  owner : Pubkey
  mint : Pubkey
  amount : UInt64
deriving DecidableEq

/-- `TOKEN_ACCOUNT_MIN_SIZE`. -/
def tokenAccountMinSize : ℕ := 165

/-- `TOKEN_ACCOUNT_STATE_OFFSET`. -/
def tokenAccountStateOffset : ℕ := 108

/-- `parse_token`; `none` is a panic. -/
def parseToken (data : List UInt8) : Option (Except CatscopeZerohopError TokenReference) :=
  let pLen := 32
  let amtLen := 8
  if data.length < tokenAccountMinSize then some (.error .outofRange) else do
    let state ← data[tokenAccountStateOffset]?
    if state ≠ 1 ∧ state ≠ 2 then some (.error .outofRange) else do
      let index := 0
      let subbuf ← Cuts.slice data index (index + pLen)
      let mint := vectorAt 32 subbuf 0
      let index := index + pLen
      let subbuf ← Cuts.slice data index (index + pLen)
      let owner := vectorAt 32 subbuf 0
      let index := index + pLen
      let s ← Cuts.slice data index (index + amtLen)
      guard (s.length = 8) -- `try_into` an array
      let amount := UInt64.ofNat (ofLe s)
      some (.ok { mint, owner, amount })

/-- The front of a token account up to its state, `middle` being the delegate. -/
def TokenReference.bytes (middle : Vector UInt8 36) (state : UInt8) (token : TokenReference) :
    List UInt8 :=
  token.mint.toList ++ token.owner.toList ++ leBytes 8 token.amount.toNat ++ middle.toList ++ [state]

/-- What is found in long enough data. -/
def tokenAt (data : List UInt8) : TokenReference where
  mint := vectorAt 32 data 0
  owner := vectorAt 32 data 32
  amount := Repr.u64.read (bytesAt data 64 8)

theorem slice_eq_bytesAt (bs : List UInt8) (off w : ℕ) (h : off + w ≤ bs.length) :
    Cuts.slice bs off (off + w) = some (bytesAt bs off w) := by
  rw [Cuts.slice_eq_some (Nat.le_add_right off w) h, bytesAt, List.drop_take, Nat.add_sub_cancel_left]

theorem vectorAt_bytesAt {n : ℕ} {bs : List UInt8} {off : ℕ} (h : off + n ≤ bs.length) :
    vectorAt n (bytesAt bs off n) 0 = vectorAt n bs off := by
  have hlen : (bytesAt bs off n).length = n := bytesAt_length h
  apply vectorAt_eq (by omega)
  rw [vectorAt_toList h, bytesAt, List.drop_zero, List.take_of_length_le (Nat.le_of_eq hlen)]

theorem parse_token_short {data : List UInt8} (h : data.length < 165) :
    parseToken data = some (.error .outofRange) := if_pos h

/-- No slice is out of range once the length was checked. -/
theorem parse_token_eq {data : List UInt8} (h : 165 ≤ data.length) : parseToken data =
    some (if data[108] = 1 ∨ data[108] = 2 then .ok (tokenAt data) else .error .outofRange) := by
  have hlen : ¬ data.length < tokenAccountMinSize := Nat.not_lt.mpr h
  have hbyte : 108 < data.length := by omega
  have hstate : data[tokenAccountStateOffset]? = some data[108] := List.getElem?_eq_getElem hbyte
  have hmint := slice_eq_bytesAt data 0 32 (by omega)
  have howner := slice_eq_bytesAt data 32 32 (by omega)
  have hamount := slice_eq_bytesAt data 64 8 (by omega)
  have hword : (bytesAt data 64 8).length = 8 := bytesAt_length (by omega)
  unfold parseToken
  simp only [if_neg hlen, hstate, Option.bind_eq_bind, Option.bind_some, Nat.reduceAdd, hmint, howner,
    hamount, hword]
  by_cases hok : data[108] = 1 ∨ data[108] = 2
  · have hpass : ¬ (data[108] ≠ 1 ∧ data[108] ≠ 2) := by tauto
    rw [if_neg hpass, if_pos hok, vectorAt_bytesAt (by omega), vectorAt_bytesAt (by omega)]
    rfl
  · have hfail : data[108] ≠ 1 ∧ data[108] ≠ 2 := by tauto
    rw [if_pos hfail, if_neg hok]

theorem token_bytes_at {data : List UInt8} (h : 109 ≤ data.length) :
    (tokenAt data).bytes (vectorAt 36 data 72) data[108] ++ data.drop 109 = data := by
  have hamount : leBytes 8 (Repr.u64.read (bytesAt data 64 8)).toNat = bytesAt data 64 8 :=
    leBytes_read_u64 (bytesAt_length (by omega))
  have hstate : [data[108]] = bytesAt data 108 1 := by
    rw [bytesAt, List.drop_eq_getElem_cons (by omega)]
    rfl
  simp only [TokenReference.bytes, tokenAt, hamount, hstate]
  rw [vectorAt_toList (by omega), vectorAt_toList (by omega), vectorAt_toList (by omega)]
  simp only [bytesAt, List.drop_zero, ← List.take_add, Nat.reduceAdd]
  exact List.take_append_drop 109 data

theorem token_bytes_length (token : TokenReference) (middle : Vector UInt8 36) (state : UInt8) :
    (token.bytes middle state).length = 109 := by
  simp [TokenReference.bytes]

theorem token_at_bytes (token : TokenReference) (middle : Vector UInt8 36) (state : UInt8)
    (rest : List UInt8) : tokenAt (token.bytes middle state ++ rest) = token := by
  have hlen : 109 ≤ (token.bytes middle state ++ rest).length := by
    rw [List.length_append, token_bytes_length]
    omega
  have hmint : vectorAt 32 (token.bytes middle state ++ rest) 0 = token.mint := by
    apply vectorAt_eq (by omega)
    simp (disch := simp) only [TokenReference.bytes, List.append_assoc, bytesAt_here]
  have howner : vectorAt 32 (token.bytes middle state ++ rest) 32 = token.owner := by
    apply vectorAt_eq (by omega)
    simp (disch := simp) only [TokenReference.bytes, List.append_assoc, bytesAt_here, bytesAt_skip,
      Vector.length_toList, Nat.reduceSub]
  simp only [tokenAt, hmint, howner]
  simp (disch := simp) only [TokenReference.bytes, List.append_assoc, bytesAt_here, bytesAt_skip,
    Vector.length_toList, Nat.reduceSub, read_u64]

/-- **Token accounts.** The parser gives a mint, an owner and an amount exactly
for the data that starts with them, 36 further bytes and a state that is 1 or 2,
and is long enough; for all other data it says `OutofRange`. -/
theorem parse_token_iff (data : List UInt8) (token : TokenReference) :
    (parseToken data = some (.ok token) ↔ ∃ middle state rest,
      data = token.bytes middle state ++ rest ∧ (state = 1 ∨ state = 2) ∧ 56 ≤ rest.length) ∧
    ((∀ t, parseToken data ≠ some (.ok t)) ↔ parseToken data = some (.error .outofRange)) := by
  constructor
  · constructor
    · intro hok
      have hlen : 165 ≤ data.length := by
        by_contra hshort
        rw [parse_token_short (Nat.not_le.mp hshort)] at hok
        simp at hok
      rw [parse_token_eq hlen] at hok
      by_cases hstate : data[108] = 1 ∨ data[108] = 2
      · rw [if_pos hstate, Option.some.injEq, Except.ok.injEq] at hok
        refine ⟨vectorAt 36 data 72, data[108], data.drop 109, ?_, hstate, ?_⟩
        · rw [← hok, token_bytes_at (by omega)]
        · rw [List.length_drop]
          omega
      · rw [if_neg hstate] at hok
        simp at hok
    · rintro ⟨middle, state, rest, rfl, hstate, hrest⟩
      have hlen : 165 ≤ (token.bytes middle state ++ rest).length := by
        rw [List.length_append, token_bytes_length]
        omega
      have hat : (token.bytes middle state ++ rest)[108] = state := by
        rw [List.getElem_append_left (by rw [token_bytes_length]; omega)]
        simp [TokenReference.bytes]
      rw [parse_token_eq hlen, hat, if_pos hstate, token_at_bytes]
  · by_cases hlen : 165 ≤ data.length
    · rw [parse_token_eq hlen]
      by_cases hstate : data[108] = 1 ∨ data[108] = 2
      · simp [hstate]
      · simp [hstate]
    · rw [parse_token_short (Nat.not_le.mp hlen)]
      simp

end Store
end Zerohop
