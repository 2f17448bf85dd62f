/-
# Forwarding one request

`QuicRequestHandler::on_request` of `quic.rs` as one call: it clears `l_tx`,
cuts the request into it, queues a batch for the retries and sends the batch to
each leader of the snapshot, counting the sends that succeed. `none` is a
panic. What it does to the rest of the world is listed as `Effect`s in program
order; the leader list in force with the outcome of each send, and the clock,
come with the request (`Arrival`).

A request comes from shared memory as it is, and the bounds of its slices are
checked nowhere, so the call returns for the well formed ones only
(`on_request_returns_iff`). A call is the run of the machine of `Pending` in
which nothing interrupts the handler (`run_on_request`).
-/
import Zerohop.Err
import Zerohop.Quic.Pending

namespace Zerohop
namespace Quic

open Cuts Machine

/-- `TransactionResponse`. -/
structure TransactionResponse where
  sentCount : UInt16
deriving DecidableEq

/-- The buffers that `QuicRequestHandler` keeps between calls. -/
structure QuicRequestHandler where
  lTx : List (List UInt8)
  response : TransactionResponse

/-- A request, the time, and the leaders in force with the outcome of the send
to each. -/
structure Arrival (Leader : Type) where
  request : TransactionRequest
  now : ℕ
  sends : List (Leader × Bool)

/-- What the server does to the world. -/
inductive Effect (Leader : Type) where
  | received (request : TransactionRequest)
  /-- `push_back` on `pending`. -/
  | queued (batch : PendingBatch)
  | attempted (leader : Leader) (txs : List (List UInt8)) (sent : Bool)
  | answered (r : Except TxFwdErrorCode TransactionResponse)

variable {Leader : Type}

namespace TransactionRequest

/-- The loop that cuts into `l_tx`, from index `i` on, `n` entries to go. -/
def pushFrom (request : TransactionRequest) :
    ℕ → ℕ → UInt16 → List (List UInt8) → Option (List (List UInt8))
  | _, 0, _, lTx => some lTx
  | i, n + 1, start, lTx => do
    let finish ← request.list.toList[i]?
    let tx ← slice request.data start.toNat finish.toNat
    pushFrom request (i + 1) n finish (lTx ++ [tx])

/-- The ends in use. -/
def ends (request : TransactionRequest) : List ℕ :=
  (request.list.toList.take request.count.toNat).map UInt16.toNat

/-- What lies between them. -/
def strings (request : TransactionRequest) : List (List UInt8) := pieces request.data 0 request.ends

/-- No more entries than the list has, their ends not decreasing and within the
data. -/
structure WellFormed (request : TransactionRequest) : Prop where
  count : request.count.toNat ≤ maxTxBundleSize
  sorted : request.ends.Pairwise (· ≤ ·)
  bounded : ∀ finish ∈ request.ends, finish ≤ maxTxSize * maxTxBundleSize

instance (request : TransactionRequest) : Decidable request.WellFormed :=
  decidable_of_iff (request.count.toNat ≤ maxTxBundleSize ∧ request.ends.Pairwise (· ≤ ·) ∧
      ∀ finish ∈ request.ends, finish ≤ maxTxSize * maxTxBundleSize)
    ⟨fun h => ⟨h.1, h.2.1, h.2.2⟩, fun h => ⟨h.count, h.sorted, h.bounded⟩⟩

end TransactionRequest

/-- `+= 1` on a `u16`, checked with `debug`. -/
def addOne (debug : Bool) (sentCount : UInt16) : Option UInt16 :=
  if debug && sentCount == 65535 then none else some (sentCount + 1)

/-- The loop over the leaders. -/
def sendAll (debug : Bool) (txs : List (List UInt8)) :
    List (Leader × Bool) → UInt16 → Option (UInt16 × List (Effect Leader))
  | [], sentCount => some (sentCount, [])
  | (leader, sent) :: sends, sentCount => do
    let sentCount ← if sent then addOne debug sentCount else some sentCount
    let (sentCount, effects) ← sendAll debug txs sends sentCount
    some (sentCount, .attempted leader txs sent :: effects)

namespace QuicRequestHandler

/-- `on_request`: the handler afterwards, the effects and the result. -/
def onRequest (debug : Bool) (handler : QuicRequestHandler) (arrival : Arrival Leader) :
    Option (QuicRequestHandler × List (Effect Leader) ×
      Except CatscopeZerohopError TransactionResponse) := do
  let n := arrival.request.count.toNat
  let handler := { handler with lTx := [] }
  let lTx ← arrival.request.pushFrom 0 n 0 handler.lTx
  let handler := { handler with lTx, response := ⟨0⟩ }
  let txs ← slice handler.lTx 0 n
  let (sentCount, effects) ← sendAll debug txs arrival.sends handler.response.sentCount
  let handler := { handler with response := ⟨sentCount⟩ }
  some (handler, .queued ⟨txs, arrival.now⟩ :: effects,
    if handler.response.sentCount = 0 then .error .outofRange else .ok handler.response)

end QuicRequestHandler

/-! ### Cutting -/

namespace TransactionRequest

theorem pushFrom_eq (request : TransactionRequest) : ∀ (n i : ℕ) (start : UInt16)
    (lTx : List (List UInt8)),
    request.pushFrom i n start lTx = (request.cutFrom i n start).map (lTx ++ ·)
  | 0, _, _, lTx => by simp [pushFrom, cutFrom]
  | n + 1, i, start, lTx => by
    simp only [pushFrom, cutFrom, Option.bind_eq_bind, Option.map_bind]
    congr 1
    funext finish
    show (slice request.data start.toNat finish.toNat).bind _ = Option.map _ (Option.bind _ _)
    rw [Option.map_bind]
    congr 1
    funext tx
    rw [pushFrom_eq request n, Function.comp_apply, Option.map_bind]
    cases request.cutFrom (i + 1) n finish <;> simp

/-- Within the list the loop cuts the data at its ends. -/
theorem cutFrom_eq_cutAt (request : TransactionRequest) : ∀ (n i : ℕ) (start : UInt16),
    i + n ≤ maxTxBundleSize → request.cutFrom i n start =
      cutAt request.data start.toNat (((request.list.toList.drop i).take n).map UInt16.toNat)
  | 0, _, _, _ => rfl
  | n + 1, i, start, h => by
    have hi : i < request.list.toList.length := by
      rw [Vector.length_toList]
      omega
    rw [List.drop_eq_getElem_cons hi, List.take_succ_cons, List.map_cons, cutAt, cutFrom,
      List.getElem?_eq_getElem hi]
    simp only [Option.bind_eq_bind, Option.bind_some, cutFrom_eq_cutAt request n (i + 1) _ (by omega),
      Option.pure_def]

/-- Past the list it panics. -/
theorem cutFrom_eq_none (request : TransactionRequest) : ∀ (n i : ℕ) (start : UInt16),
    i ≤ maxTxBundleSize → maxTxBundleSize < i + n → request.cutFrom i n start = none
  | 0, _, _, hi, h => absurd h (Nat.not_lt.mpr hi)
  | n + 1, i, start, hi, h => by
    have hlen : request.list.toList.length = maxTxBundleSize := Vector.length_toList
    by_cases hlt : i < maxTxBundleSize
    · simp only [cutFrom, Option.bind_eq_bind, cutFrom_eq_none request n (i + 1) _ hlt (by omega),
        Option.bind_none, Option.bind_fun_none]
    · rw [cutFrom, List.getElem?_eq_none (by omega)]
      rfl

/-- **What the reader cuts**, and from which requests. -/
theorem cut_eq_some_iff {request : TransactionRequest} {txs : List (List UInt8)} :
    request.cut = some txs ↔ request.WellFormed ∧ request.strings = txs := by
  unfold cut
  by_cases hc : request.count.toNat ≤ maxTxBundleSize
  · rw [request.cutFrom_eq_cutAt _ 0 0 (by omega), UInt16.toNat_zero, List.drop_zero]
    refine cutAt_eq_some_iff.trans (and_congr_left fun _ => ?_)
    rw [request.data_length, List.pairwise_cons]
    constructor
    · rintro ⟨⟨-, hsorted⟩, hbounded⟩
      exact ⟨hc, hsorted, hbounded⟩
    · intro h
      exact ⟨⟨fun _ _ => Nat.zero_le _, h.sorted⟩, h.bounded⟩
  · rw [request.cutFrom_eq_none _ 0 0 (Nat.zero_le _) (by omega)]
    apply iff_of_false nofun
    intro h
    exact hc h.1.count

theorem WellFormed.cut {request : TransactionRequest} (h : request.WellFormed) :
    request.cut = some request.strings := cut_eq_some_iff.mpr ⟨h, rfl⟩

theorem WellFormed.strings_length {request : TransactionRequest} (h : request.WellFormed) :
    request.strings.length = request.count.toNat := by
  have hlen : request.list.toList.length = maxTxBundleSize := Vector.length_toList
  have hc := h.count
  simp only [strings, pieces, ends, List.length_map, List.length_zip, List.length_cons,
    List.length_take, hlen]
  omega

end TransactionRequest

/-! ### Sending -/

/-- The number of sends that succeed. -/
def Arrival.successes (arrival : Arrival Leader) : ℕ := arrival.sends.countP (·.2)

theorem addOne_eq_some {debug : Bool} {sentCount c : UInt16} : addOne debug sentCount = some c ↔
    (debug = true → sentCount.toNat + 1 ≤ 65535) ∧ sentCount + 1 = c := by
  unfold addOne
  have hlt := sentCount.toNat_lt
  by_cases hd : debug = true
  · by_cases hs : sentCount = 65535
    · subst hs
      simp [hd]
    · have hne : sentCount.toNat ≠ 65535 := fun h => hs (UInt16.toNat_inj.mp h)
      have hle : sentCount.toNat + 1 ≤ 65535 := by omega
      simp [hd, hs, hle]
  · simp [hd]

theorem toNat_add_one_of_le {sentCount : UInt16} (h : sentCount.toNat + 1 ≤ 65535) :
    (sentCount + 1).toNat = sentCount.toNat + 1 := by
  rw [UInt16.toNat_add, UInt16.toNat_one]
  omega

/-- **The loop over the leaders** tries each once, in order, and adds the
successes up; with `debug` it panics where they do not fit. -/
theorem sendAll_eq_some {debug : Bool} {txs : List (List UInt8)} :
    ∀ {sends : List (Leader × Bool)} {sentCount c : UInt16} {effects : List (Effect Leader)},
      sendAll debug txs sends sentCount = some (c, effects) ↔
        (debug = true → sentCount.toNat + sends.countP (·.2) ≤ 65535) ∧
        sentCount + UInt16.ofNat (sends.countP (·.2)) = c ∧
        sends.map (fun send => .attempted send.1 txs send.2) = effects
  | [], sentCount, c, effects => by
    have := sentCount.toNat_lt
    have hle : sentCount.toNat ≤ 65535 := by omega
    simp [sendAll, hle]
  | (leader, false) :: sends, sentCount, c, effects => by
    simp only [sendAll, Bool.false_eq_true, if_false, Option.bind_eq_bind, Option.bind_some,
      Option.bind_eq_some_iff, Prod.exists, sendAll_eq_some, Option.some.injEq, Prod.mk.injEq,
      List.countP_cons, Nat.add_zero, List.map_cons]
    constructor
    · rintro ⟨c', effects', ⟨hd, hc, rfl⟩, rfl, rfl⟩
      exact ⟨hd, hc, rfl⟩
    · rintro ⟨hd, hc, rfl⟩
      exact ⟨c, _, ⟨hd, hc, rfl⟩, rfl, rfl⟩
  | (leader, true) :: sends, sentCount, c, effects => by
    have hadd : ∀ k : ℕ, sentCount + UInt16.ofNat (k + 1) = sentCount + 1 + UInt16.ofNat k := by
      intro k
      rw [UInt16.ofNat_add, UInt16.add_assoc, UInt16.add_comm 1]
      rfl
    simp only [sendAll, if_true, Option.bind_eq_bind, Option.bind_eq_some_iff, Prod.exists,
      addOne_eq_some, sendAll_eq_some, Option.some.injEq, Prod.mk.injEq, List.countP_cons,
      List.map_cons, hadd]
    constructor
    · rintro ⟨c₁, ⟨hd₁, rfl⟩, c', effects', ⟨hd, hc, rfl⟩, rfl, rfl⟩
      refine ⟨?_, hc, rfl⟩
      intro hdebug
      have := hd hdebug
      rw [toNat_add_one_of_le (hd₁ hdebug)] at this
      omega
    · rintro ⟨hd, hc, rfl⟩
      have hd₁ : debug = true → sentCount.toNat + 1 ≤ 65535 := by
        intro hdebug
        have := hd hdebug
        omega
      refine ⟨_, ⟨hd₁, rfl⟩, c, _, ⟨?_, hc, rfl⟩, rfl, rfl⟩
      intro hdebug
      rw [toNat_add_one_of_le (hd₁ hdebug)]
      have := hd hdebug
      omega

/-! ### The call -/

namespace Arrival

/-- The answer: the number of successes if there is one. -/
def result (arrival : Arrival Leader) : Except CatscopeZerohopError TransactionResponse :=
  if UInt16.ofNat arrival.successes = 0 then .error .outofRange
  else .ok ⟨UInt16.ofNat arrival.successes⟩

/-- The batch is queued, then tried on each leader. -/
def effects (arrival : Arrival Leader) : List (Effect Leader) :=
  .queued ⟨arrival.request.strings, arrival.now⟩ ::
    arrival.sends.map fun send => .attempted send.1 arrival.request.strings send.2

/-- Checked, the count of the successes does not overflow. -/
def Fits (debug : Bool) (arrival : Arrival Leader) : Prop := debug = true → arrival.successes ≤ 65535

end Arrival

namespace QuicRequestHandler

/-- **What `on_request` does**, and when it returns; what the buffers held
before makes no difference. -/
theorem onRequest_eq_some {debug : Bool} {handler : QuicRequestHandler} {arrival : Arrival Leader}
    {out} : handler.onRequest debug arrival = some out ↔
      (arrival.request.WellFormed ∧ arrival.Fits debug) ∧
      (⟨arrival.request.strings, ⟨UInt16.ofNat arrival.successes⟩⟩, arrival.effects, arrival.result) =
        out := by
  unfold onRequest
  simp only [TransactionRequest.pushFrom_eq, List.nil_append, Option.map_id']
  by_cases hwf : arrival.request.WellFormed
  · have hcut : arrival.request.cutFrom 0 arrival.request.count.toNat 0 =
        some arrival.request.strings := hwf.cut
    have hslice : slice arrival.request.strings 0 arrival.request.count.toNat =
        some arrival.request.strings := by
      rw [slice_eq_some (Nat.zero_le _) hwf.strings_length.ge, ← hwf.strings_length, List.take_length,
        List.drop_zero]
    simp only [hcut, hslice, Option.bind_eq_bind, Option.bind_some, Option.bind_eq_some_iff,
      Prod.exists, sendAll_eq_some, UInt16.toNat_zero, Nat.zero_add, UInt16.zero_add,
      Option.some.injEq, hwf, true_and]
    constructor
    · rintro ⟨c, effects, ⟨hd, rfl, rfl⟩, rfl⟩
      exact ⟨hd, rfl⟩
    · rintro ⟨hd, rfl⟩
      exact ⟨_, _, ⟨hd, rfl, rfl⟩, rfl⟩
  · have hcut : arrival.request.cutFrom 0 arrival.request.count.toNat 0 = none := by
      by_contra hne
      obtain ⟨txs, htxs⟩ := Option.ne_none_iff_exists'.mp hne
      exact hwf (TransactionRequest.cut_eq_some_iff.mp htxs).1
    rw [hcut]
    apply iff_of_false nofun
    intro h
    exact hwf h.1.1

/-- **When `on_request` returns**, `Ok` or `Err`: exactly for a well formed
request whose successes, where they are checked, fit the counter. -/
theorem on_request_returns_iff (debug : Bool) (handler : QuicRequestHandler)
    (arrival : Arrival Leader) : (handler.onRequest debug arrival).isSome ↔
      arrival.request.WellFormed ∧ (debug = true → arrival.sends.countP (·.2) ≤ 65535) := by
  rw [Option.isSome_iff_exists]
  constructor
  · rintro ⟨out, hout⟩
    exact (onRequest_eq_some.mp hout).1
  · intro h
    exact ⟨_, onRequest_eq_some.mpr ⟨h, rfl⟩⟩

/-- **A count of 21** takes the loop past the list, in every state of the
handler. -/
theorem count_past_list : ∃ request : TransactionRequest, request.count = 21 ∧
    ∀ (debug : Bool) (handler : QuicRequestHandler) (now : ℕ) (sends : List (ℕ × Bool)),
      handler.onRequest debug ⟨request, now, sends⟩ = none := by
  refine ⟨{ TransactionRequest.default with count := 21 }, rfl, ?_⟩
  intro debug handler now sends
  by_contra hne
  obtain ⟨out, hout⟩ := Option.ne_none_iff_exists'.mp hne
  have hcount := (onRequest_eq_some.mp hout).1.1.count
  exact absurd hcount (by decide : ¬ (21 : UInt8).toNat ≤ maxTxBundleSize)

end QuicRequestHandler

/-! ### The call among the steps of the machine -/

/-- The steps of a call that nothing interrupts: the call, the lock, the time,
the queue, the unlock, the snapshot, the sends, the return. -/
def schedule (request : TransactionRequest) (sends : List (Leader × Bool)) : List (Action Leader) :=
  .call request :: List.replicate 5 (.handler true) ++
    sends.map (fun send => .handler send.2) ++ [.handler true]

theorem run_sends {debug : Bool} {first : List Leader} {txs : List (List UInt8)} :
    ∀ (sends : List (Leader × Bool)) {s : State Leader} {sentCount : UInt16},
      s.handler = .sending txs (sends.map (·.1)) sentCount →
      (debug = true → sentCount.toNat + sends.countP (·.2) ≤ 65535) →
      (retryMachine debug first).run s (sends.map (fun send => .handler send.2) ++ [.handler true]) =
        some { s with handler := .idle }
  | [], s, sentCount, h, _ => by
    simp [run, retryMachine, State.step, State.handlerStep, State.send, h]
  | (leader, false) :: sends, s, sentCount, h, hd => by
    have hstep : (retryMachine debug first).step s (.handler false) =
        some { s with handler := .sending txs (sends.map (·.1)) sentCount } := by
      simp [retryMachine, State.step, State.handlerStep, State.send, h]
    rw [List.map_cons, List.cons_append, run_cons _ hstep]
    exact run_sends sends rfl hd
  | (leader, true) :: sends, s, sentCount, h, hd => by
    simp only [List.countP_cons, if_true] at hd
    have hone : debug = true → sentCount.toNat + 1 ≤ 65535 := by
      intro hdebug
      have := hd hdebug
      omega
    have hno : (debug && sentCount == 65535) = false := by
      rw [← Bool.not_eq_true, Bool.and_eq_true, beq_iff_eq]
      rintro ⟨hdebug, rfl⟩
      exact absurd (hone hdebug) (by decide)
    have hstep : (retryMachine debug first).step s (.handler true) =
        some { s with handler := .sending txs (sends.map (·.1)) (sentCount + 1) } := by
      simp [retryMachine, State.step, State.handlerStep, State.send, h, hno]
    rw [List.map_cons, List.cons_append, run_cons _ hstep]
    apply run_sends sends rfl
    intro hdebug
    rw [toNat_add_one_of_le (hone hdebug)]
    have := hd hdebug
    omega

/-- **A call that nothing interrupts** is the call `onRequest`: it queues one
batch, of the request's strings, and returns. -/
theorem run_on_request {debug : Bool} {first : List Leader} {s : State Leader}
    (hfree : s.handler.free) (hlock : s.lock = none) {request : TransactionRequest}
    {sends : List (Leader × Bool)} (hleaders : sends.map (·.1) = s.leaders)
    {handler : QuicRequestHandler} {out}
    (h : handler.onRequest debug ⟨request, s.clock, sends⟩ = some out) :
    (retryMachine debug first).run s (schedule request sends) = some { s with
      handler := .idle
      lock := none
      pending := s.pending ++ [⟨request.strings, s.clock⟩]
      accepted := s.accepted ++ [⟨request.strings, s.clock⟩] } := by
  obtain ⟨⟨hwf, hfits⟩, -⟩ := QuicRequestHandler.onRequest_eq_some.mp h
  have hcall : (retryMachine debug first).step s (.call request) =
      some { s with handler := .locking request.strings } := by
    simp only [retryMachine, State.step, hfree, if_true, hwf.cut]
  have hqueue : (retryMachine debug first).run { s with handler := .locking request.strings }
      (List.replicate 5 (.handler true)) = some { s with
        handler := .sending request.strings s.leaders 0
        lock := none
        pending := s.pending ++ [⟨request.strings, s.clock⟩]
        accepted := s.accepted ++ [⟨request.strings, s.clock⟩] } := by
    simp [List.replicate, run, retryMachine, State.step, State.handlerStep, hlock]
  have hcount : debug = true → (0 : UInt16).toNat + sends.countP (·.2) ≤ 65535 := by
    intro hdebug
    rw [UInt16.toNat_zero, Nat.zero_add]
    exact hfits hdebug
  unfold schedule
  rw [List.append_assoc, List.cons_append, run_cons _ hcall, run_append, hqueue, Option.bind_some]
  exact run_sends sends (by rw [hleaders]) hcount

end Quic
end Zerohop
