/-
# The request loop

`server` of `txfwd.rs` with a `QuicRequestHandler`: it receives a request,
answers it, and goes on until nothing is waiting; then it sleeps and looks at
the shutdown flag. The transport is the list of its answers (`Poll`).

The handler's buffers pass from request to request, of whatever clients; each
request is served as if it were alone (`serve_spec`), in the order received.
-/
import Zerohop.Quic.Forward

namespace Zerohop
namespace Quic

variable {Leader : Type}

/-- What the next `receive` gives. -/
inductive Poll (Leader : Type) where
  /-- A request, and whether its response will be accepted. -/
  | request (arrival : Arrival Leader) (accepted : Bool)
  /-- None is waiting; the shutdown flag after the sleep. -/
  | empty (shutdown : Bool)
  | failed

/-- Where the loop is after the polls so far. -/
inductive Ending where
  | polling
  | returned
  | failed
deriving DecidableEq

/-- The loops of `server`: the effects and where it is. -/
def serve (debug : Bool) :
    QuicRequestHandler → List (Poll Leader) → Option (List (Effect Leader) × Ending)
  | _, [] => some ([], .polling)
  | handler, .request arrival accepted :: polls => do
    let (handler, effects, r) ← handler.onRequest debug arrival
    let r : Except TxFwdErrorCode TransactionResponse := match r with
      | .ok x => .ok x
      | .error e => .error e.code
    let effects := .received arrival.request :: effects
    if accepted then
      let (rest, ending) ← serve debug handler polls
      some (effects ++ .answered r :: rest, ending)
    else some (effects, .failed)
  | handler, .empty shutdown :: polls =>
    if shutdown then some ([], .returned) else serve debug handler polls
  | _, .failed :: _ => some ([], .failed)

/-- `server`, from its first look at the flag. -/
def server (debug : Bool) (handler : QuicRequestHandler) (shutdown : Bool)
    (polls : List (Poll Leader)) : Option (List (Effect Leader) × Ending) :=
  if shutdown then some ([], .returned) else serve debug handler polls

/-- The requests received: those before the flag is seen or the transport
fails. -/
def received : List (Poll Leader) → List (Arrival Leader)
  | [] => []
  | .request arrival true :: polls => arrival :: received polls
  | .request arrival false :: _ => [arrival]
  | .empty true :: _ => []
  | .empty false :: polls => received polls
  | .failed :: _ => []

/-- Where polls that do not fail leave the loop. -/
def ending (polls : List (Poll Leader)) : Ending :=
  if polls.any (fun | .empty shutdown => shutdown | _ => false) then .returned else .polling

/-- The transport delivers requests and accepts responses. -/
def Delivers (polls : List (Poll Leader)) : Prop :=
  ∀ poll ∈ polls, poll ≠ .failed ∧ ∀ arrival, poll ≠ .request arrival false

namespace Arrival

/-- The number of successful sends if there is one, else the code of
`OutofRange`. -/
def answer (arrival : Arrival Leader) : Except TxFwdErrorCode TransactionResponse :=
  if 0 < arrival.successes then .ok ⟨UInt16.ofNat arrival.successes⟩
  else .error CatscopeZerohopError.outofRange.code

/-- One request, served alone: received, its batch queued and tried on each
leader in order, answered. -/
def served (arrival : Arrival Leader) : List (Effect Leader) :=
  [.received arrival.request, .queued ⟨arrival.request.strings, arrival.now⟩] ++
    arrival.sends.map (fun send => .attempted send.1 arrival.request.strings send.2) ++
    [.answered arrival.answer]

/-- A well formed request, and no more leaders than a `u16` counts. -/
def Proper (arrival : Arrival Leader) : Prop :=
  arrival.request.WellFormed ∧ arrival.sends.length < 65536

theorem successes_lt {arrival : Arrival Leader} (h : arrival.sends.length < 65536) :
    arrival.successes < 65536 := Nat.lt_of_le_of_lt List.countP_le_length h

theorem Proper.fits {arrival : Arrival Leader} (h : arrival.Proper) (debug : Bool) :
    arrival.Fits debug := fun _ => Nat.le_of_lt_succ (successes_lt h.2)

/-- No count wraps to zero. -/
theorem result_eq {arrival : Arrival Leader} (h : arrival.sends.length < 65536) :
    arrival.result = if 0 < arrival.successes then .ok ⟨UInt16.ofNat arrival.successes⟩
      else .error .outofRange := by
  have hlt := successes_lt h
  unfold result
  by_cases hpos : 0 < arrival.successes
  · have hne : UInt16.ofNat arrival.successes ≠ 0 := by
      intro h0
      have hnat := congrArg UInt16.toNat h0
      rw [UInt16.toNat_ofNat_of_lt' hlt, UInt16.toNat_zero] at hnat
      omega
    rw [if_neg hne, if_pos hpos]
  · have h0 : arrival.successes = 0 := by omega
    rw [if_neg hpos, h0]
    rfl

theorem answer_ok {arrival : Arrival Leader} (h : arrival.sends.length < 65536)
    (hpos : 0 < arrival.successes) :
    ∃ response, arrival.answer = .ok response ∧ response.sentCount.toNat = arrival.successes :=
  ⟨_, if_pos hpos, UInt16.toNat_ofNat_of_lt' (successes_lt h)⟩

end Arrival

theorem serve_request (debug : Bool) (handler : QuicRequestHandler) {arrival : Arrival Leader}
    (h : arrival.Proper) {polls : List (Poll Leader)} {rest : List (Effect Leader)} {e : Ending}
    (hrest : ∀ handler, serve debug handler polls = some (rest, e)) :
    serve debug handler (.request arrival true :: polls) = some (arrival.served ++ rest, e) := by
  have hcall : handler.onRequest debug arrival = some _ :=
    QuicRequestHandler.onRequest_eq_some.mpr ⟨⟨h.1, h.fits debug⟩, rfl⟩
  simp only [serve, hcall, Option.bind_eq_bind, Option.bind_some, if_true, hrest,
    Arrival.result_eq h.2, Arrival.effects, Arrival.served, Arrival.answer]
  split_ifs <;> simp

/-- **Every request received is served as if it were alone**, in order, each
before the next is received, whatever the buffers held; and the answer counts
the successes. -/
theorem serve_spec (debug : Bool) : ∀ (handler : QuicRequestHandler) (polls : List (Poll Leader)),
    Delivers polls → (∀ arrival ∈ received polls, arrival.Proper) →
      serve debug handler polls = some ((received polls).flatMap Arrival.served, ending polls) := by
  intro handler polls
  induction polls generalizing handler with
  | nil => exact fun _ _ => rfl
  | cons poll polls ih =>
    intro hdel hproper
    have hdel' : Delivers polls := fun p hp => hdel p (List.mem_cons_of_mem _ hp)
    match poll with
    | .request arrival true =>
      have hserve := serve_request debug handler (hproper arrival (List.mem_cons_self ..))
        fun handler' => ih handler' hdel' fun a ha => hproper a (List.mem_cons_of_mem _ ha)
      rw [hserve]
      rfl
    | .request arrival false => exact absurd rfl ((hdel _ (List.mem_cons_self ..)).2 arrival)
    | .empty true => rfl
    | .empty false => exact ih handler hdel' hproper
    | .failed => exact absurd rfl (hdel _ (List.mem_cons_self ..)).1

/-- **The server answers every request** with what became of its own batch: a
running server never panics, and serves the requests as `serve_spec` says. -/
theorem server_spec (debug : Bool) (handler : QuicRequestHandler) (polls : List (Poll Leader))
    (hdel : Delivers polls) (hproper : ∀ arrival ∈ received polls, arrival.Proper) :
    server debug handler false polls =
        some ((received polls).flatMap Arrival.served, ending polls) ∧
      ∀ arrival ∈ received polls,
        (0 < arrival.successes → ∃ response, arrival.answer = .ok response ∧
          response.sentCount.toNat = arrival.successes) ∧
        (arrival.successes = 0 → arrival.answer = .error CatscopeZerohopError.outofRange.code) := by
  refine ⟨serve_spec debug handler polls hdel hproper, ?_⟩
  intro arrival ha
  refine ⟨Arrival.answer_ok (hproper arrival ha).2, ?_⟩
  intro h0
  exact if_neg (by omega)

/-- A request for one string of two bytes, sent twice: the first send fails,
the second does not. -/
theorem server_two_requests : ∃ request : TransactionRequest, request.count = 1 ∧
    server true ⟨[[9]], ⟨9⟩⟩ false
      [.request ⟨request, 3, [('a', false)]⟩ true, .empty false,
        .request ⟨request, 5, [('a', true)]⟩ true] =
      some ([.received request, .queued ⟨[[0, 0]], 3⟩, .attempted 'a' [[0, 0]] false,
        .answered (.error 5), .received request, .queued ⟨[[0, 0]], 5⟩,
        .attempted 'a' [[0, 0]] true, .answered (.ok ⟨1⟩)], .polling) := by
  let request : TransactionRequest :=
    { TransactionRequest.default with count := 1, list := TransactionRequest.default.list.set 0 2 }
  have hwf : request.WellFormed := by decide
  refine ⟨request, rfl, ((server_spec true ⟨[[9]], ⟨9⟩⟩ _ ?_ ?_).1.trans rfl)⟩
  · intro poll hpoll
    rcases List.mem_cons.mp hpoll with rfl | hpoll
    · exact ⟨by simp, by simp⟩
    · rcases List.mem_cons.mp hpoll with rfl | hpoll
      · exact ⟨by simp, by simp⟩
      · obtain rfl := List.mem_singleton.mp hpoll
        exact ⟨by simp, by simp⟩
  · intro arrival ha
    rcases List.mem_cons.mp ha with rfl | ha
    · exact ⟨hwf, by decide⟩
    · obtain rfl := List.mem_singleton.mp ha
      exact ⟨hwf, by decide⟩

end Quic
end Zerohop
