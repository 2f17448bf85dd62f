/-
# The server on whatever arrives

`server` with a `QuicRequestHandler` on arbitrary polls: requests malformed or
not, a transport that fails or takes no response. What the handler's buffers
hold makes no difference to any of it (`serve_same`). The process dies of one
thing only, a request on which `on_request` panics; and by then every request
before that one has been answered (`server_dies_iff`).

Key definitions: `Arrival.Servable`, `Arrival.exchange`.
-/
import Zerohop.Quic.Serve

namespace Zerohop
namespace Quic

variable {Leader : Type}

namespace Arrival

/-- `on_request` returns for it. -/
def Servable (debug : Bool) (arrival : Arrival Leader) : Prop :=
  arrival.request.WellFormed ∧ arrival.Fits debug

/-- The result as it is sent to the client. -/
def response (arrival : Arrival Leader) : Except TxFwdErrorCode TransactionResponse :=
  match arrival.result with
  | .ok x => .ok x
  | .error e => .error e.code

/-- A request that is answered: received, its batch queued and tried on each
leader, answered. -/
def exchange (arrival : Arrival Leader) : List (Effect Leader) :=
  .received arrival.request :: arrival.effects ++ [.answered arrival.response]

end Arrival

variable {debug : Bool} {handler : QuicRequestHandler} {arrival : Arrival Leader}

theorem onRequest_same (debug : Bool) (handler handler' : QuicRequestHandler) (arrival : Arrival Leader) :
    handler.onRequest debug arrival = handler'.onRequest debug arrival := by
  apply Option.ext
  intro out
  rw [QuicRequestHandler.onRequest_eq_some, QuicRequestHandler.onRequest_eq_some]

theorem onRequest_of_not_servable (h : ¬ arrival.Servable debug) :
    handler.onRequest debug arrival = none := by
  apply Option.eq_none_iff_forall_ne_some.mpr
  intro out hout
  exact h (QuicRequestHandler.onRequest_eq_some.mp hout).1

theorem serve_same (debug : Bool) (handler handler' : QuicRequestHandler) :
    ∀ polls : List (Poll Leader), serve debug handler polls = serve debug handler' polls
  | [] => rfl
  | .request arrival accepted :: polls => by
    rw [serve, serve, onRequest_same debug handler handler']
  | .empty shutdown :: polls => by
    rw [serve, serve, serve_same debug handler handler' polls]
  | .failed :: _ => rfl

/-! ### One turn -/

section

variable (polls : List (Poll Leader))

theorem serve_of_not_servable (h : ¬ arrival.Servable debug) (accepted : Bool) :
    serve debug handler (.request arrival accepted :: polls) = none := by
  rw [serve, onRequest_of_not_servable h]
  rfl

theorem serve_of_servable (h : arrival.Servable debug) :
    serve debug handler (.request arrival true :: polls) =
      (serve debug handler polls).map fun out => (arrival.exchange ++ out.1, out.2) := by
  have hcall : handler.onRequest debug arrival = some _ :=
    QuicRequestHandler.onRequest_eq_some.mpr ⟨h, rfl⟩
  simp only [serve, hcall, Option.bind_eq_bind, Option.bind_some, if_true, serve_same debug _ handler polls]
  cases serve debug handler polls with
  | none => rfl
  | some out =>
    rw [Option.bind_some, Option.map_some, Arrival.exchange, List.append_assoc]
    rfl

theorem serve_of_not_accepted (h : arrival.Servable debug) :
    serve debug handler (.request arrival false :: polls) =
      some (.received arrival.request :: arrival.effects, .failed) := by
  have hcall : handler.onRequest debug arrival = some _ :=
    QuicRequestHandler.onRequest_eq_some.mpr ⟨h, rfl⟩
  simp only [serve, hcall, Option.bind_eq_bind, Option.bind_some, Bool.false_eq_true, if_false]

end

/-! ### The whole run -/

/-- A request after `before` takes the process down: it is received after all
requests before it have been answered, and `on_request` panics on it. -/
def DiesAt (debug : Bool) (handler : QuicRequestHandler) (before : List (Poll Leader))
    (arrival : Arrival Leader) : Prop :=
  serve debug handler before = some ((received before).flatMap Arrival.exchange, .polling) ∧
    ¬ arrival.Servable debug

theorem exists_diesAt_cons {poll : Poll Leader} {polls : List (Poll Leader)} :
    (∃ before arrival accepted after, poll :: polls = before ++ .request arrival accepted :: after ∧
      DiesAt debug handler before arrival) ↔
    (∃ arrival accepted, poll = .request arrival accepted ∧ ¬ arrival.Servable debug) ∨
      ∃ before arrival accepted after, polls = before ++ .request arrival accepted :: after ∧
        DiesAt debug handler (poll :: before) arrival := by
  constructor
  · rintro ⟨before, arrival, accepted, after, heq, hdies⟩
    cases before with
    | nil => exact Or.inl ⟨arrival, accepted, (List.cons.inj heq).1, hdies.2⟩
    | cons first before =>
      obtain ⟨rfl, rfl⟩ := List.cons.inj heq
      exact Or.inr ⟨before, arrival, accepted, after, rfl, hdies⟩
  · rintro (⟨arrival, accepted, rfl, hbad⟩ | ⟨before, arrival, accepted, after, rfl, hdies⟩)
    · exact ⟨[], arrival, accepted, polls, rfl, rfl, hbad⟩
    · exact ⟨poll :: before, arrival, accepted, after, rfl, hdies⟩

theorem diesAt_served {arrival' : Arrival Leader} (h : arrival.Servable debug) (before : List (Poll Leader)) :
    DiesAt debug handler (.request arrival true :: before) arrival' ↔
      DiesAt debug handler before arrival' := by
  apply and_congr_left
  intro _
  rw [serve_of_servable before h, received, List.flatMap_cons, Option.map_eq_some_iff]
  constructor
  · rintro ⟨⟨effects, e⟩, hout, heq⟩
    obtain ⟨heffects, rfl⟩ := Prod.mk.inj heq
    have hsame : effects = (received before).flatMap Arrival.exchange := List.append_cancel_left heffects
    rw [hout, hsame]
  · intro hout
    exact ⟨_, hout, rfl⟩

/-- **The one way to die**, by induction on the polls. -/
theorem serve_eq_none_iff (debug : Bool) (handler : QuicRequestHandler) : ∀ polls : List (Poll Leader),
    serve debug handler polls = none ↔ ∃ before arrival accepted after,
      polls = before ++ .request arrival accepted :: after ∧ DiesAt debug handler before arrival := by
  intro polls
  induction polls with
  | nil => simp [serve]
  | cons poll polls ih =>
    rw [exists_diesAt_cons]
    cases poll with
    | request arrival accepted =>
      by_cases h : arrival.Servable debug
      · have hhere : ¬ ∃ a acc, Poll.request arrival accepted = .request a acc ∧ ¬ a.Servable debug := by
          rintro ⟨a, acc, heq, hbad⟩
          cases heq
          exact hbad h
        rw [or_iff_right hhere]
        cases accepted with
        | true =>
          rw [serve_of_servable polls h, Option.map_eq_none_iff, ih]
          simp only [diesAt_served h]
        | false =>
          rw [serve_of_not_accepted polls h]
          apply iff_of_false (Option.some_ne_none _)
          rintro ⟨before, a, acc, after, -, hrun, -⟩
          rw [serve_of_not_accepted before h] at hrun
          cases (Prod.mk.inj (Option.some.inj hrun)).2
      · rw [serve_of_not_servable polls h]
        exact iff_of_true rfl (Or.inl ⟨arrival, accepted, rfl, h⟩)
    | empty shutdown =>
      rw [or_iff_right (by rintro ⟨a, acc, heq, -⟩; cases heq)]
      cases shutdown with
      | false => exact ih
      | true =>
        apply iff_of_false (Option.some_ne_none _)
        rintro ⟨before, a, acc, after, -, hrun, -⟩
        cases hrun
    | failed =>
      rw [or_iff_right (by rintro ⟨a, acc, heq, -⟩; cases heq)]
      apply iff_of_false (Option.some_ne_none _)
      rintro ⟨before, a, acc, after, -, hrun, -⟩
      cases hrun

/-- **Whatever arrives**, the buffers make no difference, and the process dies
exactly of a request on which `on_request` panics, when every request before it
has been received and answered. -/
theorem server_dies_iff (debug : Bool) (handler : QuicRequestHandler) (polls : List (Poll Leader)) :
    (∀ handler' shutdown, server debug handler shutdown polls = server debug handler' shutdown polls) ∧
    (server debug handler false polls = none ↔ ∃ before arrival accepted after,
      polls = before ++ .request arrival accepted :: after ∧
      server debug handler false before = some ((received before).flatMap Arrival.exchange, .polling) ∧
      ¬ arrival.Servable debug) := by
  constructor
  · intro handler' shutdown
    rw [server, server, serve_same debug handler handler' polls]
  · exact serve_eq_none_iff debug handler polls

end Quic
end Zerohop
