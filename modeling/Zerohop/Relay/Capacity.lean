/-
# The capacity stream

`CapacityImpl::on_status` of `relay/server.rs`. A source sends usage updates on
one bounded channel; a forwarding task turns each into idle capacity and sends
it on a second one, whose receiver is the client's stream; a supervising task
joins the first and holds the other sender. Each task runs from one await to
the next in a step, and the tasks, the source and the client step in any order.

When the source disconnects, the forwarding task ends in an error. The
supervising task calls `sx.send(Err(..))` on both of its error paths and drops
the future it gets, so nothing is sent: the stream closes after the last
update as if there had been no error (`stream_ends_without_error`).

Key definitions: `idle`, `step`, `capacity`, `EndsWithError`.
Key theorem: `stream_ends_without_error`.
-/
import Zerohop.Err
import Zerohop.Lib.Channel
import Zerohop.Lib.Machine

namespace Zerohop
namespace Relay

open Machine

/-! ### Usage and capacity -/

/-- `UsageUnit`. -/
abbrev UsageUnit := Float32

/-- `Usage`. -/
inductive Usage where
  | utilizationRatio (usage : UsageUnit)

/-- `CapacityStatus`. -/
structure CapacityStatus where
  utilizationRatio : UsageUnit

/-- `tonic::Status`, the code that is used. -/
inductive Status where
  | internal (message : String)

/-- The inverse of the usage. -/
def idle (usage : UsageUnit) : UsageUnit :=
  if usage < 0.0 then 1.0 else if 1.0 < usage then 0.0 else 1.0 - usage

/-- What the client gets for an update. -/
def image : Usage → CapacityStatus
  | .utilizationRatio usage => ⟨idle usage⟩

/-- What the client's stream yields. -/
abbrev Item := Except Status CapacityStatus

/-- The items for a list of updates. -/
def images (updates : List Usage) : List Item := updates.map fun u => .ok (image u)

/-- The item that reports an error. -/
def failure : Item := .error (.internal "internal failure")

/-! ### The tasks -/

/-- The forwarding task. -/
inductive Forwarder where
  /-- At `usage_rx.recv_async().await`. -/
  | receiving
  /-- At `sx2.send(Ok(cs)).await`. -/
  | sending (cs : CapacityStatus)
  /-- Its senders and receivers are dropped. -/
  | returned (result : Except CatscopeZerohopError Unit)

/-- `JoinError`. -/
inductive JoinError where
  | cancelled
  | panicked

/-- The future of a `send`, which does nothing until it is polled. -/
structure SendFuture where
  item : Item

/-- The supervising task. -/
inductive Supervisor where
  /-- At `jh.await`. -/
  | joining
  /-- With a future that it has not polled. -/
  | holding (future : SendFuture)
  /-- Its sender is dropped. -/
  | ended

/-- What the supervising task does with what it joined. -/
def joined : Except JoinError (Except CatscopeZerohopError Unit) → Supervisor
  | .error _ => .holding ⟨failure⟩
  | .ok (.ok ()) => .ended
  | .ok (.error _) => .holding ⟨failure⟩

inductive Client where
  | reading
  | closed
  | dropped
deriving DecidableEq

/-- The updates the source has still to send and whether it is connected, the
two channels, the tasks, and the client with what its stream has yielded. -/
structure State where
  updates : List Usage
  connected : Bool
  usageRx : Channel 64 Usage
  forwarder : Forwarder
  supervisor : Supervisor
  rx : Channel 64 Item
  client : Client
  received : List Item

inductive Action where
  | sourceSend
  | disconnect
  | forward
  | supervise
  | poll
  | dropStream

namespace State

/-- What `on_status` sets up, for a source with these updates. -/
def onStatus (updates : List Usage) : State :=
  ⟨updates, true, .empty, .receiving, .joining, .empty, .reading, []⟩

/-- The source sends its next update. -/
def sourceSend (s : State) : Option State :=
  match s.updates with
  | [] => none
  | u :: updates =>
    match s.forwarder with
    -- the receiver is dropped and the send fails
    | .returned _ => some { s with updates }
    | _ => (s.usageRx.push u).map fun usageRx => { s with updates, usageRx }

/-- The forwarding task runs to its next await. -/
def forward (s : State) : Option State :=
  match s.forwarder with
  | .receiving =>
    match s.usageRx.pop with
    | some (u, usageRx) => some { s with usageRx, forwarder := .sending (image u) }
    | none => if s.connected then none else some { s with forwarder := .returned (.error .outofRange) }
  | .sending cs =>
    if s.client = .dropped then
      some { s with forwarder := .returned (.error (.unknown "channel closed")) }
    else (s.rx.push (.ok cs)).map fun rx => { s with rx, forwarder := .receiving }
  | .returned _ => none

/-- The supervising task runs to its next await, or to its end. -/
def supervise (s : State) : Option State :=
  match s.supervisor with
  | .joining =>
    match s.forwarder with
    | .returned result => some { s with supervisor := joined (.ok result) }
    | _ => none
  -- the future goes out of scope, and then the sender
  | .holding _ => some { s with supervisor := .ended }
  | .ended => none

/-- Both senders are dropped. -/
def sendersGone (s : State) : Bool :=
  match s.forwarder, s.supervisor with
  | .returned _, .ended => true
  | _, _ => false

/-- The client polls its stream. -/
def poll (s : State) : Option State :=
  if s.client = .reading then
    match s.rx.pop with
    | some (x, rx) => some { s with rx, received := s.received ++ [x] }
    | none => if s.sendersGone then some { s with client := .closed } else none
  else none

end State

/-- One step. A client that `keeps` reading does not drop its stream. -/
def step (keeps : Bool) (s : State) : Action → Option State
  | .sourceSend => s.sourceSend
  | .disconnect =>
    if s.connected = true ∧ s.updates = [] then some { s with connected := false } else none
  | .forward => s.forward
  | .supervise => s.supervise
  | .poll => s.poll
  | .dropStream =>
    if keeps = false ∧ s.client = .reading then some { s with client := .dropped } else none

def capacity (keeps : Bool) (updates : List Usage) : Machine State Action :=
  ⟨State.onStatus updates, step keeps⟩

/-- No party can step. -/
def Final (s : State) : Prop := ∀ a, step true s a = none

/-- Wherever a run for a client that keeps reading ends, its stream has yielded the image of each
update and then one error, and is closed. -/
def EndsWithError (updates : List Usage) : Prop :=
  ∀ s, (capacity true updates).Reachable s → Final s →
    s.client = .closed ∧ ∃ message, s.received = images updates ++ [.error (.internal message)]

/-! ### What a step can do -/

def Forwarder.Returned (f : Forwarder) : Prop := ∃ result, f = .returned result

theorem Forwarder.receiving_not_returned {f : Forwarder} (h : f = .receiving) : ¬ f.Returned := by
  rintro ⟨result, hr⟩
  rw [h] at hr
  cases hr

theorem Forwarder.sending_not_returned {f : Forwarder} {cs : CapacityStatus} (h : f = .sending cs) :
    ¬ f.Returned := by
  rintro ⟨result, hr⟩
  rw [h] at hr
  cases hr

theorem State.sendersGone_iff {s : State} :
    s.sendersGone = true ↔ s.forwarder.Returned ∧ s.supervisor = .ended := by
  unfold State.sendersGone Forwarder.Returned
  cases s.forwarder <;> cases s.supervisor <;> simp

/-- The moves with a client that keeps reading, but for a send that fails. -/
inductive Move (s : State) : State → Prop
  | sent {u : Usage} {updates : List Usage} {usageRx : Channel 64 Usage} : s.updates = u :: updates →
      ¬ s.forwarder.Returned → usageRx.items = s.usageRx.items ++ [u] →
      Move s { s with updates, usageRx }
  | lost {u : Usage} {updates : List Usage} : s.updates = u :: updates → s.forwarder.Returned →
      Move s { s with updates }
  | disconnect : s.connected = true → s.updates = [] → Move s { s with connected := false }
  | take {u : Usage} {usageRx : Channel 64 Usage} : s.forwarder = .receiving →
      s.usageRx.items = u :: usageRx.items → Move s { s with usageRx, forwarder := .sending (image u) }
  | fail : s.forwarder = .receiving → s.usageRx.items = [] → s.connected = false →
      Move s { s with forwarder := .returned (.error .outofRange) }
  | refused {cs : CapacityStatus} : s.forwarder = .sending cs → s.client = .dropped →
      Move s { s with forwarder := .returned (.error (.unknown "channel closed")) }
  | forward {cs : CapacityStatus} {rx : Channel 64 Item} : s.forwarder = .sending cs →
      rx.items = s.rx.items ++ [.ok cs] → Move s { s with rx, forwarder := .receiving }
  | join {result : Except CatscopeZerohopError Unit} : s.supervisor = .joining →
      s.forwarder = .returned result → Move s { s with supervisor := joined (.ok result) }
  | finish {future : SendFuture} : s.supervisor = .holding future →
      Move s { s with supervisor := .ended }
  | yield {x : Item} {rx : Channel 64 Item} : s.client = .reading → s.rx.items = x :: rx.items →
      Move s { s with rx, received := s.received ++ [x] }
  | close : s.client = .reading → s.rx.items = [] → s.forwarder.Returned → s.supervisor = .ended →
      Move s { s with client := .closed }

theorem move_of_sourceSend {s t : State} (h : s.sourceSend = some t) : Move s t := by
  unfold State.sourceSend at h
  split at h
  · cases h
  · rename_i u updates hu
    split at h
    · rename_i result hf
      obtain rfl := Option.some.inj h
      exact .lost hu ⟨result, hf⟩
    · rename_i hf
      obtain ⟨usageRx, hpush, rfl⟩ := Option.map_eq_some_iff.mp h
      exact .sent hu (fun ⟨result, hr⟩ => hf result hr) (Channel.items_of_push hpush)

theorem move_of_forward {s t : State} (h : s.forward = some t) : Move s t := by
  unfold State.forward at h
  split at h
  · rename_i hf
    split at h
    · rename_i u usageRx hpop
      obtain rfl := Option.some.inj h
      exact .take hf (Channel.items_of_pop hpop)
    · rename_i hpop
      split_ifs at h with hconn
      obtain rfl := Option.some.inj h
      exact .fail hf (Channel.pop_eq_none.mp hpop) (by simpa using hconn)
  · rename_i cs hf
    split_ifs at h with hclient
    · obtain rfl := Option.some.inj h
      exact .refused hf hclient
    · obtain ⟨rx, hpush, rfl⟩ := Option.map_eq_some_iff.mp h
      exact .forward hf (Channel.items_of_push hpush)
  · cases h

theorem move_of_supervise {s t : State} (h : s.supervise = some t) : Move s t := by
  unfold State.supervise at h
  split at h
  · rename_i hsup
    split at h
    · rename_i result hf
      obtain rfl := Option.some.inj h
      exact .join hsup hf
    · cases h
  · rename_i future hsup
    obtain rfl := Option.some.inj h
    exact .finish hsup
  · cases h

theorem move_of_poll {s t : State} (h : s.poll = some t) : Move s t := by
  unfold State.poll at h
  have hclient : s.client = .reading := by
    by_contra hne
    rw [if_neg hne] at h
    cases h
  rw [if_pos hclient] at h
  split at h
  · rename_i x rx hpop
    obtain rfl := Option.some.inj h
    exact .yield hclient (Channel.items_of_pop hpop)
  · rename_i hpop
    split_ifs at h with hgone
    obtain rfl := Option.some.inj h
    obtain ⟨hf, hsup⟩ := State.sendersGone_iff.mp hgone
    exact .close hclient (Channel.pop_eq_none.mp hpop) hf hsup

theorem move_of_step {s t : State} {a : Action} (h : step true s a = some t) : Move s t := by
  cases a with
  | sourceSend => exact move_of_sourceSend h
  | disconnect =>
    simp only [step] at h
    split_ifs at h with hd
    obtain rfl := Option.some.inj h
    exact .disconnect hd.1 hd.2
  | forward => exact move_of_forward h
  | supervise => exact move_of_supervise h
  | poll => exact move_of_poll h
  | dropStream => cases h

/-! ### The invariant -/

/-- The item that the forwarding task has in hand. -/
def Forwarder.inHand : Forwarder → List Item
  | .sending cs => [.ok cs]
  | _ => []

/-- What the steps keep for a client that keeps reading: every update is
somewhere on its way or received, and each party has ended only after those
before it. -/
structure Inv (updates : List Usage) (s : State) : Prop where
  reading : s.client ≠ .dropped
  account : s.received ++ s.rx.items ++ s.forwarder.inHand ++ images s.usageRx.items ++
    images s.updates = images updates
  disconnected : s.connected = false → s.updates = []
  returned : s.forwarder.Returned → s.connected = false ∧ s.usageRx.items = []
  supervised : s.supervisor ≠ .joining → s.forwarder.Returned
  closed : s.client = .closed → s.rx.items = [] ∧ s.forwarder.Returned

theorem inv_onStatus (updates : List Usage) : Inv updates (State.onStatus updates) where
  reading := nofun
  account := rfl
  disconnected := nofun
  returned := nofun
  supervised h := absurd rfl h
  closed := nofun

theorem images_append (us vs : List Usage) : images (us ++ vs) = images us ++ images vs :=
  List.map_append

theorem images_cons (u : Usage) (us : List Usage) : images (u :: us) = .ok (image u) :: images us := rfl

/-- **One move** keeps the invariant. -/
theorem Inv.move {updates : List Usage} {s t : State} (h : Inv updates s) (hm : Move s t) :
    Inv updates t := by
  have haccount := h.account
  cases hm with
  | @sent u us usageRx hu hnot hitems =>
    refine ⟨h.reading, ?_, fun hc => ?_, fun hf => absurd hf hnot, h.supervised, h.closed⟩
    · show s.received ++ s.rx.items ++ s.forwarder.inHand ++ images usageRx.items ++ images us = _
      rw [hitems, images_append, ← haccount, hu, images_cons]
      simp [images]
    · have hnil := h.disconnected hc
      rw [hu] at hnil
      cases hnil
  | lost hu hf =>
    -- the forwarding task has not returned before the source is through
    have hnil := h.disconnected (h.returned hf).1
    rw [hu] at hnil
    cases hnil
  | disconnect hc hu =>
    exact ⟨h.reading, haccount, fun _ => hu, fun hf => ⟨rfl, (h.returned hf).2⟩, h.supervised, h.closed⟩
  | @take u usageRx hf hitems =>
    have hnot := Forwarder.receiving_not_returned hf
    refine ⟨h.reading, ?_, h.disconnected, nofun, fun hsup => absurd (h.supervised hsup) hnot,
      fun hc => absurd (h.closed hc).2 hnot⟩
    show s.received ++ s.rx.items ++ [.ok (image u)] ++ images usageRx.items ++ images s.updates = _
    rw [← haccount, hitems, images_cons, hf]
    simp [Forwarder.inHand]
  | fail hf hempty hc =>
    have hnot := Forwarder.receiving_not_returned hf
    refine ⟨h.reading, ?_, h.disconnected, fun _ => ⟨hc, hempty⟩, fun _ => ⟨_, rfl⟩,
      fun hclosed => absurd (h.closed hclosed).2 hnot⟩
    rw [← haccount, hf]
    rfl
  | refused hf hclient => exact absurd hclient h.reading
  | @forward cs rx hf hitems =>
    have hnot := Forwarder.sending_not_returned hf
    refine ⟨h.reading, ?_, h.disconnected, nofun, fun hsup => absurd (h.supervised hsup) hnot,
      fun hc => absurd (h.closed hc).2 hnot⟩
    show s.received ++ rx.items ++ [] ++ images s.usageRx.items ++ images s.updates = _
    rw [← haccount, hitems, hf]
    simp [Forwarder.inHand]
  | join hsup hf =>
    exact ⟨h.reading, haccount, h.disconnected, h.returned, fun _ => ⟨_, hf⟩, h.closed⟩
  | finish hsup =>
    exact ⟨h.reading, haccount, h.disconnected, h.returned,
      fun _ => h.supervised (by rw [hsup]; nofun), h.closed⟩
  | @yield x rx hclient hitems =>
    refine ⟨h.reading, ?_, h.disconnected, h.returned, h.supervised, fun hc => ?_⟩
    · show s.received ++ [x] ++ rx.items ++ s.forwarder.inHand ++ images s.usageRx.items ++
        images s.updates = _
      rw [← haccount, hitems]
      simp
    · rw [hclient] at hc
      cases hc
  | close hclient hempty hf hsup =>
    exact ⟨nofun, haccount, h.disconnected, h.returned, h.supervised, fun _ => ⟨hempty, hf⟩⟩

/-! ### Runs end -/

/-- What the forwarding task has still to do: two for the item in hand, one for its return. -/
def Forwarder.work : Forwarder → ℕ
  | .receiving => 1
  | .sending _ => 3
  | .returned _ => 0

def Supervisor.work : Supervisor → ℕ
  | .joining => 2
  | .holding _ => 1
  | .ended => 0

/-- The work left: an update costs four at the source, three in the first
channel, two in hand and one in the second. -/
def State.work (s : State) : ℕ :=
  4 * s.updates.length + (if s.connected then 1 else 0) + 3 * s.usageRx.items.length + s.forwarder.work +
    s.supervisor.work + s.rx.items.length + if s.client = .reading then 1 else 0

theorem joined_work (result : Except JoinError (Except CatscopeZerohopError Unit)) :
    (joined result).work ≤ 1 := by
  match result with
  | .error _ => exact Nat.le_refl 1
  | .ok (.error _) => exact Nat.le_refl 1
  | .ok (.ok ()) => exact Nat.zero_le 1

/-- **Every move takes work off.** -/
theorem work_lt_of_move {s t : State} (h : Move s t) : t.work < s.work := by
  unfold State.work
  cases h with
  | sent hu hnot hitems =>
    simp only [hu, hitems, List.length_append, List.length_cons, List.length_nil]
    omega
  | lost hu hf =>
    simp only [hu, List.length_cons]
    omega
  | disconnect hc hu =>
    simp only [hc, if_true, Bool.false_eq_true, if_false]
    omega
  | take hf hitems =>
    simp only [hf, hitems, List.length_cons, Forwarder.work]
    omega
  | fail hf hempty hc =>
    simp only [hf, Forwarder.work]
    omega
  | refused hf hclient =>
    simp only [hf, Forwarder.work]
    omega
  | forward hf hitems =>
    simp only [hf, hitems, List.length_append, List.length_cons, List.length_nil, Forwarder.work]
    omega
  | @join result hsup hf =>
    have hnew := joined_work (.ok result)
    have hold : s.supervisor.work = 2 := by rw [hsup]; rfl
    simp only
    omega
  | finish hsup =>
    simp only [hsup, Supervisor.work]
    omega
  | yield hclient hitems =>
    simp only [hitems, List.length_cons]
    omega
  | close hclient hempty hf hsup =>
    simp only [hclient, if_true, reduceCtorEq, if_false]
    omega

/-! ### Where a run ends -/

/-- A client that waits has an empty channel and a sender left. -/
theorem poll_eq_none {s : State} (hreading : s.client = .reading) (h : s.poll = none) :
    s.rx.items = [] ∧ ¬ (s.forwarder.Returned ∧ s.supervisor = .ended) := by
  unfold State.poll at h
  rw [if_pos hreading] at h
  split at h
  · cases h
  · rename_i hpop
    split_ifs at h with hgone
    exact ⟨Channel.pop_eq_none.mp hpop, fun hboth => hgone (State.sendersGone_iff.mpr hboth)⟩

theorem sourceSend_eq_none {s : State} (hempty : s.usageRx.items = []) (h : s.sourceSend = none) :
    s.updates = [] := by
  unfold State.sourceSend at h
  split at h
  · rename_i hu
    exact hu
  · rename_i u updates hu
    split at h
    · cases h
    · obtain ⟨usageRx, hpush⟩ := Channel.push_of_empty hempty (by decide) u
      rw [hpush] at h
      cases h

/-- A forwarding task that waits, with room before it, waits for the source. -/
theorem forward_eq_none {s : State} (hrx : s.rx.items = []) (h : s.forward = none) :
    s.forwarder.Returned ∨ s.usageRx.items = [] ∧ s.connected = true := by
  unfold State.forward at h
  split at h
  · split at h
    · cases h
    · rename_i hpop
      split_ifs at h with hconn
      exact Or.inr ⟨Channel.pop_eq_none.mp hpop, hconn⟩
  · rename_i cs hf
    split_ifs at h
    obtain ⟨rx, hpush⟩ := Channel.push_of_empty hrx (by decide) (.ok cs)
    rw [hpush] at h
    cases h
  · rename_i result hf
    exact Or.inl ⟨result, hf⟩

theorem supervise_eq_none {s : State} (hf : s.forwarder.Returned) (h : s.supervise = none) :
    s.supervisor = .ended := by
  obtain ⟨result, hf⟩ := hf
  unfold State.supervise at h
  rw [hf] at h
  split at h
  · cases h
  · cases h
  · rename_i hsup
    exact hsup

section

variable {updates : List Usage} {s : State} (h : Inv updates s)
include h

/-- **Where no party can step the stream is closed.** -/
theorem Inv.closed_of_final (hfinal : Final s) : s.client = .closed := by
  by_contra hopen
  have hreading : s.client = .reading := by
    cases hc : s.client with
    | reading => rfl
    | closed => exact absurd hc hopen
    | dropped => exact absurd hc h.reading
  obtain ⟨hrx, hleft⟩ := poll_eq_none hreading (hfinal .poll)
  have hreturned : s.forwarder.Returned := by
    rcases forward_eq_none hrx (hfinal .forward) with hf | ⟨hempty, hconn⟩
    · exact hf
    · have hu := sourceSend_eq_none hempty (hfinal .sourceSend)
      have hdisconnect := hfinal .disconnect
      simp only [step, hconn, hu, and_self, if_true] at hdisconnect
      cases hdisconnect
  exact hleft ⟨hreturned, supervise_eq_none hreturned (hfinal .supervise)⟩

/-- A closed stream has yielded the images, and nothing else. -/
theorem Inv.received_of_closed (hclosed : s.client = .closed) : s.received = images updates := by
  obtain ⟨hrx, result, hf⟩ := h.closed hclosed
  obtain ⟨hconn, husage⟩ := h.returned ⟨result, hf⟩
  have haccount := h.account
  rw [hrx, hf, husage, h.disconnected hconn] at haccount
  simpa [images, Forwarder.inHand] using haccount

end

theorem inv_of_reachable {updates : List Usage} {s : State} (h : (capacity true updates).Reachable s) :
    Inv updates s :=
  h.invariant (inv_onStatus updates) fun _ _ _ hI hs => hI.move (move_of_step hs)

/-- **The stream never ends with its error.** Every run is finite; where it
ends the stream has yielded the images of the updates in order and is closed
without an error; and that end is reached. -/
theorem stream_ends_without_error (updates : List Usage) :
    ¬ EndsWithError updates ∧
      (∀ s, (capacity true updates).Reachable s → Final s →
        s.client = .closed ∧ s.received = images updates) ∧
      (∃ bound, ∀ as t, (capacity true updates).run (State.onStatus updates) as = some t →
        as.length ≤ bound) ∧
      ∃ as t, (capacity true updates).run (State.onStatus updates) as = some t ∧ Final t := by
  have hstep : ∀ (s : State) (a : Action) (t : State), Inv updates s →
      (capacity true updates).step s a = some t → Inv updates t ∧ t.work < s.work :=
    fun _ _ _ hI hs => ⟨hI.move (move_of_step hs), work_lt_of_move (move_of_step hs)⟩
  have hinit := inv_onStatus updates
  have hend : ∀ s, (capacity true updates).Reachable s → Final s →
      s.client = .closed ∧ s.received = images updates := by
    intro s hreach hfinal
    have hI := inv_of_reachable hreach
    have hclosed := hI.closed_of_final hfinal
    exact ⟨hclosed, hI.received_of_closed hclosed⟩
  obtain ⟨as, t, hrun, -, hfinal⟩ := exists_stuck hstep _ hinit (Nat.le_refl _)
  refine ⟨?_, hend, ⟨(State.onStatus updates).work, ?_⟩, as, t, hrun, hfinal⟩
  · intro hclaim
    have hreach : (capacity true updates).Reachable t := reachable_of_run hrun
    obtain ⟨message, herror⟩ := (hclaim t hreach hfinal).2
    have hlen := congrArg List.length ((hend t hreach hfinal).2.symm.trans herror)
    rw [List.length_append, List.length_singleton] at hlen
    omega
  · intro as t hrun
    have hlen := run_length_le hstep as hinit hrun
    omega

/-- **Without any update** the stream closes after no item at all. -/
theorem no_update_no_error : ¬ EndsWithError [] := by
  intro hclaim
  obtain ⟨s, hrun, hreceived, hfinal⟩ : ∃ s, (capacity true []).run (State.onStatus [])
      [.disconnect, .forward, .supervise, .supervise, .poll] = some s ∧ s.received = [] ∧ Final s :=
    ⟨_, rfl, rfl, fun a => by cases a <;> rfl⟩
  obtain ⟨message, herror⟩ := (hclaim s (reachable_of_run hrun) hfinal).2
  rw [hreceived] at herror
  cases herror

end Relay
end Zerohop
