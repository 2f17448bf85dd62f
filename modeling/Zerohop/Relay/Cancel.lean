/-
# The capacity stream and a client that goes away

The machine of `Relay.Capacity` for any client, also one that drops its stream
at any moment. Nobody tells the tasks: the forwarding task finds out at its next
send, and the supervising task joins it then.

What the stream has yielded is a prefix of the images, in order and without an
error, and at most 129 updates are on their way to a client that is there
(`stream_in_order`). A source that disconnects leaves no task behind. A client
that is gone costs each task at most two more steps, but while the source stays
connected and sends nothing both tasks wait for it (`tasks_end`).

Key definitions: `State.onTheWay`, `Tracked`, `State.AwaitsSource`.
-/
import Zerohop.Relay.Capacity

namespace Zerohop
namespace Relay

open Machine

/-- The items between the source and the client. -/
def State.onTheWay (s : State) : List Item :=
  s.rx.items ++ s.forwarder.inHand ++ images s.usageRx.items

/-- One of the two tasks takes the step. -/
def Action.byTask : Action → Bool
  | .forward => true
  | .supervise => true
  | _ => false

section

variable {keeps : Bool} {updates : List Usage} {s t : State}

/-- A client may also drop its stream. -/
theorem move_or_drop {a : Action} (h : step keeps s a = some t) :
    Move s t ∨ s.client = .reading ∧ t = { s with client := .dropped } := by
  cases a with
  | dropStream =>
    simp only [step] at h
    split_ifs at h with hd
    exact Or.inr ⟨hd.2, (Option.some.inj h).symm⟩
  | sourceSend => exact Or.inl (move_of_step (a := .sourceSend) h)
  | disconnect => exact Or.inl (move_of_step (a := .disconnect) h)
  | forward => exact Or.inl (move_of_step (a := .forward) h)
  | supervise => exact Or.inl (move_of_step (a := .supervise) h)
  | poll => exact Or.inl (move_of_step (a := .poll) h)

/-! ### What the stream yields -/

/-- For a client that is there the account of `Inv` holds; for any client what
it has received is a prefix, and the tasks end in their order. -/
structure Tracked (updates : List Usage) (s : State) : Prop where
  inv : s.client ≠ .dropped → Inv updates s
  prefix_images : s.received <+: images updates
  supervised : s.supervisor ≠ .joining → s.forwarder.Returned

theorem Inv.tracked (h : Inv updates s) : Tracked updates s where
  inv := fun _ => h
  prefix_images := by
    rw [← h.account]
    simp only [List.append_assoc]
    exact List.prefix_append ..
  supervised := h.supervised

/-- Once the client is gone it receives nothing, and it stays away. -/
theorem Move.of_dropped (hm : Move s t) (hc : s.client = .dropped) :
    t.client = .dropped ∧ t.received = s.received := by
  cases hm with
  | yield hr _ => rw [hc] at hr; cases hr
  | close hr _ _ _ => rw [hc] at hr; cases hr
  | _ => exact ⟨hc, rfl⟩

/-- The supervising task joins only what has returned, and that stays returned. -/
theorem Move.supervised (hm : Move s t) (h : s.supervisor ≠ .joining → s.forwarder.Returned) :
    t.supervisor ≠ .joining → t.forwarder.Returned := by
  cases hm with
  | take hf _ => exact fun hsup => absurd (h hsup) (Forwarder.receiving_not_returned hf)
  | forward hf _ => exact fun hsup => absurd (h hsup) (Forwarder.sending_not_returned hf)
  | fail _ _ _ => exact fun _ => ⟨_, rfl⟩
  | refused _ _ => exact fun _ => ⟨_, rfl⟩
  | join _ hf => exact fun _ => ⟨_, hf⟩
  | finish hsup => exact fun _ => h (by rw [hsup]; nofun)
  | _ => exact h

theorem Tracked.step {a : Action} (h : Tracked updates s) (hs : step keeps s a = some t) :
    Tracked updates t := by
  rcases move_or_drop hs with hm | ⟨hr, rfl⟩
  · by_cases hc : s.client = .dropped
    · obtain ⟨ht, hreceived⟩ := hm.of_dropped hc
      exact ⟨fun hne => absurd ht hne, hreceived ▸ h.prefix_images, hm.supervised h.supervised⟩
    · exact ((h.inv hc).move hm).tracked
  · exact ⟨fun hne => absurd rfl hne, h.prefix_images, h.supervised⟩

theorem tracked_of_reachable (h : (capacity keeps updates).Reachable s) : Tracked updates s :=
  h.invariant (inv_onStatus updates).tracked fun _ _ _ hI hs => hI.step hs

/-- **What any client gets.** Its stream has yielded a prefix of the images of
the updates; while it is there, the rest is on the way, at most 129 items, or
still at the source. -/
theorem stream_in_order (h : (capacity keeps updates).Reachable s) :
    s.received <+: images updates ∧ s.onTheWay.length ≤ 129 ∧
      (s.client ≠ .dropped → s.received ++ s.onTheWay ++ images s.updates = images updates) := by
  have ht := tracked_of_reachable h
  refine ⟨ht.prefix_images, ?_, fun hc => ?_⟩
  · have hhand : s.forwarder.inHand.length ≤ 1 := by
      cases s.forwarder <;> simp [Forwarder.inHand]
    have h1 := s.rx.le_cap
    have h2 := s.usageRx.le_cap
    simp only [State.onTheWay, images, List.length_append, List.length_map]
    omega
  · rw [← (ht.inv hc).account]
    simp only [State.onTheWay, List.append_assoc]

/-- Of three updates the first is received, the second in hand and the third in
the first channel. -/
theorem stream_in_order_half_way : ∃ s : State,
    (capacity false [.utilizationRatio 0.5, .utilizationRatio 0.25, .utilizationRatio 2]).Reachable s ∧
    s.received = images [.utilizationRatio 0.5] ∧
    s.onTheWay = images [.utilizationRatio 0.25, .utilizationRatio 2] ∧
    s.received <+: images [.utilizationRatio 0.5, .utilizationRatio 0.25, .utilizationRatio 2] ∧
    s.onTheWay.length ≤ 129 ∧
    s.received ++ s.onTheWay ++ images s.updates =
      images [.utilizationRatio 0.5, .utilizationRatio 0.25, .utilizationRatio 2] := by
  let updates : List Usage := [.utilizationRatio 0.5, .utilizationRatio 0.25, .utilizationRatio 2]
  obtain ⟨s, hs, hc, hr, hway⟩ : ∃ s : State, (capacity false updates).run (State.onStatus updates)
      [.sourceSend, .forward, .forward, .poll, .sourceSend, .forward, .sourceSend] = some s ∧
      s.client = .reading ∧ s.received = images [.utilizationRatio 0.5] ∧
      s.onTheWay = images [.utilizationRatio 0.25, .utilizationRatio 2] := ⟨_, rfl, rfl, rfl, rfl⟩
  have hreach : (capacity false updates).Reachable s := reachable_of_run hs
  obtain ⟨hreceived, hfew, hall⟩ := stream_in_order hreach
  exact ⟨s, hreach, hr, hway, hreceived, hfew, hall (by rw [hc]; nofun)⟩

/-! ### The tasks end -/

theorem work_lt_of_step {a : Action} (hs : step keeps s a = some t) : t.work < s.work := by
  rcases move_or_drop hs with hm | ⟨hr, rfl⟩
  · exact work_lt_of_move hm
  · simp only [State.work, hr, if_true, reduceCtorEq, if_false]
    omega

namespace State

/-- Neither task can step. -/
def TasksBlocked (s : State) : Prop := s.forward = none ∧ s.supervise = none

def TasksEnded (s : State) : Prop := s.forwarder.Returned ∧ s.supervisor = .ended

/-- The forwarding task waits for the source, which is connected and silent, and
the supervising task for the forwarding one. -/
def AwaitsSource (s : State) : Prop :=
  s.forwarder = .receiving ∧ s.usageRx.items = [] ∧ s.connected = true ∧ s.supervisor = .joining

theorem TasksEnded.blocked (h : s.TasksEnded) : s.TasksBlocked := by
  obtain ⟨⟨result, hf⟩, hsup⟩ := h
  constructor
  · simp [State.forward, hf]
  · simp [State.supervise, hsup]

theorem AwaitsSource.blocked (h : s.AwaitsSource) : s.TasksBlocked := by
  obtain ⟨hf, hempty, hconn, hsup⟩ := h
  constructor
  · simp [State.forward, hf, Channel.pop_eq_none.mpr hempty, hconn]
  · simp [State.supervise, hsup, hf]

end State

/-- **Tasks whose client is gone are blocked** when they have ended, or wait for
the source; the client, who is gone, holds nobody up. -/
theorem Tracked.blocked_iff (h : Tracked updates s) (hc : s.client = .dropped) :
    s.TasksBlocked ↔ s.TasksEnded ∨ s.AwaitsSource := by
  refine ⟨?_, fun hor => hor.elim State.TasksEnded.blocked State.AwaitsSource.blocked⟩
  rintro ⟨hforward, hsupervise⟩
  cases hf : s.forwarder with
  | returned result => exact Or.inl ⟨⟨result, hf⟩, supervise_eq_none ⟨result, hf⟩ hsupervise⟩
  | sending cs => simp [State.forward, hf, hc] at hforward
  | receiving =>
    have hjoining : s.supervisor = .joining := by
      by_contra hne
      exact Forwarder.receiving_not_returned hf (h.supervised hne)
    simp only [State.forward, hf] at hforward
    split at hforward
    · cases hforward
    · rename_i hpop
      split_ifs at hforward with hconn
      exact Or.inr ⟨hf, Channel.pop_eq_none.mp hpop, hconn, hjoining⟩

/-- **Once the source has disconnected** nothing is left where neither the tasks
nor the client can step. -/
theorem Tracked.ended (h : Tracked updates s) (hconn : s.connected = false) (hblocked : s.TasksBlocked)
    (hpoll : s.poll = none) : s.TasksEnded ∧ s.client ≠ .reading := by
  cases hc : s.client with
  | dropped =>
    rcases (h.blocked_iff hc).mp hblocked with hended | ⟨-, -, htrue, -⟩
    · exact ⟨hended, by simp⟩
    · rw [hconn] at htrue
      cases htrue
  | closed =>
    have hi := h.inv (by rw [hc]; simp)
    have hreturned := (hi.closed hc).2
    exact ⟨⟨hreturned, supervise_eq_none hreturned hblocked.2⟩, by simp⟩
  | reading =>
    -- a client that waits has an empty channel, and so the forwarding task has returned
    obtain ⟨hrx, hleft⟩ := poll_eq_none hc hpoll
    rcases forward_eq_none hrx hblocked.1 with hreturned | ⟨-, htrue⟩
    · exact absurd ⟨hreturned, supervise_eq_none hreturned hblocked.2⟩ hleft
    · rw [hconn] at htrue
      cases htrue

/-- The steps that the forwarding task takes at most for a client that is gone. -/
def Forwarder.left : Forwarder → ℕ
  | .receiving => 2
  | .sending _ => 1
  | .returned _ => 0

/-- What the tasks have left once the client is gone. -/
def State.left (s : State) : ℕ := s.forwarder.left + s.supervisor.work

/-- The forwarding task takes an update at most, and then finds out. -/
theorem forward_left (hc : s.client = .dropped) (hs : s.forward = some t) : t.left < s.left := by
  unfold State.forward at hs
  split at hs
  · rename_i hf
    split at hs
    · cases hs
      simp [State.left, Forwarder.left, hf]
    · split_ifs at hs
      cases hs
      simp [State.left, Forwarder.left, hf]
  · rename_i cs hf
    rw [if_pos hc] at hs
    cases hs
    simp [State.left, Forwarder.left, hf]
  · cases hs

theorem supervise_left (hs : s.supervise = some t) : t.left < s.left := by
  unfold State.supervise at hs
  split at hs
  · rename_i hsup
    split at hs
    · rename_i result hf
      cases hs
      have hnew := joined_work (.ok result)
      have hold : s.supervisor.work = 2 := by rw [hsup]; rfl
      simp only [State.left]
      omega
    · cases hs
  · rename_i future hsup
    cases hs
    simp [State.left, Supervisor.work, hsup]
  · cases hs

theorem sourceSend_left (hs : s.sourceSend = some t) : t.left = s.left := by
  unfold State.sourceSend at hs
  split at hs
  · cases hs
  · split at hs
    · cases hs
      rfl
    · obtain ⟨usageRx, -, rfl⟩ := Option.map_eq_some_iff.mp hs
      rfl

/-- After the client is gone a task's step does a part of what is left, and
nobody else adds to it. -/
theorem step_left {a : Action} (hc : s.client = .dropped) (hs : step keeps s a = some t) :
    (t.client = .dropped ∧ t.received = s.received) ∧ (if a.byTask then 1 else 0) + t.left ≤ s.left := by
  have hm : Move s t := by
    rcases move_or_drop hs with hm | ⟨hr, -⟩
    · exact hm
    · rw [hc] at hr
      cases hr
  refine ⟨hm.of_dropped hc, ?_⟩
  cases a with
  | sourceSend =>
    have := sourceSend_left hs
    simp [Action.byTask, this]
  | disconnect =>
    simp only [step] at hs
    split_ifs at hs
    cases hs
    simp [Action.byTask, State.left]
  | forward =>
    have := forward_left hc hs
    simp only [Action.byTask, if_true]
    omega
  | supervise =>
    have := supervise_left hs
    simp only [Action.byTask, if_true]
    omega
  | poll => simp [step, State.poll, hc] at hs
  | dropStream => simp [step, hc] at hs

theorem left_le_four (s : State) : s.left ≤ 4 := by
  unfold State.left
  cases s.forwarder <;> cases s.supervisor <;> simp [Forwarder.left, Supervisor.work]

/-! ### What wakes the tasks -/

/-- The source acts. -/
def Action.bySource : Action → Bool
  | .sourceSend => true
  | .disconnect => true
  | _ => false

/-- The client is gone, and the forwarding task is not left waiting for the source. -/
structure Woken (s : State) : Prop where
  dropped : s.client = .dropped
  awake : s.forwarder = .receiving → s.usageRx.items ≠ [] ∨ s.connected = false

theorem Woken.of_busy (hc : s.client = .dropped) (hf : s.forwarder ≠ .receiving) : Woken s :=
  ⟨hc, fun hr => absurd hr hf⟩

theorem woken_of_source {a : Action} (hc : s.client = .dropped) (ha : a.bySource = true)
    (hs : step keeps s a = some t) : Woken t := by
  cases a with
  | sourceSend =>
    simp only [step, State.sourceSend] at hs
    split at hs
    · cases hs
    · split at hs
      · rename_i result hf
        cases hs
        exact .of_busy hc (by rw [hf]; simp)
      · obtain ⟨usageRx, hpush, rfl⟩ := Option.map_eq_some_iff.mp hs
        refine ⟨hc, fun _ => Or.inl ?_⟩
        rw [Channel.items_of_push hpush]
        exact List.append_ne_nil_of_right_ne_nil _ (List.cons_ne_nil _ _)
  | disconnect =>
    simp only [step] at hs
    split_ifs at hs
    cases hs
    exact ⟨hc, fun _ => Or.inr rfl⟩
  | _ => cases ha

/-- A task that has found something to do is not back at the source. -/
theorem Woken.step {a : Action} (h : Woken s) (hs : step keeps s a = some t) : Woken t := by
  obtain ⟨hc, hawake⟩ := h
  cases a with
  | sourceSend => exact woken_of_source hc rfl hs
  | disconnect => exact woken_of_source hc rfl hs
  | forward =>
    simp only [Relay.step, State.forward] at hs
    split at hs
    · split at hs
      · cases hs
        exact .of_busy hc (by simp)
      · split_ifs at hs
        cases hs
        exact .of_busy hc (by simp)
    · rw [if_pos hc] at hs
      cases hs
      exact .of_busy hc (by simp)
    · cases hs
  | supervise =>
    simp only [Relay.step, State.supervise] at hs
    split at hs
    · split at hs <;> cases hs
      exact ⟨hc, hawake⟩
    · cases hs
      exact ⟨hc, hawake⟩
    · cases hs
  | poll => simp [Relay.step, State.poll, hc] at hs
  | dropStream => simp [Relay.step, hc] at hs

theorem Woken.not_awaits (h : Woken s) : ¬ s.AwaitsSource := by
  rintro ⟨hf, hempty, hconn, -⟩
  rcases h.awake hf with hne | hfalse
  · exact hne hempty
  · rw [hconn] at hfalse
    cases hfalse

/-- Once the client is gone it stays away, and the tasks have four steps at most. -/
theorem run_left {as : List Action} (hc : s.client = .dropped)
    (hrun : (capacity keeps updates).run s as = some t) :
    (t.client = .dropped ∧ t.received = s.received) ∧ as.countP Action.byTask ≤ 4 := by
  obtain ⟨hgone, hleft⟩ := run_amortized
    (I := fun u => u.client = .dropped ∧ u.received = s.received) (fun _ => True)
    (fun a => if a.byTask then 1 else 0) (fun _ => 0) State.left (fun _ => 0)
    (fun u a v hu _ hv => by
      obtain ⟨⟨hdropped, hsame⟩, hle⟩ := step_left hu.1 hv
      exact ⟨⟨hdropped, hsame.trans hu.2⟩, hle⟩) as ⟨hc, rfl⟩ (fun _ _ => trivial) hrun
  have hfour := left_le_four s
  rw [sum_map_ite] at hleft
  simp only [List.map_const', List.sum_replicate_nat] at hleft
  exact ⟨hgone, by omega⟩

theorem woken_of_run {as : List Action} {a : Action} (hc : s.client = .dropped) (ha : a ∈ as)
    (hsource : a.bySource = true) (hrun : (capacity keeps updates).run s as = some t) : Woken t := by
  obtain ⟨before, after, rfl⟩ := List.append_of_mem ha
  rw [run_append, Option.bind_eq_some_iff] at hrun
  obtain ⟨u, hu, hrun⟩ := hrun
  simp only [run, Option.bind_eq_some_iff] at hrun
  obtain ⟨v, hv, hrun⟩ := hrun
  have hwoken : Woken v := woken_of_source (run_left hc hu).1.1 hsource hv
  exact run_invariant (fun _ => True) (fun _ _ _ hw _ hs => hw.step hs) after hwoken
    (fun _ _ => trivial) hrun

end

/-- **How the tasks end.** Every run is finite. Once the source has disconnected,
both tasks have ended wherever neither they nor the client can step. Once the
client has dropped its stream they take at most four more steps and nothing more
is received, but nobody tells them: until the source acts they may be left
waiting for it, one act of the source ends that, and it does happen. -/
theorem tasks_end (keeps : Bool) (updates : List Usage) :
    (∃ bound, ∀ as t, (capacity keeps updates).run (State.onStatus updates) as = some t →
      as.length ≤ bound) ∧
    (∀ s, (capacity keeps updates).Reachable s → s.connected = false → s.TasksBlocked →
      s.poll = none → s.TasksEnded ∧ s.client ≠ .reading) ∧
    (∀ s as t, (capacity keeps updates).Reachable s → s.client = .dropped →
      (capacity keeps updates).run s as = some t →
        as.countP Action.byTask ≤ 4 ∧ t.received = s.received ∧
        (t.TasksBlocked ↔ t.TasksEnded ∨ t.AwaitsSource) ∧
        ((∃ a ∈ as, a.bySource = true) → (t.TasksBlocked ↔ t.TasksEnded))) ∧
    (keeps = false → ∃ s, (capacity keeps updates).Reachable s ∧ s.client = .dropped ∧ s.AwaitsSource) := by
  refine ⟨⟨(State.onStatus updates).work, ?_⟩, ?_, ?_, ?_⟩
  · intro as t hrun
    have hlen := run_length_le (I := fun _ => True) (μ := State.work)
      (fun _ _ _ _ hs => ⟨trivial, work_lt_of_step hs⟩) as trivial hrun
    omega
  · intro s h hconn hblocked hpoll
    exact (tracked_of_reachable h).ended hconn hblocked hpoll
  · intro s as t h hc hrun
    obtain ⟨⟨hdropped, hreceived⟩, hfour⟩ := run_left hc hrun
    have hiff := (tracked_of_reachable (reachable_of_run_from as h hrun)).blocked_iff hdropped
    refine ⟨hfour, hreceived, hiff, ?_⟩
    rintro ⟨a, ha, hsource⟩
    rw [hiff]
    exact or_iff_left (woken_of_run hc ha hsource hrun).not_awaits
  · rintro rfl
    have hdrop : (capacity false updates).step (State.onStatus updates) .dropStream =
        some { State.onStatus updates with client := .dropped } := rfl
    exact ⟨_, Reachable.init.step .dropStream hdrop, rfl, rfl, rfl, rfl, rfl⟩

end Relay
end Zerohop
