/-
# The handler is dropped

`Drop for QuicRequestHandler` sets the stop flag and joins the background
thread, so it returns only if that thread does. After the drop nobody else is
at the queue, so the thread waits for no lock; it looks at the flag before
every nap, and every round ends in a sleep of at least one nap. `joinWork`
counts the steps it has left, `sweepsLeft` the rounds it may still finish:
none where a nap is still to come, one where it is past the last look.

Key definitions: `State.joinWork`, `State.sweepsLeft`.
Key theorem: `drop_joins`.
-/
import Zerohop.Quic.Backoff

namespace Zerohop
namespace Quic

variable {Leader : Type}

/-- A fetch gives at most `most` leaders. -/
def Action.FetchesAtMost (most : ℕ) : Action Leader → Prop
  | .refresher (some leaders) => leaders.length ≤ most
  | _ => True

namespace State

/-- The steps to the return of the thread, once the flag is set; a fetch gives
at most `most` leaders. -/
def joinWork (most : ℕ) (s : State Leader) : ℕ :=
  match s.refresher with
  | .returned => 0
  | .sleeping (_ + 1) => 1
  | .retrying _ todo => todo.length + 2
  | .locked leaders _ => s.pending.length * leaders.length + 3
  | .locking leaders _ => s.pending.length * leaders.length + 4
  | .stamping leaders => s.pending.length * leaders.length + 5
  | .storing leaders => s.pending.length * leaders.length + 6
  | .fetching => s.pending.length * most + 7
  | .sleeping 0 => s.pending.length * most + 8

/-- The rounds still to be finished, once the flag is set. -/
def sweepsLeft (s : State Leader) : ℕ :=
  match s.refresher with
  | .returned => 0
  | .sleeping (_ + 1) => 0
  | _ => 1

/-- Every sleep has a nap, so it looks at the flag. -/
theorem joinWork_of_sleeping (most ms : ℕ) (s : State Leader) (h : s.refresher = .sleeping (naps ms)) :
    s.joinWork most = 1 ∧ s.sweepsLeft = 0 := by
  obtain ⟨n, hn⟩ : ∃ n, naps ms = n + 1 := Nat.exists_eq_succ_of_ne_zero (by unfold naps; omega)
  unfold joinWork sweepsLeft
  rw [h, hn]
  exact ⟨rfl, rfl⟩

end State

theorem retries_length (kept : List PendingBatch) (leaders : List Leader) :
    (retries kept leaders).length = kept.length * leaders.length := by
  simp only [retries, List.length_flatMap, List.length_map, List.map_const', List.sum_replicate_nat]

/-! ### What is left to the handler and to the thread -/

/-- Nobody but `drop` drops the handler. -/
theorem handlerStep_ne_dropped {debug sent : Bool} {s t : State Leader}
    (h : s.handlerStep debug sent = some t) : t.handler ≠ .dropped := by
  unfold State.handlerStep State.send at h
  intro hd
  split at h
  any_goals split at h
  any_goals split at h
  any_goals split at h
  all_goals cases h
  all_goals cases hd

theorem stop_of_dropped {debug : Bool} {leaders : List Leader} {s : State Leader}
    (h : (retryMachine debug leaders).Reachable s) : s.handler = .dropped → s.stop = true := by
  refine h.invariant (I := fun s => s.handler = .dropped → s.stop = true) (fun hd => by cases hd) ?_
  intro s a t hi hs
  cases a with
  | tick nanos =>
    cases hs
    exact hi
  | call request =>
    simp only [retryMachine, State.step] at hs
    split_ifs at hs
    split at hs
    all_goals cases hs
    all_goals simp
  | handler sent => exact fun hd => absurd hd (handlerStep_ne_dropped hs)
  | refresher fetched =>
    obtain ⟨hh, hstop, -⟩ := refresherStep_frame hs
    rwa [hh, hstop]
  | drop =>
    simp only [retryMachine, State.step] at hs
    split_ifs at hs
    cases hs
    exact fun _ => rfl

theorem refresherStep_ne_none {s : State Leader} (hx : Exclusive s) (hh : s.handler.holds = false)
    (hr : s.refresher ≠ .returned) (fetched : Option (List Leader)) :
    ∃ t, s.refresherStep fetched = some t := by
  unfold State.refresherStep
  split
  case h_6 leaders now hplace =>
    have hlock : s.lock = none := by
      have h1 := hx.handler
      have h2 := hx.refresher
      rw [hh] at h1
      rw [hplace] at h2
      cases hl : s.lock with
      | none => rfl
      | some owner => cases owner <;> simp_all [Refresher.holds]
    rw [hlock]
    exact ⟨_, rfl⟩
  case h_3 => cases fetched <;> exact ⟨_, rfl⟩
  case h_10 hplace => exact absurd hplace hr
  all_goals exact ⟨_, rfl⟩

/-! ### After the drop -/

/-- The handler is gone and the lock is in order. -/
structure Dropped (s : State Leader) : Prop where
  handler : s.handler = .dropped
  stop : s.stop = true
  exclusive : Exclusive s

theorem joinWork_refresherStep {most : ℕ} {fetched : Option (List Leader)} {s t : State Leader}
    (hstop : s.stop = true) (hmost : (Action.refresher fetched).FetchesAtMost most)
    (h : s.refresherStep fetched = some t) :
    t.joinWork most < s.joinWork most ∧
      t.rounds.length + t.sweepsLeft ≤ s.rounds.length + s.sweepsLeft := by
  unfold State.refresherStep at h
  split at h
  · rename_i hr
    cases h
    simp [State.joinWork, State.sweepsLeft, hr]
  · rename_i left hr
    rw [if_pos hstop] at h
    cases h
    simp [State.joinWork, State.sweepsLeft, hr]
  · rename_i hr
    split at h <;> cases h
    · rename_i leaders
      have hle : s.pending.length * leaders.length ≤ s.pending.length * most :=
        Nat.mul_le_mul_left _ hmost
      simp only [State.joinWork, State.sweepsLeft, hr]
      omega
    · obtain ⟨hw, hs⟩ := State.joinWork_of_sleeping most (min (s.sleepMs * 2) 5000)
        { s with
          sleepMs := min (s.sleepMs * 2) 5000
          refresher := .sleeping (naps (min (s.sleepMs * 2) 5000)) } rfl
      rw [hw, hs]
      simp [State.joinWork, hr]
  · rename_i leaders hr
    cases h
    simp [State.joinWork, State.sweepsLeft, hr]
  · rename_i leaders hr
    cases h
    simp [State.joinWork, State.sweepsLeft, hr]
  · rename_i leaders now hr
    split at h <;> cases h
    simp [State.joinWork, State.sweepsLeft, hr]
  · rename_i leaders now hr
    cases h
    -- the sweep keeps no more than there was
    have hle : (s.pending.filter fun batch => decide (now - batch.sentAt < pendingTxTtl)).length *
        leaders.length ≤ s.pending.length * leaders.length :=
      Nat.mul_le_mul_right _ (List.length_filter_le ..)
    simp only [State.joinWork, State.sweepsLeft, hr, retries_length]
    omega
  · rename_i round item todo hr
    cases h
    simp [State.joinWork, State.sweepsLeft, hr]
  · rename_i round hr
    cases h
    obtain ⟨hw, hs⟩ := State.joinWork_of_sleeping most s.sleepMs
      { s with
        refresher := .sleeping (naps s.sleepMs)
        lock := none
        rounds := s.rounds ++ [round] } rfl
    rw [hw, hs]
    simp [State.joinWork, State.sweepsLeft, hr]
  · cases h

/-- Once the handler is gone only time and the thread go on. -/
theorem Dropped.step {debug : Bool} {leaders : List Leader} {most : ℕ} {s t : State Leader}
    {a : Action Leader} (h : Dropped s) (hmost : a.FetchesAtMost most)
    (hs : (retryMachine debug leaders).step s a = some t) :
    Dropped t ∧ t.joinWork most + (if a.refreshes then 1 else 0) ≤ s.joinWork most ∧
      t.rounds.length + t.sweepsLeft ≤ s.rounds.length + s.sweepsLeft := by
  have hx := h.exclusive.move (move_of_step hs)
  cases a with
  | tick nanos =>
    cases hs
    exact ⟨⟨h.handler, h.stop, hx⟩, Nat.le_refl _, Nat.le_refl _⟩
  | refresher fetched =>
    obtain ⟨hh, hstop, -⟩ := refresherStep_frame hs
    obtain ⟨hw, hr⟩ := joinWork_refresherStep h.stop hmost hs
    exact ⟨⟨hh.trans h.handler, hstop.trans h.stop, hx⟩, hw, hr⟩
  | call request => simp [retryMachine, State.step, h.handler, Handler.free] at hs
  | handler sent => simp [retryMachine, State.step, State.handlerStep, h.handler] at hs
  | drop => simp [retryMachine, State.step, h.handler, Handler.free] at hs

/-- **The drop returns.** Once the handler is dropped the thread takes at most
`joinWork` more steps, none of which waits, and finishes at most one more
round, none if it has a nap to go. -/
theorem drop_joins {debug : Bool} {leaders : List Leader} {most : ℕ} {s t : State Leader}
    {as : List (Action Leader)} (h : (retryMachine debug leaders).Reachable s)
    (hd : s.handler = .dropped) (hmost : ∀ a ∈ as, a.FetchesAtMost most)
    (hrun : (retryMachine debug leaders).run s as = some t) :
    as.countP Action.refreshes + t.joinWork most ≤ s.joinWork most ∧
      t.rounds.length ≤ s.rounds.length + s.sweepsLeft ∧
      (t.refresher ≠ .returned → ∀ fetched,
        ∃ u, (retryMachine debug leaders).step t (.refresher fetched) = some u) := by
  have hs : Dropped s := ⟨hd, stop_of_dropped h hd, (reachable_inv h).exclusive⟩
  obtain ⟨⟨ht, hrounds⟩, hwork⟩ := Machine.run_amortized
    (I := fun u => Dropped u ∧ u.rounds.length + u.sweepsLeft ≤ s.rounds.length + s.sweepsLeft)
    (Action.FetchesAtMost most) (fun a => if a.refreshes then 1 else 0) (fun _ => 0)
    (State.joinWork most) (fun _ => 0)
    (fun u a v hu hok hv => by
      obtain ⟨hd, hw, hr⟩ := hu.1.step hok hv
      exact ⟨⟨hd, Nat.le_trans hr hu.2⟩, by omega⟩) as ⟨hs, Nat.le_refl _⟩ hmost hrun
  rw [Machine.sum_map_ite] at hwork
  refine ⟨by simpa using hwork, Nat.le_trans (Nat.le_add_right ..) hrounds, ?_⟩
  intro hr fetched
  exact refresherStep_ne_none ht.exclusive (by rw [ht.handler]; rfl) hr fetched

/-- A drop while the thread is past its last look at the flag: it fetches,
sweeps once more and returns, in as many steps as `joinWork` says. -/
theorem drop_joins_last_round : ∃ s t : State ℕ, (retryMachine false []).Reachable s ∧
    s.handler = .dropped ∧ s.rounds = [] ∧ t.refresher = .returned ∧ t.rounds.length = 1 ∧
      9 + t.joinWork 1 ≤ s.joinWork 1 ∧ t.rounds.length ≤ s.rounds.length + s.sweepsLeft := by
  let before : List (Action ℕ) := .call TransactionRequest.default :: List.replicate 6 (.handler true) ++
    List.replicate 8 (.refresher none) ++ [.drop]
  let after : List (Action ℕ) := List.replicate 9 (.refresher (some [7]))
  obtain ⟨s, t, hs, ht, hd, hrest⟩ : ∃ s t, (retryMachine false []).run (State.init []) before = some s ∧
      (retryMachine false []).run s after = some t ∧ s.handler = .dropped ∧ s.rounds = [] ∧
        t.refresher = .returned ∧ t.rounds.length = 1 := ⟨_, _, rfl, rfl, by decide⟩
  have hr : (retryMachine false []).Reachable s := Machine.reachable_of_run hs
  have hmost : ∀ a ∈ after, a.FetchesAtMost 1 := by
    intro a ha
    rw [List.eq_of_mem_replicate ha]
    exact Nat.le_refl 1
  obtain ⟨hwork, hrounds, -⟩ := drop_joins hr hd hmost ht
  exact ⟨s, t, hr, hd, hrest.1, hrest.2.1, hrest.2.2, hwork, hrounds⟩

end Quic
end Zerohop
