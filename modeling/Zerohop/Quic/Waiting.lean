/-
# Waiting for the queue

The handler and the retry thread wait for nothing but the lock of `pending`,
and each only for the other (`handlerStep_eq_none`, `refresherStep_eq_none`).
Its holder is never blocked: the handler is three steps from giving it up, the
retry thread holds it over its sends, one for each batch kept and each leader.
So a call of `on_request` that comes while a sweep is under way waits for the
whole of it, and no longer (`holdWork`).

Key definitions: `Owner.takes`, `State.holdWork`.
Key theorem: `waits_end`.
-/
import Zerohop.Quic.Shutdown

namespace Zerohop
namespace Quic

variable {Leader : Type}

/-- The owner of the lock takes the step. -/
def Owner.takes : Owner → Action Leader → Bool
  | .handler, .handler _ => true
  | .refresher, .refresher _ => true
  | _, _ => false

/-- The steps of a handler that holds the lock until it gives it up. -/
def Handler.holdWork : Handler Leader → ℕ
  | locked _ => 3
  | stamped _ _ => 2
  | pushed _ => 1
  | _ => 0

/-- The steps of a retry thread that holds the lock, with so many batches in
the queue, until it gives it up. -/
def Refresher.holdWork (batches : ℕ) : Refresher Leader → ℕ
  | locked leaders _ => batches * leaders.length + 2
  | retrying _ todo => todo.length + 1
  | _ => 0

/-- The steps of the holder of the lock until it gives it up. -/
def State.holdWork (s : State Leader) : ℕ :=
  match s.lock with
  | none => 0
  | some .handler => s.handler.holdWork
  | some .refresher => s.refresher.holdWork s.pending.length

/-! ### What each waits for -/

section

variable {s t : State Leader} {debug sent : Bool} {fetched : Option (List Leader)}

theorem Exclusive.in_call (hx : Exclusive s) (hl : s.lock = some .handler) :
    s.handler.free = false ∧ s.handler ≠ .dropped := by
  have hholds := hx.handler.mpr hl
  cases hh : s.handler <;> simp_all [Handler.holds, Handler.free]

theorem Exclusive.runs (hx : Exclusive s) (hl : s.lock = some .refresher) : s.refresher ≠ .returned := by
  have hholds := hx.refresher.mpr hl
  intro hr
  rw [hr] at hholds
  cases hholds

/-- A handler in a call waits for the lock only, and for the other to give it up. -/
theorem handlerStep_eq_none (hx : Exclusive s) (hbusy : s.handler.free = false)
    (hd : s.handler ≠ .dropped) (h : s.handlerStep debug sent = none) : s.lock = some .refresher := by
  unfold State.handlerStep at h
  split at h
  · rename_i txs hplace
    split at h
    · cases h
    · rename_i owner hlock
      cases owner with
      | handler =>
        have hholds := hx.handler.mpr hlock
        rw [hplace] at hholds
        cases hholds
      | refresher => exact hlock
  case h_7 hplace =>
    rw [hplace] at hbusy
    cases hbusy
  case h_8 hplace =>
    rw [hplace] at hbusy
    cases hbusy
  case h_9 hplace => exact absurd hplace hd
  all_goals cases h

theorem refresherStep_eq_none (hx : Exclusive s) (hr : s.refresher ≠ .returned)
    (h : s.refresherStep fetched = none) : s.lock = some .handler := by
  by_contra hlock
  have hholds : s.handler.holds = false := by
    rw [← Bool.not_eq_true, hx.handler]
    exact hlock
  obtain ⟨t, ht⟩ := refresherStep_ne_none hx hholds hr fetched
  rw [h] at ht
  cases ht

/-! ### What a step does for the holder -/

/-- The handler keeps off the queue while it does not hold the lock. -/
theorem handlerStep_pending (hh : s.handler.holds = false) (h : s.handlerStep debug sent = some t) :
    t.pending = s.pending := by
  unfold State.handlerStep State.send at h
  split at h
  any_goals split at h
  any_goals split at h
  any_goals split at h
  all_goals cases h
  case h_3 hplace =>
    rw [hplace] at hh
    cases hh
  all_goals rfl

/-- A handler that holds the lock comes a step closer to giving it up. -/
theorem holdWork_handlerStep (hx : Exclusive s) (hl : s.lock = some .handler)
    (hl' : t.lock = some .handler) (h : s.handlerStep debug sent = some t) :
    1 + t.holdWork ≤ s.holdWork := by
  have hholds := hx.handler.mpr hl
  unfold State.holdWork
  rw [hl, hl']
  unfold State.handlerStep at h
  split at h
  case h_2 hplace =>
    cases h
    rw [hplace]
    exact Nat.le_refl _
  case h_3 hplace =>
    cases h
    rw [hplace]
    exact Nat.le_refl _
  case h_4 hplace =>
    cases h
    cases hl'
  all_goals
    rename_i hplace
    rw [hplace] at hholds
    cases hholds

theorem holdWork_refresherStep (hx : Exclusive s) (hl : s.lock = some .refresher)
    (hl' : t.lock = some .refresher) (h : s.refresherStep fetched = some t) :
    1 + t.holdWork ≤ s.holdWork := by
  have hholds := hx.refresher.mpr hl
  unfold State.holdWork
  rw [hl, hl']
  unfold State.refresherStep at h
  split at h
  case h_7 leaders now hplace =>
    cases h
    -- no more batches are kept than there were
    have hle : (s.pending.filter fun batch => decide (now - batch.sentAt < pendingTxTtl)).length *
        leaders.length ≤ s.pending.length * leaders.length :=
      Nat.mul_le_mul_right _ (List.length_filter_le ..)
    simp only [hplace, Refresher.holdWork, retries_length]
    omega
  case h_8 round item todo hplace =>
    cases h
    simp only [hplace, Refresher.holdWork, List.length_cons]
    omega
  case h_9 round hplace =>
    cases h
    cases hl'
  all_goals
    rename_i hplace
    rw [hplace] at hholds
    cases hholds

theorem holdWork_of_handler (hl : s.lock = some .handler) (hl' : t.lock = some .handler)
    (hh : t.handler = s.handler) : t.holdWork = s.holdWork := by
  simp only [State.holdWork, hl, hl', hh]

theorem holdWork_of_refresher (hl : s.lock = some .refresher) (hl' : t.lock = some .refresher)
    (hr : t.refresher = s.refresher) (hp : t.pending = s.pending) : t.holdWork = s.holdWork := by
  simp only [State.holdWork, hl, hl', hr, hp]

/-- **One step while the lock stays where it is**: the holder's own brings it
closer to giving it up, every other leaves it where it was. -/
theorem holdWork_step {leaders : List Leader} {owner : Owner} {a : Action Leader} (hx : Exclusive s)
    (hl : s.lock = some owner) (hl' : t.lock = some owner)
    (h : (retryMachine debug leaders).step s a = some t) :
    (if owner.takes a then 1 else 0) + t.holdWork ≤ s.holdWork := by
  cases owner with
  | handler =>
    have hbusy := (hx.in_call hl).1
    cases a with
    | handler sent => exact holdWork_handlerStep hx hl hl' h
    | refresher fetched =>
      rw [holdWork_of_handler hl hl' (refresherStep_frame h).1]
      exact Nat.le_of_eq (Nat.zero_add _)
    | tick nanos =>
      cases h
      exact Nat.le_of_eq (Nat.zero_add _)
    | call request => simp [retryMachine, State.step, hbusy] at h
    | drop => simp [retryMachine, State.step, hbusy] at h
  | refresher =>
    have hoff := hx.not_both (hx.refresher.mpr hl)
    cases a with
    | handler sent =>
      rw [holdWork_of_refresher hl hl' (handlerStep_frame h).1 (handlerStep_pending hoff h)]
      exact Nat.le_of_eq (Nat.zero_add _)
    | refresher fetched => exact holdWork_refresherStep hx hl hl' h
    | tick nanos =>
      cases h
      exact Nat.le_of_eq (Nat.zero_add _)
    | call request =>
      simp only [retryMachine, State.step] at h
      split_ifs at h
      split at h
      all_goals cases h
      all_goals rw [holdWork_of_refresher hl hl' rfl rfl]
      all_goals exact Nat.le_of_eq (Nat.zero_add _)
    | drop =>
      simp only [retryMachine, State.step] at h
      split_ifs at h
      cases h
      rw [holdWork_of_refresher hl hl' rfl rfl]
      exact Nat.le_of_eq (Nat.zero_add _)

end

theorem holdWork_pos {s : State Leader} {owner : Owner} (hx : Exclusive s) (hl : s.lock = some owner) :
    0 < s.holdWork := by
  unfold State.holdWork
  rw [hl]
  cases owner with
  | handler =>
    have hholds := hx.handler.mpr hl
    cases hh : s.handler <;> simp_all [Handler.holds, Handler.holdWork]
  | refresher =>
    have hholds := hx.refresher.mpr hl
    cases hr : s.refresher <;> simp_all [Refresher.holds, Refresher.holdWork]

/-- **Neither thread waits for ever.** A handler in a call is blocked only
while the retry thread holds the lock, and the other way round; the holder is
never blocked; and in every run in which it takes `holdWork` steps it gives the
lock up. -/
theorem waits_end {debug : Bool} {leaders : List Leader} {s : State Leader}
    (h : (retryMachine debug leaders).Reachable s) :
    (∀ sent, s.handler.free = false → s.handler ≠ .dropped →
      (retryMachine debug leaders).step s (.handler sent) = none → s.lock = some .refresher) ∧
    (∀ fetched, s.refresher ≠ .returned →
      (retryMachine debug leaders).step s (.refresher fetched) = none → s.lock = some .handler) ∧
    ∀ owner, s.lock = some owner →
      (∀ a, owner.takes a = true → ∃ t, (retryMachine debug leaders).step s a = some t) ∧
      ∀ as t, (retryMachine debug leaders).run s as = some t → s.holdWork ≤ as.countP owner.takes →
        ∃ before u, before <+: as ∧ (retryMachine debug leaders).run s before = some u ∧
          u.lock ≠ some owner := by
  have hx := (reachable_inv h).exclusive
  refine ⟨fun sent hbusy hd hnone => handlerStep_eq_none hx hbusy hd hnone,
    fun fetched hr hnone => refresherStep_eq_none hx hr hnone, fun owner hl => ⟨?_, ?_⟩⟩
  · intro a ha
    by_contra hnone
    have hstuck : (retryMachine debug leaders).step s a = none :=
      Option.eq_none_iff_forall_ne_some.mpr fun t ht => hnone ⟨t, ht⟩
    -- a holder that were blocked would wait for the other
    have hlock : s.lock ≠ some owner := by
      cases owner with
      | handler =>
        obtain ⟨hbusy, hd⟩ := hx.in_call hl
        cases a with
        | handler sent => simp [handlerStep_eq_none hx hbusy hd hstuck]
        | _ => cases ha
      | refresher =>
        cases a with
        | refresher fetched => simp [refresherStep_eq_none hx (hx.runs hl) hstuck]
        | _ => cases ha
    exact hlock hl
  · intro as t hrun hle
    have hstep : ∀ u a v, Exclusive u → (retryMachine debug leaders).step u a = some v →
        Exclusive v ∧ (u.lock = some owner → v.lock = some owner →
          (if owner.takes a then 1 else 0) + v.holdWork ≤ u.holdWork) := fun u a v hu hv =>
      ⟨hu.move (move_of_step hv), fun hl hl' => holdWork_step hu hl hl' hv⟩
    exact Machine.exists_released owner.takes (fun u hu hlock => holdWork_pos hu hlock) hstep as hx hl hrun
      hle

/-- A second call comes while the batch of the first is sent again: it is
blocked, and after three steps of the retry thread it no longer is. -/
theorem waits_end_sweep : ∃ s t : State ℕ, (retryMachine false []).Reachable s ∧ s.handler = .locking [] ∧
    s.lock = some .refresher ∧ s.holdWork = 3 ∧
    (retryMachine false []).run s (List.replicate 3 (.refresher none)) = some t ∧
    ∃ before u, before <+: List.replicate 3 (.refresher none) ∧
      (retryMachine false []).run s before = some u ∧ u.lock ≠ some .refresher := by
  let call : Action ℕ := .call TransactionRequest.default
  obtain ⟨s, t, hs, ht, hplace, hlock, hwork⟩ : ∃ s t, (retryMachine false []).run (State.init [])
      (call :: List.replicate 6 (.handler true) ++ List.replicate 13 (.refresher (some [7])) ++ [call]) =
        some s ∧
      (retryMachine false []).run s (List.replicate 3 (.refresher none)) = some t ∧
      s.handler = .locking [] ∧ s.lock = some .refresher ∧ s.holdWork = 3 := ⟨_, _, rfl, rfl, by decide⟩
  have hr : (retryMachine false []).Reachable s := Machine.reachable_of_run hs
  refine ⟨s, t, hr, hplace, hlock, hwork, ht, ((waits_end hr).2.2 .refresher hlock).2 _ t ht ?_⟩
  rw [hwork]
  decide

end Quic
end Zerohop
