/-
# How often the background thread fetches and retries

The refresher of `Quic.Pending` in time. `thread::sleep` sleeps at least as
long as it is asked to, so a nap that starts at `t` is over no sooner than
50 ms later (`Paced`); everything else may take any time. A `Watch` beside the
machine records when the nap under way is over, when the last round ended and
how many fetches have failed since the last one that did not.

A failed fetch doubles the sleep, up to 5 s, and a good one puts it back to
400 ms; the thread fetches no sooner than that sleep after the round before
(`fetches_back_off`). So sweeps are 400 ms apart, a batch is alive for 30 s,
and no batch is in more than 75 sweeps, however many requests come in between
(`retries_bounded`).

Key definitions: `Watch`, `watched`, `Paced`.
-/
import Zerohop.Quic.Lifecycle

namespace Zerohop
namespace Quic

open Expiry

variable {Leader : Type}

/-- `Duration::from_millis(50)`. -/
def napNanos : ℕ := 50 * 1000000

/-- `wake`: the nap under way is over; `rested`: the last round has ended;
`failures`: the fetches that failed in a row. -/
structure Watch where
  wake : ℕ
  rested : ℕ
  failures : ℕ
deriving DecidableEq

/-- What a step notes on the watch. -/
def Watch.note (s : State Leader) (a : Action Leader) (w : Watch) : Watch :=
  match a, s.refresher with
  | .refresher _, .sleeping (_ + 1) => { w with wake := s.clock + napNanos }
  | .refresher (some _), .fetching => { w with failures := 0 }
  | .refresher none, .fetching => { w with rested := s.clock, failures := w.failures + 1 }
  | .refresher _, .retrying _ [] => { w with rested := s.clock }
  | _, _ => w

/-- The machine with a watch. -/
def watched (debug : Bool) (leaders : List Leader) : Machine (State Leader × Watch) (Action Leader) :=
  (retryMachine debug leaders).observed ⟨0, 0, 0⟩ Watch.note

/-- The refresher takes the step. -/
def Action.refreshes : Action Leader → Bool
  | .refresher _ => true
  | _ => false

/-- Between two naps, or in one. -/
def Refresher.napping : Refresher Leader → Bool
  | sleeping _ => true
  | _ => false

/-- The refresher goes on only when its nap is over. -/
def Paced (p : State Leader × Watch) (a : Action Leader) : Prop :=
  a.refreshes = true → p.1.refresher.napping = true → p.2.wake ≤ p.1.clock

instance (p : State Leader × Watch) (a : Action Leader) : Decidable (Paced p a) :=
  inferInstanceAs (Decidable (_ → _ → _))

/-! ### What a paced step can do to the refresher -/

/-- The moves of the refresher in time, and the others as far as it sees them. -/
inductive Beat (s : State Leader) (w : Watch) : State Leader → Watch → Prop
  /-- Time passes, or the handler goes on. -/
  | other {t : State Leader} : t.refresher = s.refresher → t.sleepMs = s.sleepMs →
      t.rounds = s.rounds → s.clock ≤ t.clock → Beat s w t w
  | nap {left : ℕ} {refresher : Refresher Leader} : s.refresher = .sleeping (left + 1) →
      w.wake ≤ s.clock → refresher = .returned ∨ refresher = .sleeping left →
      Beat s w { s with refresher } { w with wake := s.clock + napNanos }
  | wake : s.refresher = .sleeping 0 → w.wake ≤ s.clock →
      Beat s w { s with refresher := .fetching } w
  | fail : s.refresher = .fetching →
      Beat s w
        { s with
          sleepMs := min (s.sleepMs * 2) 5000
          refresher := .sleeping (naps (min (s.sleepMs * 2) 5000)) }
        { w with rested := s.clock, failures := w.failures + 1 }
  | fetch {leaders : List Leader} : s.refresher = .fetching →
      Beat s w { s with sleepMs := 400, refresher := .storing leaders } { w with failures := 0 }
  | store {leaders : List Leader} : s.refresher = .storing leaders →
      Beat s w { s with leaders, refresher := .stamping leaders } w
  | readNow {leaders : List Leader} : s.refresher = .stamping leaders →
      Beat s w { s with refresher := .locking leaders s.clock } w
  | lockSweep {leaders : List Leader} {now : ℕ} : s.refresher = .locking leaders now →
      Beat s w { s with refresher := .locked leaders now, lock := some .refresher } w
  | retain {leaders : List Leader} {now : ℕ} {pending : List PendingBatch}
      {todo : List (PendingBatch × Leader)} : s.refresher = .locked leaders now →
      Beat s w
        { s with pending, refresher := .retrying ⟨leaders, now, pending, []⟩ todo, lastNow := some now } w
  | retry {round : Round Leader} {item : PendingBatch × Leader} {todo : List (PendingBatch × Leader)} :
      s.refresher = .retrying round (item :: todo) →
      Beat s w { s with refresher := .retrying { round with sends := round.sends ++ [item] } todo } w
  | finish {round : Round Leader} : s.refresher = .retrying round [] →
      Beat s w
        { s with refresher := .sleeping (naps s.sleepMs), lock := none, rounds := s.rounds ++ [round] }
        { w with rested := s.clock }

theorem beat_of_refresherStep {fetched : Option (List Leader)} {s t : State Leader} {w : Watch}
    (hok : Paced (s, w) (.refresher fetched)) (h : s.refresherStep fetched = some t) :
    Beat s w t (Watch.note s (.refresher fetched) w) := by
  unfold State.refresherStep at h
  unfold Watch.note
  have hwake : s.refresher.napping = true → w.wake ≤ s.clock := hok rfl
  split at h
  · rename_i hr
    rw [hr] at hwake ⊢
    cases h
    exact .wake hr (hwake rfl)
  · rename_i left hr
    rw [hr] at hwake ⊢
    cases h
    refine .nap hr (hwake rfl) ?_
    split_ifs
    · exact Or.inl rfl
    · exact Or.inr rfl
  · rename_i hr
    rw [hr]
    split at h <;> cases h
    · exact .fetch hr
    · exact .fail hr
  · rename_i leaders hr
    rw [hr]
    cases h
    exact .store hr
  · rename_i leaders hr
    rw [hr]
    cases h
    exact .readNow hr
  · rename_i leaders now hr
    rw [hr]
    split at h <;> cases h
    exact .lockSweep hr
  · rename_i leaders now hr
    rw [hr]
    cases h
    exact .retain hr
  · rename_i round item todo hr
    rw [hr]
    cases h
    exact .retry hr
  · rename_i round hr
    rw [hr]
    cases h
    exact .finish hr
  · cases h

/-- **Every paced step is one of these.** -/
theorem beat_of_step {debug : Bool} {leaders : List Leader} {s t : State Leader} {w v : Watch}
    {a : Action Leader} (hok : Paced (s, w) a) (h : (watched debug leaders).step (s, w) a = some (t, v)) :
    Beat s w t v := by
  obtain ⟨h, rfl⟩ := Machine.observed_step_eq_some.mp h
  cases a with
  | tick nanos =>
    cases h
    exact .other rfl rfl rfl (Nat.le_add_right ..)
  | call request =>
    simp only [retryMachine, State.step] at h
    split_ifs at h
    split at h <;> cases h
    · exact .other rfl rfl rfl (Nat.le_refl _)
    · exact .other rfl rfl rfl (Nat.le_refl _)
  | handler sent =>
    obtain ⟨hr, hs, hrounds, hc, -⟩ := handlerStep_frame h
    exact .other hr hs hrounds hc.ge
  | refresher fetched => exact beat_of_refresherStep hok h
  | drop =>
    simp only [retryMachine, State.step] at h
    split_ifs at h
    cases h
    exact .other rfl rfl rfl (Nat.le_refl _)

/-! ### The sleep before a fetch -/

theorem naps_mul {ms : ℕ} (hdvd : 50 ∣ ms) (hpos : 0 < ms) : naps ms * napNanos = ms * 1000000 := by
  obtain ⟨n, rfl⟩ := hdvd
  have : max (50 * n / 50) 1 = n := by
    rw [Nat.mul_div_cancel_left n (by decide)]
    omega
  rw [naps, this, napNanos]
  omega

/-- The sleep after that many failures. -/
def backoffMs (failures : ℕ) : ℕ := min (400 * 2 ^ failures) 5000

theorem backoffMs_succ (failures : ℕ) : backoffMs (failures + 1) = min (backoffMs failures * 2) 5000 := by
  unfold backoffMs
  rw [Nat.pow_succ]
  omega

theorem naps_backoffMs (failures : ℕ) :
    naps (backoffMs failures) * napNanos = backoffMs failures * 1000000 := by
  have hpow : 0 < 2 ^ failures := Nat.two_pow_pos failures
  apply naps_mul
  · rcases Nat.le_total (400 * 2 ^ failures) 5000 with h | h
    · rw [backoffMs, Nat.min_eq_left h]
      exact Nat.dvd_mul_right_of_dvd (by decide) _
    · rw [backoffMs, Nat.min_eq_right h]
      decide
  · unfold backoffMs
    omega

theorem le_backoffMs (failures : ℕ) : 400 ≤ backoffMs failures := by
  have hpow : 0 < 2 ^ failures := Nat.two_pow_pos failures
  unfold backoffMs
  omega

/-- Of a sleep that began when the last round ended, the naps that are over
and the one under way. -/
structure Backed (s : State Leader) (w : Watch) : Prop where
  sleepMs : s.sleepMs = backoffMs w.failures
  rested : w.rested ≤ s.clock
  sleeping : ∀ left, s.refresher = .sleeping left → left ≤ naps s.sleepMs ∧
    w.rested + (naps s.sleepMs - left) * napNanos ≤ max w.wake s.clock
  fetching : s.refresher = .fetching → w.rested + naps s.sleepMs * napNanos ≤ s.clock

theorem Backed.beat {s t : State Leader} {w v : Watch} (h : Backed s w) (hb : Beat s w t v) :
    Backed t v := by
  cases hb with
  | other hr hs _ hc =>
    refine ⟨hs.trans h.sleepMs, Nat.le_trans h.rested hc, ?_, ?_⟩
    · intro left hl
      obtain ⟨h1, h2⟩ := h.sleeping left (hr.symm.trans hl)
      rw [hs]
      exact ⟨h1, by omega⟩
    · intro hf
      rw [hs]
      exact Nat.le_trans (h.fetching (hr.symm.trans hf)) hc
  | @nap left refresher hr hw hnext =>
    obtain ⟨h1, h2⟩ := h.sleeping (left + 1) hr
    refine ⟨h.sleepMs, h.rested, ?_, ?_⟩
    · intro left' hl
      obtain rfl : left' = left := by
        rcases hnext with rfl | rfl
        · cases hl
        · cases hl
          rfl
      -- the nap before is over, and one more is under way
      have hstep : (naps s.sleepMs - left') * napNanos =
          (naps s.sleepMs - (left' + 1)) * napNanos + napNanos := by
        rw [← Nat.succ_mul]
        congr 1
        omega
      rw [Nat.max_eq_right hw] at h2
      refine ⟨Nat.le_of_succ_le h1, ?_⟩
      simp only [hstep]
      omega
    · intro hf
      rcases hnext with rfl | rfl <;> cases hf
  | wake hr hw =>
    obtain ⟨-, h2⟩ := h.sleeping 0 hr
    rw [Nat.max_eq_right hw, Nat.sub_zero] at h2
    exact ⟨h.sleepMs, h.rested, nofun, fun _ => h2⟩
  | fail hr =>
    refine ⟨?_, Nat.le_refl _, ?_, nofun⟩
    · rw [backoffMs_succ, ← h.sleepMs]
    · intro left hl
      cases hl
      rw [Nat.sub_self, Nat.zero_mul]
      exact ⟨Nat.le_refl _, Nat.le_max_right ..⟩
  | fetch hr => exact ⟨rfl, h.rested, nofun, nofun⟩
  | finish hr =>
    refine ⟨h.sleepMs, Nat.le_refl _, ?_, nofun⟩
    intro left hl
    cases hl
    rw [Nat.sub_self, Nat.zero_mul]
    exact ⟨Nat.le_refl _, Nat.le_max_right ..⟩
  | _ => exact ⟨h.sleepMs, h.rested, nofun, nofun⟩

/-! ### The sweeps are apart -/

/-- `400` ms, the sleep after a good fetch. -/
def refreshNanos : ℕ := 400 * 1000000

/-- The time from which the sweep under way takes its `now`. -/
def State.sweepTime (s : State Leader) : Option ℕ :=
  match s.refresher with
  | .storing _ => some s.clock
  | .stamping _ => some s.clock
  | .locking _ now => some now
  | .locked _ now => some now
  | .retrying round _ => some round.now
  | _ => none

/-- The later sweep is 400 ms after the other and after all that it has kept. -/
def Apart (round later : Round Leader) : Prop :=
  round.now + refreshNanos ≤ later.now ∧ ∀ batch ∈ round.kept, batch.sentAt + refreshNanos ≤ later.now

structure Spaced (s : State Leader) (w : Watch) : Prop where
  underWay : ∀ now, s.sweepTime = some now → w.rested + refreshNanos ≤ now
  past : ∀ round ∈ s.rounds, round.now ≤ w.rested ∧ ∀ batch ∈ round.kept, batch.sentAt ≤ w.rested
  apart : s.rounds.Pairwise Apart

theorem Spaced.concat {s : State Leader} {w : Watch} (h : Spaced s w) {round : Round Leader}
    (hnow : w.rested + refreshNanos ≤ round.now) : (s.rounds ++ [round]).Pairwise Apart := by
  refine List.pairwise_append.mpr ⟨h.apart, List.pairwise_singleton _ _, ?_⟩
  intro before hb later hl
  obtain rfl := List.mem_singleton.mp hl
  obtain ⟨h1, h2⟩ := h.past before hb
  refine ⟨by omega, fun batch hbatch => ?_⟩
  have := h2 batch hbatch
  omega

theorem Spaced.same_time {s t : State Leader} {w : Watch} (h : Spaced s w)
    (ht : s.sweepTime = t.sweepTime) : ∀ now, t.sweepTime = some now → w.rested + refreshNanos ≤ now := by
  intro now hn
  exact h.underWay now (ht.trans hn)

theorem Spaced.beat {s t : State Leader} {w v : Watch} (hi : Inv s) (hbacked : Backed s w)
    (h : Spaced s w) (hb : Beat s w t v) : Spaced t v := by
  cases hb with
  | @other t hr hs hrounds hc =>
    refine ⟨?_, hrounds ▸ h.past, hrounds ▸ h.apart⟩
    intro now hn
    have hold := h.underWay
    simp only [State.sweepTime] at hold hn
    rw [hr] at hn
    cases hplace : s.refresher <;> simp only [hplace, Option.some.injEq, reduceCtorEq] at hn hold
    all_goals have := hold _ rfl; omega
  | nap hr hw hnext =>
    refine ⟨fun now hn => ?_, h.past, h.apart⟩
    rcases hnext with rfl | rfl <;> cases hn
  | wake hr hw => exact ⟨nofun, h.past, h.apart⟩
  | fail hr =>
    refine ⟨nofun, ?_, h.apart⟩
    intro round hround
    obtain ⟨h1, h2⟩ := h.past round hround
    exact ⟨Nat.le_trans h1 hbacked.rested, fun batch hb => Nat.le_trans (h2 batch hb) hbacked.rested⟩
  | fetch hr =>
    refine ⟨?_, h.past, h.apart⟩
    intro now hn
    obtain rfl : s.clock = now := Option.some.inj hn
    -- it has slept 400 ms or more
    have hslept := hbacked.fetching hr
    rw [hbacked.sleepMs, naps_backoffMs] at hslept
    have hle : refreshNanos ≤ backoffMs w.failures * 1000000 :=
      Nat.mul_le_mul_right 1000000 (le_backoffMs w.failures)
    exact Nat.le_trans (Nat.add_le_add_left hle w.rested) hslept
  | store hr => exact ⟨h.same_time (by rw [State.sweepTime, hr]; rfl), h.past, h.apart⟩
  | readNow hr => exact ⟨h.same_time (by rw [State.sweepTime, hr]; rfl), h.past, h.apart⟩
  | lockSweep hr => exact ⟨h.same_time (by rw [State.sweepTime, hr]; rfl), h.past, h.apart⟩
  | retain hr => exact ⟨h.same_time (by rw [State.sweepTime, hr]; rfl), h.past, h.apart⟩
  | retry hr => exact ⟨h.same_time (by rw [State.sweepTime, hr]; rfl), h.past, h.apart⟩
  | @finish round hr =>
    obtain ⟨hkept, hlast, -⟩ := hi.swept.retrying round [] hr
    have hnow := h.underWay round.now (by rw [State.sweepTime, hr])
    have hround : round.now ≤ s.clock := hi.timed.clock.sweep round.now hlast
    refine ⟨nofun, ?_, h.concat hnow⟩
    intro before hb
    rcases List.mem_append.mp hb with hb | hb
    · obtain ⟨h1, h2⟩ := h.past before hb
      exact ⟨Nat.le_trans h1 hbacked.rested,
        fun batch hbatch => Nat.le_trans (h2 batch hbatch) hbacked.rested⟩
    · obtain rfl := List.mem_singleton.mp hb
      refine ⟨hround, fun batch hbatch => hi.timed.clock.sentAt batch ?_⟩
      rw [hkept, hi.kept] at hbatch
      exact (List.mem_filter.mp hbatch).1

/-! ### All paced runs -/

section

variable {debug : Bool} {leaders : List Leader} {s : State Leader} {w : Watch}

theorem backed_spaced (h : (watched debug leaders).ReachableBy Paced (s, w)) :
    Inv s ∧ Backed s w ∧ Spaced s w := by
  suffices ∀ p, (watched debug leaders).ReachableBy Paced p → Inv p.1 ∧ Backed p.1 p.2 ∧ Spaced p.1 p.2 from
    this (s, w) h
  intro p hp
  refine hp.invariant (I := fun p => Inv p.1 ∧ Backed p.1 p.2 ∧ Spaced p.1 p.2) ?_ ?_
  · refine ⟨init_inv leaders, ⟨rfl, Nat.le_refl _, ?_, nofun⟩, nofun, nofun, List.Pairwise.nil⟩
    intro left hl
    cases hl
    refine ⟨Nat.le_refl _, ?_⟩
    change 0 + (naps 400 - naps 400) * napNanos ≤ max 0 0
    rw [Nat.sub_self, Nat.zero_mul]
    exact Nat.zero_le _
  · rintro ⟨s, w⟩ a ⟨t, v⟩ ⟨hi, hb, hs⟩ hok hstep
    have hbeat := beat_of_step hok hstep
    exact ⟨hi.move (move_of_step (Machine.observed_step_eq_some.mp hstep).1), hb.beat hbeat,
      hs.beat hi hb hbeat⟩

/-- **The background thread backs off.** Its sleep is 400 ms doubled for every
failure in a row, at most 5 s, and it fetches no sooner than that sleep after
the round before. -/
theorem fetches_back_off (h : (watched debug leaders).ReachableBy Paced (s, w)) :
    s.sleepMs = min (400 * 2 ^ w.failures) 5000 ∧
      (s.refresher = .fetching → w.rested + s.sleepMs * 1000000 ≤ s.clock) := by
  obtain ⟨-, hb, -⟩ := backed_spaced h
  refine ⟨hb.sleepMs, fun hf => ?_⟩
  have hslept := hb.fetching hf
  rwa [hb.sleepMs, naps_backoffMs, ← hb.sleepMs] at hslept

/-- The actions of a whole sleep of `n` naps. -/
def sleeps (n : ℕ) : List (Action Leader) :=
  (List.replicate n [.refresher none, .tick napNanos]).flatten ++ [.refresher none]

/-- A fetch fails, and the next one comes 800 ms later. -/
theorem fetches_back_off_once : ∃ (s : State ℕ) (w : Watch),
    (watched false []).ReachableBy Paced (s, w) ∧ s.refresher = .fetching ∧ w = ⟨1200000000, 400000000, 1⟩ ∧
      s.sleepMs = min (400 * 2 ^ w.failures) 5000 ∧
      (s.refresher = .fetching → w.rested + s.sleepMs * 1000000 ≤ s.clock) := by
  obtain ⟨s, w, hs, h⟩ : ∃ s w, ((watched false ([] : List ℕ)).guarded Paced).run (watched false []).init
      (sleeps 8 ++ .refresher none :: sleeps 16) = some (s, w) ∧
      s.refresher = .fetching ∧ w = ⟨1200000000, 400000000, 1⟩ := ⟨_, _, rfl, by decide⟩
  have hr : (watched false []).ReachableBy Paced (s, w) := Machine.reachableBy_of_run hs
  exact ⟨s, w, hr, h.1, h.2, fetches_back_off hr⟩

/-- The sweeps, the one under way last. -/
def State.sweeps (s : State Leader) : List (Round Leader) :=
  match s.refresher with
  | .retrying round _ => s.rounds ++ [round]
  | _ => s.rounds

/-- **No batch is in more than 75 sweeps**, however the threads run. -/
theorem retries_bounded (h : (watched debug leaders).ReachableBy Paced (s, w)) (batch : PendingBatch) :
    (s.sweeps.filter fun round => decide (batch ∈ round.kept)).length ≤ 75 := by
  obtain ⟨hi, -, hs⟩ := backed_spaced h
  have hspaced : s.sweeps.Pairwise Apart := by
    unfold State.sweeps
    split
    · rename_i round todo hr
      exact hs.concat (hs.underWay round.now (by rw [State.sweepTime, hr]))
    · exact hs.apart
  have halive : ∀ round ∈ s.sweeps, batch ∈ round.kept → round.now - batch.sentAt < pendingTxTtl := by
    intro round hround hbatch
    unfold State.sweeps at hround
    split at hround
    · rename_i current todo hr
      rcases List.mem_append.mp hround with hround | hround
      · exact (hi.swept.finished round hround).2 batch hbatch
      · obtain rfl := List.mem_singleton.mp hround
        obtain ⟨hkept, hlast, -⟩ := hi.swept.retrying round todo hr
        rw [hkept, hi.kept, hlast] at hbatch
        simpa [alive] using (List.mem_filter.mp hbatch).2
    · exact (hi.swept.finished round hround).2 batch hbatch
  rw [← List.length_map Round.now]
  have hborn : ((s.sweeps.filter fun round => decide (batch ∈ round.kept)).map Round.now).Pairwise
      fun t u => t + refreshNanos ≤ u ∧ batch.sentAt + refreshNanos ≤ u := by
    refine List.pairwise_map.mpr (List.Pairwise.imp_of_mem ?_ (hspaced.filter _))
    intro round later hround _ hapart
    exact ⟨hapart.1, hapart.2 batch (of_decide_eq_true (List.mem_filter.mp hround).2)⟩
  refine length_le_of_spaced (by decide) hborn ?_
  intro t ht
  obtain ⟨round, hround, rfl⟩ := List.mem_map.mp ht
  obtain ⟨hmem, hbatch⟩ := List.mem_filter.mp hround
  exact halive round hmem (of_decide_eq_true hbatch)

end

/-- A batch that a sweep is retrying. -/
theorem retries_bounded_sweep : ∃ (s : State ℕ) (w : Watch),
    (watched false []).ReachableBy Paced (s, w) ∧
      (s.sweeps.filter fun round => decide (⟨[], 0⟩ ∈ round.kept)).length = 1 ∧
      (s.sweeps.filter fun round => decide (⟨[], 0⟩ ∈ round.kept)).length ≤ 75 := by
  obtain ⟨s, w, hs, h⟩ : ∃ s w, ((watched false ([] : List ℕ)).guarded Paced).run (watched false []).init
      (.call TransactionRequest.default :: List.replicate 6 (.handler true) ++ sleeps 8 ++
        List.replicate 5 (.refresher (some [7]))) = some (s, w) ∧
      (s.sweeps.filter fun round => decide (⟨[], 0⟩ ∈ round.kept)).length = 1 := ⟨_, _, rfl, by decide⟩
  have hr : (watched false []).ReachableBy Paced (s, w) := Machine.reachableBy_of_run hs
  exact ⟨s, w, hr, h, retries_bounded hr ⟨[], 0⟩⟩

end Quic
end Zerohop
