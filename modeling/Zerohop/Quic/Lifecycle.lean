/-
# The life of a pending batch

What one step of the handler and the refresher can do (`Move`), and what the
moves keep: one thread at a time is at the queue (`Exclusive`); a time read
later is no smaller, so a batch is stamped after those before it and after the
`now` of every sweep that has run (`Timed`); hence the queue is what is alive
of all batches accepted (`Kept`), and a sweep sends just what it has kept, to
each of the leaders stored (`Swept`).

Key theorems: `move_of_step`, `reachable_inv`.
-/
import Zerohop.Quic.Pending

namespace Zerohop
namespace Quic

open Expiry

variable {Leader : Type}

/-- The handler holds the lock of `pending`. -/
def Handler.holds : Handler Leader → Bool
  | locked _ => true
  | stamped _ _ => true
  | pushed _ => true
  | _ => false

namespace Refresher

/-- The refresher holds the lock of `pending`. -/
def holds : Refresher Leader → Bool
  | locked _ _ => true
  | retrying _ _ => true
  | _ => false

/-- The leaders it has stored in this round. -/
def fetched : Refresher Leader → Option (List Leader)
  | stamping leaders => some leaders
  | locking leaders _ => some leaders
  | locked leaders _ => some leaders
  | retrying round _ => some round.leaders
  | _ => none

/-- The time it has read for the sweep to come. -/
def now : Refresher Leader → Option ℕ
  | locking _ now => some now
  | locked _ now => some now
  | _ => none

end Refresher

theorem Handler.not_holds_of_free {handler : Handler Leader} (h : handler.free) :
    handler.holds = false := by
  cases handler <;> simp_all [Handler.free, Handler.holds]

/-! ### What a step can do -/

/-- The moves of the two threads. -/
inductive Move (s : State Leader) : State Leader → Prop
  | tick (nanos : ℕ) : Move s { s with clock := s.clock + nanos }
  /-- The handler goes on away from the queue. -/
  | turn {handler : Handler Leader} {stop : Bool} : s.handler.holds = false → handler.holds = false →
      Move s { s with handler, stop }
  | lock {txs : List (List UInt8)} : s.handler.holds = false → s.lock = none →
      Move s { s with handler := .locked txs, lock := some .handler }
  | stamp {txs : List (List UInt8)} : s.handler = .locked txs →
      Move s { s with handler := .stamped txs s.clock }
  | push {txs : List (List UInt8)} {sentAt : ℕ} : s.handler = .stamped txs sentAt →
      Move s { s with
        handler := .pushed txs
        pending := s.pending ++ [⟨txs, sentAt⟩]
        accepted := s.accepted ++ [⟨txs, sentAt⟩] }
  | unlock {txs : List (List UInt8)} : s.handler = .pushed txs →
      Move s { s with handler := .snapshotting txs, lock := none }
  /-- The refresher sleeps, fetches or stops. -/
  | rest {refresher : Refresher Leader} {sleepMs : ℕ} : s.refresher.holds = false →
      refresher.holds = false → refresher.fetched = none → refresher.now = none →
      Move s { s with refresher, sleepMs }
  | store {leaders : List Leader} : s.refresher.holds = false →
      Move s { s with leaders, refresher := .stamping leaders }
  | readNow {leaders : List Leader} : s.refresher = .stamping leaders →
      Move s { s with refresher := .locking leaders s.clock }
  | lockSweep {leaders : List Leader} {now : ℕ} : s.refresher = .locking leaders now → s.lock = none →
      Move s { s with refresher := .locked leaders now, lock := some .refresher }
  | retain {leaders : List Leader} {now : ℕ} {pending : List PendingBatch} :
      s.refresher = .locked leaders now →
      pending = s.pending.filter (alive PendingBatch.sentAt pendingTxTtl (some now)) →
      Move s { s with
        pending
        refresher := .retrying ⟨leaders, now, pending, []⟩ (retries pending leaders)
        lastNow := some now }
  | retry {round : Round Leader} {item : PendingBatch × Leader} {todo : List (PendingBatch × Leader)} :
      s.refresher = .retrying round (item :: todo) →
      Move s { s with refresher := .retrying { round with sends := round.sends ++ [item] } todo }
  | finish {round : Round Leader} : s.refresher = .retrying round [] →
      Move s { s with
        refresher := .sleeping (naps s.sleepMs)
        lock := none
        rounds := s.rounds ++ [round] }

theorem move_of_handlerStep {debug sent : Bool} {s t : State Leader}
    (h : s.handlerStep debug sent = some t) : Move s t := by
  unfold State.handlerStep at h
  split at h
  · rename_i txs hh
    split at h <;> cases h
    rename_i hl
    exact .lock (by rw [hh]; rfl) hl
  · rename_i txs hh
    cases h
    exact .stamp hh
  · rename_i txs sentAt hh
    cases h
    exact .push hh
  · rename_i txs hh
    cases h
    exact .unlock hh
  · rename_i txs hh
    cases h
    exact .turn (by rw [hh]; rfl) rfl
  · rename_i txs leaders sentCount hh
    cases h
    have hs : s.handler.holds = false := by rw [hh]; rfl
    unfold State.send
    split
    · exact .turn hs rfl
    · split_ifs
      · exact .turn hs rfl
      · exact .turn hs rfl
      · exact .turn hs rfl
  all_goals cases h

theorem move_of_refresherStep {fetched : Option (List Leader)} {s t : State Leader}
    (h : s.refresherStep fetched = some t) : Move s t := by
  unfold State.refresherStep at h
  split at h
  · rename_i hr
    cases h
    exact .rest (by rw [hr]; rfl) rfl rfl rfl
  · rename_i left hr
    cases h
    have hs : s.refresher.holds = false := by rw [hr]; rfl
    split_ifs
    · exact .rest hs rfl rfl rfl
    · exact .rest hs rfl rfl rfl
  · rename_i hr
    have hs : s.refresher.holds = false := by rw [hr]; rfl
    split at h <;> cases h
    · exact .rest hs rfl rfl rfl
    · exact .rest hs rfl rfl rfl
  · rename_i leaders hr
    cases h
    exact .store (by rw [hr]; rfl)
  · rename_i leaders hr
    cases h
    exact .readNow hr
  · rename_i leaders now hr
    split at h <;> cases h
    rename_i hl
    exact .lockSweep hr hl
  · rename_i leaders now hr
    cases h
    exact .retain hr rfl
  · rename_i round item todo hr
    cases h
    exact .retry hr
  · rename_i round hr
    cases h
    exact .finish hr
  · cases h

/-- The handler does not touch what is the refresher's own. -/
theorem handlerStep_frame {debug sent : Bool} {s t : State Leader}
    (h : s.handlerStep debug sent = some t) :
    t.refresher = s.refresher ∧ t.sleepMs = s.sleepMs ∧ t.rounds = s.rounds ∧ t.clock = s.clock ∧
      t.lastNow = s.lastNow := by
  unfold State.handlerStep at h
  split at h
  · split at h <;> cases h
    exact ⟨rfl, rfl, rfl, rfl, rfl⟩
  any_goals cases h <;> exact ⟨rfl, rfl, rfl, rfl, rfl⟩
  -- the loop that sends
  cases h
  unfold State.send
  split
  · exact ⟨rfl, rfl, rfl, rfl, rfl⟩
  · split_ifs <;> exact ⟨rfl, rfl, rfl, rfl, rfl⟩

/-- The refresher keeps off what is the handler's. -/
theorem refresherStep_frame {fetched : Option (List Leader)} {s t : State Leader}
    (h : s.refresherStep fetched = some t) :
    t.handler = s.handler ∧ t.stop = s.stop ∧ t.accepted = s.accepted := by
  unfold State.refresherStep at h
  split at h
  any_goals split at h
  all_goals cases h
  all_goals exact ⟨rfl, rfl, rfl⟩

/-- **Every step is one of the moves.** -/
theorem move_of_step {debug : Bool} {leaders : List Leader} {s t : State Leader} {a : Action Leader}
    (h : (retryMachine debug leaders).step s a = some t) : Move s t := by
  cases a with
  | tick nanos =>
    cases h
    exact .tick nanos
  | call request =>
    simp only [retryMachine, State.step] at h
    split_ifs at h with hf
    have hs := Handler.not_holds_of_free hf
    split at h <;> cases h
    · exact .turn hs rfl
    · exact .turn hs rfl
  | handler sent => exact move_of_handlerStep h
  | refresher fetched => exact move_of_refresherStep h
  | drop =>
    simp only [retryMachine, State.step] at h
    split_ifs at h with hf
    cases h
    exact .turn (Handler.not_holds_of_free hf) rfl

/-! ### One thread at the queue -/

/-- The lock says who is at the queue. -/
structure Exclusive (s : State Leader) : Prop where
  handler : s.handler.holds = true ↔ s.lock = some .handler
  refresher : s.refresher.holds = true ↔ s.lock = some .refresher

section

variable {s t : State Leader}

theorem Exclusive.not_both (h : Exclusive s) (hr : s.refresher.holds = true) :
    s.handler.holds = false := by
  have hl := h.refresher.mp hr
  rw [← Bool.not_eq_true, h.handler, hl]
  simp

theorem Exclusive.move (h : Exclusive s) (hm : Move s t) : Exclusive t := by
  have hh := h.handler
  have hr := h.refresher
  cases hm with
  | tick nanos => exact ⟨hh, hr⟩
  | turn h1 h2 =>
    rw [h1] at hh
    exact ⟨by simpa only [h2] using hh, hr⟩
  | lock h1 hl => exact ⟨by simp [Handler.holds], by simpa [hl] using hr⟩
  | stamp hs =>
    rw [hs] at hh
    exact ⟨hh, hr⟩
  | push hs =>
    rw [hs] at hh
    exact ⟨hh, hr⟩
  | unlock hs =>
    rw [hs] at hh
    have hl : s.lock = some .handler := hh.mp rfl
    exact ⟨by simp [Handler.holds], by simpa [hl] using hr⟩
  | rest h1 h2 _ _ =>
    rw [h1] at hr
    exact ⟨hh, by simpa only [h2] using hr⟩
  | store h1 =>
    rw [h1] at hr
    exact ⟨hh, hr⟩
  | readNow hs =>
    rw [hs] at hr
    exact ⟨hh, hr⟩
  | lockSweep hs hl => exact ⟨by simpa [hl] using hh, by simp [Refresher.holds]⟩
  | retain hs _ =>
    rw [hs] at hr
    exact ⟨hh, hr⟩
  | retry hs =>
    rw [hs] at hr
    exact ⟨hh, hr⟩
  | finish hs =>
    rw [hs] at hr
    have hl : s.lock = some .refresher := hr.mp rfl
    exact ⟨by simpa [hl] using hh, by simp [Refresher.holds]⟩

/-! ### Times read later are no smaller -/

/-- All batches accepted and all sweeps run are from time `now` or before. -/
structure Before (accepted : List PendingBatch) (lastNow : Option ℕ) (now : ℕ) : Prop where
  sentAt : ∀ batch ∈ accepted, batch.sentAt ≤ now
  sweep : ∀ last, lastNow = some last → last ≤ now

/-- The times that the threads have read, in their order. -/
structure Timed (s : State Leader) : Prop where
  clock : Before s.accepted s.lastNow s.clock
  stamped : ∀ txs sentAt, s.handler = .stamped txs sentAt →
    sentAt ≤ s.clock ∧ Before s.accepted s.lastNow sentAt
  now : ∀ now, s.refresher.now = some now → now ≤ s.clock ∧ ∀ last, s.lastNow = some last → last ≤ now
  sorted : s.accepted.Pairwise fun a b => a.sentAt ≤ b.sentAt

theorem Before.mono {accepted : List PendingBatch} {lastNow : Option ℕ} {now now' : ℕ}
    (h : Before accepted lastNow now) (hle : now ≤ now') : Before accepted lastNow now' :=
  ⟨fun batch hb => Nat.le_trans (h.sentAt batch hb) hle,
    fun last hl => Nat.le_trans (h.sweep last hl) hle⟩

theorem Timed.move (hx : Exclusive s) (h : Timed s) (hm : Move s t) : Timed t := by
  cases hm with
  | tick nanos =>
    have hle : s.clock ≤ s.clock + nanos := Nat.le_add_right ..
    refine ⟨h.clock.mono hle, ?_, ?_, h.sorted⟩
    · intro txs sentAt hs
      obtain ⟨h1, h2⟩ := h.stamped txs sentAt hs
      exact ⟨Nat.le_trans h1 hle, h2⟩
    · intro now hn
      obtain ⟨h1, h2⟩ := h.now now hn
      exact ⟨Nat.le_trans h1 hle, h2⟩
  | @turn handler stop _ h2 =>
    refine ⟨h.clock, ?_, h.now, h.sorted⟩
    intro txs sentAt hs
    rw [show handler = .stamped txs sentAt from hs] at h2
    cases h2
  | lock _ _ => exact ⟨h.clock, nofun, h.now, h.sorted⟩
  | stamp _ =>
    refine ⟨h.clock, ?_, h.now, h.sorted⟩
    intro txs sentAt hs
    cases hs
    exact ⟨Nat.le_refl _, h.clock⟩
  | @push txs sentAt hs =>
    -- the new batch is the last one accepted, and no sweep is from after its stamp
    obtain ⟨hle, hb⟩ := h.stamped txs sentAt hs
    refine ⟨⟨?_, h.clock.sweep⟩, nofun, h.now, ?_⟩
    · intro batch hbatch
      rcases List.mem_append.mp hbatch with hbatch | hbatch
      · exact h.clock.sentAt batch hbatch
      · obtain rfl := List.mem_singleton.mp hbatch
        exact hle
    · refine List.pairwise_append.mpr ⟨h.sorted, List.pairwise_singleton _ _, fun a ha b hb' => ?_⟩
      obtain rfl := List.mem_singleton.mp hb'
      exact hb.sentAt a ha
  | unlock _ => exact ⟨h.clock, nofun, h.now, h.sorted⟩
  | rest _ _ _ h4 => exact ⟨h.clock, h.stamped, fun now hn => absurd (h4.symm.trans hn) nofun, h.sorted⟩
  | store _ => exact ⟨h.clock, h.stamped, nofun, h.sorted⟩
  | readNow _ =>
    refine ⟨h.clock, h.stamped, ?_, h.sorted⟩
    intro now hn
    cases hn
    exact ⟨Nat.le_refl _, h.clock.sweep⟩
  | lockSweep hs _ =>
    refine ⟨h.clock, h.stamped, fun now hn => h.now now ?_, h.sorted⟩
    rw [hs]
    exact hn
  | @retain leaders now pending hs _ =>
    -- the sweep has the lock, so no batch is between its stamp and the queue
    obtain ⟨hle, -⟩ := h.now now (by rw [hs]; rfl)
    have hfree : s.handler.holds = false := hx.not_both (by rw [hs]; rfl)
    refine ⟨⟨h.clock.sentAt, ?_⟩, ?_, nofun, h.sorted⟩
    · intro last hl
      cases hl
      exact hle
    · intro txs sentAt hst
      rw [show s.handler = .stamped txs sentAt from hst] at hfree
      cases hfree
  | retry _ => exact ⟨h.clock, h.stamped, nofun, h.sorted⟩
  | finish _ => exact ⟨h.clock, h.stamped, nofun, h.sorted⟩

/-! ### The queue is what is alive -/

/-- What was alive, at the last sweep, of all batches accepted. -/
def Kept (s : State Leader) : Prop :=
  s.pending = s.accepted.filter (alive PendingBatch.sentAt pendingTxTtl s.lastNow)

theorem Kept.move (ht : Timed s) (h : Kept s) (hm : Move s t) : Kept t := by
  cases hm with
  | @push txs sentAt hs =>
    obtain ⟨-, hb⟩ := ht.stamped txs sentAt hs
    have hb' : ∀ last, s.lastNow = some last → last ≤ (⟨txs, sentAt⟩ : PendingBatch).sentAt := hb.sweep
    rw [Kept, filter_alive_append (by decide) hb', ← h]
  | @retain leaders now pending hs hp =>
    obtain ⟨-, hlast⟩ := ht.now now (by rw [hs]; rfl)
    rw [Kept, hp, h]
    exact filter_alive_filter hlast s.accepted
  | _ => exact h

/-! ### A sweep sends what it has kept -/

/-- All of the sweep's batches are young enough, and it has sent all of them
to all of its leaders. -/
def Round.Complete (round : Round Leader) : Prop :=
  round.sends = retries round.kept round.leaders ∧
    ∀ batch ∈ round.kept, round.now - batch.sentAt < pendingTxTtl

/-- The sweep under way holds its leaders and its batches, and has sent a part
of its list; a finished one has sent all of it. -/
structure Swept (s : State Leader) : Prop where
  leaders : ∀ leaders, s.refresher.fetched = some leaders → s.leaders = leaders
  retrying : ∀ round todo, s.refresher = .retrying round todo →
    round.kept = s.pending ∧ s.lastNow = some round.now ∧
      round.sends ++ todo = retries round.kept round.leaders
  finished : ∀ round ∈ s.rounds, round.Complete

theorem Swept.same_leaders (h : Swept s) {refresher : Refresher Leader}
    (hf : s.refresher.fetched = refresher.fetched) :
    ∀ leaders, refresher.fetched = some leaders → s.leaders = leaders := by
  intro leaders hl
  exact h.leaders leaders (hf.trans hl)

theorem Swept.move (hx : Exclusive s) (hk : Kept s) (h : Swept s) (hm : Move s t) : Swept t := by
  cases hm with
  | push hs =>
    refine ⟨h.leaders, ?_, h.finished⟩
    intro round todo hr
    have hfree := hx.not_both (by rw [show s.refresher = .retrying round todo from hr]; rfl)
    rw [hs] at hfree
    cases hfree
  | @rest refresher sleepMs _ h2 h3 _ =>
    refine ⟨fun leaders hl => absurd (h3.symm.trans hl) nofun, ?_, h.finished⟩
    intro round todo hr
    rw [show refresher = .retrying round todo from hr] at h2
    cases h2
  | store _ => exact ⟨fun leaders hl => Option.some.inj hl, nofun, h.finished⟩
  | readNow hs => exact ⟨h.same_leaders (by rw [hs]; rfl), nofun, h.finished⟩
  | lockSweep hs _ => exact ⟨h.same_leaders (by rw [hs]; rfl), nofun, h.finished⟩
  | @retain leaders now pending hs _ =>
    refine ⟨h.same_leaders (by rw [hs]; rfl), ?_, h.finished⟩
    intro round todo hr
    cases hr
    exact ⟨rfl, rfl, rfl⟩
  | @retry round item todo hs =>
    refine ⟨h.same_leaders (by rw [hs]; rfl), ?_, h.finished⟩
    intro round' todo' hr
    obtain ⟨h1, h2, h3⟩ := h.retrying round (item :: todo) hs
    cases hr
    exact ⟨h1, h2, by simpa using h3⟩
  | @finish round hs =>
    refine ⟨nofun, nofun, ?_⟩
    intro round' hr
    rcases List.mem_append.mp hr with hr | hr
    · exact h.finished round' hr
    · obtain rfl := List.mem_singleton.mp hr
      obtain ⟨h1, h2, h3⟩ := h.retrying round' [] hs
      rw [List.append_nil] at h3
      refine ⟨h3, ?_⟩
      intro batch hb
      -- what the sweep holds is the queue, and that is alive at its `now`
      rw [h1, hk, h2] at hb
      simpa [alive] using (List.mem_filter.mp hb).2
  | _ => exact ⟨h.leaders, h.retrying, h.finished⟩

end

/-! ### All runs -/

/-- The invariant of the machine. -/
structure Inv (s : State Leader) : Prop where
  exclusive : Exclusive s
  timed : Timed s
  kept : Kept s
  swept : Swept s

theorem init_inv (leaders : List Leader) : Inv (State.init leaders) where
  exclusive := ⟨by simp [State.init, Handler.holds], by simp [State.init, Refresher.holds]⟩
  timed := ⟨⟨nofun, nofun⟩, nofun, nofun, List.Pairwise.nil⟩
  kept := rfl
  swept := ⟨nofun, nofun, nofun⟩

theorem Inv.move {s t : State Leader} (h : Inv s) (hm : Move s t) : Inv t where
  exclusive := h.exclusive.move hm
  timed := h.timed.move h.exclusive hm
  kept := h.kept.move h.timed hm
  swept := h.swept.move h.exclusive h.kept hm

theorem reachable_inv {debug : Bool} {leaders : List Leader} {s : State Leader}
    (h : (retryMachine debug leaders).Reachable s) : Inv s :=
  h.invariant (init_inv leaders) fun _ _ _ hi hs => hi.move (move_of_step hs)

end Quic
end Zerohop
