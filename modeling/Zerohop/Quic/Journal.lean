/-
# What was called, fetched and sent

The life of a pending batch against what really happened. A journal beside the
machine takes down what the calls carried, what the clock showed where a batch
was stamped and where a round read it, the leader lists that the fetches
answered, the queue that each sweep found, and its sends. No step reads it.

So the batches accepted are those called, with the time of their stamp
(`Called`). Every list that a fetch answered is that of one round, in the order
of the fetches, finished or under way; its `now` is the time it read, it keeps
what is young enough of the queue it found, and its sends are those made
(`Answered`). With what the machine keeps this gives the whole life of a batch
(`reachable_lifecycle`).

Key definitions: `Journal`, `journaled`, `Lifecycle`.
-/
import Zerohop.Quic.Lifecycle

namespace Zerohop
namespace Quic

open Expiry

/-- The transactions of a batch. -/
abbrev Bundle := List (List UInt8)

variable {Leader : Type}

structure Journal (Leader : Type) where
  /-- What the calls carried. -/
  cuts : List Bundle
  /-- The clock at each `sent_at`. -/
  stamps : List ℕ
  /-- The leader lists that the fetches answered. -/
  answers : List (List Leader)
  /-- The clock at the `now` of each round. -/
  times : List ℕ
  /-- The queue that each sweep found. -/
  queues : List (List PendingBatch)
  /-- The sends of the sweeps. -/
  sends : List (PendingBatch × Leader)

def Journal.note (s : State Leader) (a : Action Leader) (log : Journal Leader) : Journal Leader :=
  match a with
  | .call request =>
    match request.cut with
    | some txs => { log with cuts := log.cuts ++ [txs] }
    | none => log
  | .handler _ =>
    match s.handler with
    | .locked _ => { log with stamps := log.stamps ++ [s.clock] }
    | _ => log
  | .refresher fetched =>
    match s.refresher, fetched with
    | .fetching, some leaders => { log with answers := log.answers ++ [leaders] }
    | .stamping _, _ => { log with times := log.times ++ [s.clock] }
    | .locked _ _, _ => { log with queues := log.queues ++ [s.pending] }
    | .retrying _ (item :: _), _ => { log with sends := log.sends ++ [item] }
    | _, _ => log
  | _ => log

/-- The machine with its journal. -/
def journaled (debug : Bool) (leaders : List Leader) :
    Machine (State Leader × Journal Leader) (Action Leader) :=
  (retryMachine debug leaders).observed ⟨[], [], [], [], [], []⟩ Journal.note

namespace Handler

/-- Cut and not yet queued. -/
def unqueued : Handler Leader → List Bundle
  | locking txs => [txs]
  | locked txs => [txs]
  | stamped txs _ => [txs]
  | _ => []

/-- The stamp of a batch not yet queued. -/
def stamp : Handler Leader → List ℕ
  | stamped _ sentAt => [sentAt]
  | _ => []

/-- The stamp that its next step takes. -/
def nextStamp (clock : ℕ) : Handler Leader → List ℕ
  | locked _ => [clock]
  | _ => []

end Handler

/-- What an action brings to be queued. -/
def Action.cuts : Action Leader → List Bundle
  | .call request => request.cut.toList
  | _ => []

namespace Refresher

/-- The answer to the last fetch, while its round is under way. -/
def answer : Refresher Leader → List (List Leader)
  | storing leaders => [leaders]
  | stamping leaders => [leaders]
  | locking leaders _ => [leaders]
  | locked leaders _ => [leaders]
  | retrying round _ => [round.leaders]
  | _ => []

/-- The `now` of the round under way, once it is read. -/
def time : Refresher Leader → List ℕ
  | locking _ now => [now]
  | locked _ now => [now]
  | retrying round _ => [round.now]
  | _ => []

/-- The sweep under way. -/
def sweep : Refresher Leader → List (Round Leader)
  | retrying round _ => [round]
  | _ => []

end Refresher

/-- The sweeps whose `retain` has run. -/
def State.swept (s : State Leader) : List (Round Leader) := s.rounds ++ s.refresher.sweep

/-- The round keeps what is young enough, at its `now`, of the queue it found. -/
def Round.Retains (round : Round Leader) (queue : List PendingBatch) : Prop :=
  round.kept = queue.filter fun batch => decide (round.now - batch.sentAt < pendingTxTtl)

/-- What is accepted was called, and was stamped with the clock. -/
structure Called (s : State Leader) (log : Journal Leader) : Prop where
  batches : s.accepted.map PendingBatch.txs ++ s.handler.unqueued = log.cuts
  stamps : s.accepted.map PendingBatch.sentAt ++ s.handler.stamp = log.stamps

/-- Each answer has its round, and the rounds are what happened. -/
structure Answered (s : State Leader) (log : Journal Leader) : Prop where
  answers : s.rounds.map Round.leaders ++ s.refresher.answer = log.answers
  times : s.rounds.map Round.now ++ s.refresher.time = log.times
  queues : List.Forall₂ Round.Retains s.swept log.queues
  sends : s.swept.flatMap Round.sends = log.sends
  lastNow : s.lastNow = (s.swept.map Round.now).getLast?

section

variable {debug : Bool} {s t : State Leader} {log : Journal Leader}

/-! ### The handler's side -/

theorem Handler.unqueued_of_free {handler : Handler Leader} (h : handler.free = true) :
    handler.unqueued = [] ∧ handler.stamp = [] := by
  cases handler with
  | idle => exact ⟨rfl, rfl⟩
  | panicked => exact ⟨rfl, rfl⟩
  | _ => cases h

/-- The handler's steps take a batch to the queue, and stamp it on the way. -/
theorem handlerStep_queued {sent : Bool} (hs : s.handlerStep debug sent = some t) :
    t.accepted.map PendingBatch.txs ++ t.handler.unqueued =
        s.accepted.map PendingBatch.txs ++ s.handler.unqueued ∧
      t.accepted.map PendingBatch.sentAt ++ t.handler.stamp =
        s.accepted.map PendingBatch.sentAt ++ s.handler.stamp ++ s.handler.nextStamp s.clock := by
  cases hh : s.handler with
  | locking txs =>
    simp only [State.handlerStep, hh] at hs
    split at hs <;> cases hs
    simp [Handler.unqueued, Handler.stamp, Handler.nextStamp]
  | locked txs =>
    simp only [State.handlerStep, hh] at hs
    cases hs
    simp [Handler.unqueued, Handler.stamp, Handler.nextStamp]
  | stamped txs sentAt =>
    simp only [State.handlerStep, hh] at hs
    cases hs
    simp [Handler.unqueued, Handler.stamp, Handler.nextStamp]
  | pushed txs =>
    simp only [State.handlerStep, hh] at hs
    cases hs
    exact ⟨rfl, (List.append_nil _).symm⟩
  | snapshotting txs =>
    simp only [State.handlerStep, hh] at hs
    cases hs
    exact ⟨rfl, (List.append_nil _).symm⟩
  | sending txs leaders sentCount =>
    simp only [State.handlerStep, hh] at hs
    cases hs
    unfold State.send
    split
    · exact ⟨rfl, (List.append_nil _).symm⟩
    · split_ifs <;> exact ⟨rfl, (List.append_nil _).symm⟩
  | idle => simp [State.handlerStep, hh] at hs
  | panicked => simp [State.handlerStep, hh] at hs
  | dropped => simp [State.handlerStep, hh] at hs

/-- **What is accepted or on its way** grows by what is called, and by nothing else. -/
theorem queued_step {leaders : List Leader} {a : Action Leader}
    (hs : (retryMachine debug leaders).step s a = some t) :
    t.accepted.map PendingBatch.txs ++ t.handler.unqueued =
      s.accepted.map PendingBatch.txs ++ s.handler.unqueued ++ a.cuts := by
  cases a with
  | tick nanos =>
    cases hs
    exact (List.append_nil _).symm
  | call request =>
    simp only [retryMachine, State.step] at hs
    split_ifs at hs with hf
    obtain ⟨hu, -⟩ := Handler.unqueued_of_free hf
    rw [hu, List.append_nil]
    split at hs <;> rename_i hcut <;> cases hs
    · simp [Action.cuts, hcut, Handler.unqueued]
    · simp [Action.cuts, hcut, Handler.unqueued]
  | handler sent =>
    rw [(handlerStep_queued hs).1]
    exact (List.append_nil _).symm
  | refresher fetched =>
    obtain ⟨hh, -, ha⟩ := refresherStep_frame hs
    rw [hh, ha]
    exact (List.append_nil _).symm
  | drop =>
    simp only [retryMachine, State.step] at hs
    split_ifs at hs with hf
    cases hs
    obtain ⟨hu, -⟩ := Handler.unqueued_of_free hf
    rw [hu, List.append_nil]
    rfl

/-- The stamps of the queued batches and of the one on its way are those taken. -/
theorem stamps_step {leaders : List Leader} {a : Action Leader} (log : Journal Leader)
    (hs : (retryMachine debug leaders).step s a = some t) :
    ∃ stamps, (log.note s a).stamps = log.stamps ++ stamps ∧
      t.accepted.map PendingBatch.sentAt ++ t.handler.stamp =
        s.accepted.map PendingBatch.sentAt ++ s.handler.stamp ++ stamps := by
  cases a with
  | tick nanos =>
    cases hs
    exact ⟨[], (List.append_nil _).symm, (List.append_nil _).symm⟩
  | call request =>
    simp only [retryMachine, State.step] at hs
    split_ifs at hs with hf
    obtain ⟨-, hst⟩ := Handler.unqueued_of_free hf
    refine ⟨[], ?_, ?_⟩
    · unfold Journal.note
      dsimp only
      split <;> exact (List.append_nil _).symm
    · rw [hst, List.append_nil]
      split at hs <;> cases hs
      · rfl
      · rfl
  | handler sent =>
    refine ⟨s.handler.nextStamp s.clock, ?_, (handlerStep_queued hs).2⟩
    unfold Journal.note
    cases s.handler <;> simp [Handler.nextStamp]
  | refresher fetched =>
    obtain ⟨hh, -, ha⟩ := refresherStep_frame hs
    refine ⟨[], ?_, ?_⟩
    · unfold Journal.note
      dsimp only
      split <;> exact (List.append_nil _).symm
    · rw [hh, ha]
      exact (List.append_nil _).symm
  | drop =>
    simp only [retryMachine, State.step] at hs
    split_ifs at hs with hf
    cases hs
    obtain ⟨-, hst⟩ := Handler.unqueued_of_free hf
    refine ⟨[], (List.append_nil _).symm, ?_⟩
    rw [hst, List.append_nil]
    rfl

theorem Journal.note_cuts (log : Journal Leader) (s : State Leader) (a : Action Leader) :
    (log.note s a).cuts = log.cuts ++ a.cuts := by
  unfold Journal.note Action.cuts
  cases a with
  | call request =>
    dsimp only
    split <;> rename_i hcut <;> simp [hcut]
  | handler sent =>
    dsimp only
    split <;> exact (List.append_nil _).symm
  | refresher fetched =>
    dsimp only
    split <;> exact (List.append_nil _).symm
  | tick nanos => exact (List.append_nil _).symm
  | drop => exact (List.append_nil _).symm

theorem Called.step {leaders : List Leader} {a : Action Leader} (h : Called s log)
    (hs : (retryMachine debug leaders).step s a = some t) : Called t (log.note s a) := by
  obtain ⟨stamps, hlog, hstamps⟩ := stamps_step log hs
  constructor
  · rw [queued_step hs, log.note_cuts, h.batches]
  · rw [hstamps, hlog, h.stamps]

/-! ### The refresher's side -/

theorem Answered.same (h : Answered s log) (hr : t.rounds = s.rounds)
    (ha : t.refresher.answer = s.refresher.answer) (ht : t.refresher.time = s.refresher.time)
    (hw : t.refresher.sweep = s.refresher.sweep) (hl : t.lastNow = s.lastNow) : Answered t log := by
  have hswept : t.swept = s.swept := by rw [State.swept, State.swept, hr, hw]
  exact ⟨by rw [hr, ha, h.answers], by rw [hr, ht, h.times], by rw [hswept]; exact h.queues,
    by rw [hswept, h.sends], by rw [hl, hswept, h.lastNow]⟩

/-- A fetch is answered, and its round begins. -/
theorem Answered.fetch (h : Answered s log) (hf : s.refresher = .fetching) (leaders : List Leader) :
    Answered { s with sleepMs := 400, refresher := .storing leaders }
      { log with answers := log.answers ++ [leaders] } := by
  obtain ⟨hanswers, htimes, hqueues, hsends, hlast⟩ := h
  unfold State.swept at hqueues hsends hlast
  rw [hf] at hanswers htimes hqueues hsends hlast
  rw [show (Refresher.fetching : Refresher Leader).answer = [] from rfl, List.append_nil] at hanswers
  exact ⟨congrArg (· ++ [leaders]) hanswers, htimes, hqueues, hsends, hlast⟩

theorem Answered.readNow (h : Answered s log) {leaders : List Leader}
    (hf : s.refresher = .stamping leaders) :
    Answered { s with refresher := .locking leaders s.clock }
      { log with times := log.times ++ [s.clock] } := by
  obtain ⟨hanswers, htimes, hqueues, hsends, hlast⟩ := h
  unfold State.swept at hqueues hsends hlast
  rw [hf] at hanswers htimes hqueues hsends hlast
  rw [show (Refresher.stamping leaders).time = [] from rfl, List.append_nil] at htimes
  exact ⟨hanswers, congrArg (· ++ [s.clock]) htimes, hqueues, hsends, hlast⟩

theorem Answered.retain (h : Answered s log) {leaders : List Leader} {now : ℕ}
    {pending : List PendingBatch} {todo : List (PendingBatch × Leader)}
    (hf : s.refresher = .locked leaders now) (hkept : (⟨leaders, now, pending, []⟩ : Round Leader).Retains
      s.pending) :
    Answered { s with pending, refresher := .retrying ⟨leaders, now, pending, []⟩ todo, lastNow := some now }
      { log with queues := log.queues ++ [s.pending] } := by
  obtain ⟨hanswers, htimes, hqueues, hsends, hlast⟩ := h
  unfold State.swept at hqueues hsends hlast
  rw [hf] at hanswers htimes hqueues hsends hlast
  rw [show (Refresher.locked leaders now).sweep = [] from rfl, List.append_nil] at hqueues hsends
  refine ⟨hanswers, htimes, ?_, ?_, ?_⟩
  · exact List.rel_append hqueues (.cons hkept .nil)
  · simp [State.swept, Refresher.sweep, hsends]
  · simp [State.swept, Refresher.sweep]

/-- The last entry on the left may be exchanged for one that relates as it does. -/
theorem forall₂_concat_imp {α β : Type} {R : α → β → Prop} {x y : α} {l : List α} {m : List β}
    (h : List.Forall₂ R (l ++ [x]) m) (hxy : ∀ z, R x z → R y z) : List.Forall₂ R (l ++ [y]) m := by
  induction l generalizing m with
  | nil =>
    cases h with
    | cons hx hnil => exact .cons (hxy _ hx) hnil
  | cons a l ih =>
    cases h with
    | cons ha hrest => exact .cons ha (ih hrest)

theorem Answered.retry (h : Answered s log) {round : Round Leader} {item : PendingBatch × Leader}
    {todo : List (PendingBatch × Leader)} (hf : s.refresher = .retrying round (item :: todo)) :
    Answered { s with refresher := .retrying { round with sends := round.sends ++ [item] } todo }
      { log with sends := log.sends ++ [item] } := by
  obtain ⟨hanswers, htimes, hqueues, hsends, hlast⟩ := h
  unfold State.swept at hqueues hsends hlast
  rw [hf] at hanswers htimes hqueues hsends hlast
  refine ⟨hanswers, htimes, ?_, ?_, ?_⟩
  · -- what a sweep retains is not changed by its sends
    have hqueues' : List.Forall₂ Round.Retains (s.rounds ++ [round]) log.queues := hqueues
    exact forall₂_concat_imp (y := { round with sends := round.sends ++ [item] }) hqueues' fun _ hq => hq
  · simp only [State.swept, Refresher.sweep, List.flatMap_append, List.flatMap_singleton] at hsends ⊢
    rw [← hsends, List.append_assoc]
  · simpa [State.swept, Refresher.sweep] using hlast

theorem Answered.finish (h : Answered s log) {round : Round Leader} (hf : s.refresher = .retrying round []) :
    Answered { s with
      refresher := .sleeping (naps s.sleepMs)
      lock := none
      rounds := s.rounds ++ [round] } log := by
  have hswept : s.swept = s.rounds ++ [round] ++ [] := by
    rw [State.swept, hf, List.append_nil]
    rfl
  obtain ⟨hanswers, htimes, hqueues, hsends, hlast⟩ := h
  rw [hf] at hanswers htimes
  rw [hswept] at hqueues hsends hlast
  refine ⟨?_, ?_, hqueues, hsends, hlast⟩
  · rw [List.map_append]
    exact (List.append_nil _).trans hanswers
  · rw [List.map_append]
    exact (List.append_nil _).trans htimes

theorem Answered.refresherStep (h : Answered s log) {fetched : Option (List Leader)}
    (hs : s.refresherStep fetched = some t) : Answered t (log.note s (.refresher fetched)) := by
  unfold State.refresherStep at hs
  unfold Journal.note
  split at hs
  · rename_i hr
    cases hs
    simp only [hr]
    exact h.same rfl (by rw [hr]; rfl) (by rw [hr]; rfl) (by rw [hr]; rfl) rfl
  · rename_i left hr
    cases hs
    simp only [hr]
    split_ifs
    · exact h.same rfl (by rw [hr]; rfl) (by rw [hr]; rfl) (by rw [hr]; rfl) rfl
    · exact h.same rfl (by rw [hr]; rfl) (by rw [hr]; rfl) (by rw [hr]; rfl) rfl
  · rename_i hr
    simp only [hr]
    split at hs <;> cases hs
    · exact h.fetch hr _
    · exact h.same rfl (by rw [hr]; rfl) (by rw [hr]; rfl) (by rw [hr]; rfl) rfl
  · rename_i leaders hr
    cases hs
    simp only [hr]
    exact h.same rfl (by rw [hr]; rfl) (by rw [hr]; rfl) (by rw [hr]; rfl) rfl
  · rename_i leaders hr
    cases hs
    simp only [hr]
    exact h.readNow hr
  · rename_i leaders now hr
    simp only [hr]
    split at hs <;> cases hs
    exact h.same rfl (by rw [hr]; rfl) (by rw [hr]; rfl) (by rw [hr]; rfl) rfl
  · rename_i leaders now hr
    cases hs
    simp only [hr]
    exact h.retain hr rfl
  · rename_i round item todo hr
    cases hs
    simp only [hr]
    exact h.retry hr
  · rename_i round hr
    cases hs
    simp only [hr]
    exact h.finish hr
  · cases hs

theorem Answered.step {leaders : List Leader} {a : Action Leader} (h : Answered s log)
    (hs : (retryMachine debug leaders).step s a = some t) : Answered t (log.note s a) := by
  cases a with
  | tick nanos =>
    cases hs
    exact h.same rfl rfl rfl rfl rfl
  | call request =>
    have hcall : ∀ cuts handler, Answered { s with handler } { log with cuts } :=
      fun _ _ => ⟨h.answers, h.times, h.queues, h.sends, h.lastNow⟩
    simp only [retryMachine, State.step] at hs
    split_ifs at hs
    unfold Journal.note
    cases hcut : request.cut with
    | some txs =>
      rw [hcut] at hs
      cases hs
      simp only [hcut]
      exact hcall _ _
    | none =>
      rw [hcut] at hs
      cases hs
      simp only [hcut]
      exact hcall _ _
  | handler sent =>
    obtain ⟨hr, -, hrounds, -, hlast⟩ := handlerStep_frame hs
    obtain ⟨h1, h2, h3, h4, h5⟩ : Answered t log :=
      h.same hrounds (by rw [hr]) (by rw [hr]) (by rw [hr]) hlast
    unfold Journal.note
    dsimp only
    split <;> exact ⟨h1, h2, h3, h4, h5⟩
  | refresher fetched => exact h.refresherStep hs
  | drop =>
    simp only [retryMachine, State.step] at hs
    split_ifs at hs
    cases hs
    exact h.same rfl rfl rfl rfl rfl

end

/-! ### All runs -/

/-- The life of the pending batches. The queue is what is young enough, at the
last sweep, of what was accepted; a sweep under way holds the queue and the
leaders stored, and has sent a part of its list; a finished one has sent all of
it; and all of this is what was called, fetched and sent. -/
structure Lifecycle (s : State Leader) (log : Journal Leader) : Prop where
  called : Called s log
  answered : Answered s log
  pending : s.pending = s.accepted.filter (alive PendingBatch.sentAt pendingTxTtl s.lastNow)
  suffix : s.pending <:+ s.accepted
  retrying : ∀ round todo, s.refresher = .retrying round todo →
    round.leaders = s.leaders ∧ round.kept = s.pending ∧ s.lastNow = some round.now ∧
      round.sends ++ todo = retries round.kept round.leaders
  finished : ∀ round ∈ s.rounds, round.Complete

section

variable {debug : Bool} {leaders : List Leader} {s : State Leader}

theorem reachable_noted {log : Journal Leader} (h : (journaled debug leaders).Reachable (s, log)) :
    Called s log ∧ Answered s log := by
  have hinit : Called (State.init leaders) ⟨[], [], [], [], [], []⟩ ∧
      Answered (State.init leaders) ⟨[], [], [], [], [], []⟩ :=
    ⟨⟨rfl, rfl⟩, rfl, rfl, .nil, rfl, rfl⟩
  refine h.invariant (I := fun p => Called p.1 p.2 ∧ Answered p.1 p.2) hinit ?_
  rintro p a q ⟨hcalled, hanswered⟩ hq
  obtain ⟨hs, hnote⟩ := Machine.observed_step_eq_some.mp hq
  rw [hnote]
  exact ⟨hcalled.step hs, hanswered.step hs⟩

/-- **In every reachable state**, whatever journal a run to it leaves, the queue
is what is alive of all batches accepted, a suffix of them; and every answer of
a fetch is the leader list of a round, which sends each batch of the queue to
each of those leaders, once. -/
theorem reachable_lifecycle (h : (retryMachine debug leaders).Reachable s) :
    (∃ log, (journaled debug leaders).Reachable (s, log)) ∧
      ∀ log, (journaled debug leaders).Reachable (s, log) → Lifecycle s log := by
  refine ⟨Machine.exists_observed _ _ h, ?_⟩
  intro log hlog
  obtain ⟨hcalled, hanswered⟩ := reachable_noted hlog
  obtain ⟨-, ht, hk, hs⟩ := reachable_inv h
  refine ⟨hcalled, hanswered, hk, ?_, ?_, hs.finished⟩
  · rw [hk]
    exact filter_alive_suffix _ ht.sorted
  · intro round todo hr
    exact ⟨(hs.leaders round.leaders (by rw [hr]; rfl)).symm, hs.retrying round todo hr⟩

end

/-- Three batches, the last two 30 s after the first, and a round that finds two
leaders: the first batch is dropped, and each of the others is sent again to the
one leader and then to the other. -/
theorem lifecycle_two_leaders : ∃ (s : State ℕ) (log : Journal ℕ),
    (journaled false []).Reachable (s, log) ∧ log.answers = [[7, 8]] ∧
    s.accepted = [⟨[], 0⟩, ⟨[], pendingTxTtl⟩, ⟨[], pendingTxTtl + 5⟩] ∧
    s.pending = [⟨[], pendingTxTtl⟩, ⟨[], pendingTxTtl + 5⟩] ∧
    log.sends = [(⟨[], pendingTxTtl⟩, 7), (⟨[], pendingTxTtl⟩, 8), (⟨[], pendingTxTtl + 5⟩, 7),
      (⟨[], pendingTxTtl + 5⟩, 8)] ∧
    Lifecycle s log := by
  let call : List (Action ℕ) := .call TransactionRequest.default :: List.replicate 6 (.handler true)
  let round : List (Action ℕ) := List.replicate 19 (.refresher (some [7, 8]))
  obtain ⟨s, log, hs, h⟩ : ∃ s log, (journaled false []).run (journaled false []).init
      (call ++ .tick pendingTxTtl :: call ++ .tick 5 :: call ++ round) = some (s, log) ∧
      log.answers = [[7, 8]] ∧
      s.accepted = [⟨[], 0⟩, ⟨[], pendingTxTtl⟩, ⟨[], pendingTxTtl + 5⟩] ∧
      s.pending = [⟨[], pendingTxTtl⟩, ⟨[], pendingTxTtl + 5⟩] ∧
      log.sends = [(⟨[], pendingTxTtl⟩, 7), (⟨[], pendingTxTtl⟩, 8), (⟨[], pendingTxTtl + 5⟩, 7),
        (⟨[], pendingTxTtl + 5⟩, 8)] := ⟨_, _, rfl, by decide⟩
  have hr : (journaled false []).Reachable (s, log) := Machine.reachable_of_run hs
  have hlife := (reachable_lifecycle (Machine.reachable_of_observed hr)).2 log hr
  exact ⟨s, log, hr, h.1, h.2.1, h.2.2.1, h.2.2.2, hlife⟩

end Quic
end Zerohop
