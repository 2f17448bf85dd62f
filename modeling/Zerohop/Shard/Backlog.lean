/-
# What is out of the queue

A send blocks on a full channel, so a reader whose worker lags stops popping:
between the queue and the workers there are never more keys than the batches
of the readers, the channels and the hands of the workers hold, however fast
keys are pushed. No step loses or copies an occurrence of a key: those that are
neither in the queue nor on their way have been looked up by the worker of
their shard, which has the key in its set from the first of them on.

Key definitions: `State.inFlight`, `State.held`, `Balanced`, `Bounded`.
Key theorem: `backlog_bounded`.
-/
import Mathlib.Algebra.BigOperators.Fin
import Zerohop.Lib.Parties
import Zerohop.Shard.Order

namespace Zerohop
namespace Shard

variable {cfg : Config}

namespace State

/-- The keys between the queue and the seen-sets. -/
def inFlight (s : State cfg) : List Pubkey :=
  (List.finRange cfg.nReaders).flatMap (fun r => (s.readers r).keys) ++
    (List.finRange cfg.nShards).flatMap fun j => (s.chans j).map Prod.snd ++ (s.workers j).hand

/-- How often a key is in the queue or in flight. -/
def held (s : State cfg) (key : Pubkey) : ℕ :=
  s.queue.count key + ∑ r, (s.readers r).keys.count key + ∑ j, ((s.chans j).map Prod.snd).count key +
    ∑ j, (s.workers j).hand.count key

theorem count_inFlight (s : State cfg) (key : Pubkey) :
    (s.queue ++ s.inFlight).count key = s.held key := by
  simp only [inFlight, held, List.count_append, List.count_flatMap, Fin.sum_univ_def, Function.comp_def]
  rw [List.sum_map_add]
  omega

/-! ### One place changes -/

theorem held_setReader (s : State cfg) (r : Fin cfg.nReaders) (reader : Reader) (key : Pubkey) :
    (s.setReader r reader).held key + (s.readers r).keys.count key = s.held key + reader.keys.count key := by
  have h := Parties.sum_update (fun x : Reader => x.keys.count key) s.readers r reader
  simp only [held, setReader]
  omega

theorem held_setWorker (s : State cfg) (j : Fin cfg.nShards) (worker : Worker) (key : Pubkey) :
    (s.setWorker j worker).held key + (s.workers j).hand.count key =
      s.held key + worker.hand.count key := by
  have h := Parties.sum_update (fun x : Worker => x.hand.count key) s.workers j worker
  simp only [held, setWorker]
  omega

theorem held_setChan (s : State cfg) (j : Fin cfg.nShards) (items : List (UInt64 × Pubkey))
    (key : Pubkey) :
    ({ s with chans := Function.update s.chans j items } : State cfg).held key +
      ((s.chans j).map Prod.snd).count key = s.held key + (items.map Prod.snd).count key := by
  have h := Parties.sum_update (fun x : List (UInt64 × Pubkey) => (x.map Prod.snd).count key) s.chans j items
  simp only [held]
  omega

theorem held_setQueue (s : State cfg) (queue : List Pubkey) (key : Pubkey) :
    ({ s with queue } : State cfg).held key + s.queue.count key = s.held key + queue.count key := by
  simp only [held]
  omega

theorem held_enqueue (s : State cfg) (j : Fin cfg.nShards) (hash : UInt64) (k key : Pubkey) :
    (s.enqueue j (hash, k)).held key = s.held key + [k].count key := by
  have h := held_setChan s j (s.chans j ++ [(hash, k)]) key
  rw [List.map_append, List.count_append] at h
  simp only [enqueue]
  simp only [List.map_cons, List.map_nil] at h
  omega

theorem held_turn {s : State cfg} {r : Fin cfg.nReaders} {reader : Reader}
    (hk : reader.keys = (s.readers r).keys) (key : Pubkey) :
    (s.setReader r reader).held key = s.held key := by
  have h := held_setReader s r reader key
  rw [hk] at h
  omega

theorem held_setWorker_of_hand {s : State cfg} {j : Fin cfg.nShards} {worker : Worker}
    (hw : worker.hand = (s.workers j).hand) (key : Pubkey) :
    (s.setWorker j worker).held key = s.held key := by
  have h := held_setWorker s j worker key
  rw [hw] at h
  omega

end State

open State

/-! ### No occurrence is lost or copied -/

/-- Some occurrences of a key have been looked up, and if any then its worker
has the key. -/
def Balanced (s : State cfg) (key : Pubkey) : Prop :=
  s.held key ≤ s.pushed.count key ∧
    (key ∈ s.seen (cfg.route key).2 ↔ s.held key < s.pushed.count key)

variable {s t : State cfg}

theorem Balanced.same {key : Pubkey} (h : Balanced s key) (hh : t.held key = s.held key)
    (hp : t.pushed = s.pushed) (hs : t.seen = s.seen) : Balanced t key := by
  unfold Balanced
  rw [hh, hp, hs]
  exact h

theorem Balanced.looked (ht : Traced s) {j : Fin cfg.nShards} {hash : UInt64} {k key : Pubkey}
    (hw : s.workers j = .inserting hash k) (h : Balanced s key) (hp : t.pushed = s.pushed)
    (hheld : t.held key + [k].count key = s.held key)
    (hseen : ∀ j' x, x ∈ t.seen j' ↔ j' = j ∧ x = k ∨ x ∈ s.seen j') : Balanced t key := by
  have hroute : cfg.route k = (hash, j) := by
    have hok := ht.workers j
    rw [hw] at hok
    exact hok.1
  unfold Balanced
  rw [hp, hseen, h.2]
  by_cases hk : key = k
  · subst hk
    rw [List.count_singleton_self] at hheld
    have hle := h.1
    refine ⟨by omega, ?_⟩
    rw [hroute]
    simp only [true_and, true_or, true_iff]
    omega
  · rw [List.count_singleton, beq_eq_false_iff_ne.mpr (Ne.symm hk)] at hheld
    simp only [Bool.false_eq_true, if_false, Nat.add_zero] at hheld
    rw [hheld]
    exact ⟨h.1, by simp [hk]⟩

theorem Balanced.move (hi : Inv s) (hm : Move s t) {key : Pubkey} (h : Balanced s key) :
    Balanced t key := by
  cases hm with
  | push k hd =>
    have hheld := held_setQueue s (s.queue ++ [k]) key
    rw [List.count_append] at hheld
    unfold Balanced at h ⊢
    simp only [List.count_append]
    have hsame : ({ s with queue := s.queue ++ [k], pushed := s.pushed ++ [k] } : State cfg).held key =
        ({ s with queue := s.queue ++ [k] } : State cfg).held key := rfl
    rw [hsame, h.2]
    omega
  | pop hq hk hr hr' he =>
    rename_i r reader k queue
    have hset := held_setReader { s with queue } r reader key
    have hpop := held_setQueue s queue key
    rw [hq, List.count_cons] at hpop
    simp only [hk, List.count_append, List.count_singleton] at hset
    exact h.same (by omega) rfl rfl
  | turn hk hr he hret => exact h.same (held_turn hk key) rfl rfl
  | send hk hr hr' he hw =>
    rename_i r reader k
    have hset := held_setReader (s.enqueue (cfg.route k).2 (cfg.hash k, k)) r reader key
    have henq := held_enqueue s (cfg.route k).2 (cfg.hash k) k key
    have hkeys : ((s.enqueue (cfg.route k).2 (cfg.hash k, k)).readers r).keys = k :: reader.keys := hk
    rw [hkeys, List.count_cons] at hset
    rw [List.count_singleton] at henq
    exact h.same (by omega) rfl rfl
  | lose hk hr hw => exact absurd hw (hi.shutdown.worker_runs hr _)
  | receive hw hc =>
    rename_i j hash k rest
    have hset := held_setWorker { s with chans := Function.update s.chans j rest } j (.inserting hash k) key
    have hchan := held_setChan s j rest key
    simp only [hc, List.map_cons, List.count_cons] at hchan
    simp only [hw, Worker.hand, List.count_nil, List.count_singleton] at hset
    exact h.same (by omega) rfl rfl
  | finish hw hc hd => exact h.same (held_setWorker_of_hand (by rw [hw]; rfl) key) rfl rfl
  | again hw hmem =>
    rename_i j hash k
    have hset := held_setWorker s j .receiving key
    simp only [hw, Worker.hand, List.count_nil] at hset
    refine h.looked hi.traced hw rfl hset fun j' x => (or_iff_right_of_imp ?_).symm
    -- the key is in the set already
    rintro ⟨rfl, rfl⟩
    exact hmem
  | insert hw hnew =>
    rename_i j hash k
    have hset := held_setWorker { s with seen := Function.update s.seen j (k :: s.seen j) } j
      (.calling hash k) key
    simp only [hw, Worker.hand, List.count_nil] at hset
    exact h.looked hi.traced hw rfl hset fun j' x => mem_update_cons
  | call hw => exact h.same (held_setWorker_of_hand (by rw [hw]; rfl) key) rfl rfl
  | _ => exact h

/-! ### What the places hold -/

/-- No batch and no channel is over its size. -/
structure Bounded (s : State cfg) : Prop where
  readers : ∀ r, (s.readers r).keys.length ≤ batchSize
  chans : ∀ j, (s.chans j).length ≤ channelCap

theorem Bounded.setReader (h : Bounded s) {r : Fin cfg.nReaders} {reader : Reader}
    (hk : reader.keys.length ≤ batchSize) : Bounded (s.setReader r reader) :=
  ⟨forall_update (P := fun _ x => (Reader.keys x).length ≤ batchSize) h.readers hk, h.chans⟩

/-- A send waits for room. -/
theorem Bounded.send (h : Bounded s) {key : Pubkey} (hs : s.send key = some t) : Bounded t := by
  simp only [State.send] at hs
  split_ifs at hs with hw hlen
  · cases hs
    exact h
  · cases hs
    refine ⟨h.readers, forall_update (P := fun _ l => List.length l ≤ channelCap) h.chans ?_⟩
    rw [List.length_append, List.length_singleton]
    exact hlen

theorem Bounded.sent (h : Bounded s) {r : Fin cfg.nReaders} {reader : Reader} {key : Pubkey}
    (hk : reader.keys.length ≤ batchSize)
    (hs : (s.send key).map (fun u => u.setReader r reader) = some t) : Bounded t := by
  obtain ⟨u, hu, rfl⟩ := Option.map_eq_some_iff.mp hs
  exact (h.send hu).setReader hk

/-- A reader pops for its batch only while there is room. -/
theorem Bounded.readerStep (h : Bounded s) {r : Fin cfg.nReaders} (hs : s.readerStep r = some t) :
    Bounded t := by
  have hr := h.readers r
  unfold State.readerStep at hs
  split at hs
  · rename_i batch hplace
    rw [hplace] at hr
    split_ifs at hs with hlen
    · split at hs <;> cases hs
      · rename_i key queue hq
        have hpop : Bounded ({ s with queue } : State cfg) := ⟨h.readers, h.chans⟩
        apply hpop.setReader
        rw [Reader.keys, List.length_append, List.length_singleton]
        exact hlen
      · exact h.setReader hr
    · cases hs
      exact h.setReader hr
  · rename_i key batch hplace
    rw [hplace] at hr
    have hrest : (Reader.routing batch).keys.length ≤ batchSize := Nat.le_of_succ_le hr
    exact h.sent hrest hs
  · cases hs
    exact h.setReader (Nat.zero_le _)
  · cases hs
    exact h.setReader (by split_ifs <;> exact Nat.zero_le _)
  · split at hs <;> cases hs
    · rename_i key queue hq
      have hpop : Bounded ({ s with queue } : State cfg) := ⟨h.readers, h.chans⟩
      exact hpop.setReader (show 1 ≤ batchSize by decide)
    · exact h.setReader (Nat.zero_le _)
  · exact h.sent (Nat.zero_le _) hs
  · cases hs

theorem Bounded.workerStep (h : Bounded s) {j : Fin cfg.nShards} (hs : s.workerStep j = some t) :
    Bounded t := by
  unfold State.workerStep at hs
  split at hs
  · split at hs
    · rename_i hash key rest hc
      cases hs
      refine ⟨h.readers, forall_update (P := fun _ l => List.length l ≤ channelCap) h.chans ?_⟩
      have hle := h.chans j
      rw [hc] at hle
      exact Nat.le_of_succ_le hle
    · split_ifs at hs
      cases hs
      exact ⟨h.readers, h.chans⟩
  · split_ifs at hs <;> cases hs <;> exact ⟨h.readers, h.chans⟩
  · cases hs
    exact ⟨h.readers, h.chans⟩
  · cases hs

theorem Bounded.step (h : Bounded s) {a : Action cfg} (hs : (pipeline cfg).step s a = some t) :
    Bounded t := by
  cases a with
  | push key =>
    simp only [pipeline, State.step] at hs
    split_ifs at hs
    cases hs
    exact ⟨h.readers, h.chans⟩
  | setDone =>
    simp only [pipeline, State.step] at hs
    split_ifs at hs
    cases hs
    exact ⟨h.readers, h.chans⟩
  | reader r => exact h.readerStep hs
  | worker j => exact h.workerStep hs
  | coordinator =>
    -- the coordinator moves nothing
    simp only [pipeline, State.step, State.coordinatorStep] at hs
    split at hs
    any_goals split_ifs at hs
    all_goals cases hs
    all_goals exact ⟨h.readers, h.chans⟩

theorem Bounded.inFlight_le (h : Bounded s) :
    s.inFlight.length ≤ cfg.nReaders * batchSize + cfg.nShards * (channelCap + 1) := by
  have hreaders : ∑ r, (s.readers r).keys.length ≤ cfg.nReaders * batchSize := by
    simpa using Finset.sum_le_card_nsmul Finset.univ (fun r => (s.readers r).keys.length) batchSize
      fun r _ => h.readers r
  have hshards : ∑ j, ((s.chans j).length + (s.workers j).hand.length) ≤
      cfg.nShards * (channelCap + 1) := by
    have hone : ∀ j ∈ Finset.univ, (s.chans j).length + (s.workers j).hand.length ≤ channelCap + 1 := by
      intro j _
      have hhand : (s.workers j).hand.length ≤ 1 := by
        cases s.workers j <;> simp [Worker.hand]
      exact Nat.add_le_add (h.chans j) hhand
    simpa using Finset.sum_le_card_nsmul Finset.univ _ _ hone
  calc s.inFlight.length
      = ∑ r, (s.readers r).keys.length + ∑ j, ((s.chans j).length + (s.workers j).hand.length) := by
        simp [inFlight, List.length_flatMap, Fin.sum_univ_def]
    _ ≤ cfg.nReaders * batchSize + cfg.nShards * (channelCap + 1) := Nat.add_le_add hreaders hshards

/-- **Back-pressure.** In every state of every run, at most one batch a reader
and one full channel and one key a worker are out of the queue and not yet
looked up; no occurrence of a key is there more often than it was pushed, and
a worker has a key in its set exactly if some occurrence of it has left. -/
theorem backlog_bounded (h : (pipeline cfg).Reachable s) :
    s.inFlight.length ≤ cfg.nReaders * batchSize + cfg.nShards * (channelCap + 1) ∧
    ∀ key, (s.queue ++ s.inFlight).count key ≤ s.pushed.count key ∧
      (key ∈ s.seen (cfg.route key).2 ↔ (s.queue ++ s.inFlight).count key < s.pushed.count key) := by
  have hinit : Bounded (State.init : State cfg) ∧ Inv (State.init : State cfg) ∧
      ∀ key, Balanced (State.init : State cfg) key := by
    refine ⟨⟨fun r => Nat.zero_le _, fun j => Nat.zero_le _⟩, inv_init, fun key => ?_⟩
    simp [Balanced, held, State.init, Reader.keys, Worker.hand]
  have hstep : ∀ (u : State cfg) (a : Action cfg) (v : State cfg),
      (Bounded u ∧ Inv u ∧ ∀ key, Balanced u key) → (pipeline cfg).step u a = some v →
      Bounded v ∧ Inv v ∧ ∀ key, Balanced v key := by
    rintro u a v ⟨hb, hi, hk⟩ hv
    exact ⟨hb.step hv, hi.move (move_of_step hv), fun key => (hk key).move hi (move_of_step hv)⟩
  obtain ⟨hb, -, hbalanced⟩ :=
    h.invariant (I := fun s => Bounded s ∧ Inv s ∧ ∀ key, Balanced s key) hinit hstep
  refine ⟨hb.inFlight_le, fun key => ?_⟩
  rw [count_inFlight]
  exact hbalanced key

/-- One of two occurrences of a key has been looked up, the other waits in the channel. -/
theorem backlog_bounded_two : ∃ s : State twoShards, (pipeline twoShards).Reachable s ∧
    s.inFlight = [oneKey] ∧ s.pushed = [oneKey, oneKey] ∧ oneKey ∈ s.seen (twoShards.route oneKey).2 ∧
      s.inFlight.length ≤ 1 * 256 + 2 * 65537 := by
  let reader : Action twoShards := .reader ⟨0, twoShards.readers_pos⟩
  let worker : Action twoShards := .worker (Fin.last 1)
  obtain ⟨s, hs, hf, hp, hq⟩ : ∃ s, (pipeline twoShards).run State.init
      ([.push oneKey, .push oneKey] ++ List.replicate 5 reader ++ [worker, worker]) = some s ∧
      s.inFlight = [oneKey] ∧ s.pushed = [oneKey, oneKey] ∧ s.queue = [] :=
    ⟨_, rfl, by decide, by decide, by decide⟩
  have hr : (pipeline twoShards).Reachable s := Machine.reachable_of_run hs
  obtain ⟨hbound, hkeys⟩ := backlog_bounded hr
  refine ⟨s, hr, hf, hp, (hkeys oneKey).2.mpr ?_, hbound⟩
  rw [hf, hp, hq]
  decide

end Shard
end Zerohop
