/-
# The pipeline completes

Once `done` is set every step of the pipeline takes it closer to its end: a key
costs more the farther it is from `on_key`, a thread the more it has still to
do (`work`, `work_lt_of_step`), so every run is finite whatever the schedule.
And a state that no step leaves is the completed one (`stuck_iff`): a reader
waits only for a full channel, whose worker has something to receive, and with
all readers returned the senders are dropped, the workers end, and every join
succeeds.
-/
import Zerohop.Lib.Parties
import Zerohop.Shard.Delivery

namespace Zerohop
namespace Shard

open Machine Parties

variable {cfg : Config}

/-! ### The work left -/

/-- Four for each key in hand, and the phases to come. -/
def Reader.work : Reader → ℕ
  | collecting batch => 4 * batch.length + 4
  | routing batch => 4 * batch.length + 3
  | checking => 2
  | draining => 1
  | sending _ => 5
  | returned => 0

/-- Up to two for a received key, and one for the return. -/
def Worker.work : Worker → ℕ
  | receiving => 1
  | inserting _ _ => 3
  | calling _ _ => 2
  | finished => 0

/-- The joins to come. -/
def Coordinator.work (cfg : Config) : Coordinator → ℕ
  | joiningReaders i => cfg.nReaders - i + cfg.nShards + 2
  | joiningWorkers j => cfg.nShards - j + 1
  | completed => 0

/-- The work left in all: a key in the queue costs five, in a channel three. -/
def State.work (s : State cfg) : ℕ :=
  5 * s.queue.length + ∑ r, (s.readers r).work + 3 * ∑ j, (s.chans j).length +
    ∑ j, (s.workers j).work + s.coordinator.work cfg

/-- The channels closed, all threads returned, the completion message sent. -/
def Completed (s : State cfg) : Prop :=
  (∀ r, s.readers r = .returned) ∧ (∀ j, s.workers j = .finished) ∧ s.coordinator = .completed

theorem work_setReader (s : State cfg) (r : Fin cfg.nReaders) (x : Reader) :
    (s.setReader r x).work + (s.readers r).work = s.work + x.work := by
  have h := sum_update Reader.work s.readers r x
  simp only [State.work, State.setReader]
  omega

theorem work_setWorker (s : State cfg) (j : Fin cfg.nShards) (x : Worker) :
    (s.setWorker j x).work + (s.workers j).work = s.work + x.work := by
  have h := sum_update Worker.work s.workers j x
  simp only [State.work, State.setWorker]
  omega

theorem work_setChan (s : State cfg) (j : Fin cfg.nShards) (items : List (UInt64 × Pubkey)) :
    State.work { s with chans := Function.update s.chans j items } + 3 * (s.chans j).length =
      s.work + 3 * items.length := by
  have h := sum_update List.length s.chans j items
  simp only [State.work]
  omega

theorem work_pop {s : State cfg} {key : Pubkey} {queue : List Pubkey} (hq : s.queue = key :: queue) :
    State.work { s with queue } + 5 = s.work := by
  simp only [State.work, hq, List.length_cons]
  omega

theorem work_enqueue (s : State cfg) (j : Fin cfg.nShards) (item : UInt64 × Pubkey) :
    (s.enqueue j item).work = s.work + 3 := by
  have h := work_setChan s j (s.chans j ++ [item])
  have hsame : (s.enqueue j item).work =
      State.work { s with chans := Function.update s.chans j (s.chans j ++ [item]) } := rfl
  rw [List.length_append, List.length_singleton] at h
  omega

/-- A key that is sent costs three in its channel, or is lost. -/
theorem work_send {s t : State cfg} {key : Pubkey} (h : s.send key = some t) :
    t.work ≤ s.work + 3 ∧ t.readers = s.readers := by
  simp only [State.send] at h
  split_ifs at h with hw hlen
  · obtain rfl := Option.some.inj h
    exact ⟨Nat.le_add_right _ _, rfl⟩
  · obtain rfl := Option.some.inj h
    exact ⟨Nat.le_of_eq (work_enqueue s _ _), rfl⟩

/-! ### Every step takes work off -/

theorem done_of_step {s t : State cfg} {a : Action cfg} (hd : s.done = true)
    (h : s.step a = some t) : t.done = true := by
  cases move_of_step h with
  | setDone => rfl
  | _ => exact hd

theorem work_lt_of_sent {s t : State cfg} {r : Fin cfg.nReaders} {x : Reader} {key : Pubkey}
    (hx : x.work + 4 = (s.readers r).work)
    (h : (s.send key).map (fun u => u.setReader r x) = some t) : t.work < s.work := by
  obtain ⟨u, hu, rfl⟩ := Option.map_eq_some_iff.mp h
  obtain ⟨hle, hreaders⟩ := work_send hu
  have hset := work_setReader u r x
  rw [hreaders] at hset
  omega

theorem work_lt_of_readerStep {s t : State cfg} {r : Fin cfg.nReaders} (hd : s.done = true)
    (h : s.readerStep r = some t) : t.work < s.work := by
  have hset := fun x => work_setReader s r x
  unfold State.readerStep at h
  split at h
  · rename_i batch hr
    have hroute := hset (.routing batch)
    simp only [hr, Reader.work] at hroute
    split_ifs at h
    · split at h
      · rename_i key queue hq
        obtain rfl := Option.some.inj h
        have hpop := work_pop hq
        have hset' := work_setReader { s with queue } r (.collecting (batch ++ [key]))
        simp only [hr, Reader.work, List.length_append, List.length_singleton] at hset'
        omega
      · obtain rfl := Option.some.inj h
        omega
    · obtain rfl := Option.some.inj h
      omega
  · rename_i key batch hr
    refine work_lt_of_sent ?_ h
    simp only [hr, Reader.work, List.length_cons]
    omega
  · rename_i hr
    obtain rfl := Option.some.inj h
    have := hset .checking
    simp only [hr, Reader.work, List.length_nil] at this
    omega
  · rename_i hr
    rw [hd, if_pos rfl] at h
    obtain rfl := Option.some.inj h
    have := hset .draining
    simp only [hr, Reader.work] at this
    omega
  · rename_i hr
    split at h
    · rename_i key queue hq
      obtain rfl := Option.some.inj h
      have hpop := work_pop hq
      have hset' := work_setReader { s with queue } r (.sending key)
      simp only [hr, Reader.work] at hset'
      omega
    · obtain rfl := Option.some.inj h
      have := hset .returned
      simp only [hr, Reader.work] at this
      omega
  · rename_i key hr
    refine work_lt_of_sent ?_ h
    simp only [hr, Reader.work]
  · cases h

theorem work_lt_of_workerStep {s t : State cfg} {j : Fin cfg.nShards} (h : s.workerStep j = some t) :
    t.work < s.work := by
  have hset := fun x => work_setWorker s j x
  unfold State.workerStep at h
  split at h
  · rename_i hw
    split at h
    · rename_i hash key rest hc
      obtain rfl := Option.some.inj h
      have hchan := work_setChan s j rest
      have hset' := work_setWorker { s with chans := Function.update s.chans j rest } j
        (.inserting hash key)
      simp only [hw, Worker.work] at hset'
      rw [hc, List.length_cons] at hchan
      omega
    · split_ifs at h
      obtain rfl := Option.some.inj h
      have := hset .finished
      simp only [hw, Worker.work] at this
      omega
  · rename_i hash key hw
    split_ifs at h
    · obtain rfl := Option.some.inj h
      have := hset .receiving
      simp only [hw, Worker.work] at this
      omega
    · obtain rfl := Option.some.inj h
      have hset' := work_setWorker { s with seen := Function.update s.seen j (key :: s.seen j) } j
        (.calling hash key)
      have hsame : State.work { s with seen := Function.update s.seen j (key :: s.seen j) } = s.work := rfl
      simp only [hw, Worker.work] at hset'
      omega
  · rename_i hash key hw
    obtain rfl := Option.some.inj h
    have hset' := work_setWorker { s with calls := s.calls ++ [(⟨j, hash, key⟩ : Call)] } j .receiving
    have hsame : State.work { s with calls := s.calls ++ [(⟨j, hash, key⟩ : Call)] } = s.work := rfl
    simp only [hw, Worker.work] at hset'
    omega
  · cases h

theorem work_lt_of_coordinatorStep {s t : State cfg} (h : s.coordinatorStep = some t) :
    t.work < s.work := by
  unfold State.coordinatorStep at h
  split at h
  · rename_i i hc
    split_ifs at h with hi hr
    · obtain rfl := Option.some.inj h
      simp only [State.work, hc, Coordinator.work]
      omega
    · obtain rfl := Option.some.inj h
      simp only [State.work, hc, Coordinator.work]
      omega
  · rename_i i hc
    split_ifs at h with hi hr
    · obtain rfl := Option.some.inj h
      simp only [State.work, hc, Coordinator.work]
      omega
    · obtain rfl := Option.some.inj h
      simp only [State.work, hc, Coordinator.work]
      omega
  · cases h

/-- **Once `done` is set every step takes work off**, and `done` stays set. -/
theorem work_lt_of_step {s t : State cfg} {a : Action cfg} (hd : s.done = true)
    (h : s.step a = some t) : t.done = true ∧ t.work < s.work := by
  refine ⟨done_of_step hd h, ?_⟩
  cases a with
  | push key => simp [State.step, hd] at h
  | setDone => simp [State.step, hd] at h
  | reader r => exact work_lt_of_readerStep hd h
  | worker j => exact work_lt_of_workerStep h
  | coordinator => exact work_lt_of_coordinatorStep h

/-! ### Who is blocked -/

/-- A send blocks only on a full channel whose worker is there. -/
theorem send_eq_none {s : State cfg} {key : Pubkey} (h : s.send key = none) :
    s.workers (cfg.route key).2 ≠ .finished ∧ channelCap ≤ (s.chans (cfg.route key).2).length := by
  simp only [State.send] at h
  split_ifs at h with hw hlen
  exact ⟨hw, Nat.not_lt.mp hlen⟩

theorem readerStep_eq_none {s : State cfg} {r : Fin cfg.nReaders} (h : s.readerStep r = none) :
    s.readers r = .returned ∨ ∃ key, s.send key = none := by
  unfold State.readerStep at h
  split at h
  · split_ifs at h
    split at h <;> cases h
  · exact Or.inr ⟨_, Option.map_eq_none_iff.mp h⟩
  · cases h
  · cases h
  · split at h <;> cases h
  · exact Or.inr ⟨_, Option.map_eq_none_iff.mp h⟩
  · rename_i hr
    exact Or.inl hr

theorem workerStep_eq_none {s : State cfg} {j : Fin cfg.nShards} (h : s.workerStep j = none) :
    s.workers j = .finished ∨ s.chans j = [] ∧ ¬ s.sendersDropped := by
  unfold State.workerStep at h
  split at h
  · split at h
    · cases h
    · rename_i hc
      split_ifs at h with hdrop
      exact Or.inr ⟨hc, hdrop⟩
  · split_ifs at h
  · cases h
  · rename_i hw
    exact Or.inl hw

theorem coordinatorStep_eq_none {s : State cfg} (h : s.coordinatorStep = none) :
    s.coordinator = .completed ∨ (∃ r, s.readers r ≠ .returned) ∨
      (∀ i, s.coordinator ≠ .joiningReaders i) ∧ ∃ j, s.workers j ≠ .finished := by
  unfold State.coordinatorStep at h
  split at h
  · split_ifs at h with hi hr
    exact Or.inr (Or.inl ⟨_, hr⟩)
  · rename_i i hc
    split_ifs at h with hi hw
    exact Or.inr (Or.inr ⟨by simp [hc], _, hw⟩)
  · rename_i hc
    exact Or.inl hc

/-- With every worker blocked no reader is: a full channel has a worker that
can receive. -/
theorem readers_returned {s : State cfg} (hr : ∀ r, s.readerStep r = none)
    (hw : ∀ j, s.workerStep j = none) (r : Fin cfg.nReaders) : s.readers r = .returned := by
  rcases readerStep_eq_none (hr r) with hret | ⟨key, hkey⟩
  · exact hret
  · exfalso
    obtain ⟨hthere, hfull⟩ := send_eq_none hkey
    rcases workerStep_eq_none (hw (cfg.route key).2) with hfin | ⟨hempty, -⟩
    · exact hthere hfin
    · rw [hempty] at hfull
      exact absurd hfull (by decide)

/-- **Only the completed state is stuck.** -/
theorem stuck_iff {s : State cfg} (hd : s.done = true) : (∀ a, s.step a = none) ↔ Completed s := by
  constructor
  · intro h
    have hr := readers_returned (fun r => h (.reader r)) (fun j => h (.worker j))
    -- past the joins of the readers the senders are dropped, so no worker waits
    have hw : (∀ i, s.coordinator ≠ .joiningReaders i) → ∀ j, s.workers j = .finished := by
      intro hc j
      rcases workerStep_eq_none (h (.worker j)) with hfin | ⟨-, hopen⟩
      · exact hfin
      · exact absurd ⟨hc, hr⟩ hopen
    rcases coordinatorStep_eq_none (h .coordinator) with hc | ⟨r, hne⟩ | ⟨hc, j, hne⟩
    · exact ⟨hr, hw (by simp [hc]), hc⟩
    · exact absurd (hr r) hne
    · exact absurd (hw hc j) hne
  · rintro ⟨hr, hw, hc⟩ a
    cases a with
    | push key => simp [State.step, hd]
    | setDone => simp [State.step, hd]
    | reader r => simp [State.step, State.readerStep, hr r]
    | worker j => simp [State.step, State.workerStep, hw j]
    | coordinator => simp [State.step, State.coordinatorStep, hc]

/-! ### Runs -/

/-- **The pipeline always completes.** Once `done` is set, in whatever state,
every run is finite, no longer than the work left; wherever no thread can take
a step, all have returned and the completion message has been sent; and that
state is reached. -/
theorem always_completes {s : State cfg} (hd : s.done = true) :
    (∃ bound, ∀ as t, (pipeline cfg).run s as = some t → as.length ≤ bound) ∧
    ((∀ a, (pipeline cfg).step s a = none) ↔ Completed s) ∧
    ∃ as t, (pipeline cfg).run s as = some t ∧ Completed t := by
  have hstep : ∀ (s : State cfg) (a : Action cfg) (t : State cfg), s.done = true →
      (pipeline cfg).step s a = some t → t.done = true ∧ t.work < s.work :=
    fun _ _ _ hd hs => work_lt_of_step hd hs
  refine ⟨⟨s.work, ?_⟩, stuck_iff hd, ?_⟩
  · intro as t hrun
    have hlen := run_length_le hstep as hd hrun
    omega
  · obtain ⟨as, t, hrun, hdt, hstuck⟩ := exists_stuck hstep s.work hd (Nat.le_refl _)
    exact ⟨as, t, hrun, (stuck_iff hdt).mp hstuck⟩

/-- With the zero key still in the queue when `done` is set. -/
theorem completes_with_zero_key : ∃ s : State twoShards,
    (pipeline twoShards).run State.init [.push (zeroKey), .setDone] = some s ∧
    s.queue = [zeroKey] ∧
    (∃ bound, ∀ as t, (pipeline twoShards).run s as = some t → as.length ≤ bound) ∧
    ∃ as t, (pipeline twoShards).run s as = some t ∧ Completed t := by
  have hrun : ∃ s : State twoShards,
      (pipeline twoShards).run State.init [.push (zeroKey), .setDone] = some s ∧
      s.queue = [zeroKey] ∧ s.done = true := ⟨_, rfl, rfl, rfl⟩
  obtain ⟨s, hs, hq, hd⟩ := hrun
  obtain ⟨hfinite, -, hreach⟩ := always_completes hd
  exact ⟨s, hs, hq, hfinite, hreach⟩

end Shard
end Zerohop
