/-
# Every pushed key is delivered once

What one step of the pipeline can do (`Move`), and what its moves keep: keys
only move between places (`Somewhere`), always towards the worker of their
shard (`Traced`); a worker calls `on_key` for the keys it has seen, each once
(`Counted`); and the threads end in order, so that nothing is left behind
(`Shutdown`): a reader returns only after `done` and on an empty queue, a
worker only after all readers and on an empty channel.

Key theorems: `move_of_step`, `reachable_inv`, `delivers_once`.
-/
import Zerohop.Shard.Pipeline

namespace Zerohop
namespace Shard

variable {cfg : Config}

namespace Reader

/-- The keys in a reader's hands. -/
def keys : Reader → List Pubkey
  | collecting batch => batch
  | routing batch => batch
  | sending key => [key]
  | _ => []

/-- It has found `done` set. -/
def Ending : Reader → Prop
  | draining => True
  | sending _ => True
  | returned => True
  | _ => False

end Reader

namespace State

@[simp] theorem setReader_readers (s : State cfg) (r : Fin cfg.nReaders) (reader : Reader) :
    (s.setReader r reader).readers = Function.update s.readers r reader := rfl

@[simp] theorem setWorker_workers (s : State cfg) (j : Fin cfg.nShards) (worker : Worker) :
    (s.setWorker j worker).workers = Function.update s.workers j worker := rfl

/-- Where a worker stands after one has moved on: that one, or another that stood there before. -/
theorem setWorker_eq_iff {s : State cfg} {j j' : Fin cfg.nShards} {worker w : Worker} :
    (s.setWorker j worker).workers j' = w ↔ j' = j ∧ worker = w ∨ j' ≠ j ∧ s.workers j' = w := by
  rw [setWorker_workers, Function.update_apply, ite_eq_iff]

end State

/-! ### What a step can do -/

/-- The moves of the pipeline. -/
inductive Move (s : State cfg) : State cfg → Prop
  | push (key : Pubkey) : s.done = false →
      Move s { s with queue := s.queue ++ [key], pushed := s.pushed ++ [key] }
  | setDone : Move s { s with done := true }
  /-- A reader takes the front of the queue. -/
  | pop {r : Fin cfg.nReaders} {reader : Reader} {key : Pubkey} {queue : List Pubkey} :
      s.queue = key :: queue → reader.keys = (s.readers r).keys ++ [key] →
      s.readers r ≠ .returned → reader ≠ .returned → (reader.Ending → (s.readers r).Ending) →
      Move s ({ s with queue }.setReader r reader)
  /-- A reader goes on with the keys it has. -/
  | turn {r : Fin cfg.nReaders} {reader : Reader} :
      reader.keys = (s.readers r).keys → s.readers r ≠ .returned →
      (reader.Ending → (s.readers r).Ending ∨ s.done = true) →
      (reader = .returned → s.queue = []) → Move s (s.setReader r reader)
  /-- A reader sends a key to its shard, whose worker is there. -/
  | send {r : Fin cfg.nReaders} {reader : Reader} {key : Pubkey} :
      (s.readers r).keys = key :: reader.keys → s.readers r ≠ .returned → reader ≠ .returned →
      (reader.Ending → (s.readers r).Ending) → s.workers (cfg.route key).2 ≠ .finished →
      Move s ((s.enqueue (cfg.route key).2 (cfg.hash key, key)).setReader r reader)
  /-- A reader sends a key whose worker is gone. -/
  | lose {r : Fin cfg.nReaders} {reader : Reader} {key : Pubkey} :
      (s.readers r).keys = key :: reader.keys → s.readers r ≠ .returned →
      s.workers (cfg.route key).2 = .finished → Move s (s.setReader r reader)
  | receive {j : Fin cfg.nShards} {hash : UInt64} {key : Pubkey} {rest : List (UInt64 × Pubkey)} :
      s.workers j = .receiving → s.chans j = (hash, key) :: rest →
      Move s ({ s with chans := Function.update s.chans j rest }.setWorker j (.inserting hash key))
  | finish {j : Fin cfg.nShards} : s.workers j = .receiving → s.chans j = [] → s.sendersDropped →
      Move s (s.setWorker j .finished)
  /-- The key has been seen before. -/
  | again {j : Fin cfg.nShards} {hash : UInt64} {key : Pubkey} : s.workers j = .inserting hash key →
      key ∈ s.seen j → Move s (s.setWorker j .receiving)
  | insert {j : Fin cfg.nShards} {hash : UInt64} {key : Pubkey} :
      s.workers j = .inserting hash key → key ∉ s.seen j →
      Move s ({ s with seen := Function.update s.seen j (key :: s.seen j) }.setWorker j
        (.calling hash key))
  | call {j : Fin cfg.nShards} {hash : UInt64} {key : Pubkey} : s.workers j = .calling hash key →
      Move s ({ s with calls := s.calls ++ [(⟨j, hash, key⟩ : Call)] }.setWorker j .receiving)
  | joinReader {i : ℕ} : s.coordinator = .joiningReaders i →
      (∀ r : Fin cfg.nReaders, r.val = i → s.readers r = .returned) → i < cfg.nReaders →
      Move s { s with coordinator := .joiningReaders (i + 1) }
  | dropSenders {i : ℕ} : s.coordinator = .joiningReaders i → cfg.nReaders ≤ i →
      Move s { s with coordinator := .joiningWorkers 0 }
  | joinWorker {i : ℕ} : s.coordinator = .joiningWorkers i →
      (∀ j : Fin cfg.nShards, j.val = i → s.workers j = .finished) → i < cfg.nShards →
      Move s { s with coordinator := .joiningWorkers (i + 1) }
  | complete {i : ℕ} : s.coordinator = .joiningWorkers i → cfg.nShards ≤ i →
      Move s { s with coordinator := .completed }

theorem move_of_send {s t : State cfg} {r : Fin cfg.nReaders} {reader : Reader} {key : Pubkey}
    (hk : (s.readers r).keys = key :: reader.keys) (hr : s.readers r ≠ .returned)
    (hr' : reader ≠ .returned) (he : reader.Ending → (s.readers r).Ending)
    (h : (s.send key).map (fun u => u.setReader r reader) = some t) : Move s t := by
  obtain ⟨u, hu, rfl⟩ := Option.map_eq_some_iff.mp h
  simp only [State.send] at hu
  split_ifs at hu with hw hlen
  · cases hu
    exact .lose hk hr hw
  · cases hu
    exact .send hk hr hr' he hw

theorem move_of_readerStep {s t : State cfg} {r : Fin cfg.nReaders} (h : s.readerStep r = some t) :
    Move s t := by
  unfold State.readerStep at h
  split at h
  · rename_i batch hr
    have hne : s.readers r ≠ .returned := by simp [hr]
    split_ifs at h with hlen
    · split at h <;> cases h
      · rename_i key queue hq
        exact .pop hq (by rw [hr]; rfl) hne (by simp) (by simp [Reader.Ending])
      · exact .turn (by rw [hr]; rfl) hne (by simp [Reader.Ending]) (by simp)
    · cases h
      exact .turn (by rw [hr]; rfl) hne (by simp [Reader.Ending]) (by simp)
  · rename_i key batch hr
    exact move_of_send (by rw [hr]; rfl) (by simp [hr]) (by simp) (by simp [Reader.Ending]) h
  · rename_i hr
    cases h
    exact .turn (by rw [hr]; rfl) (by simp [hr]) (by simp [Reader.Ending]) (by simp)
  · rename_i hr
    cases h
    cases hd : s.done
    · exact .turn (by rw [hr]; rfl) (by simp [hr]) (by simp [Reader.Ending]) (by simp)
    · exact .turn (by rw [hr]; rfl) (by simp [hr]) (fun _ => .inr hd) (by simp)
  · rename_i hr
    have hne : s.readers r ≠ .returned := by simp [hr]
    have he : (s.readers r).Ending := by rw [hr]; trivial
    split at h <;> cases h
    · rename_i key queue hq
      exact .pop hq (by rw [hr]; rfl) hne (by simp) (fun _ => he)
    · rename_i hq
      exact .turn (by rw [hr]; rfl) hne (fun _ => .inl he) (fun _ => hq)
  · rename_i key hr
    exact move_of_send (by rw [hr]; rfl) (by simp [hr]) (by simp) (fun _ => by rw [hr]; trivial) h
  · cases h

theorem move_of_workerStep {s t : State cfg} {j : Fin cfg.nShards} (h : s.workerStep j = some t) :
    Move s t := by
  unfold State.workerStep at h
  split at h
  · rename_i hw
    split at h
    · rename_i hash key rest hc
      cases h
      exact .receive hw hc
    · rename_i hc
      split_ifs at h with hs
      cases h
      exact .finish hw hc hs
  · rename_i hash key hw
    split_ifs at h with hk <;> cases h
    · exact .again hw hk
    · exact .insert hw hk
  · rename_i hash key hw
    cases h
    exact .call hw
  · cases h

theorem move_of_coordinatorStep {s t : State cfg} (h : s.coordinatorStep = some t) : Move s t := by
  unfold State.coordinatorStep at h
  split at h
  · rename_i i hc
    split_ifs at h with hi hr <;> cases h
    · exact .joinReader hc (fun r hr' => by obtain rfl : r = ⟨i, hi⟩ := Fin.ext hr'; exact hr) hi
    · exact .dropSenders hc (Nat.not_lt.mp hi)
  · rename_i j hc
    split_ifs at h with hj hw <;> cases h
    · exact .joinWorker hc (fun r hr' => by obtain rfl : r = ⟨j, hj⟩ := Fin.ext hr'; exact hw) hj
    · exact .complete hc (Nat.not_lt.mp hj)
  · cases h

/-- **Every step is one of the moves.** -/
theorem move_of_step {s t : State cfg} {a : Action cfg} (h : (pipeline cfg).step s a = some t) :
    Move s t := by
  cases a with
  | push key =>
    simp only [pipeline, State.step] at h
    split_ifs at h with hd
    cases h
    exact .push key (by simpa using hd)
  | setDone =>
    simp only [pipeline, State.step] at h
    split_ifs at h
    cases h
    exact .setDone
  | reader r => exact move_of_readerStep h
  | worker j => exact move_of_workerStep h
  | coordinator => exact move_of_coordinatorStep h

/-! ### Keys go to the worker of their shard -/

theorem forall_update {ι β : Type*} [DecidableEq ι] {P : ι → β → Prop} {f : ι → β} {i : ι} {b : β}
    (h : ∀ j, P j (f j)) (hi : P i b) : ∀ j, P j (Function.update f i b j) :=
  (Function.forall_update_iff f P).mpr ⟨hi, fun j _ => h j⟩

/-- A list of a family grows at its front: the new one is in its list, and what was in a list still is. -/
theorem mem_update_cons {ι β : Type*} [DecidableEq ι] {f : ι → List β} {i j : ι} {b x : β} :
    x ∈ Function.update f i (b :: f i) j ↔ j = i ∧ x = b ∨ x ∈ f j := by
  by_cases hj : j = i
  · subst hj
    rw [Function.update_self, List.mem_cons, eq_self_iff_true, true_and]
  · rw [Function.update_of_ne hj, or_iff_right fun h => hj h.1]

/-- A hash and key that belong at shard `j`. -/
def Routed (pushed : List Pubkey) (j : Fin cfg.nShards) (item : UInt64 × Pubkey) : Prop :=
  cfg.route item.2 = (item.1, j) ∧ item.2 ∈ pushed

/-- What a worker has in hand belongs at its shard. -/
def Worker.Ok (pushed : List Pubkey) (j : Fin cfg.nShards) : Worker → Prop
  | .inserting hash key => Routed pushed j (hash, key)
  | .calling hash key => Routed pushed j (hash, key)
  | _ => True

/-- All keys anywhere were pushed, and those past a reader are at their shard. -/
structure Traced (s : State cfg) : Prop where
  queue : s.queue ⊆ s.pushed
  readers : ∀ r, (s.readers r).keys ⊆ s.pushed
  chans : ∀ j, ∀ item ∈ s.chans j, Routed s.pushed j item
  workers : ∀ j, (s.workers j).Ok s.pushed j
  seen : ∀ j, ∀ key ∈ s.seen j, Routed s.pushed j (cfg.hash key, key)

theorem Routed.mono {pushed pushed' : List Pubkey} (hp : pushed ⊆ pushed') {j : Fin cfg.nShards}
    {item : UInt64 × Pubkey} (h : Routed pushed j item) : Routed pushed' j item :=
  ⟨h.1, hp h.2⟩

theorem Worker.Ok.mono {pushed pushed' : List Pubkey} (hp : pushed ⊆ pushed') {j : Fin cfg.nShards} :
    ∀ {w : Worker}, w.Ok pushed j → w.Ok pushed' j
  | .receiving, _ => trivial
  | .inserting _ _, h => Routed.mono hp h
  | .calling _ _, h => Routed.mono hp h
  | .finished, _ => trivial

section

variable {s t : State cfg}

theorem Traced.move (h : Traced s) (hm : Move s t) : Traced t := by
  have hreaders : ∀ {r : Fin cfg.nReaders} {reader : Reader}, reader.keys ⊆ s.pushed →
      ∀ r', (Function.update s.readers r reader r').keys ⊆ s.pushed := fun hk =>
    forall_update (P := fun _ reader => Reader.keys reader ⊆ s.pushed) h.readers hk
  have hworkers : ∀ {j : Fin cfg.nShards} {w : Worker}, w.Ok s.pushed j →
      ∀ j', (Function.update s.workers j w j').Ok s.pushed j' := fun hw =>
    forall_update (P := fun j w => Worker.Ok s.pushed j w) h.workers hw
  have hchans : ∀ {j : Fin cfg.nShards} {l : List (UInt64 × Pubkey)},
      (∀ item ∈ l, Routed s.pushed j item) →
      ∀ j', ∀ item ∈ Function.update s.chans j l j', Routed s.pushed j' item := fun hl =>
    forall_update (P := fun j l => ∀ item ∈ l, Routed s.pushed j item) h.chans hl
  cases hm with
  | push key hd =>
    have hsub : s.pushed ⊆ s.pushed ++ [key] := List.subset_append_left ..
    exact ⟨List.append_subset.mpr ⟨List.Subset.trans h.queue hsub, List.subset_append_right ..⟩,
      fun r => List.Subset.trans (h.readers r) hsub, fun j item hi => (h.chans j item hi).mono hsub,
      fun j => (h.workers j).mono hsub, fun j k hk => (h.seen j k hk).mono hsub⟩
  | setDone => exact ⟨h.queue, h.readers, h.chans, h.workers, h.seen⟩
  | @pop r reader key queue hq hk _ _ _ =>
    have hqueue : key :: queue ⊆ s.pushed := hq ▸ h.queue
    refine ⟨List.Subset.trans (List.subset_cons_self ..) hqueue, hreaders ?_, h.chans, h.workers, h.seen⟩
    rw [hk]
    exact List.append_subset.mpr ⟨h.readers r,
      List.cons_subset.mpr ⟨hqueue (List.mem_cons_self ..), List.nil_subset _⟩⟩
  | @turn r reader hk _ _ _ => exact ⟨h.queue, hreaders (hk ▸ h.readers r), h.chans, h.workers, h.seen⟩
  | @send r reader key hk _ _ _ _ =>
    have hr : key :: reader.keys ⊆ s.pushed := hk ▸ h.readers r
    refine ⟨h.queue, hreaders (List.Subset.trans (List.subset_cons_self ..) hr), hchans ?_, h.workers,
      h.seen⟩
    intro item hi
    rcases List.mem_append.mp hi with hi | hi
    · exact h.chans _ item hi
    · obtain rfl := List.mem_singleton.mp hi
      exact ⟨rfl, hr (List.mem_cons_self ..)⟩
  | @lose r reader key hk _ _ =>
    have hr : key :: reader.keys ⊆ s.pushed := hk ▸ h.readers r
    exact ⟨h.queue, hreaders (List.Subset.trans (List.subset_cons_self ..) hr), h.chans, h.workers,
      h.seen⟩
  | @receive j hash key rest hw hc =>
    have hall := h.chans j
    rw [hc] at hall
    exact ⟨h.queue, h.readers, hchans fun item hi => hall item (List.mem_cons_of_mem _ hi),
      hworkers (hall _ (List.mem_cons_self ..)), h.seen⟩
  | @finish j _ _ _ => exact ⟨h.queue, h.readers, h.chans, hworkers trivial, h.seen⟩
  | @again j hash key _ _ => exact ⟨h.queue, h.readers, h.chans, hworkers trivial, h.seen⟩
  | @insert j hash key hw hk =>
    have hin : Worker.Ok s.pushed j (.inserting hash key) := hw ▸ h.workers j
    have hhash : cfg.hash key = hash := congrArg Prod.fst hin.1
    refine ⟨h.queue, h.readers, h.chans, hworkers hin,
      forall_update (P := fun j l => ∀ key ∈ l, Routed s.pushed j (cfg.hash key, key)) h.seen ?_⟩
    intro k hk'
    rcases List.mem_cons.mp hk' with rfl | hk'
    · rw [hhash]
      exact hin
    · exact h.seen j k hk'
  | @call j hash key _ => exact ⟨h.queue, h.readers, h.chans, hworkers trivial, h.seen⟩
  | joinReader _ _ _ => exact ⟨h.queue, h.readers, h.chans, h.workers, h.seen⟩
  | dropSenders _ _ => exact ⟨h.queue, h.readers, h.chans, h.workers, h.seen⟩
  | joinWorker _ _ _ => exact ⟨h.queue, h.readers, h.chans, h.workers, h.seen⟩
  | complete _ _ => exact ⟨h.queue, h.readers, h.chans, h.workers, h.seen⟩

/-! ### A key is called once it is seen, and once -/

/-- The keys for which `on_key` was called. -/
def State.called (s : State cfg) : List Pubkey := s.calls.map Call.key

/-- The calls of `on_key` are for seen keys, one each, and every seen key is
called for or about to be. -/
structure Counted (s : State cfg) : Prop where
  call : ∀ c ∈ s.calls, ∃ j, cfg.route c.key = (c.hash, j) ∧ c.shardId = j.val ∧ c.key ∈ s.seen j
  nodup : s.called.Nodup
  calling : ∀ j hash key, s.workers j = .calling hash key → key ∈ s.seen j ∧ key ∉ s.called
  seen : ∀ j, ∀ key ∈ s.seen j, key ∈ s.called ∨ ∃ hash, s.workers j = .calling hash key

theorem Counted.seen_of_called (h : Counted s) {key : Pubkey} (hk : key ∈ s.called) :
    key ∈ s.seen (cfg.route key).2 := by
  obtain ⟨c, hc, rfl⟩ := List.mem_map.mp hk
  obtain ⟨j, hr, -, hs⟩ := h.call c hc
  rwa [hr]

theorem Counted.setWorker (h : Counted s) {j : Fin cfg.nShards} {worker : Worker}
    (hold : ∀ hash key, s.workers j ≠ .calling hash key)
    (hnew : ∀ hash key, worker ≠ .calling hash key) : Counted (s.setWorker j worker) := by
  refine ⟨h.call, h.nodup, ?_, ?_⟩
  · intro j' hash key hw
    rcases State.setWorker_eq_iff.mp hw with ⟨-, hw⟩ | ⟨-, hw⟩
    · exact absurd hw (hnew _ _)
    · exact h.calling j' hash key hw
  · intro j' key hk
    refine (h.seen j' key hk).imp_right fun ⟨hash, hw⟩ => ⟨hash, ?_⟩
    have hne : j' ≠ j := by
      rintro rfl
      exact hold _ _ hw
    exact State.setWorker_eq_iff.mpr (Or.inr ⟨hne, hw⟩)

theorem Counted.insert (ht : Traced s) (h : Counted s) {j : Fin cfg.nShards} {hash : UInt64}
    {key : Pubkey} (hw : s.workers j = .inserting hash key) (hk : key ∉ s.seen j) :
    Counted ({ s with seen := Function.update s.seen j (key :: s.seen j) }.setWorker j
      (.calling hash key)) := by
  have hin : Worker.Ok s.pushed j (.inserting hash key) := hw ▸ ht.workers j
  -- a key called for is seen at its shard, which is this one
  have hnew : key ∉ s.called := by
    intro hcalled
    have hseen := h.seen_of_called hcalled
    rw [hin.1] at hseen
    exact hk hseen
  refine ⟨?_, h.nodup, ?_, ?_⟩
  · intro c hc
    obtain ⟨j', hr, hid, hs⟩ := h.call c hc
    exact ⟨j', hr, hid, mem_update_cons.mpr (Or.inr hs)⟩
  · intro j' hash' k hw'
    rcases State.setWorker_eq_iff.mp hw' with ⟨rfl, heq⟩ | ⟨-, hw'⟩
    · cases heq
      exact ⟨mem_update_cons.mpr (Or.inl ⟨rfl, rfl⟩), hnew⟩
    · obtain ⟨h1, h2⟩ := h.calling j' hash' k hw'
      exact ⟨mem_update_cons.mpr (Or.inr h1), h2⟩
  · intro j' k hk'
    rcases mem_update_cons.mp hk' with ⟨rfl, rfl⟩ | hk'
    · exact Or.inr ⟨hash, State.setWorker_eq_iff.mpr (Or.inl ⟨rfl, rfl⟩)⟩
    · refine (h.seen j' k hk').imp_right fun ⟨hash', hw'⟩ => ⟨hash', ?_⟩
      -- this worker is not calling yet
      have hne : j' ≠ j := by
        rintro rfl
        rw [hw] at hw'
        cases hw'
      exact State.setWorker_eq_iff.mpr (Or.inr ⟨hne, hw'⟩)

theorem Counted.callKey (ht : Traced s) (h : Counted s) {j : Fin cfg.nShards} {hash : UInt64}
    {key : Pubkey} (hw : s.workers j = .calling hash key) :
    Counted ({ s with calls := s.calls ++ [(⟨j, hash, key⟩ : Call)] }.setWorker j .receiving) := by
  have hin : Worker.Ok s.pushed j (.calling hash key) := hw ▸ ht.workers j
  obtain ⟨hseen, hnew⟩ := h.calling j hash key hw
  have hcalled : State.called ({ s with calls := s.calls ++ [(⟨j, hash, key⟩ : Call)] }.setWorker j
      .receiving) = s.called ++ [key] := by
    simp [State.called, State.setWorker]
  -- two workers never call for one key: it has one shard
  have hone : ∀ j', key ∈ s.seen j' → j' = j := by
    intro j' hk
    have hr := (ht.seen j' key hk).1
    rw [hin.1] at hr
    exact (congrArg Prod.snd hr).symm
  refine ⟨?_, ?_, ?_, ?_⟩
  · intro c hc
    rcases List.mem_append.mp hc with hc | hc
    · exact h.call c hc
    · obtain rfl := List.mem_singleton.mp hc
      exact ⟨j, hin.1, rfl, hseen⟩
  · rw [hcalled]
    refine List.nodup_append.mpr ⟨h.nodup, List.nodup_singleton _, ?_⟩
    intro a ha b hb hab
    obtain rfl := List.mem_singleton.mp hb
    subst hab
    exact hnew ha
  · intro j' hash' k hw'
    rcases State.setWorker_eq_iff.mp hw' with ⟨-, heq⟩ | ⟨hj, hw'⟩
    · cases heq
    · obtain ⟨h1, h2⟩ := h.calling j' hash' k hw'
      refine ⟨h1, ?_⟩
      intro hk'
      rw [hcalled] at hk'
      rcases List.mem_append.mp hk' with hk' | hk'
      · exact h2 hk'
      · obtain rfl := List.mem_singleton.mp hk'
        exact hj (hone j' h1)
  · intro j' k hk'
    rw [hcalled]
    rcases h.seen j' k hk' with hc | ⟨hash', hw'⟩
    · exact Or.inl (List.mem_append_left _ hc)
    · by_cases hj : j' = j
      · subst hj
        rw [hw] at hw'
        cases hw'
        exact Or.inl (List.mem_append_right _ (List.mem_singleton_self _))
      · exact Or.inr ⟨hash', State.setWorker_eq_iff.mpr (Or.inr ⟨hj, hw'⟩)⟩

theorem Counted.move (ht : Traced s) (h : Counted s) (hm : Move s t) : Counted t := by
  cases hm with
  | @receive j hash key rest hw hc =>
    have h' : Counted { s with chans := Function.update s.chans j rest } :=
      ⟨h.call, h.nodup, h.calling, h.seen⟩
    exact h'.setWorker (by simp [hw]) (by simp)
  | finish hw _ _ => exact h.setWorker (by simp [hw]) (by simp)
  | again hw _ => exact h.setWorker (by simp [hw]) (by simp)
  | insert hw hk => exact Counted.insert ht h hw hk
  | call hw => exact Counted.callKey ht h hw
  | _ => exact ⟨h.call, h.nodup, h.calling, h.seen⟩

/-! ### The threads end in order -/

/-- What a thread has seen when it ends. -/
structure Shutdown (s : State cfg) : Prop where
  ending : ∀ r, (s.readers r).Ending → s.done = true
  returned : ∀ r, s.readers r = .returned → s.queue = []
  readersJoined : ∀ i, s.coordinator = .joiningReaders i →
    ∀ r : Fin cfg.nReaders, r.val < i → s.readers r = .returned
  allReturned : (∀ i, s.coordinator ≠ .joiningReaders i) → ∀ r, s.readers r = .returned
  finished : ∀ j, s.workers j = .finished → s.sendersDropped ∧ s.chans j = []
  workersJoined : ∀ i, s.coordinator = .joiningWorkers i →
    ∀ j : Fin cfg.nShards, j.val < i → s.workers j = .finished
  allFinished : s.coordinator = .completed → ∀ j, s.workers j = .finished

/-- No worker has returned while a reader runs: no key is lost. -/
theorem Shutdown.worker_runs (h : Shutdown s) {r : Fin cfg.nReaders} (hr : s.readers r ≠ .returned)
    (j : Fin cfg.nShards) : s.workers j ≠ .finished :=
  fun hw => hr ((h.finished j hw).1.2 r)

theorem Shutdown.joining (h : Shutdown s) {r : Fin cfg.nReaders} (hr : s.readers r ≠ .returned) :
    ∃ i, s.coordinator = .joiningReaders i := by
  by_contra hno
  exact hr (h.allReturned (fun i hi => hno ⟨i, hi⟩) r)

theorem Shutdown.setReader (h : Shutdown s) {r : Fin cfg.nReaders} {reader : Reader}
    (hr : s.readers r ≠ .returned) (he : reader.Ending → s.done = true)
    (hret : reader = .returned → s.queue = []) : Shutdown (s.setReader r reader) := by
  have hruns := h.worker_runs hr
  obtain ⟨i, hi⟩ := h.joining hr
  refine ⟨?_, ?_, ?_, fun hno => absurd hi (hno i), fun j hw => absurd hw (hruns j),
    ?_, ?_⟩
  · exact forall_update (P := fun _ reader => Reader.Ending reader → s.done = true) h.ending he
  · exact forall_update (P := fun _ reader => reader = Reader.returned → s.queue = []) h.returned hret
  · intro i' hi' r' hlt
    have hret' := h.readersJoined i' hi' r' hlt
    rw [State.setReader_readers, Function.update_of_ne (by rintro rfl; exact hr hret')]
    exact hret'
  · intro j hj
    rw [show s.coordinator = .joiningWorkers j from hj] at hi
    cases hi
  · intro hc
    rw [show s.coordinator = .completed from hc] at hi
    cases hi

theorem Shutdown.setWorker (h : Shutdown s) {j : Fin cfg.nShards} {worker : Worker}
    (hj : s.workers j ≠ .finished)
    (hnew : worker = .finished → s.sendersDropped ∧ s.chans j = []) :
    Shutdown (s.setWorker j worker) := by
  have hkeep : ∀ j', s.workers j' = .finished → (s.setWorker j worker).workers j' = .finished := by
    intro j' hw
    rw [State.setWorker_workers, Function.update_of_ne (by rintro rfl; exact hj hw)]
    exact hw
  exact ⟨h.ending, h.returned, h.readersJoined, h.allReturned,
    forall_update (P := fun j w => w = Worker.finished → s.sendersDropped ∧ s.chans j = []) h.finished hnew,
    fun i hi j' hlt => hkeep j' (h.workersJoined i hi j' hlt), fun hc j' => hkeep j' (h.allFinished hc j')⟩

theorem Shutdown.setLists (h : Shutdown s) {queue : List Pubkey}
    {chans : Fin cfg.nShards → List (UInt64 × Pubkey)} {seen : Fin cfg.nShards → List Pubkey}
    {calls : List Call} {pushed : List Pubkey}
    (hq : (∃ r, s.readers r = .returned) → queue = s.queue)
    (hc : ∀ j, s.workers j = .finished → chans j = s.chans j) :
    Shutdown { s with queue, chans, seen, calls, pushed } := by
  refine ⟨h.ending, ?_, h.readersJoined, h.allReturned, ?_, h.workersJoined,
    h.allFinished⟩
  · intro r hr
    exact (hq ⟨r, hr⟩).trans (h.returned r hr)
  · intro j hw
    obtain ⟨h1, h2⟩ := h.finished j hw
    exact ⟨h1, (hc j hw).trans h2⟩

theorem Shutdown.move (h : Shutdown s) (hm : Move s t) : Shutdown t := by
  cases hm with
  | push key hd =>
    refine h.setLists (fun ⟨r, hr⟩ => ?_) fun _ _ => rfl
    -- a reader that has returned has found `done` set
    have := h.ending r (by rw [hr]; trivial)
    rw [hd] at this
    cases this
  | setDone =>
    exact ⟨fun _ _ => rfl, h.returned, h.readersJoined, h.allReturned, h.finished, h.workersJoined,
      h.allFinished⟩
  | @pop r reader key queue hq _ hr hr' he =>
    have hnone : ∀ r', s.readers r' ≠ .returned := fun r' hret => by
      have := h.returned r' hret
      rw [hq] at this
      cases this
    have h' : Shutdown { s with queue } :=
      h.setLists (fun ⟨r', hret⟩ => absurd hret (hnone r')) fun _ _ => rfl
    exact h'.setReader hr (fun e => h.ending r (he e)) (fun e => absurd e hr')
  | @turn r reader _ hr he hret => exact h.setReader hr (fun e => (he e).elim (h.ending r) id) hret
  | @send r reader key _ hr hr' he hw =>
    have h' : Shutdown (s.enqueue (cfg.route key).2 (cfg.hash key, key)) := by
      refine h.setLists (fun _ => rfl) fun j hj => ?_
      exact absurd hj (h.worker_runs hr j)
    exact h'.setReader hr (fun e => h.ending r (he e)) (fun e => absurd e hr')
  | @lose r reader key _ hr hw => exact absurd hw (h.worker_runs hr _)
  | @receive j hash key rest hw hc =>
    have hrun : s.workers j ≠ .finished := by simp [hw]
    have h' : Shutdown { s with chans := Function.update s.chans j rest } := by
      refine h.setLists (fun _ => rfl) fun j' hj' => ?_
      rw [Function.update_of_ne (by rintro rfl; exact hrun hj')]
    exact h'.setWorker hrun (by simp)
  | @finish j hw hc hs => exact h.setWorker (by simp [hw]) fun _ => ⟨hs, hc⟩
  | @again j hash key hw _ => exact h.setWorker (by simp [hw]) (by simp)
  | @insert j hash key hw _ =>
    have h' : Shutdown { s with seen := Function.update s.seen j (key :: s.seen j) } :=
      h.setLists (fun _ => rfl) fun _ _ => rfl
    exact h'.setWorker (show s.workers j ≠ .finished by simp [hw]) (by simp)
  | @call j hash key hw =>
    have h' : Shutdown { s with calls := s.calls ++ [(⟨j, hash, key⟩ : Call)] } :=
      h.setLists (fun _ => rfl) fun _ _ => rfl
    exact h'.setWorker (show s.workers j ≠ .finished by simp [hw]) (by simp)
  | @joinReader i hc hr hi =>
    refine ⟨h.ending, h.returned, ?_, fun hno => absurd rfl (hno (i + 1)),
      fun j hw => absurd hc ((h.finished j hw).1.1 i), nofun, nofun⟩
    intro i' hi' r hlt
    cases hi'
    rcases Nat.lt_succ_iff_lt_or_eq.mp hlt with hlt | heq
    · exact h.readersJoined i hc r hlt
    · exact hr r heq
  | @dropSenders i hc hi =>
    refine ⟨h.ending, h.returned, nofun, ?_,
      fun j hw => absurd hc ((h.finished j hw).1.1 i), ?_, nofun⟩
    · intro _ r
      exact h.readersJoined i hc r (Nat.lt_of_lt_of_le r.isLt hi)
    · intro i' hi' j hlt
      cases hi'
      exact absurd hlt (Nat.not_lt_zero _)
  | @joinWorker i hc hw hi =>
    have hall := h.allReturned (fun i' hi' => by rw [hc] at hi'; cases hi')
    refine ⟨h.ending, h.returned, nofun, fun _ => hall,
      fun j hj => ⟨⟨nofun, hall⟩, (h.finished j hj).2⟩, ?_,
      nofun⟩
    intro i' hi' j hlt
    cases hi'
    rcases Nat.lt_succ_iff_lt_or_eq.mp hlt with hlt | heq
    · exact h.workersJoined i hc j hlt
    · exact hw j heq
  | @complete i hc hi =>
    have hall := h.allReturned (fun i' hi' => by rw [hc] at hi'; cases hi')
    refine ⟨h.ending, h.returned, nofun, fun _ => hall,
      fun j hj => ⟨⟨nofun, hall⟩, (h.finished j hj).2⟩, nofun,
      fun _ j => h.workersJoined i hc j (Nat.lt_of_lt_of_le j.isLt hi)⟩

/-! ### No key is lost -/

/-- Where a key can be until it is seen. -/
def Somewhere (s : State cfg) (key : Pubkey) : Prop :=
  key ∈ s.queue ∨ (∃ r, key ∈ (s.readers r).keys) ∨ (∃ j hash, (hash, key) ∈ s.chans j) ∨
    (∃ j hash, s.workers j = .inserting hash key) ∨ ∃ j, key ∈ s.seen j

namespace Somewhere

variable {key : Pubkey}

theorem queue (h : key ∈ s.queue) : Somewhere s key := .inl h

theorem reader (r : Fin cfg.nReaders) (h : key ∈ (s.readers r).keys) : Somewhere s key :=
  .inr (.inl ⟨r, h⟩)

theorem chan (j : Fin cfg.nShards) (hash : UInt64) (h : (hash, key) ∈ s.chans j) : Somewhere s key :=
  .inr (.inr (.inl ⟨j, hash, h⟩))

theorem worker (j : Fin cfg.nShards) (hash : UInt64) (h : s.workers j = .inserting hash key) :
    Somewhere s key :=
  .inr (.inr (.inr (.inl ⟨j, hash, h⟩)))

theorem seen (j : Fin cfg.nShards) (h : key ∈ s.seen j) : Somewhere s key :=
  .inr (.inr (.inr (.inr ⟨j, h⟩)))

theorem readerUpdate {r : Fin cfg.nReaders} {reader : Reader} (r' : Fin cfg.nReaders)
    (hu : t.readers = Function.update s.readers r reader) (h : key ∈ (s.readers r').keys)
    (hr : key ∈ (s.readers r).keys → Somewhere t key) : Somewhere t key := by
  by_cases hne : r' = r
  · subst hne
    exact hr h
  · apply Somewhere.reader r'
    rwa [hu, Function.update_of_ne hne]

theorem workerUpdate {j : Fin cfg.nShards} {w : Worker} (j' : Fin cfg.nShards) {hash : UInt64}
    (hu : t.workers = Function.update s.workers j w) (h : s.workers j' = .inserting hash key)
    (hj : s.workers j = .inserting hash key → Somewhere t key) : Somewhere t key := by
  by_cases hne : j' = j
  · subst hne
    exact hj h
  · apply Somewhere.worker j' hash
    rwa [hu, Function.update_of_ne hne]

theorem chanUpdate {j : Fin cfg.nShards} {l : List (UInt64 × Pubkey)} (j' : Fin cfg.nShards)
    {hash : UInt64} (hu : t.chans = Function.update s.chans j l) (h : (hash, key) ∈ s.chans j')
    (hj : (hash, key) ∈ s.chans j → Somewhere t key) : Somewhere t key := by
  by_cases hne : j' = j
  · subst hne
    exact hj h
  · apply Somewhere.chan j' hash
    rwa [hu, Function.update_of_ne hne]

/-- A worker goes on: the keys in its hand are accounted for, and no others
are its business. -/
theorem workerTurn {j : Fin cfg.nShards} {w : Worker}
    (hw : t.workers = Function.update s.workers j w) (hq : t.queue = s.queue)
    (hr : t.readers = s.readers) (hc : t.chans = s.chans)
    (hseen : ∀ j', ∀ k ∈ s.seen j', k ∈ t.seen j') (h : Somewhere s key)
    (hj : ∀ hash, s.workers j = .inserting hash key → Somewhere t key) : Somewhere t key := by
  rcases h with h | ⟨r, h⟩ | ⟨j', hash, h⟩ | ⟨j', hash, h⟩ | ⟨j', h⟩
  · exact Somewhere.queue (hq ▸ h)
  · exact Somewhere.reader r (hr ▸ h)
  · exact Somewhere.chan j' hash (hc ▸ h)
  · exact workerUpdate j' hw h (hj hash)
  · exact Somewhere.seen j' (hseen j' key h)

theorem send {r : Fin cfg.nReaders} {reader : Reader} {key' : Pubkey}
    (hk : (s.readers r).keys = key' :: reader.keys) (h : Somewhere s key) :
    Somewhere ((s.enqueue (cfg.route key').2 (cfg.hash key', key')).setReader r reader) key := by
  have hchan : ∀ item, item ∈ s.chans (cfg.route key').2 ++ [(cfg.hash key', key')] →
      item ∈ (s.enqueue (cfg.route key').2 (cfg.hash key', key')).chans (cfg.route key').2 := by
    intro item hi
    show item ∈ Function.update s.chans _ _ _
    rwa [Function.update_self]
  rcases h with h | ⟨r', h⟩ | ⟨j, hash, h⟩ | h
  · exact Somewhere.queue h
  · refine readerUpdate (s := s) r' rfl h ?_
    intro h
    rw [hk] at h
    rcases List.mem_cons.mp h with rfl | h
    · apply Somewhere.chan (cfg.route key).2 (cfg.hash key)
      exact hchan _ (List.mem_append_right _ (List.mem_singleton_self _))
    · apply Somewhere.reader r
      rwa [State.setReader_readers, Function.update_self]
  · refine chanUpdate j rfl h fun h => Somewhere.chan (cfg.route key').2 hash ?_
    exact hchan _ (List.mem_append_left _ h)
  · exact .inr (.inr (.inr h))

theorem receive {j : Fin cfg.nShards} {hash : UInt64} {key' : Pubkey} {rest : List (UInt64 × Pubkey)}
    (hw : s.workers j = .receiving) (hc : s.chans j = (hash, key') :: rest) (h : Somewhere s key) :
    Somewhere ({ s with chans := Function.update s.chans j rest }.setWorker j (.inserting hash key'))
      key := by
  rcases h with h | h | ⟨j', hash', h⟩ | ⟨j', hash', h⟩ | h
  · exact Somewhere.queue h
  · exact .inr (.inl h)
  · refine chanUpdate j' rfl h ?_
    intro h
    rw [hc] at h
    rcases List.mem_cons.mp h with heq | h
    · cases heq
      exact Somewhere.worker j hash (Function.update_self ..)
    · apply Somewhere.chan j hash'
      show _ ∈ Function.update s.chans j rest j
      rwa [Function.update_self]
  · refine workerUpdate j' rfl h ?_
    intro h
    rw [hw] at h
    cases h
  · exact .inr (.inr (.inr (.inr h)))

/-- **A move leaves no key behind.** -/
theorem move (hs : Shutdown s) (hm : Move s t) (h : Somewhere s key) : Somewhere t key := by
  cases hm with
  | push key' _ => exact h.imp_left (List.mem_append_left _)
  | @pop r reader key' queue hq hk _ _ _ =>
    have hnew : ∀ k, k ∈ (s.readers r).keys ++ [key'] →
        Somewhere ({ s with queue }.setReader r reader) k := by
      intro k hk'
      apply Somewhere.reader r
      rwa [State.setReader_readers, Function.update_self, hk]
    rcases h with h | ⟨r', h⟩ | h
    · rw [hq] at h
      rcases List.mem_cons.mp h with rfl | h
      · exact hnew key (List.mem_append_right _ (List.mem_singleton_self _))
      · exact Somewhere.queue h
    · exact readerUpdate r' rfl h fun h => hnew key (List.mem_append_left _ h)
    · exact .inr (.inr h)
  | @turn r reader hk _ _ _ =>
    rcases h with h | ⟨r', h⟩ | h
    · exact Somewhere.queue h
    · refine readerUpdate r' rfl h fun h => Somewhere.reader r ?_
      rwa [State.setReader_readers, Function.update_self, hk]
    · exact .inr (.inr h)
  | send hk _ _ _ _ => exact send hk h
  | lose _ hr hw => exact absurd hw (hs.worker_runs hr _)
  | receive hw hc => exact receive hw hc h
  | finish hw _ _ =>
    refine workerTurn rfl rfl rfl rfl (fun _ _ hk => hk) h fun hash hi => ?_
    rw [hw] at hi
    cases hi
  | @again j hash key' hw hk =>
    refine workerTurn rfl rfl rfl rfl (fun _ _ hk => hk) h fun hash' hi => ?_
    rw [hw] at hi
    cases hi
    exact Somewhere.seen j hk
  | @insert j hash key' hw _ =>
    refine workerTurn (s := s) rfl rfl rfl rfl (fun _ _ hk => mem_update_cons.mpr (Or.inr hk)) h ?_
    intro hash' hi
    rw [hw] at hi
    cases hi
    exact Somewhere.seen j (mem_update_cons.mpr (Or.inl ⟨rfl, rfl⟩))
  | call hw =>
    refine workerTurn rfl rfl rfl rfl (fun _ _ hk => hk) h fun hash hi => ?_
    rw [hw] at hi
    cases hi
  | _ => exact h

end Somewhere

/-! ### Every reachable state -/

/-- What holds in every state of every run. -/
structure Inv (s : State cfg) : Prop where
  traced : Traced s
  counted : Counted s
  shutdown : Shutdown s
  kept : ∀ key ∈ s.pushed, Somewhere s key

theorem inv_init : Inv (State.init : State cfg) := by
  refine ⟨⟨?_, ?_, ?_, ?_, ?_⟩, ⟨?_, ?_, ?_, ?_⟩, ⟨?_, ?_, ?_, ?_, ?_, ?_, ?_⟩, ?_⟩
  all_goals simp [State.init, State.called, Reader.keys, Reader.Ending, Worker.Ok]

theorem Move.pushed (hm : Move s t) : t.pushed = s.pushed ∨
    ∃ key, t.pushed = s.pushed ++ [key] ∧ key ∈ t.queue := by
  cases hm with
  | push key _ => exact Or.inr ⟨key, rfl, List.mem_append_right _ (List.mem_singleton_self _)⟩
  | _ => exact Or.inl rfl

theorem Inv.move (h : Inv s) (hm : Move s t) : Inv t := by
  refine ⟨h.traced.move hm, h.counted.move h.traced hm, h.shutdown.move hm, ?_⟩
  intro key hk
  rcases hm.pushed with hp | ⟨key', hp, hq⟩
  · exact (h.kept key (hp ▸ hk)).move h.shutdown hm
  · rw [hp] at hk
    rcases List.mem_append.mp hk with hk | hk
    · exact (h.kept key hk).move h.shutdown hm
    · obtain rfl := List.mem_singleton.mp hk
      exact Somewhere.queue hq

/-- **The invariant of the pipeline**, over every run. -/
theorem reachable_inv (h : (pipeline cfg).Reachable s) : Inv s :=
  h.invariant inv_init fun _ _ _ hs hstep => hs.move (move_of_step hstep)

/-! ### Delivery -/

theorem Inv.completed (h : Inv s) (hc : s.coordinator = .completed) :
    s.queue = [] ∧ (∀ r, (s.readers r).keys = []) ∧ (∀ j, s.chans j = []) ∧
      ∀ j, s.workers j = .finished := by
  have hf := h.shutdown.allFinished hc
  have hr := h.shutdown.allReturned (by simp [hc])
  refine ⟨h.shutdown.returned ⟨0, cfg.readers_pos⟩ (hr _), ?_,
    fun j => (h.shutdown.finished j (hf j)).2, hf⟩
  intro r
  rw [hr r]
  rfl

theorem Inv.called_of_completed (h : Inv s) (hc : s.coordinator = .completed) {key : Pubkey}
    (hk : key ∈ s.pushed) : key ∈ s.called := by
  obtain ⟨hq, hr, hch, hf⟩ := h.completed hc
  rcases h.kept key hk with h1 | ⟨r, h1⟩ | ⟨j, hash, h1⟩ | ⟨j, hash, h1⟩ | ⟨j, h1⟩
  · rw [hq] at h1
    cases h1
  · rw [hr r] at h1
    cases h1
  · rw [hch j] at h1
    cases h1
  · rw [hf j] at h1
    cases h1
  · rcases h.counted.seen j key h1 with h2 | ⟨hash, h2⟩
    · exact h2
    · rw [hf j] at h2
      cases h2

/-- **Exactly once.** In every state of every run, `on_key` has been called at
most once for each key, for pushed keys only, with the key's hash and shard;
when the completion message has been sent it has been called exactly once for
every pushed key, and no key is left in the queue, a batch or a channel. -/
theorem delivers_once (h : (pipeline cfg).Reachable s) :
    s.called.Nodup ∧
    (∀ c ∈ s.calls, c.key ∈ s.pushed ∧ c.hash = cfg.hash c.key ∧
      c.shardId = c.hash.toNat % cfg.nShards ∧ c.shardId < cfg.nShards) ∧
    (s.coordinator = .completed →
      (∀ key ∈ s.pushed, s.called.count key = 1) ∧ s.queue = [] ∧
      (∀ r, (s.readers r).keys = []) ∧ ∀ j, s.chans j = []) := by
  have hi := reachable_inv h
  refine ⟨hi.counted.nodup, ?_, ?_⟩
  · intro c hc
    obtain ⟨j, hr, hid, hs⟩ := hi.counted.call c hc
    have hhash : cfg.hash c.key = c.hash := congrArg Prod.fst hr
    have hshard : (cfg.hash c.key).toNat % cfg.nShards = j.val := congrArg (fun p => p.2.val) hr
    refine ⟨(hi.traced.seen j _ hs).2, hhash.symm, ?_, hid ▸ j.isLt⟩
    calc c.shardId
        = j.val := hid
      _ = (cfg.hash c.key).toNat % cfg.nShards := hshard.symm
      _ = c.hash.toNat % cfg.nShards := by rw [hhash]
  · intro hc
    obtain ⟨hq, hr, hch, -⟩ := hi.completed hc
    exact ⟨fun key hk => List.count_eq_one_of_mem hi.counted.nodup (hi.called_of_completed hc hk), hq,
      hr, hch⟩

end

/-- The key of 32 zeros. -/
def zeroKey : Pubkey := Vector.replicate 32 0

/-- The key of 32 ones. -/
def oneKey : Pubkey := Vector.replicate 32 1

/-- Two shards and one reader; the hash is that of the two keys. -/
def twoShards : Config where
  nShards := 2
  nReaders := 1
  hash key := if key = oneKey then 0x8f2a9f25002d050d else 0xf6e9be5d70632cf5
  shards_pos := by decide
  readers_pos := by decide

/-- The zero key is pushed twice and everything is run to the end. -/
def zeroKeyTwice : List (Action twoShards) :=
  let reader : Action twoShards := .reader ⟨0, by decide⟩
  let worker (j : Fin 2) : Action twoShards := .worker j
  [.push zeroKey, reader, .push zeroKey, .setDone] ++
  List.replicate 7 reader ++ List.replicate 5 (worker 1) ++ List.replicate 2 .coordinator ++
  [worker 0, worker 1] ++ List.replicate 3 .coordinator

theorem delivers_zero_key_once : ∃ s : State twoShards, (pipeline twoShards).Reachable s ∧
    s.pushed = [zeroKey, zeroKey] ∧ s.coordinator = .completed ∧ s.called.count zeroKey = 1 := by
  have hrun : ((pipeline twoShards).run State.init zeroKeyTwice).isSome := by decide
  obtain ⟨s, hs⟩ := Option.isSome_iff_exists.mp hrun
  have hend : ((pipeline twoShards).run State.init zeroKeyTwice).map
      (fun s => (s.coordinator, s.pushed)) = some (.completed, [zeroKey, zeroKey]) := by decide
  rw [hs] at hend
  obtain ⟨hc, hp⟩ := Prod.mk.inj (Option.some.inj hend)
  have hr : (pipeline twoShards).Reachable s := Machine.reachable_of_run hs
  exact ⟨s, hr, hp, hc, ((delivers_once hr).2.2 hc).1 _ (by simp [hp])⟩

end Shard
end Zerohop
