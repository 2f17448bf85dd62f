/-
# A single reader keeps the order of the pushes

With one reader the keys of a shard go to its channel in the order in which
they were pushed. A worker takes its channel in order, and of the keys it has
dealt with it has called `on_key` for the first occurrences. So the calls of a
shard are, in their order, the first occurrences among its pushed keys: a
prefix of them in every state, all of them once the completion message is sent.
With more readers two batches may overtake each other, and the order is lost;
the calls themselves, with their arguments, are the same for every number of
readers and every schedule.

Key definitions: `State.pushedTo`, `State.calledAt`, `Streamed`.
Key theorems: `calls_in_push_order`, `calls_same_keys`.
-/
import Zerohop.Shard.Delivery

namespace Zerohop
namespace Shard

variable {cfg : Config}

/-! ### First occurrences -/

section

variable {α : Type*} [BEq α] [LawfulBEq α]

theorem eraseDups_concat_of_mem {l : List α} {x : α} (hx : x ∈ l) :
    (l ++ [x]).eraseDups = l.eraseDups := by
  rw [List.eraseDups_append]
  simp [List.removeAll, hx]

theorem eraseDups_concat_of_notMem {l : List α} {x : α} (hx : x ∉ l) :
    (l ++ [x]).eraseDups = l.eraseDups ++ [x] := by
  rw [List.eraseDups_append]
  simp [List.removeAll, hx, List.eraseDups_cons]

/-- The first occurrences in a prefix come first. -/
theorem eraseDups_mono {l m : List α} (h : l <+: m) : l.eraseDups <+: m.eraseDups := by
  obtain ⟨rest, rfl⟩ := h
  rw [List.eraseDups_append]
  exact List.prefix_append ..

end

/-! ### A worker and its channel -/

/-- The key that a worker is to look up. -/
def Worker.hand : Worker → List Pubkey
  | inserting _ key => [key]
  | _ => []

/-- The key that a worker is to call for. -/
def Worker.pending : Worker → List Pubkey
  | calling _ key => [key]
  | _ => []

namespace State

/-- The keys that belong at shard `j`, in their order. -/
def ofShard (j : Fin cfg.nShards) (keys : List Pubkey) : List Pubkey :=
  keys.filter fun key => decide ((cfg.route key).2 = j)

/-- The pushed keys of a shard. -/
def pushedTo (s : State cfg) (j : Fin cfg.nShards) : List Pubkey := ofShard j s.pushed

/-- The keys for which a shard has called `on_key`. -/
def calledAt (s : State cfg) (j : Fin cfg.nShards) : List Pubkey :=
  (s.calls.filter fun call => decide (call.shardId = j.val)).map Call.key

end State

open State

/-- Shard `j` has been sent the keys `arrived`: some are dealt with, one may be
in its worker's hand, the others are in the channel. -/
structure Streamed (s : State cfg) (j : Fin cfg.nShards) (dealt arrived : List Pubkey) : Prop where
  arrived : dealt ++ (s.workers j).hand ++ (s.chans j).map Prod.snd = arrived
  seen : (s.seen j).reverse = dealt.eraseDups
  called : s.calledAt j ++ (s.workers j).pending = (s.seen j).reverse

/-- What is not yet sent, of the one reader and the queue. -/
def State.unsent (s : State cfg) (j : Fin cfg.nShards) : List Pubkey :=
  ofShard j ((s.readers ⟨0, cfg.readers_pos⟩).keys ++ s.queue)

/-- The keys of the shard are on their way in the order of the pushes. -/
def InOrder (s : State cfg) (j : Fin cfg.nShards) : Prop :=
  ∃ dealt arrived, Streamed s j dealt arrived ∧ arrived ++ s.unsent j = s.pushedTo j

section

variable {s t : State cfg} {j : Fin cfg.nShards}

theorem ofShard_append (keys keys' : List Pubkey) :
    ofShard j (keys ++ keys') = ofShard j keys ++ ofShard j keys' := List.filter_append ..

theorem Streamed.of_ne {dealt arrived : List Pubkey} (h : Streamed s j dealt arrived)
    (hw : t.workers j = s.workers j) (hc : t.chans j = s.chans j) (hs : t.seen j = s.seen j)
    (hcalls : t.calledAt j = s.calledAt j) : Streamed t j dealt arrived := by
  refine ⟨?_, ?_, ?_⟩
  · rw [hw, hc]
    exact h.arrived
  · rw [hs]
    exact h.seen
  · rw [hw, hs, hcalls]
    exact h.called

theorem Streamed.receive {dealt arrived : List Pubkey} {hash : UInt64} {key : Pubkey}
    {rest : List (UInt64 × Pubkey)} (h : Streamed s j dealt arrived) (hw : s.workers j = .receiving)
    (hc : s.chans j = (hash, key) :: rest) :
    Streamed ({ s with chans := Function.update s.chans j rest }.setWorker j (.inserting hash key)) j
      dealt arrived := by
  obtain ⟨harrived, hseen, hcalled⟩ := h
  rw [hw, hc] at harrived
  rw [hw] at hcalled
  refine ⟨?_, hseen, ?_⟩
  · rw [setWorker_workers, Function.update_self]
    change dealt ++ [key] ++ (Function.update s.chans j rest j).map Prod.snd = arrived
    rw [Function.update_self, ← harrived]
    simp [Worker.hand]
  · rw [setWorker_workers, Function.update_self]
    exact hcalled

theorem Streamed.again {dealt arrived : List Pubkey} {hash : UInt64} {key : Pubkey}
    (h : Streamed s j dealt arrived) (hw : s.workers j = .inserting hash key) (hk : key ∈ s.seen j) :
    Streamed (s.setWorker j .receiving) j (dealt ++ [key]) arrived := by
  obtain ⟨harrived, hseen, hcalled⟩ := h
  rw [hw] at harrived hcalled
  have hold : key ∈ dealt := by
    rw [← List.mem_eraseDups, ← hseen]
    exact List.mem_reverse.mpr hk
  refine ⟨?_, ?_, ?_⟩
  · rw [setWorker_workers, Function.update_self, ← harrived]
    simp [Worker.hand, setWorker]
  · rw [eraseDups_concat_of_mem hold]
    exact hseen
  · rw [setWorker_workers, Function.update_self]
    exact hcalled

theorem Streamed.insert {dealt arrived : List Pubkey} {hash : UInt64} {key : Pubkey}
    (h : Streamed s j dealt arrived) (hw : s.workers j = .inserting hash key) (hk : key ∉ s.seen j) :
    Streamed ({ s with seen := Function.update s.seen j (key :: s.seen j) }.setWorker j
      (.calling hash key)) j (dealt ++ [key]) arrived := by
  obtain ⟨harrived, hseen, hcalled⟩ := h
  rw [hw] at harrived hcalled
  have hnew : key ∉ dealt := by
    rw [← List.mem_eraseDups, ← hseen]
    exact fun h => hk (List.mem_reverse.mp h)
  have hseen' : (Function.update s.seen j (key :: s.seen j) j).reverse = (s.seen j).reverse ++ [key] := by
    rw [Function.update_self, List.reverse_cons]
  refine ⟨?_, ?_, ?_⟩
  · rw [setWorker_workers, Function.update_self, ← harrived]
    simp [Worker.hand, setWorker]
  · rw [eraseDups_concat_of_notMem hnew, ← hseen]
    exact hseen'
  · rw [setWorker_workers, Function.update_self]
    change s.calledAt j ++ [] = (s.seen j).reverse at hcalled
    rw [List.append_nil] at hcalled
    change s.calledAt j ++ [key] = _
    rw [hcalled]
    exact hseen'.symm

theorem calledAt_concat (s : State cfg) (j j' : Fin cfg.nShards) (hash : UInt64) (key : Pubkey) :
    calledAt ({ s with calls := s.calls ++ [(⟨j, hash, key⟩ : Call)] }.setWorker j .receiving) j' =
      s.calledAt j' ++ if j = j' then [key] else [] := by
  by_cases hj : j = j'
  · simp [calledAt, setWorker, hj]
  · simp [calledAt, setWorker, hj, Fin.val_inj]

theorem Streamed.call {dealt arrived : List Pubkey} {hash : UInt64} {key : Pubkey}
    (h : Streamed s j dealt arrived) (hw : s.workers j = .calling hash key) :
    Streamed ({ s with calls := s.calls ++ [(⟨j, hash, key⟩ : Call)] }.setWorker j .receiving) j
      dealt arrived := by
  obtain ⟨harrived, hseen, hcalled⟩ := h
  rw [hw] at harrived hcalled
  refine ⟨?_, hseen, ?_⟩
  · rw [setWorker_workers, Function.update_self]
    exact harrived
  · rw [calledAt_concat, if_pos rfl, setWorker_workers, Function.update_self]
    change s.calledAt j ++ [key] ++ [] = _
    rw [List.append_nil]
    exact hcalled

/-! ### The moves -/

theorem unsent_setReader (hone : cfg.nReaders = 1) (r : Fin cfg.nReaders) (reader : Reader) :
    (s.setReader r reader).unsent j = ofShard j (reader.keys ++ s.queue) := by
  obtain rfl : r = ⟨0, cfg.readers_pos⟩ := Fin.ext (by omega)
  rw [unsent, setReader_readers, Function.update_self]
  rfl

theorem readers_eq (hone : cfg.nReaders = 1) (r : Fin cfg.nReaders) :
    s.readers r = s.readers ⟨0, cfg.readers_pos⟩ :=
  congrArg s.readers (Fin.ext (by omega))

theorem InOrder.worker (j' : Fin cfg.nShards) (h : InOrder s j) (hu : t.unsent j = s.unsent j)
    (hp : t.pushedTo j = s.pushedTo j)
    (hself : ∀ dealt arrived, j = j' → Streamed s j dealt arrived → ∃ dealt', Streamed t j dealt' arrived)
    (hother : ∀ dealt arrived, j ≠ j' → Streamed s j dealt arrived → Streamed t j dealt arrived) :
    InOrder t j := by
  obtain ⟨dealt, arrived, hst, hpushed⟩ := h
  rw [InOrder, hu, hp]
  by_cases hj : j = j'
  · obtain ⟨dealt', hst'⟩ := hself dealt arrived hj hst
    exact ⟨dealt', arrived, hst', hpushed⟩
  · exact ⟨dealt, arrived, hother dealt arrived hj hst, hpushed⟩

/-- A reader sends the first of its keys. -/
theorem InOrder.send (hone : cfg.nReaders = 1) (h : InOrder s j) {r : Fin cfg.nReaders} {reader : Reader}
    {key : Pubkey} (hk : (s.readers r).keys = key :: reader.keys) :
    InOrder ((s.enqueue (cfg.route key).2 (cfg.hash key, key)).setReader r reader) j := by
  obtain ⟨dealt, arrived, hst, hpushed⟩ := h
  have hunsent : s.unsent j = ofShard j [key] ++ ofShard j (reader.keys ++ s.queue) := by
    rw [unsent, ← readers_eq hone r, hk, ← ofShard_append]
    rfl
  have hnew := unsent_setReader (s := s.enqueue (cfg.route key).2 (cfg.hash key, key)) (j := j) hone r reader
  by_cases hj : (cfg.route key).2 = j
  · subst hj
    -- the key is sent here, after all that arrived before
    have hone_key : ofShard (cfg.route key).2 [key] = [key] := by simp [ofShard]
    refine ⟨dealt, arrived ++ [key], ⟨?_, hst.seen, hst.called⟩, ?_⟩
    · change dealt ++ (s.workers _).hand ++
        (Function.update s.chans (cfg.route key).2 (s.chans _ ++ [(cfg.hash key, key)]) _).map Prod.snd = _
      rw [Function.update_self, List.map_append, ← List.append_assoc, hst.arrived]
      rfl
    · rw [hnew, List.append_assoc, ← hone_key]
      rw [hunsent] at hpushed
      rw [hone_key] at hpushed ⊢
      exact hpushed
  · have hno : ofShard j [key] = [] := by simp [ofShard, hj]
    refine ⟨dealt, arrived, hst.of_ne rfl (Function.update_of_ne (Ne.symm hj) ..) rfl rfl, ?_⟩
    rw [hnew]
    rw [hunsent, hno, List.nil_append] at hpushed
    exact hpushed

theorem InOrder.move (hone : cfg.nReaders = 1) (hs : Shutdown s) (h : InOrder s j) (hm : Move s t) :
    InOrder t j := by
  cases hm with
  | push key _ =>
    obtain ⟨dealt, arrived, hst, hpushed⟩ := h
    refine ⟨dealt, arrived, hst.of_ne rfl rfl rfl rfl, ?_⟩
    change arrived ++ ofShard j ((s.readers ⟨0, _⟩).keys ++ (s.queue ++ [key])) =
      ofShard j (s.pushed ++ [key])
    rw [← List.append_assoc, ofShard_append, ofShard_append (j := j) s.pushed, ← List.append_assoc]
    exact congrArg (· ++ ofShard j [key]) hpushed
  | @pop r reader key queue hq hk _ _ _ =>
    obtain ⟨dealt, arrived, hst, hpushed⟩ := h
    refine ⟨dealt, arrived, hst.of_ne rfl rfl rfl rfl, ?_⟩
    rw [unsent_setReader (s := { s with queue }) hone, hk, readers_eq hone, List.append_assoc]
    rw [unsent, hq] at hpushed
    exact hpushed
  | @turn r reader hk _ _ _ =>
    obtain ⟨dealt, arrived, hst, hpushed⟩ := h
    refine ⟨dealt, arrived, hst.of_ne rfl rfl rfl rfl, ?_⟩
    rw [unsent_setReader hone, hk, readers_eq hone]
    exact hpushed
  | send hk _ _ _ _ => exact h.send hone hk
  | lose _ hr hw => exact absurd hw (hs.worker_runs hr _)
  | @receive j' hash key rest hw hc =>
    refine h.worker j' rfl rfl ?_ ?_
    · rintro dealt arrived rfl hst
      exact ⟨dealt, hst.receive hw hc⟩
    · intro dealt arrived hj hst
      exact hst.of_ne (Function.update_of_ne hj ..) (Function.update_of_ne hj ..) rfl rfl
  | @finish j' hw hc _ =>
    refine h.worker j' rfl rfl ?_ ?_
    · rintro dealt arrived rfl hst
      refine ⟨dealt, ?_, hst.seen, ?_⟩
      · rw [setWorker_workers, Function.update_self]
        have := hst.arrived
        rwa [hw] at this
      · rw [setWorker_workers, Function.update_self]
        have := hst.called
        rwa [hw] at this
    · intro dealt arrived hj hst
      exact hst.of_ne (Function.update_of_ne hj ..) rfl rfl rfl
  | @again j' hash key hw hk =>
    refine h.worker j' rfl rfl ?_ ?_
    · rintro dealt arrived rfl hst
      exact ⟨dealt ++ [key], hst.again hw hk⟩
    · intro dealt arrived hj hst
      exact hst.of_ne (Function.update_of_ne hj ..) rfl rfl rfl
  | @insert j' hash key hw hk =>
    refine h.worker j' rfl rfl ?_ ?_
    · rintro dealt arrived rfl hst
      exact ⟨dealt ++ [key], hst.insert hw hk⟩
    · intro dealt arrived hj hst
      exact hst.of_ne (Function.update_of_ne hj ..) rfl (Function.update_of_ne hj ..) rfl
  | @call j' hash key hw =>
    refine h.worker j' rfl rfl ?_ ?_
    · rintro dealt arrived rfl hst
      exact ⟨dealt, hst.call hw⟩
    · intro dealt arrived hj hst
      refine hst.of_ne (Function.update_of_ne hj ..) rfl rfl ?_
      rw [calledAt_concat, if_neg (Ne.symm hj), List.append_nil]
  | _ =>
    obtain ⟨dealt, arrived, hst, hpushed⟩ := h
    exact ⟨dealt, arrived, hst.of_ne rfl rfl rfl rfl, hpushed⟩

/-! ### All runs -/

theorem init_inOrder (j : Fin cfg.nShards) : InOrder (State.init : State cfg) j :=
  ⟨[], [], ⟨rfl, rfl, rfl⟩, rfl⟩

/-- **A single reader keeps the order.** The calls of a shard are a prefix of
the first occurrences among its pushed keys, and all of them at the end. -/
theorem calls_in_push_order (hone : cfg.nReaders = 1) (h : (pipeline cfg).Reachable s)
    (j : Fin cfg.nShards) : s.calledAt j <+: (s.pushedTo j).eraseDups ∧
      (s.coordinator = .completed → s.calledAt j = (s.pushedTo j).eraseDups) := by
  have hboth : Inv s ∧ InOrder s j := by
    refine h.invariant (I := fun s => Inv s ∧ InOrder s j) ⟨inv_init, init_inOrder j⟩ ?_
    intro s a t hs hstep
    have hm := move_of_step hstep
    exact ⟨hs.1.move hm, hs.2.move hone hs.1.shutdown hm⟩
  obtain ⟨hi, dealt, arrived, ⟨harrived, hseen, hcalled⟩, hpushed⟩ := hboth
  have hdealt : dealt <+: s.pushedTo j := by
    rw [← hpushed, ← harrived, List.append_assoc, List.append_assoc]
    exact List.prefix_append ..
  constructor
  · have hcalls : s.calledAt j <+: dealt.eraseDups := by
      rw [← hseen, ← hcalled]
      exact List.prefix_append ..
    exact hcalls.trans (eraseDups_mono hdealt)
  · intro hc
    obtain ⟨hq, hr, hch, hf⟩ := hi.completed hc
    have hall : dealt = s.pushedTo j := by
      rw [← hpushed, ← harrived, unsent, hr, hq, hch j, hf j]
      simp [Worker.hand, ofShard]
    rw [← hall, ← hseen, ← hcalled, hf j]
    exact (List.append_nil _).symm

end

/-- Three pushes of two keys, run to the end. -/
def twoKeys : List (Action twoShards) :=
  let reader : Action twoShards := .reader ⟨0, twoShards.readers_pos⟩
  let worker : Action twoShards := .worker (Fin.last 1)
  [.push oneKey, .push (zeroKey), .push oneKey, .setDone] ++
  List.replicate 10 reader ++ List.replicate 8 worker ++ List.replicate 2 .coordinator ++
  [.worker ⟨0, twoShards.shards_pos⟩, worker] ++ List.replicate 3 .coordinator

/-- The key pushed first is called for first, and once. -/
theorem calls_in_push_order_two_keys : ∃ s : State twoShards, (pipeline twoShards).Reachable s ∧
    s.coordinator = .completed ∧ s.calledAt (1 : Fin 2) = [oneKey, zeroKey] := by
  have hrun : ((pipeline twoShards).run State.init twoKeys).isSome := by decide
  obtain ⟨s, hs⟩ := Option.isSome_iff_exists.mp hrun
  have hc : (((pipeline twoShards).run State.init twoKeys).map (·.coordinator)) = some .completed := by
    decide
  have hp : (((pipeline twoShards).run State.init twoKeys).map
      fun s => (s.pushedTo (1 : Fin 2)).eraseDups) = some [oneKey, zeroKey] := by decide
  rw [hs] at hc hp
  have hr : (pipeline twoShards).Reachable s := Machine.reachable_of_run hs
  have hcomp : s.coordinator = .completed := Option.some.inj hc
  exact ⟨s, hr, hcomp, ((calls_in_push_order rfl hr (1 : Fin 2)).2 hcomp).trans (Option.some.inj hp)⟩

/-! ### Whatever the order -/

/-- The call for a key. -/
def Config.callFor (cfg : Config) (key : Pubkey) : Call :=
  ⟨(cfg.route key).2, cfg.hash key, key⟩

theorem Inv.calls_eq {s : State cfg} (h : Inv s) : s.called.map cfg.callFor = s.calls := by
  have hcall : ∀ c ∈ s.calls, cfg.callFor c.key = c := by
    intro c hc
    obtain ⟨j, hr, hid, -⟩ := h.counted.call c hc
    have hhash : cfg.hash c.key = c.hash := congrArg Prod.fst hr
    rw [Config.callFor, hr, hhash, ← hid]
  calc s.called.map cfg.callFor
      = s.calls.map fun c => cfg.callFor c.key := List.map_map
    _ = s.calls.map fun c => c := List.map_congr_left hcall
    _ = s.calls := List.map_id' _

theorem Inv.mem_called {s : State cfg} (h : Inv s) (hc : s.coordinator = .completed) (key : Pubkey) :
    key ∈ s.called ↔ key ∈ s.pushed :=
  ⟨fun hk => (h.traced.seen _ _ (h.counted.seen_of_called hk)).2, fun hk => h.called_of_completed hc hk⟩

/-- **The same calls.** Two completed runs over the same keys, pushed in
whatever order and number, by however many readers and under whatever schedule,
have made the same calls. -/
theorem calls_same_keys {cfg cfg' : Config} {s : State cfg} {s' : State cfg'}
    (hshards : cfg.nShards = cfg'.nShards) (hhash : cfg.hash = cfg'.hash)
    (h : (pipeline cfg).Reachable s) (h' : (pipeline cfg').Reachable s')
    (hc : s.coordinator = .completed) (hc' : s'.coordinator = .completed)
    (hkeys : ∀ key, key ∈ s.pushed ↔ key ∈ s'.pushed) : s.calls.Perm s'.calls := by
  have hi := reachable_inv h
  have hi' := reachable_inv h'
  have hcalled : s.called.Perm s'.called := by
    apply (List.perm_ext_iff_of_nodup hi.counted.nodup hi'.counted.nodup).mpr
    intro key
    rw [hi.mem_called hc, hi'.mem_called hc', hkeys]
  have hcall : cfg.callFor = cfg'.callFor := by
    funext key
    simp only [Config.callFor, Config.route, hshards, hhash]
  rw [← hi.calls_eq, ← hi'.calls_eq, ← hcall]
  exact hcalled.map _

/-- Two shards as before, and two readers. -/
def twoReaders : Config := { twoShards with nReaders := 2, readers_pos := twoShards.shards_pos }

/-- Two pushes the other way round, taken by the second reader and run to the end. -/
def twoKeysSwapped : List (Action twoReaders) :=
  let first : Fin 2 := ⟨0, twoShards.shards_pos⟩
  [.push (zeroKey), .push oneKey, .setDone] ++
  List.replicate 8 (.reader (Fin.last 1)) ++ List.replicate 4 (.reader first) ++
  List.replicate 6 (.worker (Fin.last 1)) ++ List.replicate 3 .coordinator ++
  [.worker first, .worker (Fin.last 1)] ++ List.replicate 3 .coordinator

/-- A second reader, the other order and a repeated push change no call. -/
theorem calls_same_keys_two : ∃ (s : State twoShards) (s' : State twoReaders),
    (pipeline twoShards).Reachable s ∧ (pipeline twoReaders).Reachable s' ∧
      s.coordinator = .completed ∧ s'.coordinator = .completed ∧
      s.pushed = [oneKey, zeroKey, oneKey] ∧ s'.pushed = [zeroKey, oneKey] ∧
      s.calls.Perm s'.calls := by
  have hrun : ((pipeline twoShards).run State.init twoKeys).isSome := by decide
  have hrun' : ((pipeline twoReaders).run State.init twoKeysSwapped).isSome := by decide
  obtain ⟨s, hs⟩ := Option.isSome_iff_exists.mp hrun
  obtain ⟨s', hs'⟩ := Option.isSome_iff_exists.mp hrun'
  have hend : ((pipeline twoShards).run State.init twoKeys).map (fun s => (s.coordinator, s.pushed)) =
      some (.completed, [oneKey, zeroKey, oneKey]) := by decide
  have hend' : ((pipeline twoReaders).run State.init twoKeysSwapped).map
      (fun s => (s.coordinator, s.pushed)) = some (.completed, [zeroKey, oneKey]) := by decide
  rw [hs] at hend
  rw [hs'] at hend'
  obtain ⟨hc, hp⟩ := Prod.mk.inj (Option.some.inj hend)
  obtain ⟨hc', hp'⟩ := Prod.mk.inj (Option.some.inj hend')
  have hr : (pipeline twoShards).Reachable s := Machine.reachable_of_run hs
  have hr' : (pipeline twoReaders).Reachable s' := Machine.reachable_of_run hs'
  refine ⟨s, s', hr, hr', hc, hc', hp, hp', calls_same_keys rfl rfl hr hr' hc hc' fun key => ?_⟩
  rw [hp, hp']
  simp [or_comm]

end Shard
end Zerohop
