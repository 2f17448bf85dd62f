/-
# The sharding pipeline

`shard_dedup_pubkeys` of `shard.rs` as a machine: producers push keys to a
queue, readers pop them in batches and send each to the channel of its shard,
a worker per shard calls `on_key` on the first occurrence of a key, and a
coordinator joins the readers, drops the senders, joins the workers and sends
the completion message. Any thread may take the next step.

A step is one access to what the threads share (the queue, a channel, the
`done` flag, a join) with the thread's own work up to the next one. A step is
`none` while its thread is blocked: a send on a full channel, a receive on an
empty one that is still open, a join of a running thread. The queue is FIFO, a
channel bounded by `CHANNEL_CAP`. `capacity_hint` only pre-sizes the workers'
sets. `pushed` and `calls` record the pushes and the calls of `on_key`.
-/
import Mathlib.Data.List.Basic
import Mathlib.Logic.Function.Basic
import Mathlib.Data.Fintype.Basic
import Zerohop.Lib.Machine

namespace Zerohop
namespace Shard

/-- `CHANNEL_CAP`. -/
def channelCap : ℕ := 1 <<< 16

/-- `BATCH`. -/
def batchSize : ℕ := 256

abbrev Pubkey := Vector UInt8 32

/-- The arguments of a call that its assertions let pass, and the hash
function (`XxHash64` with seed 0). -/
structure Config where
  nShards : ℕ
  nReaders : ℕ
  hash : Pubkey → UInt64
  shards_pos : 1 ≤ nShards
  readers_pos : 1 ≤ nReaders

/-- `route`: the hash of a key and its shard. -/
def Config.route (cfg : Config) (key : Pubkey) : UInt64 × Fin cfg.nShards :=
  (cfg.hash key, ⟨(cfg.hash key).toNat % cfg.nShards, Nat.mod_lt _ cfg.shards_pos⟩)

/-- Where a reader stands. -/
inductive Reader where
  /-- In the loop that fills the batch. -/
  | collecting (batch : List Pubkey)
  /-- Sending what is left of the batch. -/
  | routing (batch : List Pubkey)
  /-- Before the load of `done`. -/
  | checking
  /-- In the final drain, before a pop. -/
  | draining
  /-- In the final drain, sending the key it popped. -/
  | sending (key : Pubkey)
  | returned
deriving DecidableEq

/-- Where a shard worker stands. -/
inductive Worker where
  | receiving
  /-- Received, before `seen.insert`. -/
  | inserting (hash : UInt64) (key : Pubkey)
  /-- Inserted as new, before `on_key`. -/
  | calling (hash : UInt64) (key : Pubkey)
  | finished
deriving DecidableEq

/-- Where the coordinator stands, with the next thread it joins. -/
inductive Coordinator where
  | joiningReaders (next : ℕ)
  | joiningWorkers (next : ℕ)
  | completed
deriving DecidableEq

/-- One call of `on_key`. -/
structure Call where
  shardId : ℕ
  hash : UInt64
  key : Pubkey
deriving DecidableEq

/-- The shared memory, the threads, and the record of pushes and calls. -/
structure State (cfg : Config) where
  queue : List Pubkey
  done : Bool
  readers : Fin cfg.nReaders → Reader
  chans : Fin cfg.nShards → List (UInt64 × Pubkey)
  seen : Fin cfg.nShards → List Pubkey
  workers : Fin cfg.nShards → Worker
  coordinator : Coordinator
  calls : List Call
  pushed : List Pubkey

/-- Who takes the next step. -/
inductive Action (cfg : Config) where
  | push (key : Pubkey)
  | setDone
  | reader (r : Fin cfg.nReaders)
  | worker (j : Fin cfg.nShards)
  | coordinator

variable {cfg : Config}

namespace State

variable (s : State cfg)

def init : State cfg where
  queue := []
  done := false
  readers := fun _ => .collecting []
  chans := fun _ => []
  seen := fun _ => []
  workers := fun _ => .receiving
  coordinator := .joiningReaders 0
  calls := []
  pushed := []

def setReader (r : Fin cfg.nReaders) (reader : Reader) : State cfg :=
  { s with readers := Function.update s.readers r reader }

def setWorker (j : Fin cfg.nShards) (worker : Worker) : State cfg :=
  { s with workers := Function.update s.workers j worker }

/-- `item` at the end of a channel. -/
def enqueue (shard : Fin cfg.nShards) (item : UInt64 × Pubkey) : State cfg :=
  { s with chans := Function.update s.chans shard (s.chans shard ++ [item]) }

/-- `txs[shard].send((hash, key)).ok()`: a worker that has returned dropped its
receiver, so the send fails and the key is lost. -/
def send (key : Pubkey) : Option (State cfg) :=
  let (hash, shard) := cfg.route key
  if s.workers shard = .finished then some s
  else if (s.chans shard).length < channelCap then some (s.enqueue shard (hash, key))
  else none

/-- Every `Arc` of the senders is gone: the coordinator's and the readers'. -/
def sendersDropped : Prop :=
  (∀ i, s.coordinator ≠ .joiningReaders i) ∧ ∀ r, s.readers r = .returned

instance : Decidable s.sendersDropped :=
  haveI : Decidable (∀ i, s.coordinator ≠ .joiningReaders i) :=
    match h : s.coordinator with
    | .joiningReaders i => isFalse fun hc => hc i rfl
    | .joiningWorkers _ => isTrue fun _ hc => by cases hc
    | .completed => isTrue fun _ hc => by cases hc
  inferInstanceAs (Decidable (_ ∧ _))

def readerStep (r : Fin cfg.nReaders) : Option (State cfg) :=
  match s.readers r with
  | .collecting batch =>
    if batch.length < batchSize then
      match s.queue with
      | key :: queue => some ({ s with queue }.setReader r (.collecting (batch ++ [key])))
      | [] => some (s.setReader r (.routing batch))
    else some (s.setReader r (.routing batch))
  | .routing (key :: batch) => (s.send key).map fun t => t.setReader r (.routing batch)
  | .routing [] => some (s.setReader r .checking)
  | .checking => some (s.setReader r (if s.done then .draining else .collecting []))
  | .draining =>
    match s.queue with
    | key :: queue => some ({ s with queue }.setReader r (.sending key))
    | [] => some (s.setReader r .returned)
  | .sending key => (s.send key).map fun t => t.setReader r .draining
  | .returned => none

def workerStep (j : Fin cfg.nShards) : Option (State cfg) :=
  match s.workers j with
  | .receiving =>
    match s.chans j with
    | (hash, key) :: rest =>
      some ({ s with chans := Function.update s.chans j rest }.setWorker j (.inserting hash key))
    | [] => if s.sendersDropped then some (s.setWorker j .finished) else none
  | .inserting hash key =>
    if key ∈ s.seen j then some (s.setWorker j .receiving)
    else some ({ s with seen := Function.update s.seen j (key :: s.seen j) }.setWorker j
      (.calling hash key))
  | .calling hash key =>
    some ({ s with calls := s.calls ++ [(⟨j, hash, key⟩ : Call)] }.setWorker j .receiving)
  | .finished => none

def coordinatorStep : Option (State cfg) :=
  match s.coordinator with
  | .joiningReaders i =>
    if h : i < cfg.nReaders then
      if s.readers ⟨i, h⟩ = .returned then some { s with coordinator := .joiningReaders (i + 1) }
      else none
    else some { s with coordinator := .joiningWorkers 0 }
  | .joiningWorkers j =>
    if h : j < cfg.nShards then
      if s.workers ⟨j, h⟩ = .finished then some { s with coordinator := .joiningWorkers (j + 1) }
      else none
    else some { s with coordinator := .completed }
  | .completed => none

/-- Producers push only while `done` is not set, and it is set once. -/
def step : Action cfg → Option (State cfg)
  | .push key =>
    if s.done then none
    else some { s with queue := s.queue ++ [key], pushed := s.pushed ++ [key] }
  | .setDone => if s.done then none else some { s with done := true }
  | .reader r => s.readerStep r
  | .worker j => s.workerStep j
  | .coordinator => s.coordinatorStep

end State

/-- `shard_dedup_pubkeys` and its producers. -/
def pipeline (cfg : Config) : Machine (State cfg) (Action cfg) := ⟨State.init, State.step⟩

end Shard
end Zerohop
