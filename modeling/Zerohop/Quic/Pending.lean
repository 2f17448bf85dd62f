/-
# Pending batches

`QuicRequestHandler` of `quic.rs` as a machine of two threads. The handler runs
`on_request`: it cuts the batch, queues it under the lock of `pending`, takes a
copy of the leader list and sends the batch to each leader. The refresher
sleeps, fetches the leaders, stores them, and under the same lock drops the
batches that are too old and sends the others to each new leader.

A step is one access to what the threads share or one send; a step is `none`
while its thread waits for the lock. The leader list is read and written in one
statement each, so its own lock is never held across steps. Time is a number of
nanoseconds that only grows, and `duration_since` is 0 for a time in the
future. What a send answers and what a fetch returns is up to the environment.
`accepted`, `lastNow` and `rounds` record the batches queued, the `now` of the
last sweep and the sends of each finished sweep.
-/
import Zerohop.Err
import Zerohop.Lib.Expiry
import Zerohop.Lib.Machine
import Zerohop.Quic.Request

namespace Zerohop
namespace Quic

open Expiry

/-- `PENDING_TX_TTL`, 30 s. -/
def pendingTxTtl : ℕ := 30 * 1000000000

/-- `PendingBatch`. -/
structure PendingBatch where
  txs : List (List UInt8)
  sentAt : ℕ
deriving DecidableEq

/-- Where the handler stands in `on_request`. -/
inductive Handler (Leader : Type) where
  | idle
  /-- Before `pending.lock()`. -/
  | locking (txs : List (List UInt8))
  /-- Before `Instant::now()`, the lock held. -/
  | locked (txs : List (List UInt8))
  /-- Before `push_back`, the lock held. -/
  | stamped (txs : List (List UInt8)) (sentAt : ℕ)
  /-- Queued, the lock still held. -/
  | pushed (txs : List (List UInt8))
  /-- Before the copy of the leader list. -/
  | snapshotting (txs : List (List UInt8))
  | sending (txs : List (List UInt8)) (leaders : List Leader) (sentCount : UInt16)
  | panicked
  | dropped
deriving DecidableEq

/-- One sweep: the new leaders, its `now`, the batches kept and the sends. -/
structure Round (Leader : Type) where
  leaders : List Leader
  now : ℕ
  kept : List PendingBatch
  sends : List (PendingBatch × Leader)
deriving DecidableEq

/-- Where the refresher stands. -/
inductive Refresher (Leader : Type) where
  /-- That many naps of 50 ms to go. -/
  | sleeping (left : ℕ)
  | fetching
  /-- Before the leaders are stored. -/
  | storing (leaders : List Leader)
  /-- Before `Instant::now()`. -/
  | stamping (leaders : List Leader)
  /-- Before `pending.lock()`. -/
  | locking (leaders : List Leader) (now : ℕ)
  /-- Before `retain`, the lock held. -/
  | locked (leaders : List Leader) (now : ℕ)
  /-- In the loops that send, the lock held; what is left to send. -/
  | retrying (round : Round Leader) (todo : List (PendingBatch × Leader))
  | returned
deriving DecidableEq

/-- Who holds the lock of `pending`. -/
inductive Owner where
  | handler
  | refresher
deriving DecidableEq

/-- No call of `on_request` is under way: the last one has returned or panicked. -/
def Handler.free {Leader : Type} : Handler Leader → Bool
  | .idle => true
  | .panicked => true
  | _ => false

structure State (Leader : Type) where
  clock : ℕ
  stop : Bool
  sleepMs : ℕ
  handler : Handler Leader
  refresher : Refresher Leader
  lock : Option Owner
  pending : List PendingBatch
  leaders : List Leader
  accepted : List PendingBatch
  lastNow : Option ℕ
  rounds : List (Round Leader)

/-- What happens next. -/
inductive Action (Leader : Type) where
  /-- Time passes. -/
  | tick (nanos : ℕ)
  /-- `on_request` is called. -/
  | call (request : TransactionRequest)
  /-- The handler goes on; `sent` answers its send, if it makes one. -/
  | handler (sent : Bool)
  /-- The refresher goes on; `fetched` answers its fetch, if it makes one. -/
  | refresher (fetched : Option (List Leader))
  /-- The handler is dropped. -/
  | drop

variable {Leader : Type}

/-- The nested loops over the batches and the leaders. -/
def retries (kept : List PendingBatch) (leaders : List Leader) : List (PendingBatch × Leader) :=
  kept.flatMap fun batch => leaders.map fun leader => (batch, leader)

/-- The naps of a sleep of `ms` milliseconds. -/
def naps (ms : ℕ) : ℕ := max (ms / 50) 1

namespace State

/-- After `QuicRequestHandler::new`, whose first fetch gave `leaders`. -/
def init (leaders : List Leader) : State Leader where
  clock := 0
  stop := false
  sleepMs := 400
  handler := .idle
  refresher := .sleeping (naps 400)
  lock := none
  pending := []
  leaders := leaders
  accepted := []
  lastNow := none
  rounds := []

/-- The loop of `on_request` that sends and counts, `+= 1` on a `u16`. -/
def send (debug : Bool) (s : State Leader) (txs : List (List UInt8)) (leaders : List Leader)
    (sentCount : UInt16) (sent : Bool) : State Leader :=
  match leaders with
  | [] => { s with handler := .idle }
  | _ :: leaders =>
    if sent then
      if debug && sentCount == 65535 then { s with handler := .panicked }
      else { s with handler := .sending txs leaders (sentCount + 1) }
    else { s with handler := .sending txs leaders sentCount }

/-- One step of the handler in `on_request`. -/
def handlerStep (debug : Bool) (s : State Leader) (sent : Bool) : Option (State Leader) :=
  match s.handler with
  | .locking txs =>
    match s.lock with
    | none => some { s with handler := .locked txs, lock := some .handler }
    | some _ => none
  | .locked txs => some { s with handler := .stamped txs s.clock }
  | .stamped txs sentAt =>
    let batch : PendingBatch := ⟨txs, sentAt⟩
    some { s with
      handler := .pushed txs
      pending := s.pending ++ [batch]
      accepted := s.accepted ++ [batch] }
  | .pushed txs => some { s with handler := .snapshotting txs, lock := none }
  | .snapshotting txs => some { s with handler := .sending txs s.leaders 0 }
  | .sending txs leaders sentCount => some (s.send debug txs leaders sentCount sent)
  | .idle => none
  | .panicked => none
  | .dropped => none

/-- One step of the background thread. -/
def refresherStep (s : State Leader) (fetched : Option (List Leader)) : Option (State Leader) :=
  match s.refresher with
  | .sleeping 0 => some { s with refresher := .fetching }
  | .sleeping (left + 1) =>
    some { s with refresher := if s.stop then .returned else .sleeping left }
  | .fetching =>
    match fetched with
    | some leaders => some { s with sleepMs := 400, refresher := .storing leaders }
    | none =>
      let sleepMs := min (s.sleepMs * 2) 5000
      some { s with sleepMs, refresher := .sleeping (naps sleepMs) }
  | .storing leaders => some { s with leaders, refresher := .stamping leaders }
  | .stamping leaders => some { s with refresher := .locking leaders s.clock }
  | .locking leaders now =>
    match s.lock with
    | none => some { s with refresher := .locked leaders now, lock := some .refresher }
    | some _ => none
  | .locked leaders now =>
    let pending := s.pending.filter fun batch => decide (now - batch.sentAt < pendingTxTtl)
    some { s with
      pending
      refresher := .retrying ⟨leaders, now, pending, []⟩ (retries pending leaders)
      lastNow := some now }
  | .retrying round (item :: todo) =>
    some { s with refresher := .retrying { round with sends := round.sends ++ [item] } todo }
  | .retrying round [] =>
    some { s with
      refresher := .sleeping (naps s.sleepMs)
      lock := none
      rounds := s.rounds ++ [round] }
  | .returned => none

/-- A request that cannot be cut panics. -/
def step (debug : Bool) (s : State Leader) : Action Leader → Option (State Leader)
  | .tick nanos => some { s with clock := s.clock + nanos }
  | .call request =>
    if s.handler.free then
      match request.cut with
      | some txs => some { s with handler := .locking txs }
      | none => some { s with handler := .panicked }
    else none
  | .handler sent => s.handlerStep debug sent
  | .refresher fetched => s.refresherStep fetched
  | .drop => if s.handler.free then some { s with handler := .dropped, stop := true } else none

end State

/-- The handler and the refresher, from a first leader list. -/
def retryMachine (debug : Bool) (leaders : List Leader) : Machine (State Leader) (Action Leader) :=
  ⟨State.init leaders, State.step debug⟩

end Quic
end Zerohop
