/-
# The ring is a windowed broadcast log

What the ring is for, on its own terms (`Log`): a log of all pushed
transactions, of which a reader that fell more than the window behind skips to
the oldest entry still there. `Ring` is what `buffer.rs` makes of it: the
shared ring and the consumers created so far, used by one uninterrupted call
after the other. Producers hold nothing but the shared ring, so a call names
no producer.

As long as fewer than `2 ^ 64` transactions are pushed the two give the same
results (`Matches` is the relation, `Matches.exec` its step), and what a
consumer sees follows from the log (`ring_broadcasts`).
-/
import Zerohop.Lib.Machine
import Zerohop.Buffer.Ring

namespace Zerohop
namespace Buffer

open Window

/-- A call on the ring or on consumer `i`. The weak exchange of `push` fails
spuriously `fails` times. -/
inductive Op (α : Type*)
  | push (fails : ℕ) (tx : α)
  | tryPush (tx : α)
  | consumer
  | tryPop (i : ℕ)
  | lag (i : ℕ)
  | isLapped (i : ℕ)

/-- What a call returned. A pop is given with the sequence number it consumed,
`position() - 1` after the call. -/
inductive Result (β : Type*)
  | pushed (seq : ℕ)
  | tryPushed (seq : Option ℕ)
  | created
  | popped (out : Option (ℕ × β))
  | lag (n : ℕ)
  | lapped (b : Bool)

namespace Op

variable {α : Type*}

/-- The transaction a call pushes. -/
def tx? : Op α → Option α
  | push _ tx => some tx
  | tryPush tx => some tx
  | _ => none

/-- The consumer a call is made on. -/
def consumer? : Op α → Option ℕ
  | tryPop i => some i
  | lag i => some i
  | isLapped i => some i
  | _ => none

end Op

/-- All transactions the calls push, in order. -/
def pushedTxs {α : Type*} (ops : List (Op α)) : List α := ops.filterMap Op.tx?

/-- Each call is on a consumer that exists by then, when `k` exist already. -/
def Handled {α : Type*} : ℕ → List (Op α) → Prop
  | _, [] => True
  | k, .consumer :: ops => Handled (k + 1) ops
  | k, op :: ops => (∀ i, op.consumer? = some i → i < k) ∧ Handled k ops

namespace Result

variable {β γ : Type*}

/-- The result with its transaction read through `f`. -/
def map (f : β → γ) : Result β → Result γ
  | pushed seq => pushed seq
  | tryPushed seq => tryPushed seq
  | created => created
  | popped out => popped (out.map fun p => (p.1, f p.2))
  | lag n => lag n
  | lapped b => lapped b

end Result

/-- What consumer `i` got from a call. -/
def delivery {α β : Type*} (i : ℕ) : Op α × Result β → Option (ℕ × β)
  | (.tryPop j, .popped (some p)) => if j = i then some p else none
  | _ => none

/-- All that consumer `i` got, with the sequence numbers. -/
def deliveries {α β : Type*} (i : ℕ) (ops : List (Op α)) (results : List (Result β)) : List (ℕ × β) :=
  (ops.zip results).filterMap (delivery i)

/-! ### The log -/

/-- The log and the position of each reader. -/
structure Log (α : Type*) where
  log : List α
  readers : List ℕ

namespace Log

variable {α : Type*}

def new : Log α := ⟨[], []⟩

/-- A call on the log, with a window of `n` entries. -/
def exec (n : ℕ) (l : Log α) : Op α → Option (Log α × Result α)
  | .push _ tx => some ({ l with log := l.log ++ [tx] }, .pushed l.log.length)
  | .tryPush tx => some ({ l with log := l.log ++ [tx] }, .tryPushed (some l.log.length))
  | .consumer => some ({ l with readers := l.readers ++ [l.log.length] }, .created)
  | .tryPop i => l.readers[i]?.map fun r =>
      match deliver n l.log r with
      | none => (l, .popped none)
      | some p => ({ l with readers := l.readers.set i (p.1 + 1) }, .popped (some p))
  | .lag i => l.readers[i]?.map fun r => (l, .lag (l.log.length - r))
  | .isLapped i => l.readers[i]?.map fun r => (l, .lapped (decide (n < l.log.length - r)))

end Log

/-! What a run of the log does: it keeps its entries, moves its readers on, and
hands each reader later and later entries. -/

namespace Log

variable {α : Type*} {n : ℕ}

/-- Where reader `i` stands, 0 before it exists. -/
def pos (l : Log α) (i : ℕ) : ℕ := l.readers[i]?.getD 0

theorem exec_log {l l' : Log α} {op : Op α} {r : Result α} (h : l.exec n op = some (l', r)) :
    l'.log = l.log ++ op.tx?.toList := by
  cases op with
  | push _ tx => cases h; rfl
  | tryPush tx => cases h; rfl
  | consumer => cases h; simp [Op.tx?]
  | tryPop i =>
    simp only [exec, Option.map_eq_some_iff] at h
    obtain ⟨_, -, h⟩ := h
    split at h <;> cases h <;> simp [Op.tx?]
  | lag i =>
    simp only [exec, Option.map_eq_some_iff, Prod.mk.injEq] at h
    obtain ⟨_, -, rfl, -⟩ := h
    simp [Op.tx?]
  | isLapped i =>
    simp only [exec, Option.map_eq_some_iff, Prod.mk.injEq] at h
    obtain ⟨_, -, rfl, -⟩ := h
    simp [Op.tx?]

theorem calls_log : ∀ (ops : List (Op α)) {l l' : Log α} {rs : List (Result α)},
    calls (exec n) l ops = some (l', rs) → l'.log = l.log ++ pushedTxs ops
  | [], l, l', rs, h => by
    cases h
    simp [pushedTxs]
  | op :: ops, l, l', rs, h => by
    obtain ⟨t, o, os, ht, hrest, -⟩ := calls_cons_eq_some.mp h
    rw [calls_log ops hrest, exec_log ht, List.append_assoc]
    congr 1
    cases htx : op.tx? <;> simp [pushedTxs, htx]

/-- A call on consumers that exist succeeds, and makes the next call's exist. -/
theorem exec_isSome {l : Log α} {op : Op α} {ops : List (Op α)}
    (h : Handled l.readers.length (op :: ops)) :
    ∃ l' r, l.exec n op = some (l', r) ∧ Handled l'.readers.length ops := by
  have hget : ∀ {i : ℕ}, i < l.readers.length → ∃ r, l.readers[i]? = some r := fun hi =>
    ⟨_, List.getElem?_eq_getElem hi⟩
  cases op with
  | push _ tx => exact ⟨_, _, rfl, h.2⟩
  | tryPush tx => exact ⟨_, _, rfl, h.2⟩
  | consumer =>
    refine ⟨_, _, rfl, ?_⟩
    simpa [Handled] using h
  | tryPop i =>
    obtain ⟨r, hr⟩ := hget (h.1 i rfl)
    simp only [exec, hr, Option.map_some]
    split
    · exact ⟨_, _, rfl, h.2⟩
    · exact ⟨_, _, rfl, by simpa using h.2⟩
  | lag i =>
    obtain ⟨r, hr⟩ := hget (h.1 i rfl)
    simp only [exec, hr, Option.map_some]
    exact ⟨_, _, rfl, h.2⟩
  | isLapped i =>
    obtain ⟨r, hr⟩ := hget (h.1 i rfl)
    simp only [exec, hr, Option.map_some]
    exact ⟨_, _, rfl, h.2⟩

theorem calls_isSome : ∀ (ops : List (Op α)) {l : Log α}, Handled l.readers.length ops →
    ∃ l' rs, calls (exec n) l ops = some (l', rs)
  | [], l, _ => ⟨l, [], rfl⟩
  | op :: ops, l, h => by
    obtain ⟨t, r, ht, hh⟩ := exec_isSome (n := n) h
    obtain ⟨l', rs, hrest⟩ := calls_isSome ops hh
    exact ⟨l', r :: rs, calls_cons_eq_some.mpr ⟨t, r, rs, ht, hrest, rfl⟩⟩

theorem exec_pos {l l' : Log α} {op : Op α} {r : Result α} (h : l.exec n op = some (l', r)) (i : ℕ) :
    l.pos i ≤ l'.pos i ∧ ∀ d, delivery i (op, r) = some d →
      l.pos i ≤ d.1 ∧ d.1 < l'.pos i ∧ l.log[d.1]? = some d.2 := by
  cases op with
  | push _ tx => cases h; exact ⟨le_rfl, by simp [delivery]⟩
  | tryPush tx => cases h; exact ⟨le_rfl, by simp [delivery]⟩
  | consumer =>
    cases h
    refine ⟨?_, by simp [delivery]⟩
    unfold pos
    by_cases hi : i < l.readers.length
    · rw [List.getElem?_append_left hi]
    · rw [Nat.not_lt] at hi
      rw [List.getElem?_eq_none hi]
      exact Nat.zero_le _
  | tryPop j =>
    simp only [exec, Option.map_eq_some_iff] at h
    obtain ⟨p, hp, h⟩ := h
    split at h
    · cases h
      exact ⟨le_rfl, by simp [delivery]⟩
    · rename_i q hq
      cases h
      obtain ⟨hj, rfl⟩ := List.getElem?_eq_some_iff.mp hp
      obtain ⟨hq1, hq2⟩ := deliver_eq_some.mp (show deliver n l.log _ = some (q.1, q.2) from hq)
      have hle : l.readers[j] ≤ q.1 := hq1 ▸ le_max_left _ _
      by_cases hne : j = i
      · subst hne
        have hpos : l.pos j = l.readers[j] := by simp [pos, hj]
        have hpos' : ({ l with readers := l.readers.set j (q.1 + 1) } : Log α).pos j = q.1 + 1 := by
          simp [pos, hj]
        refine ⟨by omega, ?_⟩
        intro d hd
        obtain rfl : q = d := by simpa [delivery] using hd
        exact ⟨by omega, by omega, hq2⟩
      · refine ⟨?_, by simp [delivery, hne]⟩
        simp [pos, List.getElem?_set_ne hne]
  | lag j =>
    simp only [exec, Option.map_eq_some_iff, Prod.mk.injEq] at h
    obtain ⟨_, -, rfl, rfl⟩ := h
    exact ⟨le_rfl, by simp [delivery]⟩
  | isLapped j =>
    simp only [exec, Option.map_eq_some_iff, Prod.mk.injEq] at h
    obtain ⟨_, -, rfl, rfl⟩ := h
    exact ⟨le_rfl, by simp [delivery]⟩

/-- **Each reader gets entries of the log at increasing positions.** -/
theorem calls_deliveries (i : ℕ) : ∀ (ops : List (Op α)) {l l' : Log α} {rs : List (Result α)},
    calls (exec n) l ops = some (l', rs) →
      ((deliveries i ops rs).map Prod.fst).Pairwise (· < ·) ∧
      ∀ d ∈ deliveries i ops rs, l.pos i ≤ d.1 ∧ l'.log[d.1]? = some d.2
  | [], l, l', rs, h => by simp [deliveries]
  | op :: ops, l, l', rs, h => by
    obtain ⟨t, o, os, ht, hrest, rfl⟩ := calls_cons_eq_some.mp h
    obtain ⟨hlt, hmem⟩ := calls_deliveries i ops hrest
    obtain ⟨hmono, hd⟩ := exec_pos ht i
    have hlog : ∀ {p : ℕ} {x : α}, l.log[p]? = some x → l'.log[p]? = some x := fun {p x} hp => by
      have hpl := (List.getElem?_eq_some_iff.mp hp).1
      rw [calls_log _ h, List.getElem?_append_left hpl, hp]
    cases hc : delivery i (op, o) with
    | none =>
      have he : deliveries i (op :: ops) (o :: os) = deliveries i ops os := by
        simp [deliveries, hc]
      rw [he]
      exact ⟨hlt, fun d hd' => ⟨hmono.trans (hmem d hd').1, (hmem d hd').2⟩⟩
    | some d =>
      have he : deliveries i (op :: ops) (o :: os) = d :: deliveries i ops os := by
        simp [deliveries, hc]
      obtain ⟨h1, h2, h3⟩ := hd d hc
      rw [he, List.map_cons]
      refine ⟨List.pairwise_cons.mpr ⟨?_, hlt⟩, ?_⟩
      · intro q hq
        obtain ⟨d', hd', rfl⟩ := List.mem_map.mp hq
        exact lt_of_lt_of_le h2 (hmem d' hd').1
      · intro d' hd'
        rcases List.mem_cons.mp hd' with rfl | hd'
        · exact ⟨h1, hlog h3⟩
        · exact ⟨hmono.trans (hmem d' hd').1, (hmem d' hd').2⟩

end Log

/-! ### The ring -/

/-- The shared ring and the consumers made so far. -/
structure Ring (α : Type*) where
  ring : RingBufferInner α
  consumers : List Consumer

namespace Ring

variable {α : Type*}

def new : Ring α := ⟨RingBufferInner.new, []⟩

/-- An uninterrupted call. -/
def exec (s : Ring α) : Op α → Option (Ring α × Result (Option α))
  | .push fails tx => (s.ring.push fails tx).map fun p => ({ s with ring := p.2 }, .pushed p.1)
  | .tryPush tx => some ({ s with ring := (s.ring.tryPush tx).2 }, .tryPushed (s.ring.tryPush tx).1)
  | .consumer => some ({ s with consumers := s.consumers ++ [s.ring.consumer] }, .created)
  | .tryPop i => s.consumers[i]?.map fun c =>
      ({ s with consumers := s.consumers.set i (c.tryPop s.ring).2 },
        .popped ((c.tryPop s.ring).1.map fun slot => ((c.tryPop s.ring).2.position - 1, slot)))
  | .lag i => s.consumers[i]?.map fun c => (s, .lag (c.lag s.ring))
  | .isLapped i => s.consumers[i]?.map fun c => (s, .lapped (c.isLapped s.ring))

end Ring

/-! ### The ring matches the log -/

section Refinement

variable {α : Type*}

/-- The ring holds the window of the log and the consumers stand where the
readers do. -/
structure Matches (s : Ring α) (l : Log α) : Prop where
  cursor : s.ring.writeCursor = l.log.length
  window : Full l.log s.ring.slots
  readers : s.consumers.map Consumer.position = l.readers

theorem Matches.new : Matches (Ring.new : Ring α) Log.new :=
  ⟨rfl, Holds.nil _ _, rfl⟩

theorem Matches.reader {s : Ring α} {l : Log α} (h : Matches s l) (i : ℕ) :
    l.readers[i]? = s.consumers[i]?.map Consumer.position := by
  rw [← h.readers, List.getElem?_map]

theorem Matches.lag {s : Ring α} {l : Log α} (h : Matches s l) (c : Consumer) :
    c.lag s.ring = l.log.length - c.position := by
  rw [← h.cursor]
  rfl

theorem Matches.push {s : Ring α} {l : Log α} (h : Matches s l) (tx : α)
    (hlt : l.log.length + 1 < 2 ^ 64) :
    Matches { s with ring := s.ring.pushed tx } { l with log := l.log ++ [tx] } where
  cursor := by
    rw [List.length_append, List.length_singleton, ← h.cursor]
    exact wrappingSucc_of_lt (h.cursor ▸ hlt)
  window := by
    have hw := h.window.push tx
    rw [← h.cursor] at hw
    exact hw
  readers := h.readers

theorem Matches.tryPop {s : Ring α} {l : Log α} (h : Matches s l) (hlt : l.log.length < 2 ^ 64)
    (c : Consumer) : c.tryPop s.ring = match deliver ringSize l.log c.position with
      | none => (none, c)
      | some p => (some (some p.2), ⟨p.1 + 1⟩) := by
  by_cases hc : c.position < l.log.length
  · obtain ⟨x, hd, hx⟩ := h.window.serves hc trivial
    have hnext : next ringSize l.log.length c.position < l.log.length :=
      (List.getElem?_eq_some_iff.mp (deliver_eq_some.mp hd).2).1
    rw [hd, Consumer.tryPop_of_lt (h.cursor ▸ hc), h.cursor]
    rw [show c.readCursor = c.position from rfl, hx, wrappingSucc_of_lt (by omega)]
  · rw [Nat.not_lt] at hc
    rw [deliver_eq_none.mpr hc, Consumer.tryPop_of_le (h.cursor ▸ hc)]

/-- **The step of the refinement.** A call of the log is a call of the ring
with the same result. -/
theorem Matches.exec {s : Ring α} {l l' : Log α} {op : Op α} {r : Result α} (h : Matches s l)
    (hlt : l.log.length + (pushedTxs [op]).length < 2 ^ 64)
    (hl : l.exec ringSize op = some (l', r)) :
    ∃ s', s.exec op = some (s', r.map some) ∧ Matches s' l' := by
  cases op with
  | push fails tx =>
    simp only [Log.exec, Option.some.injEq, Prod.mk.injEq] at hl
    obtain ⟨rfl, rfl⟩ := hl
    refine ⟨{ s with ring := s.ring.pushed tx }, ?_, h.push tx (by simpa [pushedTxs, Op.tx?] using hlt)⟩
    simp [Ring.exec, RingBufferInner.push_eq, Result.map, h.cursor]
  | tryPush tx =>
    simp only [Log.exec, Option.some.injEq, Prod.mk.injEq] at hl
    obtain ⟨rfl, rfl⟩ := hl
    refine ⟨{ s with ring := s.ring.pushed tx }, ?_, h.push tx (by simpa [pushedTxs, Op.tx?] using hlt)⟩
    simp [Ring.exec, RingBufferInner.tryPush_eq, Result.map, h.cursor]
  | consumer =>
    simp only [Log.exec, Option.some.injEq, Prod.mk.injEq] at hl
    obtain ⟨rfl, rfl⟩ := hl
    refine ⟨_, rfl, h.cursor, h.window, ?_⟩
    simp [h.readers, RingBufferInner.consumer, RingBufferInner.load, Consumer.position, h.cursor]
  | tryPop i =>
    simp only [Log.exec, Option.map_eq_some_iff, h.reader] at hl
    obtain ⟨_, ⟨c, hc, rfl⟩, hl⟩ := hl
    have hpop := h.tryPop (by omega) c
    simp only [Ring.exec, hc, Option.map_some, hpop]
    split at hl
    · rename_i hd
      cases hl
      obtain ⟨hi, rfl⟩ := List.getElem?_eq_some_iff.mp hc
      exact ⟨_, rfl, h.cursor, h.window, by simpa using h.readers⟩
    · rename_i p hd
      cases hl
      refine ⟨_, rfl, h.cursor, h.window, ?_⟩
      simp [List.map_set, h.readers, Consumer.position]
  | lag i =>
    simp only [Log.exec, Option.map_eq_some_iff, h.reader, Prod.mk.injEq] at hl
    obtain ⟨_, ⟨c, hc, rfl⟩, rfl, rfl⟩ := hl
    refine ⟨s, ?_, h⟩
    simp only [Ring.exec, hc, Option.map_some, h.lag]
    rfl
  | isLapped i =>
    simp only [Log.exec, Option.map_eq_some_iff, h.reader, Prod.mk.injEq] at hl
    obtain ⟨_, ⟨c, hc, rfl⟩, rfl, rfl⟩ := hl
    refine ⟨s, ?_, h⟩
    simp only [Ring.exec, hc, Option.map_some, Consumer.isLapped, h.lag]
    rfl

/-- What holds of the ring after the calls `ops`, which returned `results`. -/
structure Broadcasts (ops : List (Op α)) (s : Ring α) (results : List (Result (Option α))) : Prop where
  /-- The calls returned what the log's calls return, no slot uninitialised. -/
  refines : ∃ l rs, calls (Log.exec ringSize) Log.new ops = some (l, rs) ∧ l.log = pushedTxs ops ∧
    l.readers = s.consumers.map Consumer.position ∧ results = rs.map (Result.map some)
  push : ∀ fails tx, (s.ring.push fails tx).map Prod.fst = some (pushedTxs ops).length
  tryPush : ∀ tx, (s.ring.tryPush tx).1 = some (pushedTxs ops).length
  consumer : s.ring.consumer.position = (pushedTxs ops).length
  /-- Nothing is popped, and nothing changes, iff the consumer read the whole log. -/
  pop_none : ∀ c ∈ s.consumers,
    ((c.tryPop s.ring).1 = none ↔ (pushedTxs ops).length ≤ c.position) ∧
    ((c.tryPop s.ring).1 = none → (c.tryPop s.ring).2 = c)
  /-- Otherwise the entry is the consumer's own or the oldest of the window. -/
  pop_some : ∀ c ∈ s.consumers, c.position < (pushedTxs ops).length →
    ∃ tx, (pushedTxs ops)[max c.position ((pushedTxs ops).length - 8192)]? = some tx ∧
      c.tryPop s.ring = (some (some tx), ⟨max c.position ((pushedTxs ops).length - 8192) + 1⟩)
  increasing : ∀ i, ((deliveries i ops results).map Prod.fst).Pairwise (· < ·)
  initialised : ∀ i, ∀ d ∈ deliveries i ops results,
    ∃ tx, d.2 = some tx ∧ (pushedTxs ops)[d.1]? = some tx
  /-- A transaction is skipped only if at least 8192 later ones were pushed. -/
  skips : ∀ c ∈ s.consumers, ∀ q, c.position ≤ q → q + 1 < (c.tryPop s.ring).2.position →
    8192 ≤ (pushedTxs ops).length - (q + 1)
  /-- A call on one consumer changes neither the ring nor another consumer. -/
  apart : ∀ op i j s' r, op.consumer? = some i → i ≠ j → s.exec op = some (s', r) →
    s'.ring = s.ring ∧ s'.consumers[j]? = s.consumers[j]?
  lapped : ∀ c ∈ s.consumers, c.isLapped s.ring = true ↔ 0 < c.lag s.ring - 8192 ∧
    (c.tryPop s.ring).2.position = c.position + (c.lag s.ring - 8192) + 1

theorem Ring.exec_apart {s s' : Ring α} {op : Op α} {r : Result (Option α)} {i j : ℕ}
    (hop : op.consumer? = some i) (hij : i ≠ j) (h : s.exec op = some (s', r)) :
    s'.ring = s.ring ∧ s'.consumers[j]? = s.consumers[j]? := by
  cases op with
  | push => cases hop
  | tryPush => cases hop
  | consumer => cases hop
  | tryPop k =>
    obtain rfl : k = i := Option.some.inj hop
    simp only [Ring.exec, Option.map_eq_some_iff, Prod.mk.injEq] at h
    obtain ⟨c, -, rfl, -⟩ := h
    exact ⟨rfl, List.getElem?_set_ne hij⟩
  | lag k =>
    simp only [Ring.exec, Option.map_eq_some_iff, Prod.mk.injEq] at h
    obtain ⟨c, -, rfl, -⟩ := h
    exact ⟨rfl, rfl⟩
  | isLapped k =>
    simp only [Ring.exec, Option.map_eq_some_iff, Prod.mk.injEq] at h
    obtain ⟨c, -, rfl, -⟩ := h
    exact ⟨rfl, rfl⟩

theorem deliveries_map (i : ℕ) : ∀ (ops : List (Op α)) (rs : List (Result α)),
    deliveries i ops (rs.map (Result.map some)) =
      (deliveries i ops rs).map fun d => (d.1, some d.2)
  | [], _ => by simp [deliveries]
  | _ :: _, [] => by simp [deliveries]
  | op :: ops, r :: rs => by
    have ih := deliveries_map i ops rs
    have hd : delivery i (op, r.map some) = (delivery i (op, r)).map fun d => (d.1, some d.2) := by
      cases op <;> cases r with
      | popped out => cases out <;> simp [delivery, Result.map]
      | _ => rfl
    simp only [deliveries] at ih ⊢
    cases hdel : delivery i (op, r) <;>
      simp [hd, hdel, ih]

theorem pushedTxs_cons_length (op : Op α) (ops : List (Op α)) :
    (pushedTxs (op :: ops)).length = op.tx?.toList.length + (pushedTxs ops).length := by
  cases htx : op.tx? <;> simp [pushedTxs, htx, Nat.add_comm]

/-- **The run of the refinement**, by simulation: the pushes done and those
still to come are fewer than `2 ^ 64`. -/
theorem runs_match (ops : List (Op α)) (hok : Handled 0 ops) (hfew : (pushedTxs ops).length < 2 ^ 64) :
    ∃ s l rs, calls Ring.exec Ring.new ops = some (s, rs.map (Result.map some)) ∧
      calls (Log.exec ringSize) Log.new ops = some (l, rs) ∧ l.log = pushedTxs ops ∧ Matches s l := by
  obtain ⟨l, rs, hl⟩ := Log.calls_isSome (n := ringSize) ops (l := Log.new) hok
  have hlog : l.log = pushedTxs ops := by simpa [Log.new] using Log.calls_log ops hl
  have hstep : ∀ {op : Op α} {ops s t t' o},
      Matches s t ∧ t.log.length + (pushedTxs (op :: ops)).length < 2 ^ 64 →
      Log.exec ringSize t op = some (t', o) →
      ∃ s', Ring.exec s op = some (s', o.map some) ∧ Matches s' t' ∧
        t'.log.length + (pushedTxs ops).length < 2 ^ 64 := by
    intro op ops s t t' o hR ht
    have hcons := pushedTxs_cons_length op ops
    have hone : (pushedTxs [op]).length = op.tx?.toList.length := pushedTxs_cons_length op []
    obtain ⟨s', hs', hm'⟩ := hR.1.exec (by omega) ht
    refine ⟨s', hs', hm', ?_⟩
    rw [Log.exec_log ht, List.length_append]
    omega
  obtain ⟨s, hs, hm, -⟩ := calls_simulation Ring.exec (Log.exec ringSize)
    (fun ops s l => Matches s l ∧ l.log.length + (pushedTxs ops).length < 2 ^ 64) (Result.map some)
    hstep ops (s := Ring.new) ⟨Matches.new, by simpa [Log.new] using hfew⟩ hl
  exact ⟨s, l, rs, hs, hl, hlog, hm⟩

section

variable {s : Ring α} {l : Log α}

theorem Matches.tryPop_some (h : Matches s l) (hlt : l.log.length < 2 ^ 64) {c : Consumer}
    (hc : c.position < l.log.length) :
    ∃ tx, l.log[next ringSize l.log.length c.position]? = some tx ∧
      c.tryPop s.ring = (some (some tx), ⟨next ringSize l.log.length c.position + 1⟩) := by
  have hp := h.tryPop hlt c
  cases hdel : deliver ringSize l.log c.position with
  | none => exact absurd (deliver_eq_none.mp hdel) (Nat.not_le.mpr hc)
  | some p =>
    obtain ⟨p, x⟩ := p
    obtain ⟨rfl, hx⟩ := deliver_eq_some.mp hdel
    rw [hdel] at hp
    exact ⟨x, hx, hp⟩

/-- What `try_pop` jumps over has left the window. -/
theorem Matches.skips (h : Matches s l) (hlt : l.log.length < 2 ^ 64) {c : Consumer} {q : ℕ}
    (hq : c.position ≤ q) (hq' : q + 1 < (c.tryPop s.ring).2.position) :
    ringSize ≤ l.log.length - (q + 1) := by
  by_cases hc : c.position < l.log.length
  · obtain ⟨tx, -, hp⟩ := h.tryPop_some hlt hc
    rw [hp] at hq'
    exact skipped hq (Nat.lt_of_succ_lt_succ hq')
  · rw [Nat.not_lt] at hc
    rw [Consumer.tryPop_of_le (h.cursor ▸ hc)] at hq'
    have hq'' : q + 1 < c.position := hq'
    omega

theorem Matches.isLapped_iff (h : Matches s l) (hlt : l.log.length < 2 ^ 64) (c : Consumer) :
    c.isLapped s.ring = true ↔ 0 < c.lag s.ring - ringSize ∧
      (c.tryPop s.ring).2.position = c.position + (c.lag s.ring - ringSize) + 1 := by
  have hlag := h.lag c
  simp only [Consumer.isLapped, decide_eq_true_eq, hlag]
  constructor
  · intro hl
    obtain ⟨tx, -, hp⟩ := h.tryPop_some hlt (c := c) (by omega)
    rw [hp]
    simp only [Consumer.position, next] at hl ⊢
    omega
  · rintro ⟨hl, -⟩
    omega

end

/-- **The ring refines the windowed log.** After any calls with fewer than
`2 ^ 64` pushes among them, on consumers that exist. -/
theorem ring_broadcasts (ops : List (Op α)) (hok : Handled 0 ops)
    (hfew : (pushedTxs ops).length < 2 ^ 64) :
    ∃ s results, calls Ring.exec Ring.new ops = some (s, results) ∧ Broadcasts ops s results := by
  obtain ⟨s, l, rs, hs, hl, hlog, hm⟩ := runs_match ops hok hfew
  have hlt : l.log.length < 2 ^ 64 := hlog ▸ hfew
  have hcur : s.ring.writeCursor = (pushedTxs ops).length := hlog ▸ hm.cursor
  refine ⟨s, _, hs, ?_⟩
  exact
    { refines := ⟨l, rs, hl, hlog, hm.readers.symm, rfl⟩
      push := fun fails tx => by simp [RingBufferInner.push_eq, hcur]
      tryPush := fun tx => by simp [RingBufferInner.tryPush_eq, hcur]
      consumer := hcur
      pop_none := fun c _ => by
        refine ⟨by rw [Consumer.tryPop_eq_none_iff, hcur]; rfl, ?_⟩
        intro h
        rw [Consumer.tryPop_of_le (Consumer.tryPop_eq_none_iff.mp h)]
      pop_some := fun c _ hc => hlog ▸ hm.tryPop_some hlt (hlog.symm ▸ hc)
      increasing := fun i => by
        rw [deliveries_map, List.map_map]
        exact (Log.calls_deliveries i ops hl).1
      initialised := fun i d hd => by
        rw [deliveries_map] at hd
        obtain ⟨d', hd', rfl⟩ := List.mem_map.mp hd
        exact ⟨d'.2, rfl, hlog ▸ ((Log.calls_deliveries i ops hl).2 d' hd').2⟩
      skips := fun c _ q hq hq' => hlog ▸ hm.skips hlt hq hq'
      apart := fun op i j s' r hop hij h => Ring.exec_apart hop hij h
      lapped := fun c _ => hm.isLapped_iff hlt c }

/-- Two pushes and a pop by a consumer made before them. -/
theorem ring_broadcasts_two_pushes :
    Handled 0 [Op.consumer, .push 1 'a', .tryPush 'b', .tryPop 0] ∧
    ∃ s results, calls Ring.exec Ring.new [Op.consumer, .push 1 'a', .tryPush 'b', .tryPop 0] =
        some (s, results) ∧
      Broadcasts [Op.consumer, .push 1 'a', .tryPush 'b', .tryPop 0] s results :=
  have hok : Handled 0 [Op.consumer, .push 1 'a', .tryPush 'b', .tryPop 0] := by
    simp [Handled, Op.consumer?]
  ⟨hok, ring_broadcasts _ hok (by decide)⟩

end Refinement

end Buffer
end Zerohop
