/-
# Batches of the ring, used by one caller

A sequential run of `enqueue`, `dequeue` and `next` on a `QueueRing` in which
the iterator of each dequeue is exhausted before the next dequeue. Enqueues may
come anywhere, also while a batch is being drained.

The run records what was enqueued (`sent`), the part of it since the last
dequeue (`since`), and for each dequeue, the newest first, what was enqueued
before it and after the dequeue before it (`due`) and what its iterator has
yielded. An iterator drains a live queue, unbounded by its length; what keeps
the batches apart is that the queue not selected holds nothing but the rest of
the newest batch (`Batched`).
-/
import Zerohop.Lib.Machine
import Zerohop.Queue.Ring

namespace Zerohop
namespace Queue
namespace Batches

open Machine

/-- A dequeue: what was due, its iterator, what the iterator has yielded and
whether it has ended. -/
structure Batch (α : Type*) where
  due : List α
  iter : QueueIterator
  yielded : List α
  exhausted : Bool

structure State (α : Type*) where
  ring : QueueRing α
  sent : List α
  since : List α
  batches : List (Batch α)

inductive Action (α : Type*)
  | enqueue (value : α)
  | dequeue
  /-- `next` of the newest iterator. -/
  | next

variable {α : Type*}

namespace State

def init : State α := ⟨QueueRing.default, [], [], []⟩

/-- The newest iterator, if there is one, has ended. -/
def exhausted (s : State α) : Bool :=
  match s.batches with
  | [] => true
  | batch :: _ => batch.exhausted

def step (s : State α) : Action α → Option (State α)
  | .enqueue value => some { s with
      ring := s.ring.enqueue value
      sent := s.sent ++ [value]
      since := s.since ++ [value] }
  | .dequeue =>
    if s.exhausted then
      let (ring, iter) := s.ring.dequeue
      some { s with ring, since := [], batches := ⟨s.since, iter, [], false⟩ :: s.batches }
    else none
  | .next =>
    match s.batches with
    | [] => none
    | batch :: earlier =>
      match batch.iter.next s.ring with
      | (ring, iter, some x) => some { s with
          ring, batches := { batch with iter, yielded := batch.yielded ++ [x] } :: earlier }
      | (ring, iter, none) => some { s with
          ring, batches := { batch with iter, exhausted := true } :: earlier }

end State

/-- The ring and its iterators, used by one caller. -/
def machine (α : Type*) : Machine (State α) (Action α) := ⟨State.init, State.step⟩

/-- What is left of the newest batch. -/
def Rest (rest : List α) : List (Batch α) → Fin 2 → Prop
  | [], _ => rest = []
  | batch :: _, k => batch.yielded ++ rest = batch.due ∧ batch.iter.q = k ∧
      (batch.exhausted → rest = [])

/-- The selected queue holds what was sent since the last dequeue, and counts
it; the other one the rest of the newest batch, counting nothing; the batches
before it were yielded whole. -/
structure Batched (s : State α) : Prop where
  uncounted : s.ring.Uncounted
  selected : s.ring.items s.ring.selected = s.since
  rest : Rest (s.ring.items s.ring.drained) s.batches s.ring.drained
  lenSelected : s.ring.lLen s.ring.selected = s.since.length % 2 ^ 64
  lenDrained : s.ring.lLen s.ring.drained = 0
  earlier : ∀ batch ∈ s.batches.tail, batch.exhausted ∧ batch.yielded = batch.due
  len : ∀ batch ∈ s.batches, batch.iter.len = batch.due.length % 2 ^ 64
  sent : s.sent = s.batches.reverse.flatMap Batch.due ++ s.since

theorem Batched.init : Batched (State.init : State α) where
  uncounted := QueueRing.uncounted_default
  selected := rfl
  rest := rfl
  lenSelected := rfl
  lenDrained := rfl
  earlier := by simp [State.init]
  len := by simp [State.init]
  sent := rfl

/-! ### One step -/

theorem Batched.enqueue {s : State α} (h : Batched s) (value : α) :
    Batched { s with
      ring := s.ring.enqueue value
      sent := s.sent ++ [value]
      since := s.since ++ [value] } := by
  have hun : (s.ring.countUp s.ring.selected).Uncounted := h.uncounted
  have hitems : (s.ring.enqueue value).items =
      Function.update s.ring.items s.ring.selected (s.since ++ [value]) := by
    rw [← h.selected]
    exact hun.items_push s.ring.selected value
  have hdrained : (s.ring.enqueue value).items s.ring.drained = s.ring.items s.ring.drained := by
    rw [hitems, Function.update_of_ne s.ring.drained_ne_selected]
  have hlen : (s.ring.enqueue value).lLen =
      Function.update s.ring.lLen s.ring.selected (wrappingSucc (s.ring.lLen s.ring.selected)) := rfl
  refine ⟨hun.push _ value, ?_, ?_, ?_, ?_, h.earlier, h.len, ?_⟩
  · show (s.ring.enqueue value).items s.ring.selected = _
    rw [hitems, Function.update_self]
  · show Rest ((s.ring.enqueue value).items s.ring.drained) s.batches s.ring.drained
    rw [hdrained]
    exact h.rest
  · show (s.ring.enqueue value).lLen s.ring.selected = _
    rw [hlen, Function.update_self, List.length_append, List.length_singleton]
    calc wrappingSucc (s.ring.lLen s.ring.selected)
      _ = wrappingSucc (s.since.length % 2 ^ 64) := congrArg wrappingSucc h.lenSelected
      _ = (s.since.length + 1) % 2 ^ 64 := wrappingSucc_mod _
  · show (s.ring.enqueue value).lLen s.ring.drained = 0
    rw [hlen, Function.update_of_ne s.ring.drained_ne_selected, h.lenDrained]
  · show s.sent ++ [value] = _
    rw [h.sent, List.append_assoc]

/-- When the newest iterator has ended, nothing is left of its batch. -/
theorem Batched.rest_nil {s : State α} (h : Batched s) (he : s.exhausted) :
    s.ring.items s.ring.drained = [] ∧
      ∀ batch ∈ s.batches, batch.exhausted ∧ batch.yielded = batch.due := by
  have hrest := h.rest
  have hearlier := h.earlier
  unfold State.exhausted at he
  match hb : s.batches with
  | [] =>
    rw [hb] at hrest
    exact ⟨hrest, by simp⟩
  | batch :: earlier =>
    rw [hb] at hrest hearlier he
    obtain ⟨hdue, -, hex⟩ := hrest
    have hnil := hex he
    rw [hnil, List.append_nil] at hdue
    refine ⟨hnil, ?_⟩
    intro b hmem
    rcases List.mem_cons.mp hmem with rfl | hmem
    · exact ⟨he, hdue⟩
    · exact hearlier b hmem

/-- The queues change places: the one just filled is to be drained, the one
just drained is empty and selected. -/
theorem Batched.dequeue {s : State α} (h : Batched s) (he : s.exhausted) :
    Batched { s with
      ring := s.ring.dequeue.1
      since := []
      batches := ⟨s.since, s.ring.dequeue.2, [], false⟩ :: s.batches } := by
  obtain ⟨hnil, hbatches⟩ := h.rest_nil he
  have hsel : s.ring.dequeue.1.selected = s.ring.drained := s.ring.selected_advance
  have hdr : s.ring.dequeue.1.drained = s.ring.selected := s.ring.drained_advance
  have hitems : s.ring.dequeue.1.items = s.ring.items := rfl
  have hlen : s.ring.dequeue.1.lLen = Function.update s.ring.lLen s.ring.selected 0 := rfl
  refine ⟨h.uncounted, ?_, ?_, ?_, ?_, hbatches, ?_, ?_⟩
  · show s.ring.dequeue.1.items s.ring.dequeue.1.selected = []
    rw [hsel, hitems, hnil]
  · show Rest (s.ring.dequeue.1.items s.ring.dequeue.1.drained) _ s.ring.dequeue.1.drained
    rw [hdr, hitems, h.selected]
    exact ⟨rfl, rfl, nofun⟩
  · show s.ring.dequeue.1.lLen s.ring.dequeue.1.selected = 0
    rw [hsel, hlen, Function.update_of_ne s.ring.drained_ne_selected, h.lenDrained]
  · show s.ring.dequeue.1.lLen s.ring.dequeue.1.drained = 0
    rw [hdr, hlen, Function.update_self]
  · intro batch hmem
    rcases List.mem_cons.mp hmem with rfl | hmem
    · exact h.lenSelected
    · exact h.len batch hmem
  · show s.sent = _
    rw [h.sent, List.reverse_cons, List.flatMap_append, List.flatMap_singleton, List.append_nil]

/-- `next` takes the front of what is left, or ends when nothing is. -/
theorem Batched.next {s t : State α} (h : Batched s) (hs : s.step .next = some t) : Batched t := by
  obtain ⟨ring, sent, since, batches⟩ := s
  cases batches with
  | nil => cases hs
  | cons batch earlier =>
    obtain ⟨hdue, hk, hex⟩ := h.rest
    have hlen := h.len
    simp only [List.mem_cons, forall_eq_or_imp] at hlen
    match hr : ring.items batch.iter.q with
    | [] =>
      simp only [State.step, batch.iter.next_nil h.uncounted hr, Option.some.injEq] at hs
      obtain rfl := hs
      refine ⟨h.uncounted, h.selected, ⟨hdue, hk, ?_⟩, h.lenSelected, h.lenDrained, h.earlier, ?_, ?_⟩
      · intro _
        rwa [hk] at hr
      · simp only [List.mem_cons, forall_eq_or_imp]
        exact hlen
      · simpa using h.sent
    | x :: xs =>
      obtain ⟨ring', iter', hnext, hq, hl, hun, hi, hll, hitems⟩ := batch.iter.next_cons h.uncounted hr
      simp only [State.step, hnext, Option.some.injEq] at hs
      obtain rfl := hs
      have hsel : ring'.selected = ring.selected := congrArg queueIdx hi
      have hdr : ring'.drained = ring.drained := congrArg (fun i => queueIdx (i + 1)) hi
      rw [hk] at hr hitems
      rw [hr] at hdue hex
      refine ⟨hun, ?_, ?_, ?_, ?_, h.earlier, ?_, ?_⟩
      · show ring'.items ring'.selected = since
        rw [hsel, hitems, Function.update_of_ne ring.drained_ne_selected.symm]
        exact h.selected
      · show Rest (ring'.items ring'.drained) _ ring'.drained
        rw [hdr, hitems, Function.update_self]
        refine ⟨?_, hq.trans hk, ?_⟩
        · rw [← hdue]
          simp
        · intro he
          exact absurd (hex he) (by simp)
      · show ring'.lLen ring'.selected = _
        rw [hsel, hll]
        exact h.lenSelected
      · show ring'.lLen ring'.drained = 0
        rw [hdr, hll]
        exact h.lenDrained
      · simp only [List.mem_cons, forall_eq_or_imp]
        exact ⟨hl.trans hlen.1, hlen.2⟩
      · simpa using h.sent

/-- **Every step keeps the batches apart.** -/
theorem Batched.step {s t : State α} {a : Action α} (h : Batched s) (hs : s.step a = some t) :
    Batched t := by
  cases a with
  | enqueue value =>
    obtain rfl := Option.some.inj hs
    exact h.enqueue value
  | dequeue =>
    unfold State.step at hs
    split_ifs at hs with he
    obtain rfl := Option.some.inj hs
    exact h.dequeue he
  | next => exact h.next hs

/-! ### Runs -/

theorem reachable_batched {s : State α} (h : (machine α).Reachable s) : Batched s :=
  Reachable.invariant (I := Batched) Batched.init (fun _ _ _ hI hs => Batched.step hI hs) h

theorem Batched.next_eq {s : State α} (h : Batched s) {batch : Batch α} {earlier : List (Batch α)}
    (hb : s.batches = batch :: earlier) :
    (batch.iter.next s.ring).2.2 = batch.due[batch.yielded.length]? := by
  have hrest := h.rest
  rw [hb] at hrest
  obtain ⟨hdue, hk, -⟩ := hrest
  rw [← hdue, List.getElem?_append_right (Nat.le_refl _), Nat.sub_self, ← hk]
  match hr : s.ring.items batch.iter.q with
  | [] => rw [batch.iter.next_nil h.uncounted hr, List.getElem?_nil]
  | x :: xs =>
    obtain ⟨ring', iter', hnext, -⟩ := batch.iter.next_cons h.uncounted hr
    rw [hnext, List.getElem?_cons_zero]

theorem Batched.sent_eq {s : State α} (h : Batched s) :
    s.sent = s.batches.reverse.flatMap Batch.yielded ++ s.ring.items s.ring.drained ++
      s.ring.items s.ring.selected := by
  have hsent := h.sent
  have hrest := h.rest
  have hearlier := h.earlier
  rw [h.selected, hsent]
  congr 1
  match hb : s.batches with
  | [] =>
    rw [hb] at hrest
    rw [show s.ring.items s.ring.drained = [] from hrest]
    rfl
  | batch :: earlier =>
    rw [hb] at hrest hearlier
    have hsame : earlier.reverse.flatMap Batch.due = earlier.reverse.flatMap Batch.yielded := by
      apply List.flatMap_congr
      intro b hmem
      exact (hearlier b (List.mem_reverse.mp hmem)).2.symm
    simp only [List.reverse_cons, List.flatMap_append, List.flatMap_singleton, hsame, ← hrest.1,
      List.append_assoc]

/-- **The batches partition the stream.** Each iterator yields what was sent
between the dequeue before its own and its own, in order, and nothing else; it
ends when it has yielded all of it; and its length, a word, is the number of
items. -/
theorem batches_partition {s : State α} (h : (machine α).Reachable s) :
    (∀ batch ∈ s.batches, batch.yielded <+: batch.due ∧
      (batch.exhausted → batch.yielded = batch.due) ∧
      batch.iter.len = batch.due.length % 2 ^ 64 ∧
      (batch.due.length < 2 ^ 64 → batch.iter.len = batch.due.length)) ∧
    (∀ batch ∈ s.batches.tail, batch.exhausted) ∧
    (∀ batch earlier, s.batches = batch :: earlier →
      (batch.iter.next s.ring).2.2 = batch.due[batch.yielded.length]?) ∧
    s.sent = s.batches.reverse.flatMap Batch.due ++ s.since ∧
    s.sent = s.batches.reverse.flatMap Batch.yielded ++ s.ring.items s.ring.drained ++
      s.ring.items s.ring.selected := by
  have hI := reachable_batched h
  refine ⟨?_, fun batch hb => (hI.earlier batch hb).1, fun batch earlier hb => hI.next_eq hb, hI.sent,
    hI.sent_eq⟩
  intro batch hmem
  have hlen := hI.len batch hmem
  have hyield : batch.yielded <+: batch.due ∧ (batch.exhausted → batch.yielded = batch.due) := by
    have hrest := hI.rest
    have hearlier := hI.earlier
    match hb : s.batches with
    | [] =>
      rw [hb] at hmem
      cases hmem
    | newest :: earlier =>
      rw [hb] at hrest hearlier hmem
      rcases List.mem_cons.mp hmem with rfl | hmem
      · refine ⟨⟨_, hrest.1⟩, ?_⟩
        intro he
        rw [← hrest.1, hrest.2.2 he, List.append_nil]
      · have hdue := (hearlier batch hmem).2
        exact ⟨hdue ▸ List.prefix_refl _, fun _ => hdue⟩
  refine ⟨hyield.1, hyield.2, hlen, ?_⟩
  intro hlt
  rw [hlen, Nat.mod_eq_of_lt hlt]

/-- Two batches; an item sent while the first is drained comes in the second. -/
theorem batches_partition_two : ∃ s, (machine Char).run State.init
      [.enqueue 'a', .enqueue 'b', .dequeue, .next, .enqueue 'c', .next, .next, .dequeue, .next,
        .next] = some s ∧
    s.batches.map Batch.yielded = [['c'], ['a', 'b']] ∧
    s.batches.map Batch.exhausted = [true, true] ∧
    (∀ batch ∈ s.batches, batch.yielded = batch.due ∧ batch.iter.len = batch.due.length % 2 ^ 64) := by
  have hrun : ∃ s, (machine Char).run State.init
      [.enqueue 'a', .enqueue 'b', .dequeue, .next, .enqueue 'c', .next, .next, .dequeue, .next,
        .next] = some s ∧
      s.batches.map Batch.yielded = [['c'], ['a', 'b']] ∧
      s.batches.map Batch.exhausted = [true, true] := ⟨_, rfl, rfl, rfl⟩
  obtain ⟨s, hs, hy, he⟩ := hrun
  refine ⟨s, hs, hy, he, ?_⟩
  intro batch hmem
  have hb := (batches_partition (reachable_of_run hs)).1 batch hmem
  have hex : batch.exhausted ∈ s.batches.map Batch.exhausted := List.mem_map_of_mem hmem
  rw [he] at hex
  exact ⟨hb.2.1 (by simpa using hex), hb.2.2.1⟩

end Batches
end Queue
end Zerohop
