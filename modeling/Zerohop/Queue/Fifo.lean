/-
# The order in which the ring yields

An enqueue that is overtaken pushes on the other queue, and several iterators
may drain one queue, so nothing like one order over the whole ring survives.
What does is the order on each queue: the items popped from it, by whichever
iterators, and then the items in it are those pushed on it, in the order of the
pushes. So each iterator yields in push order (`queues_in_order`). A record
beside the machine keeps who pushed and popped what.

Key definitions: `Trace`, `traced`, `onQueue`, `byWho`.
-/
import Zerohop.Queue.Lengths

namespace Zerohop
namespace Queue
namespace Interleaved

open Machine

variable {α : Type*}

/-- A push of thread `who` or a pop of iterator `who`. -/
structure Event (α : Type*) where
  who : ℕ
  queue : Fin 2
  item : α

structure Trace (α : Type*) where
  pushes : List (Event α)
  pops : List (Event α)

def Trace.note (s : State α) (a : Action α) (tr : Trace α) : Trace α :=
  match a with
  | .push t =>
    match s.threads t with
    | .counted k value => { tr with pushes := tr.pushes ++ [⟨t, k, value⟩] }
    | _ => tr
  | .pop i =>
    match s.iters[i]? with
    | some it =>
      match (s.ring.pop it.iter.q).2 with
      | some x => { tr with pops := tr.pops ++ [⟨i, it.iter.q, x⟩] }
      | none => tr
    | none => tr
  | _ => tr

/-- The ring with the record of its pushes and pops. -/
def traced (α : Type*) : Machine (State α × Trace α) (Action α) :=
  (machine α).observed ⟨[], []⟩ Trace.note

/-- The items of queue `k`, in their order. -/
def onQueue (k : Fin 2) (events : List (Event α)) : List α :=
  (events.filter fun e => e.queue == k).map Event.item

/-- The items of one thread or iterator, in their order. -/
def byWho (who : ℕ) (events : List (Event α)) : List α :=
  (events.filter fun e => e.who == who).map Event.item

theorem onQueue_concat (k : Fin 2) (events : List (Event α)) (e : Event α) :
    onQueue k (events ++ [e]) = onQueue k events ++ if e.queue = k then [e.item] else [] := by
  by_cases h : e.queue = k <;> simp [onQueue, h]

theorem byWho_concat (who : ℕ) (events : List (Event α)) (e : Event α) :
    byWho who (events ++ [e]) = byWho who events ++ if e.who = who then [e.item] else [] := by
  by_cases h : e.who = who <;> simp [byWho, h]

/-- Who worked on one queue only yielded part of it, in its order. -/
theorem byWho_sublist_onQueue {who : ℕ} {k : Fin 2} {events : List (Event α)}
    (h : ∀ e ∈ events, e.who = who → e.queue = k) : (byWho who events).Sublist (onQueue k events) := by
  have hfilter : events.filter (fun e => e.who == who) =
      (events.filter fun e => e.queue == k).filter fun e => e.who == who := by
    rw [List.filter_filter]
    refine List.filter_congr fun e he => ?_
    by_cases hw : e.who = who
    · simp [hw, h e he hw]
    · simp [hw]
  rw [byWho, hfilter]
  exact List.filter_sublist.map Event.item

/-- Each queue is first in, first out, and each iterator yields what it popped. -/
structure Ordered (s : State α) (tr : Trace α) : Prop where
  fifo : ∀ k, onQueue k tr.pushes = onQueue k tr.pops ++ s.ring.items k
  popped : ∀ e ∈ tr.pops, ∃ it, s.iters[e.who]? = some it ∧ it.iter.q = e.queue
  yielded : ∀ (i : ℕ) (it : Iter α), s.iters[i]? = some it → it.items = byWho i tr.pops

section

variable {s u : State α} {tr : Trace α}

theorem Ordered.of_eq (h : Ordered s tr) (hitems : u.ring.items = s.ring.items)
    (hiters : u.iters = s.iters) : Ordered u tr := by
  refine ⟨?_, ?_, ?_⟩
  · rw [hitems]
    exact h.fifo
  · rw [hiters]
    exact h.popped
  · rw [hiters]
    exact h.yielded

theorem Ordered.push (h : Ordered s tr) (hun : s.ring.Uncounted) (t : ℕ) (k : Fin 2) (value : α) :
    Ordered { s.setThread t .idle with ring := s.ring.push k value, pushed := s.pushed ++ [value] }
      { tr with pushes := tr.pushes ++ [⟨t, k, value⟩] } := by
  refine ⟨?_, h.popped, h.yielded⟩
  intro j
  show onQueue j (tr.pushes ++ [⟨t, k, value⟩]) = onQueue j tr.pops ++ (s.ring.push k value).items j
  rw [onQueue_concat, h.fifo j, hun.items_push, List.append_assoc]
  congr 1
  by_cases hj : k = j
  · subst hj
    rw [if_pos rfl, Function.update_self]
  · rw [if_neg hj, Function.update_of_ne (Ne.symm hj), List.append_nil]

theorem Ordered.clear (h : Ordered s tr) (t : ℕ) (oldK : Fin 2) :
    Ordered { s.setThread t .idle with
      ring := s.ring.clearLen oldK
      iters := s.iters ++ [⟨⟨s.ring.lLen oldK, 0, oldK⟩, 0, []⟩] } tr := by
  have hold : ∀ e ∈ tr.pops, e.who < s.iters.length := by
    intro e he
    obtain ⟨it, hit, -⟩ := h.popped e he
    exact (List.getElem?_eq_some_iff.mp hit).1
  refine ⟨h.fifo, ?_, ?_⟩
  · intro e he
    obtain ⟨it, hit, hq⟩ := h.popped e he
    exact ⟨it, (List.getElem?_append_left (hold e he)).trans hit, hq⟩
  · intro i it hit
    by_cases hlt : i < s.iters.length
    · exact h.yielded i it ((List.getElem?_append_left hlt).symm.trans hit)
    · have hi : i = s.iters.length := by
        have hle := (List.getElem?_eq_some_iff.mp hit).1
        rw [List.length_append, List.length_singleton] at hle
        omega
      have hnone : byWho i tr.pops = [] := by
        rw [byWho, List.map_eq_nil_iff, List.filter_eq_nil_iff]
        intro e he
        have := hold e he
        simp only [beq_iff_eq]
        omega
      have hnew : it = ⟨⟨s.ring.lLen oldK, 0, oldK⟩, 0, []⟩ := by
        subst hi
        simpa using hit.symm
      rw [hnone, hnew]
      rfl

theorem Ordered.pop (h : Ordered s tr) (hun : s.ring.Uncounted) {i : ℕ} {it : Iter α}
    (hi : s.iters[i]? = some it) :
    Ordered { s with
      ring := (s.ring.pop it.iter.q).1
      iters := s.iters.set i (it.popped (s.ring.pop it.iter.q).2) } (tr.note s (.pop i)) := by
  have hlt : i < s.iters.length := (List.getElem?_eq_some_iff.mp hi).1
  -- the queue that an iterator drains stays the same
  have hpopped : ∀ x, ∀ e : Event α, (∃ it', s.iters[e.who]? = some it' ∧ it'.iter.q = e.queue) →
      ∃ it', (s.iters.set i (it.popped x))[e.who]? = some it' ∧ it'.iter.q = e.queue := by
    rintro x e ⟨it', hit', hq⟩
    by_cases hw : i = e.who
    · subst hw
      obtain rfl : it = it' := Option.some.inj (hi.symm.trans hit')
      exact ⟨it.popped x, List.getElem?_set_self hlt, by rw [it.popped_q, hq]⟩
    · exact ⟨it', (List.getElem?_set_ne hw).trans hit', hq⟩
  match hk : s.ring.items it.iter.q with
  | [] =>
    have hnote : tr.note s (.pop i) = tr := by simp only [Trace.note, hi, hun.pop_nil hk]
    rw [hnote, hun.pop_nil hk]
    refine ⟨h.fifo, fun e he => hpopped none e (h.popped e he), ?_⟩
    intro j jt hjt
    by_cases hj : i = j
    · subst hj
      obtain rfl : it.popped none = jt := Option.some.inj ((List.getElem?_set_self hlt).symm.trans hjt)
      rw [it.items_popped_none]
      exact h.yielded i it hi
    · exact h.yielded j jt ((List.getElem?_set_ne hj).symm.trans hjt)
  | x :: xs =>
    obtain ⟨ring', hpop, -, -, -, hitems⟩ := hun.pop_cons hk
    have hnote : tr.note s (.pop i) = { tr with pops := tr.pops ++ [⟨i, it.iter.q, x⟩] } := by
      simp only [Trace.note, hi, hpop]
    rw [hnote, hpop]
    refine ⟨?_, ?_, ?_⟩
    · intro k
      show onQueue k tr.pushes = onQueue k (tr.pops ++ [⟨i, it.iter.q, x⟩]) ++ ring'.items k
      rw [onQueue_concat, h.fifo k, hitems, List.append_assoc]
      congr 1
      by_cases hj : it.iter.q = k
      · subst hj
        rw [if_pos rfl, Function.update_self, hk]
        rfl
      · rw [if_neg hj, Function.update_of_ne (Ne.symm hj), List.nil_append]
    · intro e he
      rcases List.mem_append.mp he with he | he
      · exact hpopped (some x) e (h.popped e he)
      · obtain rfl := List.mem_singleton.mp he
        exact hpopped (some x) _ ⟨it, hi, rfl⟩
    · intro j jt hjt
      show jt.items = byWho j (tr.pops ++ [⟨i, it.iter.q, x⟩])
      rw [byWho_concat]
      by_cases hj : i = j
      · subst hj
        obtain rfl : it.popped (some x) = jt :=
          Option.some.inj ((List.getElem?_set_self hlt).symm.trans hjt)
        rw [it.items_popped_some, h.yielded i it hi, if_pos rfl]
      · rw [if_neg hj, List.append_nil]
        exact h.yielded j jt ((List.getElem?_set_ne hj).symm.trans hjt)

/-- **Every step keeps the order.** -/
theorem Ordered.step {a : Action α} (h : Ordered s tr) (hun : s.ring.Uncounted)
    (hs : s.step a = some u) : Ordered u (tr.note s a) := by
  cases move_of_step hs with
  | load value ht => exact h.of_eq rfl rfl
  | count ht => exact h.of_eq rfl rfl
  | @push t k value ht =>
    simp only [Trace.note, ht]
    exact h.push hun t k value
  | advance ht => exact h.of_eq rfl rfl
  | @clear t oldK ht => exact h.clear t oldK
  | pop hi => exact h.pop hun hi

/-! ### Runs -/

theorem reachable_ordered (h : (traced α).Reachable (s, tr)) : Ordered s tr := by
  have hinit : Ordered (State.init : State α) ⟨[], []⟩ := by
    refine ⟨fun _ => rfl, fun _ he => absurd he List.not_mem_nil, ?_⟩
    intro i it hit
    cases hit
  refine h.invariant (I := fun p => Kept p.1 ∧ Ordered p.1 p.2) ⟨Kept.init, hinit⟩ ?_ |>.2
  rintro p a q ⟨hk, ho⟩ hq
  obtain ⟨hs, hnote⟩ := observed_step_eq_some.mp hq
  rw [hnote]
  exact ⟨hk.step hs, ho.step hk.uncounted hs⟩

/-- **Each queue is first in, first out.** In every reachable state, the items
popped from a queue and then those in it are those pushed on it, in push order;
and each iterator has yielded what it popped, a part of what was pushed on its
queue, in push order. -/
theorem queues_in_order (h : (traced α).Reachable (s, tr)) :
    (∀ k, onQueue k tr.pushes = onQueue k tr.pops ++ s.ring.items k) ∧
    ∀ (i : ℕ) (it : Iter α), s.iters[i]? = some it →
      it.items = byWho i tr.pops ∧ it.items.Sublist (onQueue it.iter.q tr.pushes) := by
  have ho := reachable_ordered h
  refine ⟨ho.fifo, ?_⟩
  intro i it hi
  have hmine : ∀ e ∈ tr.pops, e.who = i → e.queue = it.iter.q := by
    intro e he hw
    obtain ⟨it', hit', hq⟩ := ho.popped e he
    rw [hw] at hit'
    rw [← hq, Option.some.inj (hit'.symm.trans hi)]
  refine ⟨ho.yielded i it hi, ?_⟩
  calc it.items.Sublist (onQueue it.iter.q tr.pops) := by
        rw [ho.yielded i it hi]
        exact byWho_sublist_onQueue hmine
    List.Sublist _ (onQueue it.iter.q tr.pushes) := by
        rw [ho.fifo]
        exact List.sublist_append_left ..

end

/-- Two iterators that drain one queue share its items in their order. -/
theorem queues_in_order_shared : ∃ s tr, (traced Char).Reachable (s, tr) ∧
    s.iters.map Iter.items = [['a', 'c'], [], ['b']] ∧ s.ring.items 0 = ['d'] ∧
    onQueue 0 tr.pushes = onQueue 0 tr.pops ++ ['d'] ∧ ['a', 'c'].Sublist (onQueue 0 tr.pushes) := by
  have hrun : ∃ s tr it, (traced Char).run (traced Char).init
      [.load 0 'a', .count 0, .push 0, .load 1 'b', .count 1, .push 1, .load 0 'c', .count 0, .push 0,
        .load 2 'd', .advance 3, .clear 3, .advance 3, .clear 3, .advance 3, .clear 3, .count 2, .push 2,
        .pop 0, .pop 2, .pop 0] = some (s, tr) ∧
      s.iters.map Iter.items = [['a', 'c'], [], ['b']] ∧ s.ring.items 0 = ['d'] ∧
      s.iters[0]? = some it ∧ it.iter.q = 0 ∧ it.items = ['a', 'c'] :=
    ⟨_, _, _, rfl, rfl, rfl, rfl, rfl, rfl⟩
  obtain ⟨s, tr, it, hs, hiters, hzero, hit, hq, hitems⟩ := hrun
  have hr : (traced Char).Reachable (s, tr) := reachable_of_run hs
  obtain ⟨hfifo, hyield⟩ := queues_in_order hr
  have h0 := hfifo 0
  rw [hzero] at h0
  have hsub := (hyield 0 it hit).2
  rw [hitems, hq] at hsub
  exact ⟨s, tr, hr, hiters, hzero, h0, hsub⟩

end Interleaved
end Queue
end Zerohop
