/-
# The ring under contention

Any number of threads enqueue and dequeue and any number of iterators are
drained, one atomic step at a time in any order (sequentially consistent). An
enqueue reads the index, counts, and pushes; a dequeue moves the index and
clears the length; a call of `next` pops up to four times, each pop a step.

An enqueue overtaken by dequeues pushes on a queue that is no longer selected,
and several iterators may drain one queue. Still each pop moves one item from a
queue to its iterator, so what was pushed is what was yielded and what is
queued (`conserved`), and two dequeues empty the ring (`run_drain`): they visit
both queues whatever the index.
-/
import Mathlib.Data.List.Perm.Basic
import Zerohop.Lib.Machine
import Zerohop.Queue.Ring

namespace Zerohop
namespace Queue
namespace Interleaved

open Machine

/-- Where a thread is. -/
inductive Thread (α : Type*)
  | idle
  /-- In `enqueue`, before `l_len[k]` is counted up. -/
  | loaded (k : Fin 2) (value : α)
  /-- In `enqueue`, before the push. -/
  | counted (k : Fin 2) (value : α)
  /-- In `dequeue`, before `l_len[old_k]` is cleared. -/
  | advanced (oldK : Fin 2)

/-- An iterator, the failed pops of its call of `next` under way, and what its
calls have returned. -/
structure Iter (α : Type*) where
  iter : QueueIterator
  tries : ℕ
  returned : List (Option α)

structure State (α : Type*) where
  ring : QueueRing α
  threads : ℕ → Thread α
  iters : List (Iter α)
  pushed : List α

/-- A step of thread `t` or of the iterator `i`. -/
inductive Action (α : Type*)
  | load (t : ℕ) (value : α)
  | count (t : ℕ)
  | push (t : ℕ)
  | advance (t : ℕ)
  | clear (t : ℕ)
  | pop (i : ℕ)

variable {α : Type*}

namespace Iter

/-- What the iterator has yielded. -/
def items (it : Iter α) : List α := it.returned.filterMap id

/-- A pop of `next`: an item ends the call, and so does the fourth failure. -/
def popped (it : Iter α) : Option α → Iter α
  | some x => { it with
      iter := if it.tries = 0 then
          { it.iter with safteyCount := wrappingSucc it.iter.safteyCount } else it.iter
      tries := 0
      returned := it.returned ++ [some x] }
  | none =>
    if it.tries < 3 then { it with tries := it.tries + 1 }
    else { it with tries := 0, returned := it.returned ++ [none] }

end Iter

namespace State

def init : State α := ⟨QueueRing.default, fun _ => .idle, [], []⟩

/-- Thread `t` is at `x`. -/
def setThread (s : State α) (t : ℕ) (x : Thread α) : State α :=
  { s with threads := Function.update s.threads t x }

/-- An atomic step. -/
def step (s : State α) : Action α → Option (State α)
  | .load t value =>
    match s.threads t with
    | .idle => some (s.setThread t (.loaded s.ring.selected value))
    | _ => none
  | .count t =>
    match s.threads t with
    | .loaded k value => some { s.setThread t (.counted k value) with ring := s.ring.countUp k }
    | _ => none
  | .push t =>
    match s.threads t with
    | .counted k value => some { s.setThread t .idle with
        ring := s.ring.push k value, pushed := s.pushed ++ [value] }
    | _ => none
  | .advance t =>
    match s.threads t with
    | .idle => some { s.setThread t (.advanced s.ring.selected) with ring := s.ring.advance }
    | _ => none
  | .clear t =>
    match s.threads t with
    | .advanced oldK => some { s.setThread t .idle with
        ring := s.ring.clearLen oldK
        iters := s.iters ++ [⟨⟨s.ring.lLen oldK, 0, oldK⟩, 0, []⟩] }
    | _ => none
  | .pop i =>
    match s.iters[i]? with
    | some it =>
      let (ring, x) := s.ring.pop it.iter.q
      some { s with ring, iters := s.iters.set i (it.popped x) }
    | none => none

/-- What all the iterators have yielded. -/
def yielded (s : State α) : List α := s.iters.flatMap Iter.items

end State

/-- The ring shared by any number of threads and iterators. -/
def machine (α : Type*) : Machine (State α) (Action α) := ⟨State.init, State.step⟩

/-! ### Lists up to order -/

theorem flatMap_set_perm {β : Type*} {f : β → List α} {b : β} {x : α} : ∀ {l : List β} {i : ℕ} {a : β},
    l[i]? = some a → f b = f a ++ [x] → ((l.set i b).flatMap f).Perm (x :: l.flatMap f)
  | [], _, _, h, _ => by cases h
  | c :: l, 0, a, h, hb => by
    obtain rfl : c = a := Option.some.inj h
    rw [List.set_cons_zero, List.flatMap_cons, List.flatMap_cons, hb, List.append_assoc]
    exact List.perm_middle
  | c :: l, i + 1, a, h, hb => by
    rw [List.set_cons_succ, List.flatMap_cons, List.flatMap_cons]
    calc (f c ++ (l.set i b).flatMap f).Perm (f c ++ x :: l.flatMap f) :=
          (flatMap_set_perm (l := l) h hb).append_left (f c)
      List.Perm _ (x :: (f c ++ l.flatMap f)) := List.perm_middle

theorem flatMap_set_eq {β : Type*} {f : β → List α} {b : β} : ∀ {l : List β} {i : ℕ} {a : β},
    l[i]? = some a → f b = f a → (l.set i b).flatMap f = l.flatMap f
  | [], _, _, h, _ => by cases h
  | c :: l, 0, a, h, hb => by
    obtain rfl : c = a := Option.some.inj h
    rw [List.set_cons_zero, List.flatMap_cons, List.flatMap_cons, hb]
  | c :: l, i + 1, a, h, hb => by
    rw [List.set_cons_succ, List.flatMap_cons, List.flatMap_cons, flatMap_set_eq (l := l) h hb]

theorem append_update_perm {items : Fin 2 → List α} {k : Fin 2} {x : α} {ys : List α}
    (h : ys.Perm (x :: items k)) :
    (Function.update items k ys 0 ++ Function.update items k ys 1).Perm (x :: (items 0 ++ items 1)) := by
  rcases eq_or_eq_of_ne (by decide : (0 : Fin 2) ≠ 1) k with rfl | rfl
  · rw [Function.update_self, Function.update_of_ne (by decide)]
    exact h.append_right _
  · rw [Function.update_self, Function.update_of_ne (by decide)]
    exact (h.append_left _).trans List.perm_middle

/-! ### One step -/

theorem Iter.items_popped_some (it : Iter α) (x : α) : (it.popped (some x)).items = it.items ++ [x] := by
  simp [Iter.items, Iter.popped]

theorem Iter.items_popped_none (it : Iter α) : (it.popped none).items = it.items := by
  by_cases h : it.tries < 3 <;> simp [Iter.items, Iter.popped, h]

/-- What was pushed is what was yielded and what is queued. -/
structure Kept (s : State α) : Prop where
  uncounted : s.ring.Uncounted
  conserved : s.pushed.Perm (s.yielded ++ (s.ring.items 0 ++ s.ring.items 1))

theorem Kept.init : Kept (State.init : State α) where
  uncounted := QueueRing.uncounted_default
  conserved := List.Perm.refl _

theorem Kept.push {s : State α} (h : Kept s) (t : ℕ) (k : Fin 2) (value : α) :
    Kept { s.setThread t .idle with ring := s.ring.push k value, pushed := s.pushed ++ [value] } where
  uncounted := h.uncounted.push k value
  conserved := by
    have hitems : ((s.ring.push k value).items 0 ++ (s.ring.push k value).items 1).Perm
        (value :: (s.ring.items 0 ++ s.ring.items 1)) := by
      rw [h.uncounted.items_push]
      exact append_update_perm (List.perm_append_singleton value _)
    show (s.pushed ++ [value]).Perm
      (s.yielded ++ ((s.ring.push k value).items 0 ++ (s.ring.push k value).items 1))
    calc (s.pushed ++ [value]).Perm (value :: s.pushed) := List.perm_append_singleton value _
      List.Perm _ (value :: (s.yielded ++ (s.ring.items 0 ++ s.ring.items 1))) :=
        h.conserved.cons value
      List.Perm _ (s.yielded ++ value :: (s.ring.items 0 ++ s.ring.items 1)) :=
        List.perm_middle.symm
      List.Perm _ (s.yielded ++
          ((s.ring.push k value).items 0 ++ (s.ring.push k value).items 1)) :=
        hitems.symm.append_left _

/-- A pop moves the front of a queue to its iterator, or nothing. -/
theorem Kept.pop {s : State α} (h : Kept s) {i : ℕ} {it : Iter α} (hi : s.iters[i]? = some it) :
    Kept { s with
      ring := (s.ring.pop it.iter.q).1
      iters := s.iters.set i (it.popped (s.ring.pop it.iter.q).2) } := by
  match hk : s.ring.items it.iter.q with
  | [] =>
    rw [h.uncounted.pop_nil hk]
    refine ⟨h.uncounted, ?_⟩
    show s.pushed.Perm ((s.iters.set i (it.popped none)).flatMap Iter.items ++ _)
    rw [flatMap_set_eq hi it.items_popped_none]
    exact h.conserved
  | x :: xs =>
    obtain ⟨ring', hpop, hun, -, -, hitems⟩ := h.uncounted.pop_cons hk
    rw [hpop]
    refine ⟨hun, ?_⟩
    have hyield : ((s.iters.set i (it.popped (some x))).flatMap Iter.items).Perm (x :: s.yielded) :=
      flatMap_set_perm hi (it.items_popped_some x)
    have hqueue : (s.ring.items 0 ++ s.ring.items 1).Perm (x :: (ring'.items 0 ++ ring'.items 1)) := by
      have hback : s.ring.items = Function.update ring'.items it.iter.q (x :: xs) := by
        rw [hitems, Function.update_idem, ← hk, Function.update_eq_self]
      have hfront : ring'.items it.iter.q = xs := by rw [hitems, Function.update_self]
      rw [hback]
      exact append_update_perm (by rw [hfront])
    show s.pushed.Perm ((s.iters.set i (it.popped (some x))).flatMap Iter.items ++
      (ring'.items 0 ++ ring'.items 1))
    calc s.pushed.Perm (s.yielded ++ (s.ring.items 0 ++ s.ring.items 1)) := h.conserved
      List.Perm _ (s.yielded ++ x :: (ring'.items 0 ++ ring'.items 1)) := hqueue.append_left _
      List.Perm _ (x :: s.yielded ++ (ring'.items 0 ++ ring'.items 1)) := List.perm_middle
      List.Perm _ ((s.iters.set i (it.popped (some x))).flatMap Iter.items ++
          (ring'.items 0 ++ ring'.items 1)) := hyield.symm.append_right _

/-- **Every step keeps what was pushed.** -/
theorem Kept.step {s u : State α} {a : Action α} (h : Kept s) (hs : s.step a = some u) : Kept u := by
  cases a with
  | load t value =>
    simp only [State.step] at hs
    split at hs
    · obtain rfl := Option.some.inj hs
      exact ⟨h.uncounted, h.conserved⟩
    · cases hs
  | count t =>
    simp only [State.step] at hs
    split at hs
    · obtain rfl := Option.some.inj hs
      exact ⟨h.uncounted, h.conserved⟩
    · cases hs
  | push t =>
    simp only [State.step] at hs
    split at hs
    · obtain rfl := Option.some.inj hs
      exact h.push t _ _
    · cases hs
  | advance t =>
    simp only [State.step] at hs
    split at hs
    · obtain rfl := Option.some.inj hs
      exact ⟨h.uncounted, h.conserved⟩
    · cases hs
  | clear t =>
    simp only [State.step] at hs
    split at hs
    · obtain rfl := Option.some.inj hs
      -- the new iterator has yielded nothing
      refine ⟨h.uncounted, ?_⟩
      simpa [State.yielded, State.setThread, Iter.items, List.flatMap_append] using h.conserved
    · cases hs
  | pop i =>
    simp only [State.step] at hs
    split at hs
    · rename_i it hi
      obtain rfl := Option.some.inj hs
      exact h.pop hi
    · cases hs

/-! ### Runs -/

theorem reachable_kept {s : State α} (h : (machine α).Reachable s) : Kept s :=
  Reachable.invariant (I := Kept) Kept.init (fun _ _ _ hI hs => Kept.step hI hs) h

/-- An `enqueue` that nothing interrupts is the call of the ring. -/
theorem run_enqueue {s : State α} {t : ℕ} (ht : s.threads t = .idle) (value : α) :
    ∃ u, (machine α).run s [.load t value, .count t, .push t] = some u ∧
      u.ring = s.ring.enqueue value ∧ u.threads t = .idle ∧ u.iters = s.iters := by
  simp [run, machine, State.step, State.setThread, ht, QueueRing.enqueue]

theorem Iter.popped_q (it : Iter α) (x : Option α) : (it.popped x).iter.q = it.iter.q := by
  unfold Iter.popped
  split <;> split <;> rfl

theorem step_pop_newest {s : State α} {l : List (Iter α)} {it : Iter α} (hl : s.iters = l ++ [it]) :
    (machine α).step s (.pop l.length) = some { s with
      ring := (s.ring.pop it.iter.q).1
      iters := l ++ [it.popped (s.ring.pop it.iter.q).2] } := by
  simp [machine, State.step, hl]

/-- Four failed pops end a call of `next`. -/
theorem run_fail {s : State α} {l : List (Iter α)} {it : Iter α} (hun : s.ring.Uncounted)
    (hl : s.iters = l ++ [it]) (ht : it.tries = 0) (hk : s.ring.items it.iter.q = []) :
    ∃ it', (machine α).run s (List.replicate 4 (.pop l.length)) = some { s with iters := l ++ [it'] } ∧
      it'.returned = it.returned ++ [none] := by
  have hfail : ∀ x : Iter α, x.iter.q = it.iter.q →
      (machine α).step { s with iters := l ++ [x] } (.pop l.length) =
        some { s with iters := l ++ [x.popped none] } := by
    intro x hx
    rw [step_pop_newest rfl, hx, hun.pop_nil hk]
  have hs : s = { s with iters := l ++ [it] } := by rw [← hl]
  have h1 := it.popped_q none
  have h2 := ((it.popped none).popped_q none).trans h1
  have h3 := (((it.popped none).popped none).popped_q none).trans h2
  refine ⟨(((it.popped none).popped none).popped none).popped none, ?_, ?_⟩
  · rw [hs]
    simp only [List.replicate]
    rw [run_cons _ (hfail _ rfl), run_cons _ (hfail _ h1), run_cons _ (hfail _ h2),
      run_cons _ (hfail _ h3)]
    rfl
  · simp [Iter.popped, ht]

/-- The calls of `next` on the newest iterator, alone, until one returns
`None`: it yields all that its queue holds, and then fails four times. -/
theorem run_pops : ∀ (xs : List α) {s : State α} {l : List (Iter α)} {it : Iter α},
    s.ring.Uncounted → s.iters = l ++ [it] → it.tries = 0 → s.ring.items it.iter.q = xs →
    ∃ ring it', (machine α).run s (List.replicate (xs.length + 4) (.pop l.length)) =
        some { s with ring, iters := l ++ [it'] } ∧
      ring.Uncounted ∧ ring.nextI = s.ring.nextI ∧
      ring.items = Function.update s.ring.items it.iter.q [] ∧
      it'.returned = it.returned ++ xs.map some ++ [none]
  | [], s, l, it, hun, hl, ht, hk => by
    obtain ⟨it', hrun, hret⟩ := run_fail hun hl ht hk
    refine ⟨s.ring, it', hrun, hun, rfl, ?_, ?_⟩
    · rw [← hk, Function.update_eq_self]
    · rw [hret, List.map_nil, List.append_nil]
  | x :: xs, s, l, it, hun, hl, ht, hk => by
    obtain ⟨ring₁, hpop, hun₁, hnext₁, -, hitems₁⟩ := hun.pop_cons hk
    have hstep := step_pop_newest hl
    rw [hpop] at hstep
    obtain ⟨ring, it', hrun, hun', hnext, hitems, hret⟩ := run_pops xs
      (s := { s with ring := ring₁, iters := l ++ [it.popped (some x)] }) hun₁ rfl rfl
      (by rw [it.popped_q, hitems₁, Function.update_self])
    refine ⟨ring, it', ?_, hun', hnext.trans hnext₁, ?_, ?_⟩
    · rw [List.length_cons, Nat.succ_add, List.replicate_succ, run_cons _ hstep]
      exact hrun
    · rw [hitems, it.popped_q]
      simp only [hitems₁, Function.update_idem]
    · rw [hret]
      simp [Iter.popped]

/-- The steps of thread `t` that dequeues and exhausts the iterator, the `i`-th
of all, from a queue of `n` items. -/
def drainSchedule (t i n : ℕ) : List (Action α) :=
  .advance t :: .clear t :: List.replicate (n + 4) (.pop i)

/-- **A dequeue whose iterator is exhausted**, alone: it yields the contents of
the selected queue and leaves the other one selected. -/
theorem run_drain {s : State α} (hun : s.ring.Uncounted) {t : ℕ} (ht : s.threads t = .idle) :
    ∃ u it, (machine α).run s (drainSchedule t s.iters.length (s.ring.items s.ring.selected).length) =
        some u ∧
      u.ring.Uncounted ∧ u.threads t = .idle ∧ u.pushed = s.pushed ∧
      u.ring.selected = s.ring.drained ∧ u.ring.drained = s.ring.selected ∧
      u.ring.items = Function.update s.ring.items s.ring.selected [] ∧
      u.iters = s.iters ++ [it] ∧
      it.returned = (s.ring.items s.ring.selected).map some ++ [none] := by
  have hadvance : (machine α).step s (.advance t) =
      some { s.setThread t (.advanced s.ring.selected) with ring := s.ring.advance } := by
    simp only [machine, State.step, ht]
  let it₀ : Iter α := ⟨⟨s.ring.lLen s.ring.selected, 0, s.ring.selected⟩, 0, []⟩
  let s₁ : State α := { (s.setThread t (.advanced s.ring.selected)).setThread t .idle with
    ring := s.ring.advance.clearLen s.ring.selected, iters := s.iters ++ [it₀] }
  have hclear : (machine α).step
      { s.setThread t (.advanced s.ring.selected) with ring := s.ring.advance } (.clear t) = some s₁ := by
    simp [machine, State.step, State.setThread, s₁, it₀, QueueRing.advance]
  obtain ⟨ring, it', hrun, hun', hnext, hitems, hret⟩ := run_pops (s.ring.items s.ring.selected)
    (show s₁.ring.Uncounted from hun) (show s₁.iters = s.iters ++ [it₀] from rfl) rfl rfl
  refine ⟨{ s₁ with ring, iters := s.iters ++ [it'] }, it', ?_, hun', ?_, rfl, ?_, ?_, hitems, rfl,
    hret⟩
  · unfold drainSchedule
    rw [run_cons _ hadvance, run_cons _ hclear]
    exact hrun
  · simp [s₁, State.setThread]
  · exact (congrArg queueIdx hnext).trans s.ring.selected_advance
  · exact (congrArg (fun i => queueIdx (i + 1)) hnext).trans s.ring.drained_advance

/-- **Nothing is lost or duplicated.** In every reachable state what was pushed
is, up to order, what the iterators have yielded and what is queued; and two
dequeues in a row by one thread, each iterator exhausted, yield exactly what is
queued and leave both queues empty. -/
theorem nothing_lost {s : State α} (h : (machine α).Reachable s) :
    s.pushed.Perm (s.yielded ++ (s.ring.items 0 ++ s.ring.items 1)) ∧
    ∀ t, s.threads t = .idle → ∃ u it₀ it₁,
      (machine α).run s
        (drainSchedule t s.iters.length (s.ring.items s.ring.selected).length ++
          drainSchedule t (s.iters.length + 1) (s.ring.items s.ring.drained).length) = some u ∧
      u.iters = s.iters ++ [it₀, it₁] ∧
      it₀.returned = (s.ring.items s.ring.selected).map some ++ [none] ∧
      it₁.returned = (s.ring.items s.ring.drained).map some ++ [none] ∧
      u.ring.items 0 = [] ∧ u.ring.items 1 = [] ∧ s.pushed.Perm u.yielded := by
  have hI := reachable_kept h
  refine ⟨hI.conserved, ?_⟩
  intro t ht
  obtain ⟨s₁, it₀, hrun₁, hun₁, ht₁, hpush₁, hsel₁, hdr₁, hitems₁, hiters₁, hret₁⟩ :=
    run_drain hI.uncounted ht
  obtain ⟨u, it₁, hrun₂, -, -, hpush₂, -, -, hitems₂, hiters₂, hret₂⟩ := run_drain hun₁ ht₁
  have hold : s₁.ring.items s₁.ring.selected = s.ring.items s.ring.drained := by
    rw [hsel₁, hitems₁, Function.update_of_ne s.ring.drained_ne_selected]
  have hlen : s₁.iters.length = s.iters.length + 1 := by rw [hiters₁, List.length_append]; rfl
  rw [hold, hlen] at hrun₂
  rw [hold] at hret₂
  have hempty : ∀ k, u.ring.items k = [] := by
    intro k
    rw [hitems₂, hsel₁, hitems₁]
    rcases eq_or_eq_of_ne s.ring.drained_ne_selected k with rfl | rfl
    · rw [Function.update_self]
    · rw [Function.update_of_ne s.ring.drained_ne_selected.symm, Function.update_self]
  have hrun : (machine α).run s
      (drainSchedule t s.iters.length (s.ring.items s.ring.selected).length ++
        drainSchedule t (s.iters.length + 1) (s.ring.items s.ring.drained).length) = some u := by
    rw [run_append, hrun₁]
    exact hrun₂
  refine ⟨u, it₀, it₁, hrun, ?_, hret₁, hret₂, hempty 0, hempty 1, ?_⟩
  · rw [hiters₂, hiters₁, List.append_assoc]
    rfl
  · -- conservation at the end, where nothing is queued
    have hend := (reachable_kept (reachable_of_run_from _ h hrun)).conserved
    rwa [hempty 0, hempty 1, List.append_nil, List.append_nil, hpush₂, hpush₁] at hend

/-- An enqueue overtaken by a dequeue pushes on the queue that is no longer
selected; two more dequeues find it. -/
theorem nothing_lost_overtaken : ∃ s, (machine Char).run State.init
      [.load 0 'a', .advance 1, .clear 1, .count 0, .push 0, .load 0 'b', .count 0, .push 0] = some s ∧
    s.ring.items s.ring.selected = ['b'] ∧ s.pushed.Perm (s.yielded ++ (['a'] ++ ['b'])) ∧
    ∃ u it₀ it₁, (machine Char).run s (drainSchedule 1 1 1 ++ drainSchedule 1 2 1) = some u ∧
      u.iters = s.iters ++ [it₀, it₁] ∧ it₀.returned = [some 'b', none] ∧
      it₁.returned = [some 'a', none] := by
  have hrun : ∃ s, (machine Char).run State.init
      [.load 0 'a', .advance 1, .clear 1, .count 0, .push 0, .load 0 'b', .count 0, .push 0] = some s ∧
      s.ring.items s.ring.selected = ['b'] ∧ s.ring.items s.ring.drained = ['a'] ∧
      s.ring.items 0 = ['a'] ∧ s.ring.items 1 = ['b'] ∧ s.threads 1 = .idle ∧ s.iters.length = 1 :=
    ⟨_, rfl, rfl, rfl, rfl, rfl, rfl, rfl⟩
  obtain ⟨s, hs, hsel, hdr, h0, h1, ht, hlen⟩ := hrun
  obtain ⟨hperm, hdrain⟩ := nothing_lost (reachable_of_run hs)
  obtain ⟨u, it₀, it₁, hu, hiters, hret₀, hret₁, -⟩ := hdrain 1 ht
  rw [hsel, hdr, hlen] at hu
  rw [hsel] at hret₀
  rw [hdr] at hret₁
  rw [h0, h1] at hperm
  exact ⟨s, hs, hsel, hperm, u, it₀, it₁, hu, hiters, hret₀, hret₁⟩

end Interleaved
end Queue
end Zerohop
