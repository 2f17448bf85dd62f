/-
# What the batch lengths add up to

`dequeue` announces the length that it swaps out of the counter of its queue,
and an enqueue counts before it pushes. So one batch may announce an item that
is not there yet, and yield one that another batch has announced. Over all
batches of a queue nothing is announced twice or forgotten: the counter and the
lengths announced so far are the items yielded from the queue, those in it and
those whose enqueue is between its count and its push (`lengths_accounted`),
until a counter wraps.

Key definitions: `State.announced`, `State.yieldedFrom`, `Counting`.
Key theorem: `lengths_accounted`.
-/
import Mathlib.Data.Finset.Card
import Zerohop.Lib.Parties
import Zerohop.Queue.Interleaved

namespace Zerohop
namespace Queue
namespace Interleaved

open Machine

variable {α : Type*}

/-! ### What a step does -/

/-- The steps, with where the thread or iterator stood. -/
inductive Move (s : State α) : Action α → State α → Prop
  | load {t : ℕ} (value : α) : s.threads t = .idle →
      Move s (.load t value) (s.setThread t (.loaded s.ring.selected value))
  | count {t : ℕ} {k : Fin 2} {value : α} : s.threads t = .loaded k value →
      Move s (.count t) { s.setThread t (.counted k value) with ring := s.ring.countUp k }
  | push {t : ℕ} {k : Fin 2} {value : α} : s.threads t = .counted k value →
      Move s (.push t)
        { s.setThread t .idle with ring := s.ring.push k value, pushed := s.pushed ++ [value] }
  | advance {t : ℕ} : s.threads t = .idle →
      Move s (.advance t) { s.setThread t (.advanced s.ring.selected) with ring := s.ring.advance }
  | clear {t : ℕ} {oldK : Fin 2} : s.threads t = .advanced oldK →
      Move s (.clear t) { s.setThread t .idle with
        ring := s.ring.clearLen oldK
        iters := s.iters ++ [⟨⟨s.ring.lLen oldK, 0, oldK⟩, 0, []⟩] }
  | pop {i : ℕ} {it : Iter α} : s.iters[i]? = some it →
      Move s (.pop i) { s with
        ring := (s.ring.pop it.iter.q).1
        iters := s.iters.set i (it.popped (s.ring.pop it.iter.q).2) }

theorem move_of_step {s u : State α} {a : Action α} (hs : s.step a = some u) : Move s a u := by
  cases a with
  | load t value =>
    simp only [State.step] at hs
    split at hs
    · rename_i ht
      cases hs
      exact .load value ht
    · cases hs
  | count t =>
    simp only [State.step] at hs
    split at hs
    · rename_i ht
      cases hs
      exact .count ht
    · cases hs
  | push t =>
    simp only [State.step] at hs
    split at hs
    · rename_i ht
      cases hs
      exact .push ht
    · cases hs
  | advance t =>
    simp only [State.step] at hs
    split at hs
    · rename_i ht
      cases hs
      exact .advance ht
    · cases hs
  | clear t =>
    simp only [State.step] at hs
    split at hs
    · rename_i ht
      cases hs
      exact .clear ht
    · cases hs
  | pop i =>
    simp only [State.step] at hs
    split at hs
    · rename_i hi
      cases hs
      exact .pop hi
    · cases hs

/-! ### Sums over the iterators -/

theorem sum_map_set {β : Type*} (f : β → ℕ) {b : β} : ∀ {l : List β} {i : ℕ} {a : β}, l[i]? = some a →
    ((l.set i b).map f).sum + f a = (l.map f).sum + f b
  | [], _, _, h => by cases h
  | c :: l, 0, a, h => by
    obtain rfl : c = a := Option.some.inj h
    simp only [List.set_cons_zero, List.map_cons, List.sum_cons]
    omega
  | c :: l, i + 1, a, h => by
    have ih := sum_map_set f (b := b) (l := l) h
    simp only [List.set_cons_succ, List.map_cons, List.sum_cons]
    omega

namespace Iter

/-- The length announced for queue `k`. -/
def lenAt (k : Fin 2) (it : Iter α) : ℕ := if it.iter.q = k then it.iter.len else 0

/-- How much of queue `k` it has yielded. -/
def yieldedAt (k : Fin 2) (it : Iter α) : ℕ := if it.iter.q = k then it.items.length else 0

theorem popped_len (it : Iter α) (x : Option α) : (it.popped x).iter.len = it.iter.len := by
  unfold popped
  split <;> split <;> rfl

theorem lenAt_popped (k : Fin 2) (it : Iter α) (x : Option α) :
    (it.popped x).lenAt k = it.lenAt k := by
  rw [lenAt, lenAt, it.popped_q, it.popped_len]

theorem yieldedAt_popped_none (k : Fin 2) (it : Iter α) :
    (it.popped none).yieldedAt k = it.yieldedAt k := by
  rw [yieldedAt, yieldedAt, it.popped_q, it.items_popped_none]

theorem yieldedAt_popped_some (k : Fin 2) (it : Iter α) (x : α) :
    (it.popped (some x)).yieldedAt k = it.yieldedAt k + if it.iter.q = k then 1 else 0 := by
  rw [yieldedAt, yieldedAt, it.popped_q, it.items_popped_some, List.length_append, List.length_singleton]
  split_ifs <;> rfl

end Iter

/-- It has counted on queue `k` and not yet pushed. -/
def Thread.CountedOn (k : Fin 2) (x : Thread α) : Prop := ∃ value, x = .counted k value

/-- The threads in `S` have counted on queue `k` and not yet pushed. -/
def Counting (s : State α) (k : Fin 2) (S : Finset ℕ) : Prop :=
  Parties.Exactly s.threads (Thread.CountedOn k) S

namespace State

/-- The lengths announced for queue `k`. -/
def announced (s : State α) (k : Fin 2) : ℕ := (s.iters.map (Iter.lenAt k)).sum

/-- How many items of queue `k` were yielded. -/
def yieldedFrom (s : State α) (k : Fin 2) : ℕ := (s.iters.map (Iter.yieldedAt k)).sum

/-- The items counted on queue `k`: yielded, queued, or to be pushed by `S`. -/
def counted (s : State α) (k : Fin 2) (S : Finset ℕ) : ℕ :=
  s.yieldedFrom k + (s.ring.items k).length + S.card

end State

/-- The lengths of queue `k` add up. -/
structure Accounted (s : State α) (k : Fin 2) (S : Finset ℕ) : Prop where
  counting : Counting s k S
  lengths : s.counted k S < 2 ^ 64 → s.ring.lLen k + s.announced k = s.counted k S

section

variable {s : State α} {k : Fin 2} {S : Finset ℕ}

theorem Counting.setThread (h : Counting s k S) {t : ℕ} {x : Thread α}
    (hold : ∀ value, s.threads t ≠ .counted k value) (hnew : ∀ value, x ≠ .counted k value) :
    Counting (s.setThread t x) k S :=
  Parties.Exactly.keep (p := Thread.CountedOn k) h
    (iff_of_false (not_exists.mpr hold) (not_exists.mpr hnew))

/-- A thread counts on the queue. -/
theorem Counting.insert (h : Counting s k S) {t : ℕ} {value : α} :
    Counting (s.setThread t (.counted k value)) k (insert t S) :=
  Parties.Exactly.insert (p := Thread.CountedOn k) h ⟨value, rfl⟩

theorem Counting.erase (h : Counting s k S) (t : ℕ) : Counting (s.setThread t .idle) k (S.erase t) :=
  Parties.Exactly.erase (p := Thread.CountedOn k) h (by simp [Thread.CountedOn])

/-! ### One step -/

theorem Accounted.setThread (h : Accounted s k S) {t : ℕ} {x : Thread α}
    (hold : ∀ value, s.threads t ≠ .counted k value) (hnew : ∀ value, x ≠ .counted k value) :
    Accounted (s.setThread t x) k S :=
  ⟨h.counting.setThread hold hnew, h.lengths⟩

/-- The counter goes up with the items counted, as long as these are fewer than 2^64. -/
theorem Accounted.count (h : Accounted s k S) {t : ℕ} {k' : Fin 2} {value : α}
    (ht : s.threads t = .loaded k' value) :
    ∃ S', Accounted { s.setThread t (.counted k' value) with ring := s.ring.countUp k' } k S' := by
  by_cases hk : k' = k
  · subst hk
    have hnew : t ∉ S := by
      rw [h.counting t, ht]
      rintro ⟨value', he⟩
      cases he
    refine ⟨insert t S, h.counting.insert, fun hlt => ?_⟩
    have hcounted : State.counted { s.setThread t (.counted k' value) with ring := s.ring.countUp k' } k'
        (insert t S) = s.counted k' S + 1 := by
      change s.yieldedFrom k' + (s.ring.items k').length + (insert t S).card = _
      rw [Finset.card_insert_of_notMem hnew]
      rfl
    rw [hcounted] at hlt ⊢
    have hall := h.lengths (Nat.lt_of_succ_lt hlt)
    have hsucc : wrappingSucc (s.ring.lLen k') = s.ring.lLen k' + 1 := wrappingSucc_of_lt (by omega)
    change Function.update s.ring.lLen k' (wrappingSucc (s.ring.lLen k')) k' + s.announced k' = _
    rw [Function.update_self, hsucc]
    omega
  · refine ⟨S, h.counting.setThread (by simp [ht]) (by simp [hk]), fun hlt => ?_⟩
    have hlen : (s.ring.countUp k').lLen k = s.ring.lLen k := Function.update_of_ne (Ne.symm hk) ..
    exact (congrArg (· + s.announced k) hlen).trans (h.lengths hlt)

theorem length_items_push (hun : s.ring.Uncounted) (k' : Fin 2) (value : α) (k : Fin 2) :
    ((s.ring.push k' value).items k).length = (s.ring.items k).length + if k' = k then 1 else 0 := by
  rw [hun.items_push]
  by_cases hk : k' = k
  · subst hk
    rw [Function.update_self, if_pos rfl, List.length_append, List.length_singleton]
  · rw [Function.update_of_ne (Ne.symm hk), if_neg hk, Nat.add_zero]

theorem Accounted.push (h : Accounted s k S) (hun : s.ring.Uncounted) {t : ℕ} {k' : Fin 2} {value : α}
    (ht : s.threads t = .counted k' value) :
    ∃ S', Accounted { s.setThread t .idle with
      ring := s.ring.push k' value, pushed := s.pushed ++ [value] } k S' := by
  by_cases hk : k' = k
  · subst hk
    have hmem : t ∈ S := (h.counting t).mpr ⟨value, ht⟩
    have hitems := length_items_push hun k' value k'
    rw [if_pos rfl] at hitems
    have hcard := Finset.card_erase_add_one hmem
    have hsame : State.counted { s.setThread t .idle with
        ring := s.ring.push k' value, pushed := s.pushed ++ [value] } k' (S.erase t) = s.counted k' S := by
      change s.yieldedFrom k' + ((s.ring.push k' value).items k').length + (S.erase t).card = _
      rw [hitems, State.counted]
      omega
    refine ⟨S.erase t, h.counting.erase t, fun hlt => ?_⟩
    rw [hsame] at hlt ⊢
    exact h.lengths hlt
  · refine ⟨S, h.counting.setThread (by simp [ht, hk]) (by simp), ?_⟩
    have hitems := length_items_push hun k' value k
    rw [if_neg hk, Nat.add_zero] at hitems
    have hsame : State.counted { s.setThread t .idle with
        ring := s.ring.push k' value, pushed := s.pushed ++ [value] } k S = s.counted k S := by
      change s.yieldedFrom k + ((s.ring.push k' value).items k).length + S.card = _
      rw [hitems, State.counted]
    rw [hsame]
    exact h.lengths

theorem yieldedFrom_clear (t : ℕ) (oldK k : Fin 2) : State.yieldedFrom { s.setThread t .idle with
    ring := s.ring.clearLen oldK
    iters := s.iters ++ [⟨⟨s.ring.lLen oldK, 0, oldK⟩, 0, []⟩] } k = s.yieldedFrom k := by
  simp [State.yieldedFrom, Iter.yieldedAt, Iter.items]

/-- A dequeue announces what its queue's counter held. -/
theorem Accounted.clear (h : Accounted s k S) {t : ℕ} {oldK : Fin 2} (ht : s.threads t = .advanced oldK) :
    Accounted { s.setThread t .idle with
      ring := s.ring.clearLen oldK
      iters := s.iters ++ [⟨⟨s.ring.lLen oldK, 0, oldK⟩, 0, []⟩] } k S := by
  refine ⟨h.counting.setThread (by simp [ht]) (by simp), fun hlt => ?_⟩
  have hann : State.announced { s.setThread t .idle with
      ring := s.ring.clearLen oldK
      iters := s.iters ++ [⟨⟨s.ring.lLen oldK, 0, oldK⟩, 0, []⟩] } k =
      s.announced k + if oldK = k then s.ring.lLen oldK else 0 := by
    simp [State.announced, Iter.lenAt]
  rw [State.counted, yieldedFrom_clear] at hlt ⊢
  rw [hann]
  have hall := h.lengths hlt
  by_cases hk : oldK = k
  · subst hk
    simp only [QueueRing.clearLen, Function.update_self, if_true]
    rw [Nat.zero_add, Nat.add_comm]
    exact hall
  · simp only [QueueRing.clearLen, Function.update_of_ne (Ne.symm hk), if_neg hk, Nat.add_zero]
    exact hall

theorem yieldedFrom_pop (hun : s.ring.Uncounted) {i : ℕ} {it : Iter α} (hi : s.iters[i]? = some it)
    (k : Fin 2) :
    ((s.iters.set i (it.popped (s.ring.pop it.iter.q).2)).map (Iter.yieldedAt k)).sum +
      ((s.ring.pop it.iter.q).1.items k).length = s.yieldedFrom k + (s.ring.items k).length := by
  unfold State.yieldedFrom
  match hq : s.ring.items it.iter.q with
  | [] =>
    rw [hun.pop_nil hq]
    have hsum := sum_map_set (Iter.yieldedAt k) (b := it.popped none) hi
    rw [it.yieldedAt_popped_none] at hsum
    exact congrArg (· + (s.ring.items k).length) (Nat.add_right_cancel hsum)
  | x :: xs =>
    obtain ⟨ring', hpop, -, -, -, hitems⟩ := hun.pop_cons hq
    rw [hpop, hitems]
    have hsum := sum_map_set (Iter.yieldedAt k) (b := it.popped (some x)) hi
    rw [it.yieldedAt_popped_some] at hsum
    dsimp only
    by_cases hk : it.iter.q = k
    · subst hk
      rw [if_pos rfl] at hsum
      rw [Function.update_self, hq, List.length_cons]
      omega
    · rw [if_neg hk] at hsum
      rw [Function.update_of_ne (Ne.symm hk)]
      omega

theorem Accounted.pop (h : Accounted s k S) (hun : s.ring.Uncounted) {i : ℕ} {it : Iter α}
    (hi : s.iters[i]? = some it) :
    Accounted { s with
      ring := (s.ring.pop it.iter.q).1
      iters := s.iters.set i (it.popped (s.ring.pop it.iter.q).2) } k S := by
  have hann : ((s.iters.set i (it.popped (s.ring.pop it.iter.q).2)).map (Iter.lenAt k)).sum =
      s.announced k := by
    have hsum := sum_map_set (Iter.lenAt k) (b := it.popped (s.ring.pop it.iter.q).2) hi
    rw [it.lenAt_popped] at hsum
    exact Nat.add_right_cancel hsum
  have hlen : (s.ring.pop it.iter.q).1.lLen = s.ring.lLen := rfl
  have hsame : State.counted { s with
      ring := (s.ring.pop it.iter.q).1
      iters := s.iters.set i (it.popped (s.ring.pop it.iter.q).2) } k S = s.counted k S :=
    congrArg (· + S.card) (yieldedFrom_pop hun hi k)
  refine ⟨h.counting, ?_⟩
  rw [hsame]
  simp only [State.announced, hann, hlen]
  exact h.lengths

/-- **Every step keeps the account.** -/
theorem Accounted.step {u : State α} {a : Action α} (h : Accounted s k S) (hun : s.ring.Uncounted)
    (hs : s.step a = some u) : ∃ S', Accounted u k S' := by
  cases move_of_step hs with
  | load value ht => exact ⟨S, h.setThread (by simp [ht]) (by simp)⟩
  | count ht => exact h.count ht
  | push ht => exact h.push hun ht
  | @advance t ht =>
    have hset := h.setThread (x := .advanced s.ring.selected) (t := t) (by simp [ht]) (by simp)
    exact ⟨S, hset.counting, hset.lengths⟩
  | clear ht => exact ⟨S, h.clear ht⟩
  | pop hi => exact ⟨S, h.pop hun hi⟩

end

/-! ### Runs -/

/-- **The lengths add up.** In every reachable state, for each queue: what its
counter holds and its batches have announced is what was yielded from it, what
is in it and one for each enqueue between its count and its push, as long as
these are fewer than 2^64. -/
theorem lengths_accounted {s : State α} (h : (machine α).Reachable s) (k : Fin 2) :
    ∃ S : Finset ℕ, (∀ t, t ∈ S ↔ ∃ value, s.threads t = .counted k value) ∧
      (s.yieldedFrom k + (s.ring.items k).length + S.card < 2 ^ 64 →
        s.ring.lLen k + s.announced k = s.yieldedFrom k + (s.ring.items k).length + S.card) := by
  have hinit : Accounted (State.init : State α) k ∅ :=
    ⟨fun t => by simp [State.init, Thread.CountedOn], fun _ => rfl⟩
  obtain ⟨-, S, hS⟩ := h.invariant (I := fun s => Kept s ∧ ∃ S, Accounted s k S)
    ⟨Kept.init, ∅, hinit⟩ fun u a v ⟨hk, S, hS⟩ hv => ⟨hk.step hv, hS.step hk.uncounted hv⟩
  exact ⟨S, hS.counting, hS.lengths⟩

/-- One batch announces an item that is not there yet; the next one yields it
and announces none. -/
theorem lengths_accounted_early : ∃ s, (machine Char).run State.init
      [.load 0 'a', .count 0, .advance 1, .clear 1, .push 0, .advance 1, .clear 1, .advance 1, .clear 1,
        .pop 2] = some s ∧
    s.iters.map (fun it => (it.iter.len, it.items)) = [(1, []), (0, []), (0, ['a'])] ∧
    s.ring.lLen 0 + s.announced 0 = s.yieldedFrom 0 + (s.ring.items 0).length := by
  obtain ⟨s, hs, hiters, h0, hfew⟩ : ∃ s, (machine Char).run State.init
      [.load 0 'a', .count 0, .advance 1, .clear 1, .push 0, .advance 1, .clear 1, .advance 1, .clear 1,
        .pop 2] = some s ∧
      s.iters.map (fun it => (it.iter.len, it.items)) = [(1, []), (0, []), (0, ['a'])] ∧
      (∀ t value, s.threads t ≠ .counted 0 value) ∧
      s.yieldedFrom 0 + (s.ring.items 0).length < 2 ^ 64 := by
    refine ⟨_, rfl, rfl, ?_, by decide⟩
    rintro (_ | _ | t) value h <;> cases h
  obtain ⟨S, hS, hlen⟩ := lengths_accounted (reachable_of_run hs) 0
  obtain rfl : S = ∅ := Finset.eq_empty_of_forall_notMem fun t ht => by
    obtain ⟨value, hv⟩ := (hS t).mp ht
    exact h0 t value hv
  exact ⟨s, hs, hiters, hlen hfew⟩

end Interleaved
end Queue
end Zerohop
