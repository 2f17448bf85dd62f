/-
# Machines and their runs

A machine is a start state and a partial step: `step s a = none` where the
action `a` cannot be taken in `s` (a lock is held, a channel is full). A
schedule is a list of actions; what holds of every reachable state holds
whatever the schedule.

`ReachableBy ok` are the states of the runs each of whose steps meets `ok`, a
condition on the state before the step and the action taken; `Reachable` asks
nothing of the steps.

An object is used by calls that each return a result; `calls` runs a list of
them. One object simulates another when a relation between their states is
kept by every call of the other and their results agree (`calls_simulation`);
the relation may speak of the calls still to come. An iterator is an object
with one call, `next`; `drain` calls it until it ends.

A record beside a machine (`observed`) notes what its steps do and changes
none of them; `guarded` is the machine whose steps all meet a condition.

Key theorems: `ReachableBy.invariant` (the induction over a run),
`reachable_of_run` (a schedule that executes gives a reachable state),
`run_invariant`, `run_amortized`, `run_length_le` and `exists_stuck` (runs end),
`exists_released`, `reachable_of_observed`, `exists_observed`, `calls_simulation`.
-/
import Mathlib.Algebra.Ring.Nat
import Mathlib.Data.List.Basic
import Mathlib.Tactic.Common

namespace Zerohop

/-- A start state and the step of each action, where it can be taken. -/
structure Machine (σ α : Type*) where
  init : σ
  step : σ → α → Option σ

namespace Machine

variable {σ α : Type*} (M : Machine σ α)

/-- The states of the runs whose steps all meet `ok`. -/
inductive ReachableBy (ok : σ → α → Prop) : σ → Prop
  | init : ReachableBy ok M.init
  | step {s t : σ} (a : α) : ReachableBy ok s → ok s a → M.step s a = some t → ReachableBy ok t

/-- The states of all runs. -/
def Reachable (s : σ) : Prop := M.ReachableBy (fun _ _ => True) s

/-- The state after the actions of a schedule, if each can be taken. -/
def run : σ → List α → Option σ
  | s, [] => some s
  | s, a :: as => (M.step s a).bind fun t => run t as

variable {M}

theorem Reachable.init : M.Reachable M.init := ReachableBy.init

theorem Reachable.step {s t : σ} (a : α) (h : M.Reachable s) (hs : M.step s a = some t) :
    M.Reachable t := ReachableBy.step a h trivial hs

/-- **The induction over a run.** What holds at the start and is kept by every
step that meets `ok` holds in every state the runs reach. -/
theorem ReachableBy.invariant {ok : σ → α → Prop} {I : σ → Prop} (h0 : I M.init)
    (hstep : ∀ s a t, I s → ok s a → M.step s a = some t → I t) {s : σ}
    (h : M.ReachableBy ok s) : I s := by
  induction h with
  | init => exact h0
  | step a _ hok hs ih => exact hstep _ a _ ih hok hs

theorem Reachable.invariant {I : σ → Prop} (h0 : I M.init)
    (hstep : ∀ s a t, I s → M.step s a = some t → I t) {s : σ} (h : M.Reachable s) : I s :=
  ReachableBy.invariant h0 (fun s a t hI _ hs => hstep s a t hI hs) h

/-- A run that meets a condition is a run. -/
theorem ReachableBy.reachable {ok : σ → α → Prop} {s : σ} (h : M.ReachableBy ok s) :
    M.Reachable s := by
  induction h with
  | init => exact Reachable.init
  | step a _ _ hs ih => exact ih.step a hs

theorem run_cons {s t : σ} {a : α} (as : List α) (h : M.step s a = some t) :
    M.run s (a :: as) = M.run t as := by
  simp [run, h]

theorem run_append : ∀ (as bs : List α) (s : σ),
    M.run s (as ++ bs) = (M.run s as).bind fun t => M.run t bs
  | [], _, _ => rfl
  | a :: as, bs, s => by
    rw [List.cons_append, run, run, Option.bind_assoc]
    congr 1
    funext t
    exact run_append as bs t

theorem run_concat {as : List α} {a : α} {s u : σ} :
    M.run s (as ++ [a]) = some u ↔ ∃ t, M.run s as = some t ∧ M.step t a = some u := by
  simp [run_append, run, Option.bind_eq_some_iff]

theorem reachable_of_run_from : ∀ (as : List α) {s t : σ}, M.Reachable s → M.run s as = some t →
    M.Reachable t
  | [], s, t, h, hr => by
    obtain rfl : s = t := by simpa [run] using hr
    exact h
  | a :: as, s, t, h, hr => by
    simp only [run, Option.bind_eq_some_iff] at hr
    obtain ⟨u, hu, hr⟩ := hr
    exact reachable_of_run_from as (h.step a hu) hr

/-- What every step of the kind that a run takes preserves, the run does. -/
theorem run_invariant {I : σ → Prop} (ok : α → Prop)
    (hstep : ∀ s a t, I s → ok a → M.step s a = some t → I t) : ∀ (as : List α) {s t : σ}, I s →
    (∀ a ∈ as, ok a) → M.run s as = some t → I t
  | [], s, t, hI, _, hr => by
    obtain rfl : s = t := Option.some.inj hr
    exact hI
  | a :: as, s, t, hI, hok, hr => by
    simp only [run, Option.bind_eq_some_iff] at hr
    obtain ⟨u, hu, hr⟩ := hr
    have hIu := hstep s a u hI (hok a (List.mem_cons_self ..)) hu
    exact run_invariant ok hstep as hIu (fun b hb => hok b (List.mem_cons_of_mem a hb)) hr

/-- A schedule that can be executed from the start reaches its last state. -/
theorem reachable_of_run {as : List α} {s : σ} (h : M.run M.init as = some s) : M.Reachable s :=
  reachable_of_run_from as Reachable.init h

/-- **Amortised cost.** What the steps of a run cost is paid for by the credit
`μ` it starts with, by what is gained on the way and by the steps that pay. -/
theorem run_amortized {I : σ → Prop} (ok : α → Prop) (cost pay : α → ℕ) (μ gain : σ → ℕ)
    (hstep : ∀ s a t, I s → ok a → M.step s a = some t →
      I t ∧ cost a + μ t + gain s ≤ μ s + pay a + gain t) : ∀ (as : List α) {s t : σ},
    I s → (∀ a ∈ as, ok a) → M.run s as = some t →
    I t ∧ (as.map cost).sum + μ t + gain s ≤ μ s + (as.map pay).sum + gain t
  | [], s, t, hI, _, hr => by
    obtain rfl : s = t := Option.some.inj hr
    exact ⟨hI, by simp⟩
  | a :: as, s, t, hI, hok, hr => by
    simp only [run, Option.bind_eq_some_iff] at hr
    obtain ⟨u, hu, hr⟩ := hr
    obtain ⟨hIu, hle⟩ := hstep s a u hI (hok a (List.mem_cons_self ..)) hu
    obtain ⟨hIt, hrest⟩ := run_amortized ok cost pay μ gain hstep as hIu
      (fun b hb => hok b (List.mem_cons_of_mem a hb)) hr
    refine ⟨hIt, ?_⟩
    rw [List.map_cons, List.map_cons, List.sum_cons, List.sum_cons]
    omega

theorem sum_map_ite (p : α → Bool) (k : ℕ) : ∀ as : List α,
    (as.map fun a => if p a then k else 0).sum = k * as.countP p
  | [] => rfl
  | a :: as => by
    rw [List.map_cons, List.sum_cons, sum_map_ite p k as, List.countP_cons]
    split_ifs
    · rw [Nat.mul_succ, Nat.add_comm]
    · rw [Nat.zero_add, Nat.add_zero]

/-- **Runs are finite.** A measure that every step takes down, as long as an
invariant holds, bounds the length of every run. -/
theorem run_length_le {I : σ → Prop} {μ : σ → ℕ}
    (hstep : ∀ s a t, I s → M.step s a = some t → I t ∧ μ t < μ s) (as : List α) {s t : σ} (hI : I s)
    (hr : M.run s as = some t) : as.length + μ t ≤ μ s := by
  have hcost : ∀ u a v, I u → True → M.step u a = some v → I v ∧ 1 + μ v + 0 ≤ μ u + 0 + 0 := by
    intro u a v hu _ huv
    obtain ⟨hv, hlt⟩ := hstep u a v hu huv
    exact ⟨hv, by omega⟩
  have h := (run_amortized (fun _ => True) (fun _ => 1) (fun _ => 0) μ (fun _ => 0) hcost as hI
    (fun _ _ => trivial) hr).2
  simpa using h

/-- **Bounded waiting.** While something is held a step of the kind `p` takes the
measure down, no other step takes it up, and it is never zero: so in a run with
that many steps of the kind it is given up. -/
theorem exists_released {I held : σ → Prop} (p : α → Bool) {μ : σ → ℕ}
    (hpos : ∀ s, I s → held s → 0 < μ s)
    (hstep : ∀ s a t, I s → M.step s a = some t →
      I t ∧ (held s → held t → (if p a then 1 else 0) + μ t ≤ μ s)) : ∀ (as : List α) {s t : σ},
    I s → held s → M.run s as = some t → μ s ≤ as.countP p →
    ∃ before u, before <+: as ∧ M.run s before = some u ∧ ¬ held u
  | [], s, t, hI, hh, _, hle => by
    have h0 := hpos s hI hh
    rw [List.countP_nil] at hle
    omega
  | a :: as, s, t, hI, hh, hr, hle => by
    simp only [run, Option.bind_eq_some_iff] at hr
    obtain ⟨u, hu, hr⟩ := hr
    obtain ⟨hIu, hdown⟩ := hstep s a u hI hu
    by_cases hhu : held u
    · have hle' : μ u ≤ as.countP p := by
        have hd := hdown hh hhu
        rw [List.countP_cons] at hle
        omega
      obtain ⟨before, v, hb, hv, hfree⟩ := exists_released p hpos hstep as hIu hhu hr hle'
      exact ⟨a :: before, v, List.cons_prefix_cons.mpr ⟨rfl, hb⟩, (run_cons before hu).trans hv, hfree⟩
    · exact ⟨[a], u, List.cons_prefix_cons.mpr ⟨rfl, List.nil_prefix⟩, run_cons [] hu, hhu⟩

/-- **Every run can be driven to its end**: a state that no step leaves is reached. -/
theorem exists_stuck {I : σ → Prop} {μ : σ → ℕ}
    (hstep : ∀ s a t, I s → M.step s a = some t → I t ∧ μ t < μ s) : ∀ (n : ℕ) {s : σ}, I s → μ s ≤ n →
    ∃ as t, M.run s as = some t ∧ I t ∧ ∀ a, M.step t a = none
  | n, s, hI, hn => by
    by_cases hstuck : ∀ a, M.step s a = none
    · exact ⟨[], s, rfl, hI, hstuck⟩
    · obtain ⟨a, ha⟩ := not_forall.mp hstuck
      obtain ⟨u, hu⟩ := Option.ne_none_iff_exists'.mp ha
      obtain ⟨hIu, hlt⟩ := hstep s a u hI hu
      match n with
      | 0 => omega
      | n + 1 =>
        obtain ⟨as, t, hrun, ht⟩ := exists_stuck hstep n hIu (by omega)
        exact ⟨a :: as, t, (run_cons as hu).trans hrun, ht⟩

theorem reachableBy_of_forall {ok : σ → α → Prop} {as : List α} {s : σ} (hok : ∀ a ∈ as, ∀ u, ok u a)
    (h : M.run M.init as = some s) : M.ReachableBy ok s :=
  run_invariant (fun a => ∀ u, ok u a) (fun u a _ hu ha hs => hu.step a (ha u) hs) as ReachableBy.init hok h

section Records

variable {τ : Type*}

/-- The machine with a record beside it; `note` says how a step changes it. -/
def observed (M : Machine σ α) (record : τ) (note : σ → α → τ → τ) : Machine (σ × τ) α where
  init := (M.init, record)
  step p a := (M.step p.1 a).map fun t => (t, note p.1 a p.2)

theorem observed_step_eq_some {record : τ} {note : σ → α → τ → τ} {p q : σ × τ} {a : α} :
    (M.observed record note).step p a = some q ↔ M.step p.1 a = some q.1 ∧ q.2 = note p.1 a p.2 := by
  simp only [observed, Option.map_eq_some_iff]
  constructor
  · rintro ⟨t, ht, rfl⟩
    exact ⟨ht, rfl⟩
  · rintro ⟨ht, hq⟩
    exact ⟨q.1, ht, by rw [← hq]⟩

/-- A record changes no step. -/
theorem reachable_of_observed {record : τ} {note : σ → α → τ → τ} {ok : σ × τ → α → Prop} {p : σ × τ}
    (h : (M.observed record note).ReachableBy ok p) : M.Reachable p.1 := by
  induction h with
  | init => exact Reachable.init
  | step a _ _ hs ih => exact ih.step a (observed_step_eq_some.mp hs).1

/-- Every run leaves a record. -/
theorem exists_observed (record : τ) (note : σ → α → τ → τ) {s : σ} (h : M.Reachable s) :
    ∃ r, (M.observed record note).Reachable (s, r) := by
  induction h with
  | init => exact ⟨record, Reachable.init⟩
  | @step s t a _ _ hs ih =>
    obtain ⟨r, hr⟩ := ih
    exact ⟨note s a r, hr.step a (observed_step_eq_some.mpr ⟨hs, rfl⟩)⟩

end Records

/-- The machine whose steps all meet `ok`. -/
def guarded (M : Machine σ α) (ok : σ → α → Prop) [∀ s a, Decidable (ok s a)] : Machine σ α where
  init := M.init
  step s a := if ok s a then M.step s a else none

/-- A schedule whose steps all meet `ok`. -/
theorem reachableBy_of_run {ok : σ → α → Prop} [∀ s a, Decidable (ok s a)] {as : List α} {s : σ}
    (h : (M.guarded ok).run M.init as = some s) : M.ReachableBy ok s := by
  have hstep : ∀ u a t, M.ReachableBy ok u → (M.guarded ok).step u a = some t → M.ReachableBy ok t := by
    intro u a t hu hs
    simp only [guarded] at hs
    split_ifs at hs with hok
    exact hu.step a hok hs
  have hinit : M.ReachableBy ok (M.guarded ok).init := ReachableBy.init
  exact (reachable_of_run h).invariant hinit hstep

end Machine

section Calls

variable {σ τ ι ρ ρ' : Type*}

/-- The calls of a list, one after the other, and what each returned. -/
def calls (exec : σ → ι → Option (σ × ρ)) : σ → List ι → Option (σ × List ρ)
  | s, [] => some (s, [])
  | s, i :: is => (exec s i).bind fun p => (calls exec p.1 is).map fun q => (q.1, p.2 :: q.2)

theorem calls_cons_eq_some {exec : σ → ι → Option (σ × ρ)} {s u : σ} {i : ι} {is : List ι}
    {os : List ρ} : calls exec s (i :: is) = some (u, os) ↔
      ∃ t o os', exec s i = some (t, o) ∧ calls exec t is = some (u, os') ∧ os = o :: os' := by
  simp only [calls, Option.bind_eq_some_iff, Option.map_eq_some_iff, Prod.mk.injEq, Prod.exists]
  constructor
  · rintro ⟨t, o, ht, v, os', hv, rfl, rfl⟩
    exact ⟨t, o, os', ht, hv, rfl⟩
  · rintro ⟨t, o, os', ht, hv, rfl⟩
    exact ⟨t, o, ht, u, os', hv, rfl, rfl⟩

/-- **Simulation.** Whatever the second object does, the first does with the
same results, read through `f`. -/
theorem calls_simulation (exec : σ → ι → Option (σ × ρ)) (exec' : τ → ι → Option (τ × ρ'))
    (R : List ι → σ → τ → Prop) (f : ρ' → ρ)
    (hstep : ∀ {i is s t t' o}, R (i :: is) s t → exec' t i = some (t', o) →
      ∃ s', exec s i = some (s', f o) ∧ R is s' t') :
    ∀ (is : List ι) {s : σ} {t t' : τ} {os : List ρ'}, R is s t → calls exec' t is = some (t', os) →
      ∃ s', calls exec s is = some (s', os.map f) ∧ R [] s' t'
  | [], s, t, t', os, hR, h => by
    simp only [calls, Option.some.injEq, Prod.mk.injEq] at h
    obtain ⟨rfl, rfl⟩ := h
    exact ⟨s, rfl, hR⟩
  | i :: is, s, t, t', os, hR, h => by
    obtain ⟨u, o, os', hu, hv, rfl⟩ := calls_cons_eq_some.mp h
    obtain ⟨s1, hs1, hR1⟩ := hstep hR hu
    obtain ⟨s2, hs2, hR2⟩ := calls_simulation exec exec' R f hstep is hR1 hv
    exact ⟨s2, calls_cons_eq_some.mpr ⟨s1, f o, _, hs1, hs2, rfl⟩, hR2⟩

/-- **Where a property holds throughout.** While the calls so far meet `ok` an
invariant `I` holds, which gives the property `P`; a call that does not meet
`ok` breaks `P` at once. So `P` holds after every prefix of a list of calls
exactly if each call meets `ok`. -/
theorem forall_prefix_iff {f : σ → ι → σ} {I P : σ → Prop} {ok : σ → ι → Prop}
    (hP : ∀ s, I s → P s) (hI : ∀ s i, I s → ok s i → I (f s i))
    (hok : ∀ s i, I s → P (f s i) → ok s i) : ∀ (is : List ι) {s : σ}, I s →
    ((∀ before, before <+: is → P (before.foldl f s)) ↔
      ∀ before i, before ++ [i] <+: is → ok (before.foldl f s) i)
  | [], s, hs => by
    refine iff_of_true ?_ ?_
    · intro before hb
      rw [List.prefix_nil.mp hb]
      exact hP s hs
    · intro before i hb
      exact absurd (List.prefix_nil.mp hb) (by simp)
  | i :: is, s, hs => by
    have ih : ok s i → ((∀ before, before <+: is → P (before.foldl f (f s i))) ↔
        ∀ before j, before ++ [j] <+: is → ok (before.foldl f (f s i)) j) :=
      fun h => forall_prefix_iff hP hI hok is (hI s i hs h)
    constructor
    · intro hall
      have h0 : ok s i := hok s i hs (hall [i] (List.prefix_cons_inj i |>.mpr (List.nil_prefix)))
      have hrest := (ih h0).mp fun before hb => hall (i :: before) ((List.prefix_cons_inj i).mpr hb)
      intro before j hb
      cases before with
      | nil =>
        obtain rfl : j = i := (List.cons_prefix_cons.mp hb).1
        exact h0
      | cons k before =>
        obtain ⟨rfl, hb'⟩ := List.cons_prefix_cons.mp hb
        exact hrest before j hb'
    · intro hall
      have h0 : ok s i := hall [] i ((List.prefix_cons_inj i).mpr List.nil_prefix)
      have hrest := (ih h0).mpr fun before j hb =>
        hall (i :: before) j ((List.prefix_cons_inj i).mpr hb)
      intro before hb
      cases before with
      | nil => exact hP s hs
      | cons k before =>
        obtain ⟨rfl, hb'⟩ := List.cons_prefix_cons.mp hb
        exact hrest before hb'

end Calls

section Iterators

variable {σ α : Type*}

/-- The items of an iterator up to its end; `none` if `fuel` calls of `next`
do not reach it. -/
def drain (next : σ → Option (α × σ)) : ℕ → σ → Option (List α)
  | 0, _ => none
  | fuel + 1, s =>
    match next s with
    | none => some []
    | some (x, t) => (drain next fuel t).map fun xs => x :: xs

end Iterators

end Zerohop
