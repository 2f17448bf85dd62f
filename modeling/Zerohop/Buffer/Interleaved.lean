/-
# The ring under contention

Any number of producers and consumers, each taking one atomic step at a time
in any order (sequentially consistent). A push is a call, a load of the
cursor, an exchange that may fail, and after a successful exchange, at a later
step, the write of the slot; `push` goes back to the load when its weak
exchange fails, spuriously or not, `try_push` gives up. A pop is one step.

`claims` records each successful exchange, `pops` what each pop returned. The
claims are numbered by the cursor as long as it does not wrap (`Numbered`).
The slots lag behind the claims: a pop gets the transaction of the number it
consumed in the runs whose steps are `Ordered` (`pops_right_of_ordered`), and
the safety comment of `try_pop` fails without it
(`pop_before_write`).
-/
import Zerohop.Lib.Machine
import Zerohop.Buffer.Ring

namespace Zerohop
namespace Buffer
namespace Interleaved

open Window Machine

/-- Where a producer is. `weak` tells `push`, with its weak exchange in a loop,
from `try_push`. -/
inductive Producer (α : Type*)
  | idle
  | loading (weak : Bool) (tx : α)
  | loaded (weak : Bool) (tx : α) (current : ℕ)
  | claimed (tx : α) (seq : ℕ)

/-- A successful exchange. -/
structure Claim (α : Type*) where
  producer : ℕ
  seq : ℕ
  tx : α

/-- A pop that returned a slot, and the sequence number it consumed. -/
structure Pop (α : Type*) where
  consumer : ℕ
  seq : ℕ
  slot : Option α

structure State (α : Type*) where
  ring : RingBufferInner α
  producers : ℕ → Producer α
  consumers : ℕ → Option Consumer
  claims : List (Claim α)
  pops : List (Pop α)

/-- A step of producer `p` or of consumer `c`. -/
inductive Action (α : Type*)
  | call (p : ℕ) (weak : Bool) (tx : α)
  | load (p : ℕ)
  | exchange (p : ℕ) (spurious : Bool)
  | write (p : ℕ)
  | consumer (c : ℕ)
  | tryPop (c : ℕ)

variable {α : Type*}

namespace State

def init : State α := ⟨RingBufferInner.new, fun _ => .idle, fun _ => none, [], []⟩

/-- Producer `p` is at `x`. -/
def setProducer (s : State α) (p : ℕ) (x : Producer α) : State α :=
  { s with producers := Function.update s.producers p x }

/-- The exchange of a producer that loaded `current`; only a weak one fails
spuriously. -/
def exchange (s : State α) (p : ℕ) (weak : Bool) (tx : α) (current : ℕ) (spurious : Bool) : State α :=
  match if weak && spurious then none
      else s.ring.compareExchange current (wrappingSucc current) with
  | some r => { s.setProducer p (.claimed tx current) with
      ring := r, claims := s.claims ++ [⟨p, current, tx⟩] }
  | none => s.setProducer p (if weak then .loading weak tx else .idle)

/-- A pop by consumer `c`. -/
def pop (s : State α) (c : ℕ) (cons : Consumer) : State α :=
  match cons.tryPop s.ring with
  | (none, cons') => { s with consumers := Function.update s.consumers c (some cons') }
  | (some slot, cons') => { s with
      consumers := Function.update s.consumers c (some cons')
      pops := s.pops ++ [⟨c, cons'.position - 1, slot⟩] }

/-- An atomic step. -/
def step (s : State α) : Action α → Option (State α)
  | .call p weak tx =>
    match s.producers p with
    | .idle => some (s.setProducer p (.loading weak tx))
    | _ => none
  | .load p =>
    match s.producers p with
    | .loading weak tx => some (s.setProducer p (.loaded weak tx s.ring.load))
    | _ => none
  | .exchange p spurious =>
    match s.producers p with
    | .loaded weak tx current => some (s.exchange p weak tx current spurious)
    | _ => none
  | .write p =>
    match s.producers p with
    | .claimed tx seq => some { s.setProducer p .idle with ring := s.ring.write seq tx }
    | _ => none
  | .consumer c =>
    match s.consumers c with
    | none => some { s with consumers := Function.update s.consumers c (some s.ring.consumer) }
    | some _ => none
  | .tryPop c => (s.consumers c).map fun cons => s.pop c cons

end State

/-- The ring shared by any number of producers and consumers. -/
def machine (α : Type*) : Machine (State α) (Action α) := ⟨State.init, State.step⟩

/-- Some producer claimed `seq` and has not written its slot. -/
def Pending (s : State α) (seq : ℕ) : Prop := ∃ p tx, s.producers p = .claimed tx seq

/-- Every pop that returned a slot found it initialised, with the transaction
of the one claim of the number it consumed. -/
def PopsRight (s : State α) : Prop :=
  ∀ pop ∈ s.pops, ∃ cl ∈ s.claims, cl.seq = pop.seq ∧ pop.slot = some cl.tx ∧
    ∀ cl' ∈ s.claims, cl'.seq = pop.seq → cl' = cl

/-- The cursor has room for one more claim. -/
def Room (s : State α) : Action α → Prop
  | .exchange _ _ => s.ring.writeCursor + 1 < 2 ^ 64
  | _ => True

/-- The cursor does not wrap; a slot is written only while the newest claim of
that slot, if it is a later one, is itself unwritten; and a pop that finds
something runs only when the push whose number it takes has written. -/
def Ordered (s : State α) : Action α → Prop
  | .exchange _ _ => s.ring.writeCursor + 1 < 2 ^ 64
  | .write p => ∀ tx seq, s.producers p = .claimed tx seq → ∀ later, seq < later →
      later < s.ring.writeCursor → s.ring.writeCursor ≤ later + ringSize →
      slotIdx later = slotIdx seq → Pending s later
  | .tryPop c => ∀ cons, s.consumers c = some cons → cons.readCursor < s.ring.writeCursor →
      ¬ Pending s (max cons.readCursor (s.ring.writeCursor - ringSize))
  | _ => True

theorem Ordered.room {s : State α} {a : Action α} (h : Ordered s a) : Room s a := by
  cases a <;> first | exact h | trivial

/-! ### One step -/

theorem step_call {s t : State α} {p : ℕ} {weak : Bool} {tx : α} (h : s.step (.call p weak tx) = some t) :
    s.producers p = .idle ∧ t = s.setProducer p (.loading weak tx) := by
  simp only [State.step] at h
  split at h
  · rename_i hp
    exact ⟨hp, (Option.some.inj h).symm⟩
  · cases h

theorem step_load {s t : State α} {p : ℕ} (h : s.step (.load p) = some t) :
    ∃ weak tx, s.producers p = .loading weak tx ∧
      t = s.setProducer p (.loaded weak tx s.ring.writeCursor) := by
  simp only [State.step] at h
  split at h
  · rename_i weak tx hp
    exact ⟨weak, tx, hp, (Option.some.inj h).symm⟩
  · cases h

/-- An exchange claims the number it found, which is the cursor, or changes
nothing but the producer. -/
theorem step_exchange {s t : State α} {p : ℕ} {spurious : Bool}
    (h : s.step (.exchange p spurious) = some t) :
    ∃ weak tx current, s.producers p = .loaded weak tx current ∧
      ((s.ring.writeCursor = current ∧ t = { s.setProducer p (.claimed tx current) with
          ring := { s.ring with writeCursor := wrappingSucc current }
          claims := s.claims ++ [⟨p, current, tx⟩] }) ∨
        ((weak = true ∨ s.ring.writeCursor ≠ current) ∧
          t = s.setProducer p (if weak then .loading weak tx else .idle))) := by
  simp only [State.step] at h
  split at h
  · rename_i weak tx current hp
    refine ⟨weak, tx, current, hp, ?_⟩
    obtain rfl := Option.some.inj h
    unfold State.exchange
    split
    · rename_i r hr
      split_ifs at hr with hw
      obtain ⟨hc, rfl⟩ := RingBufferInner.compareExchange_eq_some.mp hr
      exact Or.inl ⟨hc, rfl⟩
    · rename_i hr
      refine Or.inr ⟨?_, rfl⟩
      split_ifs at hr with hw
      · simp only [Bool.and_eq_true] at hw
        exact Or.inl hw.1
      · apply Or.inr
        intro hc
        simp [RingBufferInner.compareExchange, hc] at hr
  · cases h

theorem step_write {s t : State α} {p : ℕ} (h : s.step (.write p) = some t) :
    ∃ tx seq, s.producers p = .claimed tx seq ∧
      t = { s.setProducer p .idle with ring := s.ring.write seq tx } := by
  simp only [State.step] at h
  split at h
  · rename_i tx seq hp
    exact ⟨tx, seq, hp, (Option.some.inj h).symm⟩
  · cases h

theorem step_consumer {s t : State α} {c : ℕ} (h : s.step (.consumer c) = some t) :
    t = { s with consumers := Function.update s.consumers c (some s.ring.consumer) } := by
  simp only [State.step] at h
  split at h
  · exact (Option.some.inj h).symm
  · cases h

theorem step_tryPop {s t : State α} {c : ℕ} (h : s.step (.tryPop c) = some t) :
    ∃ cons, s.consumers c = some cons ∧
      (t = { s with consumers := Function.update s.consumers c (some cons) } ∨
        (cons.readCursor < s.ring.writeCursor ∧
          t = { s with
            consumers := Function.update s.consumers c
              (some ⟨wrappingSucc (next ringSize s.ring.writeCursor cons.readCursor)⟩)
            pops := s.pops ++ [⟨c,
              wrappingSucc (next ringSize s.ring.writeCursor cons.readCursor) - 1,
              s.ring.slots (slotOf ringSize (next ringSize s.ring.writeCursor cons.readCursor))⟩] })) := by
  simp only [State.step, Option.map_eq_some_iff] at h
  obtain ⟨cons, hc, rfl⟩ := h
  refine ⟨cons, hc, ?_⟩
  unfold State.pop
  by_cases hlt : cons.readCursor < s.ring.writeCursor
  · rw [Consumer.tryPop_of_lt hlt]
    exact Or.inr ⟨hlt, rfl⟩
  · have hge : s.ring.writeCursor ≤ cons.readCursor := Nat.not_lt.mp hlt
    rw [Consumer.tryPop_of_le hge]
    exact Or.inl rfl

/-! ### An uninterrupted call -/

theorem step_load_loading {s : State α} {p : ℕ} {tx : α} (h : s.producers p = .loading true tx) :
    (machine α).step s (.load p) = some (s.setProducer p (.loaded true tx s.ring.writeCursor)) := by
  simp only [machine, State.step, h, RingBufferInner.load]

/-- The loop of `push` from its load on, alone: `fails` spurious failures, the
claim and the write. -/
theorem run_loop (p : ℕ) (tx : α) : ∀ (fails : ℕ) {s : State α}, s.producers p = .loading true tx →
    ∃ t, (machine α).run s (.load p :: ((List.replicate fails [.exchange p true, .load p]).flatten ++
        [.exchange p false, .write p])) = some t ∧
      t.ring = s.ring.pushed tx ∧ t.claims = s.claims ++ [⟨p, s.ring.writeCursor, tx⟩]
  | 0, s, h => by
    have h1 : (machine α).step (s.setProducer p (.loaded true tx s.ring.writeCursor)) (.exchange p false) =
        some { (s.setProducer p (.loaded true tx s.ring.writeCursor)).setProducer p
            (.claimed tx s.ring.writeCursor) with
          ring := { s.ring with writeCursor := wrappingSucc s.ring.writeCursor }
          claims := s.claims ++ [⟨p, s.ring.writeCursor, tx⟩] } := by
      simp [machine, State.step, State.exchange, RingBufferInner.compareExchange, State.setProducer]
    rw [List.replicate_zero, List.flatten_nil, List.nil_append, run_cons _ (step_load_loading h),
      run_cons _ h1]
    simp only [run, machine, State.step, State.setProducer, Function.update_self, Option.bind_some,
      Option.some.injEq, exists_eq_left', RingBufferInner.write, RingBufferInner.pushed, slotIdx_eq,
      and_self]
  | fails + 1, s, h => by
    have hloaded : (s.setProducer p (.loaded true tx s.ring.writeCursor)).producers p =
        .loaded true tx s.ring.writeCursor := Function.update_self ..
    have h1 : (machine α).step (s.setProducer p (.loaded true tx s.ring.writeCursor)) (.exchange p true) =
        some ((s.setProducer p (.loaded true tx s.ring.writeCursor)).setProducer p
          (.loading true tx)) := by
      simp only [machine, State.step, hloaded, State.exchange, Bool.and_self, if_true]
    have hloading : ((s.setProducer p (.loaded true tx s.ring.writeCursor)).setProducer p
        (.loading true tx)).producers p = .loading true tx := Function.update_self ..
    obtain ⟨t, ht, hring, hclaims⟩ := run_loop p tx fails hloading
    refine ⟨t, ?_, hring, hclaims⟩
    rw [run_cons _ (step_load_loading h), List.replicate_succ, List.flatten_cons, List.append_assoc,
      List.cons_append, run_cons _ h1, List.singleton_append]
    exact ht

/-- A `push` that nothing interrupts is the call `RingBufferInner.push`. -/
theorem run_push {s : State α} {p : ℕ} (hp : s.producers p = .idle) (fails : ℕ) (tx : α) :
    ∃ t, (machine α).run s (.call p true tx :: .load p ::
        ((List.replicate fails [.exchange p true, .load p]).flatten ++ [.exchange p false, .write p])) =
          some t ∧
      s.ring.push fails tx = some (s.ring.writeCursor, t.ring) ∧
      t.claims = s.claims ++ [⟨p, s.ring.writeCursor, tx⟩] := by
  have h1 : (machine α).step s (.call p true tx) = some (s.setProducer p (.loading true tx)) := by
    simp only [machine, State.step, hp]
  have hloading : (s.setProducer p (.loading true tx)).producers p = .loading true tx :=
    Function.update_self ..
  obtain ⟨t, ht, hring, hclaims⟩ := run_loop p tx fails hloading
  refine ⟨t, (run_cons _ h1).trans ht, ?_, hclaims⟩
  rw [RingBufferInner.push_eq, hring]
  rfl

/-! ### Claims are numbered by the cursor -/

/-- The claims made so far are numbered 0, 1, …, the cursor is their count,
and each claimed producer's claim is its own. -/
structure Numbered (s : State α) : Prop where
  cursor : s.ring.writeCursor = s.claims.length
  bound : s.claims.length < 2 ^ 64
  seq : ∀ i (cl : Claim α), s.claims[i]? = some cl → cl.seq = i
  loaded : ∀ p weak tx current, s.producers p = .loaded weak tx current → current ≤ s.claims.length
  claimed : ∀ p tx q, s.producers p = .claimed tx q → s.claims[q]? = some ⟨p, q, tx⟩

theorem Numbered.init : Numbered (State.init : State α) where
  cursor := rfl
  bound := by simp [State.init]
  seq := by simp [State.init]
  loaded := by simp [State.init]
  claimed := by simp [State.init]

theorem Numbered.setProducer {s : State α} (h : Numbered s) (p : ℕ) (x : Producer α)
    (hl : ∀ weak tx current, x = .loaded weak tx current → current ≤ s.claims.length)
    (hc : ∀ tx q, x ≠ .claimed tx q) : Numbered (s.setProducer p x) where
  cursor := h.cursor
  bound := h.bound
  seq := h.seq
  loaded := fun p' weak tx current hp => by
    by_cases hne : p' = p
    · subst hne
      exact hl weak tx current (by simpa [State.setProducer] using hp)
    · exact h.loaded p' weak tx current (by simpa [State.setProducer, hne] using hp)
  claimed := fun p' tx q hp => by
    by_cases hne : p' = p
    · subst hne
      exact absurd (by simpa [State.setProducer] using hp) (hc tx q)
    · exact h.claimed p' tx q (by simpa [State.setProducer, hne] using hp)

theorem Numbered.claim {s : State α} (h : Numbered s) (p : ℕ) (tx : α)
    (hroom : s.ring.writeCursor + 1 < 2 ^ 64) :
    Numbered { s.setProducer p (.claimed tx s.ring.writeCursor) with
      ring := { s.ring with writeCursor := wrappingSucc s.ring.writeCursor }
      claims := s.claims ++ [⟨p, s.ring.writeCursor, tx⟩] } where
  cursor := by
    simp only [List.length_append, List.length_singleton, ← h.cursor]
    exact wrappingSucc_of_lt hroom
  bound := by
    rw [List.length_append, List.length_singleton, ← h.cursor]
    exact hroom
  seq := fun i cl hi => by
    simp only [List.getElem?_append] at hi
    split_ifs at hi with hlt
    · exact h.seq i cl hi
    · obtain ⟨h0, rfl⟩ := List.getElem?_eq_some_iff.mp hi
      rw [List.length_singleton] at h0
      rw [List.getElem_singleton]
      have := h.cursor
      simp only
      omega
  loaded := fun p' weak tx' current hp => by
    by_cases hne : p' = p
    · subst hne
      simp [State.setProducer] at hp
    · have := h.loaded p' weak tx' current (by simpa [State.setProducer, hne] using hp)
      simp only [List.length_append, List.length_singleton]
      omega
  claimed := fun p' tx' q hp => by
    by_cases hne : p' = p
    · subst hne
      simp only [State.setProducer, Function.update_self, Producer.claimed.injEq] at hp
      obtain ⟨rfl, rfl⟩ := hp
      simp [h.cursor]
    · have hq := h.claimed p' tx' q (by simpa [State.setProducer, hne] using hp)
      simp only
      rw [List.getElem?_append_left (List.getElem?_eq_some_iff.mp hq).1, hq]

/-- **Every step that has room keeps the numbering.** -/
theorem Numbered.step {s t : State α} {a : Action α} (h : Numbered s) (hroom : Room s a)
    (hs : s.step a = some t) : Numbered t := by
  cases a with
  | call p weak tx =>
    obtain ⟨-, rfl⟩ := step_call hs
    exact h.setProducer p _ (by simp) (by simp)
  | load p =>
    obtain ⟨weak, tx, -, rfl⟩ := step_load hs
    exact h.setProducer p _ (by simp [h.cursor]) (by simp)
  | exchange p spurious =>
    obtain ⟨weak, tx, current, -, ⟨rfl, rfl⟩ | ⟨-, rfl⟩⟩ := step_exchange hs
    · exact h.claim p tx hroom
    · exact h.setProducer p _ (by split <;> simp) (by split <;> simp)
  | write p =>
    obtain ⟨tx, seq, -, rfl⟩ := step_write hs
    have h' := h.setProducer p .idle (by simp) (by simp)
    exact ⟨h'.cursor, h'.bound, h'.seq, h'.loaded, h'.claimed⟩
  | consumer c =>
    obtain rfl := step_consumer hs
    exact ⟨h.cursor, h.bound, h.seq, h.loaded, h.claimed⟩
  | tryPop c =>
    obtain ⟨cons, -, rfl | ⟨-, rfl⟩⟩ := step_tryPop hs <;>
      exact ⟨h.cursor, h.bound, h.seq, h.loaded, h.claimed⟩

/-! ### Slots lag behind the claims -/

/-- The newest claim of each slot, once written, is in its slot, and the pops
so far were right. -/
structure Served (s : State α) : Prop extends Numbered s where
  window : Holds (fun q => ¬ Pending s q) (s.claims.map Claim.tx) s.ring.slots
  pops : ∀ pop ∈ s.pops, ∃ cl, s.claims[pop.seq]? = some cl ∧ pop.slot = some cl.tx

theorem Served.init : Served (State.init : State α) where
  toNumbered := Numbered.init
  window := Holds.nil _ _
  pops := by simp [State.init]

theorem Served.right {s : State α} (h : Served s) : PopsRight s := by
  intro pop hpop
  obtain ⟨cl, hcl, hslot⟩ := h.pops pop hpop
  refine ⟨cl, List.mem_of_getElem? hcl, h.seq _ _ hcl, hslot, ?_⟩
  intro cl' hcl' hseq
  obtain ⟨i, hi⟩ := List.getElem?_of_mem hcl'
  obtain rfl : pop.seq = i := by rw [← hseq, h.seq i cl' hi]
  rw [hcl] at hi
  exact (Option.some.inj hi).symm

theorem pending_of_setProducer {s : State α} {p : ℕ} {x : Producer α} {q : ℕ}
    (hold : ∀ tx, s.producers p ≠ .claimed tx q) (h : Pending s q) : Pending (s.setProducer p x) q := by
  obtain ⟨p', tx, hp'⟩ := h
  have hne : p' ≠ p := fun he => hold tx (he ▸ hp')
  exact ⟨p', tx, by simpa [State.setProducer, hne] using hp'⟩

theorem Served.setProducer {s : State α} (h : Served s) (p : ℕ) (x : Producer α)
    (hl : ∀ weak tx current, x = .loaded weak tx current → current ≤ s.claims.length)
    (hc : ∀ tx q, x ≠ .claimed tx q) (hold : ∀ tx q, s.producers p ≠ .claimed tx q) :
    Served (s.setProducer p x) where
  toNumbered := h.toNumbered.setProducer p x hl hc
  window := h.window.mono fun q hq hp => hq (pending_of_setProducer (fun tx => hold tx q) hp)
  pops := h.pops

/-- A claim makes its number pending; its entry joins the log unwritten. -/
theorem Served.claim {s : State α} (h : Served s) {p : ℕ} {weak : Bool} {tx : α}
    (hp : s.producers p = .loaded weak tx s.ring.writeCursor)
    (hroom : s.ring.writeCursor + 1 < 2 ^ 64) :
    Served { s.setProducer p (.claimed tx s.ring.writeCursor) with
      ring := { s.ring with writeCursor := wrappingSucc s.ring.writeCursor }
      claims := s.claims ++ [⟨p, s.ring.writeCursor, tx⟩] } where
  toNumbered := h.toNumbered.claim p tx hroom
  window := by
    have hlen : (s.claims.map Claim.tx).length = s.ring.writeCursor := by
      rw [List.length_map, h.cursor]
    have hw : Holds (fun q => ¬ Pending (s.setProducer p (.claimed tx s.ring.writeCursor)) q)
        (s.claims.map Claim.tx) s.ring.slots :=
      h.window.mono fun q hq hpend => hq (pending_of_setProducer (fun _ => by simp [hp]) hpend)
    rw [List.map_append]
    exact hw.grow tx fun hd => hd ⟨p, tx, by simp [State.setProducer, hlen]⟩
  pops := fun pop hpop => by
    obtain ⟨cl, hcl, hslot⟩ := h.pops pop hpop
    exact ⟨cl, by rw [List.getElem?_append_left (List.getElem?_eq_some_iff.mp hcl).1, hcl], hslot⟩

/-- A write that comes before those of later claims of its slot. -/
theorem Served.write {s : State α} (h : Served s) {p : ℕ} {tx : α} {q : ℕ}
    (hp : s.producers p = .claimed tx q) (hord : Ordered s (.write p)) :
    Served { s.setProducer p .idle with ring := s.ring.write q tx } where
  toNumbered := by
    have h' := h.toNumbered.setProducer p .idle (by simp) (by simp)
    exact ⟨h'.cursor, h'.bound, h'.seq, h'.loaded, h'.claimed⟩
  window := by
    have hlen : (s.claims.map Claim.tx).length = s.ring.writeCursor := by
      rw [List.length_map, h.cursor]
    have hq : (s.claims.map Claim.tx)[q]? = some tx := by
      rw [List.getElem?_map, h.claimed p tx q hp]
      rfl
    have hqlt : q < s.ring.writeCursor := hlen ▸ (List.getElem?_eq_some_iff.mp hq).1
    have hw := h.window.write hq fun later hdone hlt hwin hslot => by
      rw [hlen] at hlt hwin
      by_cases hql : q < later
      · -- a later claim of the slot that is in the window has not been written
        refine absurd (hord tx q hp later hql hlt hwin ?_) hdone
        rwa [slotIdx_eq, slotIdx_eq]
      · exact eq_of_slotOf_eq hslot (by have : 0 < ringSize := by decide
                                        omega) (by omega)
    simp only [RingBufferInner.write_slots]
    apply hw.mono
    intro later hnot
    by_contra hc
    simp only [not_or, not_not] at hc
    obtain ⟨⟨p', tx', hp'⟩, hne⟩ := hc
    have hpp : p' ≠ p := fun he => by
      subst he
      rw [hp] at hp'
      simp only [Producer.claimed.injEq] at hp'
      exact hne hp'.2.symm
    exact hnot ⟨p', tx', by simpa [State.setProducer, hpp] using hp'⟩
  pops := h.pops

theorem Served.pop {s : State α} (h : Served s) {c : ℕ} {cons : Consumer}
    (hc : s.consumers c = some cons) (hlt : cons.readCursor < s.ring.writeCursor)
    (hord : Ordered s (.tryPop c)) :
    ∃ cl, s.claims[wrappingSucc (next ringSize s.ring.writeCursor cons.readCursor) - 1]? = some cl ∧
      s.ring.slots (slotOf ringSize (next ringSize s.ring.writeCursor cons.readCursor)) = some cl.tx := by
  have hlen : (s.claims.map Claim.tx).length = s.ring.writeCursor := by
    rw [List.length_map, h.cursor]
  obtain ⟨tx, hdel, hslot⟩ := h.window.serves (r := cons.readCursor) (hlen ▸ hlt)
    (by rw [hlen]; exact hord cons hc hlt)
  rw [hlen] at hdel hslot
  have hget := (deliver_eq_some.mp hdel).2
  rw [List.getElem?_map, Option.map_eq_some_iff] at hget
  obtain ⟨cl, hcl, rfl⟩ := hget
  refine ⟨cl, ?_, hslot⟩
  have hb := h.bound
  have hn := (List.getElem?_eq_some_iff.mp hcl).1
  rw [wrappingSucc_of_lt (by omega), Nat.add_sub_cancel, hcl]

/-- **Every ordered step keeps the pops right.** -/
theorem Served.step {s t : State α} {a : Action α} (h : Served s) (hord : Ordered s a)
    (hs : s.step a = some t) : Served t := by
  cases a with
  | call p weak tx =>
    obtain ⟨hp, rfl⟩ := step_call hs
    exact h.setProducer p _ (by simp) (by simp) (by simp [hp])
  | load p =>
    obtain ⟨weak, tx, hp, rfl⟩ := step_load hs
    exact h.setProducer p _ (by simp [h.cursor]) (by simp) (by simp [hp])
  | exchange p spurious =>
    obtain ⟨weak, tx, current, hp, ⟨rfl, rfl⟩ | ⟨-, rfl⟩⟩ := step_exchange hs
    · exact h.claim hp hord
    · exact h.setProducer p _ (by split <;> simp) (by split <;> simp) (by simp [hp])
  | write p =>
    obtain ⟨tx, seq, hp, rfl⟩ := step_write hs
    exact h.write hp hord
  | consumer c =>
    obtain rfl := step_consumer hs
    exact ⟨h.toNumbered.step hord.room hs, h.window, h.pops⟩
  | tryPop c =>
    have hnum := h.toNumbered.step hord.room hs
    obtain ⟨cons, hc, rfl | ⟨hlt, rfl⟩⟩ := step_tryPop hs
    · exact ⟨hnum, h.window, h.pops⟩
    · refine ⟨hnum, h.window, ?_⟩
      intro pop hpop
      rcases List.mem_append.mp hpop with hpop | hpop
      · exact h.pops pop hpop
      · obtain rfl := List.mem_singleton.mp hpop
        exact h.pop hc hlt hord

/-- **In a run of ordered steps every pop is right.** -/
theorem pops_right_of_ordered {s : State α} (h : (machine α).ReachableBy Ordered s) : PopsRight s :=
  (ReachableBy.invariant Served.init (fun _ _ _ hI hord hs => Served.step hI hord hs) h).right

/-- A push that writes before the consumer pops is such a run. -/
theorem pops_right_after_write : ∃ s, (machine Char).ReachableBy Ordered s ∧
    s.pops = [⟨0, 0, some 'a'⟩] ∧ PopsRight s := by
  have hwrite : (machine Char).ReachableBy Ordered _ :=
    .step (.write 0) (.step (.exchange 0 false) (.step (.load 0) (.step (.call 0 true 'a')
      (.step (.consumer 0) .init trivial rfl) trivial rfl) trivial rfl)
      (by decide : (0 : ℕ) + 1 < 2 ^ 64) rfl)
      (fun _ _ _ later hlt hle _ _ => absurd (Nat.lt_of_lt_of_le hlt (Nat.lt_succ_iff.mp hle))
        (Nat.not_lt_zero _)) rfl
  have hpop : (machine Char).ReachableBy Ordered _ := .step (.tryPop 0) hwrite (by
    rintro cons - - ⟨p, tx, hp⟩
    rcases eq_or_ne p 0 with rfl | _
    · simp [State.setProducer] at hp
    · simp [State.setProducer, State.exchange, RingBufferInner.compareExchange, RingBufferInner.load,
        machine, State.init] at hp) rfl
  exact ⟨_, hpop, rfl, pops_right_of_ordered hpop⟩

/-- **A pop between claim and write.** The producer has advanced the cursor
and not yet written when the consumer pops: the slot is uninitialised. -/
theorem pop_before_write : ∃ s,
    (machine Char).run State.init
      [.consumer 0, .call 0 true 'a', .load 0, .exchange 0 false, .tryPop 0] = some s ∧
    (machine Char).Reachable s ∧ s.pops = [⟨0, 0, none⟩] ∧ ¬ PopsRight s := by
  have hrun : ∃ s, (machine Char).run State.init
      [.consumer 0, .call 0 true 'a', .load 0, .exchange 0 false, .tryPop 0] = some s ∧
      s.pops = [⟨0, 0, none⟩] := ⟨_, rfl, rfl⟩
  obtain ⟨s, hs, hpops⟩ := hrun
  refine ⟨s, hs, reachable_of_run hs, hpops, ?_⟩
  intro hright
  obtain ⟨cl, -, -, hslot, -⟩ := hright ⟨0, 0, none⟩ (by rw [hpops]; exact List.mem_singleton_self _)
  cases hslot

end Interleaved
end Buffer
end Zerohop
