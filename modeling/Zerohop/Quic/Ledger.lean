/-
# From a call to the leaders

What the handler and the refresher send, against what they were called with. A
record beside the machine keeps the batches cut out of the calls, the leader
list that was copied for each of them, and the first sends. In every run each
batch called is queued once, in the order of the calls; it is then tried on each
leader of its copy, once and in order, unless the count of successes overflows;
and a sweep sends only what was queued (`batches_carried`).

So what `append` makes of a bundle is what the leaders get: of clients that fill
their requests with it, empty strings only, at the first send and at every one
after it (`appended_sends_empty`).

Key definitions: `Book`, `booked`, `firstSends`.
-/
import Zerohop.Quic.Journal
import Zerohop.Quic.Refusal

namespace Zerohop
namespace Quic

variable {Leader : Type}

structure Book (Leader : Type) where
  /-- What the calls carried. -/
  cuts : List Bundle
  /-- The batches and the leader lists copied for them. -/
  copies : List (Bundle × List Leader)
  /-- The sends of the handler. -/
  attempts : List (Bundle × Leader)

def Book.note (s : State Leader) (a : Action Leader) (book : Book Leader) : Book Leader :=
  match a with
  | .call request =>
    match request.cut with
    | some txs => { book with cuts := book.cuts ++ [txs] }
    | none => book
  | .handler _ =>
    match s.handler with
    | .snapshotting txs => { book with copies := book.copies ++ [(txs, s.leaders)] }
    | .sending txs (leader :: _) _ => { book with attempts := book.attempts ++ [(txs, leader)] }
    | _ => book
  | _ => book

/-- The machine with its book. -/
def booked (debug : Bool) (leaders : List Leader) : Machine (State Leader × Book Leader) (Action Leader) :=
  (retryMachine debug leaders).observed ⟨[], [], []⟩ Book.note

/-- Each batch to each leader of its copy. -/
def firstSends (copies : List (Bundle × List Leader)) : List (Bundle × Leader) :=
  copies.flatMap fun copy => copy.2.map fun leader => (copy.1, leader)

namespace Handler

/-- Queued, with no leaders copied for it yet. -/
def uncopied : Handler Leader → List Bundle
  | pushed txs => [txs]
  | snapshotting txs => [txs]
  | _ => []

/-- What is left to send. -/
def todo : Handler Leader → List (Bundle × Leader)
  | sending txs leaders _ => leaders.map fun leader => (txs, leader)
  | _ => []

end Handler

/-- Everything accepted is somewhere on its way to the leaders. -/
structure Carried (debug : Bool) (s : State Leader) (book : Book Leader) : Prop where
  copied : s.accepted.map PendingBatch.txs = book.copies.map Prod.fst ++ s.handler.uncopied
  sends : (book.attempts ++ s.handler.todo).Sublist (firstSends book.copies)
  exact : debug = false → book.attempts ++ s.handler.todo = firstSends book.copies

section

variable {debug : Bool} {s t : State Leader} {book : Book Leader}

/-! ### One step -/

theorem Handler.nothing_of_free {handler : Handler Leader} (h : handler.free = true) :
    handler.uncopied = [] ∧ handler.todo = [] := by
  cases handler with
  | idle => exact ⟨rfl, rfl⟩
  | panicked => exact ⟨rfl, rfl⟩
  | _ => cases h

/-- A step that leaves every batch where it is. -/
theorem Carried.turn (h : Carried debug s book) (ha : t.accepted = s.accepted)
    (hc : t.handler.uncopied = s.handler.uncopied) (ht : t.handler.todo = s.handler.todo) :
    Carried debug t book where
  copied := by rw [ha, hc, h.copied]
  sends := by rw [ht]; exact h.sends
  exact := by rw [ht]; exact h.exact

theorem Carried.push (h : Carried debug s book) {txs : Bundle} {sentAt : ℕ}
    (hh : s.handler = .stamped txs sentAt) :
    Carried debug { s with
      handler := .pushed txs
      pending := s.pending ++ [⟨txs, sentAt⟩]
      accepted := s.accepted ++ [⟨txs, sentAt⟩] } book := by
  obtain ⟨hcopied, hsends, hexact⟩ := h
  rw [hh] at hcopied hsends hexact
  refine ⟨?_, hsends, hexact⟩
  rw [List.map_append, hcopied]
  exact congrArg (· ++ [txs]) (List.append_nil _)

theorem Carried.copy (h : Carried debug s book) {txs : Bundle} (hh : s.handler = .snapshotting txs) :
    Carried debug { s with handler := .sending txs s.leaders 0 }
      { book with copies := book.copies ++ [(txs, s.leaders)] } := by
  obtain ⟨hcopied, hsends, hexact⟩ := h
  rw [hh] at hcopied hsends hexact
  have hfirst : firstSends (book.copies ++ [(txs, s.leaders)]) =
      firstSends book.copies ++ s.leaders.map fun leader => (txs, leader) := by
    simp [firstSends]
  refine ⟨?_, ?_, ?_⟩
  · rw [hcopied, List.map_append]
    exact (List.append_nil _).symm
  · rw [hfirst]
    exact ((List.append_nil _).symm ▸ hsends).append_right _
  · intro hd
    rw [hfirst]
    exact congrArg (· ++ _) ((List.append_nil _).symm.trans (hexact hd))

theorem Carried.attempt (h : Carried debug s book) {txs : Bundle} {leader : Leader} {leaders : List Leader}
    {sentCount sentCount' : UInt16} (hh : s.handler = .sending txs (leader :: leaders) sentCount) :
    Carried debug { s with handler := .sending txs leaders sentCount' }
      { book with attempts := book.attempts ++ [(txs, leader)] } := by
  obtain ⟨hcopied, hsends, hexact⟩ := h
  rw [hh] at hcopied hsends hexact
  have hmoved : book.attempts ++ [(txs, leader)] ++ (Handler.sending txs leaders sentCount').todo =
      book.attempts ++ (Handler.sending txs (leader :: leaders) sentCount).todo := by
    simp [Handler.todo]
  refine ⟨hcopied, ?_, ?_⟩
  · rw [hmoved]
    exact hsends
  · rw [hmoved]
    exact hexact

/-- The count of the successes overflows, and the rest is not sent. -/
theorem Carried.abort (h : Carried debug s book) {txs : Bundle} {leader : Leader} {leaders : List Leader}
    {sentCount : UInt16} (hh : s.handler = .sending txs (leader :: leaders) sentCount) (hd : debug = true) :
    Carried debug { s with handler := .panicked }
      { book with attempts := book.attempts ++ [(txs, leader)] } := by
  obtain ⟨hcopied, hsends, -⟩ := h
  rw [hh] at hcopied hsends
  refine ⟨hcopied, ?_, ?_⟩
  · refine List.Sublist.trans ?_ hsends
    simp [Handler.todo]
  · intro hfalse
    rw [hd] at hfalse
    cases hfalse

theorem Carried.handlerStep (h : Carried debug s book) {sent : Bool}
    (hs : s.handlerStep debug sent = some t) : Carried debug t (book.note s (.handler sent)) := by
  unfold Book.note
  cases hh : s.handler with
  | locking txs =>
    simp only [State.handlerStep, hh] at hs
    split at hs <;> cases hs
    exact h.turn rfl (by rw [hh]; rfl) (by rw [hh]; rfl)
  | locked txs =>
    simp only [State.handlerStep, hh] at hs
    cases hs
    exact h.turn rfl (by rw [hh]; rfl) (by rw [hh]; rfl)
  | stamped txs sentAt =>
    simp only [State.handlerStep, hh] at hs
    cases hs
    exact h.push hh
  | pushed txs =>
    simp only [State.handlerStep, hh] at hs
    cases hs
    exact h.turn rfl (by rw [hh]; rfl) (by rw [hh]; rfl)
  | snapshotting txs =>
    simp only [State.handlerStep, hh] at hs
    cases hs
    exact h.copy hh
  | sending txs leaders sentCount =>
    simp only [State.handlerStep, hh] at hs
    cases hs
    cases leaders with
    | nil => exact h.turn rfl (by rw [hh]; rfl) (by rw [hh]; rfl)
    | cons leader leaders =>
      simp only [State.send]
      split_ifs with hsent hover
      · exact h.abort hh (Bool.and_eq_true_iff.mp hover).1
      · exact h.attempt hh
      · exact h.attempt hh
  | idle => simp [State.handlerStep, hh] at hs
  | panicked => simp [State.handlerStep, hh] at hs
  | dropped => simp [State.handlerStep, hh] at hs

theorem Book.note_cuts (book : Book Leader) (s : State Leader) (a : Action Leader) :
    (book.note s a).cuts = book.cuts ++ a.cuts := by
  unfold Book.note Action.cuts
  cases a with
  | call request =>
    dsimp only
    split <;> rename_i hcut <;> simp [hcut]
  | handler sent =>
    dsimp only
    split <;> exact (List.append_nil _).symm
  | _ => exact (List.append_nil _).symm

/-- **Every step keeps the book.** -/
theorem Carried.step {leaders : List Leader} {a : Action Leader} (h : Carried debug s book)
    (hs : (retryMachine debug leaders).step s a = some t) : Carried debug t (book.note s a) := by
  cases a with
  | tick nanos =>
    cases hs
    exact h.turn rfl rfl rfl
  | call request =>
    simp only [retryMachine, State.step] at hs
    split_ifs at hs with hf
    obtain ⟨hc, ht⟩ := Handler.nothing_of_free hf
    have hbook : ∀ cuts, Carried debug s { book with cuts } :=
      fun _ => ⟨h.copied, h.sends, h.exact⟩
    unfold Book.note
    cases hcut : request.cut with
    | some txs =>
      rw [hcut] at hs
      cases hs
      simp only [hcut]
      exact (hbook _).turn rfl hc.symm ht.symm
    | none =>
      rw [hcut] at hs
      cases hs
      simp only [hcut]
      exact h.turn rfl hc.symm ht.symm
  | handler sent => exact h.handlerStep hs
  | refresher fetched =>
    obtain ⟨hh, -, ha⟩ := refresherStep_frame hs
    exact h.turn ha (by rw [hh]) (by rw [hh])
  | drop =>
    simp only [retryMachine, State.step] at hs
    split_ifs at hs with hf
    cases hs
    obtain ⟨hc, ht⟩ := Handler.nothing_of_free hf
    exact h.turn rfl hc.symm ht.symm

end

/-! ### Runs -/

/-- What a finished sweep has kept was queued. -/
def Resent (s : State Leader) : Prop := ∀ round ∈ s.rounds, ∀ batch ∈ round.kept, batch ∈ s.accepted

theorem Resent.move {s t : State Leader} (h : Resent s) (hk : Kept s) (hw : Swept s) (hm : Move s t) :
    Resent t := by
  cases hm with
  | push _ => exact fun round hr batch hb => List.mem_append_left _ (h round hr batch hb)
  | @finish round hs =>
    intro round' hr batch hb
    rcases List.mem_append.mp hr with hr | hr
    · exact h round' hr batch hb
    · -- the sweep holds the queue
      obtain rfl := List.mem_singleton.mp hr
      obtain ⟨hpending, -, -⟩ := hw.retrying round' [] hs
      rw [hpending, hk] at hb
      exact List.mem_of_mem_filter hb
  | _ => exact h

theorem reachable_resent {debug : Bool} {leaders : List Leader} {s : State Leader}
    (h : (retryMachine debug leaders).Reachable s) : Resent s := by
  have hinit : Resent (State.init leaders) := fun _ hr => absurd hr List.not_mem_nil
  refine (h.invariant (I := fun s => Inv s ∧ Resent s) ⟨init_inv leaders, hinit⟩ ?_).2
  rintro s a t ⟨hi, hr⟩ hs
  exact ⟨hi.move (move_of_step hs), hr.move hi.kept hi.swept (move_of_step hs)⟩

theorem sends_accepted {debug : Bool} {leaders : List Leader} {s : State Leader}
    (h : (retryMachine debug leaders).Reachable s) {round : Round Leader} (hround : round ∈ s.rounds)
    {send : PendingBatch × Leader} (hsend : send ∈ round.sends) : send.1 ∈ s.accepted := by
  rw [((reachable_inv h).swept.finished round hround).1] at hsend
  obtain ⟨batch, hbatch, hmem⟩ := List.mem_flatMap.mp hsend
  obtain ⟨leader, -, rfl⟩ := List.mem_map.mp hmem
  exact reachable_resent h round hround batch hbatch

section

variable {debug : Bool} {leaders : List Leader} {s : State Leader} {book : Book Leader}

theorem reachable_carried (h : (booked debug leaders).Reachable (s, book)) :
    book.cuts = s.accepted.map PendingBatch.txs ++ s.handler.unqueued ∧ Carried debug s book := by
  have hinit : Carried debug (State.init leaders) ⟨[], [], []⟩ :=
    ⟨rfl, List.Sublist.refl _, fun _ => rfl⟩
  refine h.invariant (I := fun p => p.2.cuts = p.1.accepted.map PendingBatch.txs ++
    p.1.handler.unqueued ∧ Carried debug p.1 p.2) ⟨rfl, hinit⟩ ?_
  rintro p a q ⟨hqueued, hp⟩ hq
  obtain ⟨hs, hnote⟩ := Machine.observed_step_eq_some.mp hq
  rw [hnote]
  refine ⟨?_, hp.step hs⟩
  rw [queued_step hs, Book.note_cuts, hqueued]

/-- **Nothing is lost, repeated, reordered or made up.** In every reachable
state the batches that the calls carried are those queued, in that order, and
the one that is not queued yet; leaders are copied for each of them in turn; the
sends of the handler, those left and none else are each batch to each leader of
its copy, in order, but for what an overflow of the count cuts off; and a sweep
has sent what was queued. -/
theorem batches_carried (h : (booked debug leaders).Reachable (s, book)) :
    book.cuts = s.accepted.map PendingBatch.txs ++ s.handler.unqueued ∧
    s.accepted.map PendingBatch.txs = book.copies.map Prod.fst ++ s.handler.uncopied ∧
    (book.attempts ++ s.handler.todo).Sublist (firstSends book.copies) ∧
    (debug = false → book.attempts ++ s.handler.todo = firstSends book.copies) ∧
    ∀ round ∈ s.rounds, ∀ send ∈ round.sends, send.1 ∈ s.accepted := by
  have hr : (retryMachine debug leaders).Reachable s := Machine.reachable_of_observed h
  obtain ⟨hqueued, hcopied, hsends, hexact⟩ := reachable_carried h
  exact ⟨hqueued, hcopied, hsends, hexact, fun round hround send hsend => sends_accepted hr hround hsend⟩

end

/-- One call and a fetch of the leaders: the handler tries leader 3 of the list
it starts with, and the sweep sends the batch again to leader 7. -/
theorem batches_carried_twice : ∃ (s : State ℕ) (book : Book ℕ),
    (booked false [3]).Reachable (s, book) ∧ book = ⟨[[]], [([], [3])], [([], 3)]⟩ ∧
    s.rounds = [⟨[7], 0, [⟨[], 0⟩], [(⟨[], 0⟩, 7)]⟩] ∧ s.handler.todo = [] ∧
    book.attempts ++ s.handler.todo = firstSends book.copies ∧
    ∀ round ∈ s.rounds, ∀ send ∈ round.sends, send.1 ∈ s.accepted := by
  obtain ⟨s, book, hs, hbook, hrounds, htodo⟩ : ∃ s book, (booked false [3]).run (booked false [3]).init
      (.call TransactionRequest.default :: List.replicate 7 (.handler true) ++
        List.replicate 16 (.refresher (some [7]))) = some (s, book) ∧
      book = ⟨[[]], [([], [3])], [([], 3)]⟩ ∧ s.rounds = [⟨[7], 0, [⟨[], 0⟩], [(⟨[], 0⟩, 7)]⟩] ∧
      s.handler.todo = [] := ⟨_, _, rfl, rfl, by decide, rfl⟩
  have hr : (booked false [3]).Reachable (s, book) := Machine.reachable_of_run hs
  obtain ⟨-, -, -, hexact, hresent⟩ := batches_carried hr
  exact ⟨s, book, hr, hbook, hrounds, htodo, hexact rfl, hresent⟩

/-! ### Clients that append -/

namespace TransactionRequest

theorem NoEnds.append_count_le {request request' : TransactionRequest} (h : request.NoEnds)
    (hc : request.count.toNat ≤ 20) {bytes : List UInt8} {answer : Bool}
    (ha : request.append bytes = some (request', answer)) : request'.count.toNat ≤ 20 := by
  by_cases hfull : request.count.toNat < 20
  · by_cases hb : bytes.length ≤ 1500
    · obtain ⟨r, hr, -, hcount⟩ := append_spec h hfull hb
      rw [hr] at ha
      cases ha
      omega
    · rw [append_overlong h hfull (Nat.not_le.mp hb)] at ha
      cases ha
      show (request.count + 1).toNat ≤ 20
      rw [UInt8.toNat_add, UInt8.toNat_one]
      omega
  · rw [append_full (Nat.not_lt.mp hfull)] at ha
    cases ha
    exact hc

theorem count_le_calls : ∀ (bs : List (List UInt8)) {request request' : TransactionRequest}
    {answers : List Bool}, request.NoEnds → request.count.toNat ≤ 20 →
    calls append request bs = some (request', answers) → request'.count.toNat ≤ 20
  | [], _, _, _, _, hc, hr => by
    cases hr
    exact hc
  | _ :: bs, _, _, _, h, hc, hr => by
    obtain ⟨request₁, answer, answers', ha, hs, rfl⟩ := calls_cons_eq_some.mp hr
    exact count_le_calls bs (noEnds_append h ha) (h.append_count_le hc ha) hs

/-- However a request was appended to, it is cut into empty strings. -/
theorem Built.cut {request : TransactionRequest} (h : request.Built) :
    request.cut = some (List.replicate request.count.toNat []) := by
  obtain ⟨bs, answers, hr⟩ := id h
  have h0 : NoEnds default := rfl
  exact h.noEnds.cut (count_le_calls bs h0 (Nat.zero_le _) hr)

end TransactionRequest

/-- Every request was made by appends. -/
def Appending {σ : Type} (_ : σ) (a : Action Leader) : Prop :=
  ∀ request, a = .call request → request.Built

section

variable {debug : Bool} {leaders : List Leader} {s : State Leader} {book : Book Leader}

/-- A handler that was not panicked panics on an overflow only. -/
theorem handlerStep_not_panicked {t : State Leader} {sent : Bool} (hd : debug = false)
    (hs : s.handlerStep debug sent = some t) : t.handler ≠ .panicked := by
  subst hd
  unfold State.handlerStep at hs
  split at hs
  · split at hs <;> cases hs
    simp
  any_goals cases hs <;> simp
  -- the loop that sends
  unfold State.send
  split
  · simp
  · split_ifs <;> simp_all

theorem cuts_of_appending (h : (booked debug leaders).ReachableBy Appending (s, book)) :
    (∀ txs ∈ book.cuts, ∀ tx ∈ txs, tx = []) ∧ (debug = false → s.handler ≠ .panicked) := by
  refine h.invariant (I := fun p => (∀ txs ∈ p.2.cuts, ∀ tx ∈ txs, tx = []) ∧
    (debug = false → p.1.handler ≠ .panicked)) ⟨by simp [booked, Machine.observed], fun _ => ?_⟩ ?_
  · intro hpanicked
    cases hpanicked
  rintro ⟨s, book⟩ a ⟨t, book'⟩ ⟨hcuts, hfine⟩ hok hstep
  obtain ⟨hs, hnote⟩ := Machine.observed_step_eq_some.mp hstep
  dsimp only at hs hnote hcuts hfine ⊢
  subst hnote
  cases a with
  | tick nanos =>
    cases hs
    exact ⟨hcuts, hfine⟩
  | call request =>
    have hcut := (hok request rfl).cut
    simp only [retryMachine, State.step, hcut] at hs
    split_ifs at hs
    cases hs
    simp only [Book.note, hcut]
    refine ⟨?_, fun _ => by simp⟩
    intro txs htxs tx htx
    rcases List.mem_append.mp htxs with htxs | htxs
    · exact hcuts txs htxs tx htx
    · rw [List.mem_singleton.mp htxs] at htx
      exact List.eq_of_mem_replicate htx
  | handler sent =>
    have hsame : (book.note s (.handler sent)).cuts = book.cuts :=
      (book.note_cuts s _).trans (List.append_nil _)
    rw [hsame]
    exact ⟨hcuts, fun hd => handlerStep_not_panicked hd hs⟩
  | refresher fetched =>
    obtain ⟨hh, -, -⟩ := refresherStep_frame hs
    rw [hh]
    exact ⟨hcuts, hfine⟩
  | drop =>
    simp only [retryMachine, State.step] at hs
    split_ifs at hs
    cases hs
    exact ⟨hcuts, fun _ => by simp⟩

/-- **Clients that fill their requests with `append` get nothing sent.** In
every run with no other calls, whatever was appended, whatever was refused and
however the threads interleave: every transaction that the handler sends, and
every one that a sweep sends again, is the empty string; and no call panics, but
for an overflow of the count. -/
theorem appended_sends_empty (h : (booked debug leaders).ReachableBy Appending (s, book)) :
    (∀ send ∈ book.attempts, ∀ tx ∈ send.1, tx = []) ∧
    (∀ round ∈ s.rounds, ∀ send ∈ round.sends, ∀ tx ∈ send.1.txs, tx = []) ∧
    (debug = false → s.handler ≠ .panicked) := by
  obtain ⟨hcuts, hfine⟩ := cuts_of_appending h
  have hr := h.reachable
  obtain ⟨hcuts_eq, hcarried⟩ := reachable_carried hr
  refine ⟨?_, ?_, hfine⟩
  · intro send hsend
    -- a send is of a batch that leaders were copied for
    have hfirst := hcarried.sends.subset (List.mem_append_left _ hsend)
    obtain ⟨copy, hcopy, hmem⟩ := List.mem_flatMap.mp hfirst
    obtain ⟨leader, -, rfl⟩ := List.mem_map.mp hmem
    apply hcuts
    rw [hcuts_eq, hcarried.copied]
    exact List.mem_append_left _ (List.mem_append_left _ (List.mem_map_of_mem hcopy))
  · intro round hround send hsend
    have hqueued := sends_accepted (Machine.reachable_of_observed hr) hround hsend
    apply hcuts
    rw [hcuts_eq]
    exact List.mem_append_left _ (List.mem_map_of_mem hqueued)

end

/-- A request for one byte is accepted by `append`, queued and sent, and its one
transaction is empty at the leader. -/
theorem appended_sends_empty_byte : ∃ (s : State ℕ) (book : Book ℕ) (request : TransactionRequest),
    TransactionRequest.default.append [1] = some (request, true) ∧
    (booked false [3]).ReachableBy Appending (s, book) ∧ book.attempts = [([[]], 3)] ∧
    (∀ send ∈ book.attempts, ∀ tx ∈ send.1, tx = []) ∧ s.handler ≠ .panicked := by
  have h0 : TransactionRequest.default.NoEnds := rfl
  obtain ⟨request, happend, -, hcount⟩ :=
    @TransactionRequest.append_spec _ h0 [1] (by decide) (by decide)
  have hbuilt : request.Built :=
    ⟨[[1]], [true], calls_cons_eq_some.mpr ⟨request, true, [], happend, rfl, rfl⟩⟩
  have hcut : request.cut = some [[]] := by
    rw [hbuilt.cut, hcount]
    rfl
  have hcall : (booked false [3]).step (booked false [3]).init (.call request) =
      some ({ State.init [3] with handler := .locking [[]] }, ⟨[[[]]], [], []⟩) := by
    simp only [booked, Machine.observed, retryMachine, State.step, Book.note, hcut]
    rfl
  obtain ⟨s, book, hs, hbook⟩ : ∃ s book, (booked false [3]).run (booked false [3]).init
      (.call request :: List.replicate 7 (.handler true)) = some (s, book) ∧
      book.attempts = [([[]], 3)] := by
    rw [Machine.run_cons _ hcall]
    exact ⟨_, _, rfl, rfl⟩
  have hr : (booked false [3]).ReachableBy Appending (s, book) := by
    refine Machine.reachableBy_of_forall ?_ hs
    intro a ha u request' ha'
    subst ha'
    rcases List.mem_cons.mp ha with hfirst | hlater
    · cases hfirst
      exact hbuilt
    · cases List.eq_of_mem_replicate hlater
  obtain ⟨hempty, -, hfine⟩ := appended_sends_empty hr
  exact ⟨s, book, request, happend, hr, hbook, hempty, hfine rfl⟩

end Quic
end Zerohop
