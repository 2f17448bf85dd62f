/-
# Refused appends

`append` refuses in two places, and counts between them: a full bundle refuses
before `count` is raised, a transaction over `maxTxSize` after. So an overlong
transaction is refused and counted, and the reader cuts a string for it
(`overlong_counted`); where each overlong one comes after the bundle is full, a
refused append leaves no trace (`refused_unchanged_iff`).
-/
import Zerohop.Quic.Request

namespace Zerohop
namespace Quic
namespace TransactionRequest

/-- A request that appends have made from `default`. -/
def Built (request : TransactionRequest) : Prop :=
  ∃ bs answers, calls append default bs = some (request, answers)

/-- The full bundle refuses first, and a transaction within the limit is never
refused for its length. -/
def RefusedEarly (request : TransactionRequest) (bytes : List UInt8) : Prop :=
  maxTxBundleSize ≤ request.count.toNat ∨ bytes.length ≤ maxTxSize

instance (request : TransactionRequest) (bytes : List UInt8) :
    Decidable (request.RefusedEarly bytes) := by
  unfold RefusedEarly
  infer_instance

/-- The condition at each append of a run. -/
def RefusesEarly : TransactionRequest → List (List UInt8) → Prop
  | _, [] => True
  | request, bytes :: bs => request.RefusedEarly bytes ∧
    ∀ request' answer, request.append bytes = some (request', answer) → request'.RefusesEarly bs

/-- The strings whose append was accepted. -/
def accepted : List (List UInt8) → List Bool → List (List UInt8)
  | bytes :: bs, answer :: answers =>
    if answer then bytes :: accepted bs answers else accepted bs answers
  | _, _ => []

/-! ### One append -/

theorem append_full {request : TransactionRequest} (h : maxTxBundleSize ≤ request.count.toNat)
    (bytes : List UInt8) : request.append bytes = some (request, false) := by
  unfold append
  rw [if_pos h]

/-- An overlong transaction is refused once it has been counted. -/
theorem append_overlong {request : TransactionRequest} (h : request.NoEnds)
    (hc : request.count.toNat < maxTxBundleSize) {bytes : List UInt8} (hb : maxTxSize < bytes.length) :
    request.append bytes = some ({ request with count := request.count + 1 }, false) := by
  have hstart : ∃ start, ({ request with count := request.count + 1 } : TransactionRequest).startOf
      request.count.toNat = some start := by
    unfold startOf
    split_ifs
    · exact ⟨0, rfl⟩
    · exact ⟨0, h.getElem? (Nat.lt_of_le_of_lt (Nat.sub_le _ _) hc)⟩
  obtain ⟨start, hstart⟩ := hstart
  simp only [append, if_neg (Nat.not_le.mpr hc), hstart, if_pos hb, Option.bind_eq_bind,
    Option.bind_some]

theorem append_cases {request : TransactionRequest} (h : request.NoEnds) (bytes : List UInt8) :
    (maxTxBundleSize ≤ request.count.toNat ∧ request.append bytes = some (request, false)) ∨
    (request.count.toNat < maxTxBundleSize ∧ maxTxSize < bytes.length ∧
      request.append bytes = some ({ request with count := request.count + 1 }, false)) ∨
    (request.count.toNat < maxTxBundleSize ∧ bytes.length ≤ maxTxSize ∧
      ∃ request', request.append bytes = some (request', true) ∧ request'.NoEnds) := by
  by_cases hc : request.count.toNat < maxTxBundleSize
  · by_cases hb : maxTxSize < bytes.length
    · exact Or.inr (Or.inl ⟨hc, hb, append_overlong h hc hb⟩)
    · rw [Nat.not_lt] at hb
      obtain ⟨request', ha, hno, -⟩ := append_spec h hc hb
      exact Or.inr (Or.inr ⟨hc, hb, request', ha, hno⟩)
  · rw [Nat.not_lt] at hc
    exact Or.inl ⟨hc, append_full hc bytes⟩

theorem noEnds_append {request request' : TransactionRequest} (h : request.NoEnds)
    {bytes : List UInt8} {answer : Bool} (ha : request.append bytes = some (request', answer)) :
    request'.NoEnds := by
  rcases append_cases h bytes with ⟨-, he⟩ | ⟨-, -, he⟩ | ⟨-, -, r, he, hr⟩
  · rw [he] at ha
    cases ha
    exact h
  · rw [he] at ha
    cases ha
    exact h
  · rw [he] at ha
    cases ha
    exact hr

theorem NoEnds.append_isSome {request : TransactionRequest} (h : request.NoEnds)
    (bytes : List UInt8) : ∃ p, request.append bytes = some p := by
  rcases append_cases h bytes with ⟨-, he⟩ | ⟨-, -, he⟩ | ⟨-, -, r, he, -⟩ <;> exact ⟨_, he⟩

/-- **One refused append.** It changes nothing exactly if the bundle was full
or the data is within the limit, in which case a refusal means that it was. -/
theorem NoEnds.unchanged_iff {request : TransactionRequest} (h : request.NoEnds)
    (bytes : List UInt8) :
    (∀ request', request.append bytes = some (request', false) → request' = request) ↔
      request.RefusedEarly bytes := by
  rcases append_cases h bytes with ⟨hc, he⟩ | ⟨hc, hb, he⟩ | ⟨-, hb, r, he, -⟩
  · refine iff_of_true ?_ (Or.inl hc)
    intro request' ha
    rw [he] at ha
    cases ha
    rfl
  · refine iff_of_false ?_ ?_
    · intro hall
      have hcount : request.count + 1 = request.count := congrArg count (hall _ he)
      have hnat := congrArg UInt8.toNat hcount
      rw [UInt8.toNat_add, UInt8.toNat_one] at hnat
      unfold maxTxBundleSize at hc
      omega
    · rintro (hge | hle)
      · exact absurd hc (Nat.not_lt.mpr hge)
      · exact absurd hb (Nat.not_lt.mpr hle)
  · refine iff_of_true ?_ (Or.inr hb)
    intro request' ha
    rw [he] at ha
    cases ha

/-! ### Runs of appends -/

theorem noEnds_calls : ∀ (bs : List (List UInt8)) {request request' : TransactionRequest}
    {answers : List Bool}, request.NoEnds →
    calls append request bs = some (request', answers) → request'.NoEnds
  | [], _, _, _, h, hr => by
    cases hr
    exact h
  | _ :: bs, _, _, _, h, hr => by
    obtain ⟨request₁, answer, answers', ha, hs, rfl⟩ := calls_cons_eq_some.mp hr
    exact noEnds_calls bs (noEnds_append h ha) hs

theorem Built.noEnds {request : TransactionRequest} (h : request.Built) : request.NoEnds := by
  obtain ⟨bs, answers, hr⟩ := h
  have h0 : NoEnds default := rfl
  exact noEnds_calls bs h0 hr

/-- **A run whose refusals are early** ends where the accepted appends alone
would have. -/
theorem calls_accepted : ∀ (bs : List (List UInt8)) {request request' : TransactionRequest}
    {answers : List Bool}, request.NoEnds → request.RefusesEarly bs →
    calls append request bs = some (request', answers) →
    calls append request (accepted bs answers) =
      some (request', (accepted bs answers).map fun _ => true)
  | [], _, _, _, _, _, hr => by
    cases hr
    rfl
  | bytes :: bs, request, request', _, h, hearly, hr => by
    obtain ⟨request₁, answer, answers', ha, hs, rfl⟩ := calls_cons_eq_some.mp hr
    have hrest := calls_accepted bs (noEnds_append h ha) (hearly.2 _ _ ha) hs
    cases answer with
    | true => exact calls_cons_eq_some.mpr ⟨request₁, true, _, ha, hrest, rfl⟩
    | false =>
      obtain rfl := (h.unchanged_iff bytes).mpr hearly.1 request₁ ha
      exact hrest

/-- **When a refused append changes nothing**: of a request that appends have
made, exactly if it is refused early; and where all of them were refused early,
the accepted ones alone make the same request, so that every later append and
cut is the same. -/
theorem refused_unchanged_iff {request : TransactionRequest} (h : Built request)
    (bytes : List UInt8) :
    (∃ p, request.append bytes = some p) ∧
    ((∀ request', request.append bytes = some (request', false) → request' = request) ↔
      request.RefusedEarly bytes) ∧
    ∀ bs answers, calls append default bs = some (request, answers) → default.RefusesEarly bs →
      calls append default (accepted bs answers) =
        some (request, (accepted bs answers).map fun _ => true) := by
  refine ⟨h.noEnds.append_isSome bytes, h.noEnds.unchanged_iff bytes, ?_⟩
  intro bs answers hr hearly
  have h0 : NoEnds default := rfl
  exact calls_accepted bs h0 hearly hr

/-- A full bundle refuses even an overlong transaction without a trace. -/
theorem refused_when_full : ∃ request, Built request ∧ request.count.toNat = 20 ∧
    ∀ request', request.append (List.replicate 1501 0) = some (request', false) →
      request' = request := by
  have h0 : NoEnds default := rfl
  obtain ⟨request, hr, -, hc⟩ := appends_spec (List.replicate 20 []) h0
    (by rw [List.length_replicate]; decide) (by simp)
  have hcount : request.count.toNat = 20 := by
    rw [hc, List.length_replicate]
    rfl
  have hbuilt : Built request := ⟨_, _, hr⟩
  refine ⟨request, hbuilt, hcount, ?_⟩
  exact (refused_unchanged_iff hbuilt _).2.1.mpr (Or.inl hcount.ge)

/-- **A transaction of 1501 bytes** is refused and counted: the reader of the
empty bundle cuts nothing, and then one empty string. -/
theorem overlong_counted : Built default ∧ default.cut = some [] ∧
    ∃ request, default.append (List.replicate 1501 0) = some (request, false) ∧
      request.count = 1 ∧ request ≠ default ∧ request.cut = some [[]] := by
  have h0 : NoEnds default := rfl
  have hlong : default.append (List.replicate 1501 0) =
      some ({ default with count := default.count + 1 }, false) :=
    append_overlong h0 (by decide) (by rw [List.length_replicate]; decide)
  refine ⟨⟨[], [], rfl⟩, h0.cut (by decide), _, hlong, rfl, ?_, ?_⟩
  · intro heq
    exact absurd (congrArg count heq) (by decide)
  · exact (noEnds_append h0 hlong).cut (by decide)

end TransactionRequest
end Quic
end Zerohop
