/-
# Tables that keep the last value written

Items are written to a table one after the other; each names a key and a
value, or nothing at all. What a key holds afterwards is the value of the last
item that names it, whatever the items for other keys and wherever they stand.

Key definitions: `write`, `writeAll`, `LastNames`.
Key theorems: `writeAll_eq_some`, `writeAll_eq_none`, `writeAll_filter`.
-/
import Mathlib.Data.List.Induction
import Mathlib.Logic.Function.Basic

namespace Zerohop
namespace LastWriter

variable {κ α σ : Type*}

theorem names_or (entry : α → Option (κ × σ)) (x : α) (k : κ) :
    (∃ v, entry x = some (k, v)) ∨ ∀ v, entry x ≠ some (k, v) := by
  by_cases h : ∃ v, entry x = some (k, v)
  · exact Or.inl h
  · exact Or.inr fun v hv => h ⟨v, hv⟩

/-- The last item that names the key names the value. -/
def LastNames (entry : α → Option (κ × σ)) (l : List α) (k : κ) (v : σ) : Prop :=
  ∃ (j : ℕ) (x : α), l[j]? = some x ∧ entry x = some (k, v) ∧
    ∀ (m : ℕ) (y : α) (w : σ), j < m → l[m]? = some y → entry y ≠ some (k, w)

theorem getElem?_concat_eq_some {l : List α} {x y : α} {j : ℕ} :
    (l ++ [x])[j]? = some y ↔ l[j]? = some y ∨ j = l.length ∧ x = y := by
  rcases Nat.lt_trichotomy j l.length with hj | rfl | hj
  · rw [List.getElem?_append_left hj]
    exact ⟨Or.inl, fun h => h.elim id fun h => by omega⟩
  · simp
  · rw [List.getElem?_eq_none (by simp; omega), List.getElem?_eq_none (by omega)]
    simp
    omega

variable {entry : α → Option (κ × σ)} {l : List α} {x : α} {k : κ} {v : σ}

theorem lastNames_concat_same {u : σ} (hu : entry x = some (k, u)) :
    LastNames entry (l ++ [x]) k v ↔ u = v := by
  constructor
  · rintro ⟨j, y, hj, hy, hlater⟩
    rcases getElem?_concat_eq_some.mp hj with hj | ⟨rfl, rfl⟩
    · have hjl := (List.getElem?_eq_some_iff.mp hj).1
      exact absurd hu (hlater l.length x u hjl (getElem?_concat_eq_some.mpr (Or.inr ⟨rfl, rfl⟩)))
    · rw [hu] at hy
      cases hy
      rfl
  · rintro rfl
    refine ⟨l.length, x, getElem?_concat_eq_some.mpr (Or.inr ⟨rfl, rfl⟩), hu, ?_⟩
    intro m y w hm hy
    have := (List.getElem?_eq_some_iff.mp hy).1
    rw [List.length_append, List.length_singleton] at this
    omega

theorem lastNames_concat_other (hx : ∀ w, entry x ≠ some (k, w)) :
    LastNames entry (l ++ [x]) k v ↔ LastNames entry l k v := by
  constructor
  · rintro ⟨j, y, hj, hy, hlater⟩
    rcases getElem?_concat_eq_some.mp hj with hj | ⟨-, rfl⟩
    · exact ⟨j, y, hj, hy,
        fun m z w hm hz => hlater m z w hm (getElem?_concat_eq_some.mpr (Or.inl hz))⟩
    · exact absurd hy (hx v)
  · rintro ⟨j, y, hj, hy, hlater⟩
    refine ⟨j, y, getElem?_concat_eq_some.mpr (Or.inl hj), hy, ?_⟩
    intro m z w hm hz
    rcases getElem?_concat_eq_some.mp hz with hz | ⟨-, rfl⟩
    · exact hlater m z w hm hz
    · exact hx w

variable [DecidableEq κ] (entry)

/-- One item: it overwrites what its key held. -/
def write (table : κ → Option σ) (x : α) : κ → Option σ :=
  match entry x with
  | none => table
  | some (k, v) => Function.update table k (some v)

/-- The items in order, from an empty table. -/
def writeAll (l : List α) : κ → Option σ :=
  l.foldl (write entry) fun _ => none

theorem writeAll_append_singleton (l : List α) (x : α) :
    writeAll entry (l ++ [x]) = write entry (writeAll entry l) x := by
  unfold writeAll
  rw [List.foldl_append]
  rfl

variable {entry}

theorem write_same {table : κ → Option σ} (h : entry x = some (k, v)) :
    write entry table x k = some v := by
  unfold write
  rw [h]
  exact Function.update_self ..

theorem write_other {table : κ → Option σ} (h : ∀ v, entry x ≠ some (k, v)) :
    write entry table x k = table k := by
  unfold write
  cases hx : entry x with
  | none => rfl
  | some p =>
    have hk : k ≠ p.1 := fun hk => h p.2 (by rw [hx, hk])
    exact Function.update_of_ne hk ..

theorem writeAll_eq_none :
    writeAll entry l k = none ↔ ∀ x ∈ l, ∀ v, entry x ≠ some (k, v) := by
  induction l using List.reverseRecOn with
  | nil => simp [writeAll]
  | append_singleton l x ih =>
    rw [writeAll_append_singleton, List.forall_mem_append, List.forall_mem_singleton, ← ih]
    rcases names_or entry x k with ⟨v, hv⟩ | hx
    · rw [write_same hv]
      constructor
      · intro h
        cases h
      · intro h
        exact absurd hv (h.2 v)
    · rw [write_other hx, and_iff_left hx]

/-- **A key holds the value of the last item that names it.** -/
theorem writeAll_eq_some : writeAll entry l k = some v ↔ LastNames entry l k v := by
  induction l using List.reverseRecOn with
  | nil => simp [writeAll, LastNames]
  | append_singleton l x ih =>
    rw [writeAll_append_singleton]
    rcases names_or entry x k with ⟨u, hu⟩ | hx
    · rw [write_same hu, lastNames_concat_same hu, Option.some.injEq]
    · rw [write_other hx, lastNames_concat_other hx, ih]

theorem writeAll_filter {p : α → Bool}
    (hp : ∀ x ∈ l, ∀ v, entry x = some (k, v) → p x = true) :
    writeAll entry (l.filter p) k = writeAll entry l k := by
  induction l using List.reverseRecOn with
  | nil => rfl
  | append_singleton l x ih =>
    rw [List.forall_mem_append, List.forall_mem_singleton] at hp
    have ih := ih hp.1
    rw [List.filter_append, writeAll_append_singleton]
    rcases names_or entry x k with ⟨v, hv⟩ | hx
    · rw [List.filter_cons_of_pos (hp.2 v hv), List.filter_nil, writeAll_append_singleton, write_same hv,
        write_same hv]
    · rw [write_other hx, ← ih]
      by_cases hpx : p x = true
      · rw [List.filter_cons_of_pos hpx, List.filter_nil, writeAll_append_singleton, write_other hx]
      · rw [List.filter_cons_of_neg hpx, List.filter_nil, List.append_nil]

end LastWriter
end Zerohop
