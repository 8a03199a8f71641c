import Mathlib.Order.Lattice
import Mathlib.Data.Nat.Basic

/-!
# Lib.Sweep — the offsets a decoder stops at

A decoder that reads items one behind the other is a function from the offset of an item to that of the
next, which lies further on; `none` is the end.  Two decoders that start together stop at the same offsets
exactly when they agree on the next offset at every offset that either reaches (`reached_iff_agree`): where
they part for the first time, one of them skips an offset of the other and never comes back to it.
-/

namespace Sweep

variable {α : Type*}

/-- The offsets that are reached from a first one. -/
inductive Reached (next : α → Option α) (first : Option α) : α → Prop
  | first {i : α} (h : first = some i) : Reached next first i
  | next {i j : α} (hi : Reached next first i) (h : next i = some j) : Reached next first j

/-- The next item lies further on. -/
def Forward [LT α] (next : α → Option α) : Prop := ∀ i j, next i = some j → i < j

theorem not_reached_none {next : α → Option α} (i : α) : ¬ Reached next none i := by
  intro h
  induction h with
  | first h => cases h
  | next _ _ ih => exact ih

/-- What is reached from an offset is the offset itself, or is reached from the next one. -/
theorem reached_some_iff {next : α → Option α} {i j : α} :
    Reached next (some i) j ↔ j = i ∨ Reached next (next i) j := by
  constructor
  · intro h
    induction h with
    | first h => exact .inl (Option.some.inj h).symm
    | next _ h ih =>
      rcases ih with rfl | ih
      · exact .inr (.first h)
      · exact .inr (ih.next h)
  · rintro (rfl | h)
    · exact .first rfl
    · induction h with
      | first h => exact (Reached.first rfl).next h
      | next _ h ih => exact ih.next h

/-- Two offsets of one sweep lie on one path. -/
theorem Reached.total {next : α → Option α} {first : Option α} {i j : α} (hi : Reached next first i)
    (hj : Reached next first j) : Reached next (some i) j ∨ Reached next (some j) i := by
  induction hj with
  | first h =>
    subst h
    exact .inr hi
  | @next m j _ h ih =>
    rcases ih with ih | ih
    · exact .inl (ih.next h)
    · rcases reached_some_iff.mp ih with rfl | ih
      · exact .inl ((Reached.first rfl).next h)
      · rw [h] at ih
        exact .inr ih

section Linear

variable [LinearOrder α] {next other : α → Option α} {first : Option α}

theorem Reached.first_le (hforward : Forward next) {i j : α} (h : Reached next (some i) j) : i ≤ j := by
  induction h with
  | first h => exact le_of_eq (Option.some.inj h)
  | next _ h ih => exact le_trans ih (le_of_lt (hforward _ _ h))

/-- Nothing is skipped: the next offset is the lowest that is reached above. -/
theorem Reached.next_le (hforward : Forward next) {i j : α} (hi : Reached next first i)
    (hj : Reached next first j) (hlt : i < j) : ∃ k, next i = some k ∧ k ≤ j := by
  rcases hi.total hj with h | h
  · rcases reached_some_iff.mp h with rfl | h
    · exact absurd hlt (lt_irrefl j)
    · cases hnext : next i with
      | none =>
        rw [hnext] at h
        exact absurd h (not_reached_none j)
      | some k =>
        rw [hnext] at h
        exact ⟨k, rfl, h.first_le hforward⟩
  · exact absurd (h.first_le hforward) (not_le.mpr hlt)

/-- Two sweeps over the same offsets go on alike. -/
theorem next_eq_of_reached_iff (hnext : Forward next) (hother : Forward other)
    (hsame : ∀ i, Reached other first i ↔ Reached next first i) {i : α} (hi : Reached next first i) :
    other i = next i := by
  have hi' := (hsame i).mpr hi
  cases hn : next i with
  | some k =>
    have hk := hi.next hn
    obtain ⟨k', ho, hle⟩ := hi'.next_le hother ((hsame k).mpr hk) (hnext _ _ hn)
    have hk' := (hsame k').mp (hi'.next ho)
    obtain ⟨m, hm, hle'⟩ := hi.next_le hnext hk' (hother _ _ ho)
    cases hn.symm.trans hm
    rw [ho, le_antisymm hle hle']
  | none =>
    cases ho : other i with
    | none => rfl
    | some k =>
      have hk := (hsame k).mp (hi'.next ho)
      obtain ⟨m, hm, -⟩ := hi.next_le hnext hk (hother _ _ ho)
      rw [hn] at hm
      cases hm

/-- **Two sweeps stop at the same offsets exactly when** they go on alike at each. -/
theorem reached_iff_agree (hnext : Forward next) (hother : Forward other) :
    (∀ i, Reached other first i ↔ Reached next first i) ↔
      ∀ i, Reached next first i → other i = next i := by
  constructor
  · exact fun hsame i hi => next_eq_of_reached_iff hnext hother hsame hi
  · intro hagree i
    constructor
    · intro h
      induction h with
      | first h => exact .first h
      | next _ h ih => exact ih.next ((hagree _ ih).symm.trans h)
    · intro h
      induction h with
      | first h => exact .first h
      | next hi h ih => exact ih.next ((hagree _ hi).trans h)

end Linear

/-! ## Items in a list

The head of an item says how long it is; an item that would begin behind the end of the list is not read. -/

/-- An offset inside the list. -/
def inside (code : List α) (i : ℕ) : Option ℕ := if i < code.length then some i else none

/-- The offset behind the item at `i`. -/
def follow (length : α → ℕ) (code : List α) (i : ℕ) : Option ℕ :=
  code[i]?.bind fun a => inside code (i + length a)

theorem inside_eq_some {code : List α} {i j : ℕ} : inside code i = some j ↔ i < code.length ∧ i = j := by
  unfold inside
  split_ifs with h <;> simp [h]

theorem inside_eq_inside {code : List α} {i j : ℕ} :
    inside code i = inside code j ↔ i = j ∨ (code.length ≤ i ∧ code.length ≤ j) := by
  unfold inside
  split_ifs <;> simp <;> omega

theorem forward_follow {length : α → ℕ} (hpos : ∀ a, 0 < length a) (code : List α) :
    Forward (follow length code) := by
  intro i j h
  obtain ⟨a, -, ha⟩ := Option.bind_eq_some_iff.mp h
  obtain ⟨-, rfl⟩ := inside_eq_some.mp ha
  have := hpos a
  omega

theorem Reached.lt_length {length : α → ℕ} {code : List α} {i : ℕ}
    (h : Reached (follow length code) (inside code 0) i) : i < code.length := by
  cases h with
  | first h =>
    obtain ⟨hlt, rfl⟩ := inside_eq_some.mp h
    exact hlt
  | next _ h =>
    obtain ⟨a, -, ha⟩ := Option.bind_eq_some_iff.mp h
    obtain ⟨hlt, rfl⟩ := inside_eq_some.mp ha
    exact hlt

/-- **Two ways to measure items cut a list alike exactly when** they give every item that is reached the
same length, or both read past the end. -/
theorem reached_follow_iff {length other : α → ℕ} (hlength : ∀ a, 0 < length a)
    (hother : ∀ a, 0 < other a) (code : List α) :
    (∀ i, Reached (follow other code) (inside code 0) i ↔ Reached (follow length code) (inside code 0) i) ↔
      ∀ i a, Reached (follow length code) (inside code 0) i → code[i]? = some a →
        other a = length a ∨ (code.length ≤ i + other a ∧ code.length ≤ i + length a) := by
  rw [reached_iff_agree (forward_follow hlength code) (forward_follow hother code)]
  constructor
  · intro h i a hi ha
    have hsame := h i hi
    rw [follow, follow, ha, Option.bind_some, Option.bind_some, inside_eq_inside] at hsame
    omega
  · intro h i hi
    have hlt := hi.lt_length
    have ha : code[i]? = some code[i] := List.getElem?_eq_getElem hlt
    have hsame := h i code[i] hi ha
    rw [follow, follow, ha, Option.bind_some, Option.bind_some, inside_eq_inside]
    omega

end Sweep
