import Mathlib.Algebra.BigOperators.Group.List.Basic
import Mathlib.Algebra.GroupWithZero.Nat
import Mathlib.Data.List.Nodup
import Mathlib.Tactic.Common

/-!
# Lib.Quorum — weighted quorums over a list of members

`weight w p l` is the weight of the members of `l` with `p`.  Two sets of members overlap in at least
what their weights exceed the total by (`weight_add_le`), so two quorums of two thirds share one
third (`third_of_two_thirds`).  `weight_insert` counts a member that joins a set.
-/

namespace Quorum

variable {α κ : Type}

/-- The weight of the members with `p`. -/
def weight (w : α → ℕ) (p : α → Bool) (l : List α) : ℕ := ((l.filter p).map w).sum

/-- The weight of all members. -/
def total (w : α → ℕ) (l : List α) : ℕ := (l.map w).sum

@[simp] theorem weight_nil (w : α → ℕ) (p : α → Bool) : weight w p [] = 0 := rfl

theorem weight_cons (w : α → ℕ) (p : α → Bool) (a : α) (l : List α) :
    weight w p (a :: l) = (if p a then w a else 0) + weight w p l := by
  unfold weight
  by_cases h : p a = true <;> simp [h]

@[simp] theorem total_nil (w : α → ℕ) : total w [] = 0 := rfl

@[simp] theorem total_cons (w : α → ℕ) (a : α) (l : List α) :
    total w (a :: l) = w a + total w l := by simp [total]

theorem weight_le_total (w : α → ℕ) (p : α → Bool) (l : List α) : weight w p l ≤ total w l := by
  induction l with
  | nil => simp
  | cons a l ih =>
    rw [weight_cons, total_cons]
    split_ifs <;> omega

theorem weight_append (w : α → ℕ) (p : α → Bool) (l l' : List α) :
    weight w p (l ++ l') = weight w p l + weight w p l' := by
  simp [weight]

/-- Members without `p` may leave. -/
theorem weight_filter {w : α → ℕ} {p q : α → Bool} {l : List α}
    (h : ∀ a ∈ l, p a = true → q a = true) : weight w p (l.filter q) = weight w p l := by
  unfold weight
  rw [List.filter_filter]
  congr 2
  refine List.filter_congr ?_
  intro a ha
  by_cases hp : p a = true
  · rw [hp, h a ha hp, Bool.and_true]
  · rw [Bool.eq_false_iff.mpr hp, Bool.false_and]

theorem le_total_of_mem (w : α → ℕ) {a : α} {l : List α} (h : a ∈ l) : w a ≤ total w l := by
  obtain ⟨l₁, l₂, rfl⟩ := List.append_of_mem h
  simp only [total, List.map_append, List.map_cons, List.sum_append, List.sum_cons]
  omega

theorem weight_congr {w : α → ℕ} {p q : α → Bool} {l : List α} (h : ∀ a ∈ l, p a = q a) :
    weight w p l = weight w q l := by
  rw [weight, weight, List.filter_congr h]

/-- A larger set has at least the weight. -/
theorem weight_mono {w : α → ℕ} {p q : α → Bool} {l : List α}
    (h : ∀ a ∈ l, p a = true → q a = true) : weight w p l ≤ weight w q l := by
  induction l with
  | nil => simp
  | cons a l ih =>
    simp only [List.mem_cons, forall_eq_or_imp] at h
    have := ih h.2
    rw [weight_cons, weight_cons]
    by_cases hp : p a = true
    · rw [if_pos hp, if_pos (h.1 hp)]
      omega
    · rw [if_neg hp]
      omega

/-- **Inclusion and exclusion**: two sets of members and their overlap. -/
theorem weight_add_le (w : α → ℕ) (p q : α → Bool) (l : List α) :
    weight w p l + weight w q l ≤ total w l + weight w (fun a => p a && q a) l := by
  induction l with
  | nil => simp
  | cons a l ih =>
    rw [weight_cons, weight_cons, weight_cons, total_cons]
    cases p a <;> cases q a <;> simp <;> omega

/-- **Overlap of quorums**: two sets with two thirds of the weight share one third. -/
theorem third_of_two_thirds {w : α → ℕ} {p q : α → Bool} {l : List α}
    (hp : 2 * total w l ≤ 3 * weight w p l) (hq : 2 * total w l ≤ 3 * weight w q l) :
    total w l ≤ 3 * weight w (fun a => p a && q a) l := by
  have := weight_add_le w p q l
  omega

/-- A member that joins a set adds its weight, when members have distinct keys. -/
theorem weight_insert [DecidableEq κ] (w : α → ℕ) (key : α → κ) {p : κ → Bool} {l : List α} {a : α}
    (hnd : (l.map key).Nodup) (ha : a ∈ l) (hp : p (key a) = false) :
    weight w (fun x => p (key x) || key x = key a) l = weight w (fun x => p (key x)) l + w a := by
  induction l with
  | nil => cases ha
  | cons x l ih =>
    rw [List.map_cons, List.nodup_cons] at hnd
    rw [weight_cons, weight_cons]
    by_cases hx : key x = key a
    · -- the member is `x`: nobody else has its key
      have hxa : x = a := by
        rcases List.mem_cons.mp ha with rfl | ha
        · rfl
        · exact absurd (hx ▸ List.mem_map_of_mem ha) hnd.1
      have hrest : weight w (fun y => p (key y) || key y = key a) l =
          weight w (fun y => p (key y)) l := by
        refine weight_congr ?_
        intro y hy
        have : key y ≠ key a := fun h => hnd.1 (hx ▸ h ▸ List.mem_map_of_mem hy)
        simp [this]
      subst hxa
      rw [hrest]
      simp [hp]
      omega
    · have ha' : a ∈ l := by
        rcases List.mem_cons.mp ha with rfl | ha
        · exact absurd rfl hx
        · exact ha
      rw [ih hnd.2 ha']
      simp [hx]
      omega

end Quorum
