import Mathlib.Data.List.Basic

/-!
# Lib.Delimited — texts cut at a separator

`cut sep s` is the text before the first separator of `s` and the text behind it.  A text without the
separator is read back from in front of one (`cut_append`), so it is determined by the whole
(`append_sep_inj`), and so is a list of texts that each end in one (`ends_injective`).  Two texts around
a separator are determined by the whole exactly when neither holds another (`join_unique_iff`).
-/

namespace Delimited

variable {α β : Type*}

/-- The text before the first separator and the text behind it; `none` without a separator. -/
def cut [DecidableEq α] (sep : α) : List α → Option (List α × List α)
  | [] => none
  | a :: s => if a = sep then some ([], s) else (cut sep s).map fun p => (a :: p.1, p.2)

variable {sep : α}

theorem cut_append [DecidableEq α] {s : List α} (h : sep ∉ s) (t : List α) :
    cut sep (s ++ sep :: t) = some (s, t) := by
  induction s with
  | nil => exact if_pos rfl
  | cons a s ih =>
    rw [List.mem_cons, not_or] at h
    rw [List.cons_append, cut, if_neg (Ne.symm h.1), ih h.2]
    rfl

theorem cut_eq_none [DecidableEq α] {s : List α} : cut sep s = none ↔ sep ∉ s := by
  induction s with
  | nil => exact iff_of_true rfl List.not_mem_nil
  | cons a s ih =>
    rw [cut, List.mem_cons, not_or, ← ih]
    split_ifs with h
    · exact iff_of_false (fun hnone => nomatch hnone) fun hboth => hboth.1 h.symm
    · rw [Option.map_eq_none_iff]
      exact (and_iff_right (Ne.symm h)).symm

theorem cut_eq_some [DecidableEq α] {s u t : List α} :
    cut sep s = some (u, t) ↔ s = u ++ sep :: t ∧ sep ∉ u := by
  constructor
  · intro h
    induction s generalizing u with
    | nil => cases h
    | cons a s ih =>
      rw [cut] at h
      split_ifs at h with ha
      · cases h
        subst ha
        exact ⟨rfl, List.not_mem_nil⟩
      · obtain ⟨⟨v, t'⟩, hcut, hp⟩ := Option.map_eq_some_iff.mp h
        cases hp
        obtain ⟨rfl, hv⟩ := ih hcut
        exact ⟨rfl, List.mem_cons.not.mpr (not_or.mpr ⟨Ne.symm ha, hv⟩)⟩
  · rintro ⟨rfl, hu⟩
    exact cut_append hu t

/-- The first separator determines the text before it and the text behind it. -/
theorem append_sep_inj [DecidableEq α] {s s' t t' : List α} (hs : sep ∉ s) (hs' : sep ∉ s')
    (h : s ++ sep :: t = s' ++ sep :: t') : s = s' ∧ t = t' := by
  have hcut := cut_append hs t
  rw [h, cut_append hs'] at hcut
  cases hcut
  exact ⟨rfl, rfl⟩

/-- The last separator determines the text before it and the text behind it. -/
theorem append_sep_inj_last [DecidableEq α] {s s' t t' : List α} (ht : sep ∉ t) (ht' : sep ∉ t')
    (h : s ++ sep :: t = s' ++ sep :: t') : s = s' ∧ t = t' := by
  have hrev := congrArg List.reverse h
  rw [List.reverse_append, List.reverse_append, List.reverse_cons, List.reverse_cons,
    List.append_assoc, List.append_assoc] at hrev
  obtain ⟨htt, hss⟩ := append_sep_inj (mt List.mem_reverse.mp ht) (mt List.mem_reverse.mp ht') hrev
  exact ⟨List.reverse_injective hss, List.reverse_injective htt⟩

/-- Two texts around a separator can be told apart exactly when neither holds it. -/
theorem join_unique_iff [DecidableEq α] (s t : List α) :
    (∀ s' t', s ++ sep :: t = s' ++ sep :: t' → s = s' ∧ t = t') ↔ sep ∉ s ∧ sep ∉ t := by
  constructor
  · refine fun h => ⟨fun hs => ?_, fun ht => ?_⟩
    · obtain ⟨a, b, hab⟩ := List.append_of_mem hs
      have hlen := congrArg List.length (h a (b ++ sep :: t) (by rw [hab, List.append_assoc]; rfl)).1
      rw [hab, List.length_append, List.length_cons] at hlen
      omega
    · obtain ⟨a, b, hab⟩ := List.append_of_mem ht
      have hlen := congrArg List.length (h (s ++ sep :: a) b (by rw [hab, List.append_assoc]; rfl)).1
      rw [List.length_append, List.length_cons] at hlen
      omega
  · rintro ⟨hs, ht⟩ s' t' h
    -- the whole text holds one separator, so the other two texts hold none
    have hcount := congrArg (List.count sep) h
    rw [List.count_append, List.count_append, List.count_cons_self, List.count_cons_self,
      List.count_eq_zero_of_not_mem hs, List.count_eq_zero_of_not_mem ht] at hcount
    exact append_sep_inj hs (List.count_eq_zero.mp (by omega)) h

/-- Texts that each end in the separator. -/
def ends (sep : α) (f : β → List α) (l : List β) : List α := l.flatMap fun b => f b ++ [sep]

theorem ends_cons (f : β → List α) (b : β) (l : List β) :
    ends sep f (b :: l) = f b ++ sep :: ends sep f l := by
  rw [ends, List.flatMap_cons, List.append_assoc]
  rfl

theorem ends_injective [DecidableEq α] {f : β → List α} (hf : Function.Injective f) (hsep : ∀ b, sep ∉ f b) :
    Function.Injective (ends sep f) := by
  intro l l' h
  induction l generalizing l' with
  | nil =>
    cases l' with
    | nil => rfl
    | cons b l' =>
      rw [ends_cons] at h
      exact absurd h.symm (by simp [ends])
  | cons a l ih =>
    cases l' with
    | nil =>
      rw [ends_cons] at h
      exact absurd h (by simp [ends])
    | cons b l' =>
      rw [ends_cons, ends_cons] at h
      obtain ⟨hab, hrest⟩ := append_sep_inj (hsep a) (hsep b) h
      rw [hf hab, ih hrest]

end Delimited
