import Mathlib.Logic.Relation
import Mathlib.Order.WellFounded

/-!
# Lib.Machine — deterministic machines and their halting

A machine takes one step at a time: it moves on to a state or stops with a result.  `run` gives it
fuel; `Halts` says that some fuel is enough.  Two rules decide halting: a measure that every step
lowers, and an invariant under which no step stops.  `run_of_measure` gives the result as well, and
`run_lockstep` compares two machines on the same states, `agree_iff` two on their own.
-/

namespace Machine

/-- What one step does. -/
inductive Step (σ ρ : Type*)
  | next (s : σ)
  | stop (r : ρ)

variable {σ ρ : Type*}

/-- At most `fuel` steps from a state. -/
def run (step : σ → Step σ ρ) : ℕ → σ → Option ρ
  | 0, _ => none
  | fuel + 1, s =>
    match step s with
    | .next s' => run step fuel s'
    | .stop r => some r

/-- The machine stops after finitely many steps. -/
def Halts (step : σ → Step σ ρ) (s : σ) : Prop := ∃ fuel r, run step fuel s = some r

/-- The states of the run from a state. -/
def Reaches (step : σ → Step σ ρ) : σ → σ → Prop :=
  Relation.ReflTransGen fun s s' => step s = .next s'

variable {step : σ → Step σ ρ} {s s' : σ} {r : ρ}

theorem run_next (h : step s = .next s') (fuel : ℕ) : run step (fuel + 1) s = run step fuel s' := by
  rw [run, h]

theorem run_stop (h : step s = .stop r) (fuel : ℕ) : run step (fuel + 1) s = some r := by
  rw [run, h]

/-- Any fuel that is enough gives the same result. -/
theorem run_unique {fuel fuel' : ℕ} {r' : ρ} (h : run step fuel s = some r)
    (h' : run step fuel' s = some r') : r = r' := by
  induction fuel generalizing fuel' s with
  | zero => cases h
  | succ fuel ih =>
    cases fuel' with
    | zero => cases h'
    | succ fuel' =>
      cases hs : step s with
      | stop t =>
        rw [run_stop hs] at h h'
        cases h
        exact Option.some.inj h'
      | next t =>
        rw [run_next hs] at h h'
        exact ih h h'

/-- The result of a run that reaches its last state. -/
theorem Reaches.run_eq (h : Reaches step s s') (hs : step s' = .stop r) :
    ∃ fuel, run step fuel s = some r := by
  induction h using Relation.ReflTransGen.head_induction_on with
  | refl => exact ⟨1, run_stop hs 0⟩
  | head hstep _ ih =>
    obtain ⟨fuel, hr⟩ := ih
    exact ⟨fuel + 1, by rw [run_next hstep, hr]⟩

theorem Halts.of_reaches (h : Reaches step s s') (hs : Halts step s') : Halts step s := by
  induction h using Relation.ReflTransGen.head_induction_on with
  | refl => exact hs
  | head hstep _ ih =>
    obtain ⟨fuel, r, hr⟩ := ih
    exact ⟨fuel + 1, r, by rw [run_next hstep, hr]⟩

/-- A run that has a result reaches a last state. -/
theorem reaches_of_run {fuel : ℕ} (h : run step fuel s = some r) :
    ∃ t, Reaches step s t ∧ step t = .stop r := by
  induction fuel generalizing s with
  | zero => cases h
  | succ fuel ih =>
    cases hs : step s with
    | stop r' =>
      rw [run_stop hs] at h
      cases h
      exact ⟨s, .refl, hs⟩
    | next s' =>
      rw [run_next hs] at h
      obtain ⟨t, ht, hstop⟩ := ih h
      exact ⟨t, .head hs ht, hstop⟩

/-- A machine that halts reaches a last state. -/
theorem Halts.last (h : Halts step s) : ∃ t r, Reaches step s t ∧ step t = .stop r := by
  obtain ⟨fuel, r, hr⟩ := h
  obtain ⟨t, ht, hstop⟩ := reaches_of_run hr
  exact ⟨t, r, ht, hstop⟩

/-- Nothing comes after a last state. -/
theorem Reaches.eq_of_stop (h : Reaches step s s') (hs : step s = .stop r) : s' = s := by
  rcases h.cases_head with rfl | ⟨t, ht, -⟩
  · rfl
  · rw [hs] at ht
    cases ht

/-- **Measure rule**: a machine halts when every step of its run lowers a well-founded measure. -/
theorem halts_of_measure {α : Type*} {lt : α → α → Prop} (hwf : WellFounded lt) (m : σ → α)
    (hstep : ∀ t t', Reaches step s t → step t = .next t' → lt (m t') (m t)) : Halts step s := by
  induction hm : m s using hwf.induction generalizing s with
  | h a ih =>
    subst hm
    cases hs : step s with
    | stop r => exact ⟨1, r, run_stop hs 0⟩
    | next s' =>
      have hlt := hstep s s' .refl hs
      obtain ⟨fuel, r, hr⟩ := ih (m s') hlt (fun t t' ht => hstep t t' (.head hs ht)) rfl
      exact ⟨fuel + 1, r, by rw [run_next hs, hr]⟩

/-- **Invariant rule**: what every step keeps holds in every state of the run. -/
theorem Reaches.invariant (Inv : σ → Prop) (h : Reaches step s s') (hs : Inv s)
    (hstep : ∀ t t', Inv t → step t = .next t' → Inv t') : Inv s' := by
  induction h with
  | refl => exact hs
  | tail _ ht ih => exact hstep _ _ ih ht

/-- **Lock-step rule**: two machines that move alike and stop with related results, in every state of an
invariant, have related runs. -/
theorem run_lockstep {ρ' : Type*} {step' : σ → Step σ ρ'} (Inv : σ → Prop) (R : ρ → ρ' → Prop)
    (hstep : ∀ s, Inv s →
      (∃ s', step s = .next s' ∧ step' s = .next s' ∧ Inv s') ∨
      ∃ r r', step s = .stop r ∧ step' s = .stop r' ∧ R r r')
    (h : Inv s) (fuel : ℕ) : Option.Rel R (run step fuel s) (run step' fuel s) := by
  induction fuel generalizing s with
  | zero => exact .none
  | succ fuel ih =>
    rcases hstep s h with ⟨s', hs, hs', hinv⟩ | ⟨r, r', hs, hs', hr⟩
    · rw [run_next hs, run_next hs']
      exact ih hinv
    · rw [run_stop hs, run_stop hs']
      exact .some hr

/-- **Loop rule**: under an invariant that no step leaves or stops in, a machine does not halt. -/
theorem not_halts_of_invariant (Inv : σ → Prop)
    (hstep : ∀ s, Inv s → ∃ s', step s = .next s' ∧ Inv s') (h : Inv s) : ¬ Halts step s := by
  rintro ⟨fuel, r, hr⟩
  induction fuel generalizing s with
  | zero => cases hr
  | succ fuel ih =>
    obtain ⟨s', hs, hinv⟩ := hstep s h
    rw [run_next hs] at hr
    exact ih hinv hr

/-- A test that holds in every state of a run that stops within the fuel. -/
def everywhere (step : σ → Step σ ρ) (p : σ → Bool) : ℕ → σ → Bool
  | 0, _ => false
  | fuel + 1, s =>
    p s &&
      match step s with
      | .next s' => everywhere step p fuel s'
      | .stop _ => true

theorem Reaches.of_everywhere {p : σ → Bool} {fuel : ℕ} (h : Reaches step s s')
    (hall : everywhere step p fuel s = true) : p s' = true := by
  induction fuel generalizing s with
  | zero => cases hall
  | succ fuel ih =>
    rw [everywhere, Bool.and_eq_true] at hall
    rcases h.cases_head with rfl | ⟨t, ht, hreaches⟩
    · exact hall.1
    · rw [ht] at hall
      exact ih hreaches hall.2

/-! ## Total correctness -/

/-- A step that keeps an invariant and what is still to come, and lowers a measure; the last one gives what
was to come. -/
inductive Descends (step : σ → Step σ ρ) (Inv : σ → Prop) (m : σ → ℕ) (meaning : σ → ρ) (s : σ) : Prop
  | next {s' : σ} (h : step s = .next s') (hinv : Inv s') (hlt : m s' < m s)
      (hmeaning : meaning s' = meaning s)
  | stop (h : step s = .stop (meaning s))

/-- **Total-correctness rule**: fuel above the measure is enough, and the result is the meaning of the first
state. -/
theorem run_of_measure {Inv : σ → Prop} {m : σ → ℕ} {meaning : σ → ρ}
    (hstep : ∀ t, Inv t → Descends step Inv m meaning t) (hs : Inv s) {fuel : ℕ} (hfuel : m s < fuel) :
    run step fuel s = some (meaning s) := by
  induction fuel generalizing s with
  | zero => exact absurd hfuel (Nat.not_lt_zero _)
  | succ fuel ih =>
    cases hstep s hs with
    | next h hinv hlt hmeaning => rw [run_next h, ih hinv (by omega), hmeaning]
    | stop h => exact run_stop h fuel

/-! ## Two machines side by side -/

section Beside

variable {τ : Type*} {next : τ → τ} {t : τ}

/-- The states of a machine and of a companion after the same number of rounds. -/
inductive Beside (step : σ → Step σ ρ) (next : τ → τ) (s : σ) (t : τ) : σ → τ → Prop
  | start : Beside step next s t s t
  | round {s' s'' : σ} {t' : τ} (h : Beside step next s t s' t') (hs : step s' = .next s'') :
      Beside step next s t s'' (next t')

/-- **Agreement rule**: let `R` relate states that agree, and let a round from related states give related
states when it is good and no agreement when it is not.  Then the two agree after every round exactly when
every round is good. -/
theorem agree_iff {R Agree : σ → τ → Prop} {Good : σ → Prop}
    (hagree : ∀ s t, R s t → Agree s t)
    (hkeeps : ∀ s t s', R s t → step s = .next s' → Good s → R s' (next t))
    (hparts : ∀ s t s', R s t → step s = .next s' → Agree s' (next t) → Good s)
    (hlast : ∀ s' r, Reaches step s s' → step s' = .stop r → Good s') (h : R s t) :
    (∀ s' t', Beside step next s t s' t' → Agree s' t') ↔ ∀ s', Reaches step s s' → Good s' := by
  constructor
  · intro hall s' hs'
    -- as long as they agree, the rounds before were good and the states are related
    have hrelated : ∃ t', Beside step next s t s' t' ∧ R s' t' := by
      induction hs' with
      | refl => exact ⟨t, .start, h⟩
      | tail _ hstep ih =>
        obtain ⟨t', hbeside, hR⟩ := ih
        have hgood := hparts _ _ _ hR hstep (hall _ _ (hbeside.round hstep))
        exact ⟨next t', hbeside.round hstep, hkeeps _ _ _ hR hstep hgood⟩
    obtain ⟨t', hbeside, hR⟩ := hrelated
    cases hstep : step s' with
    | next s'' => exact hparts _ _ _ hR hstep (hall _ _ (hbeside.round hstep))
    | stop r => exact hlast s' r hs' hstep
  · intro hgood s' t' hbeside
    have hrelated : Reaches step s s' ∧ R s' t' := by
      induction hbeside with
      | start => exact ⟨.refl, h⟩
      | round _ hstep ih =>
        exact ⟨ih.1.tail hstep, hkeeps _ _ _ ih.2 hstep (hgood _ ih.1)⟩
    exact hagree _ _ hrelated.2

end Beside

/-! ## Traces -/

section Trace

variable {α β : Type*}

/-- What the steps of a run that move on emit, in order. -/
def trace (step : σ → Step σ ρ) (emit : σ → List α) : ℕ → σ → List α
  | 0, _ => []
  | fuel + 1, s =>
    match step s with
    | .next s' => emit s ++ trace step emit fuel s'
    | .stop _ => []

/-- **Trace rule**: a part of the state that every step changes by what it emits is changed by a run
by its trace. -/
theorem run_foldl_trace {emit : σ → List α} {apply : β → α → β} (view : σ → β) (viewEnd : ρ → β)
    (hnext : ∀ t t', step t = .next t' → view t' = (emit t).foldl apply (view t))
    (hstop : ∀ t r, step t = .stop r → viewEnd r = view t) {fuel : ℕ} (h : run step fuel s = some r) :
    viewEnd r = (trace step emit fuel s).foldl apply (view s) := by
  induction fuel generalizing s with
  | zero => cases h
  | succ fuel ih =>
    cases hs : step s with
    | stop r' =>
      rw [run_stop hs] at h
      cases h
      rw [trace, hs]
      exact hstop s r hs
    | next s' =>
      rw [run_next hs] at h
      rw [trace, hs]
      dsimp only
      rw [List.foldl_append, ← hnext s s' hs]
      exact ih h

end Trace

end Machine
