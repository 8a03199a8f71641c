import Mermai.Lib.Run
import Mathlib.Data.List.Basic

/-!
# Lib.Network — parties that send each other messages

A party reacts to an event with a new state and with messages to anybody.  An event may deliver a message;
the network delivers only what was sent (`Faithful`), but in any order, any number of times, to any party,
or never.

* `invariant` — a property of the parties and one of the messages that every reaction keeps up, each under
  the other, hold in every world of a run;
* `state_run` — what a party is in after a run is what its own events make of it: a fact about one party
  holds whatever the others and the network do;
* `trace` — what the reactions of a run put out, and `mem_trace`.
-/

namespace Network

variable {ι σ ε μ β : Type}

/-- Parties `ι` with states `σ` that react to events `ε` and send messages `μ`. -/
structure Protocol (ι σ ε μ : Type) where
  /-- The state behind an event, and the messages that are sent. -/
  react : ι → σ → ε → σ × List μ
  /-- The message that an event delivers. -/
  delivers : ε → Option μ

/-- The states of the parties, and everything that was sent. -/
structure World (ι σ μ : Type) where
  state : ι → σ
  sent : List μ

section Runs

variable [DecidableEq ι] (P : Protocol ι σ ε μ)

/-- A party reacts. -/
def Protocol.step (w : World ι σ μ) (a : ι × ε) : World ι σ μ where
  state := Function.update w.state a.1 (P.react a.1 (w.state a.1) a.2).1
  sent := w.sent ++ (P.react a.1 (w.state a.1) a.2).2

/-- The world behind a run. -/
def Protocol.run (w : World ι σ μ) (acts : List (ι × ε)) : World ι σ μ := acts.foldl P.step w

/-- The network delivers nothing that was not sent before. -/
def Protocol.Faithful : World ι σ μ → List (ι × ε) → Prop
  | _, [] => True
  | w, a :: acts => (∀ m ∈ P.delivers a.2, m ∈ w.sent) ∧ Protocol.Faithful (P.step w a) acts

instance Protocol.decidableFaithful [DecidableEq μ] :
    (w : World ι σ μ) → (acts : List (ι × ε)) → Decidable (P.Faithful w acts)
  | _, [] => isTrue trivial
  | w, a :: acts =>
    have := Protocol.decidableFaithful (P.step w a) acts
    inferInstanceAs (Decidable ((∀ m ∈ P.delivers a.2, m ∈ w.sent) ∧ P.Faithful (P.step w a) acts))

/-- What the reactions of a run put out. -/
def Protocol.trace (out : ι → σ → ε → List β) : World ι σ μ → List (ι × ε) → List β
  | _, [] => []
  | w, a :: acts => out a.1 (w.state a.1) a.2 ++ Protocol.trace out (P.step w a) acts

variable {P}

theorem Protocol.run_concat (w : World ι σ μ) (acts : List (ι × ε)) (a : ι × ε) :
    P.run w (acts ++ [a]) = P.step (P.run w acts) a := by
  simp [run, List.foldl_append]

theorem Protocol.step_state_self (w : World ι σ μ) (i : ι) (e : ε) :
    (P.step w (i, e)).state i = (P.react i (w.state i) e).1 := Function.update_self _ _ _

theorem Protocol.step_state_ne (w : World ι σ μ) {i j : ι} (h : j ≠ i) (e : ε) :
    (P.step w (i, e)).state j = w.state j := Function.update_of_ne h _ _

/-- Every delivery of a run was sent before it. -/
theorem Protocol.Faithful.sent {w : World ι σ μ} {acts pre : List (ι × ε)} {a : ι × ε}
    (h : P.Faithful w acts) (hpre : pre ++ [a] <+: acts) :
    ∀ m ∈ P.delivers a.2, m ∈ (P.run w pre).sent := by
  induction pre generalizing w acts with
  | nil =>
    obtain ⟨rest, rfl⟩ := hpre
    exact h.1
  | cons b pre ih =>
    obtain ⟨rest, rfl⟩ := hpre
    exact @ih (P.step w b) (pre ++ [a] ++ rest) h.2 ⟨rest, rfl⟩

/-- One more event puts out its own. -/
theorem Protocol.trace_concat (out : ι → σ → ε → List β) (w : World ι σ μ) (acts : List (ι × ε))
    (a : ι × ε) :
    P.trace out w (acts ++ [a]) = P.trace out w acts ++ out a.1 ((P.run w acts).state a.1) a.2 := by
  induction acts generalizing w with
  | nil => simp [trace, run]
  | cons b acts ih =>
    have hrest : P.run w (b :: acts) = P.run (P.step w b) acts := rfl
    rw [List.cons_append, trace, trace, ih, hrest, List.append_assoc]

/-- What a reaction of the run puts out is in its trace. -/
theorem Protocol.mem_trace {out : ι → σ → ε → List β} {w : World ι σ μ} {acts pre : List (ι × ε)}
    {a : ι × ε} (hpre : pre ++ [a] <+: acts) {x : β}
    (hx : x ∈ out a.1 ((P.run w pre).state a.1) a.2) : x ∈ P.trace out w acts := by
  induction pre generalizing w acts with
  | nil =>
    obtain ⟨rest, rfl⟩ := hpre
    exact List.mem_append_left _ hx
  | cons b pre ih =>
    obtain ⟨rest, rfl⟩ := hpre
    exact List.mem_append_right _ (@ih (P.step w b) (pre ++ [a] ++ rest) ⟨rest, rfl⟩ hx)

/-- Everything in the trace was put out by some reaction. -/
theorem Protocol.exists_of_mem_trace {out : ι → σ → ε → List β} {w : World ι σ μ}
    {acts : List (ι × ε)} {x : β} (hx : x ∈ P.trace out w acts) :
    ∃ pre a, pre ++ [a] <+: acts ∧ x ∈ out a.1 ((P.run w pre).state a.1) a.2 := by
  induction acts generalizing w with
  | nil => cases hx
  | cons a acts ih =>
    rcases List.mem_append.mp hx with hx | hx
    · exact ⟨[], a, ⟨acts, rfl⟩, hx⟩
    · obtain ⟨pre, b, ⟨rest, hrest⟩, hb⟩ := ih hx
      exact ⟨a :: pre, b, ⟨rest, by rw [← hrest]; rfl⟩, hb⟩

/-- **Invariant rule**: what every reaction of the run keeps up, about its party under what holds of the
messages and about the messages under what holds of the parties. -/
theorem Protocol.invariant {I : ι → σ → Prop} {Q : μ → Prop} {w : World ι σ μ}
    {acts : List (ι × ε)} (hfaith : P.Faithful w acts) (hI : ∀ i, I i (w.state i))
    (hQ : ∀ m ∈ w.sent, Q m)
    (hstep : ∀ pre i e, pre ++ [(i, e)] <+: acts → I i ((P.run w pre).state i) →
      (∀ m ∈ P.delivers e, Q m) → I i (P.react i ((P.run w pre).state i) e).1 ∧
        ∀ m ∈ (P.react i ((P.run w pre).state i) e).2, Q m)
    {pre : List (ι × ε)} (hpre : pre <+: acts) :
    (∀ i, I i ((P.run w pre).state i)) ∧ ∀ m ∈ (P.run w pre).sent, Q m := by
  refine Run.foldl_invariant (fun w : World ι σ μ => (∀ i, I i (w.state i)) ∧ ∀ m ∈ w.sent, Q m)
    ⟨hI, hQ⟩ ?_ hpre
  rintro pre ⟨i, e⟩ hpre ⟨ihI, ihQ⟩
  obtain ⟨hi, hsent⟩ := hstep pre i e hpre (ihI i) fun m hm => ihQ m (hfaith.sent hpre m hm)
  refine ⟨?_, ?_⟩
  · intro j
    by_cases hj : j = i
    · subst hj
      rw [Protocol.step_state_self]
      exact hi
    · rw [Protocol.step_state_ne _ hj]
      exact ihI j
  · intro m hm
    rcases List.mem_append.mp hm with hm | hm
    · exact ihQ m hm
    · exact hsent m hm

/-- The events of a party. -/
def eventsOf (i : ι) (acts : List (ι × ε)) : List ε :=
  acts.filterMap fun a => if a.1 = i then some a.2 else none

/-- **Projection**: the state of a party is what its own events make of it. -/
theorem Protocol.state_run (w : World ι σ μ) (acts : List (ι × ε)) (i : ι) :
    (P.run w acts).state i =
      (eventsOf i acts).foldl (fun s e => (P.react i s e).1) (w.state i) := by
  induction acts using List.reverseRecOn with
  | nil => rfl
  | append_singleton acts a ih =>
    obtain ⟨j, e⟩ := a
    rw [Protocol.run_concat, eventsOf, List.filterMap_append, List.foldl_append]
    by_cases hj : i = j
    · subst hj
      rw [Protocol.step_state_self, ih]
      simp [eventsOf]
    · rw [Protocol.step_state_ne _ hj, ih]
      simp [eventsOf, Ne.symm hj]

theorem eventsOf_prefix (i : ι) {pre acts : List (ι × ε)} (h : pre <+: acts) :
    eventsOf i pre <+: eventsOf i acts := by
  obtain ⟨rest, rfl⟩ := h
  rw [eventsOf, eventsOf, List.filterMap_append]
  exact List.prefix_append _ _

end Runs

end Network
