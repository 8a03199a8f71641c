import Mathlib.Algebra.Group.Nat.Defs
import Mathlib.Data.List.Infix
import Mathlib.Data.List.Nodup
import Mathlib.Logic.Function.Basic

/-!
# Lib.Run — invariants along guarded runs

A run is a fold of a step over a list of calls, and the states it passes are the folds over the
prefixes of the list.  `foldl_invariant` is the induction for a step that keeps an invariant under a
guard on the state before it and the call, `foldlM_invariant` the one for a step that can fail, and
`foldlM_refines` carries such a run over to another state.  `breakLoop` is the loop of a program that
breaks where a step fails.  Calls that answer leave a log of the calls and the answers (`log`).

A run of writes to a map is the special case whose last state is known: the last write of a key is
what the map has there (`foldl_write`), and renaming keys and values renames the map (`written_map`).
-/

namespace Run

variable {σ ι : Type}

/-- **Guarded invariant**: it holds at the start and every call of the run keeps it, so it holds
after every prefix. -/
theorem foldl_invariant {step : σ → ι → σ} {s₀ : σ} (Inv : σ → Prop) {calls : List ι}
    (hstart : Inv s₀)
    (hstep : ∀ pre call, pre ++ [call] <+: calls → Inv (pre.foldl step s₀) →
      Inv (step (pre.foldl step s₀) call))
    {pre : List ι} (hpre : pre <+: calls) : Inv (pre.foldl step s₀) := by
  induction pre using List.reverseRecOn with
  | nil => exact hstart
  | append_singleton pre call ih =>
    rw [List.foldl_append]
    exact hstep pre call hpre (ih ((List.prefix_append pre [call]).trans hpre))

/-- The same for a step that can fail: a run that succeeds keeps what every successful step keeps. -/
theorem foldlM_invariant {step : σ → ι → Option σ} (Inv : σ → Prop)
    (hstep : ∀ s i s', Inv s → step s i = some s' → Inv s') {l : List ι} {s s' : σ} (hs : Inv s)
    (h : l.foldlM step s = some s') : Inv s' := by
  induction l generalizing s with
  | nil =>
    cases h
    exact hs
  | cons i l ih =>
    rw [List.foldlM_cons, Option.bind_eq_bind, Option.bind_eq_some_iff] at h
    obtain ⟨m, hm, h⟩ := h
    exact ih (hstep s i m hs hm) h

/-- **Refinement** of a step that can fail: a view that every step commutes with commutes with runs. -/
theorem foldlM_refines {τ : Type} {step : σ → ι → Option σ} {step' : τ → ι → Option τ} (view : σ → τ)
    {l : List ι} (hstep : ∀ s, ∀ i ∈ l, (step s i).map view = step' (view s) i) (s : σ) :
    (l.foldlM step s).map view = l.foldlM step' (view s) := by
  induction l generalizing s with
  | nil => rfl
  | cons i l ih =>
    have hhead := hstep s i List.mem_cons_self
    rw [List.foldlM_cons, List.foldlM_cons, ← hhead]
    cases step s i with
    | none => rfl
    | some s' => exact ih (fun s j hj => hstep s j (List.mem_cons_of_mem i hj)) s'

/-! ## Loops that break -/

section Break

/-- A loop that breaks at the first round that returns false, and leaves what was done up to there. -/
def breakLoop (body : σ → ι → Bool × σ) : σ → List ι → Bool × σ
  | s, [] => (true, s)
  | s, i :: rest =>
    match body s i with
    | (true, s') => breakLoop body s' rest
    | (false, s') => (false, s')

theorem breakLoop_cons_eq_true {body : σ → ι → Bool × σ} {s s' : σ} {i : ι} {l : List ι} :
    breakLoop body s (i :: l) = (true, s') ↔
      ∃ m, body s i = (true, m) ∧ breakLoop body m l = (true, s') := by
  rw [breakLoop]
  generalize body s i = r
  obtain ⟨ok, m⟩ := r
  cases ok <;> simp

/-- What every round keeps that does not break, the loop keeps when none does. -/
theorem breakLoop_invariant {body : σ → ι → Bool × σ} (Inv : σ → Prop) {l : List ι}
    (hbody : ∀ s s', ∀ i ∈ l, Inv s → body s i = (true, s') → Inv s') {s s' : σ} (hs : Inv s)
    (h : breakLoop body s l = (true, s')) : Inv s' := by
  induction l generalizing s with
  | nil =>
    cases h
    exact hs
  | cons i l ih =>
    obtain ⟨m, hm, h⟩ := breakLoop_cons_eq_true.mp h
    refine ih (fun s s' j hj => hbody s s' j (List.mem_cons_of_mem i hj)) ?_ h
    exact hbody s m i List.mem_cons_self hs hm

/-- The flag and the state of a piece of code that is to do what a function does or fail with it. -/
def Follows (r : Bool × σ) : Option σ → Prop
  | none => r.1 = false
  | some s => r = (true, s)

/-- Code that stops where its first part fails. -/
theorem Follows.andThen {r : Bool × σ} {o : Option σ} (h : Follows r o) {next : σ → Bool × σ}
    {f : σ → Option σ} (hnext : ∀ s, Follows (next s) (f s)) :
    Follows (if ¬ r.1 then (false, r.2) else next r.2) (o.bind f) := by
  cases o with
  | none =>
    replace h : r.1 = false := h
    rw [h]
    rfl
  | some s =>
    replace h : r = (true, s) := h
    rw [h]
    exact hnext s

/-- A loop that breaks does what the run of a step that can fail does. -/
theorem breakLoop_follows {body : σ → ι → Bool × σ} {step : σ → ι → Option σ}
    (h : ∀ s i, Follows (body s i) (step s i)) (s : σ) (l : List ι) :
    Follows (breakLoop body s l) (l.foldlM step s) := by
  induction l generalizing s with
  | nil => rfl
  | cons i l ih =>
    have hround := h s i
    rw [List.foldlM_cons, breakLoop]
    cases hstep : step s i with
    | none =>
      rw [hstep] at hround
      replace hround : (body s i).1 = false := hround
      generalize body s i = r at hround
      obtain ⟨ok, s'⟩ := r
      cases hround
      rfl
    | some s' =>
      rw [hstep] at hround
      rw [show body s i = (true, s') from hround]
      exact ih s'

end Break

/-- The calls before a call of the run, by its position. -/
theorem prefix_concat {calls pre : List ι} {call : ι} (h : pre ++ [call] <+: calls) :
    pre = calls.take pre.length ∧ calls[pre.length]? = some call := by
  obtain ⟨rest, rfl⟩ := h
  refine ⟨?_, ?_⟩
  · rw [List.append_assoc, List.take_left]
  · rw [List.append_assoc, List.getElem?_append_right le_rfl]
    simp

/-! ## Calls that answer -/

section Log

variable {ρ : Type} (step : σ → ι → ρ × σ)

/-- The state after a run of calls. -/
def after (s : σ) (calls : List ι) : σ := calls.foldl (fun s call => (step s call).2) s

/-- The calls of a run with their answers. -/
def log (s : σ) : List ι → List (ι × ρ)
  | [] => []
  | call :: calls => (call, (step s call).1) :: log (step s call).2 calls

theorem after_append (s : σ) (calls calls' : List ι) :
    after step s (calls ++ calls') = after step (after step s calls) calls' :=
  List.foldl_append

theorem log_append (s : σ) (calls calls' : List ι) :
    log step s (calls ++ calls') = log step s calls ++ log step (after step s calls) calls' := by
  induction calls generalizing s with
  | nil => rfl
  | cons call calls ih =>
    rw [List.cons_append, log, ih, log, List.cons_append]
    rfl

theorem log_map_fst (s : σ) (calls : List ι) : (log step s calls).map Prod.fst = calls := by
  induction calls generalizing s with
  | nil => rfl
  | cons call calls ih => rw [log, List.map_cons, ih]

theorem log_concat (s : σ) (calls : List ι) (call : ι) :
    log step s (calls ++ [call]) =
      log step s calls ++ [(call, (step (after step s calls) call).1)] :=
  log_append step s calls [call]

end Log

/-- The numbers that a 64-bit counter gives out from one on differ until it wraps. -/
theorem nodup_counter {n : ℕ} (h : n < 2 ^ 64) :
    ((List.range n).map fun i => UInt64.ofNat (i + 1)).Nodup := by
  refine List.Nodup.map_on ?_ List.nodup_range
  intro i hi j hj heq
  have hnum := congrArg UInt64.toNat heq
  have hi' := List.mem_range.mp hi
  have hj' := List.mem_range.mp hj
  rw [UInt64.toNat_ofNat', UInt64.toNat_ofNat', Nat.mod_eq_of_lt (by omega),
    Nat.mod_eq_of_lt (by omega)] at hnum
  omega

/-! ## Writes -/

section Writes

variable {K V K' V' : Type} [DecidableEq K] [DecidableEq K']

/-- One write. -/
def write (m : K → Option V) (p : K × V) : K → Option V := Function.update m p.1 (some p.2)

/-- What is written last under a key. -/
def written (ps : List (K × V)) (k : K) : Option V := ps.reverse.lookup k

theorem written_concat (ps : List (K × V)) (p : K × V) (k : K) :
    written (ps ++ [p]) k = if k = p.1 then some p.2 else written ps k := by
  rw [written, List.reverse_concat, List.lookup_cons]
  by_cases h : k = p.1
  · simp [h]
  · rw [beq_false_of_ne h, if_neg h]
    rfl

theorem written_append (ps qs : List (K × V)) (k : K) :
    written (ps ++ qs) k = (written qs k).or (written ps k) := by
  rw [written, List.reverse_append, List.lookup_append]
  rfl

theorem mem_of_written {ps : List (K × V)} {k : K} {v : V} (h : written ps k = some v) :
    (k, v) ∈ ps := by
  obtain ⟨l₁, l₂, hps, -⟩ := List.lookup_eq_some_iff.mp h
  rw [← List.mem_reverse, hps]
  simp

/-- A key that is written keeps some value. -/
theorem exists_written {ps : List (K × V)} {k : K} {v : V} (h : (k, v) ∈ ps) :
    ∃ v', written ps k = some v' := by
  induction ps using List.reverseRecOn with
  | nil => cases h
  | append_singleton ps p ih =>
    rw [written_concat]
    split_ifs with hk
    · exact ⟨p.2, rfl⟩
    · rcases List.mem_append.mp h with hmem | hmem
      · exact ih hmem
      · exact absurd (congrArg Prod.fst (List.mem_singleton.mp hmem)) hk

/-- With keys that differ everything that is written stays. -/
theorem written_eq_some_iff_mem {ps : List (K × V)} (h : (ps.map Prod.fst).Nodup) {k : K} {v : V} :
    written ps k = some v ↔ (k, v) ∈ ps := by
  refine ⟨mem_of_written, fun hmem => ?_⟩
  induction ps using List.reverseRecOn with
  | nil => cases hmem
  | append_singleton ps p ih =>
    rw [List.map_append, List.nodup_append] at h
    rw [written_concat]
    rcases List.mem_append.mp hmem with hmem | hmem
    · have hne : k ≠ p.1 := h.2.2 k (List.mem_map_of_mem hmem) p.1 (by simp)
      rw [if_neg hne, ih h.1 hmem]
    · rw [← List.mem_singleton.mp hmem, if_pos rfl]

/-- A run of writes leaves what is written last, or what was there. -/
theorem foldl_write (ps : List (K × V)) (m : K → Option V) :
    ps.foldl write m = fun k => (written ps k).or (m k) := by
  induction ps using List.reverseRecOn with
  | nil => rfl
  | append_singleton ps p ih =>
    ext1 k
    rw [List.foldl_append, List.foldl_cons, List.foldl_nil, ih, written_concat, write,
      Function.update_apply]
    split_ifs <;> rfl

/-- Renaming keys and values. -/
theorem written_map {f : K → K'} (hf : Function.Injective f) (g : V → V') (ps : List (K × V))
    {k' : K'} {v' : V'} :
    written (ps.map (Prod.map f g)) k' = some v' ↔
      ∃ k v, written ps k = some v ∧ f k = k' ∧ g v = v' := by
  induction ps using List.reverseRecOn with
  | nil => simp [written]
  | append_singleton ps p ih =>
    rw [List.map_append, List.map_singleton, written_concat, Prod.map_fst, Prod.map_snd]
    by_cases hk : k' = f p.1
    · subst hk
      simp [written_concat, hf.eq_iff]
    · rw [if_neg hk, ih]
      refine exists_congr fun k => exists_congr fun v => ?_
      refine and_congr_left fun ⟨hfk, _⟩ => ?_
      have hne : k ≠ p.1 := by
        rintro rfl
        exact hk hfk.symm
      rw [written_concat, if_neg hne]

end Writes

end Run
