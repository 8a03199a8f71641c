import Mathlib.Data.Set.Insert
import Mathlib.Tactic.Common

/-!
# Lib.Resource — logs of spends and creations

An event spends a live key or creates one that is not live.  `Replay eff live es live'`: the events
`es` turn the live keys `live` into `live'`.  Between two spends of one key the log creates it again
(`Replay.create_between`).
-/

namespace Resource

variable {κ ε : Type}

/-- What an event does. -/
inductive Effect (κ : Type)
  | spend (k : κ)
  | create (k : κ)

/-- The events are possible one after the other. -/
inductive Replay (eff : ε → Effect κ) : Set κ → List ε → Set κ → Prop
  | nil (live : Set κ) : Replay eff live [] live
  | spend {live live' : Set κ} {e : ε} {es : List ε} {k : κ} : eff e = .spend k → k ∈ live →
      Replay eff (live \ {k}) es live' → Replay eff live (e :: es) live'
  | create {live live' : Set κ} {e : ε} {es : List ε} {k : κ} : eff e = .create k → k ∉ live →
      Replay eff (insert k live) es live' → Replay eff live (e :: es) live'

variable {eff : ε → Effect κ} {live live' live'' : Set κ} {es es' : List ε} {k : κ}

theorem Replay.append (h : Replay eff live es live') (h' : Replay eff live' es' live'') :
    Replay eff live (es ++ es') live'' := by
  induction h with
  | nil => exact h'
  | spend he hk _ ih => exact .spend he hk (ih h')
  | create he hk _ ih => exact .create he hk (ih h')

/-- A key that is not live is created before it is spent. -/
theorem Replay.create_before (h : Replay eff live es live') (hk : k ∉ live) {n : ℕ} {e : ε}
    (he : es[n]? = some e) (hs : eff e = .spend k) :
    ∃ p < n, ∃ c, es[p]? = some c ∧ eff c = .create k := by
  induction h generalizing n with
  | nil => simp at he
  | @spend live live' a es j ha hj _ ih =>
    cases n with
    | zero =>
      cases he
      rw [hs] at ha
      cases ha
      exact absurd hj hk
    | succ n =>
      obtain ⟨p, hp, c, hc, hcreate⟩ := ih (fun h => hk h.1) he
      exact ⟨p + 1, by omega, c, hc, hcreate⟩
  | @create live live' a es j ha hj _ ih =>
    cases n with
    | zero =>
      cases he
      rw [hs] at ha
      cases ha
    | succ n =>
      by_cases hjk : j = k
      · subst hjk
        exact ⟨0, by omega, a, rfl, ha⟩
      · obtain ⟨p, hp, c, hc, hcreate⟩ := ih (by simp [hk, Ne.symm hjk]) he
        exact ⟨p + 1, by omega, c, hc, hcreate⟩

/-- **Spent once**: between two spends of a key the log creates it. -/
theorem Replay.create_between (h : Replay eff live es live') {m n : ℕ} {a b : ε} (hmn : m < n)
    (ha : es[m]? = some a) (hb : es[n]? = some b) (hsa : eff a = .spend k)
    (hsb : eff b = .spend k) :
    ∃ p, m < p ∧ p < n ∧ ∃ c, es[p]? = some c ∧ eff c = .create k := by
  induction h generalizing m n with
  | nil => simp at ha
  | @spend live live' e es j he hj hrest ih =>
    obtain ⟨n, rfl⟩ : ∃ n', n = n' + 1 := ⟨n - 1, by omega⟩
    cases m with
    | zero =>
      cases ha
      rw [hsa] at he
      cases he
      obtain ⟨p, hp, c, hc, hcreate⟩ := hrest.create_before (by simp) hb hsb
      exact ⟨p + 1, by omega, by omega, c, hc, hcreate⟩
    | succ m =>
      obtain ⟨p, h1, h2, hc⟩ := ih (show m < n by omega) ha hb
      exact ⟨p + 1, by omega, by omega, hc⟩
  | @create live live' e es j he hj hrest ih =>
    obtain ⟨n, rfl⟩ : ∃ n', n = n' + 1 := ⟨n - 1, by omega⟩
    cases m with
    | zero =>
      cases ha
      rw [hsa] at he
      cases he
    | succ m =>
      obtain ⟨p, h1, h2, hc⟩ := ih (show m < n by omega) ha hb
      exact ⟨p + 1, by omega, by omega, hc⟩

end Resource
