import Mermai.Consensus.Order
import Mathlib.Data.Nat.Count

/-!
# Consensus.Proportion — how often a validator is chosen

The walk of `select_block_proposer` over weights that are natural numbers, for every residue of the seed
modulo the total weight `W`.  The walk takes the first validator whose cumulative weight is at least the
residue.  Over the residues from 1 to `W` that gives every validator as many turns as its weight
(`count_pick`), but the residues are those from 0 to `W - 1`: the first validator gets the turn of the
residue 0, and the one that the residue `W` would choose misses it (`turns_eq`).
-/

namespace Mermai

/-! ## The walk -/

/-- Arithmetic on natural numbers in the place of floats. -/
def natOps : FloatOps ℕ where
  lit m e := m / 10 ^ e
  ofUInt64 := UInt64.toNat
  add := (· + ·)
  sub := (· - ·)
  mul := (· * ·)
  le x y := x ≤ y
  lt x y := x < y
  fmod seed total := seed.toNat % total
  toUInt64 := UInt64.ofNat
  print := decimal

/-- The choice of `select_block_proposer` for a value of `random_value`. -/
def chosen (weighted : List (Bytes × ℕ)) (randomValue : ℕ) : Bytes :=
  match pickProposer natOps randomValue 0 weighted with
  | some address => address
  | none => (weighted.getLastD ([], 0)).1

/-- The sum of the weights. -/
def weightSum (weighted : List (Bytes × ℕ)) : ℕ := (weighted.map Prod.snd).sum

/-- The number of residues for which a validator is chosen. -/
def turns (weighted : List (Bytes × ℕ)) (address : Bytes) : ℕ :=
  Nat.count (fun randomValue => chosen weighted randomValue = address) (weightSum weighted)

theorem foldl_add_weights (weighted : List (Bytes × ℕ)) (start : ℕ) :
    weighted.foldl (fun acc p => natOps.add acc p.2) start = start + weightSum weighted := by
  induction weighted generalizing start with
  | nil => rfl
  | cons p rest ih =>
    rw [List.foldl_cons, ih, weightSum, weightSum, List.map_cons, List.sum_cons, ← Nat.add_assoc]
    rfl

/-- With a positive total weight `select_block_proposer` chooses by the residue of the seed. -/
theorem selectWith_natOps (C : Crypto) (weight : ValidatorStake → ℕ) (text : ValidatorStake → Bytes)
    (vs : List ValidatorStake) (t : UInt64)
    (hpos : 0 < weightSum (vs.map fun v => (v.address, weight v))) :
    selectWith C natOps weight text vs t =
      chosen (vs.map fun v => (v.address, weight v))
        ((digestSeed (C.sha256 (decimal t.toNat ++ vs.flatMap fun v => v.address ++ text v))).toNat %
          weightSum (vs.map fun v => (v.address, weight v))) := by
  cases vs with
  | nil => cases hpos
  | cons v vs =>
    have htotal := foldl_add_weights ((v :: vs).map fun v => (v.address, weight v)) 0
    rw [Nat.zero_add] at htotal
    unfold selectWith
    dsimp only
    have hle : ¬ natOps.le (weightSum ((v :: vs).map fun v => (v.address, weight v))) 0 = true := by
      simpa [natOps, ← Nat.pos_iff_ne_zero] using hpos
    rw [show natOps.lit 0 0 = 0 from rfl, htotal, if_neg hle]
    rfl

/-! ## Turns -/

theorem pick_cons (r c : ℕ) (address : Bytes) (weight : ℕ) (rest : List (Bytes × ℕ)) :
    pickProposer natOps r c ((address, weight) :: rest) =
      if r ≤ c + weight then some address else pickProposer natOps r (c + weight) rest := by
  rw [pickProposer]
  simp [natOps]

/-- Up to the sum of the weights the walk finds a validator. -/
theorem exists_pick {weighted : List (Bytes × ℕ)} (hne : weighted ≠ []) {r c : ℕ}
    (h : r ≤ c + weightSum weighted) : ∃ a, pickProposer natOps r c weighted = some a := by
  induction weighted generalizing c with
  | nil => exact absurd rfl hne
  | cons p rest ih =>
    obtain ⟨address, weight⟩ := p
    rw [pick_cons]
    split_ifs with hle
    · exact ⟨address, rfl⟩
    · rw [weightSum, List.map_cons, List.sum_cons] at h
      refine ih ?_ (by rw [weightSum]; omega)
      rintro rfl
      exact hle h

/-- **The intervals of the walk**: over the residues behind `c` up to the sum every validator is found as
often as its weight says. -/
theorem count_pick {weighted : List (Bytes × ℕ)} (hnodup : (weighted.map Prod.fst).Nodup) (c : ℕ)
    {p : Bytes × ℕ} (hp : p ∈ weighted) :
    Nat.count (fun k => pickProposer natOps (c + 1 + k) c weighted = some p.1) (weightSum weighted) =
      p.2 := by
  induction weighted generalizing c with
  | nil => cases hp
  | cons q rest ih =>
    obtain ⟨address, weight⟩ := q
    obtain ⟨hnew, hrest⟩ := List.nodup_cons.mp hnodup
    have hfirst : Nat.count
        (fun k => pickProposer natOps (c + 1 + k) c ((address, weight) :: rest) = some p.1) weight =
        if address = p.1 then weight else 0 := by
      have hpick : ∀ k < weight,
          pickProposer natOps (c + 1 + k) c ((address, weight) :: rest) = some address := by
        intro k hk
        rw [pick_cons, if_pos (by omega)]
      split_ifs with heq
      · exact Nat.count_iff_forall.mpr fun k hk => by rw [hpick k hk, heq]
      · refine Nat.count_iff_forall_not.mpr fun k hk hsome => heq ?_
        rw [hpick k hk] at hsome
        exact Option.some.inj hsome
    have hlater : (fun k => pickProposer natOps (c + 1 + (weight + k)) c ((address, weight) :: rest) =
        some p.1) = fun k => pickProposer natOps (c + weight + 1 + k) (c + weight) rest = some p.1 := by
      funext k
      rw [pick_cons, if_neg (by omega), show c + 1 + (weight + k) = c + weight + 1 + k by omega]
    rw [weightSum, List.map_cons, List.sum_cons, Nat.count_add, hfirst]
    simp only [hlater]
    rcases List.mem_cons.mp hp with rfl | hmem
    · -- the first validator is not found again
      rw [if_pos rfl, Nat.count_iff_forall_not.mpr fun k _ hsome => hnew (pickProposer_mem hsome),
        Nat.add_zero]
    · have hne : address ≠ p.1 := by
        have hmem' : p.1 ∈ rest.map Prod.fst := List.mem_map_of_mem hmem
        exact fun heq => hnew (heq ▸ hmem')
      rw [if_neg hne, Nat.zero_add]
      exact ih hrest (c + weight) hmem

theorem chosen_eq_iff {weighted : List (Bytes × ℕ)} (hne : weighted ≠ []) {r : ℕ}
    (h : r ≤ weightSum weighted) (a : Bytes) :
    chosen weighted r = a ↔ pickProposer natOps r 0 weighted = some a := by
  obtain ⟨b, hb⟩ := exists_pick hne (h.trans (Nat.le_add_left _ 0))
  rw [chosen, hb, Option.some_inj]

/-- **The turn of the residue 0** goes to the first validator, and that of the residue `W` to none. -/
theorem turns_eq {first : Bytes × ℕ} {rest : List (Bytes × ℕ)}
    (hnodup : ((first :: rest).map Prod.fst).Nodup) {p : Bytes × ℕ} (hp : p ∈ first :: rest) :
    turns (first :: rest) p.1 + (if chosen (first :: rest) (weightSum (first :: rest)) = p.1 then 1 else 0) =
      p.2 + if p.1 = first.1 then 1 else 0 := by
  have hne : first :: rest ≠ [] := List.cons_ne_nil _ _
  have hzero : chosen (first :: rest) 0 = p.1 ↔ p.1 = first.1 := by
    obtain ⟨address, weight⟩ := first
    rw [chosen_eq_iff hne (Nat.zero_le _), pick_cons, if_pos (Nat.zero_le _), Option.some_inj, eq_comm]
  have hcount : Nat.count (fun k => chosen (first :: rest) (k + 1) = p.1) (weightSum (first :: rest)) =
      p.2 := by
    rw [← count_pick hnodup 0 hp]
    refine le_antisymm (Nat.count_mono_left fun k hk h => ?_) (Nat.count_mono_left fun k hk h => ?_)
    · rw [chosen_eq_iff hne hk] at h
      rwa [Nat.zero_add, Nat.add_comm]
    · rw [Nat.zero_add, Nat.add_comm] at h
      rwa [chosen_eq_iff hne hk]
  have hshift := (Nat.count_succ (fun r => chosen (first :: rest) r = p.1)
    (weightSum (first :: rest))).symm.trans (Nat.count_succ' _ _)
  rw [hcount] at hshift
  simp only [hzero] at hshift
  exact hshift

/-- **The choice is proportional to the weights exactly when** the first validator has all of the
weight. -/
theorem proportional_iff {first : Bytes × ℕ} {rest : List (Bytes × ℕ)}
    (hnodup : ((first :: rest).map Prod.fst).Nodup) :
    (∀ p ∈ first :: rest, turns (first :: rest) p.1 = p.2) ↔ ∀ p ∈ rest, p.2 = 0 := by
  have hne : first :: rest ≠ [] := List.cons_ne_nil _ _
  have hlast : chosen (first :: rest) (weightSum (first :: rest)) = first.1 ↔ ∀ p ∈ rest, p.2 = 0 := by
    obtain ⟨address, weight⟩ := first
    rw [chosen_eq_iff hne le_rfl, pick_cons, Nat.zero_add, weightSum, List.map_cons, List.sum_cons]
    have hzero : (rest.map Prod.snd).sum = 0 ↔ ∀ p ∈ rest, p.2 = 0 := by
      rw [List.sum_eq_zero_iff_forall_eq_nat, List.forall_mem_map]
    rw [← hzero]
    split_ifs with hle
    · exact iff_of_true rfl (by omega)
    · refine iff_of_false (fun hsome => ?_) (by omega)
      exact (List.nodup_cons.mp hnodup).1 (pickProposer_mem hsome)
  rw [← hlast]
  constructor
  · intro h
    have hfirst := turns_eq hnodup List.mem_cons_self
    rw [h first List.mem_cons_self, if_pos rfl] at hfirst
    by_contra hother
    rw [if_neg hother] at hfirst
    omega
  · intro h p hp
    have hturns := turns_eq hnodup hp
    rw [h] at hturns
    by_cases heq : p.1 = first.1
    · rw [if_pos heq, if_pos heq.symm] at hturns
      omega
    · rw [if_neg heq, if_neg (Ne.symm heq)] at hturns
      omega

theorem proportional_alone :
    turns [([97], 3), ([98], 0)] [97] = 3 ∧ turns [([97], 3), ([98], 0)] [98] = 0 := by
  have h := (@proportional_iff ([97], 3) [([98], 0)] (by decide)).mpr (by decide)
  exact ⟨h ([97], 3) (by simp), h ([98], 0) (by simp)⟩

/-- Of two validators with the weights 0 and 2 the first has a turn. -/
theorem slashed_first_chosen :
    turns [([97], 0), ([98], 2)] [97] = 1 ∧ turns [([97], 0), ([98], 2)] [98] = 1 := by decide

end Mermai
