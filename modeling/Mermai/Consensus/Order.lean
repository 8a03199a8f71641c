import Mermai.Db.Store
import Mathlib.Data.List.Perm.Basic

/-!
# Consensus.Order — the proposer of a slot and the order of the validators

`select_block_proposer` hashes the validators in the order of the vector `active_validators` and
walks the same vector.  The order is a by-product of history: `register_validator` appends, a restart
fills the vector from `get_all_validators`, which sorts by address.  Two nodes with the same
validators in two orders agree on every slot, for every hash function, only when there is nothing to
choose (`proposer_order_iff`).

The hash function is the parameter `C`; the weights and their printed form are a `Weighing`.
-/

namespace Mermai

variable {F : Type}

/-! ## Selection with given weights -/

/-- `select_block_proposer` with any weights, and any texts for them in the seed. -/
def selectWith (C : Crypto) (fl : FloatOps F) (weight : ValidatorStake → F)
    (text : ValidatorStake → Bytes) (vs : List ValidatorStake) (currentTime : UInt64) : Bytes :=
  match vs with
  | [] => []
  | first :: _ =>
    let weighted := vs.map fun v => (v.address, weight v)
    let totalWeight := weighted.foldl (fun acc p => fl.add acc p.2) (fl.lit 0 0)
    if fl.le totalWeight (fl.lit 0 0) then first.address
    else
      let seed := decimal currentTime.toNat ++ vs.flatMap fun v => v.address ++ text v
      let randomValue := fl.fmod (digestSeed (C.sha256 seed)) totalWeight
      match pickProposer fl randomValue (fl.lit 0 0) weighted with
      | some address => address
      | none => (weighted.getLastD ([], fl.lit 0 0)).1

/-- With the engine's own weights and their printed form it is `select_block_proposer`. -/
theorem selectBlockProposer_eq (C : Crypto) (fl : FloatOps F) (vs : List ValidatorStake)
    (t : UInt64) :
    selectBlockProposer C fl vs t = selectWith C fl (fun v => calculateWeight fl v t)
      (fun v => fl.print (calculateWeight fl v t)) vs t := by
  cases vs with
  | nil => rfl
  | cons v vs =>
    simp only [selectBlockProposer, List.flatMap_map]
    rfl

/-- The walk returns an address of the list. -/
theorem pickProposer_mem {fl : FloatOps F} {r cumulative : F} {weighted : List (Bytes × F)}
    {a : Bytes} (h : pickProposer fl r cumulative weighted = some a) :
    a ∈ weighted.map Prod.fst := by
  induction weighted generalizing cumulative with
  | nil => cases h
  | cons p rest ih =>
    unfold pickProposer at h
    split_ifs at h with hle
    · rw [← Option.some.inj h]
      exact List.mem_cons_self
    · exact List.mem_cons_of_mem _ (ih h)

/-- A non-empty engine chooses one of its validators. -/
theorem selectWith_mem (C : Crypto) (fl : FloatOps F) (weight : ValidatorStake → F)
    (text : ValidatorStake → Bytes) {vs : List ValidatorStake} (hvs : vs ≠ []) (t : UInt64) :
    selectWith C fl weight text vs t ∈ vs.map ValidatorStake.address := by
  obtain ⟨v, rest, rfl⟩ := List.exists_cons_of_ne_nil hvs
  have hfst : ((v :: rest).map fun u => (u.address, weight u)).map Prod.fst =
      (v :: rest).map ValidatorStake.address := by
    rw [List.map_map]
    rfl
  unfold selectWith
  dsimp only
  split_ifs with htotal
  · exact List.mem_cons_self
  · split
    · next a ha => rw [← hfst]; exact pickProposer_mem ha
    · rw [← hfst, List.getLastD_eq_getLast?, List.getLast?_eq_some_getLast (by simp),
        Option.getD_some]
      exact List.mem_map_of_mem (List.getLast_mem _)

/-! ## Exact weights -/

/-- Exact weights of the validators at a time, and the text the seed takes for each. -/
structure Weighing where
  weight : ValidatorStake → UInt64 → ℚ
  print : ValidatorStake → UInt64 → Bytes
  nonneg : ∀ v t, 0 ≤ weight v t

/-- `select_block_proposer` with the weights of `W`. -/
def selectWeighted (C : Crypto) (W : Weighing) (vs : List ValidatorStake) (currentTime : UInt64) :
    Bytes :=
  selectWith C exactFloat (fun v => W.weight v currentTime) (fun v => W.print v currentTime) vs
    currentTime

theorem calculateTimeMultiplier_nonneg (age : UInt64) :
    0 ≤ calculateTimeMultiplier exactFloat age := by
  have hd : ∀ d : UInt64, (0 : ℚ) ≤ d.toNat := fun d => Nat.cast_nonneg _
  simp only [calculateTimeMultiplier, exactFloat, FloatOps.min, decide_eq_true_eq]
  split_ifs
  · norm_num
  · have := hd (age / 86400)
    positivity
  · have := hd (age / 86400 - 30)
    positivity
  · positivity
  · have := hd (age / 86400 - 365)
    positivity

/-- The weights of the engine, without rounding. -/
def stakeWeighing : Weighing where
  weight := calculateWeight exactFloat
  print v t := exactFloat.print (calculateWeight exactFloat v t)
  nonneg v t := by
    have ha : (0 : ℚ) ≤ exactFloat.ofUInt64 v.amount := Nat.cast_nonneg v.amount.toNat
    have hm := calculateTimeMultiplier_nonneg (stakeAge v t)
    exact mul_nonneg (mul_nonneg ha hm) (by norm_num [exactFloat])

/-- With the weights of the engine it is `select_block_proposer`. -/
theorem selectWeighted_stakeWeighing (C : Crypto) (vs : List ValidatorStake) (t : UInt64) :
    selectWeighted C stakeWeighing vs t = selectBlockProposer C exactFloat vs t :=
  (selectBlockProposer_eq C exactFloat vs t).symm

/-! ## The digest that picks the head -/

/-- A hash function with the all-zero digest. -/
def zeroCrypto : Crypto where
  sha256 _ := List.replicate 32 0
  sha256_length _ := List.length_replicate
  d2iPubkey _ := none
  digestVerify _ _ _ := false

/-- The seed 0 is at the start of the walk: the first validator is chosen, whatever the weights. -/
theorem selectWeighted_zeroCrypto (W : Weighing) (v : ValidatorStake) (vs : List ValidatorStake)
    (t : UInt64) : selectWeighted zeroCrypto W (v :: vs) t = v.address := by
  have hseed : ∀ total : ℚ, exactFloat.fmod (digestSeed (List.replicate 32 0)) total = 0 := by
    intro total
    rw [show digestSeed (List.replicate 32 0) = 0 from rfl]
    simp [exactFloat]
  have hle : exactFloat.le 0 (exactFloat.add (exactFloat.lit 0 0) (W.weight v t)) = true := by
    simpa [exactFloat] using W.nonneg v t
  simp only [selectWeighted, selectWith, zeroCrypto, List.map_cons, hseed, pickProposer, hle, if_true,
    ite_self]

/-! ## Agreement -/

/-- A validator can be listed first. -/
theorem exists_perm_head {vs : List ValidatorStake} {v : ValidatorStake} (h : v ∈ vs) :
    ∃ rest, (v :: rest).Perm vs := ⟨vs.erase v, (List.perm_cons_erase h).symm⟩

/-- **The order decides.**  For all non-negative weights, all validators and every time: every hash
function gives the same proposer in every order of the validators exactly when they all have one
address. -/
theorem proposer_order_iff (W : Weighing) (vs : List ValidatorStake) (t : UInt64) :
    (∀ (C : Crypto) (vs' : List ValidatorStake), vs'.Perm vs →
      selectWeighted C W vs' t = selectWeighted C W vs t) ↔
    ∀ v ∈ vs, ∀ w ∈ vs, v.address = w.address := by
  constructor
  · intro h v hv w hw
    obtain ⟨rv, pv⟩ := exists_perm_head hv
    obtain ⟨rw', pw⟩ := exists_perm_head hw
    calc v.address = selectWeighted zeroCrypto W (v :: rv) t :=
          (selectWeighted_zeroCrypto W v rv t).symm
      _ = selectWeighted zeroCrypto W (w :: rw') t := by rw [h _ _ pv, h _ _ pw]
      _ = w.address := selectWeighted_zeroCrypto W w rw' t
  · intro h C vs' hp
    rcases eq_or_ne vs [] with rfl | hne
    · rw [hp.eq_nil]
    · -- both choices are addresses of `vs`, and `vs` has only one
      have hne' : vs' ≠ [] := fun h0 => hne (by rw [h0] at hp; exact hp.nil_eq.symm)
      obtain ⟨u, hu, hu'⟩ := List.mem_map.mp (selectWith_mem C exactFloat _ _ hne' t)
      obtain ⟨w, hw, hw'⟩ := List.mem_map.mp (selectWith_mem C exactFloat _ _ hne t)
      rw [selectWeighted, selectWeighted, ← hu', ← hw']
      exact h u (hp.mem_iff.mp hu) w hw

/-- The engine keeps addresses distinct: then "one address" says "at most one validator". -/
theorem one_address_iff {vs : List ValidatorStake} (hd : (vs.map ValidatorStake.address).Nodup) :
    (∀ v ∈ vs, ∀ w ∈ vs, v.address = w.address) ↔ vs.length ≤ 1 := by
  match vs with
  | [] => simp
  | [v] => simp
  | v :: w :: rest =>
    have hne : v.address ≠ w.address := by
      intro heq
      simp [heq] at hd
    refine iff_of_false (fun h => hne (h v (by simp) w (by simp))) (by simp)

/-! ## A restarted node -/

/-- Two validators in the order of their registration. -/
def arrivalOrder : List ValidatorStake :=
  [⟨[98], 1000000, 1639999990, 0, []⟩, ⟨[97], 1000000, 1639999990, 0, []⟩]

/-- The same two validators, as `get_all_validators` lists them. -/
def addressOrder : List ValidatorStake :=
  [⟨[97], 1000000, 1639999990, 0, []⟩, ⟨[98], 1000000, 1639999990, 0, []⟩]

/-- The registrations of the two, and their restoration from the database, lead to engines with the
same validators and with different proposers of one slot. -/
theorem restarted_engine_disagrees :
    (do let vs ← registerValidator polyCrypto 1639999990 [] [98] 1000000 []
        registerValidator polyCrypto 1639999990 vs [97] 1000000 []) = some arrivalOrder ∧
      (getAllValidators (arrivalOrder.foldl saveValidator {})).foldlM restoreValidator [] =
        some addressOrder ∧
      addressOrder.Perm arrivalOrder ∧
      selectWeighted polyCrypto stakeWeighing arrivalOrder 1640000010 = [98] ∧
      selectWeighted polyCrypto stakeWeighing addressOrder 1640000010 = [97] := by
  refine ⟨by decide +kernel, by decide +kernel, List.Perm.swap _ _ _, ?_, ?_⟩
  · rw [selectWeighted_stakeWeighing]
    decide +kernel
  · rw [selectWeighted_stakeWeighing]
    decide +kernel

end Mermai
