import Mermai.Consensus.Stake
import Mermai.Lib.Run
import Mermai.Lib.StdMap
import Mathlib.Algebra.Order.Ring.GeomSum
import Mathlib.Algebra.BigOperators.Group.Finset.Basic
import Mathlib.Data.UInt

/-!
# Consensus.Rewards — block rewards and their emission

`mermai_reward_calculator`, and `finalize_block` and `claim_rewards` of the engine.  The base reward is
halved every 210000 blocks, so all base rewards together stay below 21·10¹² (`emission_capped`).  The fees
of a block are added up with saturation, but the rewards of a validator are accumulated with a plain
addition, which wraps: rewards grow as they should exactly in the runs where no accumulation reaches 2⁶⁴
(`rewards_grow_iff`).
-/

namespace Mermai

open Sql (Table)
open StdMap

/-! ## The calculator -/

/-- `mermai_block_reward`. -/
structure BlockReward where
  recipient : Bytes
  amount : UInt64
  reason : String

/-- The loop of `get_base_reward`. -/
def halve : ℕ → UInt64 → UInt64
  | 0, reward => reward
  | halvings + 1, reward => if 0 < reward then halve halvings (reward / 2) else reward

/-- `get_base_reward`. -/
def getBaseReward (blockHeight : UInt32) : UInt64 :=
  let halvingPeriod : UInt32 := 210000
  halve (blockHeight / halvingPeriod).toNat 50000000

/-- The largest `uint64_t`. -/
abbrev uint64Max : UInt64 := 18446744073709551615

/-- One round of the loop of `distribute_fees`. -/
def addFee (totalFees fee : UInt64) : UInt64 :=
  if uint64Max - totalFees < fee then uint64Max else totalFees + fee

/-- `distribute_fees`. -/
def distributeFees (transactions : List Transaction) (proposer : Bytes) : List BlockReward :=
  let totalFees := (transactions.map Transaction.fee).foldl addFee 0
  if 0 < totalFees then [⟨proposer, totalFees, "transaction_fees"⟩] else []

/-- `calculate_block_rewards`. -/
def calculateBlockRewards (block : Block) (blockHeight : UInt32) : List BlockReward :=
  ⟨block.validatorAddress, getBaseReward blockHeight, "block_proposal"⟩ ::
    distributeFees block.transactions block.validatorAddress

/-! ## The engine -/

/-- The part of `mermai_time_weighted_pos` that `finalize_block` writes. -/
structure RewardEngine where
  activeValidators : List ValidatorStake := []
  pendingRewards : Table Bytes UInt64 := ∅

/-- The loop of `finalize_block` over the validators. -/
def setLastProposal (address : Bytes) (timestamp : UInt64) :
    List ValidatorStake → List ValidatorStake
  | [] => []
  | v :: vs =>
    if v.address = address then { v with lastProposal := timestamp } :: vs
    else v :: setLastProposal address timestamp vs

namespace RewardEngine

/-- `pending_rewards[reward.recipient] += reward.amount`. -/
def pay (pendingRewards : Table Bytes UInt64) (reward : BlockReward) : Table Bytes UInt64 :=
  pendingRewards.insert reward.recipient (valueAt pendingRewards reward.recipient + reward.amount)

/-- `finalize_block`; a null block does nothing. -/
def finalizeBlock (e : RewardEngine) (block : Option Block) (proposerAddress : Bytes) : RewardEngine :=
  match block with
  | none => e
  | some block =>
    { activeValidators := setLastProposal proposerAddress block.timestamp e.activeValidators
      pendingRewards := (calculateBlockRewards block block.height).foldl pay e.pendingRewards }

/-- `claim_rewards`. -/
def claimRewards (e : RewardEngine) (validatorAddress : Bytes) : Bool × RewardEngine :=
  match e.pendingRewards.lookup validatorAddress with
  | none => (false, e)
  | some pending =>
    if pending = 0 then (false, e)
    else (true, { e with pendingRewards := e.pendingRewards.insert validatorAddress 0 })

/-- `get_pending_rewards`. -/
def getPendingRewards (e : RewardEngine) (validatorAddress : Bytes) : UInt64 :=
  (e.pendingRewards.lookup validatorAddress).getD 0

/-- A call that moves rewards. -/
inductive Call
  | finalizeBlock (block : Option Block) (proposerAddress : Bytes)
  | claimRewards (validatorAddress : Bytes)

def call (e : RewardEngine) : Call → RewardEngine
  | .finalizeBlock block proposerAddress => e.finalizeBlock block proposerAddress
  | .claimRewards validatorAddress => (e.claimRewards validatorAddress).2

/-- The engine after a run of calls. -/
def run (e : RewardEngine) (calls : List Call) : RewardEngine := calls.foldl call e

end RewardEngine

/-! ## Emission -/

theorem halve_toNat (halvings : ℕ) (reward : UInt64) :
    (halve halvings reward).toNat = reward.toNat / 2 ^ halvings := by
  induction halvings generalizing reward with
  | zero => rw [halve, pow_zero, Nat.div_one]
  | succ halvings ih =>
    rw [halve]
    split_ifs with hpos
    · rw [ih, UInt64.toNat_div, pow_succ', Nat.div_div_eq_div_mul]
      rfl
    · have hzero : reward.toNat = 0 := by
        rw [UInt64.lt_iff_toNat_lt] at hpos
        exact Nat.eq_zero_of_not_pos hpos
      rw [hzero, Nat.zero_div]

/-- The loop is a division by a power of two. -/
theorem getBaseReward_toNat (h : UInt32) :
    (getBaseReward h).toNat = 50000000 / 2 ^ (h.toNat / 210000) := by
  rw [getBaseReward, halve_toNat, UInt32.toNat_div]
  rfl

/-- The base rewards of the heights below `n`. -/
def emission (n : ℕ) : ℕ := ∑ h ∈ Finset.range n, (getBaseReward (UInt32.ofNat h)).toNat

/-- The first height without a base reward. -/
abbrev lastReward : ℕ := 26 * 210000

theorem emission_eq {n : ℕ} (hn : n ≤ 2 ^ 32) :
    emission n = ∑ h ∈ Finset.range n, 50000000 / 2 ^ (h / 210000) := by
  refine Finset.sum_congr rfl fun h hh => ?_
  have hlt := (Finset.mem_range.mp hh).trans_le hn
  rw [getBaseReward_toNat, UInt32.toNat_ofNat_of_lt' hlt]

/-- The heights of one period have one reward. -/
theorem sum_periods (f : ℕ → ℕ) {period : ℕ} (hperiod : 0 < period) (periods : ℕ) :
    ∑ h ∈ Finset.range (periods * period), f (h / period) =
      period * ∑ k ∈ Finset.range periods, f k := by
  induction periods with
  | zero => simp
  | succ periods ih =>
    have hlast : ∑ h ∈ Finset.range period, f ((periods * period + h) / period) = period * f periods := by
      have hconst : ∀ h ∈ Finset.range period, f ((periods * period + h) / period) = f periods := by
        intro h hh
        rw [Nat.add_comm, Nat.add_mul_div_right _ _ hperiod, Nat.div_eq_of_lt (Finset.mem_range.mp hh),
          Nat.zero_add]
      rw [Finset.sum_const_nat hconst, Finset.card_range]
    rw [Nat.succ_mul, Finset.sum_range_add, ih, hlast, Finset.sum_range_succ, Nat.mul_add]

theorem reward_eq_zero {h : ℕ} (hh : lastReward ≤ h) : 50000000 / 2 ^ (h / 210000) = 0 := by
  have hperiods : 26 ≤ h / 210000 := (Nat.le_div_iff_mul_le (by decide)).mpr hh
  refine Nat.div_eq_of_lt ?_
  calc 50000000 < 2 ^ 26 := by decide
    _ ≤ 2 ^ (h / 210000) := Nat.pow_le_pow_right (by decide) hperiods

theorem emission_stays {n : ℕ} (hlast : lastReward ≤ n) (hn : n ≤ 2 ^ 32) :
    emission n = emission lastReward := by
  rw [emission_eq hn, emission_eq (hlast.trans hn)]
  refine (Finset.sum_subset (Finset.range_mono hlast) fun h _ hh => ?_).symm
  exact reward_eq_zero (not_lt.mp fun hlt => hh (Finset.mem_range.mpr hlt))

/-- The geometric series over the rounded rewards. -/
theorem emission_lastReward : emission lastReward < 21000000000000 := by
  have hseries : (2 - 1) * ∑ k ∈ Finset.range 26, 50000000 / 2 ^ k ≤
      50000000 * 2 - 50000000 / 2 ^ 25 := Nat.pred_mul_geom_sum_le 50000000 2 25
  rw [emission_eq (by decide), sum_periods (fun k => 50000000 / 2 ^ k) (by decide)]
  omega

/-- **Emission**: the base reward never rises with the height and is the rounded power of two, all base
rewards below any height stay under the cap, and from some height on there are none. -/
theorem emission_capped :
    (∀ h₁ h₂ : UInt32, h₁ ≤ h₂ → getBaseReward h₂ ≤ getBaseReward h₁) ∧
    (∀ h : UInt32, (getBaseReward h).toNat = 50000000 / 2 ^ (h.toNat / 210000)) ∧
    (∀ n ≤ 2 ^ 32, emission n < 21000000000000) ∧
    ∃ h₀ < 2 ^ 32, ∀ n ≤ 2 ^ 32, h₀ ≤ n → emission n = emission h₀ := by
  refine ⟨?_, getBaseReward_toNat, ?_, lastReward, by decide, fun n hn hlast => emission_stays hlast hn⟩
  · intro h₁ h₂ hle
    rw [UInt64.le_iff_toNat_le, getBaseReward_toNat, getBaseReward_toNat]
    have hperiods := Nat.div_le_div_right (c := 210000) (UInt32.le_iff_toNat_le.mp hle)
    exact Nat.div_le_div_left (Nat.pow_le_pow_right (by decide) hperiods) (by positivity)
  · intro n hn
    rcases le_total lastReward n with hlast | hlast
    · rw [emission_stays hlast hn]
      exact emission_lastReward
    · refine lt_of_le_of_lt ?_ emission_lastReward
      exact Finset.sum_le_sum_of_subset (Finset.range_mono hlast)

/-! ## One call -/

/-- The fees of a list of transactions, exactly. -/
def feeSum (transactions : List Transaction) : ℕ := (transactions.map fun tx => tx.fee.toNat).sum

/-- What the proposer of a block is due: the base reward and the fees, these cut at 2⁶⁴ - 1. -/
def dueReward (block : Block) : ℕ :=
  (getBaseReward block.height).toNat + min (2 ^ 64 - 1) (feeSum block.transactions)

theorem addFee_toNat (t fee : UInt64) : (addFee t fee).toNat = min (2 ^ 64 - 1) (t.toNat + fee.toNat) := by
  have ht := t.toNat_lt
  have hfee := fee.toNat_lt
  have hmax : uint64Max.toNat = 2 ^ 64 - 1 := rfl
  have hroom : (uint64Max - t).toNat = 2 ^ 64 - 1 - t.toNat := by
    rw [UInt64.toNat_sub_of_le _ _ (UInt64.le_iff_toNat_le.mpr (by omega)), hmax]
  rw [addFee]
  split_ifs with hlt
  · rw [UInt64.lt_iff_toNat_lt, hroom] at hlt
    rw [hmax]
    omega
  · rw [UInt64.lt_iff_toNat_lt, hroom] at hlt
    rw [UInt64.toNat_add]
    omega

/-- The loop of `distribute_fees` saturates. -/
theorem foldl_addFee_toNat (fees : List UInt64) (t : UInt64) :
    (fees.foldl addFee t).toNat = min (2 ^ 64 - 1) (t.toNat + (fees.map UInt64.toNat).sum) := by
  induction fees generalizing t with
  | nil =>
    have ht := t.toNat_lt
    simp only [List.foldl_nil, List.map_nil, List.sum_nil]
    omega
  | cons fee fees ih =>
    rw [List.foldl_cons, ih, addFee_toNat, List.map_cons, List.sum_cons]
    omega

namespace RewardEngine

variable {e : RewardEngine}

theorem valueAt_pay (m : Table Bytes UInt64) (reward : BlockReward) :
    valueAt (pay m reward) = Function.update (valueAt m) reward.recipient
      (valueAt m reward.recipient + reward.amount) := valueAt_insert _ _ _

/-- **One block**: its validator gets what is due, in 64 bits, and nobody else anything. -/
theorem getPendingRewards_finalizeBlock (e : RewardEngine) (block : Block) (proposer a : Bytes) :
    (e.finalizeBlock (some block) proposer).getPendingRewards a =
      if a = block.validatorAddress then e.getPendingRewards a + UInt64.ofNat (dueReward block)
      else e.getPendingRewards a := by
  have hfees : ((block.transactions.map Transaction.fee).foldl addFee 0).toNat =
      min (2 ^ 64 - 1) (feeSum block.transactions) := by
    rw [foldl_addFee_toNat, feeSum, List.map_map]
    simp [Function.comp_def]
  have hdue : UInt64.ofNat (dueReward block) = getBaseReward block.height +
      (block.transactions.map Transaction.fee).foldl addFee 0 := by
    rw [dueReward, ← hfees, UInt64.ofNat_add, UInt64.ofNat_toNat, UInt64.ofNat_toNat]
  show valueAt ((calculateBlockRewards block block.height).foldl pay e.pendingRewards) a = _
  rw [hdue, calculateBlockRewards, distributeFees, List.foldl_cons]
  split_ifs with hpos ha ha
  · rw [List.foldl_cons, List.foldl_nil, valueAt_pay, valueAt_pay, ha, Function.update_self,
      Function.update_self, UInt64.add_assoc]
    rfl
  · rw [List.foldl_cons, List.foldl_nil, valueAt_pay, valueAt_pay, Function.update_of_ne ha,
      Function.update_of_ne ha]
    rfl
  · have hzero : (block.transactions.map Transaction.fee).foldl addFee 0 = 0 := by
      rw [UInt64.lt_iff_toNat_lt] at hpos
      exact UInt64.toNat_inj.mp (Nat.eq_zero_of_not_pos hpos)
    rw [List.foldl_nil, valueAt_pay, ha, Function.update_self, hzero, UInt64.add_zero]
    rfl
  · rw [List.foldl_nil, valueAt_pay, Function.update_of_ne ha]
    rfl

theorem getPendingRewards_claimRewards {a b : Bytes} (hne : a ≠ b) :
    (e.claimRewards b).2.getPendingRewards a = e.getPendingRewards a := by
  unfold claimRewards
  cases e.pendingRewards.lookup b with
  | none => rfl
  | some pending =>
    dsimp only
    split_ifs with hzero
    · rfl
    · show valueAt (e.pendingRewards.insert b 0) a = _
      rw [valueAt_insert, Function.update_of_ne hne]
      rfl

/-- The accumulation of a block comes out as if it saturated: it does not reach 2⁶⁴, or wraps to the
very end. -/
def Fits (e : RewardEngine) (block : Block) : Prop :=
  let total := (e.getPendingRewards block.validatorAddress).toNat + dueReward block
  total < 2 ^ 64 ∨ total = 2 ^ 65 - 1

/-- The rewards of the proposer are raised by what is due, cut at 2⁶⁴ - 1. -/
def Saturates (e : RewardEngine) (block : Block) (proposer : Bytes) : Prop :=
  ((e.finalizeBlock (some block) proposer).getPendingRewards block.validatorAddress).toNat =
    min (2 ^ 64 - 1) ((e.getPendingRewards block.validatorAddress).toNat + dueReward block)

theorem dueReward_le (block : Block) : dueReward block ≤ 50000000 + (2 ^ 64 - 1) := by
  have hbase : (getBaseReward block.height).toNat ≤ 50000000 := by
    rw [getBaseReward_toNat]
    exact Nat.div_le_self _ _
  rw [dueReward]
  omega

theorem saturates_iff (e : RewardEngine) (block : Block) (proposer : Bytes) :
    e.Saturates block proposer ↔ e.Fits block := by
  have hdue := dueReward_le block
  have hpending := (e.getPendingRewards block.validatorAddress).toNat_lt
  rw [Saturates, getPendingRewards_finalizeBlock, if_pos rfl, UInt64.toNat_add, UInt64.toNat_ofNat']
  dsimp only [Fits]
  omega

/-- A block whose accumulation fits takes nothing from anyone. -/
theorem Fits.grows {block : Block} (h : e.Fits block) (proposer a : Bytes) :
    e.getPendingRewards a ≤ (e.finalizeBlock (some block) proposer).getPendingRewards a := by
  by_cases ha : a = block.validatorAddress
  · have hsaturates := (saturates_iff e block proposer).mpr h
    have hpending := (e.getPendingRewards block.validatorAddress).toNat_lt
    rw [ha, UInt64.le_iff_toNat_le, hsaturates]
    omega
  · rw [getPendingRewards_finalizeBlock, if_neg ha]
    exact UInt64.le_refl _

/-! ## Runs -/

theorem run_concat (e : RewardEngine) (calls : List Call) (c : Call) :
    e.run (calls ++ [c]) = (e.run calls).call c := List.foldl_append

/-- **Rewards grow until they are claimed**, by what each block is due and up to 2⁶⁴ - 1, exactly in the
runs where every accumulation fits. -/
theorem rewards_grow_iff (e : RewardEngine) (calls : List Call) :
    ((∀ a done later, done ++ later <+: calls → .claimRewards a ∉ later →
        (e.run done).getPendingRewards a ≤ (e.run (done ++ later)).getPendingRewards a) ∧
      (∀ done block proposer, done ++ [.finalizeBlock (some block) proposer] <+: calls →
        (e.run done).Saturates block proposer)) ↔
    ∀ done block proposer, done ++ [.finalizeBlock (some block) proposer] <+: calls →
      (e.run done).Fits block := by
  constructor
  · rintro ⟨-, hsaturates⟩ done block proposer hpre
    exact (saturates_iff _ block proposer).mp (hsaturates done block proposer hpre)
  · intro hfits
    refine ⟨?_, fun done block proposer hpre =>
      (saturates_iff _ block proposer).mpr (hfits done block proposer hpre)⟩
    intro a done later hpre hclaim
    induction later using List.reverseRecOn with
    | nil =>
      rw [List.append_nil]
      exact UInt64.le_refl _
    | append_singleton later c ih =>
      rw [← List.append_assoc] at hpre ⊢
      have hearlier := ih ((List.prefix_append _ _).trans hpre)
        fun hmem => hclaim (List.mem_append_left _ hmem)
      refine UInt64.le_trans hearlier ?_
      rw [run_concat]
      cases c with
      | finalizeBlock block proposer =>
        cases block with
        | none => exact UInt64.le_refl _
        | some block => exact (hfits _ block proposer hpre).grows proposer a
      | claimRewards b =>
        have hne : a ≠ b := by
          rintro rfl
          exact hclaim (List.mem_append_right _ List.mem_cons_self)
        show _ ≤ ((e.run (done ++ later)).claimRewards b).2.getPendingRewards a
        rw [getPendingRewards_claimRewards hne]
        exact UInt64.le_refl _

/-- A block of the validator `v` with one fee. -/
def feeBlock (fee : UInt64) : Block :=
  { validatorAddress := [118], transactions := [{ id := [116], inputs := [], outputs := [], fee }] }

/-- Rewards of 2⁶⁴ - 1 fall to 49999999 with the next block. -/
theorem rewards_wrap :
    let first : Call := .finalizeBlock (some (feeBlock (uint64Max - 50000000))) [118]
    let second : Call := .finalizeBlock (some (feeBlock 0)) [118]
    (run {} [first]).getPendingRewards [118] = uint64Max ∧
      (run {} [first, second]).getPendingRewards [118] = 49999999 ∧
      ¬ (run {} [first]).Saturates (feeBlock 0) [118] := by
  refine ⟨by decide +kernel, by decide +kernel, ?_⟩
  unfold Saturates
  decide +kernel

end RewardEngine

end Mermai
