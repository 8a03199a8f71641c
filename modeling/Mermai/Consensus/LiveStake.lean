import Mermai.Lib.Run
import Mermai.Consensus.Finality
import Mathlib.Tactic.IntervalCases

/-!
# Consensus.LiveStake — finality while the validators change

The collector adds up stake as it was when each vote arrived and compares the sum with the total at
the last vote.  Over runs that mix votes with `register_validator`, `unregister_validator` and
slashing the sum is at most the live stake of the voters as long as no voter of a hash still open is
removed or slashed (`KeepsVoters`): that is the invariant `OpenTotals`.
-/

namespace Mermai

variable {F : Type}

/-! ## Runs -/

/-- The validators of the engine and the collector. -/
structure FinalityState where
  validators : List ValidatorStake
  collector : QuorumCollector

/-- A new engine and a new collector. -/
def FinalityState.start : FinalityState := ⟨[], .empty⟩

/-- A call that changes stakes or votes. -/
inductive StakeOp (F : Type)
  | register (now : ℕ) (address : Bytes) (stakeAmount : UInt64) (publicKey : Bytes)
  | unregister (address : Bytes)
  | slash (address : Bytes) (penaltyPercentage : F)
  | vote (vote : BlockVote)

/-- One call; a call that returns false changes nothing. -/
def FinalityState.step (C : Crypto) (fl : FloatOps F) (s : FinalityState) :
    StakeOp F → FinalityState
  | .register now address stake key =>
    { s with validators :=
        (registerValidator C now s.validators address stake key).getD s.validators }
  | .unregister address =>
    { s with validators := (unregisterValidator s.validators address).getD s.validators }
  | .slash address penalty =>
    { s with validators := slashValidator fl s.validators address penalty }
  | .vote vote => { s with collector := (addVote C s.validators s.collector vote).2 }

/-- The state after a list of calls. -/
def runStake (C : Crypto) (fl : FloatOps F) (ops : List (StakeOp F)) : FinalityState :=
  ops.foldl (FinalityState.step C fl) .start

theorem runStake_concat (C : Crypto) (fl : FloatOps F) (ops : List (StakeOp F)) (op : StakeOp F) :
    runStake C fl (ops ++ [op]) = (runStake C fl ops).step C fl op := by
  simp [runStake, List.foldl_append]

/-- The amount that `slash_validator` leaves. -/
def slashedAmount (fl : FloatOps F) (penaltyPercentage : F) (amount : UInt64) : UInt64 :=
  fl.toUInt64 (fl.mul (fl.ofUInt64 amount) (fl.sub (fl.lit 1 0)
    (fl.min (fl.lit 1 0) (fl.max (fl.lit 0 0) penaltyPercentage))))

/-- The call does not take stake from a validator with a stored vote for a hash that is not yet
finalized. -/
def KeepsVoters (fl : FloatOps F) (s : FinalityState) : StakeOp F → Prop
  | .unregister address =>
    ∀ h, h ∉ s.collector.finalizedBlocks → s.collector.hasVoted h address = false
  | .slash address penalty =>
    ∀ h, h ∉ s.collector.finalizedBlocks → s.collector.hasVoted h address = true →
      ∀ v ∈ s.validators, v.address = address → v.amount ≤ slashedAmount fl penalty v.amount
  | _ => True

/-! ## The invariant -/

/-- **Invariant**: addresses are distinct, and the total of every hash still open is at most the live
stake of its voters. -/
structure OpenTotals (s : FinalityState) : Prop where
  nodup : (s.validators.map ValidatorStake.address).Nodup
  totals : ∀ h, h ∉ s.collector.finalizedBlocks →
    (s.collector.voteStakeTotals h).toNat ≤ s.collector.stakeFor s.validators h

theorem openTotals_start : OpenTotals .start := by
  refine ⟨List.nodup_nil, ?_⟩
  intro h _
  exact Nat.zero_le _

theorem OpenTotals.register {C : Crypto} {s : FinalityState} (hs : OpenTotals s)
    {vs' : List ValidatorStake} {now : ℕ} {address key : Bytes} {stake : UInt64}
    (h : registerValidator C now s.validators address stake key = some vs') :
    OpenTotals { s with validators := vs' } := by
  unfold registerValidator at h
  split_ifs at h with h1 h2 h3
  cases h
  refine ⟨nodup_append_new hs.nodup h3, ?_⟩
  intro t ht
  refine (hs.totals t ht).trans ?_
  rw [QuorumCollector.stakeFor, QuorumCollector.stakeFor, Quorum.weight_append]
  exact Nat.le_add_right _ _

theorem OpenTotals.unregister {s : FinalityState} (hs : OpenTotals s) {vs' : List ValidatorStake}
    {address : Bytes} (h : unregisterValidator s.validators address = some vs')
    (hkeep : ∀ t, t ∉ s.collector.finalizedBlocks → s.collector.hasVoted t address = false) :
    OpenTotals { s with validators := vs' } := by
  unfold unregisterValidator at h
  split_ifs at h
  cases h
  refine ⟨hs.nodup.sublist (List.filter_sublist.map _), ?_⟩
  intro t ht
  refine (hs.totals t ht).trans (le_of_eq ?_)
  -- the validator that leaves has no vote for `t`
  refine (Quorum.weight_filter ?_).symm
  intro v _ hv
  refine decide_eq_true ?_
  intro haddr
  rw [haddr, hkeep t ht] at hv
  cases hv

theorem weight_le_slashStake (fl : FloatOps F) (address : Bytes) (p : F) {voted : Bytes → Bool}
    {vs : List ValidatorStake} (h : voted address = true → ∀ v ∈ vs, v.address = address →
      v.amount ≤ fl.toUInt64 (fl.mul (fl.ofUInt64 v.amount) (fl.sub (fl.lit 1 0) p))) :
    Quorum.weight ValidatorStake.stake (fun v => voted v.address) vs ≤
      Quorum.weight ValidatorStake.stake (fun v => voted v.address) (slashStake fl address p vs) := by
  induction vs with
  | nil => exact le_rfl
  | cons v vs ih =>
    unfold slashStake
    split_ifs with haddr
    · rw [Quorum.weight_cons, Quorum.weight_cons]
      by_cases hv : voted address = true
      · have := UInt64.le_iff_toNat_le.mp (h hv v List.mem_cons_self haddr)
        simp only [haddr, hv, if_true, ValidatorStake.stake]
        omega
      · simp [haddr, hv]
    · have := ih fun hv u hu => h hv u (List.mem_cons_of_mem _ hu)
      rw [Quorum.weight_cons, Quorum.weight_cons]
      omega

theorem OpenTotals.slash {fl : FloatOps F} {s : FinalityState} (hs : OpenTotals s)
    {address : Bytes} {penalty : F} (hkeep : KeepsVoters fl s (.slash address penalty)) :
    OpenTotals { s with validators := slashValidator fl s.validators address penalty } := by
  refine ⟨?_, ?_⟩
  · show ((slashValidator fl s.validators address penalty).map ValidatorStake.address).Nodup
    rw [slashValidator, slashStake_addresses]
    exact hs.nodup
  · intro t ht
    refine (hs.totals t ht).trans ?_
    exact weight_le_slashStake fl address _ fun hv => hkeep t ht hv

/-- The sum after a counted vote for a hash still open is at most the live stake of its voters. -/
theorem OpenTotals.count_le {s : FinalityState} (hs : OpenTotals s)
    (hT : totalStake s.validators < 2 ^ 62) {vote : BlockVote} {v : ValidatorStake}
    (hv : v ∈ s.validators) (haddr : v.address = vote.validatorAddress)
    (hnew : s.collector.hasVoted vote.blockHash vote.validatorAddress = false)
    (hopen : vote.blockHash ∉ s.collector.finalizedBlocks) :
    (s.collector.voteStakeTotals vote.blockHash + v.amount).toNat ≤
      (s.collector.count s.validators vote v.amount).stakeFor s.validators vote.blockHash := by
  have hle : (s.collector.count s.validators vote v.amount).stakeFor s.validators vote.blockHash ≤
      totalStake s.validators := Quorum.weight_le_total _ _ _
  have htot := hs.totals _ hopen
  rw [QuorumCollector.count_stakeFor hs.nodup hv haddr hnew, if_pos rfl] at hle ⊢
  rw [ValidatorStake.stake] at hle ⊢
  rw [UInt64.toNat_add, Nat.mod_eq_of_lt (by omega)]
  omega

theorem OpenTotals.vote {C : Crypto} {s : FinalityState} (hs : OpenTotals s)
    (hT : totalStake s.validators < 2 ^ 62) (vote : BlockVote) :
    OpenTotals { s with collector := (addVote C s.validators s.collector vote).2 } := by
  rcases addVote_cases C s.validators s.collector vote with
    ⟨-, heq⟩ | ⟨v, hv, haddr, -, -, hnew, heq⟩
  · rw [heq]
    exact hs
  · rw [heq]
    refine ⟨hs.nodup, ?_⟩
    intro t ht
    have hopen : t ∉ s.collector.finalizedBlocks :=
      fun hmem => ht (QuorumCollector.mem_count_finalized.mpr (.inl hmem))
    show ((s.collector.count s.validators vote v.amount).voteStakeTotals t).toNat ≤ _
    rw [QuorumCollector.count_totals]
    by_cases hh : t = vote.blockHash
    · subst hh
      rw [if_pos rfl]
      exact hs.count_le hT hv haddr hnew hopen
    · rw [if_neg hh, UInt64.add_zero]
      have hstake := QuorumCollector.count_stakeFor (q := s.collector) hs.nodup hv haddr hnew t
      rw [if_neg hh, Nat.add_zero] at hstake
      exact (hs.totals t hopen).trans hstake.ge

/-- **Step lemma**: every call that keeps the voters keeps the invariant. -/
theorem OpenTotals.step {C : Crypto} {fl : FloatOps F} {s : FinalityState} (hs : OpenTotals s)
    (hT : totalStake s.validators < 2 ^ 62) {op : StakeOp F} (hkeep : KeepsVoters fl s op) :
    OpenTotals (s.step C fl op) := by
  cases op with
  | register now address stake key =>
    simp only [FinalityState.step]
    cases h : registerValidator C now s.validators address stake key with
    | none => exact hs
    | some vs' => exact hs.register h
  | unregister address =>
    simp only [FinalityState.step]
    cases h : unregisterValidator s.validators address with
    | none => exact hs
    | some vs' => exact hs.unregister h hkeep
  | slash address penalty => exact hs.slash hkeep
  | vote vote => exact hs.vote hT vote

/-- **Run lemma**: the invariant after every prefix of a run whose calls keep the voters. -/
theorem runStake_openTotals {C : Crypto} {fl : FloatOps F} {ops : List (StakeOp F)}
    (hT : ∀ pre, pre <+: ops → totalStake (runStake C fl pre).validators < 2 ^ 62)
    (hkeep : ∀ pre op, pre ++ [op] <+: ops → KeepsVoters fl (runStake C fl pre) op)
    {pre : List (StakeOp F)} (hpre : pre <+: ops) : OpenTotals (runStake C fl pre) := by
  refine Run.foldl_invariant OpenTotals openTotals_start ?_ hpre
  intro pre op hpre hs
  exact hs.step (hT pre ((List.prefix_append pre [op]).trans hpre)) (hkeep pre op hpre)

/-! ## The moment of finality -/

/-- A vote that finalizes a hash still open has two thirds of the live stake behind it. -/
theorem OpenTotals.finalizes {C : Crypto} {s : FinalityState} (hs : OpenTotals s)
    (hT : totalStake s.validators < 2 ^ 62) {vote : BlockVote} {h : Bytes}
    (hopen : h ∉ s.collector.finalizedBlocks)
    (hfin : h ∈ (addVote C s.validators s.collector vote).2.finalizedBlocks) :
    2 * totalStake s.validators ≤
      3 * (addVote C s.validators s.collector vote).2.stakeFor s.validators h := by
  rcases addVote_cases C s.validators s.collector vote with
    ⟨-, heq⟩ | ⟨v, hv, haddr, -, -, hnew, heq⟩
  · rw [heq] at hfin
    exact absurd hfin hopen
  · rw [heq] at hfin ⊢
    rcases QuorumCollector.mem_count_finalized.mp hfin with hmem | ⟨rfl, htest⟩
    · exact absurd hmem hopen
    · have hle := hs.count_le hT hv haddr hnew hopen
      have hwt : (s.collector.count s.validators vote v.amount).stakeFor s.validators
          vote.blockHash ≤ totalStake s.validators := Quorum.weight_le_total _ _ _
      have hge := htest.exact (by omega) (hle.trans hwt)
      exact hge.trans (Nat.mul_le_mul_left 3 hle)

/-- **Live finality**: in every run in which no call takes stake from a voter of an open hash, a vote
that finalizes a hash has two thirds of the active stake behind it, held by active validators with an
accepted vote. -/
theorem finalized_by_live_stake (C : Crypto) (fl : FloatOps F) (ops : List (StakeOp F))
    (hT : ∀ pre, pre <+: ops → totalStake (runStake C fl pre).validators < 2 ^ 62)
    (hkeep : ∀ pre op, pre ++ [op] <+: ops → KeepsVoters fl (runStake C fl pre) op)
    (pre : List (StakeOp F)) (vote : BlockVote) (hpre : pre ++ [.vote vote] <+: ops) (h : Bytes)
    (hopen : h ∉ (runStake C fl pre).collector.finalizedBlocks)
    (hfin : h ∈ (runStake C fl (pre ++ [.vote vote])).collector.finalizedBlocks) :
    let s := runStake C fl (pre ++ [.vote vote])
    2 * (getTotalActiveStake s.validators).toNat ≤ 3 * s.collector.stakeFor s.validators h := by
  intro s
  have hpre' : pre <+: ops := (List.prefix_append pre [.vote vote]).trans hpre
  have hs := runStake_openTotals hT hkeep hpre'
  have hs' : s = (runStake C fl pre).step C fl (.vote vote) := runStake_concat C fl pre _
  have hvs : s.validators = (runStake C fl pre).validators := by rw [hs']; rfl
  have hsmall := hT pre hpre'
  rw [runStake_concat] at hfin
  rw [hvs, getTotalActiveStake_eq (by omega), hs']
  exact hs.finalizes hsmall hopen hfin

/-- Four validators of equal stake of which one leaves, then two of three vote. -/
def liveRun : List (StakeOp ℚ) :=
  [.register 1 [97] 1000000 [], .register 1 [98] 1000000 [], .register 1 [99] 1000000 [],
    .register 1 [100] 1000000 [], .unregister [100], .vote (polyVote [97] [7] [1]),
    .vote (polyVote [98] [8] [1])]

theorem finalized_by_live_stake_sample :
    [1] ∉ (runStake polyCrypto exactFloat (liveRun.take 6)).collector.finalizedBlocks ∧
    [1] ∈ (runStake polyCrypto exactFloat liveRun).collector.finalizedBlocks ∧
    2 * (getTotalActiveStake (runStake polyCrypto exactFloat liveRun).validators).toNat ≤
      3 * (runStake polyCrypto exactFloat liveRun).collector.stakeFor
        (runStake polyCrypto exactFloat liveRun).validators [1] := by
  have hopen : [1] ∉ (runStake polyCrypto exactFloat (liveRun.take 6)).collector.finalizedBlocks := by
    decide +kernel
  have hfin : [1] ∈ (runStake polyCrypto exactFloat liveRun).collector.finalizedBlocks := by
    decide +kernel
  refine ⟨hopen, hfin, ?_⟩
  refine finalized_by_live_stake polyCrypto exactFloat liveRun ?_ ?_ (liveRun.take 6)
    (polyVote [98] [8] [1]) (List.prefix_refl _) [1] hopen hfin
  · have key : ∀ pre ∈ liveRun.inits,
        totalStake (runStake polyCrypto exactFloat pre).validators < 2 ^ 62 := by decide +kernel
    intro pre hpre
    exact key pre ((List.mem_inits _ _).mpr hpre)
  · intro pre op hpre
    have hlen : pre.length < 7 := by
      show pre.length + 1 ≤ liveRun.length
      simpa using hpre.length_le
    obtain ⟨htake, hget⟩ := Run.prefix_concat hpre
    -- only the fifth call takes stake away, and nobody has voted then
    generalize pre.length = n at hlen htake hget
    subst htake
    interval_cases n <;> cases hget
    · trivial
    · trivial
    · trivial
    · trivial
    · exact fun _ _ => rfl
    · trivial
    · trivial

/-- Of three validators the first votes and leaves, then the second votes: the hash is finalized with
half of the active stake behind it. -/
def staleRun : List (StakeOp ℚ) :=
  [.register 1 [97] 1000000 [], .register 1 [98] 1000000 [], .register 1 [99] 1000000 [],
    .vote (polyVote [97] [7] [1]), .unregister [97], .vote (polyVote [98] [8] [1])]

theorem finalized_by_stale_stake :
    totalStake (runStake polyCrypto exactFloat (staleRun.take 3)).validators = 3000000 ∧
    [1] ∉ (runStake polyCrypto exactFloat (staleRun.take 5)).collector.finalizedBlocks ∧
    [1] ∈ (runStake polyCrypto exactFloat staleRun).collector.finalizedBlocks ∧
    3 * (runStake polyCrypto exactFloat staleRun).collector.stakeFor
        (runStake polyCrypto exactFloat staleRun).validators [1] <
      2 * (getTotalActiveStake (runStake polyCrypto exactFloat staleRun).validators).toNat := by
  decide +kernel

end Mermai
