import Mermai.Consensus.Order
import Mermai.Chain.Invariant

/-!
# Node.Producer — the block a node assembles, and its own validator

`MermaiNode::consensus_loop` assembles a block for the current slot and hands it to `can_add_block`.
The two compute slot, stake and age in two places, and they agree (`fillValidator_age`).  They differ
in two respects: the producer copies the registered public key into the block and never signs it,
while the validator asks for a signature as soon as a key is registered; and the producer counts
heights modulo 2³².  `producer_accepted_iff` says exactly when the node takes its own block.
-/

namespace Mermai

variable {F : Type}

/-! ## The assembled block -/

/-- The validator `consensus_loop` and `validate_proposal` look up: the first with the address of the
proposer. -/
def selectedValidator (C : Crypto) (fl : FloatOps F) (vs : List ValidatorStake) (slot : UInt64) :
    Option ValidatorStake :=
  vs.find? fun v => v.address = selectBlockProposer C fl vs slot

/-- The block before the record of the proposer is looked up. -/
def nextBlock (C : Crypto) (chain : List Block) (latest : Block) (slot : UInt64) (proposer : Bytes) :
    Block where
  height := getHeight chain + 1
  timestamp := slot
  prevBlockHash := latest.hashHex C
  validatorAddress := proposer

/-- The fields `consensus_loop` copies from the record of the proposer. -/
def Block.fillValidator (b : Block) (slot : UInt64) (v : ValidatorStake) : Block :=
  { b with validatorStake := v.amount
           validatorAge := if v.lockTime < slot then slot - v.lockTime else 0
           validatorPublicKey := v.publicKey }

/-- The block of one round of `consensus_loop` at clock `currentTime`; `none` when it makes none. -/
def assembleBlock (C : Crypto) (fl : FloatOps F) (vs : List ValidatorStake) (chain : List Block)
    (currentTime : UInt64) : Option Block :=
  let slot := slotTime currentTime
  let proposer := selectBlockProposer C fl vs slot
  if proposer = [] then none
  else
    match chain.getLast? with
    | none => none
    | some latest =>
      let newBlock := nextBlock C chain latest slot proposer
      match selectedValidator C fl vs slot with
      | none => some newBlock
      | some v => some (newBlock.fillValidator slot v)

/-- There is a proposer as soon as there is a validator. -/
theorem selectedValidator_isSome (C : Crypto) (fl : FloatOps F) {vs : List ValidatorStake}
    (hvs : vs ≠ []) (slot : UInt64) : (selectedValidator C fl vs slot).isSome = true := by
  have hmem := selectWith_mem C fl (fun v => calculateWeight fl v slot)
    (fun v => fl.print (calculateWeight fl v slot)) hvs slot
  rw [← selectBlockProposer_eq] at hmem
  obtain ⟨v, hv, ha⟩ := List.mem_map.mp hmem
  exact List.find?_isSome.mpr ⟨v, hv, by simpa using ha⟩

theorem selectedValidator_address {C : Crypto} {fl : FloatOps F} {vs : List ValidatorStake}
    {slot : UInt64} {v : ValidatorStake} (hv : selectedValidator C fl vs slot = some v) :
    v.address = selectBlockProposer C fl vs slot := by
  simpa using List.find?_some hv

/-! ## Slots and ages -/

theorem slotTime_toNat (t : UInt64) : (slotTime t).toNat = t.toNat - t.toNat % 10 := by
  have hle : t % 10 ≤ t := by
    rw [UInt64.le_iff_toNat_le, UInt64.toNat_mod]
    exact Nat.mod_le _ _
  rw [slotTime, UInt64.toNat_sub_of_le _ _ hle, UInt64.toNat_mod]
  rfl

/-- The start of a slot is its own slot. -/
theorem slotTime_slotTime (t : UInt64) : slotTime (slotTime t) = slotTime t := by
  apply UInt64.toNat_inj.mp
  rw [slotTime_toNat, slotTime_toNat]
  omega

/-- The producer compares with `>`, the validator with `>=`. -/
theorem fillValidator_age (b : Block) (slot : UInt64) (v : ValidatorStake) :
    (b.fillValidator slot v).validatorAge = stakeAge v slot := by
  show (if v.lockTime < slot then slot - v.lockTime else 0) = stakeAge v slot
  unfold stakeAge
  rcases eq_or_ne v.lockTime slot with h | h
  · simp [h]
  · have hlt : v.lockTime < slot ↔ v.lockTime ≤ slot := by
      have hne : v.lockTime.toNat ≠ slot.toNat := fun hn => h (UInt64.toNat_inj.mp hn)
      rw [UInt64.lt_iff_toNat_lt, UInt64.le_iff_toNat_le]
      omega
    simp only [hlt]

/-! ## The verdict -/

/-- The producer's height is the one the validator wants until the counter wraps. -/
theorem height_ok_iff {chain : List Block} (hne : chain ≠ []) :
    (getHeight chain + 1).toNat = chain.length ↔ chain.length < 2 ^ 32 := by
  constructor
  · intro h
    rw [← h]
    exact UInt32.toNat_lt _
  · intro h
    have hs := getHeight_succ hne h.le
    rw [UInt32.toNat_add, UInt32.toNat_one]
    omega

/-- A block without a signature passes exactly for a validator without a key. -/
theorem signatureValid_unsigned {C : Crypto} {b : Block} {key : Bytes}
    (hb : b.validatorSignature = []) : signatureValid C b key = true ↔ key = [] := by
  simp [signatureValid, Block.verifyValidatorSignature, hb]

theorem assembleBlock_eq {C : Crypto} {fl : FloatOps F} {vs : List ValidatorStake}
    {chain : List Block} {tip : Block} {v : ValidatorStake} {currentTime : UInt64}
    (hv : selectedValidator C fl vs (slotTime currentTime) = some v) (hne : v.address ≠ [])
    (htip : chain.getLast? = some tip) :
    assembleBlock C fl vs chain currentTime = some ((nextBlock C chain tip (slotTime currentTime)
      v.address).fillValidator (slotTime currentTime) v) := by
  have haddr := selectedValidator_address hv
  unfold assembleBlock
  dsimp only
  rw [if_neg (haddr ▸ hne), htip, hv, ← haddr]

section Assembled

variable {C : Crypto} {fl : FloatOps F} {chain : List Block} {tip : Block} {v : ValidatorStake}
  {slot : UInt64}

/-- The checks against the tip. -/
theorem extendsTip_assembled {now : ℕ} (hne : v.address ≠ []) (hstake : 0 < v.amount)
    (htip : chain.getLast? = some tip) (htime : tip.timestamp ≤ slot)
    (hnow : slot.toNat ≤ now + 120) :
    extendsTip C now chain ((nextBlock C chain tip slot v.address).fillValidator slot v) = true ↔
      chain.length < 2 ^ 32 := by
  have hchain : chain ≠ [] := by
    rintro rfl
    cases htip
  have hdigest : tip.hashHex C ≠ [] := IsDigest.ne_nil ⟨tip.serialize, rfl⟩
  have hpos : ((nextBlock C chain tip slot v.address).fillValidator slot v).verifyTimeWeightPos =
      true := decide_eq_true ⟨hne, hstake⟩
  rw [extendsTip_iff, ← height_ok_iff hchain]
  constructor
  · rintro ⟨_, -, h, -⟩
    exact h
  · intro h
    exact ⟨tip, htip, h, hdigest, rfl, htime, hnow, hpos⟩

/-- The checks against the record of the validator: only the signature can fail. -/
theorem authorizes_assembled {vs : List ValidatorStake} (hv : selectedValidator C fl vs slot = some v)
    (hne : v.address ≠ []) (hweight : fl.lt (fl.lit 0 0) (calculateWeight fl v slot) = true) :
    authorizes C fl vs ((nextBlock C chain tip slot v.address).fillValidator slot v) slot = true ↔
      v.publicKey = [] := by
  set b := (nextBlock C chain tip slot v.address).fillValidator slot v with hb
  have hfind : vs.find? (fun u => u.address = b.validatorAddress) = some v := by
    rw [← hv, selectedValidator, ← selectedValidator_address hv]
    rfl
  have hage : b.validatorAge = stakeAge v slot := fillValidator_age _ slot v
  have hsig : signatureValid C b v.publicKey = true ↔ v.publicKey = [] :=
    signatureValid_unsigned rfl
  unfold authorizes
  rw [hfind]
  simp only [decide_eq_true_eq, hsig, verifyProposerIsAuthorized, hweight, true_and]
  exact ⟨fun h => h.2.2.1, fun h => ⟨rfl, hage, h, hne⟩⟩

/-- The engine's verdict at the timestamp of the block. -/
theorem proposalOk_assembled {e : Engine} {t : UInt64} (hslot : slot = slotTime t)
    (hv : selectedValidator C fl e.activeValidators slot = some v) (hne : v.address ≠ [])
    (hweight : fl.lt (fl.lit 0 0) (calculateWeight fl v slot) = true)
    (hseen : e.seenProposals (getHeight chain + 1, slot) = none) :
    (proposalOk C fl (some e)
      ((nextBlock C chain tip slot v.address).fillValidator slot v)).ok = true ↔
      v.publicKey = [] := by
  set b := (nextBlock C chain tip slot v.address).fillValidator slot v with hb
  have hnames : namesProposer C fl e.activeValidators b slot = true := by
    rw [namesProposer, ← selectedValidator_address hv]
    exact decide_eq_true ⟨hne, rfl⟩
  have hfresh : ∀ hash, e.seenProposals (b.height, slot) = some hash → hash = b.hashHex C := by
    intro hash hh
    have hnone : e.seenProposals (b.height, slot) = none := hseen
    rw [hnone] at hh
    cases hh
  show decide ((validateProposal C fl e b slot).1 = .accepted) = true ↔ _
  rw [decide_eq_true_eq, validateProposal_accepted, hslot, slotTime_slotTime, ← hslot,
    authorizes_assembled hv hne hweight]
  exact ⟨fun h => h.2.2, fun h => ⟨hnames, hfresh, h⟩⟩

/-- The block has no transactions. -/
theorem bodyOk_assembled (now : ℕ) :
    bodyOk C now ((nextBlock C chain tip slot v.address).fillValidator slot v) = true := by
  simp [bodyOk, merkleOk, transactionsOk, Block.fillValidator, nextBlock]

end Assembled

/-- **The producer and its validator**: for every engine, chain and clock with a tip not after the
slot, no recorded proposal, and a selected validator of positive stake and weight, the node accepts
the block it assembles exactly when no key is registered for the validator and the chain has fewer
than 2³² blocks. -/
theorem producer_accepted_iff (C : Crypto) (fl : FloatOps F) (now : ℕ) (currentTime : UInt64)
    (e : Engine) (chain : List Block) (tip : Block) (v : ValidatorStake)
    (hv : selectedValidator C fl e.activeValidators (slotTime currentTime) = some v)
    (hne : v.address ≠ []) (hstake : 0 < v.amount)
    (hweight : fl.lt (fl.lit 0 0) (calculateWeight fl v (slotTime currentTime)) = true)
    (htip : chain.getLast? = some tip) (htime : tip.timestamp ≤ slotTime currentTime)
    (hseen : e.seenProposals (getHeight chain + 1, slotTime currentTime) = none)
    (hnow : currentTime.toNat ≤ now) :
    ∃ b, assembleBlock C fl e.activeValidators chain currentTime = some b ∧
      ((canAddBlock C fl now (some e) chain (some b)).ok = true ↔
        v.publicKey = [] ∧ chain.length < 2 ^ 32) := by
  have hlate : (slotTime currentTime).toNat ≤ now + 120 := by
    rw [slotTime_toNat]
    omega
  refine ⟨_, assembleBlock_eq hv hne htip, ?_⟩
  rw [canAddBlock_ok_iff, extendsTip_assembled hne hstake htip htime hlate,
    proposalOk_assembled rfl hv hne hweight hseen]
  constructor
  · rintro ⟨hlen, hkey, -⟩
    exact ⟨hkey, hlen⟩
  · rintro ⟨hkey, hlen⟩
    exact ⟨hlen, hkey, bodyOk_assembled now⟩

/-! ## Two engines -/

/-- A validator registered without a key. -/
def keylessValidator : ValidatorStake := ⟨[118], 1000000, 1639999990, 0, []⟩

theorem producer_accepted_keyless :
    ∃ b, assembleBlock polyCrypto exactFloat [keylessValidator] [genesis] 1640000013 = some b ∧
      (canAddBlock polyCrypto exactFloat 1640000013 (some ⟨[keylessValidator], fun _ => none⟩)
        [genesis] (some b)).ok = true := by
  obtain ⟨b, hb, hok⟩ := producer_accepted_iff polyCrypto exactFloat 1640000013 1640000013
    ⟨[keylessValidator], fun _ => none⟩ [genesis] genesis keylessValidator (by decide +kernel)
    (by decide) (by decide) (by decide +kernel) rfl (by decide) rfl (by decide)
  exact ⟨b, hb, hok.mpr ⟨rfl, by decide⟩⟩

/-- The same engine with a registered key: the assembled block has no signature and is refused. -/
theorem keyed_producer_refused :
    let keyed : ValidatorStake := { keylessValidator with publicKey := [7] }
    selectedValidator polyCrypto exactFloat [keyed] (slotTime 1640000013) = some keyed ∧
      0 < keyed.amount ∧
      exactFloat.lt (exactFloat.lit 0 0) (calculateWeight exactFloat keyed (slotTime 1640000013)) ∧
      genesis.timestamp ≤ slotTime 1640000013 ∧
      ∃ b ∈ assembleBlock polyCrypto exactFloat [keyed] [genesis] 1640000013,
        (canAddBlock polyCrypto exactFloat 1640000013 (some ⟨[keyed], fun _ => none⟩) [genesis]
          (some b)).ok = false := by
  intro keyed
  exact ⟨by decide +kernel, by decide, by decide +kernel, by decide, by decide +kernel⟩

end Mermai
