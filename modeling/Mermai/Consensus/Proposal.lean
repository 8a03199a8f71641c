import Mermai.Consensus.Stake

/-!
# Consensus.Proposal — validation of block proposals

`mermai_proposal_validator::validate_proposal` with its static table `seen_proposals`.  One call has
three stages: is the block by the proposer of the slot, is it the block the table holds for its
height and slot, and is it authorized by the validator's record.  The second stage writes the table
and slashes before the third looks at the signature.
-/

namespace Mermai

variable {F : Type}

/-- The consensus engine together with the static table of the proposal validator. -/
structure Engine where
  activeValidators : List ValidatorStake
  /-- `(height, slot) → block hash`. -/
  seenProposals : UInt32 × UInt64 → Option Bytes

/-- The penalty for a double proposal: half of the stake. -/
def Engine.slash (fl : FloatOps F) (e : Engine) (address : Bytes) : Engine :=
  { e with activeValidators := slashValidator fl e.activeValidators address (fl.lit 5 1) }

/-- Write the table. -/
def Engine.record (e : Engine) (key : UInt32 × UInt64) (hash : Bytes) : Engine :=
  { e with seenProposals := Function.update e.seenProposals key (some hash) }

/-- What one call of `validate_proposal` does: it returns true exactly for `accepted`. -/
inductive ProposalResult
  | rejected
  | slashed (address : Bytes)
  | accepted
deriving DecidableEq

/-- The start of the ten-second slot of a time. -/
def slotTime (currentTime : UInt64) : UInt64 := currentTime - currentTime % 10

/-- The block names the proposer of the slot. -/
def namesProposer (C : Crypto) (fl : FloatOps F) (vs : List ValidatorStake) (b : Block)
    (slot : UInt64) : Bool :=
  selectBlockProposer C fl vs slot ≠ [] ∧ b.validatorAddress = selectBlockProposer C fl vs slot

/-- `verify_proposer_is_authorized`. -/
def verifyProposerIsAuthorized (fl : FloatOps F) (proposer : Bytes) (weight : F) : Bool :=
  fl.lt (fl.lit 0 0) weight ∧ proposer ≠ []

/-- The block carries a signature valid under the key, unless the key is empty. -/
def signatureValid (C : Crypto) (b : Block) (key : Bytes) : Bool :=
  key = [] ∨ (b.validatorPublicKey = key ∧ b.verifyValidatorSignature C)

/-- The last loop of `validate_proposal`: the record of the named validator authorizes the block. -/
def authorizes (C : Crypto) (fl : FloatOps F) (vs : List ValidatorStake) (b : Block)
    (slot : UInt64) : Bool :=
  match vs.find? fun v => v.address = b.validatorAddress with
  | none => false
  | some v =>
    b.validatorStake = v.amount ∧ b.validatorAge = stakeAge v slot ∧
      signatureValid C b v.publicKey ∧
      verifyProposerIsAuthorized fl b.validatorAddress (calculateWeight fl v slot)

/-- The result of the last stage. -/
def authorization (C : Crypto) (fl : FloatOps F) (vs : List ValidatorStake) (b : Block)
    (slot : UInt64) : ProposalResult :=
  if authorizes C fl vs b slot then .accepted else .rejected

/-- `mermai_proposal_validator::validate_proposal` on a non-null block. -/
def validateProposal (C : Crypto) (fl : FloatOps F) (e : Engine) (b : Block)
    (currentTime : UInt64) : ProposalResult × Engine :=
  let slot := slotTime currentTime
  if ¬ namesProposer C fl e.activeValidators b slot then (.rejected, e)
  else
    match e.seenProposals (b.height, slot) with
    | some hash =>
      if hash ≠ b.hashHex C then
        -- equivocation: the hash covers the signature, and nobody has verified it yet
        (.slashed b.validatorAddress, e.slash fl b.validatorAddress)
      else (authorization C fl e.activeValidators b slot, e)
    | none =>
      (authorization C fl e.activeValidators b slot, e.record (b.height, slot) (b.hashHex C))

/-- One call of `validate_proposal`: the engine before it and its arguments. -/
structure ProposalCall where
  before : Engine
  block : Block
  time : UInt64

/-- The engine after the call. -/
def ProposalCall.after (C : Crypto) (fl : FloatOps F) (c : ProposalCall) : Engine :=
  (validateProposal C fl c.before c.block c.time).2

/-- The key of the call in the table: height and slot. -/
def ProposalCall.key (c : ProposalCall) : UInt32 × UInt64 := (c.block.height, slotTime c.time)

/-! ## What one call does -/

/-- **Inversion** of `validate_proposal`: everything a call can do. -/
theorem validateProposal_cases (C : Crypto) (fl : FloatOps F) (e : Engine) (b : Block)
    (t : UInt64) :
    (namesProposer C fl e.activeValidators b (slotTime t) = false ∧
      validateProposal C fl e b t = (.rejected, e)) ∨
    (namesProposer C fl e.activeValidators b (slotTime t) = true ∧
      ((∃ h, e.seenProposals (b.height, slotTime t) = some h ∧ h ≠ b.hashHex C ∧
          validateProposal C fl e b t =
            (.slashed b.validatorAddress, e.slash fl b.validatorAddress)) ∨
        (e.seenProposals (b.height, slotTime t) = some (b.hashHex C) ∧
          validateProposal C fl e b t =
            (authorization C fl e.activeValidators b (slotTime t), e)) ∨
        (e.seenProposals (b.height, slotTime t) = none ∧
          validateProposal C fl e b t = (authorization C fl e.activeValidators b (slotTime t),
            e.record (b.height, slotTime t) (b.hashHex C))))) := by
  cases hn : namesProposer C fl e.activeValidators b (slotTime t) with
  | false => exact .inl ⟨rfl, by simp [validateProposal, hn]⟩
  | true =>
    refine .inr ⟨rfl, ?_⟩
    cases hs : e.seenProposals (b.height, slotTime t) with
    | none => exact .inr (.inr ⟨rfl, by simp [validateProposal, hn, hs]⟩)
    | some h =>
      by_cases hh : h = b.hashHex C
      · exact .inr (.inl ⟨by rw [hh], by simp [validateProposal, hn, hs, hh]⟩)
      · exact .inl ⟨h, rfl, hh, by simp [validateProposal, hn, hs, hh]⟩

theorem authorization_eq_accepted {C : Crypto} {fl : FloatOps F} {vs : List ValidatorStake}
    {b : Block} {slot : UInt64} :
    authorization C fl vs b slot = .accepted ↔ authorizes C fl vs b slot = true := by
  unfold authorization
  split_ifs with h <;> simp [h]

/-- A call accepts exactly when the block names the proposer, no other block is in the table under
its key, and the record authorizes it. -/
theorem validateProposal_accepted {C : Crypto} {fl : FloatOps F} {e : Engine} {b : Block}
    {t : UInt64} :
    (validateProposal C fl e b t).1 = .accepted ↔
      namesProposer C fl e.activeValidators b (slotTime t) = true ∧
      (∀ h, e.seenProposals (b.height, slotTime t) = some h → h = b.hashHex C) ∧
      authorizes C fl e.activeValidators b (slotTime t) = true := by
  rcases validateProposal_cases C fl e b t with
    ⟨hn, h⟩ | ⟨hn, ⟨h', hs, hne, h⟩ | ⟨hs, h⟩ | ⟨hs, h⟩⟩
  · simp [h, hn]
  · simp [h, hs, hne]
  · simp [h, hn, hs, authorization_eq_accepted]
  · simp [h, hn, hs, authorization_eq_accepted]

/-- An accepted call leaves the validators as they are. -/
theorem validateProposal_validators {C : Crypto} {fl : FloatOps F} {e : Engine} {b : Block}
    {t : UInt64} (h : (validateProposal C fl e b t).1 = .accepted) :
    (validateProposal C fl e b t).2.activeValidators = e.activeValidators := by
  rcases validateProposal_cases C fl e b t with
    ⟨-, hv⟩ | ⟨-, ⟨_, -, -, hv⟩ | ⟨-, hv⟩ | ⟨-, hv⟩⟩
  · rw [hv]
  · rw [hv] at h
    cases h
  · rw [hv]
  · rw [hv]
    rfl

/-- The table after an accepted call holds the block under its key. -/
theorem validateProposal_seen {C : Crypto} {fl : FloatOps F} {e : Engine} {b : Block}
    {t : UInt64} (h : (validateProposal C fl e b t).1 = .accepted) :
    (validateProposal C fl e b t).2.seenProposals =
      Function.update e.seenProposals (b.height, slotTime t) (some (b.hashHex C)) := by
  rcases validateProposal_cases C fl e b t with
    ⟨-, hv⟩ | ⟨-, ⟨_, -, -, hv⟩ | ⟨hs, hv⟩ | ⟨-, hv⟩⟩
  · rw [hv] at h
    cases h
  · rw [hv] at h
    cases h
  · rw [hv, ← hs, Function.update_eq_self]
  · rw [hv]
    rfl

/-- **Repetition**: an accepted block is accepted again, and the second call changes nothing. -/
theorem validateProposal_again {C : Crypto} {fl : FloatOps F} {e : Engine} {b : Block}
    {t : UInt64} (h : (validateProposal C fl e b t).1 = .accepted) :
    validateProposal C fl (validateProposal C fl e b t).2 b t =
      (.accepted, (validateProposal C fl e b t).2) := by
  have hv := validateProposal_validators h
  have hs := validateProposal_seen h
  obtain ⟨hn, -, ha⟩ := validateProposal_accepted.mp h
  rcases validateProposal_cases C fl (validateProposal C fl e b t).2 b t with
    ⟨hn', -⟩ | ⟨-, ⟨h', hs', hne, -⟩ | ⟨-, hv'⟩ | ⟨hs', -⟩⟩
  · rw [hv, hn] at hn'
    cases hn'
  · rw [hs, Function.update_self] at hs'
    exact absurd (Option.some.inj hs').symm hne
  · rw [hv', hv, authorization_eq_accepted.mpr ha]
  · rw [hs, Function.update_self] at hs'
    cases hs'

end Mermai
