import Mermai.Core.Multisig

/-!
# Core.VotePayload — what the signature of a vote covers

`mermai_block_vote::signing_payload` joins four fields with colons and writes no lengths.  The two
numbers hold no colon, so the payload determines them (`signingPayload_numbers`).  It determines the
address and the hash exactly when neither holds a colon (`signingPayload_covers_iff`); a signature is valid
for every vote with the same payload (`verifySignature_of_signingPayload`).
-/

namespace Mermai

namespace BlockVote

/-- The same validator votes for the same block, at the same height and time. -/
def SameVote (v v' : BlockVote) : Prop :=
  v.validatorAddress = v'.validatorAddress ∧ v.blockHash = v'.blockHash ∧
    v.blockHeight = v'.blockHeight ∧ v.timestamp = v'.timestamp

instance (v v' : BlockVote) : Decidable (v.SameVote v') := inferInstanceAs (Decidable (_ ∧ _))

/-- The validator and the block, as the payload joins them. -/
def subject (v : BlockVote) : Bytes := v.validatorAddress ++ 58 :: v.blockHash

theorem signingPayload_eq (v : BlockVote) :
    v.signingPayload =
      (v.subject ++ 58 :: decimal v.blockHeight.toNat) ++ 58 :: decimal v.timestamp.toNat := by
  simp only [signingPayload, subject, List.append_assoc, List.cons_append, List.nil_append]

/-- Read from the back, the payload determines the two numbers and leaves the subject. -/
theorem signingPayload_numbers {v v' : BlockVote} (h : v.signingPayload = v'.signingPayload) :
    v.subject = v'.subject ∧ v.blockHeight = v'.blockHeight ∧ v.timestamp = v'.timestamp := by
  rw [signingPayload_eq, signingPayload_eq] at h
  obtain ⟨hfront, htime⟩ :=
    Delimited.append_sep_inj_last (notMem_decimal rfl _) (notMem_decimal rfl _) h
  obtain ⟨hsubject, hheight⟩ :=
    Delimited.append_sep_inj_last (notMem_decimal rfl _) (notMem_decimal rfl _) hfront
  exact ⟨hsubject, UInt32.toNat_inj.mp (decimal_injective hheight),
    UInt64.toNat_inj.mp (decimal_injective htime)⟩

theorem signingPayload_eq_iff (v v' : BlockVote) : v.signingPayload = v'.signingPayload ↔
    v.subject = v'.subject ∧ v.blockHeight = v'.blockHeight ∧ v.timestamp = v'.timestamp := by
  refine ⟨signingPayload_numbers, ?_⟩
  rintro ⟨hsubject, hheight, htime⟩
  rw [signingPayload_eq, signingPayload_eq, hsubject, hheight, htime]

/-- **A signature covers the payload only**: it is valid for every vote with the same payload and key. -/
theorem verifySignature_of_signingPayload (C : Crypto) {v v' : BlockVote}
    (h : v.signingPayload = v'.signingPayload)
    (hkey : v.validatorPublicKey = v'.validatorPublicKey) (hsignature : v.signature = v'.signature) :
    v.verifySignature C = v'.verifySignature C := by
  simp only [verifySignature, h, hkey, hsignature]

/-- **The payload of a vote stands for that vote alone exactly when neither the address nor the hash
holds a colon.** -/
theorem signingPayload_covers_iff (v : BlockVote) :
    (∀ v' : BlockVote, v.signingPayload = v'.signingPayload → v.SameVote v') ↔
      58 ∉ v.validatorAddress ∧ 58 ∉ v.blockHash := by
  rw [← Delimited.join_unique_iff]
  constructor
  · intro h address hash hjoin
    obtain ⟨haddress, hhash, -⟩ := h { v with validatorAddress := address, blockHash := hash }
      ((signingPayload_eq_iff _ _).mpr ⟨hjoin, rfl, rfl⟩)
    exact ⟨haddress, hhash⟩
  · intro h v' hpayload
    obtain ⟨hsubject, hheight, htime⟩ := signingPayload_numbers hpayload
    obtain ⟨haddress, hhash⟩ := h _ _ hsubject
    exact ⟨haddress, hhash, hheight, htime⟩

/-- `"a:b"` votes for `"c"` with the payload of `"a"` voting for `"b:c"`. -/
theorem signingPayload_ambiguous :
    ∃ v v' : BlockVote, v.signingPayload = v'.signingPayload ∧ ¬ v.SameVote v' :=
  ⟨{ validatorAddress := [97, 58, 98], blockHash := [99], blockHeight := 7, timestamp := 5
     validatorPublicKey := [], signature := [] },
    { validatorAddress := [97], blockHash := [98, 58, 99], blockHeight := 7, timestamp := 5
      validatorPublicKey := [], signature := [] }, by decide, by decide⟩

end BlockVote

end Mermai
