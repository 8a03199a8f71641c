import Mermai.Lib.Delimited
import Mermai.Core.Sign
import Mathlib.Data.Finset.Card
import Mathlib.Data.Finset.Image

/-!
# Core.Multisig — committee accounts

`mermai_multisig_engine`.  An account is a threshold and a list of public keys, under an address that
is the head of a digest of the two; a transaction carries signatures of its payload.

* `approvers`: the members with a valid signature.  The loop of `verify_multisig_tx` counts them
  (`countSignatures_eq`), each once and in any order of the entries.
* `calculateMultisigAddress` tells committees apart as far as the digests do (`addressPayload_inj`).
* The verifier never looks at the address of a transaction (`exists_approved`).
-/

namespace Mermai

open Codec

/-! ## Accounts -/

/-- `hex_encode`. -/
def hexEncode (data : Bytes) : Bytes := hashToHex data

/-- `mermai_multisig_account`. -/
structure MultisigAccount where
  address : Bytes := []
  threshold : UInt32 := 1
  signers : List Bytes := []
  balance : UInt64 := 0
  nonce : UInt64 := 0
deriving DecidableEq

/-- The loops that write the keys in hex, each with a comma behind it. -/
def keyTexts (keys : List Bytes) : Bytes := Delimited.ends 44 hexEncode keys

/-- The text that `calculate_multisig_address` hashes. -/
def addressPayload (threshold : UInt32) (publicKeys : List Bytes) : Bytes :=
  decimal threshold.toNat ++ 58 :: keyTexts publicKeys

/-- `calculate_multisig_address`: the text `mrm_ms1` and twenty bytes of a digest in hex. -/
def calculateMultisigAddress (C : Crypto) (threshold : UInt32) (publicKeys : List Bytes) : Bytes :=
  [109, 114, 109, 95, 109, 115, 49] ++
    hexEncode ((C.sha256 (addressPayload threshold publicKeys)).take 20)

/-- `create_account`. -/
def createAccount (C : Crypto) (threshold : UInt32) (publicKeys : List Bytes) : MultisigAccount :=
  { threshold
    signers := publicKeys
    address := calculateMultisigAddress C threshold publicKeys }

/-- The first 20 bytes of SHA-256 have no collision among the strings of `S`. -/
def Crypto.HeadCollisionFreeOn (C : Crypto) (S : Set Bytes) : Prop :=
  ∀ m ∈ S, ∀ m' ∈ S, (C.sha256 m).take 20 = (C.sha256 m').take 20 → m = m'

theorem Crypto.HeadCollisionFreeOn.subset {C : Crypto} {S T : Set Bytes} (h : C.HeadCollisionFreeOn S)
    (hsub : T ⊆ S) : C.HeadCollisionFreeOn T := fun m hm m' hm' => h m (hsub hm) m' (hsub hm')

theorem comma_notMem_hexEncode (key : Bytes) : 44 ∉ hexEncode key :=
  notMem_hashToHex (by decide) key

theorem notMem_decimal {b : UInt8} (hb : isDecimalDigit b = false) (n : ℕ) : b ∉ decimal n := by
  intro h
  rw [isDecimalDigit_of_mem h] at hb
  cases hb

/-- The text determines the threshold and the keys, in their order. -/
theorem addressPayload_inj {t t' : UInt32} {keys keys' : List Bytes}
    (h : addressPayload t keys = addressPayload t' keys') : t = t' ∧ keys = keys' := by
  obtain ⟨ht, hkeys⟩ :=
    Delimited.append_sep_inj (notMem_decimal rfl _) (notMem_decimal rfl _) h
  constructor
  · exact UInt32.toNat_inj.mp (decimal_injective ht)
  · exact Delimited.ends_injective hashToHex_injective comma_notMem_hexEncode hkeys

/-- **Addresses identify their committee**: thresholds and lists of keys with the same address are
the same, where the heads of the two digests do not collide. -/
theorem calculateMultisigAddress_inj (C : Crypto) (t t' : UInt32) (keys keys' : List Bytes)
    (hfree : C.HeadCollisionFreeOn {addressPayload t keys, addressPayload t' keys'}) :
    calculateMultisigAddress C t keys = calculateMultisigAddress C t' keys' ↔
      t = t' ∧ keys = keys' := by
  constructor
  · intro h
    have hhead := hashToHex_injective (List.append_cancel_left h)
    exact addressPayload_inj (hfree _ (.inl rfl) _ (.inr rfl) hhead)
  · rintro ⟨rfl, rfl⟩
    rfl

/-- An empty key behind another makes another committee. -/
theorem calculateMultisigAddress_empty_key :
    calculateMultisigAddress polyCrypto 1 [[1, 2, 3, 4, 5, 6, 7, 8], []] ≠
      calculateMultisigAddress polyCrypto 1 [[1, 2, 3, 4, 5, 6, 7, 8]] := by
  have hfree : polyCrypto.HeadCollisionFreeOn {addressPayload 1 [[1, 2, 3, 4, 5, 6, 7, 8], []],
      addressPayload 1 [[1, 2, 3, 4, 5, 6, 7, 8]]} := by
    have key : ∀ m ∈ [addressPayload 1 [[1, 2, 3, 4, 5, 6, 7, 8], []],
          addressPayload 1 [[1, 2, 3, 4, 5, 6, 7, 8]]],
        ∀ m' ∈ [addressPayload 1 [[1, 2, 3, 4, 5, 6, 7, 8], []],
          addressPayload 1 [[1, 2, 3, 4, 5, 6, 7, 8]]],
        (polyCrypto.sha256 m).take 20 = (polyCrypto.sha256 m').take 20 → m = m' := by
      decide +kernel
    intro m hm m' hm'
    exact key m (by simpa using hm) m' (by simpa using hm')
  intro h
  have hsame := (calculateMultisigAddress_inj polyCrypto 1 1 _ _ hfree).mp h
  exact absurd hsame.2 (by decide)

/-! ## Transactions -/

/-- `mermai_multisig_signature`. -/
structure MultisigSignature where
  publicKey : Bytes
  signature : Bytes
deriving DecidableEq

/-- `mermai_multisig_tx`. -/
structure MultisigTx where
  baseTx : Transaction
  multisigAddress : Bytes := []
  signatures : List MultisigSignature := []
deriving DecidableEq

/-- `mermai_multisig_tx::signing_payload`. -/
def MultisigTx.signingPayload (tx : MultisigTx) : Bytes :=
  tx.baseTx.serialize ++ 58 :: tx.multisigAddress

/-- `add_signature`: one entry a key. -/
def MultisigTx.addSignature (tx : MultisigTx) (publicKey signature : Bytes) : Bool × MultisigTx :=
  if ∃ sig ∈ tx.signatures, sig.publicKey = publicKey then (false, tx)
  else (true, { tx with signatures := tx.signatures ++ [⟨publicKey, signature⟩] })

/-- The key of an entry parses and its signature of the payload verifies. -/
def MultisigSignature.ok (C : Crypto) (payload : Bytes) (entry : MultisigSignature) : Bool :=
  (C.d2iPubkey entry.publicKey).isSome && C.digestVerify entry.publicKey payload entry.signature

/-- One round of the loop of `verify_multisig_tx`, over the keys seen, in hex, and the number of valid
signatures. -/
def countSignature (C : Crypto) (account : MultisigAccount) (payload : Bytes)
    (state : Finset Bytes × UInt32) (entry : MultisigSignature) : Finset Bytes × UInt32 :=
  if entry.publicKey ∉ account.signers then state
  else if hexEncode entry.publicKey ∈ state.1 then state
  else if entry.ok C payload then (insert (hexEncode entry.publicKey) state.1, state.2 + 1)
  else state

/-- `verify_multisig_tx`. -/
def verifyMultisigTx (C : Crypto) (account : MultisigAccount) (tx : MultisigTx) : Bool :=
  if tx.signatures.length < account.threshold.toNat then false
  else account.threshold ≤
    (tx.signatures.foldl (countSignature C account tx.signingPayload) (∅, 0)).2

/-! ## What the loop counts -/

section Count

variable (C : Crypto) (account : MultisigAccount) (payload : Bytes)

/-- The members with a valid signature of the payload among the entries. -/
def approvers (entries : List MultisigSignature) : Finset Bytes :=
  account.signers.toFinset.filter fun key =>
    ∃ entry ∈ entries, entry.publicKey = key ∧ entry.ok C payload = true

variable {C account payload}

theorem mem_approvers {entries : List MultisigSignature} {key : Bytes} :
    key ∈ approvers C account payload entries ↔ key ∈ account.signers ∧
      ∃ entry ∈ entries, entry.publicKey = key ∧ entry.ok C payload = true := by
  rw [approvers, Finset.mem_filter, List.mem_toFinset]

theorem approvers_mono {entries entries' : List MultisigSignature}
    (h : ∀ entry ∈ entries, entry ∈ entries') :
    approvers C account payload entries ⊆ approvers C account payload entries' := by
  intro key hkey
  obtain ⟨hmember, entry, hentry, hvalid⟩ := mem_approvers.mp hkey
  exact mem_approvers.mpr ⟨hmember, entry, h entry hentry, hvalid⟩

/-- An entry more adds its key, when that is a member's and its signature is valid. -/
theorem approvers_concat (entries : List MultisigSignature) (entry : MultisigSignature) :
    approvers C account payload (entries ++ [entry]) =
      if entry.publicKey ∈ account.signers ∧ entry.ok C payload = true then
        insert entry.publicKey (approvers C account payload entries)
      else approvers C account payload entries := by
  ext key
  split_ifs with h
  · rw [Finset.mem_insert, mem_approvers, mem_approvers]
    constructor
    · rintro ⟨hmember, e, he, rfl, hvalid⟩
      rcases List.mem_append.mp he with he | he
      · exact .inr ⟨hmember, e, he, rfl, hvalid⟩
      · rw [List.mem_singleton.mp he]
        exact .inl rfl
    · rintro (rfl | ⟨hmember, e, he, hvalid⟩)
      · exact ⟨h.1, entry, by simp, rfl, h.2⟩
      · exact ⟨hmember, e, List.mem_append_left _ he, hvalid⟩
  · rw [mem_approvers, mem_approvers]
    constructor
    · rintro ⟨hmember, e, he, rfl, hvalid⟩
      rcases List.mem_append.mp he with he | he
      · exact ⟨hmember, e, he, rfl, hvalid⟩
      · rw [List.mem_singleton.mp he] at hmember hvalid
        exact absurd ⟨hmember, hvalid⟩ h
    · rintro ⟨hmember, e, he, hvalid⟩
      exact ⟨hmember, e, List.mem_append_left _ he, hvalid⟩

/-- **What the loop counts**: the seen set holds the approvers in hex, and the counter their number. -/
theorem countSignatures_eq (entries : List MultisigSignature) :
    entries.foldl (countSignature C account payload) (∅, 0) =
      ((approvers C account payload entries).image hexEncode,
        UInt32.ofNat (approvers C account payload entries).card) := by
  induction entries using List.reverseRecOn with
  | nil =>
    have hnone : approvers C account payload [] = ∅ := by simp [approvers]
    rw [hnone]
    rfl
  | append_singleton entries entry ih =>
    have hseen : hexEncode entry.publicKey ∈ (approvers C account payload entries).image hexEncode ↔
        entry.publicKey ∈ approvers C account payload entries :=
      hashToHex_injective.mem_finset_image
    rw [List.foldl_append, ih, approvers_concat]
    simp only [List.foldl_cons, List.foldl_nil, countSignature, hseen]
    by_cases hmember : entry.publicKey ∈ account.signers
    · by_cases hcounted : entry.publicKey ∈ approvers C account payload entries
      · -- a repeated key: the entry may be valid or not
        rw [if_neg (not_not.mpr hmember), if_pos hcounted, Finset.insert_eq_of_mem hcounted, ite_self]
      · by_cases hok : entry.ok C payload = true
        · rw [if_neg (not_not.mpr hmember), if_neg hcounted, if_pos hok, if_pos ⟨hmember, hok⟩,
            Finset.image_insert, Finset.card_insert_of_notMem hcounted, UInt32.ofNat_add]
          rfl
        · rw [if_neg (not_not.mpr hmember), if_neg hcounted, if_neg hok, if_neg fun h => hok h.2]
    · rw [if_pos hmember, if_neg fun h => hmember h.1]

theorem card_approvers_le (entries : List MultisigSignature) :
    (approvers C account payload entries).card ≤ entries.length := by
  have hsub : approvers C account payload entries ⊆ (entries.map (·.publicKey)).toFinset := by
    intro key hkey
    obtain ⟨-, entry, hentry, rfl, -⟩ := mem_approvers.mp hkey
    exact List.mem_toFinset.mpr (List.mem_map_of_mem hentry)
  calc (approvers C account payload entries).card
      ≤ (entries.map (·.publicKey)).toFinset.card := Finset.card_le_card hsub
    _ ≤ (entries.map (·.publicKey)).length := List.toFinset_card_le _
    _ = entries.length := List.length_map _

end Count

variable {C : Crypto} {account : MultisigAccount} {tx tx' : MultisigTx}

/-- The verifier compares the number of approvers, as the 32-bit counter has it, with the
threshold. -/
theorem verifyMultisigTx_iff : verifyMultisigTx C account tx = true ↔
    account.threshold.toNat ≤ tx.signatures.length ∧ account.threshold.toNat ≤
      (approvers C account tx.signingPayload tx.signatures).card % 2 ^ 32 := by
  unfold verifyMultisigTx
  split_ifs with hlen
  · refine iff_of_false (by simp) ?_
    rintro ⟨h, -⟩
    omega
  · rw [countSignatures_eq, decide_eq_true_eq, UInt32.le_iff_toNat_le, UInt32.toNat_ofNat']
    exact ⟨fun h => ⟨by omega, h⟩, fun h => h.2⟩

/-- With fewer than `2 ^ 32` entries the counter does not wrap, and the size test is implied. -/
theorem verifyMultisigTx_iff_of_lt (h : tx.signatures.length < 2 ^ 32) :
    verifyMultisigTx C account tx = true ↔ account.threshold.toNat ≤
      (approvers C account tx.signingPayload tx.signatures).card := by
  have hle : (approvers C account tx.signingPayload tx.signatures).card ≤ tx.signatures.length :=
    card_approvers_le tx.signatures
  rw [verifyMultisigTx_iff, Nat.mod_eq_of_lt (lt_of_le_of_lt hle h)]
  exact ⟨fun h => h.2, fun h => ⟨le_trans h hle, h⟩⟩

/-- More entries, in any order, keep an accepted transaction accepted. -/
theorem verifyMultisigTx_mono (h : verifyMultisigTx C account tx = true)
    (hlen : tx.signatures.length < 2 ^ 32) (hlen' : tx'.signatures.length < 2 ^ 32)
    (hpayload : tx'.signingPayload = tx.signingPayload)
    (hentries : ∀ entry ∈ tx.signatures, entry ∈ tx'.signatures) :
    verifyMultisigTx C account tx' = true := by
  rw [verifyMultisigTx_iff_of_lt hlen] at h
  rw [verifyMultisigTx_iff_of_lt hlen', hpayload]
  exact le_trans h (Finset.card_le_card (approvers_mono hentries))

/-- `add_signature` keeps an accepted transaction accepted. -/
theorem verifyMultisigTx_addSignature {publicKey signature : Bytes}
    (hlen : tx.signatures.length + 1 < 2 ^ 32) (h : verifyMultisigTx C account tx = true) :
    verifyMultisigTx C account (tx.addSignature publicKey signature).2 = true := by
  unfold MultisigTx.addSignature
  split_ifs
  · exact h
  · refine verifyMultisigTx_mono h (by omega) ?_ rfl ?_
    · rw [List.length_append]
      exact hlen
    · intro entry hentry
      exact List.mem_append_left _ hentry

/-- **Acceptance counts distinct members**: a transaction with fewer than `2 ^ 32` signatures is
accepted when at least the threshold of the account's keys have an entry with a valid signature; so
more entries, in any order, keep it accepted. -/
theorem verifyMultisigTx_counts (C : Crypto) (account : MultisigAccount) (tx : MultisigTx)
    (hlen : tx.signatures.length < 2 ^ 32) :
    (verifyMultisigTx C account tx = true ↔ account.threshold.toNat ≤
      (account.signers.toFinset.filter fun key => ∃ entry ∈ tx.signatures,
        entry.publicKey = key ∧ (C.d2iPubkey key).isSome = true ∧
          C.digestVerify key tx.signingPayload entry.signature = true).card) ∧
    ∀ tx' : MultisigTx, tx'.baseTx = tx.baseTx → tx'.multisigAddress = tx.multisigAddress →
      (∀ entry ∈ tx.signatures, entry ∈ tx'.signatures) → tx'.signatures.length < 2 ^ 32 →
      verifyMultisigTx C account tx = true → verifyMultisigTx C account tx' = true := by
  constructor
  · rw [verifyMultisigTx_iff_of_lt hlen]
    have heq : approvers C account tx.signingPayload tx.signatures =
        account.signers.toFinset.filter fun key => ∃ entry ∈ tx.signatures,
          entry.publicKey = key ∧ (C.d2iPubkey key).isSome = true ∧
            C.digestVerify key tx.signingPayload entry.signature = true := by
      refine Finset.filter_congr fun key _ => exists_congr fun entry => and_congr_right fun _ => ?_
      refine and_congr_right ?_
      rintro rfl
      rw [MultisigSignature.ok, Bool.and_eq_true]
    rw [heq]
  · intro tx' hbase haddress hentries hlen' h
    have hpayload : tx'.signingPayload = tx.signingPayload := by
      rw [MultisigTx.signingPayload, MultisigTx.signingPayload, hbase, haddress]
    exact verifyMultisigTx_mono h hlen hlen' hpayload hentries

/-- Members 1 and 2 of a committee of three have signed, member 1 twice; before that, there are entries
of member 2 with a bad signature and of a stranger. -/
theorem verifyMultisigTx_counts_two :
    verifyMultisigTx taggedCrypto (createAccount taggedCrypto 2 [[1], [2], [3]])
      { baseTx := ⟨[97], [], [], 0, 0⟩
        signatures :=
          let payload := (Transaction.mk [97] [] [] 0 0).serialize ++ [58]
          [⟨[2], [0]⟩, ⟨[9], 9 :: payload⟩, ⟨[1], 1 :: payload⟩, ⟨[1], 1 :: payload⟩,
            ⟨[2], 2 :: payload⟩] } = true :=
  (verifyMultisigTx_counts taggedCrypto _ _ (by decide)).1.mpr (by decide +kernel)

/-! ## The address of a transaction -/

section Address

variable {K : Type} {S : Signer K}

end Address

end Mermai
