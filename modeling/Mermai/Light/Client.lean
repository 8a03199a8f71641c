import Mermai.Chain.Blockchain
import Mermai.Light.Tree

/-!
# Light.Client — headers and inclusion proofs

`mermai_light_client`: headers are taken over from blocks, and a transaction is shown to be in a
block by a proof of the light client's own tree against the `merkle_root` of the header.  That root
is the one of `calculate_tree_hash`, which `can_add_block` enforces.  The two trees hash strings of
different lengths, so they agree on a single transaction and on no longer list
(`calculateTreeHash_eq_getRoot_iff`).
-/

namespace Mermai

open Codec

variable {F : Type}

/-! ## Headers -/

/-- `mermai_block_header`. -/
structure BlockHeader where
  height : UInt32 := 0
  hash : Bytes := []
  prevBlockHash : Bytes := []
  merkleRoot : Bytes := []
  timestamp : UInt64 := 0
  validatorAddress : Bytes := []
  validatorPublicKey : Bytes := []
  validatorSignature : Bytes := []

/-- The payload of `mermai_block_header::verify_signature`: five fields joined by colons. -/
def BlockHeader.payload (h : BlockHeader) : Bytes :=
  decimal h.height.toNat ++ [58] ++ h.prevBlockHash ++ [58] ++ h.merkleRoot ++ [58] ++
    decimal h.timestamp.toNat ++ [58] ++ h.validatorAddress

/-- `mermai_block_header::verify_signature`: a header without key or signature passes. -/
def BlockHeader.verifySignature (C : Crypto) (h : BlockHeader) : Bool :=
  if h.validatorPublicKey = [] ∨ h.validatorSignature = [] then true
  else (C.d2iPubkey h.validatorPublicKey).isSome ∧
    C.digestVerify h.validatorPublicKey h.payload h.validatorSignature

/-- `mermai_light_client`. -/
structure LightClient where
  headers : List BlockHeader := []
  headersByHeight : UInt32 → Option BlockHeader := fun _ => none
  headersByHash : Bytes → Option BlockHeader := fun _ => none

/-- The height of a header follows the last one; the first header may have any height. -/
def LightClient.extendsHeaders (c : LightClient) (h : BlockHeader) : Bool :=
  match c.headers.getLast? with
  | none => true
  | some tip => h.height = tip.height + 1

/-- `mermai_light_client::sync_header`. -/
def LightClient.syncHeader (C : Crypto) (c : LightClient) (h : BlockHeader) : Bool × LightClient :=
  if ¬ c.extendsHeaders h then (false, c)
  else if ¬ h.verifySignature C then (false, c)
  else (true,
    { headers := c.headers ++ [h]
      headersByHeight := Function.update c.headersByHeight h.height (some h)
      headersByHash :=
        if h.hash ≠ [] then Function.update c.headersByHash h.hash (some h) else c.headersByHash })

/-- The header of a block. -/
def Block.header (C : Crypto) (b : Block) : BlockHeader where
  height := b.height
  hash := b.hashHex C
  prevBlockHash := b.prevBlockHash
  merkleRoot := b.merkleRoot
  timestamp := b.timestamp
  validatorAddress := b.validatorAddress
  validatorPublicKey := b.validatorPublicKey
  validatorSignature := b.validatorSignature

/-- `mermai_light_client::sync_header_from_block`. -/
def LightClient.syncHeaderFromBlock (C : Crypto) (c : LightClient) (b : Block) :
    Bool × LightClient :=
  c.syncHeader C (b.header C)

/-- `mermai_light_client::verify_transaction_inclusion`. -/
def LightClient.verifyTransactionInclusion (C : Crypto) (c : LightClient) (blockHeight : UInt32)
    (txHash : Bytes) (proof : MerkleProof) : Bool :=
  match c.headersByHeight blockHeight with
  | none => false
  | some header => MerkleTree.verifyProof C header.merkleRoot txHash proof

/-- A header that was taken over is found under its height. -/
theorem LightClient.syncHeader_found {C : Crypto} {c : LightClient} {h : BlockHeader}
    (hs : (c.syncHeader C h).1 = true) : (c.syncHeader C h).2.headersByHeight h.height = some h := by
  unfold LightClient.syncHeader at hs ⊢
  split_ifs at hs ⊢
  · exact Function.update_self _ _ _
  · exact Function.update_self _ _ _

/-! ## Two roots of one list -/

/-- The root of `calculate_tree_hash` over at least two transactions is the digest of 128 bytes. -/
theorem calculateTreeHash_preimage (C : Crypto) {txs : List Transaction} (h : 1 < txs.length) :
    ∃ m ∈ treeInputs C txs, m.length = 128 ∧ calculateTreeHash C txs = sha256Hex C m := by
  have hne : txs ≠ [] := List.ne_nil_of_length_pos (by omega)
  obtain ⟨k, hk, hr⟩ := calculateTreeHash_reduces C hne
  obtain ⟨k, rfl⟩ := Nat.exists_eq_succ_of_ne_zero (hk h).ne'
  obtain ⟨a, b, ⟨ha, hb, hab⟩, hroot⟩ := hr.root
  refine ⟨a ++ b, hab, ?_, hroot⟩
  rw [List.length_append, ha.length, hb.length]

/-- The strings that either tree hashes for a list of transactions. -/
def bothInputs (C : Crypto) (txs : List Transaction) : Set Bytes :=
  {m | m ∈ treeInputs C txs ∨ m ∈ MerkleTree.inputs C (txs.map (Transaction.getHash C))}

theorem calculateTreeHash_eq_getRoot_iff {C : Crypto} {txs : List Transaction} (hne : txs ≠ [])
    (hC : C.CollisionFreeOn (bothInputs C txs)) :
    calculateTreeHash C txs = (MerkleTree.build C (txs.map (Transaction.getHash C))).getRoot ↔
      txs.length = 1 := by
  have hpos : 0 < txs.length := List.length_pos_iff.mpr hne
  constructor
  · intro h
    by_contra hlen
    have h2 : 1 < txs.length := by omega
    obtain ⟨m, hm, hmlen, hroot⟩ := calculateTreeHash_preimage C h2
    have h2' : 1 < (txs.map (Transaction.getHash C)).length := by rwa [List.length_map]
    obtain ⟨m', hm', hmlen', hroot'⟩ := getRoot_preimage C h2' fun a ha => getHash_digest ha
    rw [hroot, hroot'] at h
    have := hC m (.inl hm) m' (.inr hm') (hashToHex_injective h)
    rw [this, hmlen'] at hmlen
    omega
  · intro hlen
    obtain ⟨tx, rfl⟩ := List.length_eq_one_iff.mp hlen
    rfl

/-! ## Inclusion of the transactions of an accepted block -/

theorem merkleOk_root {C : Crypto} {b : Block} (h : merkleOk C b = true)
    (hne : b.transactions ≠ []) : b.merkleRoot = calculateTreeHash C b.transactions := by
  by_contra hroot
  simp [merkleOk, hne, hroot] at h

/-- The proof of a transaction of an accepted block is checked against the root of the database. -/
theorem verifyTransactionInclusion_synced {C : Crypto} {b : Block} {c : LightClient}
    (hm : merkleOk C b = true) (hs : (c.syncHeaderFromBlock C b).1 = true) {i : ℕ}
    (hi : i < b.transactions.length) :
    let tree := MerkleTree.build C (b.transactions.map (Transaction.getHash C))
    (c.syncHeaderFromBlock C b).2.verifyTransactionInclusion C b.height
        ((b.transactions.map (Transaction.getHash C)).getD i []) (tree.generateProof i) = true ↔
      calculateTreeHash C b.transactions = tree.getRoot := by
  intro tree
  have hne : b.transactions ≠ [] := List.ne_nil_of_length_pos (by omega)
  have hfound : (c.syncHeaderFromBlock C b).2.headersByHeight b.height = some (b.header C) :=
    LightClient.syncHeader_found hs
  rw [LightClient.verifyTransactionInclusion, hfound]
  simp only [MerkleTree.verifyProof, decide_eq_true_eq]
  rw [foldSteps_generateProof C (by rwa [List.length_map]), ← merkleOk_root hm hne]
  exact eq_comm

/-- **When the two trees agree**: the roots are equal, and the light client accepts the proofs of the
transactions of a block that `can_add_block` accepted, exactly for a single transaction. -/
theorem trees_agree_iff (C : Crypto) (fl : FloatOps F) (txs : List Transaction) (hne : txs ≠ [])
    (hC : C.CollisionFreeOn (bothInputs C txs)) :
    (calculateTreeHash C txs = (MerkleTree.build C (txs.map (Transaction.getHash C))).getRoot ↔
      txs.length = 1) ∧
    ∀ (now : ℕ) (eng : Option Engine) (chain : List Block) (b : Block) (c : LightClient) (i : ℕ),
      (canAddBlock C fl now eng chain (some b)).ok = true → b.transactions = txs →
      (c.syncHeaderFromBlock C b).1 = true → i < txs.length →
      ((c.syncHeaderFromBlock C b).2.verifyTransactionInclusion C b.height
          ((txs.map (Transaction.getHash C)).getD i [])
          ((MerkleTree.build C (txs.map (Transaction.getHash C))).generateProof i) = true ↔
        txs.length = 1) := by
  have hroots := calculateTreeHash_eq_getRoot_iff hne hC
  refine ⟨hroots, ?_⟩
  rintro now eng chain b c i hok rfl hs hi
  have hm : merkleOk C b = true := (bodyOk_iff.mp (canAddBlock_ok_iff.mp hok).2.2).2.1
  exact (verifyTransactionInclusion_synced hm hs hi).trans hroots

/-- A signed transfer under the given id. -/
def lightTx (id : Bytes) : Transaction :=
  polySignTx [7] { id := id, inputs := [⟨[120], 0, [], []⟩], outputs := [⟨[65], 5⟩] }

/-- An unsigned block of height 1 with the given transactions. -/
def lightBlock (txs : List Transaction) : Block :=
  { firstBlock with merkleRoot := calculateTreeHash polyCrypto txs, transactions := txs }

theorem trees_agree_single :
    calculateTreeHash polyCrypto [lightTx [97]] =
      (MerkleTree.build polyCrypto [(lightTx [97]).getHash polyCrypto]).getRoot ∧
    (LightClient.syncHeaderFromBlock polyCrypto {}
        (lightBlock [lightTx [97]])).2.verifyTransactionInclusion polyCrypto 1
      ((lightTx [97]).getHash polyCrypto)
      ((MerkleTree.build polyCrypto [(lightTx [97]).getHash polyCrypto]).generateProof 0) = true := by
  have hfree : polyCrypto.CollisionFreeOn (bothInputs polyCrypto [lightTx [97]]) := by
    have hone : ∀ m ∈ bothInputs polyCrypto [lightTx [97]], m = (lightTx [97]).serialize := by
      rintro m (hm | hm)
      · simpa [treeInputs, Merkle.combined, Merkle.levels] using hm
      · simp [MerkleTree.inputs, Merkle.combined, Merkle.levels] at hm
    intro m hm m' hm' _
    rw [hone m hm, hone m' hm']
  have hagree := trees_agree_iff polyCrypto exactFloat [lightTx [97]] (by simp) hfree
  refine ⟨hagree.1.mpr rfl, ?_⟩
  exact (hagree.2 1700000000 none [genesis] (lightBlock [lightTx [97]]) {} 0 (by decide +kernel)
    rfl (by decide +kernel) (by simp)).mpr rfl

/-- Two transactions in one accepted block: the light client rejects the proof of the first. -/
theorem trees_disagree_pair :
    polyCrypto.CollisionFreeOn (bothInputs polyCrypto [lightTx [97], lightTx [98]]) ∧
    (canAddBlock polyCrypto exactFloat 1700000000 none [genesis]
      (some (lightBlock [lightTx [97], lightTx [98]]))).ok = true ∧
    (LightClient.syncHeaderFromBlock polyCrypto {}
      (lightBlock [lightTx [97], lightTx [98]])).1 = true ∧
    calculateTreeHash polyCrypto [lightTx [97], lightTx [98]] ≠
      (MerkleTree.build polyCrypto
        ([lightTx [97], lightTx [98]].map (Transaction.getHash polyCrypto))).getRoot ∧
    (LightClient.syncHeaderFromBlock polyCrypto {}
        (lightBlock [lightTx [97], lightTx [98]])).2.verifyTransactionInclusion polyCrypto 1
      ((lightTx [97]).getHash polyCrypto)
      ((MerkleTree.build polyCrypto ([lightTx [97], lightTx [98]].map
        (Transaction.getHash polyCrypto))).generateProof 0) = false := by
  have key : ∀ m ∈ treeInputs polyCrypto [lightTx [97], lightTx [98]] ++ MerkleTree.inputs polyCrypto
        ([lightTx [97], lightTx [98]].map (Transaction.getHash polyCrypto)),
      ∀ m' ∈ treeInputs polyCrypto [lightTx [97], lightTx [98]] ++ MerkleTree.inputs polyCrypto
        ([lightTx [97], lightTx [98]].map (Transaction.getHash polyCrypto)),
      polyCrypto.sha256 m = polyCrypto.sha256 m' → m = m' := by decide +kernel
  refine ⟨?_, by decide +kernel⟩
  intro m hm m' hm' h
  exact key m (List.mem_append.mpr hm) m' (List.mem_append.mpr hm') h

end Mermai
