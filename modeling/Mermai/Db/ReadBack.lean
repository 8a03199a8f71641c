import Mermai.Db.Store
import Mermai.Core.FormatLaws
import Mermai.Chain.Blockchain

/-!
# Db.ReadBack — which accepted blocks can be read back

`can_add_block` bounds the numbers of transactions, inputs and outputs; the decoder bounds these and
the sizes of strings and byte fields, and reads each transaction back as one bounded string.  What
acceptance leaves open is `Block.Fits`: an accepted block is read back exactly when it fits
(`Block.within_iff_fits`), and nothing in `can_add_block` or `save_block` checks that it does.
-/

namespace Mermai

open Codec Sql

variable {F : Type}

/-! ## What acceptance leaves open -/

/-- The limits of the decoder that `can_add_block` does not enforce. -/
def Block.Fits (b : Block) : Prop :=
  b.validatorAddress.length ≤ maxSerializedString ∧
  b.validatorPublicKey.length ≤ maxSerializedBytes ∧
  b.validatorSignature.length ≤ maxSerializedBytes ∧
  ∀ tx ∈ b.transactions, tx.serialize.length ≤ maxSerializedString ∧
    ∀ i ∈ tx.inputs, i.signature.length ≤ maxSerializedBytes ∧
      i.publicKey.length ≤ maxSerializedBytes

instance (b : Block) : Decidable b.Fits := inferInstanceAs (Decidable (_ ∧ _))

/-- For an accepted transaction the decoder's limits come down to the size of its encoding and of
its signatures and keys. -/
theorem Transaction.Verified.within_iff {C : Crypto} {now : ℕ} {tx : Transaction}
    (h : tx.Verified C now) : (tx.serialize.length ≤ maxSerializedString ∧ tx.Within) ↔
      tx.serialize.length ≤ maxSerializedString ∧
        ∀ i ∈ tx.inputs, i.signature.length ≤ maxSerializedBytes ∧
          i.publicKey.length ≤ maxSerializedBytes := by
  obtain ⟨hid, hprev, haddr⟩ := tx.strings_le
  constructor
  · rintro ⟨hlen, -, ⟨-, hin⟩, -⟩
    exact ⟨hlen, fun i hi => (hin i hi).2⟩
  · rintro ⟨hlen, hin⟩
    exact ⟨hlen, hid.trans hlen,
      ⟨h.inputs_le, fun i hi => ⟨(hprev i hi).trans hlen, hin i hi⟩⟩,
      ⟨h.outputs_le, fun o ho => (haddr o ho).trans hlen⟩⟩

/-- For an accepted block the decoder's limits come down to `Fits`. -/
theorem Block.within_iff_fits {C : Crypto} {fl : FloatOps F} {now : ℕ} {eng : Option Engine}
    {chain : List Block} {b : Block} (h : (canAddBlock C fl now eng chain (some b)).ok = true) :
    b.Within ↔ b.Fits := by
  obtain ⟨ht, -, hb⟩ := canAddBlock_ok_iff.mp h
  obtain ⟨tip, -, -, -, hlink, -, -, -⟩ := extendsTip_iff.mp ht
  obtain ⟨hcount, hmerkle, hverify, -⟩ := bodyOk_iff.mp hb
  have hprev : b.prevBlockHash.length = 64 := by
    rw [hlink]
    exact IsDigest.length ⟨tip.serialize, rfl⟩
  have hroot : b.merkleRoot.length ≤ 64 := by
    simp only [merkleOk, decide_eq_true_eq, not_or, not_and, not_not] at hmerkle
    by_cases hnil : b.transactions = []
    · simp [hmerkle.2 hnil]
    · rw [hmerkle.1 hnil]
      exact (calculateTreeHash_digest hnil).length.le
  have htx : (∀ tx ∈ b.transactions, tx.serialize.length ≤ maxSerializedString ∧ tx.Within) ↔
      ∀ tx ∈ b.transactions, tx.serialize.length ≤ maxSerializedString ∧
        ∀ i ∈ tx.inputs, i.signature.length ≤ maxSerializedBytes ∧
          i.publicKey.length ≤ maxSerializedBytes :=
    forall₂_congr fun tx htx => (Transaction.verify_iff.mp (hverify tx htx)).within_iff
  unfold Block.Within Block.Fits
  rw [htx]
  constructor
  · rintro ⟨-, -, h1, h2, h3, -, h4⟩
    exact ⟨h1, h2, h3, h4⟩
  · rintro ⟨h1, h2, h3, h4⟩
    have hlimit : 64 ≤ maxSerializedString := by decide
    exact ⟨hprev.trans_le hlimit, hroot.trans hlimit, h1, h2, h3, hcount, h4⟩

/-! ## Reading back -/

theorem getBlockByHeight_eq_some {db : Db} {height : UInt32} {b : Block} :
    getBlockByHeight db height = some b ↔
      ∃ row, db.blocks.select height.toInt32 = some row ∧ row.serialized = b.serialize ∧
        b.Within := by
  unfold getBlockByHeight
  cases db.blocks.select height.toInt32 with
  | none => simp
  | some row =>
    have hdec : (Block.deserialize row.serialized).toOption = some b ↔
        Block.deserialize row.serialized = .ok b := by
      cases Block.deserialize row.serialized <;> simp [Except.toOption]
    simp [hdec, Block.deserialize_iff]

/-- A saved block is returned exactly when the decoder can return it. -/
theorem getBlockByHeight_saveBlock {C : Crypto} {db : Db} {b : Block} :
    getBlockByHeight (saveBlock C db b) b.height = some b ↔ b.Within := by
  have hsel : (saveBlock C db b).blocks.select b.height.toInt32 = some (blockRow C b) :=
    UniqueTable.select_insertOrReplace_self db.blocks (blockRow C b)
  rw [getBlockByHeight_eq_some, hsel]
  simp [blockRow]

/-- **Reading back**: an accepted block is decoded from its encoding, and returned by the database
after it is saved, exactly when it fits. -/
theorem readBack_iff_fits (C : Crypto) (fl : FloatOps F) (now : ℕ) (eng : Option Engine)
    (chain : List Block) (b : Block) (db : Db)
    (h : (canAddBlock C fl now eng chain (some b)).ok = true) :
    (Block.deserialize b.serialize = .ok b ∧
      getBlockByHeight (saveBlock C db b) b.height = some b) ↔ b.Fits := by
  rw [← Block.within_iff_fits h, Block.deserialize_iff, getBlockByHeight_saveBlock]
  simp

theorem readBack_iff_fits_first :
    (canAddBlock polyCrypto exactFloat 1700000000 none [genesis] (some firstBlock)).ok = true ∧
      Block.deserialize firstBlock.serialize = .ok firstBlock ∧
      getBlockByHeight (saveBlock polyCrypto {} firstBlock) 1 = some firstBlock := by
  have hok : (canAddBlock polyCrypto exactFloat 1700000000 none [genesis]
      (some firstBlock)).ok = true := by decide +kernel
  exact ⟨hok, (readBack_iff_fits _ _ _ _ _ firstBlock {} hok).mpr (by decide +kernel)⟩

/-- A block of a validator whose address is one byte too long for the decoder. -/
def longAddressBlock : Block := { firstBlock with validatorAddress := List.replicate 65537 118 }

theorem longAddressBlock_lost :
    (canAddBlock polyCrypto exactFloat 1700000000 none [genesis]
      (some longAddressBlock)).ok = true ∧
    ¬ (Block.deserialize longAddressBlock.serialize = .ok longAddressBlock ∧
      getBlockByHeight (saveBlock polyCrypto {} longAddressBlock) longAddressBlock.height =
        some longAddressBlock) := by
  refine ⟨by decide +kernel, ?_⟩
  intro h
  have hw : longAddressBlock.Within := ((Block.deserialize_iff _ _).mp h.1).2
  have hlen : longAddressBlock.validatorAddress.length = 65537 := List.length_replicate
  have hle : 65537 ≤ maxSerializedString := hlen ▸ hw.2.2.1
  exact absurd hle (by decide)

end Mermai
