import Mermai.Core.Prims

/-!
# Core.Format — transactions, votes and blocks, and their binary format

The records of `mermai_blockchain.hpp` and the encoders and decoders of `mermai_blockchain.cpp`.  A
decoder of the source walks an offset through the payload; here it is a `Codec.Reader`, whose state
is the part of the payload after the offset.  The limits are enforced by the decoders only: every
encoder accepts values of any size and truncates sizes to 32 bits.
-/

namespace Mermai

open Codec

/-! ## Limits -/

/-- `MAX_SERIALIZED_STRING`. -/
abbrev maxSerializedString : ℕ := 64 * 1024
/-- `MAX_SERIALIZED_BYTES`. -/
abbrev maxSerializedBytes : ℕ := 16 * 1024
/-- `MAX_TRANSACTION_INPUTS`. -/
abbrev maxTransactionInputs : ℕ := 1000
/-- `MAX_TRANSACTION_OUTPUTS`. -/
abbrev maxTransactionOutputs : ℕ := 1000
/-- `MAX_BLOCK_TRANSACTIONS`. -/
abbrev maxBlockTransactions : ℕ := 10000

/-! ## Records -/

/-- `mermai_tx_input`. -/
structure TxInput where
  prevTxHash : Bytes
  prevOutputIdx : UInt32
  signature : Bytes
  publicKey : Bytes
deriving DecidableEq

/-- `mermai_tx_output`. -/
structure TxOutput where
  address : Bytes
  amount : UInt64
deriving DecidableEq

/-- `mermai_transaction`. -/
structure Transaction where
  id : Bytes
  inputs : List TxInput
  outputs : List TxOutput
  fee : UInt64 := 0
  timestamp : UInt64 := 0
deriving DecidableEq

/-- `mermai_block_vote`. -/
structure BlockVote where
  validatorAddress : Bytes
  blockHash : Bytes
  blockHeight : UInt32 := 0
  timestamp : UInt64 := 0
  validatorPublicKey : Bytes
  signature : Bytes
deriving DecidableEq

/-- `mermai_block`. -/
structure Block where
  version : UInt32 := 1
  height : UInt32 := 0
  prevBlockHash : Bytes := []
  merkleRoot : Bytes := []
  timestamp : UInt64 := 0
  nonce : UInt32 := 0
  validatorAddress : Bytes := []
  validatorStake : UInt64 := 0
  validatorAge : UInt64 := 0
  validatorPublicKey : Bytes := []
  validatorSignature : Bytes := []
  transactions : List Transaction := []
deriving DecidableEq

/-! ## Scalars and strings -/

/-- The text of the end-of-input error of `read_value`. -/
def eofText : String := "Unexpected end of payload"

/-- `write_value<uint32_t>`. -/
def writeU32 (x : UInt32) : Bytes := writeBE 4 x.toNat
/-- `write_value<uint64_t>`. -/
def writeU64 (x : UInt64) : Bytes := writeBE 8 x.toNat
/-- `write_bytes`. -/
def writeBytes (s : Bytes) : Bytes := writeSized s
/-- `write_string`. -/
def writeString (s : Bytes) : Bytes := writeSized s

/-- `read_value<uint32_t>`. -/
def readU32 : Reader UInt32 := do
  let n ← readBE eofText 4
  pure (UInt32.ofNat n)
/-- `read_value<uint64_t>`. -/
def readU64 : Reader UInt64 := do
  let n ← readBE eofText 8
  pure (UInt64.ofNat n)
/-- `read_bytes`. -/
def readBytes : Reader Bytes := readSized eofText "Invalid byte payload size" maxSerializedBytes
/-- `read_string`. -/
def readString : Reader Bytes := readSized eofText "Invalid string payload size" maxSerializedString

/-! ## Transactions -/

/-- One input, as the loop of `mermai_transaction::serialize` writes it. -/
def TxInput.serialize (i : TxInput) : Bytes :=
  writeString i.prevTxHash ++ writeU32 i.prevOutputIdx ++ writeBytes i.signature ++
    writeBytes i.publicKey

/-- One output, as the loop of `mermai_transaction::serialize` writes it. -/
def TxOutput.serialize (o : TxOutput) : Bytes := writeString o.address ++ writeU64 o.amount

/-- `mermai_transaction::serialize`. -/
def Transaction.serialize (tx : Transaction) : Bytes :=
  writeString tx.id ++ writeU64 tx.fee ++ writeU64 tx.timestamp ++
    writeCounted TxInput.serialize tx.inputs ++ writeCounted TxOutput.serialize tx.outputs

/-- The body of the input loop of `mermai_transaction::deserialize`. -/
def readInput : Reader TxInput := do
  let prevTxHash ← readString
  let prevOutputIdx ← readU32
  let signature ← readBytes
  let publicKey ← readBytes
  pure ⟨prevTxHash, prevOutputIdx, signature, publicKey⟩

/-- The body of the output loop of `mermai_transaction::deserialize`. -/
def readOutput : Reader TxOutput := do
  let address ← readString
  let amount ← readU64
  pure ⟨address, amount⟩

/-- The reads of `mermai_transaction::deserialize`. -/
def readTransaction : Reader Transaction := do
  let id ← readString
  let fee ← readU64
  let timestamp ← readU64
  let inputs ← readCounted eofText "Too many transaction inputs" maxTransactionInputs readInput
  let outputs ← readCounted eofText "Too many transaction outputs" maxTransactionOutputs readOutput
  pure { id, fee, timestamp, inputs, outputs }

/-- `mermai_transaction::deserialize`. -/
def Transaction.deserialize (data : Bytes) : Except String Transaction :=
  parseAll "Trailing transaction data" readTransaction data

/-- `unsigned_transaction_payload`: the transaction with all signatures cleared. -/
def Transaction.unsignedPayload (tx : Transaction) : Bytes :=
  Transaction.serialize { tx with inputs := tx.inputs.map fun i => { i with signature := [] } }

/-- `mermai_transaction::get_hash`. -/
def Transaction.getHash (C : Crypto) (tx : Transaction) : Bytes := hashToHex (C.sha256 tx.serialize)

/-- The key under which the database files a transaction: its id, or its hash when it has none. -/
def Transaction.rowId (C : Crypto) (tx : Transaction) : Bytes :=
  if tx.id = [] then tx.getHash C else tx.id

/-! ## Votes -/

/-- `mermai_block_vote::signing_payload`: the four fields joined by colons. -/
def BlockVote.signingPayload (v : BlockVote) : Bytes :=
  v.validatorAddress ++ [58] ++ v.blockHash ++ [58] ++ decimal v.blockHeight.toNat ++ [58] ++
    decimal v.timestamp.toNat

/-- `mermai_block_vote::serialize`. -/
def BlockVote.serialize (v : BlockVote) : Bytes :=
  writeString v.validatorAddress ++ writeString v.blockHash ++ writeU32 v.blockHeight ++
    writeU64 v.timestamp ++ writeBytes v.validatorPublicKey ++ writeBytes v.signature

/-- The reads of `mermai_block_vote::deserialize`. -/
def readVote : Reader BlockVote := do
  let validatorAddress ← readString
  let blockHash ← readString
  let blockHeight ← readU32
  let timestamp ← readU64
  let validatorPublicKey ← readBytes
  let signature ← readBytes
  pure { validatorAddress, blockHash, blockHeight, timestamp, validatorPublicKey, signature }

/-- `mermai_block_vote::deserialize`: unlike the other two decoders it ignores trailing bytes. -/
def BlockVote.deserialize (data : Bytes) : Except String BlockVote :=
  (readVote data).map Prod.fst

/-! ## Blocks -/

/-- `mermai_block::serialize`. -/
def Block.serialize (b : Block) : Bytes :=
  writeU32 b.version ++ writeU32 b.height ++ writeString b.prevBlockHash ++
    writeString b.merkleRoot ++ writeU64 b.timestamp ++ writeU32 b.nonce ++
    writeString b.validatorAddress ++ writeU64 b.validatorStake ++ writeU64 b.validatorAge ++
    writeBytes b.validatorPublicKey ++ writeBytes b.validatorSignature ++
    writeCounted (fun tx : Transaction => writeString tx.serialize) b.transactions

/-- The reads of `mermai_block::deserialize`. -/
def readBlock : Reader Block := do
  let version ← readU32
  let height ← readU32
  let prevBlockHash ← readString
  let merkleRoot ← readString
  let timestamp ← readU64
  let nonce ← readU32
  let validatorAddress ← readString
  let validatorStake ← readU64
  let validatorAge ← readU64
  let validatorPublicKey ← readBytes
  let validatorSignature ← readBytes
  let transactions ← readCounted eofText "Too many block transactions" maxBlockTransactions
    (readNested readString Transaction.deserialize)
  pure { version, height, prevBlockHash, merkleRoot, timestamp, nonce, validatorAddress,
         validatorStake, validatorAge, validatorPublicKey, validatorSignature, transactions }

/-- `mermai_block::deserialize`. -/
def Block.deserialize (data : Bytes) : Except String Block :=
  parseAll "Trailing block data" readBlock data

/-- `mermai_block::signing_payload`: the block with its signature cleared. -/
def Block.signingPayload (b : Block) : Bytes := Block.serialize { b with validatorSignature := [] }

/-- `mermai_block::calculate_hash`. -/
def Block.calculateHash (C : Crypto) (b : Block) : Bytes := C.sha256 b.serialize

/-- The hex text of `mermai_block::calculate_hash`. -/
def Block.hashHex (C : Crypto) (b : Block) : Bytes := hashToHex (b.calculateHash C)

end Mermai
