import Mermai.Core.Format

/-!
# Core.FormatLaws — the decoders invert the encoders exactly within the limits

`Transaction.Within` and `Block.Within` are the values the decoders can return.  For every byte
string `data`, `Transaction.deserialize data` returns `tx` exactly when `data` is the encoding of
`tx` and `tx` is within the limits (`Transaction.deserialize_iff`), and the same for blocks
(`Block.deserialize_iff`).  The decoder of votes does not look behind the vote, and is as exact only on
strings that end with it (`vote_codec_exact_iff`).  Outside the limits an encoding need not determine the
block, but it still determines the height (`Block.height_of_serialize`).
-/

namespace Mermai

open Codec

/-! ## Limits of the decoders -/

/-- An input the decoder can return. -/
def TxInput.Within (i : TxInput) : Prop :=
  i.prevTxHash.length ≤ maxSerializedString ∧ i.signature.length ≤ maxSerializedBytes ∧
    i.publicKey.length ≤ maxSerializedBytes

/-- A transaction the decoder can return. -/
def Transaction.Within (tx : Transaction) : Prop :=
  tx.id.length ≤ maxSerializedString ∧
  (tx.inputs.length ≤ maxTransactionInputs ∧ ∀ i ∈ tx.inputs, i.Within) ∧
  (tx.outputs.length ≤ maxTransactionOutputs ∧
    ∀ o ∈ tx.outputs, o.address.length ≤ maxSerializedString)

/-- A block the decoder can return: each transaction is nested as a bounded string. -/
def Block.Within (b : Block) : Prop :=
  b.prevBlockHash.length ≤ maxSerializedString ∧ b.merkleRoot.length ≤ maxSerializedString ∧
  b.validatorAddress.length ≤ maxSerializedString ∧
  b.validatorPublicKey.length ≤ maxSerializedBytes ∧
  b.validatorSignature.length ≤ maxSerializedBytes ∧
  (b.transactions.length ≤ maxBlockTransactions ∧
    ∀ tx ∈ b.transactions, tx.serialize.length ≤ maxSerializedString ∧ tx.Within)

/-- A vote the decoder can return. -/
def BlockVote.Within (v : BlockVote) : Prop :=
  v.validatorAddress.length ≤ maxSerializedString ∧ v.blockHash.length ≤ maxSerializedString ∧
    v.validatorPublicKey.length ≤ maxSerializedBytes ∧ v.signature.length ≤ maxSerializedBytes

instance (i : TxInput) : Decidable i.Within := inferInstanceAs (Decidable (_ ∧ _))
instance (tx : Transaction) : Decidable tx.Within := inferInstanceAs (Decidable (_ ∧ _))
instance (b : Block) : Decidable b.Within := inferInstanceAs (Decidable (_ ∧ _))
instance (v : BlockVote) : Decidable v.Within := inferInstanceAs (Decidable (_ ∧ _))

/-! ## Scalars and strings -/

theorem readU32_reads : Reads readU32 writeU32 (fun _ => True) :=
  (Reads.map UInt32.ofNat UInt32.toNat (readBE_reads eofText 4)
    (fun _ hn => UInt32.toNat_ofNat_of_lt' hn) (fun _ _ => UInt32.ofNat_toNat)).congr
    (fun _ => rfl) (fun x => ⟨fun _ => x.toNat_lt, fun _ => trivial⟩)

theorem readU64_reads : Reads readU64 writeU64 (fun _ => True) :=
  (Reads.map UInt64.ofNat UInt64.toNat (readBE_reads eofText 8)
    (fun _ hn => UInt64.toNat_ofNat_of_lt' hn) (fun _ _ => UInt64.ofNat_toNat)).congr
    (fun _ => rfl) (fun x => ⟨fun _ => x.toNat_lt, fun _ => trivial⟩)

theorem readBytes_reads : Reads readBytes writeBytes (fun s => s.length ≤ maxSerializedBytes) :=
  readSized_reads _ _ (by decide)

theorem readString_reads : Reads readString writeString (fun s => s.length ≤ maxSerializedString) :=
  readSized_reads _ _ (by decide)

/-! ## Transactions -/

theorem readInput_reads : Reads readInput TxInput.serialize TxInput.Within := by
  refine ReadsIn.congr (ReadsIn.bind TxInput.prevTxHash readString_reads fun h _ =>
    ReadsIn.bind TxInput.prevOutputIdx readU32_reads fun n _ =>
    ReadsIn.bind TxInput.signature readBytes_reads fun s _ =>
    ReadsIn.bind TxInput.publicKey readBytes_reads fun k _ => ReadsIn.pure ?_) ?_ ?_
  · rintro ⟨_, _, _, _⟩
    simp [and_assoc]
  · intro i
    simp [TxInput.serialize]
  · intro i
    simp [TxInput.Within]

theorem readOutput_reads :
    Reads readOutput TxOutput.serialize (fun o => o.address.length ≤ maxSerializedString) := by
  refine ReadsIn.congr (ReadsIn.bind TxOutput.address readString_reads fun a _ =>
    ReadsIn.bind TxOutput.amount readU64_reads fun n _ => ReadsIn.pure ?_) ?_ ?_
  · rintro ⟨_, _⟩
    simp
  · intro o
    simp [TxOutput.serialize]
  · intro o
    simp

theorem readTransaction_reads : Reads readTransaction Transaction.serialize Transaction.Within := by
  refine ReadsIn.congr (ReadsIn.bind Transaction.id readString_reads fun _ _ =>
    ReadsIn.bind Transaction.fee readU64_reads fun _ _ =>
    ReadsIn.bind Transaction.timestamp readU64_reads fun _ _ =>
    ReadsIn.bind Transaction.inputs (readCounted_reads _ _ (by decide) readInput_reads) fun _ _ =>
    ReadsIn.bind Transaction.outputs (readCounted_reads _ _ (by decide) readOutput_reads) fun _ _ =>
    ReadsIn.pure ?_) ?_ ?_
  · rintro ⟨_, _, _, _, _⟩
    simp only [Transaction.mk.injEq, true_and]
    tauto
  · intro tx
    simp [Transaction.serialize]
  · intro tx
    simp [Transaction.Within]

/-- **Transactions**: the decoder returns `tx` exactly on the encoding of a `tx` within the
limits. -/
theorem Transaction.deserialize_iff (data : Bytes) (tx : Transaction) :
    Transaction.deserialize data = .ok tx ↔ data = tx.serialize ∧ tx.Within :=
  parseAll_iff _ readTransaction_reads data tx

/-! ## Blocks -/

/-- The error texts of `mermai_transaction::deserialize`. -/
def transactionErrors : List String :=
  [eofText, "Invalid string payload size", "Invalid byte payload size", "Too many transaction inputs",
    "Too many transaction outputs", "Trailing transaction data"]

/-- The decoder throws no other. -/
theorem Transaction.deserialize_error {data : Bytes} {what : String}
    (h : Transaction.deserialize data = .error what) : what ∈ transactionErrors := by
  have heof : eofText ∈ transactionErrors := by decide
  have hstring : Throws readString (· ∈ transactionErrors) := throws_readSized heof (by decide) _
  have hbytes : Throws readBytes (· ∈ transactionErrors) := throws_readSized heof (by decide) _
  have hU32 : Throws readU32 (· ∈ transactionErrors) := (throws_readBE heof 4).bind fun _ => Throws.pure _
  have hU64 : Throws readU64 (· ∈ transactionErrors) := (throws_readBE heof 8).bind fun _ => Throws.pure _
  have hinput : Throws readInput (· ∈ transactionErrors) :=
    hstring.bind fun _ => hU32.bind fun _ => hbytes.bind fun _ => hbytes.bind fun _ => Throws.pure _
  have houtput : Throws readOutput (· ∈ transactionErrors) :=
    hstring.bind fun _ => hU64.bind fun _ => Throws.pure _
  refine throws_parseAll (by decide) ?_ h
  exact hstring.bind fun _ => hU64.bind fun _ => hU64.bind fun _ =>
    (throws_readCounted heof (by decide) hinput _).bind fun _ =>
      (throws_readCounted heof (by decide) houtput _).bind fun _ => Throws.pure _

theorem readBlock_reads : Reads readBlock Block.serialize Block.Within := by
  have htx := readCounted_reads eofText "Too many block transactions"
    (show maxBlockTransactions < 256 ^ 4 by decide)
    (readNested_reads readString_reads Transaction.deserialize_iff)
  refine ReadsIn.congr (ReadsIn.bind Block.version readU32_reads fun _ _ =>
    ReadsIn.bind Block.height readU32_reads fun _ _ =>
    ReadsIn.bind Block.prevBlockHash readString_reads fun _ _ =>
    ReadsIn.bind Block.merkleRoot readString_reads fun _ _ =>
    ReadsIn.bind Block.timestamp readU64_reads fun _ _ =>
    ReadsIn.bind Block.nonce readU32_reads fun _ _ =>
    ReadsIn.bind Block.validatorAddress readString_reads fun _ _ =>
    ReadsIn.bind Block.validatorStake readU64_reads fun _ _ =>
    ReadsIn.bind Block.validatorAge readU64_reads fun _ _ =>
    ReadsIn.bind Block.validatorPublicKey readBytes_reads fun _ _ =>
    ReadsIn.bind Block.validatorSignature readBytes_reads fun _ _ =>
    ReadsIn.bind Block.transactions htx fun _ _ => ReadsIn.pure ?_) ?_ ?_
  · rintro ⟨_, _, _, _, _, _, _, _, _, _, _, _⟩
    simp only [Block.mk.injEq, true_and, and_assoc]
  · intro b
    simp [Block.serialize]
  · intro b
    simp [Block.Within]

/-- **Blocks**: the decoder returns `b` exactly on the encoding of a `b` within the limits. -/
theorem Block.deserialize_iff (data : Bytes) (b : Block) :
    Block.deserialize data = .ok b ↔ data = b.serialize ∧ b.Within :=
  parseAll_iff _ readBlock_reads data b

/-! ## The formats as bijections -/

/-- **Transactions**: `serialize` is a bijection between the transactions within the limits and the
strings that `deserialize` accepts, `deserialize` is its inverse, and it throws on every other
string. -/
theorem transaction_codec_exact :
    (∀ (data : Bytes) (tx : Transaction),
      Transaction.deserialize data = .ok tx ↔ data = tx.serialize ∧ tx.Within) ∧
    (∀ data : Bytes, (∃ err, Transaction.deserialize data = .error err) ↔
      ¬ ∃ tx : Transaction, data = tx.serialize ∧ tx.Within) ∧
    Set.BijOn Transaction.serialize {tx | tx.Within}
      {data | ∃ tx, Transaction.deserialize data = .ok tx} :=
  ⟨Transaction.deserialize_iff, fun data => parse_error_iff (Transaction.deserialize_iff data),
    enc_bijOn Transaction.deserialize_iff⟩

/-- **Blocks**: the same through two layers of framing. -/
theorem block_codec_exact :
    (∀ (data : Bytes) (b : Block),
      Block.deserialize data = .ok b ↔ data = b.serialize ∧ b.Within) ∧
    (∀ data : Bytes, (∃ err, Block.deserialize data = .error err) ↔
      ¬ ∃ b : Block, data = b.serialize ∧ b.Within) ∧
    Set.BijOn Block.serialize {b | b.Within} {data | ∃ b, Block.deserialize data = .ok b} :=
  ⟨Block.deserialize_iff, fun data => parse_error_iff (Block.deserialize_iff data),
    enc_bijOn Block.deserialize_iff⟩

/-! ## Votes -/

theorem readVote_reads : Reads readVote BlockVote.serialize BlockVote.Within := by
  refine ReadsIn.congr (ReadsIn.bind BlockVote.validatorAddress readString_reads fun _ _ =>
    ReadsIn.bind BlockVote.blockHash readString_reads fun _ _ =>
    ReadsIn.bind BlockVote.blockHeight readU32_reads fun _ _ =>
    ReadsIn.bind BlockVote.timestamp readU64_reads fun _ _ =>
    ReadsIn.bind BlockVote.validatorPublicKey readBytes_reads fun _ _ =>
    ReadsIn.bind BlockVote.signature readBytes_reads fun _ _ => ReadsIn.pure ?_) ?_ ?_
  · rintro ⟨_, _, _, _, _, _⟩
    simp only [BlockVote.mk.injEq, true_and, and_assoc]
  · intro v
    simp [BlockVote.serialize]
  · intro v
    simp [BlockVote.Within]

/-- The decoder returns a vote on its encoding with anything behind it. -/
theorem BlockVote.deserialize_eq_ok {data : Bytes} {v : BlockVote} :
    BlockVote.deserialize data = .ok v ↔ ∃ rest, data = v.serialize ++ rest ∧ v.Within := by
  unfold BlockVote.deserialize
  constructor
  · intro h
    cases hread : readVote data with
    | error err =>
      rw [hread] at h
      cases h
    | ok p =>
      rw [hread] at h
      cases h
      obtain ⟨hdata, -, hwithin⟩ := readVote_reads.sound data p.1 p.2 hread
      exact ⟨p.2, hdata, hwithin⟩
  · rintro ⟨rest, rfl, hwithin⟩
    rw [readVote_reads.complete v rest trivial hwithin]
    rfl

/-- **Votes**: on a string the decoder is the inverse of the encoding, and throws where there is none,
exactly when nothing stands behind a vote. -/
theorem vote_codec_exact_iff (data : Bytes) :
    ((∀ v : BlockVote, BlockVote.deserialize data = .ok v ↔ data = v.serialize ∧ v.Within) ∧
      ((∃ err, BlockVote.deserialize data = .error err) ↔
        ¬ ∃ v : BlockVote, data = v.serialize ∧ v.Within)) ↔
    ∀ (v : BlockVote) (rest : Bytes), v.Within → data = v.serialize ++ rest → rest = [] := by
  constructor
  · rintro ⟨hexact, -⟩ v rest hwithin hdata
    have hok := BlockVote.deserialize_eq_ok.mpr ⟨rest, hdata, hwithin⟩
    rw [((hexact v).mp hok).1] at hdata
    exact List.self_eq_append_right.mp hdata
  · intro hends
    have hexact : ∀ v : BlockVote,
        BlockVote.deserialize data = .ok v ↔ data = v.serialize ∧ v.Within := by
      intro v
      rw [BlockVote.deserialize_eq_ok]
      constructor
      · rintro ⟨rest, hdata, hwithin⟩
        rw [hends v rest hwithin hdata, List.append_nil] at hdata
        exact ⟨hdata, hwithin⟩
      · rintro ⟨hdata, hwithin⟩
        exact ⟨[], by rw [List.append_nil, hdata], hwithin⟩
    exact ⟨hexact, parse_error_iff hexact⟩

/-- A vote of the validator `v` for the block `b`. -/
def shortVote : BlockVote := ⟨[118], [98], 7, 5, [1], [2]⟩

/-- A byte behind a vote is accepted. -/
theorem vote_tail_accepted :
    BlockVote.deserialize (shortVote.serialize ++ [0]) = .ok shortVote ∧
      shortVote.serialize ++ [0] ≠ shortVote.serialize :=
  ⟨by decide, by decide⟩

/-! ## Sizes -/

/-- The strings of a transaction are parts of its encoding. -/
theorem Transaction.strings_le (tx : Transaction) : tx.id.length ≤ tx.serialize.length ∧
    (∀ i ∈ tx.inputs, i.prevTxHash.length ≤ tx.serialize.length) ∧
    (∀ o ∈ tx.outputs, o.address.length ≤ tx.serialize.length) := by
  have hlen : tx.serialize.length = (writeString tx.id).length + 16 +
      (writeCounted TxInput.serialize tx.inputs).length +
      (writeCounted TxOutput.serialize tx.outputs).length := by
    simp only [Transaction.serialize, writeU64, List.length_append, writeBE_length]
  have hstr : ∀ s : Bytes, s.length ≤ (writeString s).length := by
    intro s
    rw [writeString, writeSized_length]
    omega
  rw [hlen]
  refine ⟨?_, ?_, ?_⟩
  · have := hstr tx.id
    omega
  · intro i hi
    have h1 := item_le_writeCounted (e := TxInput.serialize) hi
    have h2 := hstr i.prevTxHash
    rw [TxInput.serialize, List.length_append, List.length_append, List.length_append] at h1
    omega
  · intro o ho
    have h1 := item_le_writeCounted (e := TxOutput.serialize) ho
    have h2 := hstr o.address
    rw [TxOutput.serialize, List.length_append] at h1
    omega

theorem TxInput.lengths_le (i : TxInput) : i.prevTxHash.length ≤ i.serialize.length ∧
    i.signature.length ≤ i.serialize.length ∧ i.publicKey.length ≤ i.serialize.length ∧
    0 < i.serialize.length := by
  simp only [TxInput.serialize, writeString, writeBytes, List.length_append, writeSized_length]
  omega

/-- Every limit is at least 1000. -/
theorem limits_ge : 1000 ≤ maxSerializedString ∧ 1000 ≤ maxSerializedBytes ∧
    1000 ≤ maxTransactionInputs ∧ 1000 ≤ maxTransactionOutputs ∧ 1000 ≤ maxBlockTransactions := by
  decide

/-- A transaction with a short encoding is within the limits. -/
theorem Transaction.within_of_short {tx : Transaction} (h : tx.serialize.length ≤ 1000) :
    tx.Within := by
  obtain ⟨hS, hB, hI, hO, -⟩ := limits_ge
  obtain ⟨hid, -, haddr⟩ := tx.strings_le
  have hlen : (writeCounted TxInput.serialize tx.inputs).length ≤ tx.serialize.length ∧
      (writeCounted TxOutput.serialize tx.outputs).length ≤ tx.serialize.length := by
    simp only [Transaction.serialize, List.length_append]
    omega
  have hin := count_le_writeCounted (fun i => (TxInput.lengths_le i).2.2.2) tx.inputs
  have hout := count_le_writeCounted (e := TxOutput.serialize)
    (fun o => by simp [TxOutput.serialize, writeString]) tx.outputs
  refine ⟨by omega, ⟨by omega, ?_⟩, ⟨by omega, ?_⟩⟩
  · intro i hi
    have hitem := item_le_writeCounted (e := TxInput.serialize) hi
    obtain ⟨h1, h2, h3, -⟩ := i.lengths_le
    exact ⟨by omega, by omega, by omega⟩
  · intro o ho
    have := haddr o ho
    omega

/-- A block with a short encoding is within the limits. -/
theorem Block.within_of_short {b : Block} (h : b.serialize.length ≤ 1000) : b.Within := by
  obtain ⟨hS, hB, -, -, hT⟩ := limits_ge
  have hlen := h
  simp only [Block.serialize, writeString, writeBytes, List.length_append,
    writeSized_length] at hlen
  have hcount := count_le_writeCounted (e := fun tx : Transaction => writeSized tx.serialize)
    (fun tx => by simp) b.transactions
  refine ⟨by omega, by omega, by omega, by omega, by omega, by omega, ?_⟩
  intro tx htx
  have hitem := item_le_writeCounted (e := fun tx : Transaction => writeSized tx.serialize) htx
  simp only [writeSized_length] at hitem
  exact ⟨by omega, Transaction.within_of_short (by omega)⟩

/-- A short encoding determines its block. -/
theorem Block.serialize_inj_of_short {b b' : Block} (hs : b.serialize = b'.serialize)
    (h : b.serialize.length ≤ 1000) : b = b' :=
  readBlock_reads.enc_inj (Block.within_of_short h) (Block.within_of_short (hs ▸ h)) hs

/-- Encodings agree on the height, whatever the sizes of the other fields. -/
theorem Block.height_of_serialize {b b' : Block} (h : b.serialize = b'.serialize) :
    b.height = b'.height := by
  simp only [Block.serialize, List.append_assoc] at h
  have h1 := List.append_inj_right h (by simp [writeU32])
  have h2 := List.append_inj_left h1 (by simp [writeU32])
  have h3 := congrArg ofBE h2
  have hlt : ∀ x : UInt32, x.toNat < 256 ^ 4 := fun x => x.toNat_lt
  rw [writeU32, writeU32, ofBE_writeBE, ofBE_writeBE, Nat.mod_eq_of_lt (hlt _),
    Nat.mod_eq_of_lt (hlt _)] at h3
  exact UInt32.toNat_inj.mp h3

end Mermai
