import Mermai.Consensus.Proposal

/-!
# Chain.Blockchain — the in-memory chain

`mermai_blockchain`: the constructor, `can_add_block`, `add_block`, `replace_chain_if_longer` and
the queries.  A null `shared_ptr` is `none`.  The consensus engine is shared with the rest of the
node, so every operation takes it and gives it back; `Checked.calls` lists the calls of
`validate_proposal` the operation made, in order.
-/

namespace Mermai

open Codec

variable {F : Type}

/-- The genesis block of the constructor. -/
def genesis : Block := { height := 0, prevBlockHash := zeroHash, timestamp := 1640000000 }

/-- A verdict, the engine after it, and the calls of `validate_proposal` on the way. -/
structure Checked where
  ok : Bool
  engine : Option Engine
  calls : List ProposalCall

/-! ## Checks shared by the two validators -/

/-- `validate_proposal` at the block's own time, when an engine is attached. -/
def proposalOk (C : Crypto) (fl : FloatOps F) (eng : Option Engine) (b : Block) : Checked :=
  match eng with
  | none => ⟨true, none, []⟩
  | some e =>
    let r := validateProposal C fl e b b.timestamp
    ⟨r.1 = .accepted, some r.2, [⟨e, b, b.timestamp⟩]⟩

/-- The Merkle root matches the transactions; it is empty when there are none. -/
def merkleOk (C : Crypto) (b : Block) : Bool :=
  ¬ ((b.transactions ≠ [] ∧ b.merkleRoot ≠ calculateTreeHash C b.transactions) ∨
    (b.transactions = [] ∧ b.merkleRoot ≠ []))

/-- Every transaction verifies and no id occurs twice. -/
def transactionsOk (C : Crypto) (now : ℕ) (txs : List Transaction) : Bool :=
  (∀ tx ∈ txs, tx.verify C now) ∧ (txs.map Transaction.id).Nodup

/-! ## Appending -/

/-- The checks of `can_add_block` before the engine is asked. -/
def extendsTip (C : Crypto) (now : ℕ) (chain : List Block) (b : Block) : Bool :=
  match chain.getLast? with
  | none => false
  | some tip =>
    b.height.toNat = chain.length ∧
    ¬ (b.prevBlockHash = [] ∨ b.prevBlockHash ≠ tip.hashHex C) ∧
    ¬ (b.timestamp < tip.timestamp ∨ b.timestamp.toNat > now + 120) ∧ b.verifyTimeWeightPos

/-- The checks of `can_add_block` after the engine has been asked. -/
def bodyOk (C : Crypto) (now : ℕ) (b : Block) : Bool :=
  b.transactions.length ≤ maxBlockTransactions ∧ merkleOk C b ∧ transactionsOk C now b.transactions

/-- `mermai_blockchain::can_add_block`: a query, but the engine may be slashed on the way. -/
def canAddBlock (C : Crypto) (fl : FloatOps F) (now : ℕ) (eng : Option Engine)
    (chain : List Block) (block : Option Block) : Checked :=
  match block with
  | none => ⟨false, eng, []⟩
  | some b =>
    if extendsTip C now chain b then
      let p := proposalOk C fl eng b
      { p with ok := p.ok && bodyOk C now b }
    else ⟨false, eng, []⟩

/-- `mermai_blockchain::add_block`: the check again, then `push_back`. -/
def addBlock (C : Crypto) (fl : FloatOps F) (now : ℕ) (eng : Option Engine)
    (chain : List Block) (block : Option Block) : Checked × List Block :=
  let r := canAddBlock C fl now eng chain block
  (r, if r.ok then chain ++ block.toList else chain)

/-! ## Replacing the whole chain -/

/-- The link of the next block to `validated`, the part of the candidate that has passed. -/
def followsValidated (C : Crypto) (validated : List Block) (b : Block) : Bool :=
  match validated.getLast? with
  | none => b.height = 0 ∧ b.prevBlockHash = zeroHash
  | some previous => b.prevBlockHash = previous.hashHex C ∧ ¬ b.timestamp < previous.timestamp

/-- The checks of `replace_chain_if_longer` on the next block before the engine is asked. -/
def candidateOk (C : Crypto) (validated : List Block) (b : Block) : Bool :=
  b.height = UInt32.ofNat validated.length ∧ followsValidated C validated b ∧
  (validated = [] ∨ b.verifyTimeWeightPos) ∧ b.transactions.length ≤ maxBlockTransactions

/-- The engine's verdict on the next block of the candidate; the first block is not shown to it. -/
def candidateProposal (C : Crypto) (fl : FloatOps F) (eng : Option Engine) (validated : List Block)
    (b : Block) : Checked :=
  if validated = [] then ⟨true, eng, []⟩ else proposalOk C fl eng b

/-- The loop of `replace_chain_if_longer`. -/
def validateCandidate (C : Crypto) (fl : FloatOps F) (now : ℕ) :
    Option Engine → List Block → List (Option Block) → Checked × List Block
  | eng, validated, [] => (⟨true, eng, []⟩, validated)
  | eng, validated, none :: _ => (⟨false, eng, []⟩, validated)
  | eng, validated, some b :: rest =>
    if candidateOk C validated b then
      let p := candidateProposal C fl eng validated b
      if p.ok && merkleOk C b && transactionsOk C now b.transactions then
        let r := validateCandidate C fl now p.engine (validated ++ [b]) rest
        ({ r.1 with calls := p.calls ++ r.1.calls }, r.2)
      else ({ p with ok := false }, validated)
    else (⟨false, eng, []⟩, validated)

/-- `mermai_blockchain::replace_chain_if_longer`. -/
def replaceChainIfLonger (C : Crypto) (fl : FloatOps F) (now : ℕ) (eng : Option Engine)
    (chain : List Block) (candidate : List (Option Block)) : Checked × List Block :=
  if candidate = [] ∨ candidate.length ≤ chain.length then (⟨false, eng, []⟩, chain)
  else
    let r := validateCandidate C fl now eng [] candidate
    (r.1, if r.1.ok then r.2 else chain)

/-! ## Queries -/

/-- `mermai_blockchain::get_block`. -/
def getBlock (chain : List Block) (height : UInt32) : Option Block := chain[height.toNat]?

/-- `mermai_blockchain::get_height`. -/
def getHeight (chain : List Block) : UInt32 :=
  if chain = [] then 0 else UInt32.ofNat (chain.length - 1)

/-- `mermai_blockchain::is_valid` and `is_chain_valid`. -/
def isChainValid (C : Crypto) (chain : List Block) : Bool :=
  (chain.zip chain.tail).all fun p =>
    p.2.prevBlockHash = p.1.hashHex C ∧ p.2.verifyTimeWeightPos

/-! ## What the checks mean -/

theorem extendsTip_iff {C : Crypto} {now : ℕ} {chain : List Block} {b : Block} :
    extendsTip C now chain b = true ↔ ∃ tip, chain.getLast? = some tip ∧
      b.height.toNat = chain.length ∧ b.prevBlockHash ≠ [] ∧ b.prevBlockHash = tip.hashHex C ∧
      tip.timestamp ≤ b.timestamp ∧ b.timestamp.toNat ≤ now + 120 ∧
      b.verifyTimeWeightPos = true := by
  unfold extendsTip
  cases chain.getLast? with
  | none => simp
  | some tip => simp [not_or, and_assoc]

theorem bodyOk_iff {C : Crypto} {now : ℕ} {b : Block} :
    bodyOk C now b = true ↔ b.transactions.length ≤ maxBlockTransactions ∧ merkleOk C b = true ∧
      (∀ tx ∈ b.transactions, tx.verify C now = true) ∧
      (b.transactions.map Transaction.id).Nodup := by
  simp [bodyOk, transactionsOk]

/-- `can_add_block` returns true exactly when the three groups of checks pass. -/
theorem canAddBlock_ok_iff {C : Crypto} {fl : FloatOps F} {now : ℕ} {eng : Option Engine}
    {chain : List Block} {b : Block} :
    (canAddBlock C fl now eng chain (some b)).ok = true ↔ extendsTip C now chain b = true ∧
      (proposalOk C fl eng b).ok = true ∧ bodyOk C now b = true := by
  simp only [canAddBlock]
  split_ifs with h <;> simp [h]

theorem canAddBlock_engine {C : Crypto} {fl : FloatOps F} {now : ℕ} {eng : Option Engine}
    {chain : List Block} {b : Block} (h : (canAddBlock C fl now eng chain (some b)).ok = true) :
    (canAddBlock C fl now eng chain (some b)).engine = (proposalOk C fl eng b).engine := by
  have ht := (canAddBlock_ok_iff.mp h).1
  simp [canAddBlock, ht]

/-- The clock only moves the two upper bounds on timestamps. -/
theorem extendsTip_mono {C : Crypto} {now now' : ℕ} {chain : List Block} {b : Block}
    (h : extendsTip C now chain b = true) (hle : now ≤ now') :
    extendsTip C now' chain b = true := by
  obtain ⟨tip, h1, h2, h3, h4, h5, h6, h7⟩ := extendsTip_iff.mp h
  exact extendsTip_iff.mpr ⟨tip, h1, h2, h3, h4, h5, by omega, h7⟩

theorem bodyOk_mono {C : Crypto} {now now' : ℕ} {b : Block} (h : bodyOk C now b = true)
    (hle : now ≤ now') : bodyOk C now' b = true := by
  obtain ⟨h1, h2, h3, h4⟩ := bodyOk_iff.mp h
  exact bodyOk_iff.mpr ⟨h1, h2, fun tx htx => Transaction.verify_mono (h3 tx htx) hle, h4⟩

/-- A later clock accepts what an earlier one accepts. -/
theorem canAddBlock_mono {C : Crypto} {fl : FloatOps F} {now now' : ℕ} {eng : Option Engine}
    {chain : List Block} {b : Block} (h : (canAddBlock C fl now eng chain (some b)).ok = true)
    (hle : now ≤ now') : (canAddBlock C fl now' eng chain (some b)).ok = true := by
  obtain ⟨ht, hp, hb⟩ := canAddBlock_ok_iff.mp h
  exact canAddBlock_ok_iff.mpr ⟨extendsTip_mono ht hle, hp, bodyOk_mono hb hle⟩

/-- An accepted proposal is accepted again, and asking twice changes nothing more. -/
theorem proposalOk_again {C : Crypto} {fl : FloatOps F} {eng : Option Engine} {b : Block}
    (h : (proposalOk C fl eng b).ok = true) :
    (proposalOk C fl (proposalOk C fl eng b).engine b).ok = true ∧
      (proposalOk C fl (proposalOk C fl eng b).engine b).engine = (proposalOk C fl eng b).engine := by
  cases eng with
  | none => exact ⟨rfl, rfl⟩
  | some e =>
    have ha : (validateProposal C fl e b b.timestamp).1 = .accepted := of_decide_eq_true h
    simp [proposalOk, validateProposal_again ha]

/-- **The second validation**: after `can_add_block` returned true, `add_block` on the same chain
with the engine it left and a clock that has not gone back succeeds, and leaves the engine alone. -/
theorem addBlock_of_canAddBlock {C : Crypto} {fl : FloatOps F} {now now' : ℕ}
    {eng : Option Engine} {chain : List Block} {b : Block}
    (h : (canAddBlock C fl now eng chain (some b)).ok = true) (hle : now ≤ now') :
    let eng' := (canAddBlock C fl now eng chain (some b)).engine
    (addBlock C fl now' eng' chain (some b)).1.ok = true ∧
      (addBlock C fl now' eng' chain (some b)).1.engine = eng' ∧
      (addBlock C fl now' eng' chain (some b)).2 = chain ++ [b] := by
  intro eng'
  obtain ⟨ht, hp, hb⟩ := canAddBlock_ok_iff.mp h
  have heng : eng' = (proposalOk C fl eng b).engine := canAddBlock_engine h
  obtain ⟨hp', he'⟩ := proposalOk_again hp
  have hok : (canAddBlock C fl now' eng' chain (some b)).ok = true := by
    rw [canAddBlock_ok_iff, heng]
    exact ⟨extendsTip_mono ht hle, hp', bodyOk_mono hb hle⟩
  refine ⟨hok, ?_, ?_⟩
  · show (canAddBlock C fl now' eng' chain (some b)).engine = eng'
    rw [canAddBlock_engine hok, heng, he']
  · simp [addBlock, hok]

/-! ## Sample blocks -/

/-- An unsigned block of height 1 over the genesis block. -/
def firstBlock : Block where
  height := 1
  prevBlockHash := genesis.hashHex polyCrypto
  timestamp := 1640000010
  validatorAddress := [118]
  validatorStake := 1000000

/-- A block of height 2 over it. -/
def secondBlock : Block :=
  { firstBlock with height := 2, prevBlockHash := firstBlock.hashHex polyCrypto }

/-- `mermai_block::sign` with the keys and signatures of `polyCrypto`. -/
def polySign (key : Bytes) (b : Block) : Block :=
  let keyed := { b with validatorPublicKey := key }
  { keyed with validatorSignature := polyDigest (key ++ keyed.signingPayload) }

/-- All inputs of a transaction signed with one key of `polyCrypto`. -/
def polySignTx (key : Bytes) (tx : Transaction) : Transaction :=
  let signature := polyDigest (key ++ Transaction.unsignedPayload
    { tx with inputs := tx.inputs.map fun i => { i with publicKey := key } })
  { tx with inputs := tx.inputs.map fun i => { i with publicKey := key, signature := signature } }

end Mermai
