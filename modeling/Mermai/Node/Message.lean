import Mermai.Chain.Blockchain
import Mermai.Consensus.Quorum
import Mermai.Db.Store

/-!
# Node.Message — a peer-to-peer node and its message handler

`mermai_p2p_node::handle_message`.  A node holds the chain, the database, the consensus engine and
the vote collector; the three calls `can_add_block`, `apply_block`, `add_block` that accept a block
read the clock one after the other, so the clock is a function of the number of readings so far.
What goes back to the peer (an answer, a lower reputation) is part of the result.
-/

namespace Mermai

open Codec

variable {F : Type}

/-! ## Chains on the wire -/

/-- `MAX_CHAIN_BLOCKS_PER_MESSAGE`. -/
abbrev maxChainBlocksPerMessage : ℕ := 4096
/-- `MAX_SERIALIZED_BLOCK_SIZE`. -/
abbrev maxSerializedBlockSize : ℕ := 1024 * 1024

/-- `encode_chain_payload`. -/
def encodeChainPayload (blocks : List Block) : Bytes :=
  writeCounted (fun b : Block => writeSized b.serialize) blocks

/-- Read a non-empty string behind its length, as the loop of `decode_chain_payload` does. -/
def readBlob : Reader Bytes := do
  let size ← readBE "" 4
  fun s =>
    if size = 0 ∨ size > maxSerializedBlockSize ∨ s.length < size then .error ""
    else .ok (s.take size, s.drop size)

/-- The reads of `decode_chain_payload`. -/
def readChain : Reader (List Block) := do
  let blockCount ← readBE "" 4
  if blockCount = 0 ∨ blockCount > maxChainBlocksPerMessage then throw ""
  else readN (readNested readBlob Block.deserialize) blockCount

/-- `decode_chain_payload`; every failure is the empty list. -/
def decodeChainPayload (payload : Bytes) : List Block :=
  match parseAll "" readChain payload with
  | .ok blocks => blocks
  | .error _ => []

/-! ## The node -/

/-- A node; `ticks` counts the readings of the clock. -/
structure Node where
  chain : List Block
  db : Option Db
  engine : Option Engine
  quorum : Option QuorumCollector
  ticks : ℕ

/-- `!database || database->apply_block(b)`. -/
def applyStored (C : Crypto) (now : ℕ) (db : Option Db) (b : Block) : Bool × Option Db :=
  match db with
  | none => (true, none)
  | some db => ((applyBlock C now db b).1, some (applyBlock C now db b).2)

/-- `can_add_block(b) && apply_block(b) && add_block(b)`, with the effects of a call that stops the
sequence. -/
def Node.acceptBlock (C : Crypto) (fl : FloatOps F) (clock : ℕ → ℕ) (n : Node) (b : Block) :
    Bool × Node :=
  let checked := canAddBlock C fl (clock n.ticks) n.engine n.chain (some b)
  if checked.ok then
    let applied := applyStored C (clock (n.ticks + 1)) n.db b
    if applied.1 then
      let added := addBlock C fl (clock (n.ticks + 2)) checked.engine n.chain (some b)
      (added.1.ok, { n with chain := added.2, db := applied.2, engine := added.1.engine,
                            ticks := n.ticks + 3 })
    else (false, { n with db := applied.2, engine := checked.engine, ticks := n.ticks + 2 })
  else (false, { n with engine := checked.engine, ticks := n.ticks + 1 })

/-- The loop over the new blocks of a candidate chain: it stops at the first that is refused. -/
def Node.acceptBlocks (C : Crypto) (fl : FloatOps F) (clock : ℕ → ℕ) (n : Node) :
    List Block → Bool × Node
  | [] => (true, n)
  | b :: rest =>
    let r := n.acceptBlock C fl clock b
    if r.1 then r.2.acceptBlocks C fl clock rest else (false, r.2)

/-! ## Messages -/

/-- A message by its type; the types that `handle_message` ignores are `other`. -/
inductive Message
  | getBlocks
  | blocks (payload : Bytes)
  | block (payload : Bytes)
  | newTransaction (payload : Bytes)
  | blockVote (payload : Bytes)
  | other

/-- The node after a message, the payload of the answer, and whether the peer loses reputation. -/
structure Handled where
  node : Node
  answer : Option Bytes := none
  penalty : Bool := false

/-- The blocks of the candidate up to the local height are the local ones. -/
def sharesChain (chain candidate : List Block) : Bool :=
  (chain.map Block.serialize).isPrefixOf (candidate.map Block.serialize)

/-- The case `BLOCKS`. -/
def handleBlocks (C : Crypto) (fl : FloatOps F) (clock : ℕ → ℕ) (n : Node) (payload : Bytes) :
    Handled :=
  let candidate := decodeChainPayload payload
  if candidate = [] then { node := n, penalty := true }
  else
    match n.db with
    | some _ =>
      let localHeight := getHeight n.chain
      if candidate.length ≤ (localHeight + 1).toNat then { node := n }
      else if ¬ sharesChain n.chain candidate then { node := n, penalty := true }
      else
        let r := n.acceptBlocks C fl clock (candidate.drop (localHeight.toNat + 1))
        { node := r.2, penalty := ¬ r.1 }
    | none =>
      let r := replaceChainIfLonger C fl (clock n.ticks) n.engine n.chain (candidate.map some)
      { node := { n with chain := r.2, engine := r.1.engine, ticks := n.ticks + 1 }
        penalty := ¬ r.1.ok }

/-- The case `NEW_TRANSACTION`. -/
def handleTransaction (C : Crypto) (clock : ℕ → ℕ) (n : Node) (payload : Bytes) : Node :=
  match Transaction.deserialize payload, n.db with
  | .ok tx, some db =>
    let db' := if tx.verify C (clock n.ticks) then addToMempool C db tx else db
    { n with db := some db', ticks := n.ticks + 1 }
  | _, _ => n

/-- The case `BLOCK_VOTE`. -/
def handleVote (C : Crypto) (n : Node) (payload : Bytes) : Node :=
  match BlockVote.deserialize payload, n.quorum, n.engine with
  | .ok vote, some q, some e => { n with quorum := some (addVote C e.activeValidators q vote).2 }
  | _, _, _ => n

/-- `handle_message`. -/
def handleMessage (C : Crypto) (fl : FloatOps F) (clock : ℕ → ℕ) (n : Node) : Message → Handled
  | .getBlocks => { node := n, answer := encodeChainPayload n.chain }
  | .blocks payload => handleBlocks C fl clock n payload
  | .block payload =>
    match Block.deserialize payload with
    | .error _ => { node := n, penalty := true }
    | .ok b =>
      let r := n.acceptBlock C fl clock b
      { node := r.2, penalty := ¬ r.1 }
  | .newTransaction payload => { node := handleTransaction C clock n payload }
  | .blockVote payload => { node := handleVote C n payload }
  | .other => { node := n }

/-- The node after messages handled one after another. -/
def handleMessages (C : Crypto) (fl : FloatOps F) (clock : ℕ → ℕ) (n : Node)
    (messages : List Message) : Node :=
  messages.foldl (fun n m => (handleMessage C fl clock n m).node) n

/-- The blocks a message presents. -/
def Message.presented : Message → List Block
  | .blocks payload => decodeChainPayload payload
  | .block payload => (Block.deserialize payload).toOption.toList
  | _ => []

end Mermai
