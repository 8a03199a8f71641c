import Mermai.Node.Message
import Mermai.Core.FormatLaws

/-!
# Node.Wire — messages on a connection

`P2PMessage`, `receive_message` over the bytes of a connection, the messages a node emits, and the
two loops that receive them.  The check of `deserialize` wraps in 32 bits, so it reads outside its data for
the five largest sizes (`readsInside_iff`), which `receive_message` refuses before it decodes: a message up
to 4 MiB arrives as it was sent (`receiveMessage_serialize`).  A chain payload is decoded to its chain
exactly within the limits of `decode_chain_payload` (`decodeChainPayload_encode_iff`).  Both loops take a
message with an empty payload for the end of the connection, and the request of `sync_blocks` has one.
-/

namespace Mermai

open Codec

variable {F : Type}

/-! ## Messages -/

/-- `MAX_P2P_MESSAGE_SIZE`. -/
abbrev maxP2PMessageSize : ℕ := 4 * 1024 * 1024

/-- `mermai_message_type`. -/
inductive MessageType
  | hello | peerList
  | getBlocks | blocks | getBlock | block
  | mempoolSync | newTransaction | transaction
  | blockProposal | blockVote
  | ping | pong
deriving DecidableEq

/-- The byte of a message type. -/
def MessageType.code : MessageType → UInt8
  | .hello => 0x00
  | .peerList => 0x01
  | .getBlocks => 0x10
  | .blocks => 0x11
  | .getBlock => 0x12
  | .block => 0x13
  | .mempoolSync => 0x20
  | .newTransaction => 0x21
  | .transaction => 0x23
  | .blockProposal => 0x30
  | .blockVote => 0x31
  | .ping => 0xF0
  | .pong => 0xF1

/-- `P2PMessage`; the type is the byte on the wire, which need not be the code of a type.  The field
`payload_size` is written by `deserialize` and never read after it, and is left out. -/
structure P2PMessage where
  type : UInt8
  payload : Bytes
deriving DecidableEq

/-- `P2PMessage::serialize`: nothing for a payload over the limit. -/
def P2PMessage.serialize (m : P2PMessage) : Bytes :=
  if m.payload.length > maxP2PMessageSize then []
  else m.type :: writeBE 4 m.payload.length ++ m.payload

/-- The field `payload_size` of the first five bytes. -/
def payloadSize (data : Bytes) : UInt32 := UInt32.ofNat (ofBE ((data.take 5).drop 1))

/-- The range of the data that `P2PMessage::deserialize` assigns to the payload: where it begins and
where it ends.  The check before the assignment adds in 32 bits. -/
def P2PMessage.payloadRange (data : Bytes) : Option (ℕ × ℕ) :=
  if data.length < 5 then none
  else if (5 + payloadSize data).toNat ≤ data.length then some (5, 5 + (payloadSize data).toNat)
  else none

/-- `P2PMessage::deserialize`; `junk` is the type of a message that was not initialised, `none` is a
read outside the data. -/
def P2PMessage.deserialize (junk : UInt8) (data : Bytes) : Option P2PMessage :=
  if data.length < 5 then some ⟨junk, []⟩
  else
    match P2PMessage.payloadRange data with
    | none => some ⟨data.headD 0, []⟩
    | some (first, last) =>
      if last ≤ data.length then some ⟨data.headD 0, (data.take last).drop first⟩ else none

/-- `mermai_peer::receive_message` on the bytes that arrive before the connection ends: the message
and the bytes after it.  A short header and a size over the limit give a message that was not
initialised, a short payload gives the zero message. -/
def receiveMessage (junk : UInt8) (stream : Bytes) : P2PMessage × Bytes :=
  let header := stream.take 5
  let rest := stream.drop 5
  let payloadSize := ofBE (header.drop 1)
  if stream.length < 5 then (⟨junk, []⟩, [])
  else if payloadSize > maxP2PMessageSize then (⟨junk, []⟩, rest)
  else if rest.length < payloadSize then (⟨0, []⟩, [])
  else
    -- never a read outside: the size was checked before
    ((P2PMessage.deserialize junk (header ++ rest.take payloadSize)).getD ⟨junk, []⟩,
      rest.drop payloadSize)

theorem writeBE_four (n : ℕ) : ∃ a b c d, writeBE 4 n = [a, b, c, d] :=
  ⟨_, _, _, _, rfl⟩

theorem payloadSize_lt (data : Bytes) : (payloadSize data).toNat < 2 ^ 32 :=
  (payloadSize data).toNat_lt

/-- The first five bytes determine the size field. -/
theorem payloadSize_toNat (data : Bytes) : (payloadSize data).toNat = ofBE ((data.take 5).drop 1) := by
  have hfour : ((data.take 5).drop 1).length ≤ 4 := by
    simp only [List.length_drop, List.length_take]
    omega
  have hlt := ofBE_lt ((data.take 5).drop 1)
  have hpow : 256 ^ ((data.take 5).drop 1).length ≤ 256 ^ 4 := Nat.pow_le_pow_right (by decide) hfour
  rw [payloadSize, UInt32.toNat_ofNat_of_lt' (lt_of_lt_of_le hlt hpow)]

/-- The check of `deserialize` in exact arithmetic: it passes also for the five sizes that wrap. -/
theorem payloadRange_eq_some {data : Bytes} {first last : ℕ} :
    P2PMessage.payloadRange data = some (first, last) ↔
      5 ≤ data.length ∧ first = 5 ∧ last = 5 + (payloadSize data).toNat ∧
        (2 ^ 32 ≤ 5 + (payloadSize data).toNat ∨ 5 + (payloadSize data).toNat ≤ data.length) := by
  have hsize := payloadSize_lt data
  have hsum : (5 + payloadSize data).toNat = (5 + (payloadSize data).toNat) % 2 ^ 32 := UInt32.toNat_add _ _
  simp only [P2PMessage.payloadRange, hsum]
  split_ifs with h1 h2
  · refine iff_of_false (fun h => by cases h) ?_
    omega
  · simp only [Option.some.injEq, Prod.mk.injEq]
    omega
  · refine iff_of_false (fun h => by cases h) ?_
    omega

/-- Data that holds its payload is decoded to it. -/
theorem deserialize_of_le (junk : UInt8) {data : Bytes} (hfive : 5 ≤ data.length)
    (h : 5 + (payloadSize data).toNat ≤ data.length) :
    P2PMessage.deserialize junk data =
      some ⟨data.headD 0, (data.drop 5).take (payloadSize data).toNat⟩ := by
  have hrange := payloadRange_eq_some.mpr ⟨hfive, rfl, rfl, .inr h⟩
  rw [P2PMessage.deserialize, if_neg (by omega), hrange]
  dsimp only
  rw [if_pos h, List.drop_take, Nat.add_sub_cancel_left]

/-- `deserialize` reads inside the data: the payload is empty, or the bytes behind the header that the
size says. -/
def P2PMessage.ReadsInside (data : Bytes) : Prop :=
  ∀ first last, P2PMessage.payloadRange data = some (first, last) →
    first = 5 ∧ last = 5 + (payloadSize data).toNat ∧ last ≤ data.length

/-- What `ReadsInside` says of the message: there is one, of the data. -/
theorem readsInside_iff_deserialize (junk : UInt8) (data : Bytes) :
    P2PMessage.ReadsInside data ↔ ∃ m, P2PMessage.deserialize junk data = some m ∧
      (m.payload = [] ∨ 5 + (payloadSize data).toNat ≤ data.length ∧
        m.payload = (data.drop 5).take (payloadSize data).toNat) := by
  constructor
  · intro h
    by_cases hfive : data.length < 5
    · exact ⟨⟨junk, []⟩, if_pos hfive, .inl rfl⟩
    · cases hrange : P2PMessage.payloadRange data with
      | none =>
        refine ⟨⟨data.headD 0, []⟩, ?_, .inl rfl⟩
        rw [P2PMessage.deserialize, if_neg hfive, hrange]
      | some range =>
        obtain ⟨-, hlast, hle⟩ := h range.1 range.2 hrange
        rw [hlast] at hle
        exact ⟨_, deserialize_of_le junk (not_lt.mp hfive) hle, .inr ⟨hle, rfl⟩⟩
  · rintro ⟨m, hm, -⟩ first last hrange
    obtain ⟨hfive, hfirst, hlast, -⟩ := payloadRange_eq_some.mp hrange
    refine ⟨hfirst, hlast, ?_⟩
    rw [P2PMessage.deserialize, if_neg (not_lt.mpr hfive), hrange] at hm
    by_contra hover
    dsimp only at hm
    rw [if_neg hover] at hm
    cases hm

/-- **Reads of the decoder**: `deserialize` stays inside its data exactly when the size field does not
wrap the sum of the check, or the data holds the payload after all. -/
theorem readsInside_iff (data : Bytes) :
    P2PMessage.ReadsInside data ↔ data.length < 5 ∨ (payloadSize data).toNat < 2 ^ 32 - 5 ∨
      5 + (payloadSize data).toNat ≤ data.length := by
  constructor
  · intro h
    by_contra hcon
    rw [not_or, not_or] at hcon
    obtain ⟨hfive, hwraps, hshort⟩ := hcon
    have hrange := payloadRange_eq_some.mpr ⟨not_lt.mp hfive, rfl, rfl, .inl (by omega)⟩
    exact hshort (h _ _ hrange).2.2
  · rintro h first last hrange
    obtain ⟨hfive, hfirst, hlast, hpasses⟩ := payloadRange_eq_some.mp hrange
    exact ⟨hfirst, hlast, by omega⟩

/-- Five bytes with the largest size: the sum is 4, and the range ends far behind the data. -/
theorem largest_size_read :
    P2PMessage.payloadRange [0x21, 0xFF, 0xFF, 0xFF, 0xFF] = some (5, 4294967300) ∧
      P2PMessage.deserialize 0 [0x21, 0xFF, 0xFF, 0xFF, 0xFF] = none ∧
      ¬ P2PMessage.ReadsInside [0x21, 0xFF, 0xFF, 0xFF, 0xFF] := by
  have hrange : P2PMessage.payloadRange [0x21, 0xFF, 0xFF, 0xFF, 0xFF] = some (5, 4294967300) := by decide
  exact ⟨hrange, by decide, fun h => absurd (h _ _ hrange).2.2 (by decide)⟩

/-- **Framing**: a message up to the limit arrives as it was sent, whatever follows it. -/
theorem receiveMessage_serialize (junk : UInt8) {m : P2PMessage}
    (h : m.payload.length ≤ maxP2PMessageSize) (rest : Bytes) :
    receiveMessage junk (m.serialize ++ rest) = (m, rest) := by
  obtain ⟨a, b, c, d, hbe⟩ := writeBE_four m.payload.length
  have hsize : ofBE [a, b, c, d] = m.payload.length := by
    rw [← hbe, ofBE_writeBE, Nat.mod_eq_of_lt (lt_of_le_of_lt h (by decide))]
  have hser : m.serialize ++ rest = m.type :: a :: b :: c :: d :: (m.payload ++ rest) := by
    rw [P2PMessage.serialize, if_neg (not_lt.mpr h), hbe]
    simp
  have hfield : (payloadSize (m.type :: a :: b :: c :: d :: m.payload)).toNat = m.payload.length := by
    rw [payloadSize_toNat]
    exact hsize
  have hlength : (m.type :: a :: b :: c :: d :: m.payload).length = 5 + m.payload.length := by
    simp only [List.length_cons]
    omega
  have hdecode : P2PMessage.deserialize junk (m.type :: a :: b :: c :: d :: m.payload) = some m := by
    rw [deserialize_of_le junk (by simp) (by rw [hfield, hlength]), hfield]
    simp
  rw [hser]
  simp only [receiveMessage, List.take_succ_cons, List.take_zero, List.drop_succ_cons,
    List.drop_zero, hsize, List.length_cons, List.length_append]
  rw [if_neg (by omega), if_neg (not_lt.mpr h), if_neg (by omega), List.take_left, List.drop_left]
  simp only [List.cons_append, List.nil_append, hdecode, Option.getD_some]

/-! ## Chains on the wire -/

/-- A chain that `decode_chain_payload` can return. -/
def Shippable (chain : List Block) : Prop :=
  (0 < chain.length ∧ chain.length ≤ maxChainBlocksPerMessage) ∧
    ∀ b ∈ chain, (0 < b.serialize.length ∧ b.serialize.length ≤ maxSerializedBlockSize) ∧ b.Within

theorem readBlob_reads : Reads readBlob writeSized
    (fun s => 0 < s.length ∧ s.length ≤ maxSerializedBlockSize) := by
  refine (ReadsIn.bind (Q := fun s => 0 < s.length ∧ s.length ≤ maxSerializedBlockSize) List.length
    (readBE_reads "" 4) fun n _ => ⟨fun b rest hc hb => ?_, fun s b rest hs => ?_⟩).congr
    (fun _ => rfl) (fun s => ⟨fun h => ⟨lt_of_le_of_lt h.2 (by decide), h⟩, fun h => h.2⟩)
  · obtain ⟨-, rfl⟩ := hc
    have : ¬ (b.length = 0 ∨ b.length > maxSerializedBlockSize ∨ (b ++ rest).length < b.length) := by
      simp only [List.length_append]
      omega
    rw [if_neg this, List.take_left, List.drop_left]
  · split_ifs at hs with h
    cases hs
    rw [not_or, not_or] at h
    have ht : (s.take n).length = n := by
      rw [List.length_take]
      omega
    exact ⟨(List.take_append_drop n s).symm, ⟨trivial, ht⟩, by omega, by omega⟩

theorem readChain_reads : Reads readChain encodeChainPayload Shippable := by
  have hitem := readNested_reads readBlob_reads Block.deserialize_iff
  refine (ReadsIn.bind (Q := Shippable) List.length (readBE_reads "" 4)
    fun n _ => ⟨fun l rest hc hl => ?_, fun s l rest hs => ?_⟩).congr (fun _ => rfl)
    (fun l => ⟨fun hl => ⟨lt_of_le_of_lt hl.1.2 (by decide), hl⟩, fun hl => hl.2⟩)
  · obtain ⟨-, rfl⟩ := hc
    rw [if_neg (by have := hl.1; omega)]
    exact (readN_reads hitem _).complete l rest rfl hl.2
  · split_ifs at hs with hn
    · cases hs
    · obtain ⟨h1, h2, h3⟩ := (readN_reads hitem n).sound _ _ _ hs
      rw [not_or] at hn
      exact ⟨h1, ⟨trivial, h2⟩, ⟨by omega, by omega⟩, h3⟩

/-- **Chain payloads**: the decoder gives a chain back exactly when it can return it. -/
theorem decodeChainPayload_encode_iff {chain : List Block} (hne : chain ≠ []) :
    decodeChainPayload (encodeChainPayload chain) = chain ↔ Shippable chain := by
  have hparse := parseAll_iff "" readChain_reads (encodeChainPayload chain)
  constructor
  · intro h
    unfold decodeChainPayload at h
    split at h
    · rename_i blocks hok
      subst h
      exact ((hparse blocks).mp hok).2
    · exact absurd h.symm hne
  · intro h
    rw [decodeChainPayload, (hparse chain).mpr ⟨rfl, h⟩]

/-! ## What a node emits -/

/-- `node_id` and `listen_port`. -/
structure Identity where
  nodeId : Bytes
  listenPort : UInt16

/-- `hello_message`. -/
def helloMessage (self : Identity) (chain : List Block) : P2PMessage where
  type := MessageType.hello.code
  payload := writeBE 4 1 ++ writeSized self.nodeId ++ writeBE 2 self.listenPort.toNat ++
    writeBE 4 (getHeight chain).toNat

/-- The message of `broadcast_block` for a non-null block. -/
def blockMessage (b : Block) : P2PMessage := ⟨MessageType.block.code, b.serialize⟩

/-- The message of `broadcast_transaction` for a non-null transaction. -/
def transactionMessage (tx : Transaction) : P2PMessage :=
  ⟨MessageType.newTransaction.code, tx.serialize⟩

/-- The message of `broadcast_vote`. -/
def voteMessage (vote : BlockVote) : P2PMessage := ⟨MessageType.blockVote.code, vote.serialize⟩

/-- The message of `sync_blocks`: no payload. -/
def syncMessage : P2PMessage := ⟨MessageType.getBlocks.code, []⟩

/-- The answer to `GET_BLOCKS`. -/
def blocksMessage (chain : List Block) : P2PMessage :=
  ⟨MessageType.blocks.code, encodeChainPayload chain⟩

/-- What makes a node send a message. -/
inductive Emission
  | hello
  | syncBlocks
  | broadcastBlock (b : Block)
  | broadcastTransaction (tx : Transaction)
  | broadcastVote (vote : BlockVote)
  | blocksReply
deriving DecidableEq

/-- The message a node sends. -/
def Emission.message (self : Identity) (n : Node) : Emission → P2PMessage
  | .hello => helloMessage self n.chain
  | .syncBlocks => syncMessage
  | .broadcastBlock b => blockMessage b
  | .broadcastTransaction tx => transactionMessage tx
  | .broadcastVote vote => voteMessage vote
  | .blocksReply => blocksMessage n.chain

/-! ## The receive loops -/

/-- The `switch` of `handle_message` on the type byte. -/
def P2PMessage.dispatch (m : P2PMessage) : Message :=
  if m.type = MessageType.getBlocks.code then .getBlocks
  else if m.type = MessageType.blocks.code then .blocks m.payload
  else if m.type = MessageType.block.code then .block m.payload
  else if m.type = MessageType.newTransaction.code then .newTransaction m.payload
  else if m.type = MessageType.blockVote.code then .blockVote m.payload
  else .other

/-- One round of a receive loop: the node answers itself, passes the message to `handle_message`, or
leaves the loop. -/
inductive Round
  | answered (reply : P2PMessage)
  | passed (result : Handled)
  | left

/-- The session goes on after the round. -/
def Round.keepsOpen : Round → Bool
  | .left => false
  | _ => true

/-- What goes back to the peer in the round. -/
def Round.reply : Round → Option P2PMessage
  | .answered reply => some reply
  | .passed result => result.answer.map fun payload => ⟨MessageType.blocks.code, payload⟩
  | .left => none

/-- The two places that receive messages. -/
inductive ReceiveLoop
  | incoming
  | connected

/-- One round of the loop of `handle_incoming_connection` or `connect_to_peer`. -/
def ReceiveLoop.round (C : Crypto) (fl : FloatOps F) (clock : ℕ → ℕ) (self : Identity) (n : Node)
    (m : P2PMessage) : ReceiveLoop → Round
  | .incoming =>
    if m.type = MessageType.hello.code then .answered (helloMessage self n.chain)
    else if m.payload ≠ [] then .passed (handleMessage C fl clock n m.dispatch)
    else .left
  | .connected =>
    if m.payload = [] ∧ m.type ≠ MessageType.hello.code then .left
    else .passed (handleMessage C fl clock n m.dispatch)

theorem ReceiveLoop.keepsOpen_round (C : Crypto) (fl : FloatOps F) (clock : ℕ → ℕ)
    (self : Identity) (n : Node) (m : P2PMessage) (loop : ReceiveLoop) :
    (loop.round C fl clock self n m).keepsOpen = true ↔
      m.type = MessageType.hello.code ∨ m.payload ≠ [] := by
  cases loop with
  | incoming =>
    simp only [ReceiveLoop.round]
    split_ifs with h1 h2
    · simp [Round.keepsOpen, h1]
    · simp [Round.keepsOpen, h2]
    · simp only [Round.keepsOpen, Bool.false_eq_true, false_iff, not_or]
      exact ⟨h1, h2⟩
  | connected =>
    simp only [ReceiveLoop.round]
    split_ifs with h
    · simp [Round.keepsOpen, h]
    · simp only [Round.keepsOpen, true_iff]
      tauto

/-- Every emitted message but the request of `sync_blocks` is a greeting or has a payload. -/
theorem Emission.speaks_iff (self : Identity) (n : Node) (e : Emission) :
    ((e.message self n).type = MessageType.hello.code ∨ (e.message self n).payload ≠ []) ↔
      e ≠ .syncBlocks := by
  have hsized : ∀ s t : Bytes, writeSized s ++ t ≠ [] := by
    intro s t h
    have := congrArg List.length h
    simp only [List.length_append, writeSized_length, List.length_nil] at this
    omega
  cases e with
  | hello => simp [Emission.message, helloMessage]
  | syncBlocks => simp [Emission.message, syncMessage, MessageType.code]
  | broadcastBlock b =>
    refine iff_of_true (.inr ?_) (by simp)
    intro h
    have := congrArg List.length h
    simp [Emission.message, blockMessage, Block.serialize, writeU32] at this
  | broadcastTransaction tx =>
    refine iff_of_true (.inr ?_) (by simp)
    simp only [Emission.message, transactionMessage, Transaction.serialize, writeString,
      List.append_assoc]
    exact hsized _ _
  | broadcastVote vote =>
    refine iff_of_true (.inr ?_) (by simp)
    simp only [Emission.message, voteMessage, BlockVote.serialize, writeString, List.append_assoc]
    exact hsized _ _
  | blocksReply =>
    refine iff_of_true (.inr ?_) (by simp)
    intro h
    have := congrArg List.length h
    simp [Emission.message, blocksMessage, encodeChainPayload, writeCounted] at this

/-- **Emitted messages**: a message up to 4 MiB arrives as it was sent, and over either loop it is
answered or handled in an open session, a request of `sync_blocks` with `BLOCKS`, exactly when it is
not that request. -/
theorem emission_served_iff (C : Crypto) (fl : FloatOps F) (clock : ℕ → ℕ) (self : Identity)
    (n : Node) (e : Emission) (hsize : (e.message self n).payload.length ≤ maxP2PMessageSize)
    (loop : ReceiveLoop) (peer : Identity) (remote : Node) (junk : UInt8) (rest : Bytes) :
    let received := receiveMessage junk ((e.message self n).serialize ++ rest)
    let round := loop.round C fl clock peer remote received.1
    received = (e.message self n, rest) ∧
      ((round.keepsOpen = true ∧
          (e = .syncBlocks → round.reply = some (blocksMessage remote.chain))) ↔
        e ≠ .syncBlocks) := by
  intro received round
  have hrec : received = (e.message self n, rest) := receiveMessage_serialize junk hsize rest
  refine ⟨hrec, ?_⟩
  have hopen : round.keepsOpen = true ↔ e ≠ .syncBlocks := by
    show (loop.round C fl clock peer remote received.1).keepsOpen = true ↔ _
    rw [hrec, ReceiveLoop.keepsOpen_round, Emission.speaks_iff]
  rw [hopen]
  constructor
  · intro h
    exact h.1
  · intro h
    exact ⟨h, fun hs => absurd hs h⟩

/-- A node without database, engine and collector. -/
def bareNode (chain : List Block) : Node := ⟨chain, none, none, none, 0⟩

theorem emission_served_block :
    let received := receiveMessage 7 ((blockMessage firstBlock).serialize ++ [1, 2])
    received = (blockMessage firstBlock, [1, 2]) ∧
      (ReceiveLoop.round polyCrypto exactFloat (1700000000 + ·) ⟨[110], 8333⟩ (bareNode [genesis])
        received.1 .incoming).keepsOpen = true := by
  have h := emission_served_iff polyCrypto exactFloat (1700000000 + ·) ⟨[109], 8334⟩
    (bareNode [genesis, firstBlock]) (.broadcastBlock firstBlock) (by decide +kernel) .incoming
    ⟨[110], 8333⟩ (bareNode [genesis]) 7 [1, 2]
  exact ⟨h.1, (h.2.mpr (by simp)).1⟩

/-- The request of a node with the genesis block alone to a peer with a longer chain: both loops of
the peer end without an answer. -/
theorem sync_unanswered :
    let received := receiveMessage 7 ((Emission.syncBlocks.message ⟨[109], 8334⟩
      (bareNode [genesis])).serialize)
    let round := fun loop => ReceiveLoop.round polyCrypto exactFloat (1700000000 + ·) ⟨[110], 8333⟩
      (bareNode [genesis, firstBlock]) received.1 loop
    received = (syncMessage, []) ∧
      (round .incoming).keepsOpen = false ∧ (round .incoming).reply = none ∧
      (round .connected).keepsOpen = false ∧ (round .connected).reply = none := by
  decide +kernel

/-! ## Shipping a chain -/

/-- The chains that `add_block` builds from the genesis block, at any clocks and with any engine. -/
inductive AddReachable (C : Crypto) (fl : FloatOps F) : List Block → Prop
  | genesis : AddReachable C fl [genesis]
  | add {chain : List Block} (now : ℕ) (eng : Option Engine) (block : Option Block) :
      AddReachable C fl chain → AddReachable C fl (addBlock C fl now eng chain block).2

theorem AddReachable.ne_nil {C : Crypto} {fl : FloatOps F} {chain : List Block}
    (h : AddReachable C fl chain) : chain ≠ [] := by
  induction h with
  | genesis => exact List.cons_ne_nil _ _
  | add now eng block _ ih =>
    simp only [addBlock]
    split_ifs
    · exact List.append_ne_nil_of_left_ne_nil ih _
    · exact ih

theorem length_encodeChainPayload (chain : List Block) : (encodeChainPayload chain).length =
    4 + (chain.map fun b => 4 + b.serialize.length).sum := by
  simp [encodeChainPayload, writeCounted, List.length_flatMap]

theorem Block.serialize_pos (b : Block) : 0 < b.serialize.length := by
  simp only [Block.serialize, writeU32, List.length_append, writeBE_length]
  omega

theorem shippable_iff {chain : List Block} (hne : chain ≠ []) (hwithin : ∀ b ∈ chain, b.Within) :
    Shippable chain ↔ chain.length ≤ maxChainBlocksPerMessage ∧
      ∀ b ∈ chain, b.serialize.length ≤ maxSerializedBlockSize := by
  constructor
  · intro h
    exact ⟨h.1.2, fun b hb => (h.2 b hb).1.2⟩
  · rintro ⟨h1, h2⟩
    exact ⟨⟨List.length_pos_iff.mpr hne, h1⟩,
      fun b hb => ⟨⟨b.serialize_pos, h2 b hb⟩, hwithin b hb⟩⟩

/-- The payload of a message that is received from its own bytes is within the limit: longer ones
are sent as nothing. -/
theorem payload_le_of_received (junk : UInt8) {m : P2PMessage} (hne : m.payload ≠ [])
    (h : receiveMessage junk m.serialize = (m, [])) : m.payload.length ≤ maxP2PMessageSize := by
  by_contra hlong
  rw [P2PMessage.serialize, if_pos (not_le.mp hlong)] at h
  have hjunk : receiveMessage junk [] = (⟨junk, []⟩, []) := rfl
  rw [hjunk] at h
  exact hne (congrArg (fun p => p.1.payload) h).symm

/-- **Shipping a chain**: the answer to `GET_BLOCKS` arrives and is decoded to the chain exactly when
the chain has at most 4096 blocks, every block at most 1 MiB, and the payload at most 4 MiB. -/
theorem chain_shipped_iff (C : Crypto) (fl : FloatOps F) {chain : List Block}
    (hreach : AddReachable C fl chain) (hwithin : ∀ b ∈ chain, b.Within) (junk : UInt8) :
    ((∀ rest, receiveMessage junk ((blocksMessage chain).serialize ++ rest) =
        (blocksMessage chain, rest)) ∧
      decodeChainPayload (blocksMessage chain).payload = chain) ↔
    chain.length ≤ maxChainBlocksPerMessage ∧
      (∀ b ∈ chain, b.serialize.length ≤ maxSerializedBlockSize) ∧
      4 + (chain.map fun b => 4 + b.serialize.length).sum ≤ maxP2PMessageSize := by
  have hne := hreach.ne_nil
  have hdecode : decodeChainPayload (blocksMessage chain).payload = chain ↔ Shippable chain :=
    decodeChainPayload_encode_iff hne
  rw [hdecode, shippable_iff hne hwithin, ← length_encodeChainPayload]
  constructor
  · rintro ⟨hrec, hlen, hblocks⟩
    refine ⟨hlen, hblocks, payload_le_of_received junk (m := blocksMessage chain) ?_ ?_⟩
    · intro h
      have := congrArg List.length h
      rw [blocksMessage, length_encodeChainPayload, List.length_nil] at this
      omega
    · have := hrec []
      rwa [List.append_nil] at this
  · rintro ⟨hlen, hblocks, hsize⟩
    exact ⟨fun rest => receiveMessage_serialize junk hsize rest, hlen, hblocks⟩

theorem chain_shipped_pair :
    decodeChainPayload (blocksMessage [genesis, firstBlock]).payload = [genesis, firstBlock] := by
  have hreach : AddReachable polyCrypto exactFloat [genesis, firstBlock] := by
    have heq : (addBlock polyCrypto exactFloat 1700000000 none [genesis] (some firstBlock)).2 =
        [genesis, firstBlock] := by decide +kernel
    rw [← heq]
    exact .add 1700000000 none (some firstBlock) .genesis
  have hshort : ∀ b ∈ [genesis, firstBlock], b.serialize.length ≤ 1000 := by decide +kernel
  refine ((chain_shipped_iff polyCrypto exactFloat hreach
    (fun b hb => Block.within_of_short (hshort b hb)) 7).mpr ⟨by decide, ?_, by decide +kernel⟩).2
  intro b hb
  exact (hshort b hb).trans (by decide)

/-! ## A chain that is too long -/

/-- The unsigned block without transactions after a chain. -/
def emptyBlock (C : Crypto) (chain : List Block) : Block where
  height := UInt32.ofNat chain.length
  prevBlockHash := (chain.getLastD genesis).hashHex C
  timestamp := 1640000000
  validatorAddress := [118]
  validatorStake := 1000000

/-- The genesis block and `n` empty blocks over it. -/
def longChain (C : Crypto) : ℕ → List Block
  | 0 => [genesis]
  | n + 1 => longChain C n ++ [emptyBlock C (longChain C n)]

theorem length_longChain (C : Crypto) (n : ℕ) : (longChain C n).length = n + 1 := by
  induction n with
  | zero => rfl
  | succ n ih => rw [longChain, List.length_append, ih, List.length_singleton]

theorem longChain_tip (C : Crypto) (n : ℕ) :
    ∃ tip, (longChain C n).getLast? = some tip ∧ tip.timestamp = 1640000000 := by
  cases n with
  | zero => exact ⟨genesis, rfl, rfl⟩
  | succ n => exact ⟨_, List.getLast?_concat, rfl⟩

/-- `add_block` accepts the next empty block while heights fit 32 bits. -/
theorem addBlock_longChain (C : Crypto) (fl : FloatOps F) {n : ℕ} (hn : n + 1 < 2 ^ 32) :
    (addBlock C fl 1640000000 none (longChain C n) (some (emptyBlock C (longChain C n)))).2 =
      longChain C (n + 1) := by
  obtain ⟨tip, hlast, htime⟩ := longChain_tip C n
  have hlen := length_longChain C n
  have hok : (canAddBlock C fl 1640000000 none (longChain C n)
      (some (emptyBlock C (longChain C n)))).ok = true := by
    refine canAddBlock_ok_iff.mpr ⟨extendsTip_iff.mpr ⟨tip, hlast, ?_, ?_, ?_, ?_, ?_, ?_⟩, rfl, ?_⟩
    · rw [emptyBlock, UInt32.toNat_ofNat_of_lt' (by rw [hlen]; exact hn)]
    · exact IsDigest.ne_nil ⟨_, rfl⟩
    · simp [emptyBlock, List.getLastD_eq_getLast?, hlast]
    · rw [htime]
      exact UInt64.le_refl 1640000000
    · show (1640000000 : UInt64).toNat ≤ _
      decide
    · rfl
    · rfl
  exact if_pos hok

theorem longChain_reachable (C : Crypto) (fl : FloatOps F) {n : ℕ} (hn : n < 2 ^ 32) :
    AddReachable C fl (longChain C n) := by
  induction n with
  | zero => exact .genesis
  | succ n ih =>
    rw [← addBlock_longChain C fl hn]
    exact .add _ _ _ (ih (by omega))

theorem longChain_within (C : Crypto) (n : ℕ) : ∀ b ∈ longChain C n, b.Within := by
  induction n with
  | zero =>
    intro b hb
    rw [List.mem_singleton.mp hb]
    decide
  | succ n ih =>
    intro b hb
    rcases List.mem_append.mp hb with hb | hb
    · exact ih b hb
    · rw [List.mem_singleton.mp hb]
      have hprev : (emptyBlock C (longChain C n)).prevBlockHash.length = 64 :=
        IsDigest.length ⟨_, rfl⟩
      refine ⟨?_, Nat.zero_le _, ?_, Nat.zero_le _, Nat.zero_le _, Nat.zero_le _, ?_⟩
      · rw [hprev]
        decide
      · show 1 ≤ maxSerializedString
        decide
      · intro tx htx
        cases htx

/-- 4097 blocks that `add_block` accepted one after another do not survive the trip to a peer. -/
theorem longChain_not_shipped :
    AddReachable polyCrypto exactFloat (longChain polyCrypto 4096) ∧
    (∀ b ∈ longChain polyCrypto 4096, b.Within) ∧
    decodeChainPayload (blocksMessage (longChain polyCrypto 4096)).payload ≠
      longChain polyCrypto 4096 := by
  have hreach := longChain_reachable polyCrypto exactFloat (show 4096 < 2 ^ 32 by decide)
  refine ⟨hreach, longChain_within polyCrypto 4096, ?_⟩
  intro h
  have hship : Shippable (longChain polyCrypto 4096) :=
    (decodeChainPayload_encode_iff hreach.ne_nil).mp h
  have hlen := hship.1.2
  rw [length_longChain] at hlen
  exact absurd hlen (by decide)

end Mermai
