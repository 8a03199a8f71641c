import Mermai.Node.Network
import Mermai.Node.Stakes

/-!
# Node.Agreement — when the nodes of a network agree

Every node makes blocks, and nothing of the protocol chooses between two blocks of one height: a node takes
the first that fits its chain.  What the network does is said by an invariant: the blocks of every chain stand
at their heights and are the genesis block or were made by a round of some node (`Stands`), and a message
carries only such blocks (`Message.Carries`).  The codec is part of the argument: what is decoded from a
message is what was encoded, because the blocks that nodes make are within the limits of the decoder.

So any two chains of a run are prefixes of one another exactly when no two rounds made different blocks of
one height (`agreement_iff`): messages that are lost, repeated, reordered or cut never make nodes disagree.
-/

namespace Mermai

open Codec
open Merlite (ascii)

variable {F ι : Type}

/-! ## Validators that fit the decoder -/

/-- Addresses and keys are no longer than a block can carry. -/
def Modest (vs : List ValidatorStake) : Prop :=
  ∀ v ∈ vs, v.address.length ≤ maxSerializedString ∧ v.publicKey.length ≤ maxSerializedBytes

/-- The pairs of address and key decide. -/
theorem Modest.congr {vs vs' : List ValidatorStake} (h : Modest vs)
    (heq : vs'.map (fun v => (v.address, v.publicKey)) = vs.map fun v => (v.address, v.publicKey)) :
    Modest vs' := by
  intro v hv
  have hmem : (v.address, v.publicKey) ∈ vs'.map fun v => (v.address, v.publicKey) :=
    List.mem_map.mpr ⟨v, hv, rfl⟩
  rw [heq] at hmem
  obtain ⟨u, hu, heq'⟩ := List.mem_map.mp hmem
  rw [← (Prod.mk.inj heq').1, ← (Prod.mk.inj heq').2]
  exact h u hu

theorem slashStake_keys (fl : FloatOps F) (a : Bytes) (p : F) (vs : List ValidatorStake) :
    (slashStake fl a p vs).map (fun v => (v.address, v.publicKey)) =
      vs.map fun v => (v.address, v.publicKey) := by
  induction vs with
  | nil => rfl
  | cons v vs ih =>
    unfold slashStake
    split_ifs
    · rfl
    · rw [List.map_cons, ih, List.map_cons]

theorem setLastProposal_keys (a : Bytes) (t : UInt64) (vs : List ValidatorStake) :
    (setLastProposal a t vs).map (fun v => (v.address, v.publicKey)) =
      vs.map fun v => (v.address, v.publicKey) := by
  induction vs with
  | nil => rfl
  | cons v vs ih =>
    unfold setLastProposal
    split_ifs
    · rfl
    · rw [List.map_cons, ih, List.map_cons]

theorem Modest.move {C : Crypto} {fl : FloatOps F} {s s' : FinalityState} (h : Modest s.validators)
    (hmove : StakeMove C fl s s') : Modest s'.validators := by
  cases hmove with
  | slashed address => exact h.congr (slashStake_keys fl address _ s.validators)
  | proposed address timestamp => exact h.congr (setLastProposal_keys address timestamp s.validators)
  | voted vote => exact h

/-! ### The texts of a request are shorter than the request -/

namespace Rpc

theorem findBehind_length {needle body rest : Bytes} (h : findBehind needle body = some rest) :
    rest.length ≤ body.length := by
  induction body with
  | nil =>
    rw [findBehind] at h
    split_ifs at h
    cases h
    exact le_rfl
  | cons b body ih =>
    rw [findBehind] at h
    split_ifs at h
    · cases h
      rw [List.length_drop]
      exact Nat.sub_le _ _
    · exact (ih h).trans (Nat.le_succ _)

theorem cut_length {sep : UInt8} {s : Bytes} {p : Bytes × Bytes} (h : Delimited.cut sep s = some p) :
    p.1.length ≤ s.length ∧ p.2.length ≤ s.length := by
  obtain ⟨rfl, -⟩ := Delimited.cut_eq_some.mp h
  simp only [List.length_append, List.length_cons]
  omega

theorem requestString_length (body key : Bytes) : (requestString body key).length ≤ body.length := by
  unfold requestString
  cases hkey : behindKey body key with
  | none => exact Nat.zero_le _
  | some rest =>
    have hrest : rest.length ≤ body.length := by
      obtain ⟨behind, hbehind, hcolon⟩ := Option.bind_eq_some_iff.mp hkey
      obtain ⟨colon, hcut, hsome⟩ := Option.bind_eq_some_iff.mp hcolon
      cases hsome
      exact (cut_length hcut).2.trans (findBehind_length hbehind)
    dsimp only
    split
    · exact Nat.zero_le _
    · rename_i text rest' hcut
      split
      · exact Nat.zero_le _
      · rename_i text' rest'' hcut'
        exact ((cut_length hcut').1.trans (cut_length hcut).2).trans hrest

theorem hexPairs_length_le : ∀ s : Bytes, (hexPairs s).length ≤ s.length
  | [] => le_rfl
  | [_] => Nat.zero_le _
  | c :: d :: rest => by
    have ih := hexPairs_length_le rest
    have hpair : (stoulHex [c, d]).toList.length ≤ 1 := by
      cases stoulHex [c, d] <;> simp
    rw [hexPairs, List.length_append, List.length_cons, List.length_cons]
    omega

theorem hexToBytes_length (s : Bytes) : (hexToBytes s).length ≤ s.length := by
  unfold hexToBytes
  split
  · refine (hexPairs_length_le _).trans ?_
    simp only [List.length_cons]
    omega
  · exact hexPairs_length_le _

end Rpc

namespace MermaiNode

variable {σ : Setup F}

theorem requestBody_length (data : Bytes) : (requestBody (data.take 4095)).length ≤ 4095 := by
  have htake : (data.take 4095).length ≤ 4095 := List.length_take_le _ _
  unfold requestBody
  cases h : Rpc.findBehind (ascii "\r\n\r\n") (data.take 4095) with
  | none => exact htake
  | some rest => exact (Rpc.findBehind_length h).trans htake

/-- **One event** keeps the validators modest. -/
theorem modest_react {s : MermaiNode F} {e : Event} (h : Modest s.node.finality.validators) :
    Modest (s.react σ e).1.node.finality.validators := by
  rcases react_moves σ s e with hmoves | hreg
  · exact hmoves.invariant (fun s s' hs hmove => Modest.move hs hmove) h
  · generalize (s.react σ e).1.node.finality = f at hreg
    cases hreg with
    | @mk now clock fuel data vs hmethod hreg =>
      unfold registerValidator at hreg
      split_ifs at hreg
      cases hreg
      intro v hv
      rcases List.mem_append.mp hv with hv | hv
      · exact h v hv
      · rw [List.mem_singleton.mp hv]
        have hbody := requestBody_length data
        have haddress := Rpc.requestString_length (requestBody (data.take 4095)) (ascii "address")
        have hkey := Rpc.requestString_length (requestBody (data.take 4095)) (ascii "public_key")
        have hbytes := Rpc.hexToBytes_length
          (Rpc.requestString (requestBody (data.take 4095)) (ascii "public_key"))
        have hlimits : 4095 ≤ maxSerializedString ∧ 4095 ≤ maxSerializedBytes := by decide
        exact ⟨(haddress.trans hbody).trans hlimits.1,
          ((hbytes.trans hkey).trans hbody).trans hlimits.2⟩

end MermaiNode

/-! ## Blocks that fit the decoder -/

/-- A block that survives the trip in either message. -/
def Block.Compact (b : Block) : Prop := b.Within ∧ b.serialize.length ≤ maxSerializedBlockSize

theorem genesis_compact : genesis.Compact := by
  have hshort : genesis.serialize.length ≤ 1000 := by decide +kernel
  exact ⟨Block.within_of_short hshort, hshort.trans (by decide)⟩

/-- A block is decoded from its own encoding only. -/
theorem Block.Compact.eq_of_deserialize {b b' : Block} (h : b.Compact)
    (hdec : Block.deserialize b.serialize = .ok b') : b' = b := by
  have hself := (Block.deserialize_iff b.serialize b).mpr ⟨rfl, h.1⟩
  rw [hself] at hdec
  exact (Except.ok.inj hdec).symm

/-- The decoder gives back the chain that was encoded, or nothing. -/
theorem decodeChainPayload_encode {chain : List Block} (hcompact : ∀ b ∈ chain, b.Compact)
    (hlen : chain.length ≤ 2 ^ 32) :
    decodeChainPayload (encodeChainPayload chain) = [] ∨
      decodeChainPayload (encodeChainPayload chain) = chain := by
  by_cases hship : 0 < chain.length ∧ chain.length ≤ maxChainBlocksPerMessage
  · right
    have hne : chain ≠ [] := List.length_pos_iff.mp hship.1
    refine (decodeChainPayload_encode_iff hne).mpr ⟨hship, ?_⟩
    intro b hb
    exact ⟨⟨b.serialize_pos, (hcompact b hb).2⟩, (hcompact b hb).1⟩
  · left
    unfold decodeChainPayload
    split
    · rename_i blocks hok
      obtain ⟨henc, hblocks⟩ := (parseAll_iff "" readChain_reads _ blocks).mp hok
      -- the count modulo 2³² is that of a chain that can be shipped
      have hcount : ofBE (writeBE 4 chain.length) = ofBE (writeBE 4 blocks.length) :=
        congrArg ofBE (List.append_inj_left henc (by rw [writeBE_length, writeBE_length]))
      have hlimit : maxChainBlocksPerMessage < 256 ^ 4 := by decide
      have hpos := hblocks.1.1
      have hle := hblocks.1.2
      rw [ofBE_writeBE, ofBE_writeBE, Nat.mod_eq_of_lt (hle.trans_lt hlimit)] at hcount
      have hpow : (256 : ℕ) ^ 4 = 2 ^ 32 := by decide
      rw [hpow] at hcount hlimit
      rcases hlen.eq_or_lt with hfull | hlt
      · rw [hfull, Nat.mod_self] at hcount
        omega
      · rw [Nat.mod_eq_of_lt hlt] at hcount
        exact absurd ⟨hcount ▸ hpos, hcount ▸ hle⟩ hship
    · rfl

/-- The block that `consensus_loop` assembles for modest validators. -/
theorem assembleBlock_compact {C : Crypto} {fl : FloatOps F} {vs : List ValidatorStake}
    {chain : List Block} {t : UInt64} {b : Block} (hvs : Modest vs)
    (h : assembleBlock C fl vs chain t = some b) : b.Compact := by
  have hkey : b.transactions = [] ∧ b.merkleRoot = [] ∧ b.validatorSignature = [] ∧
      b.prevBlockHash.length = 64 ∧ b.validatorAddress.length ≤ maxSerializedString ∧
      b.validatorPublicKey.length ≤ maxSerializedBytes := by
    unfold assembleBlock at h
    dsimp only at h
    split_ifs at h with hproposer
    split at h
    · cases h
    · rename_i tip htip
      have hdigest : (tip.hashHex C).length = 64 := IsDigest.length ⟨_, rfl⟩
      have haddress : (selectBlockProposer C fl vs (slotTime t)).length ≤ maxSerializedString := by
        have hne : vs ≠ [] := by
          rintro rfl
          exact hproposer rfl
        have hmem := selectWith_mem C fl (fun v => calculateWeight fl v (slotTime t))
          (fun v => fl.print (calculateWeight fl v (slotTime t))) hne (slotTime t)
        rw [← selectBlockProposer_eq] at hmem
        obtain ⟨v, hv, hv'⟩ := List.mem_map.mp hmem
        rw [← hv']
        exact (hvs v hv).1
      split at h
      · cases h
        exact ⟨rfl, rfl, rfl, hdigest, haddress, Nat.zero_le _⟩
      · rename_i v hv
        cases h
        exact ⟨rfl, rfl, rfl, hdigest, haddress, (hvs v (List.mem_of_find?_eq_some hv)).2⟩
  obtain ⟨htxs, hroot, hsig, hprev, haddress, hpublic⟩ := hkey
  have hlimits : maxSerializedString = 65536 ∧ maxSerializedBytes = 16384 ∧
      maxSerializedBlockSize = 1048576 := by decide
  obtain ⟨hstring, hbytes, hsize⟩ := hlimits
  refine ⟨⟨?_, ?_, haddress, hpublic, ?_, ?_, ?_⟩, ?_⟩
  · rw [hprev]
    decide
  · rw [hroot]
    exact Nat.zero_le _
  · rw [hsig]
    exact Nat.zero_le _
  · rw [htxs]
    exact Nat.zero_le _
  · rw [htxs]
    intro tx htx
    cases htx
  · rw [hstring] at haddress
    rw [hbytes] at hpublic
    rw [hsize]
    simp only [Block.serialize, writeString, writeBytes, writeU32, writeU64, writeCounted, htxs, hroot,
      hsig, List.length_append, writeSized_length, writeBE_length, hprev, List.flatMap_nil, List.length_nil]
    omega

/-- A block that a round assembles has no transactions. -/
theorem assembleBlock_transactions {C : Crypto} {fl : FloatOps F} {vs : List ValidatorStake}
    {chain : List Block} {t : UInt64} {b : Block} (h : assembleBlock C fl vs chain t = some b) :
    b.transactions = [] := by
  unfold assembleBlock at h
  dsimp only at h
  split_ifs at h
  split at h
  · cases h
  · split at h
    · cases h
      rfl
    · cases h
      rfl

/-! ## Chains of made blocks -/

/-- Every block of the chain is one of `S` and stands at its height. -/
structure Stands (S : Set Block) (chain : List Block) : Prop where
  ne_nil : chain ≠ []
  blocks : ∀ k b, chain[k]? = some b → b ∈ S ∧ b.height.toNat = k

theorem stands_genesis {S : Set Block} (h : genesis ∈ S) : Stands S [genesis] := by
  refine ⟨List.cons_ne_nil _ _, ?_⟩
  intro k b hb
  obtain ⟨rfl, rfl⟩ : k = 0 ∧ b = genesis := by
    cases k with
    | zero => exact ⟨rfl, (Option.some.inj hb).symm⟩
    | succ k => cases hb
  exact ⟨h, rfl⟩

theorem Stands.append {S : Set Block} {chain : List Block} (h : Stands S chain) {b : Block}
    (hb : b ∈ S) (hheight : b.height.toNat = chain.length) : Stands S (chain ++ [b]) := by
  refine ⟨by simp, ?_⟩
  intro k c hc
  rcases getElem?_concat_cases hc with hc | ⟨rfl, rfl⟩
  · exact h.blocks k c hc
  · exact ⟨hb, hheight⟩

theorem Stands.length_le {S : Set Block} {chain : List Block} (h : Stands S chain) :
    chain.length ≤ 2 ^ 32 := by
  have hpos := List.length_pos_iff.mpr h.ne_nil
  have hlast : chain.length - 1 < chain.length := by omega
  have hheight := (h.blocks _ _ (List.getElem?_eq_getElem hlast)).2
  have hlt := chain[chain.length - 1].height.toNat_lt
  omega

theorem Stands.mem {S : Set Block} {chain : List Block} (h : Stands S chain) {b : Block}
    (hb : b ∈ chain) : b ∈ S := by
  obtain ⟨k, hk⟩ := List.getElem?_of_mem hb
  exact (h.blocks k b hk).1

theorem getElem?_longer {l l' : List Block} (h : l <+: l') {k : ℕ} {b : Block} (hb : l[k]? = some b) :
    l'[k]? = some b := by
  obtain ⟨rest, rfl⟩ := h
  rw [List.getElem?_append_left (List.getElem?_eq_some_iff.mp hb).1]
  exact hb

/-- **Comparison**: where no two blocks of one height differ, two chains are prefixes of one another. -/
theorem Stands.comparable {S : Set Block} {l l' : List Block} (h : Stands S l) (h' : Stands S l')
    (hone : ∀ b ∈ S, ∀ c ∈ S, b.height = c.height → b = c) : l <+: l' ∨ l' <+: l := by
  have key : ∀ {l l' : List Block}, Stands S l → Stands S l' → l.length ≤ l'.length → l <+: l' := by
    intro l l' h h' hlen
    refine List.prefix_iff_eq_take.mpr (List.ext_getElem? fun k => ?_)
    by_cases hk : k < l.length
    · rw [List.getElem?_take_of_lt hk, List.getElem?_eq_getElem hk,
        List.getElem?_eq_getElem (hk.trans_le hlen)]
      obtain ⟨hmem, hheight⟩ := h.blocks k _ (List.getElem?_eq_getElem hk)
      obtain ⟨hmem', hheight'⟩ := h'.blocks k _ (List.getElem?_eq_getElem (hk.trans_le hlen))
      rw [hone _ hmem _ hmem' (UInt32.toNat_inj.mp (hheight.trans hheight'.symm))]
    · rw [List.getElem?_eq_none (not_lt.mp hk), List.getElem?_eq_none]
      rw [List.length_take]
      omega
  rcases le_total l.length l'.length with hlen | hlen
  · exact .inl (key h h' hlen)
  · exact .inr (key h' h hlen)

/-! ## Messages -/

/-- The message presents no other blocks than those of `S`, at their heights where it is a chain. -/
def Message.Carries (S : Set Block) : Message → Prop
  | .blocks payload => decodeChainPayload payload = [] ∨ Stands S (decodeChainPayload payload)
  | .block payload => ∀ b, Block.deserialize payload = .ok b → b ∈ S
  | _ => True

section Messages

variable {C : Crypto} {fl : FloatOps F} {clock : ℕ → ℕ} {S : Set Block}

variable (C fl clock) in
/-- A block that is accepted stands at its height. -/
theorem Node.acceptBlock_chain (n : Node) (b : Block) :
    let r := n.acceptBlock C fl clock b
    (r.1 = true ∧ r.2.chain = n.chain ++ [b] ∧ b.height.toNat = n.chain.length) ∨
      (r.1 = false ∧ r.2.chain = n.chain) := by
  intro r
  have hr : r = n.acceptBlock C fl clock b := rfl
  simp only [Node.acceptBlock] at hr
  split_ifs at hr with hcan happly
  · rw [hr]
    dsimp only
    by_cases hok : (addBlock C fl (clock (n.ticks + 2)) (canAddBlock C fl (clock n.ticks) n.engine
        n.chain (some b)).engine n.chain (some b)).1.ok = true
    · left
      obtain ⟨tip, -, hheight, -⟩ := extendsTip_iff.mp (canAddBlock_ok_iff.mp hcan).1
      exact ⟨hok, if_pos hok, hheight⟩
    · right
      exact ⟨Bool.eq_false_iff.mpr hok, if_neg hok⟩
  · rw [hr]
    exact .inr ⟨rfl, rfl⟩
  · rw [hr]
    exact .inr ⟨rfl, rfl⟩

theorem Stands.acceptBlock {n : Node} (h : Stands S n.chain) {b : Block} (hb : b ∈ S) :
    Stands S (n.acceptBlock C fl clock b).2.chain := by
  rcases n.acceptBlock_chain C fl clock b with ⟨-, hchain, hheight⟩ | ⟨-, hchain⟩
  · rw [hchain]
    exact h.append hb hheight
  · rw [hchain]
    exact h

theorem Stands.acceptBlocks {blocks : List Block} {n : Node} (h : Stands S n.chain)
    (hblocks : ∀ b ∈ blocks, b ∈ S) : Stands S (n.acceptBlocks C fl clock blocks).2.chain := by
  induction blocks generalizing n with
  | nil => exact h
  | cons b rest ih =>
    have hb : Stands S (n.acceptBlock C fl clock b).2.chain := h.acceptBlock (hblocks b List.mem_cons_self)
    rw [Node.acceptBlocks]
    split_ifs
    · exact ih hb fun c hc => hblocks c (List.mem_cons_of_mem _ hc)
    · exact hb

/-- A candidate that passes is taken as it is. -/
theorem validateCandidate_chain {now : ℕ} {candidate : List Block} {eng : Option Engine}
    {validated : List Block}
    (hok : (validateCandidate C fl now eng validated (candidate.map some)).1.ok = true) :
    (validateCandidate C fl now eng validated (candidate.map some)).2 = validated ++ candidate := by
  induction candidate generalizing eng validated with
  | nil => exact (List.append_nil validated).symm
  | cons b rest ih =>
    obtain ⟨-, -, -, -, hok', heq⟩ := validateCandidate_cons hok
    rw [List.map_cons, heq, ih hok', List.append_assoc]
    rfl

variable (C fl) in
theorem replaceChainIfLonger_chain (now : ℕ) (eng : Option Engine) (chain candidate : List Block) :
    (replaceChainIfLonger C fl now eng chain (candidate.map some)).2 = chain ∨
      (replaceChainIfLonger C fl now eng chain (candidate.map some)).2 = candidate := by
  unfold replaceChainIfLonger
  split_ifs with hlen
  · exact .inl rfl
  · by_cases hok : (validateCandidate C fl now eng [] (candidate.map some)).1.ok = true
    · right
      dsimp only
      rw [if_pos hok, validateCandidate_chain hok]
      rfl
    · left
      exact if_neg hok

/-- **One message** that carries blocks of `S` leaves a chain of blocks of `S`. -/
theorem Stands.handleMessage {n : Node} (h : Stands S n.chain) {m : Message} (hm : m.Carries S) :
    Stands S (handleMessage C fl clock n m).node.chain := by
  cases m with
  | getBlocks => exact h
  | other => exact h
  | blockVote payload =>
    simp only [Mermai.handleMessage, handleVote]
    split
    · exact h
    · exact h
  | newTransaction payload =>
    simp only [Mermai.handleMessage, handleTransaction]
    split
    · exact h
    · exact h
  | block payload =>
    simp only [Mermai.handleMessage]
    split
    · exact h
    · rename_i b hdec
      exact h.acceptBlock (hm b hdec)
  | blocks payload =>
    rw [Mermai.handleMessage, handleBlocks]
    split
    · exact h
    · rename_i hne
      have hcand := hm.resolve_left hne
      split
      · dsimp only
        split_ifs
        · exact h
        · exact h.acceptBlocks fun b hb => hcand.mem (List.mem_of_mem_drop hb)
        · exact h
      · dsimp only
        rcases replaceChainIfLonger_chain C fl (clock n.ticks) n.engine n.chain
          (decodeChainPayload payload) with heq | heq
        · rw [heq]
          exact h
        · rw [heq]
          exact hcand

/-- A message without payload carries nothing. -/
theorem carries_nil {m : P2PMessage} (h : m.payload = []) : m.dispatch.Carries S := by
  have hchain : decodeChainPayload [] = [] := rfl
  have hblock : ∀ b, Block.deserialize [] ≠ .ok b := by
    intro b hdec
    have := ((Block.deserialize_iff [] b).mp hdec).1
    have hpos := b.serialize_pos
    rw [← this] at hpos
    exact absurd hpos (lt_irrefl _)
  unfold P2PMessage.dispatch
  rw [h]
  split_ifs
  · trivial
  · exact .inl hchain
  · exact fun b hdec => absurd hdec (hblock b)
  · trivial
  · trivial
  · trivial

theorem carries_blockMessage {b : Block} (hcompact : b.Compact) (hb : b ∈ S) :
    (blockMessage b).dispatch.Carries S := by
  intro c hc
  rw [hcompact.eq_of_deserialize hc]
  exact hb

theorem carries_blocksMessage (hcompact : ∀ b ∈ S, b.Compact) {chain : List Block}
    (h : Stands S chain) : (blocksMessage chain).dispatch.Carries S := by
  rcases decodeChainPayload_encode (fun b hb => hcompact b (h.mem hb)) h.length_le with heq | heq
  · exact .inl heq
  · refine .inr ?_
    rw [show (blocksMessage chain).payload = encodeChainPayload chain from rfl, heq]
    exact h

/-- The only answer is the chain. -/
theorem handleMessage_answer {n : Node} {m : Message} {payload : Bytes}
    (h : (Mermai.handleMessage C fl clock n m).answer = some payload) :
    payload = encodeChainPayload n.chain := by
  cases m with
  | getBlocks => exact (Option.some.inj h).symm
  | block data =>
    simp only [Mermai.handleMessage] at h
    split at h
    · cases h
    · cases h
  | blocks data =>
    rw [Mermai.handleMessage, handleBlocks] at h
    split at h
    · cases h
    · split at h
      · dsimp only at h
        split_ifs at h
      · cases h
  | newTransaction data => cases h
  | blockVote data => cases h
  | other => cases h

/-- What a round of a receive loop answers. -/
theorem carries_reply (hcompact : ∀ b ∈ S, b.Compact) {self : Identity} {n : Node}
    (h : Stands S n.chain) {m : P2PMessage} {loop : ReceiveLoop} :
    ∀ reply ∈ (loop.round C fl clock self n m).reply, reply.dispatch.Carries S := by
  intro reply hreply
  cases hround : loop.round C fl clock self n m with
  | left =>
    rw [hround] at hreply
    cases hreply
  | answered answer =>
    rw [hround] at hreply
    cases hreply
    cases loop with
    | connected =>
      simp only [ReceiveLoop.round] at hround
      split_ifs at hround
    | incoming =>
      simp only [ReceiveLoop.round] at hround
      split_ifs at hround
      cases hround
      trivial
  | passed result =>
    rw [hround] at hreply
    rw [ReceiveLoop.round_passed hround] at hreply
    obtain ⟨payload, hpayload, rfl⟩ := Option.map_eq_some_iff.mp hreply
    rw [handleMessage_answer hpayload]
    exact carries_blocksMessage hcompact h

end Messages

/-! ## Events -/

namespace MermaiNode

variable {σ : Setup F} {S : Set Block}

/-- The block that an event makes: the one of a round of `consensus_loop` that the node accepts. -/
def made (σ : Setup F) (s : MermaiNode F) : Event → List Block
  | .consensusRound => (s.assembled σ).toList.filter fun b =>
      (s.tick.node.acceptBlock σ.crypto σ.floats.toFloatOps σ.clock b).1
  | _ => []

variable (σ S) in
theorem chain_connectToPeer (s : MermaiNode F) (address : Bytes) (port : UInt16) :
    (s.connectToPeer σ address port).1.node.chain = s.node.chain ∧
      ∀ m ∈ (s.connectToPeer σ address port).2, m.dispatch.Carries S := by
  unfold connectToPeer
  split_ifs
  · exact ⟨rfl, fun m hm => (List.not_mem_nil hm).elim⟩
  · refine ⟨rfl, ?_⟩
    intro m hm
    rw [List.mem_singleton.mp hm]
    trivial

theorem chain_finalize (s : MermaiNode F) (b : Block) : (s.finalize b).node.chain = s.node.chain :=
  (frames_finalize s b).chain

/-- What a request broadcasts presents no blocks. -/
theorem carries_broadcasts (T : Rpc.Server F) (H : Rpc.Host F) (request : Bytes) :
    ∀ m ∈ broadcasts T H request, m.dispatch.Carries S := by
  intro m hm
  unfold broadcasts at hm
  split at hm
  · obtain ⟨tx, -, rfl⟩ := List.mem_map.mp hm
    trivial
  · split at hm
    · split_ifs at hm
      · rw [List.mem_singleton.mp hm]
        trivial
      · cases hm
    · cases hm
  · cases hm

/-- **One event** of a node: its chain stays one of blocks of `S`, and it sends no other blocks, when what
is delivered presents no other blocks and what it makes is in `S`. -/
theorem stands_react (hcompact : ∀ b ∈ S, b.Compact) {s : MermaiNode F} {e : Event}
    (h : Stands S s.node.chain) (hmade : ∀ b ∈ s.made σ e, b ∈ S)
    (hdelivered : ∀ place loop m, e = .received place loop m → m.dispatch.Carries S) :
    Stands S (s.react σ e).1.node.chain ∧ ∀ m ∈ (s.react σ e).2, m.dispatch.Carries S := by
  have hnone : ∀ m ∈ ([] : List P2PMessage), m.dispatch.Carries S :=
    fun m hm => (List.not_mem_nil hm).elim
  cases e with
  | connectToPeer address port =>
    obtain ⟨hchain, hsent⟩ := chain_connectToPeer σ S s address port
    rw [react, hchain]
    exact ⟨h, hsent⟩
  | accepted ip socket =>
    simp only [react, accept]
    split_ifs
    · exact ⟨h, hnone⟩
    · exact ⟨h, hnone⟩
  | received place loop m =>
    have hreply : ∀ reply ∈
        (loop.round σ.crypto σ.floats.toFloatOps σ.clock σ.self s.node m).reply.toList,
        reply.dispatch.Carries S :=
      fun reply hr => carries_reply hcompact h reply (Option.mem_toList.mp hr)
    simp only [react, receive]
    split
    · rename_i result hround
      have hresult := ReceiveLoop.round_passed hround
      subst hresult
      exact ⟨h.handleMessage (hdelivered place loop m rfl), hreply⟩
    · exact ⟨h, hreply⟩
  | requested now clock fuel data =>
    simp only [react, request]
    split_ifs
    · exact ⟨h, hnone⟩
    · split
      · exact ⟨h, hnone⟩
      · rename_i r T hr
        have hframes := frames_withServer (Rpc.Server.changes_handleRequest hr)
        refine ⟨?_, carries_broadcasts _ _ _⟩
        rw [hframes.chain]
        exact h
  | consensusRound =>
    simp only [react, consensusRound]
    cases hb : s.assembled σ with
    | none => exact ⟨h, hnone⟩
    | some b =>
      have hmem : (s.tick.node.acceptBlock σ.crypto σ.floats.toFloatOps σ.clock b).1 = true → b ∈ S := by
        intro hok
        refine hmade b ?_
        rw [made, hb]
        exact List.mem_filter.mpr ⟨List.mem_singleton_self b, hok⟩
      show Stands S (s.produce σ b).1.node.chain ∧ ∀ m ∈ (s.produce σ b).2, m.dispatch.Carries S
      rw [produce]
      rcases s.tick.node.acceptBlock_chain σ.crypto σ.floats.toFloatOps σ.clock b with
        ⟨hok, hchain, hheight⟩ | ⟨hok, hchain⟩
      · rw [if_pos hok]
        refine ⟨?_, ?_⟩
        · rw [chain_finalize]
          dsimp only
          rw [hchain]
          exact h.append (hmem hok) hheight
        · intro m hm
          rw [List.mem_singleton.mp hm]
          exact carries_blockMessage (hcompact b (hmem hok)) (hmem hok)
      · rw [if_neg (Bool.eq_false_iff.mp hok)]
        refine ⟨?_, hnone⟩
        dsimp only
        rw [hchain]
        exact h
  | syncRound reachable =>
    have hsync : (syncMessage).dispatch.Carries S := trivial
    simp only [react, syncRound]
    split_ifs
    · obtain ⟨hchain, hsent⟩ := chain_connectToPeer σ S s (ascii "127.0.0.1") 6333
      rw [hchain]
      refine ⟨h, ?_⟩
      intro m hm
      rcases List.mem_append.mp hm with hm | hm
      · exact hsent m hm
      · rw [List.mem_singleton.mp hm]
        exact hsync
    · refine ⟨h, ?_⟩
      intro m hm
      rw [List.mem_singleton.mp hm]
      exact hsync

/-- What a round makes is at the end of the chain behind it. -/
theorem chain_of_made {s : MermaiNode F} {e : Event} {b : Block} (hb : b ∈ s.made σ e) :
    (s.react σ e).1.node.chain = s.node.chain ++ [b] ∧ b.height.toNat = s.node.chain.length ∧
      s.assembled σ = some b := by
  cases e with
  | consensusRound =>
    obtain ⟨hmem, hok⟩ := List.mem_filter.mp hb
    have hassembled : s.assembled σ = some b := Option.mem_toList.mp hmem
    rcases s.tick.node.acceptBlock_chain σ.crypto σ.floats.toFloatOps σ.clock b with
      ⟨-, hchain, hheight⟩ | ⟨hbad, -⟩
    · refine ⟨?_, hheight, hassembled⟩
      simp only [react, consensusRound, hassembled]
      rw [produce, if_pos hok, chain_finalize]
      exact hchain
    · rw [hok] at hbad
      cases hbad
  | _ => cases hb

/-- What modest validators make fits the decoder. -/
theorem compact_of_made {s : MermaiNode F} {e : Event} {b : Block}
    (h : Modest s.node.finality.validators) (hb : b ∈ s.made σ e) : b.Compact := by
  obtain ⟨eng, heng, hassemble⟩ := Option.bind_eq_some_iff.mp (chain_of_made hb).2.2
  have heq : s.node.finality.validators = eng.activeValidators := by
    rw [Node.finality, heng]
    rfl
  exact assembleBlock_compact (heq ▸ h) hassemble

end MermaiNode

/-! ## Runs -/

section Runs

variable [DecidableEq ι]

/-- The blocks that the rounds of a run made. -/
def madeIn (σ : ι → Setup F) (start : ι → MermaiNode F) (acts : Acts ι) : List Block :=
  (network σ).trace (fun i s e => MermaiNode.made (σ i) s e) ⟨start, []⟩ acts

/-- The blocks that a chain of the run can hold. -/
def knownIn (σ : ι → Setup F) (start : ι → MermaiNode F) (acts : Acts ι) : Set Block :=
  {b | b = genesis ∨ b ∈ madeIn σ start acts}

variable {σ : ι → Setup F} {start : ι → MermaiNode F} {acts : Acts ι}

theorem modest_network (hmodest : ∀ i, Modest (start i).node.finality.validators) (i : ι) :
    Modest ((networkRun σ start acts).state i).node.finality.validators := by
  rw [networkRun, Network.Protocol.state_run]
  refine Run.foldl_invariant (fun s : MermaiNode F => Modest s.node.finality.validators) (hmodest i)
    ?_ (List.prefix_refl _)
  intro pre e _ h
  exact MermaiNode.modest_react h

theorem compact_knownIn (hmodest : ∀ i, Modest (start i).node.finality.validators) :
    ∀ b ∈ knownIn σ start acts, b.Compact := by
  rintro b (rfl | hb)
  · exact genesis_compact
  · obtain ⟨pre, a, -, hmade⟩ := Network.Protocol.exists_of_mem_trace hb
    exact MermaiNode.compact_of_made (modest_network hmodest a.1) hmade

/-- **Run**: behind every part of a faithful run the chains are made of known blocks. -/
theorem stands_network (hchain : ∀ i, (start i).node.chain = [genesis])
    (hmodest : ∀ i, Modest (start i).node.finality.validators)
    (hfaith : (network σ).Faithful ⟨start, []⟩ acts) {pre : Acts ι} (hpre : pre <+: acts) (i : ι) :
    Stands (knownIn σ start acts) (chainAfter σ start pre i) := by
  refine (Network.Protocol.invariant
    (I := fun _ s => Stands (knownIn σ start acts) s.node.chain)
    (Q := fun m => m.dispatch.Carries (knownIn σ start acts)) hfaith ?_ ?_ ?_ hpre).1 i
  · intro j
    dsimp only
    rw [hchain j]
    exact stands_genesis (.inl rfl)
  · intro m hm
    cases hm
  · intro pre j e hprefix hI hdelivered
    refine MermaiNode.stands_react (compact_knownIn hmodest) hI ?_ ?_
    · intro b hb
      exact .inr (Network.Protocol.mem_trace hprefix hb)
    · rintro place loop m rfl
      by_cases hempty : m.payload = []
      · exact carries_nil hempty
      · exact hdelivered m (by simp [network, hempty])

/-- What a round makes stands at its height behind the round. -/
theorem getElem?_of_made {pre : Acts ι} {i : ι} {e : MermaiNode.Event} {b : Block}
    (hb : b ∈ MermaiNode.made (σ i) ((networkRun σ start pre).state i) e) :
    (chainAfter σ start (pre ++ [(i, e)]) i)[b.height.toNat]? = some b := by
  obtain ⟨hext, hlen, -⟩ := MermaiNode.chain_of_made hb
  rw [chainAfter, networkRun_concat, Network.Protocol.step_state_self]
  show (MermaiNode.react _ _ _).1.node.chain[_]? = _
  rw [hext, hlen]
  exact List.getElem?_concat_length

/-- Chains of one block for each height are prefixes of one another. -/
theorem comparable_of_unique (hchain : ∀ i, (start i).node.chain = [genesis])
    (hmodest : ∀ i, Modest (start i).node.finality.validators)
    (hfaith : (network σ).Faithful ⟨start, []⟩ acts)
    (hone : ∀ b ∈ madeIn σ start acts, ∀ c ∈ madeIn σ start acts, b.height = c.height → b = c)
    {pre later : Acts ι} (hpre : pre <+: acts) (hlater : later <+: acts) (i j : ι) :
    chainAfter σ start pre i <+: chainAfter σ start later j ∨
      chainAfter σ start later j <+: chainAfter σ start pre i := by
  have hpositive : ∀ b ∈ madeIn σ start acts, b.height ≠ genesis.height := by
    intro b hb heq
    obtain ⟨pre, ⟨k, e⟩, hprefix, hb⟩ := Network.Protocol.exists_of_mem_trace hb
    have hstands := stands_network hchain hmodest hfaith ((List.prefix_append pre _).trans hprefix) k
    have hlen := List.length_pos_iff.mpr hstands.ne_nil
    rw [chainAfter, networkRun, ← (MermaiNode.chain_of_made hb).2.1, heq] at hlen
    exact absurd hlen (by decide)
  refine Stands.comparable (stands_network hchain hmodest hfaith hpre i)
    (stands_network hchain hmodest hfaith hlater j) ?_
  rintro b (rfl | hb) c (rfl | hc) hheight
  · rfl
  · exact absurd hheight.symm (hpositive c hc)
  · exact absurd hheight (hpositive b hb)
  · exact hone b hb c hc hheight

/-- **Agreement**: nodes start with the genesis block and validators whose names fit the decoder, and the
network delivers only what was sent, in any order, any number of times or never.  Then any two chains, of any
nodes at any times, are prefixes of one another exactly when no two rounds made different blocks of one
height. -/
theorem agreement_iff (σ : ι → Setup F) (start : ι → MermaiNode F)
    (hchain : ∀ i, (start i).node.chain = [genesis])
    (hmodest : ∀ i, Modest (start i).node.finality.validators) (acts : Acts ι)
    (hfaith : (network σ).Faithful ⟨start, []⟩ acts) :
    (∀ pre later, pre <+: acts → later <+: acts → ∀ i j,
      chainAfter σ start pre i <+: chainAfter σ start later j ∨
        chainAfter σ start later j <+: chainAfter σ start pre i) ↔
      ∀ b ∈ madeIn σ start acts, ∀ c ∈ madeIn σ start acts, b.height = c.height → b = c := by
  constructor
  · intro h b hb c hc hheight
    obtain ⟨pre, ⟨i, e⟩, hpre, hb⟩ := Network.Protocol.exists_of_mem_trace hb
    obtain ⟨later, ⟨j, e'⟩, hlater, hc⟩ := Network.Protocol.exists_of_mem_trace hc
    have hb' := getElem?_of_made hb
    have hc' := getElem?_of_made hc
    rw [← hheight] at hc'
    rcases h _ _ hpre hlater i j with hcmp | hcmp
    · exact Option.some.inj ((getElem?_longer hcmp hb').symm.trans hc')
    · exact Option.some.inj (hb'.symm.trans (getElem?_longer hcmp hc'))
  · intro hone pre later hpre hlater i j
    exact comparable_of_unique hchain hmodest hfaith hone hpre hlater i j

/-- One node makes a block, the other gets it twice and asks for the chain between. -/
def sampleDeliveries : Acts Bool :=
  [(false, .consensusRound), (true, .received 0 .incoming (blockMessage sampleBlock)),
    (true, .syncRound false), (false, .received 0 .connected syncMessage),
    (true, .received 0 .incoming (blockMessage sampleBlock))]

theorem agreement_iff_sample :
    ∀ pre later, pre <+: sampleDeliveries → later <+: sampleDeliveries → ∀ i j,
      chainAfter (fun _ => sampleSetup) (fun _ => sampleNode) pre i <+:
          chainAfter (fun _ => sampleSetup) (fun _ => sampleNode) later j ∨
        chainAfter (fun _ => sampleSetup) (fun _ => sampleNode) later j <+:
          chainAfter (fun _ => sampleSetup) (fun _ => sampleNode) pre i := by
  have hmade : madeIn (fun _ => sampleSetup) (fun _ => sampleNode) sampleDeliveries = [sampleBlock] := by
    decide +kernel
  refine (agreement_iff (fun _ => sampleSetup) (fun _ => sampleNode) (fun _ => rfl) ?_
    sampleDeliveries ?_).mpr ?_
  · intro _ v hv
    rw [List.mem_singleton.mp hv]
    decide
  · decide +kernel
  · rw [hmade]
    intro b hb c hc _
    rw [List.mem_singleton.mp hb, List.mem_singleton.mp hc]

end Runs

end Mermai
