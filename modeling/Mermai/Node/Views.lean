import Mermai.Node.Message
import Mermai.Core.FormatLaws
import Mermai.Chain.Invariant

/-!
# Node.Views — the chain, the blocks table and the ledger of a node

A node keeps its ledger three times: the chain in memory, the rows of `blocks`, and the table of
unspent outputs.  `InStep` says that they agree: the row at a height is that of the block at this
position, and the outputs are what the transactions of the chain make of the table of the start.

Accepting a block keeps this (`Node.InStep.acceptBlock`): the database commits before `add_block`
validates a second time, and the second validation cannot fail (`addBlock_of_canAddBlock`).  The new
row replaces none, because heights are positions and SHA-256 does not collide on the presented
blocks.  A message accepts blocks and otherwise touches nothing of this (`handleMessage_frames`).
-/

namespace Mermai

open Sql

variable {F : Type}

/-! ## Agreement of the blocks table with the chain -/

/-- The row at every height from 1 to the tip holds the block of the chain, and no row lies above
the tip. -/
structure BlocksAgree (chain : List Block) (blocks : Blocks) : Prop where
  rows : ∀ h : UInt32, 1 ≤ h → h ≤ getHeight chain → ∃ row b,
    blocks.select h.toInt32 = some row ∧ getBlock chain h = some b ∧ row.serialized = b.serialize
  above : ∀ h : UInt32, getHeight chain < h → blocks.select h.toInt32 = none

/-- Every row was written by `save_block` for a block with its encoding in `S`. -/
def Stored (C : Crypto) (S : Set Bytes) (blocks : Blocks) : Prop :=
  ∀ row ∈ blocks.rows, ∃ b : Block, b.serialize ∈ S ∧ row = blockRow C b

theorem Stored.insert {C : Crypto} {S : Set Bytes} {blocks : Blocks} {b : Block}
    (h : Stored C S blocks) (hb : b.serialize ∈ S) :
    Stored C S (blocks.insertOrReplace (blockRow C b)) := by
  intro row hrow
  rcases UniqueTable.mem_insertOrReplace.mp hrow with rfl | ⟨hrow, -, -⟩
  · exact ⟨b, hb, rfl⟩
  · exact h row hrow

/-- A new row leaves the rows at other heights alone: it has none of their hashes. -/
theorem Stored.select_insert {C : Crypto} {S : Set Bytes} (hfree : C.CollisionFreeOn S)
    {blocks : Blocks} {b : Block} (h : Stored C S blocks) (hb : b.serialize ∈ S) {k : UInt32}
    (hk : k ≠ b.height) :
    (blocks.insertOrReplace (blockRow C b)).select k.toInt32 = blocks.select k.toInt32 := by
  refine UniqueTable.select_insertOrReplace_of_ne (fun heq => hk (toInt32_inj heq)) fun x hx => ?_
  obtain ⟨hmem, hcol⟩ := UniqueTable.select_eq_some.mp hx
  obtain ⟨c, hc, rfl⟩ := h x hmem
  intro hhash
  have hck : c.height = k := toInt32_inj hcol
  exact hk (hck ▸ height_of_rowHash hfree hc hb hhash)

/-- **One row**: saving the block that extends the tip agrees with the longer chain. -/
theorem BlocksAgree.append {C : Crypto} {S : Set Bytes} (hfree : C.CollisionFreeOn S)
    {chain : List Block} {blocks : Blocks} {b : Block} (h : BlocksAgree chain blocks)
    (hstored : Stored C S blocks) (hb : b.serialize ∈ S) (hne : chain ≠ [])
    (hheight : b.height.toNat = chain.length) :
    BlocksAgree (chain ++ [b]) (blocks.insertOrReplace (blockRow C b)) := by
  have hlt := b.height.toNat_lt
  have htip : (getHeight chain).toNat + 1 = chain.length := getHeight_succ hne (by omega)
  have htip' : getHeight (chain ++ [b]) = b.height := by
    rw [getHeight, if_neg (by simp), List.length_append, List.length_singleton,
      Nat.add_sub_cancel, ← hheight, UInt32.ofNat_toNat]
  refine ⟨?_, ?_⟩
  · intro k h1 hk
    rw [htip'] at hk
    by_cases hkb : k = b.height
    · subst hkb
      refine ⟨blockRow C b, b, UniqueTable.select_insertOrReplace_self blocks _, ?_, rfl⟩
      rw [getBlock, hheight, List.getElem?_concat_length]
    · have hk' := UInt32.le_iff_toNat_le.mp hk
      have hne' : k.toNat ≠ b.height.toNat := fun heq => hkb (UInt32.toNat_inj.mp heq)
      obtain ⟨row, c, hrow, hc, heq⟩ := h.rows k h1 (UInt32.le_iff_toNat_le.mpr (by omega))
      refine ⟨row, c, ?_, ?_, heq⟩
      · rw [hstored.select_insert hfree hb hkb, hrow]
      · rw [getBlock, List.getElem?_append_left (by omega)]
        exact hc
  · intro k hk
    rw [htip'] at hk
    have hk' := UInt32.lt_iff_toNat_lt.mp hk
    rw [hstored.select_insert hfree hb (by rintro rfl; omega)]
    exact h.above k (UInt32.lt_iff_toNat_lt.mpr (by omega))

theorem blocksAgree_genesis : BlocksAgree [genesis] .empty := by
  refine ⟨?_, fun h _ => rfl⟩
  intro h h1 hle
  have h1' := UInt32.le_iff_toNat_le.mp h1
  have hle' := UInt32.le_iff_toNat_le.mp hle
  exact absurd (h1'.trans hle') (by decide)

/-! ## The invariant -/

/-- The three views agree.  `S` holds the encodings of the blocks after the first. -/
structure InStep (C : Crypto) (now : ℕ) (utxos₀ : Utxos) (S : Set Bytes) (chain : List Block)
    (db : Db) : Prop where
  nonempty : chain ≠ []
  agree : BlocksAgree chain db.blocks
  stored : Stored C S db.blocks
  utxos : applyTransactions C now utxos₀ (chain.tail.flatMap Block.transactions) = some db.utxos

theorem InStep.mono {C : Crypto} {now now' : ℕ} {utxos₀ : Utxos} {S : Set Bytes}
    {chain : List Block} {db : Db} (h : InStep C now utxos₀ S chain db) (hle : now ≤ now') :
    InStep C now' utxos₀ S chain db :=
  { h with utxos := applyTransactions_mono h.utxos hle }

/-- **One block**: a block that extends the tip and commits keeps the views in step. -/
theorem InStep.append {C : Crypto} {now : ℕ} {utxos₀ : Utxos} {S : Set Bytes} {chain : List Block}
    {db : Db} {b : Block} (h : InStep C now utxos₀ S chain db) (hfree : C.CollisionFreeOn S)
    (hb : b.serialize ∈ S) (hheight : b.height.toNat = chain.length)
    (happly : (applyBlock C now db b).1 = true) :
    InStep C now utxos₀ S (chain ++ [b]) (applyBlock C now db b).2 := by
  obtain ⟨hutxos, hblocks, -⟩ := applyBlock_eq_true happly
  refine ⟨by simp, ?_, ?_, ?_⟩
  · rw [hblocks]
    exact h.agree.append hfree h.stored hb h.nonempty hheight
  · rw [hblocks]
    exact h.stored.insert hb
  · rw [List.tail_append_of_ne_nil h.nonempty, List.flatMap_append]
    refine applyTransactions_append h.utxos ?_
    simpa using hutxos

/-! ## Accepting blocks -/

/-- **Inversion** of accepting a block on a node with a database, when the clock does not go back:
there is no third outcome in which the database has the block and the chain does not. -/
theorem Node.acceptBlock_cases (C : Crypto) (fl : FloatOps F) {clock : ℕ → ℕ}
    (hclock : Monotone clock) {n : Node} {db : Db} (hdb : n.db = some db) (b : Block) :
    let r := n.acceptBlock C fl clock b
    n.ticks ≤ r.2.ticks ∧
    ((r.1 = false ∧ r.2.chain = n.chain ∧ r.2.db = some db) ∨
      (r.1 = true ∧ (canAddBlock C fl (clock n.ticks) n.engine n.chain (some b)).ok = true ∧
        (applyBlock C (clock (n.ticks + 1)) db b).1 = true ∧ n.ticks + 1 ≤ r.2.ticks ∧
        r.2.chain = n.chain ++ [b] ∧
        r.2.db = some (applyBlock C (clock (n.ticks + 1)) db b).2)) := by
  intro r
  have hstored : ∀ now, applyStored C now n.db b =
      ((applyBlock C now db b).1, some (applyBlock C now db b).2) := by
    intro now
    rw [hdb]
    rfl
  by_cases hok : (canAddBlock C fl (clock n.ticks) n.engine n.chain (some b)).ok = true
  · by_cases happly : (applyBlock C (clock (n.ticks + 1)) db b).1 = true
    · obtain ⟨hadd, -, hchain⟩ :=
        addBlock_of_canAddBlock hok (hclock (show n.ticks ≤ n.ticks + 2 by omega))
      have hr : r = n.acceptBlock C fl clock b := rfl
      rw [Node.acceptBlock, if_pos hok, hstored, if_pos happly] at hr
      rw [hr]
      exact ⟨Nat.le_add_right _ 3,
        .inr ⟨hadd, hok, happly, Nat.add_le_add_left (by decide) _, hchain, rfl⟩⟩
    · have hr : r = n.acceptBlock C fl clock b := rfl
      rw [Node.acceptBlock, if_pos hok, hstored, if_neg happly,
        applyBlock_eq_false (Bool.eq_false_iff.mpr happly)] at hr
      rw [hr]
      exact ⟨Nat.le_add_right _ 2, .inl ⟨rfl, rfl, rfl⟩⟩
  · have hr : r = n.acceptBlock C fl clock b := rfl
    rw [Node.acceptBlock, if_neg hok] at hr
    rw [hr]
    exact ⟨Nat.le_add_right _ 1, .inl ⟨rfl, rfl, hdb⟩⟩

/-! ## What a message changes -/

/-- The new blocks that `handle_message` tries to accept, for a node with a database. -/
def Node.triedBlocks (n : Node) : Message → List Block
  | .blocks payload =>
    let candidate := decodeChainPayload payload
    if candidate.length ≤ (getHeight n.chain + 1).toNat ∨ ¬ sharesChain n.chain candidate then []
    else candidate.drop ((getHeight n.chain).toNat + 1)
  | .block payload => (Block.deserialize payload).toOption.toList
  | _ => []

theorem Node.triedBlocks_presented {n : Node} {m : Message} {b : Block} (h : b ∈ n.triedBlocks m) :
    b ∈ m.presented := by
  cases m with
  | blocks payload =>
    simp only [Node.triedBlocks] at h
    split_ifs at h
    · cases h
    · exact List.mem_of_mem_drop h
  | block payload => exact h
  | getBlocks => exact h
  | newTransaction payload => exact h
  | blockVote payload => exact h
  | other => exact h

/-- The chain and the tables of blocks and outputs are the same, and the clock has not gone back. -/
structure Node.Frames (n n' : Node) : Prop where
  chain : n'.chain = n.chain
  ticks : n.ticks ≤ n'.ticks
  db : ∀ d, n.db = some d → ∃ d', n'.db = some d' ∧ d'.blocks = d.blocks ∧ d'.utxos = d.utxos

theorem Node.Frames.refl (n : Node) : n.Frames n :=
  ⟨rfl, le_rfl, fun d hd => ⟨d, hd, rfl, rfl⟩⟩

/-- `BLOCKS` tries the new blocks, none when the candidate is no longer or is another chain. -/
theorem handleBlocks_node {C : Crypto} {fl : FloatOps F} {clock : ℕ → ℕ} {n : Node} {db : Db}
    (hdb : n.db = some db) (payload : Bytes) : (handleBlocks C fl clock n payload).node =
      (n.acceptBlocks C fl clock (n.triedBlocks (.blocks payload))).2 := by
  simp only [handleBlocks, hdb]
  by_cases hskip : (decodeChainPayload payload).length ≤ (getHeight n.chain + 1).toNat ∨
      ¬ sharesChain n.chain (decodeChainPayload payload) = true
  · have htried : n.triedBlocks (.blocks payload) = [] := if_pos hskip
    rw [htried]
    split_ifs with h1 h2 h3
    · rfl
    · rfl
    · exact absurd hskip (by tauto)
    · rfl
  · have htried : n.triedBlocks (.blocks payload) =
        (decodeChainPayload payload).drop ((getHeight n.chain).toNat + 1) := if_neg hskip
    rw [not_or, not_not] at hskip
    have hne : decodeChainPayload payload ≠ [] := by
      intro hnil
      rw [hnil] at hskip
      exact hskip.1 (Nat.zero_le _)
    rw [htried, if_neg hne, if_neg hskip.1, if_neg (not_not.mpr hskip.2)]

/-- **Inversion** of a message to a node with a database: it accepts the blocks it tries, and apart
from that touches the pool of transactions and the votes only. -/
theorem handleMessage_frames {C : Crypto} {fl : FloatOps F} {clock : ℕ → ℕ} {n : Node} {db : Db}
    (hdb : n.db = some db) (m : Message) :
    (n.acceptBlocks C fl clock (n.triedBlocks m)).2.Frames (handleMessage C fl clock n m).node ∧
      (handleMessage C fl clock n m).node.engine =
        (n.acceptBlocks C fl clock (n.triedBlocks m)).2.engine := by
  cases m with
  | getBlocks => exact ⟨.refl n, rfl⟩
  | other => exact ⟨.refl n, rfl⟩
  | blocks payload =>
    rw [handleMessage, handleBlocks_node hdb payload]
    exact ⟨.refl _, rfl⟩
  | block payload =>
    simp only [handleMessage]
    cases hdec : Block.deserialize payload with
    | error e =>
      have htried : n.triedBlocks (.block payload) = [] := by
        simp [Node.triedBlocks, hdec, Except.toOption]
      rw [htried]
      exact ⟨.refl n, rfl⟩
    | ok b =>
      have htried : n.triedBlocks (.block payload) = [b] := by
        simp [Node.triedBlocks, hdec, Except.toOption]
      rw [htried, Node.acceptBlocks]
      split_ifs
      · exact ⟨.refl _, rfl⟩
      · exact ⟨.refl _, rfl⟩
  | newTransaction payload =>
    simp only [handleMessage, handleTransaction]
    split
    · rename_i tx db' _ hdb'
      refine ⟨⟨rfl, Nat.le_succ _, ?_⟩, rfl⟩
      intro d hd
      have heq : d = db' := Option.some.inj ((show n.db = some d from hd).symm.trans hdb')
      subst heq
      refine ⟨_, rfl, ?_⟩
      split_ifs
      · exact ⟨rfl, rfl⟩
      · exact ⟨rfl, rfl⟩
    · exact ⟨.refl n, rfl⟩
  | blockVote payload =>
    simp only [handleMessage, handleVote]
    split
    · exact ⟨⟨rfl, le_rfl, fun d hd => ⟨d, hd, rfl, rfl⟩⟩, rfl⟩
    · exact ⟨.refl n, rfl⟩

/-! ## Views in step -/

/-- The views of a node with a database agree. -/
def Node.InStep (C : Crypto) (clock : ℕ → ℕ) (utxos₀ : Utxos) (S : Set Bytes) (n : Node) : Prop :=
  ∃ db, n.db = some db ∧ Mermai.InStep C (clock n.ticks) utxos₀ S n.chain db

section Steps

variable {C : Crypto} {fl : FloatOps F} {clock : ℕ → ℕ} {utxos₀ : Utxos} {S : Set Bytes}

theorem Node.InStep.acceptBlock (fl : FloatOps F) (hclock : Monotone clock)
    (hfree : C.CollisionFreeOn S) {n : Node} (h : n.InStep C clock utxos₀ S) {b : Block}
    (hb : b.serialize ∈ S) :
    (n.acceptBlock C fl clock b).2.InStep C clock utxos₀ S ∧
      n.chain <+: (n.acceptBlock C fl clock b).2.chain := by
  obtain ⟨db, hdb, hin⟩ := h
  obtain ⟨hticks, ⟨-, hchain, hdb'⟩ | ⟨-, hok, happly, hticks', hchain, hdb'⟩⟩ :=
    Node.acceptBlock_cases C fl hclock hdb b
  · refine ⟨⟨db, hdb', ?_⟩, by rw [hchain]⟩
    rw [hchain]
    exact hin.mono (hclock hticks)
  · refine ⟨⟨_, hdb', ?_⟩, by rw [hchain]; exact List.prefix_append _ _⟩
    obtain ⟨tip, -, hheight, -⟩ := extendsTip_iff.mp (canAddBlock_ok_iff.mp hok).1
    rw [hchain]
    exact ((hin.mono (hclock (Nat.le_succ _))).append hfree hb hheight happly).mono
      (hclock hticks')

theorem Node.InStep.acceptBlocks (hclock : Monotone clock) (hfree : C.CollisionFreeOn S)
    {blocks : List Block} {n : Node} (h : n.InStep C clock utxos₀ S)
    (hblocks : ∀ b ∈ blocks, b.serialize ∈ S) :
    (n.acceptBlocks C fl clock blocks).2.InStep C clock utxos₀ S ∧
      n.chain <+: (n.acceptBlocks C fl clock blocks).2.chain := by
  induction blocks generalizing n with
  | nil => exact ⟨h, List.prefix_refl _⟩
  | cons b rest ih =>
    obtain ⟨hstep, hpre⟩ := h.acceptBlock fl hclock hfree (hblocks b (by simp))
    rw [Node.acceptBlocks]
    split_ifs
    · obtain ⟨hrest, hpre'⟩ := ih hstep fun c hc => hblocks c (by simp [hc])
      exact ⟨hrest, hpre.trans hpre'⟩
    · exact ⟨hstep, hpre⟩

theorem Node.InStep.frame (hclock : Monotone clock) {n n' : Node} (h : n.InStep C clock utxos₀ S)
    (hf : n.Frames n') : n'.InStep C clock utxos₀ S := by
  obtain ⟨db, hn, hin⟩ := h
  obtain ⟨db', hn', hblocks, hutxos⟩ := hf.db db hn
  refine ⟨db', hn', ?_⟩
  have hin' := hin.mono (hclock hf.ticks)
  rw [hf.chain]
  refine ⟨hin'.nonempty, ?_, ?_, ?_⟩
  · rw [hblocks]
    exact hin'.agree
  · rw [hblocks]
    exact hin'.stored
  · rw [hutxos]
    exact hin'.utxos

/-- **One message** keeps the views in step and only extends the chain. -/
theorem Node.InStep.handleMessage (hclock : Monotone clock) (hfree : C.CollisionFreeOn S)
    {n : Node} (h : n.InStep C clock utxos₀ S) {m : Message}
    (hm : ∀ b ∈ m.presented, b.serialize ∈ S) :
    (handleMessage C fl clock n m).node.InStep C clock utxos₀ S ∧
      n.chain <+: (handleMessage C fl clock n m).node.chain := by
  obtain ⟨db, hdb, -⟩ := id h
  obtain ⟨hin, hpre⟩ := h.acceptBlocks hclock hfree fun b hb => hm b (Node.triedBlocks_presented hb)
  have hframe : (n.acceptBlocks C fl clock (n.triedBlocks m)).2.Frames
      (Mermai.handleMessage C fl clock n m).node := (handleMessage_frames hdb m).1
  exact ⟨hin.frame hclock hframe, by rwa [hframe.chain]⟩

theorem Node.InStep.handleMessages (hclock : Monotone clock) (hfree : C.CollisionFreeOn S)
    {messages : List Message} {n : Node} (h : n.InStep C clock utxos₀ S)
    (hm : ∀ m ∈ messages, ∀ b ∈ m.presented, b.serialize ∈ S) :
    (handleMessages C fl clock n messages).InStep C clock utxos₀ S := by
  induction messages generalizing n with
  | nil => exact h
  | cons m messages ih =>
    exact ih (h.handleMessage hclock hfree (hm m (by simp))).1 fun m' hm' => hm m' (by simp [hm'])

end Steps

/-! ## Runs of messages -/

/-- The encodings of the blocks a list of messages presents. -/
def presentedEncodings (messages : List Message) : Set Bytes :=
  {s | ∃ m ∈ messages, ∃ b ∈ m.presented, s = b.serialize}

/-- A new node with a database whose blocks table is empty. -/
def freshNode (db : Db) (eng : Option Engine) (quorum : Option QuorumCollector) : Node :=
  ⟨[genesis], some { db with blocks := .empty }, eng, quorum, 0⟩

theorem freshNode_inStep (C : Crypto) (clock : ℕ → ℕ) (S : Set Bytes) (db : Db)
    (eng : Option Engine) (quorum : Option QuorumCollector) :
    (freshNode db eng quorum).InStep C clock db.utxos S := by
  refine ⟨_, rfl, by simp [freshNode], blocksAgree_genesis, ?_, rfl⟩
  intro row hrow
  cases hrow

/-- **Three views in step**: after any messages the chain has only grown, the blocks table agrees
with it, and the outputs are those its transactions make of the initial table. -/
theorem handleMessages_views (C : Crypto) (fl : FloatOps F) (clock : ℕ → ℕ)
    (hclock : Monotone clock) (db : Db) (eng : Option Engine) (quorum : Option QuorumCollector)
    (messages : List Message) (hfree : C.CollisionFreeOn (presentedEncodings messages)) :
    let run := handleMessages C fl clock (freshNode db eng quorum)
    (∀ done m, done ++ [m] <+: messages → (run done).chain <+: (run (done ++ [m])).chain) ∧
    ∃ db', (run messages).db = some db' ∧ BlocksAgree (run messages).chain db'.blocks ∧
      applyTransactions C (clock (run messages).ticks) db.utxos
        ((run messages).chain.tail.flatMap Block.transactions) = some db'.utxos := by
  intro run
  have hrun : ∀ done : List Message, done ⊆ messages →
      (run done).InStep C clock db.utxos (presentedEncodings messages) := by
    intro done hsub
    refine (freshNode_inStep C clock _ db eng quorum).handleMessages hclock hfree ?_
    exact fun m hm b hb => ⟨m, hsub hm, b, hb, rfl⟩
  refine ⟨?_, ?_⟩
  · intro done m hpre
    have hsub : done ++ [m] ⊆ messages := hpre.subset
    have hstep : run (done ++ [m]) = (handleMessage C fl clock (run done) m).node := by
      simp [run, handleMessages, List.foldl_append]
    rw [hstep]
    refine ((hrun done fun x hx => hsub (by simp [hx])).handleMessage hclock hfree ?_).2
    exact fun b hb => ⟨m, hsub (by simp), b, hb, rfl⟩
  · obtain ⟨db', hdb', hin⟩ := hrun messages fun _ h => h
    exact ⟨db', hdb', hin.agree, hin.utxos⟩

/-- A block, a request, a transaction that does not decode, and a longer chain. -/
def sampleMessages : List Message :=
  [.block firstBlock.serialize, .getBlocks, .newTransaction [1],
    .blocks (encodeChainPayload [genesis, firstBlock, secondBlock])]

theorem handleMessages_views_sample :
    let node := handleMessages polyCrypto exactFloat (1700000000 + ·) (freshNode {} none none)
      sampleMessages
    node.chain = [genesis, firstBlock, secondBlock] ∧
      ∃ db, node.db = some db ∧ BlocksAgree node.chain db.blocks := by
  have hpresented : sampleMessages.flatMap Message.presented =
      [firstBlock, genesis, firstBlock, secondBlock] := by decide +kernel
  have hdistinct : ∀ b ∈ sampleMessages.flatMap Message.presented,
      ∀ c ∈ sampleMessages.flatMap Message.presented,
      polyDigest b.serialize = polyDigest c.serialize → b.serialize = c.serialize := by
    rw [hpresented]
    decide +kernel
  have hfree : polyCrypto.CollisionFreeOn (presentedEncodings sampleMessages) := by
    rintro s ⟨m, hm, b, hb, rfl⟩ s' ⟨m', hm', c, hc, rfl⟩ heq
    exact hdistinct b (List.mem_flatMap.mpr ⟨m, hm, hb⟩) c (List.mem_flatMap.mpr ⟨m', hm', hc⟩) heq
  have hclock : Monotone fun n : ℕ => 1700000000 + n := fun _ _ h => Nat.add_le_add_left h _
  obtain ⟨-, db, hdb, hagree, -⟩ := handleMessages_views polyCrypto exactFloat _ hclock {} none
    none sampleMessages hfree
  exact ⟨by decide +kernel, db, hdb, hagree⟩

end Mermai
