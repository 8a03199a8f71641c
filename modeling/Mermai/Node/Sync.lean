import Mermai.Chain.Replay
import Mermai.Node.NoReplay
import Mermai.Node.Views
import Mermai.Node.Wire

/-!
# Node.Sync — a shorter node catches up

Two nodes with databases and without engines that started from the same table of outputs.  The
chain of one is a prefix of the chain of the other; the longer one sends all of its chain.  Both are
in the state `Ledgered`: the chain passes the checks at a given clock, and the table is what its
transactions make of the table of the start.  So the new blocks pass one after another on the shorter
node, whose table then is at each height the one of the longer node (`acceptBlocks_of_ledger`).

The clock enters once: the checks bound timestamps from above, so the shorter node has to read a
clock no earlier than those at which the longer one accepted its blocks (`runClocks`).
-/

namespace Mermai

open Sql

variable {F : Type}

/-! ## The clocks of accepted blocks -/

/-- The clocks at which `acceptBlocks` accepts blocks. -/
def Node.acceptClocks (C : Crypto) (fl : FloatOps F) (clock : ℕ → ℕ) (n : Node) :
    List Block → List ℕ
  | [] => []
  | b :: rest =>
    let r := n.acceptBlock C fl clock b
    if r.1 then clock n.ticks :: r.2.acceptClocks C fl clock rest else []

/-- The clocks at which a run of messages accepts blocks. -/
def runClocks (C : Crypto) (fl : FloatOps F) (clock : ℕ → ℕ) : Node → List Message → List ℕ
  | _, [] => []
  | n, m :: rest => n.acceptClocks C fl clock (n.triedBlocks m) ++
      runClocks C fl clock (handleMessage C fl clock n m).node rest

/-- A new node with a database and without an engine. -/
def startNode (db : Db) (quorum : Option QuorumCollector) : Node :=
  ⟨[genesis], some db, none, quorum, 0⟩

/-! ## The ledger of a chain -/

/-- The table only asks the clock through `verify`. -/
theorem applyTransactions_of_verify {C : Crypto} {now now' : ℕ} {t t' : Utxos}
    {txs : List Transaction} (h : applyTransactions C now t txs = some t')
    (hv : ∀ tx ∈ txs, tx.verify C now' = true) : applyTransactions C now' t txs = some t' := by
  induction txs generalizing t with
  | nil => exact h
  | cons tx txs ih =>
    obtain ⟨s, hs, h⟩ := applyTransactions_cons.mp h
    refine applyTransactions_cons.mpr ⟨s, ?_, ih h fun x hx => hv x (List.mem_cons_of_mem _ hx)⟩
    unfold applyTransaction at hs ⊢
    by_cases hin : tx.inputs = []
    · rwa [if_pos hin] at hs ⊢
    · rw [if_neg hin] at hs ⊢
      split_ifs at hs with hval
      have hval' : validateTransactionInputs C now' t tx = true := by
        unfold validateTransactionInputs at hval ⊢
        rw [Bool.and_eq_true] at hval ⊢
        exact ⟨hv tx List.mem_cons_self, hval.2⟩
      rwa [if_pos hval']

/-- **Invariant** of a node without an engine: its chain passes the checks at the clock `now`, and
its table is what the transactions of the chain make of `utxos₀`. -/
structure Ledgered (C : Crypto) (now : ℕ) (utxos₀ : Utxos) (n : Node) : Prop where
  engine : n.engine = none
  accepted : Accepted C now n.chain
  ledger : ∃ db, n.db = some db ∧
    applyTransactions C now utxos₀ (n.chain.tail.flatMap Block.transactions) = some db.utxos

theorem startNode_ledgered (C : Crypto) (now : ℕ) (db : Db) (quorum : Option QuorumCollector) :
    Ledgered C now db.utxos (startNode db quorum) :=
  ⟨rfl, .genesis, db, rfl, rfl⟩

theorem canAddBlock_engine_none {C : Crypto} {fl : FloatOps F} {now : ℕ} {chain : List Block}
    {block : Option Block} : (canAddBlock C fl now none chain block).engine = none := by
  cases block with
  | none => rfl
  | some b =>
    simp only [canAddBlock]
    split_ifs
    · rfl
    · rfl

theorem Node.acceptBlock_engine_none {C : Crypto} {fl : FloatOps F} {clock : ℕ → ℕ} {n : Node}
    (h : n.engine = none) (b : Block) : (n.acceptBlock C fl clock b).2.engine = none := by
  simp only [Node.acceptBlock, h]
  split_ifs
  · simp only [canAddBlock_engine_none]
    exact canAddBlock_engine_none
  · exact canAddBlock_engine_none
  · exact canAddBlock_engine_none

theorem Node.ticks_le_acceptBlock (C : Crypto) (fl : FloatOps F) (clock : ℕ → ℕ) (n : Node)
    (b : Block) : n.ticks ≤ (n.acceptBlock C fl clock b).2.ticks := by
  simp only [Node.acceptBlock]
  split_ifs
  · exact Nat.le_add_right _ _
  · exact Nat.le_add_right _ _
  · exact Nat.le_add_right _ _

section Steps

variable {C : Crypto} {fl : FloatOps F} {clock : ℕ → ℕ} {utxos₀ : Utxos} {now : ℕ}

/-- **One block** keeps the invariant at every clock that is no earlier than its acceptance. -/
theorem Ledgered.acceptBlock (fl : FloatOps F) (hclock : Monotone clock) {n : Node}
    (h : Ledgered C now utxos₀ n) (b : Block)
    (hle : (n.acceptBlock C fl clock b).1 = true → clock n.ticks ≤ now) :
    Ledgered C now utxos₀ (n.acceptBlock C fl clock b).2 := by
  obtain ⟨db, hdb, hledger⟩ := h.ledger
  have heng : (n.acceptBlock C fl clock b).2.engine = none :=
    Node.acceptBlock_engine_none h.engine b
  obtain ⟨-, ⟨-, hchain, hdb'⟩ | ⟨hok, hcan, happly, -, hchain, hdb'⟩⟩ :=
    Node.acceptBlock_cases C fl hclock hdb b
  · refine ⟨heng, ?_, db, hdb', ?_⟩
    · rw [hchain]
      exact h.accepted
    · rw [hchain]
      exact hledger
  · have hcan' := canAddBlock_mono hcan (hle hok)
    obtain ⟨ht, -, hb⟩ := canAddBlock_ok_iff.mp hcan'
    obtain ⟨hnew, -, -⟩ := applyBlock_eq_true happly
    refine ⟨heng, ?_, _, hdb', ?_⟩
    · rw [hchain]
      exact .snoc h.accepted ht hb
    · rw [hchain, List.tail_append_of_ne_nil h.accepted.ne_nil, List.flatMap_append]
      refine applyTransactions_append hledger ?_
      -- the transactions verified when `can_add_block` read the clock
      have hnow := applyTransactions_of_verify hnew (bodyOk_iff.mp hb).2.2.1
      simpa using hnow

theorem Ledgered.acceptBlocks (hclock : Monotone clock) {blocks : List Block} {n : Node}
    (h : Ledgered C now utxos₀ n) (hle : ∀ c ∈ n.acceptClocks C fl clock blocks, c ≤ now) :
    Ledgered C now utxos₀ (n.acceptBlocks C fl clock blocks).2 := by
  induction blocks generalizing n with
  | nil => exact h
  | cons b rest ih =>
    rw [Node.acceptClocks] at hle
    rw [Node.acceptBlocks]
    by_cases hr : (n.acceptBlock C fl clock b).1 = true
    · rw [if_pos hr] at hle ⊢
      have hstep := h.acceptBlock fl hclock b fun _ => hle _ List.mem_cons_self
      exact ih hstep fun c hc => hle c (List.mem_cons_of_mem _ hc)
    · rw [if_neg hr]
      exact h.acceptBlock fl hclock b fun hr' => absurd hr' hr

theorem Node.acceptClocks_le (hclock : Monotone clock) (blocks : List Block) (n : Node) :
    n.ticks ≤ (n.acceptBlocks C fl clock blocks).2.ticks ∧
      ∀ c ∈ n.acceptClocks C fl clock blocks,
        c ≤ clock (n.acceptBlocks C fl clock blocks).2.ticks := by
  induction blocks generalizing n with
  | nil =>
    refine ⟨le_rfl, ?_⟩
    intro c hc
    cases hc
  | cons b rest ih =>
    have hb := n.ticks_le_acceptBlock C fl clock b
    rw [Node.acceptBlocks, Node.acceptClocks]
    by_cases hr : (n.acceptBlock C fl clock b).1 = true
    · rw [if_pos hr, if_pos hr]
      obtain ⟨hticks, hrest⟩ := ih (n.acceptBlock C fl clock b).2
      refine ⟨hb.trans hticks, ?_⟩
      intro c hc
      rcases List.mem_cons.mp hc with rfl | hc
      · exact hclock (hb.trans hticks)
      · exact hrest c hc
    · rw [if_neg hr, if_neg hr]
      refine ⟨hb, ?_⟩
      intro c hc
      cases hc

/-! ## Messages -/

theorem Ledgered.frame {n n' : Node} (h : Ledgered C now utxos₀ n) (hf : n.Frames n')
    (heng : n'.engine = n.engine) : Ledgered C now utxos₀ n' := by
  obtain ⟨db, hdb, hledger⟩ := h.ledger
  obtain ⟨db', hdb', -, hutxos⟩ := hf.db db hdb
  refine ⟨heng.trans h.engine, ?_, db', hdb', ?_⟩
  · rw [hf.chain]
    exact h.accepted
  · rw [hf.chain, hutxos]
    exact hledger

/-- **One message** keeps the invariant at every clock that is no earlier than the acceptance of a
block. -/
theorem Ledgered.handleMessage (hclock : Monotone clock) {n : Node} (h : Ledgered C now utxos₀ n)
    (m : Message) (hle : ∀ c ∈ n.acceptClocks C fl clock (n.triedBlocks m), c ≤ now) :
    Ledgered C now utxos₀ (handleMessage C fl clock n m).node := by
  obtain ⟨db, hdb, -⟩ := id h.ledger
  obtain ⟨hframe, heng⟩ := handleMessage_frames hdb m
  exact (h.acceptBlocks hclock hle).frame hframe heng

/-- **Run lemma**. -/
theorem Ledgered.handleMessages (hclock : Monotone clock) {messages : List Message} {n : Node}
    (h : Ledgered C now utxos₀ n) (hle : ∀ c ∈ runClocks C fl clock n messages, c ≤ now) :
    Ledgered C now utxos₀ (handleMessages C fl clock n messages) := by
  induction messages generalizing n with
  | nil => exact h
  | cons m messages ih =>
    rw [runClocks] at hle
    exact ih (h.handleMessage hclock m fun c hc => hle c (List.mem_append_left _ hc))
      fun c hc => hle c (List.mem_append_right _ hc)

theorem Node.acceptBlocks_db (blocks : List Block) {n : Node} (hdb : n.db.isSome) :
    (n.acceptBlocks C fl clock blocks).2.db.isSome := by
  induction blocks generalizing n with
  | nil => exact hdb
  | cons b rest ih =>
    obtain ⟨db, hdb⟩ := Option.isSome_iff_exists.mp hdb
    have hb : (n.acceptBlock C fl clock b).2.db.isSome := by
      rw [Node.acceptBlock_db C fl clock hdb b]
      rfl
    rw [Node.acceptBlocks]
    split_ifs
    · exact ih hb
    · exact hb

/-- A node has accepted its blocks at clocks up to its present one. -/
theorem runClocks_le (hclock : Monotone clock) {messages : List Message} {n : Node} {db : Db}
    (hdb : n.db = some db) : n.ticks ≤ (handleMessages C fl clock n messages).ticks ∧
      ∀ c ∈ runClocks C fl clock n messages,
        c ≤ clock (handleMessages C fl clock n messages).ticks := by
  induction messages generalizing n db with
  | nil =>
    refine ⟨le_rfl, ?_⟩
    intro c hc
    cases hc
  | cons m messages ih =>
    have hframe : (n.acceptBlocks C fl clock (n.triedBlocks m)).2.Frames
        (handleMessage C fl clock n m).node := (handleMessage_frames hdb m).1
    obtain ⟨d, hd⟩ := Option.isSome_iff_exists.mp
      (Node.acceptBlocks_db (n.triedBlocks m) (Option.isSome_iff_exists.mpr ⟨db, hdb⟩))
    obtain ⟨db', hdb', -⟩ := hframe.db d hd
    obtain ⟨hticks, hclocks⟩ := Node.acceptClocks_le hclock (n.triedBlocks m) n
    obtain ⟨hticks', hrest⟩ := ih hdb'
    have hlast := hframe.ticks.trans hticks'
    refine ⟨hticks.trans hlast, ?_⟩
    intro c hc
    rcases List.mem_append.mp hc with hc | hc
    · exact (hclocks c hc).trans (hclock hlast)
    · exact hrest c hc

/-! ## Catching up -/

/-- A block that passes both checks is accepted. -/
theorem Node.acceptBlock_of_ok (hclock : Monotone clock) {n : Node} {db : Db} {b : Block}
    (hdb : n.db = some db)
    (hcan : (canAddBlock C fl (clock n.ticks) n.engine n.chain (some b)).ok = true)
    (happly : (applyBlock C (clock (n.ticks + 1)) db b).1 = true) :
    (n.acceptBlock C fl clock b).1 = true := by
  obtain ⟨hadd, -, -⟩ := addBlock_of_canAddBlock hcan (hclock (Nat.le_add_right n.ticks 2))
  simp only [Node.acceptBlock, hdb, applyStored, if_pos hcan, if_pos happly]
  exact hadd

theorem applyBlock_of_applyTransactions {C : Crypto} {now : ℕ} {db : Db} {b : Block} {t : Utxos}
    (h : applyTransactions C now db.utxos b.transactions = some t) :
    (applyBlock C now db b).1 = true ∧ (applyBlock C now db b).2.utxos = t := by
  have hok : (applyBlock C now db b).1 = true := by
    unfold applyBlock
    rw [h]
  refine ⟨hok, ?_⟩
  have heq := (applyBlock_eq_true hok).1
  rw [h] at heq
  exact (Option.some.inj heq).symm

/-- **Catching up**: blocks that continue an accepted chain and whose transactions the table takes
pass one after another, and the table is then what they make of it. -/
theorem acceptBlocks_of_ledger (fl : FloatOps F) (hclock : Monotone clock) {blocks : List Block}
    {n : Node} {db : Db} {t : Utxos} (heng : n.engine = none) (hdb : n.db = some db)
    (hne : n.chain ≠ []) (hnow : now ≤ clock n.ticks) (hacc : Accepted C now (n.chain ++ blocks))
    (hledger : applyTransactions C now db.utxos (blocks.flatMap Block.transactions) = some t) :
    let r := n.acceptBlocks C fl clock blocks
    r.1 = true ∧ r.2.chain = n.chain ++ blocks ∧ ∃ db', r.2.db = some db' ∧ db'.utxos = t := by
  induction blocks generalizing n db with
  | nil =>
    rw [List.flatMap_nil] at hledger
    cases hledger
    exact ⟨rfl, (List.append_nil _).symm, db, hdb, rfl⟩
  | cons b rest ih =>
    rw [List.flatMap_cons] at hledger
    obtain ⟨s, hs, hledger⟩ := applyTransactions_append_iff.mp hledger
    -- the checks of the block, at the readings of this node
    obtain ⟨ht, hb⟩ := hacc.split hne rfl
    have hcan : (canAddBlock C fl (clock n.ticks) n.engine n.chain (some b)).ok = true := by
      rw [heng]
      exact canAddBlock_ok_iff.mpr ⟨extendsTip_mono ht hnow, rfl, bodyOk_mono hb hnow⟩
    have hnow' : now ≤ clock (n.ticks + 1) := hnow.trans (hclock (Nat.le_succ _))
    obtain ⟨happly, hutxos⟩ := applyBlock_of_applyTransactions (applyTransactions_mono hs hnow')
    have hok := Node.acceptBlock_of_ok hclock hdb hcan happly
    obtain ⟨hticks, ⟨hno, -⟩ | ⟨-, -, -, -, hchain, hdb'⟩⟩ :=
      Node.acceptBlock_cases C fl hclock hdb b
    · rw [hok] at hno
      cases hno
    · rw [Node.acceptBlocks, if_pos hok]
      have hrec := ih (Node.acceptBlock_engine_none heng b) hdb' (by simp [hchain])
        (hnow.trans (hclock hticks)) (by simpa [hchain] using hacc) (by rwa [hutxos])
      rw [hchain, List.append_assoc] at hrec
      exact hrec

/-- A longer chain that starts with the local one is tried from the first new block on. -/
theorem handleBlocks_of_longer {n : Node} {db : Db} {payload : Bytes} {rest : List Block}
    (hdb : n.db = some db) (hdecode : decodeChainPayload payload = n.chain ++ rest)
    (hne : n.chain ≠ []) (hrest : rest ≠ []) (hlen : n.chain.length ≤ maxChainBlocksPerMessage) :
    handleBlocks C fl clock n payload =
      { node := (n.acceptBlocks C fl clock rest).2,
        penalty := ¬ (n.acceptBlocks C fl clock rest).1 } := by
  have hheight : (getHeight n.chain).toNat + 1 = n.chain.length :=
    getHeight_succ hne (hlen.trans (by decide))
  have hsucc : (getHeight n.chain + 1).toNat = n.chain.length := by
    rw [UInt32.toNat_add, UInt32.toNat_one, hheight]
    exact Nat.mod_eq_of_lt (hlen.trans_lt (by decide))
  have hlonger : ¬ (n.chain ++ rest).length ≤ n.chain.length := by
    have := List.length_pos_iff.mpr hrest
    rw [List.length_append]
    omega
  have hshares : sharesChain n.chain (n.chain ++ rest) = true := by
    rw [sharesChain, List.isPrefixOf_iff_prefix, List.map_append]
    exact List.prefix_append _ _
  simp only [handleBlocks, hdecode, hdb, hsucc, hheight, List.drop_left]
  rw [if_neg (List.append_ne_nil_of_left_ne_nil hne rest), if_neg hlonger,
    if_neg (not_not.mpr hshares)]

/-- Of two nodes from the same table the new transactions of the longer one lead from the table of
the shorter one to its own. -/
theorem Ledgered.difference {A B : Node} (hA : Ledgered C now utxos₀ A)
    (hB : Ledgered C now utxos₀ B) {rest : List Block} (hrest : A.chain ++ rest = B.chain) :
    ∃ a b, A.db = some a ∧ B.db = some b ∧
      applyTransactions C now a.utxos (rest.flatMap Block.transactions) = some b.utxos := by
  obtain ⟨a, ha, hledgerA⟩ := hA.ledger
  obtain ⟨b, hb, hledgerB⟩ := hB.ledger
  refine ⟨a, b, ha, hb, ?_⟩
  rw [← hrest, List.tail_append_of_ne_nil hA.accepted.ne_nil, List.flatMap_append] at hledgerB
  obtain ⟨s, hs, hledgerB⟩ := applyTransactions_append_iff.mp hledgerB
  rw [hledgerA] at hs
  cases hs
  exact hledgerB

end Steps

/-! ## Convergence -/

/-- **Sync converges**: a node whose chain is a proper prefix of the chain of another one, which
started from the same table of outputs, and whose clock is no earlier than those at which the other
one accepted its blocks, takes over all of that chain when it receives it. -/
theorem sync_converges (C : Crypto) (fl : FloatOps F) (clockA clockB : ℕ → ℕ)
    (hclockA : Monotone clockA) (hclockB : Monotone clockB) (dbA dbB : Db)
    (hstart : dbA.utxos = dbB.utxos) (quorumA quorumB : Option QuorumCollector)
    (messagesA messagesB : List Message) :
    let A := handleMessages C fl clockA (startNode dbA quorumA) messagesA
    let B := handleMessages C fl clockB (startNode dbB quorumB) messagesB
    A.chain <+: B.chain → A.chain ≠ B.chain → B.chain.length ≤ maxChainBlocksPerMessage →
    (∀ b ∈ B.chain, b.Within ∧ b.serialize.length ≤ maxSerializedBlockSize) →
    (∀ c ∈ runClocks C fl clockB (startNode dbB quorumB) messagesB, c ≤ clockA A.ticks) →
    let r := handleMessage C fl clockA A (.blocks (encodeChainPayload B.chain))
    r.node.chain = B.chain ∧
      (∃ a b, r.node.db = some a ∧ B.db = some b ∧ a.utxos = b.utxos) ∧ r.penalty = false := by
  intro A B hpre hproper hlen hlimits hclocks r
  have hA : Ledgered C (clockA A.ticks) dbA.utxos A :=
    (startNode_ledgered C _ dbA quorumA).handleMessages hclockA (runClocks_le hclockA rfl).2
  have hB : Ledgered C (clockA A.ticks) dbA.utxos B := by
    rw [hstart]
    exact (startNode_ledgered C _ dbB quorumB).handleMessages hclockB hclocks
  have hlenA : A.chain.length ≤ maxChainBlocksPerMessage := hpre.length_le.trans hlen
  obtain ⟨rest, hrest⟩ := hpre
  have hne : rest ≠ [] := by
    rintro rfl
    exact hproper (by simpa using hrest)
  -- the message decodes to the chain of `B`
  have hship : Shippable B.chain :=
    (shippable_iff hB.accepted.ne_nil fun b hb => (hlimits b hb).1).mpr
      ⟨hlen, fun b hb => (hlimits b hb).2⟩
  have hdecode : decodeChainPayload (encodeChainPayload B.chain) = A.chain ++ rest :=
    ((decodeChainPayload_encode_iff hB.accepted.ne_nil).mpr hship).trans hrest.symm
  have hr : r = { node := (A.acceptBlocks C fl clockA rest).2,
                  penalty := ¬ (A.acceptBlocks C fl clockA rest).1 } := by
    obtain ⟨db, hdb, -⟩ := hA.ledger
    exact handleBlocks_of_longer hdb hdecode hA.accepted.ne_nil hne hlenA
  -- and its new blocks pass one after another
  obtain ⟨a, b, ha, hb, hnew⟩ := hA.difference hB hrest
  have hacc : Accepted C (clockA A.ticks) (A.chain ++ rest) := by
    rw [hrest]
    exact hB.accepted
  obtain ⟨hok, hchain, db', hdb', hutxos⟩ :=
    acceptBlocks_of_ledger fl hclockA hA.engine ha hA.accepted.ne_nil le_rfl hacc hnew
  rw [hr]
  exact ⟨hchain.trans hrest, ⟨db', b, hdb', hb, hutxos⟩, by simp [hok]⟩

/-- The messages that bring the given blocks. -/
def blockMessages (blocks : List Block) : List Message := blocks.map fun b => .block b.serialize

/-- One node has the first of two blocks with transfers, the other one both. -/
theorem sync_converges_thereAndBack :
    let start := startNode (seededNode.db.getD {}) none
    let A := handleMessages polyCrypto exactFloat (1700000000 + ·) start
      (blockMessages (thereAndBack.take 1))
    let B := handleMessages polyCrypto exactFloat (1700000000 + ·) start
      (blockMessages thereAndBack)
    let r := handleMessage polyCrypto exactFloat (1700000000 + ·) A
      (.blocks (encodeChainPayload B.chain))
    A.chain.length = 2 ∧ B.chain.length = 3 ∧ r.node.chain = B.chain ∧
      (∃ a b, r.node.db = some a ∧ B.db = some b ∧ a.utxos = b.utxos) ∧ r.penalty = false := by
  intro start A B r
  have hclock : Monotone fun n : ℕ => 1700000000 + n := fun _ _ h => Nat.add_le_add_left h _
  obtain ⟨hA, hB, hticks, hclocks⟩ : A.chain = genesis :: thereAndBack.take 1 ∧
      B.chain = genesis :: thereAndBack ∧ A.ticks = 3 ∧
      runClocks polyCrypto exactFloat (1700000000 + ·) start (blockMessages thereAndBack) =
        [1700000000, 1700000003] := by decide +kernel
  have hshort : ∀ b ∈ B.chain, b.serialize.length ≤ 1000 := by
    rw [hB]
    decide +kernel
  have hpre : A.chain <+: B.chain := by
    rw [hA, hB]
    decide +kernel
  have hproper : A.chain ≠ B.chain := by
    rw [hA, hB]
    decide +kernel
  have hlen : B.chain.length = 3 := by
    rw [hB]
    rfl
  have hlimits : ∀ b ∈ B.chain, b.Within ∧ b.serialize.length ≤ maxSerializedBlockSize := by
    intro b hb
    exact ⟨Block.within_of_short (hshort b hb), (hshort b hb).trans (by decide)⟩
  have hle : ∀ c ∈ runClocks polyCrypto exactFloat (1700000000 + ·) start
      (blockMessages thereAndBack), c ≤ 1700000000 + A.ticks := by
    rw [hclocks, hticks]
    decide
  have hsync := sync_converges polyCrypto exactFloat (1700000000 + ·) (1700000000 + ·) hclock
    hclock (seededNode.db.getD {}) (seededNode.db.getD {}) rfl none none
    (blockMessages (thereAndBack.take 1)) (blockMessages thereAndBack) hpre hproper
    (hlen.le.trans (by decide)) hlimits hle
  refine ⟨by rw [hA]; rfl, hlen, ?_⟩
  simp only [r, A, B, start]
  exact hsync

end Mermai
