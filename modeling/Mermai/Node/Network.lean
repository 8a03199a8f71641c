import Mermai.Lib.Network
import Mermai.Node.Process
import Mermai.Vm.Gas

/-!
# Node.Network — nodes that send each other messages

The parties are whole nodes and the messages are those of the peer-to-peer protocol.  What a connection that
ends leaves behind is a message without payload (`receive_message`), so such a message may come from nowhere;
any other is delivered only when some node sent it, in any order, to any node, any number of times or never.

Nothing of that is needed for the ledger of one node: whatever messages arrive at it between its requests and
its rounds, its chain only grows and its three views agree (`views_in_network`).
-/

namespace Mermai

open Merlite (ascii)

variable {F ι : Type}

/-- The nodes of a network. -/
def network (σ : ι → Setup F) : Network.Protocol ι (MermaiNode F) MermaiNode.Event P2PMessage where
  react i s e := s.react (σ i) e
  delivers
    | .received _ _ m => if m.payload = [] then none else some m
    | _ => none

/-- A run of the network: a node and an event of it, one after another. -/
abbrev Acts (ι : Type) := List (ι × MermaiNode.Event)

variable [DecidableEq ι]

/-- The network behind a run. -/
def networkRun (σ : ι → Setup F) (start : ι → MermaiNode F) (acts : Acts ι) :
    Network.World ι (MermaiNode F) P2PMessage :=
  (network σ).run ⟨start, []⟩ acts

theorem networkRun_concat (σ : ι → Setup F) (start : ι → MermaiNode F) (acts : Acts ι)
    (a : ι × MermaiNode.Event) :
    networkRun σ start (acts ++ [a]) = (network σ).step (networkRun σ start acts) a :=
  Network.Protocol.run_concat _ _ _

/-- The chain of a node behind a run. -/
def chainAfter (σ : ι → Setup F) (start : ι → MermaiNode F) (acts : Acts ι) (i : ι) : List Block :=
  ((networkRun σ start acts).state i).node.chain

/-- The encodings of the blocks that the events of a run present to their nodes. -/
def presentedAfter (σ : ι → Setup F) (start : ι → MermaiNode F) (acts : Acts ι) : Set Bytes :=
  {s | ∃ b ∈ (network σ).trace (fun i n e => MermaiNode.Event.presents (σ i) n e) ⟨start, []⟩ acts,
    s = b.serialize}

section Ledger

variable {σ : ι → Setup F} {C : Crypto} {start : ι → MermaiNode F} {utxos₀ : ι → Utxos}

/-- **Step and run**: the views of every node are in step behind every part of a run. -/
theorem inStep_network (hC : ∀ i, (σ i).crypto = C) (hclock : ∀ i, Monotone (σ i).clock)
    {acts : Acts ι} (hfree : C.CollisionFreeOn (presentedAfter σ start acts))
    (hstart : ∀ i, (start i).node.InStep C (σ i).clock (utxos₀ i) (presentedAfter σ start acts))
    {pre : Acts ι} (hpre : pre <+: acts) (i : ι) :
    ((networkRun σ start pre).state i).node.InStep C (σ i).clock (utxos₀ i)
      (presentedAfter σ start acts) := by
  rw [networkRun, Network.Protocol.run]
  refine Run.foldl_invariant
    (fun w : Network.World ι (MermaiNode F) P2PMessage =>
      ∀ k, (w.state k).node.InStep C (σ k).clock (utxos₀ k) (presentedAfter σ start acts))
    hstart ?_ hpre i
  rintro pre ⟨j, e⟩ hpre ih k
  by_cases hk : k = j
  · subst hk
    rw [Network.Protocol.step_state_self]
    have hevent := @MermaiNode.InStep.react _ (σ k) (hclock k) (utxos₀ k) (presentedAfter σ start acts)
      (by rw [hC]; exact hfree) ((networkRun σ start pre).state k) (by rw [hC]; exact ih k) e
      (fun b hb => ⟨b, Network.Protocol.mem_trace hpre hb, rfl⟩)
    rw [hC] at hevent
    exact hevent.1
  · rw [Network.Protocol.step_state_ne _ hk]
    exact ih k

/-- One more event extends the chain of every node. -/
theorem chainAfter_concat (hC : ∀ i, (σ i).crypto = C) (hclock : ∀ i, Monotone (σ i).clock)
    {acts : Acts ι} (hfree : C.CollisionFreeOn (presentedAfter σ start acts))
    (hstart : ∀ i, (start i).node.InStep C (σ i).clock (utxos₀ i) (presentedAfter σ start acts))
    {pre : Acts ι} {a : ι × MermaiNode.Event} (hpre : pre ++ [a] <+: acts) (i : ι) :
    chainAfter σ start pre i <+: chainAfter σ start (pre ++ [a]) i := by
  obtain ⟨j, e⟩ := a
  have hin := inStep_network hC hclock hfree hstart ((List.prefix_append pre _).trans hpre) i
  rw [chainAfter, chainAfter, networkRun_concat]
  by_cases hi : i = j
  · subst hi
    rw [Network.Protocol.step_state_self]
    exact (@MermaiNode.InStep.react _ (σ i) (hclock i) (utxos₀ i) (presentedAfter σ start acts)
      (by rw [hC]; exact hfree) ((networkRun σ start pre).state i) (by rw [hC]; exact hin) e
      (fun b hb => ⟨b, Network.Protocol.mem_trace hpre hb, rfl⟩)).2
  · rw [Network.Protocol.step_state_ne _ hi]

end Ledger

/-- **Views in a network**: for new nodes with databases, whatever messages arrive between their requests,
rounds and connections, and whoever made them up, the chain of a node only ever grows, its blocks table
agrees with the chain, and its outputs are those that the transactions of the chain make of the table of
the start.  So two nodes that hold different blocks at one height hold them for ever. -/
theorem views_in_network (σ : ι → Setup F) (C : Crypto) (hC : ∀ i, (σ i).crypto = C)
    (hclock : ∀ i, Monotone (σ i).clock) (start : ι → MermaiNode F) (db : ι → Db)
    (eng : ι → Option Engine) (quorum : ι → Option QuorumCollector)
    (hstart : ∀ i, (start i).node = freshNode (db i) (eng i) (quorum i)) (acts : Acts ι)
    (hfree : C.CollisionFreeOn (presentedAfter σ start acts)) :
    (∀ pre later, pre <+: later → later <+: acts → ∀ i,
      chainAfter σ start pre i <+: chainAfter σ start later i) ∧
    ∀ i, let s := (networkRun σ start acts).state i
      ∃ db', s.node.db = some db' ∧ BlocksAgree s.node.chain db'.blocks ∧
        applyTransactions C ((σ i).clock s.node.ticks) (db i).utxos
          (s.node.chain.tail.flatMap Block.transactions) = some db'.utxos := by
  have hstart' : ∀ i, (start i).node.InStep C (σ i).clock (db i).utxos (presentedAfter σ start acts) := by
    intro i
    rw [hstart i]
    exact freshNode_inStep C _ _ (db i) (eng i) (quorum i)
  refine ⟨?_, ?_⟩
  · intro pre later hpre hlater i
    obtain ⟨rest, rfl⟩ := hpre
    induction rest using List.reverseRecOn with
    | nil => simp
    | append_singleton rest a ih =>
      rw [← List.append_assoc] at hlater ⊢
      exact (ih ((List.prefix_append _ [a]).trans hlater)).trans
        (chainAfter_concat hC hclock hfree hstart' hlater i)
  · intro i s
    obtain ⟨db', hdb', hin⟩ := inStep_network hC hclock hfree hstart' (List.prefix_refl acts) i
    exact ⟨db', hdb', hin.agree, hin.utxos⟩

/-! ## Two nodes -/

/-- A setup with the toy cryptography and exact weights. -/
def sampleSetup : Setup ℚ :=
  ⟨polyCrypto, Vm.explorerGas, Rpc.exactText, ⟨[110], 6333⟩, (1640000013 + ·)⟩

/-- A new node with one validator. -/
def sampleNode : MermaiNode ℚ :=
  { node := freshNode {} (some ⟨[keylessValidator], fun _ => none⟩) (some .empty) }

/-- The block that a sample node makes over the genesis block. -/
def sampleBlock : Block :=
  (nextBlock polyCrypto [genesis] genesis 1640000010 [118]).fillValidator 1640000010 keylessValidator

/-- One node makes a block, the other gets it twice, and a message of an unknown type and a request between. -/
def sampleActs : Acts Bool :=
  [(false, .consensusRound), (true, .received 0 .incoming (blockMessage sampleBlock)),
    (true, .received 0 .connected ⟨0x12, [1]⟩), (false, .syncRound true),
    (true, .requested 1640000020 (fun _ => 0) 5 (ascii "\x7b\"method\":\"mrm_blockNumber\"\x7d")),
    (true, .received 0 .incoming (blockMessage sampleBlock))]

theorem views_in_network_sample :
    chainAfter (fun _ => sampleSetup) (fun _ => sampleNode) sampleActs true = [genesis, sampleBlock] ∧
      ∃ db, ((networkRun (fun _ => sampleSetup) (fun _ => sampleNode) sampleActs).state true).node.db =
        some db ∧ BlocksAgree [genesis, sampleBlock] db.blocks := by
  have htrace : (network fun _ : Bool => sampleSetup).trace
      (fun _ n e => MermaiNode.Event.presents sampleSetup n e) ⟨fun _ => sampleNode, []⟩ sampleActs =
      [sampleBlock, sampleBlock, sampleBlock] := by decide +kernel
  have hfree : polyCrypto.CollisionFreeOn
      (presentedAfter (fun _ => sampleSetup) (fun _ => sampleNode) sampleActs) := by
    rintro s ⟨b, hb, rfl⟩ s' ⟨b', hb', rfl⟩ -
    rw [htrace] at hb hb'
    have heq : ∀ c ∈ [sampleBlock, sampleBlock, sampleBlock], c = sampleBlock := by simp
    rw [heq b hb, heq b' hb']
  have hclock : Monotone fun n : ℕ => 1640000013 + n := fun _ _ h => Nat.add_le_add_left h _
  have hchain : chainAfter (fun _ => sampleSetup) (fun _ => sampleNode) sampleActs true =
      [genesis, sampleBlock] := by decide +kernel
  obtain ⟨-, hviews⟩ := views_in_network (fun _ => sampleSetup) polyCrypto (fun _ => rfl)
    (fun _ => hclock) (fun _ => sampleNode) (fun _ => {})
    (fun _ => some ⟨[keylessValidator], fun _ => none⟩) (fun _ => some .empty) (fun _ => rfl) sampleActs hfree
  obtain ⟨db, hdb, hagree, -⟩ := hviews true
  refine ⟨hchain, db, hdb, ?_⟩
  rw [← hchain]
  exact hagree

end Mermai
