import Mermai.Node.Agreement

/-!
# Node.Finalized — what a node reports as final

`get_finalized_block` walks down the chain to the highest block whose hash the collector holds for finalized.
Two things could take such an answer back: a hash could leave the collector, or the chain could be another
one.  Neither happens on a node with a database: its chain only grows (`Onward`) and so does the set of
finalized hashes (`finalized_react`).  So along any run the reported blocks stand on one chain, each at or
above the one before (`finalized_forward`).
-/

namespace Mermai

variable {F ι : Type}

/-! ## Chains that only grow -/

/-- The chain has grown block by block, and a database is still there. -/
structure Node.Onward (n n' : Node) : Prop where
  chain : n.chain <+: n'.chain
  stands : Stands Set.univ n.chain → Stands Set.univ n'.chain
  db : n.db.isSome = true → n'.db.isSome = true

theorem Node.Onward.refl (n : Node) : n.Onward n := ⟨List.prefix_refl _, id, id⟩

theorem Node.Onward.trans {n n' n'' : Node} (h : n.Onward n') (h' : n'.Onward n'') : n.Onward n'' :=
  ⟨h.chain.trans h'.chain, fun hs => h'.stands (h.stands hs), fun hd => h'.db (h.db hd)⟩

theorem Node.Frames.onward {n n' : Node} (h : n.Frames n') : n.Onward n' := by
  refine ⟨by rw [h.chain], fun hs => by rw [h.chain]; exact hs, ?_⟩
  intro hdb
  obtain ⟨d, hd⟩ := Option.isSome_iff_exists.mp hdb
  obtain ⟨d', hd', -⟩ := h.db d hd
  rw [hd']
  rfl

section Blocks

variable {C : Crypto} {fl : FloatOps F} {clock : ℕ → ℕ}

theorem isSome_applyStored {now : ℕ} {db : Option Db} {b : Block} (h : db.isSome = true) :
    (applyStored C now db b).2.isSome = true := by
  cases db with
  | none => cases h
  | some db => rfl

theorem Node.onward_acceptBlock (n : Node) (b : Block) : n.Onward (n.acceptBlock C fl clock b).2 := by
  refine ⟨?_, fun hs => hs.acceptBlock (Set.mem_univ b), ?_⟩
  · rcases n.acceptBlock_chain C fl clock b with ⟨-, hchain, -⟩ | ⟨-, hchain⟩
    · rw [hchain]
      exact List.prefix_append _ _
    · rw [hchain]
  · intro hdb
    simp only [Node.acceptBlock]
    split_ifs
    · exact isSome_applyStored hdb
    · exact isSome_applyStored hdb
    · exact hdb

theorem Node.onward_acceptBlocks (blocks : List Block) (n : Node) :
    n.Onward (n.acceptBlocks C fl clock blocks).2 := by
  induction blocks generalizing n with
  | nil => exact .refl n
  | cons b rest ih =>
    rw [Node.acceptBlocks]
    split_ifs
    · exact (n.onward_acceptBlock b).trans (ih _)
    · exact n.onward_acceptBlock b

end Blocks

/-- **One event** of a node with a database. -/
theorem MermaiNode.onward_react {σ : Setup F} {s : MermaiNode F} (hdb : s.node.db.isSome = true)
    (e : MermaiNode.Event) : s.node.Onward (s.react σ e).1.node := by
  obtain ⟨db, hdb⟩ := Option.isSome_iff_exists.mp hdb
  obtain ⟨n, blocks, hn, -, hframe⟩ := MermaiNode.react_ledger σ hdb e
  exact (hn.onward.trans (n.onward_acceptBlocks blocks)).trans hframe.onward

/-! ## Hashes that stay finalized -/

theorem finalized_move {C : Crypto} {fl : FloatOps F} {s s' : FinalityState} {h : Bytes}
    (hfin : h ∈ s.collector.finalizedBlocks) (hmove : StakeMove C fl s s') :
    h ∈ s'.collector.finalizedBlocks := by
  cases hmove with
  | slashed address => exact hfin
  | proposed address timestamp => exact hfin
  | voted vote =>
    rcases addVote_cases C s.validators s.collector vote with ⟨-, heq⟩ | ⟨v, -, -, -, -, -, heq⟩
    · rw [heq]
      exact hfin
    · rw [heq]
      exact QuorumCollector.mem_count_finalized.mpr (.inl hfin)

/-- **One event** keeps what is finalized. -/
theorem MermaiNode.finalized_react {σ : Setup F} {s : MermaiNode F} {e : MermaiNode.Event} {h : Bytes}
    (hfin : h ∈ s.node.finality.collector.finalizedBlocks) :
    h ∈ (s.react σ e).1.node.finality.collector.finalizedBlocks := by
  rcases MermaiNode.react_moves σ s e with hmoves | hreg
  · exact hmoves.invariant (fun s s' => finalized_move) hfin
  · generalize (s.react σ e).1.node.finality = f at hreg
    cases hreg with
    | mk => exact hfin

/-! ## The reported block -/

/-- The block that `get_finalized_block` reports. -/
def MermaiNode.finalizedBlock (C : Crypto) (s : MermaiNode F) : Option Block :=
  Rpc.lastFinalized C s.node.chain s.node.quorum ((getHeight s.node.chain).toInt32.toInt + 1).toNat

theorem MermaiNode.getFinalizedBlock_server (C : Crypto) (s : MermaiNode F) :
    s.server.getFinalizedBlock C = match s.finalizedBlock C with
      | some b => .result (.record
          [⟨"height", .ofNat b.height.toNat, rfl⟩, ⟨"hash", .text (b.hashHex C), rfl⟩])
      | none => .result (.record [⟨"height", .ofNat 0, rfl⟩, ⟨"hash", .text (Merlite.ascii "genesis"), rfl⟩]) :=
  rfl

/-- The collector of a node, asked for a hash. -/
theorem Node.any_isBlockFinalized (n : Node) (h : Bytes) :
    (n.quorum.any fun q => q.isBlockFinalized h) = true ↔ h ∈ n.finality.collector.finalizedBlocks := by
  unfold Node.finality
  cases n.quorum with
  | none => simp [QuorumCollector.empty]
  | some q => simp [QuorumCollector.isBlockFinalized]

/-- The loop reports a finalized block below its start, and none above it is finalized. -/
theorem lastFinalized_eq_some {C : Crypto} {chain : List Block} {quorum : Option QuorumCollector}
    {count : ℕ} (hcount : count ≤ 2 ^ 32) {b : Block} (h : Rpc.lastFinalized C chain quorum count = some b) :
    ∃ k < count, chain[k]? = some b ∧ (quorum.any fun q => q.isBlockFinalized (b.hashHex C)) = true := by
  induction count with
  | zero => cases h
  | succ k ih =>
    have hup : ∀ {c : Block}, (∃ j < k, chain[j]? = some c ∧
        (quorum.any fun q => q.isBlockFinalized (c.hashHex C)) = true) → ∃ j < k + 1, chain[j]? = some c ∧
        (quorum.any fun q => q.isBlockFinalized (c.hashHex C)) = true := by
      rintro c ⟨j, hj, hrest⟩
      exact ⟨j, Nat.lt_succ_of_lt hj, hrest⟩
    have hk : (UInt32.ofNat k).toNat = k := by
      rw [UInt32.toNat_ofNat', Nat.mod_eq_of_lt (by omega)]
    rw [Rpc.lastFinalized] at h
    split at h
    · exact hup (ih (by omega) h)
    · rename_i c hget
      split_ifs at h with hfin
      · cases h
        rw [Mermai.getBlock, hk] at hget
        exact ⟨k, Nat.lt_succ_self k, hget, hfin⟩
      · exact hup (ih (by omega) h)

theorem exists_lastFinalized {C : Crypto} {chain : List Block} {quorum : Option QuorumCollector}
    {count k : ℕ} (hcount : count ≤ 2 ^ 32) (hk : k < count) {b : Block} (hb : chain[k]? = some b)
    (hfin : (quorum.any fun q => q.isBlockFinalized (b.hashHex C)) = true) :
    ∃ c j, Rpc.lastFinalized C chain quorum count = some c ∧ k ≤ j ∧ chain[j]? = some c := by
  induction count with
  | zero => exact absurd hk (Nat.not_lt_zero k)
  | succ n ih =>
    have hn : (UInt32.ofNat n).toNat = n := by
      rw [UInt32.toNat_ofNat', Nat.mod_eq_of_lt (by omega)]
    rw [Rpc.lastFinalized, Mermai.getBlock, hn]
    rcases Nat.lt_succ_iff_lt_or_eq.mp hk with hlt | rfl
    · cases hget : chain[n]? with
      | none => exact ih (by omega) hlt
      | some c =>
        dsimp only
        split_ifs
        · exact ⟨c, n, rfl, hlt.le, hget⟩
        · exact ih (by omega) hlt
    · rw [hb]
      dsimp only
      rw [if_pos hfin]
      exact ⟨b, k, rfl, le_rfl, hb⟩

/-- The loop starts at the tip as long as its height is an `int`. -/
theorem finalized_count {chain : List Block} (hne : chain ≠ []) (hlen : chain.length ≤ 2 ^ 31) :
    ((getHeight chain).toInt32.toInt + 1).toNat = chain.length := by
  have hpos := List.length_pos_iff.mpr hne
  have hheight : (getHeight chain).toNat = chain.length - 1 := by
    rw [getHeight, if_neg hne, UInt32.toNat_ofNat', Nat.mod_eq_of_lt (by omega)]
  have hint : (getHeight chain).toInt32.toInt = (chain.length - 1 : ℕ) := by
    rw [← hheight]
    show (getHeight chain).toBitVec.toInt = _
    rw [BitVec.toInt_eq_toNat_of_lt]
    · rfl
    · show 2 * (getHeight chain).toNat < 2 ^ 32
      omega
  rw [hint]
  omega

/-! ## Runs -/

variable [DecidableEq ι]

/-- The block that a node reports behind a run. -/
def finalizedAfter (σ : ι → Setup F) (start : ι → MermaiNode F) (acts : Acts ι) (i : ι) : Option Block :=
  ((networkRun σ start acts).state i).finalizedBlock (σ i).crypto

section Runs

variable {σ : ι → Setup F} {start : ι → MermaiNode F} {acts : Acts ι}

variable (σ) in
/-- **Run**: the chain of a node only grows, and what is finalized stays finalized. -/
theorem onward_network {i : ι} (hdb : (start i).node.db.isSome = true) {pre later : Acts ι}
    (hpre : pre <+: later) :
    let s := (networkRun σ start pre).state i
    let t := (networkRun σ start later).state i
    s.node.Onward t.node ∧ t.node.db.isSome = true ∧
      s.node.finality.collector.finalizedBlocks ⊆ t.node.finality.collector.finalizedBlocks := by
  have hstep : ∀ (acts : Acts ι) (a : ι × MermaiNode.Event),
      ((networkRun σ start acts).state i).node.db.isSome = true →
      let s := (networkRun σ start acts).state i
      let t := (networkRun σ start (acts ++ [a])).state i
      s.node.Onward t.node ∧
        s.node.finality.collector.finalizedBlocks ⊆ t.node.finality.collector.finalizedBlocks := by
    intro acts a hacts
    dsimp only
    rw [networkRun_concat]
    obtain ⟨j, e⟩ := a
    by_cases hi : i = j
    · subst hi
      rw [Network.Protocol.step_state_self]
      exact ⟨MermaiNode.onward_react hacts e, fun h hfin => MermaiNode.finalized_react hfin⟩
    · rw [Network.Protocol.step_state_ne _ hi]
      exact ⟨.refl _, subset_rfl⟩
  have hsome : ∀ acts : Acts ι, ((networkRun σ start acts).state i).node.db.isSome = true := by
    intro acts
    induction acts using List.reverseRecOn with
    | nil => exact hdb
    | append_singleton acts a ih => exact (hstep acts a ih).1.db ih
  obtain ⟨rest, rfl⟩ := hpre
  induction rest using List.reverseRecOn with
  | nil =>
    rw [List.append_nil]
    exact ⟨.refl _, hsome pre, subset_rfl⟩
  | append_singleton rest a ih =>
    obtain ⟨honward, -, hsubset⟩ := ih
    obtain ⟨honward', hsubset'⟩ := hstep (pre ++ rest) a (hsome _)
    rw [← List.append_assoc]
    exact ⟨honward.trans honward', hsome _, hsubset.trans hsubset'⟩

/-- **Reports go forward**: nodes with databases start with the genesis block, and no chain of the run is
longer than an `int` can count.  When a node reports a finalized block, then whatever arrives in whatever
order, its chain keeps that block at its height, and from then on it reports one at or above it. -/
theorem finalized_forward (σ : ι → Setup F) (start : ι → MermaiNode F)
    (hdb : ∀ i, (start i).node.db.isSome = true) (hchain : ∀ i, (start i).node.chain = [genesis])
    (acts : Acts ι) (hshort : ∀ i, (chainAfter σ start acts i).length ≤ 2 ^ 31) (pre later : Acts ι)
    (hpre : pre <+: later) (hlater : later <+: acts) (i : ι) (b : Block)
    (hb : finalizedAfter σ start pre i = some b) :
    ∃ c, finalizedAfter σ start later i = some c ∧ b.height ≤ c.height ∧
      (chainAfter σ start later i)[b.height.toNat]? = some b ∧
      (chainAfter σ start later i)[c.height.toNat]? = some c := by
  have hstands : ∀ acts, Stands Set.univ (chainAfter σ start acts i) := by
    intro acts
    refine (onward_network σ (hdb i) (@List.nil_prefix _ acts)).1.stands ?_
    show Stands Set.univ (start i).node.chain
    rw [hchain i]
    exact stands_genesis (Set.mem_univ _)
  have hcount : ∀ {acts' : Acts ι}, acts' <+: acts → ((getHeight (chainAfter σ start acts' i)).toInt32.toInt +
      1).toNat = (chainAfter σ start acts' i).length ∧ (chainAfter σ start acts' i).length ≤ 2 ^ 31 := by
    intro acts' hacts
    have hlen := (onward_network σ (hdb i) hacts).1.chain.length_le.trans (hshort i)
    exact ⟨finalized_count (hstands acts').ne_nil hlen, hlen⟩
  obtain ⟨honward, -, hsubset⟩ := onward_network σ (hdb i) hpre
  -- the block and its height before
  obtain ⟨hcount₁, hlen₁⟩ := hcount (hpre.trans hlater)
  rw [finalizedAfter, MermaiNode.finalizedBlock] at hb
  change Rpc.lastFinalized _ (chainAfter σ start pre i) _ ((getHeight (chainAfter σ start pre i)).toInt32.toInt +
    1).toNat = some b at hb
  rw [hcount₁] at hb
  obtain ⟨k, hk, hget, hfin⟩ := lastFinalized_eq_some (by omega) hb
  have hheight := ((hstands pre).blocks k b hget).2
  -- the block and the answer behind
  obtain ⟨hcount₂, hlen₂⟩ := hcount hlater
  have hget' : (chainAfter σ start later i)[k]? = some b := getElem?_longer honward.chain hget
  have hk' : k < (chainAfter σ start later i).length := (List.getElem?_eq_some_iff.mp hget').1
  have hfin' := (Node.any_isBlockFinalized _ _).mpr (hsubset ((Node.any_isBlockFinalized _ _).mp hfin))
  obtain ⟨c, j, hlast, hle, hc⟩ := exists_lastFinalized (by omega) hk' hget' hfin'
  have hheight' := ((hstands later).blocks j c hc).2
  refine ⟨c, ?_, ?_, ?_, ?_⟩
  · rw [finalizedAfter, MermaiNode.finalizedBlock]
    change Rpc.lastFinalized _ (chainAfter σ start later i) _
      ((getHeight (chainAfter σ start later i)).toInt32.toInt + 1).toNat = some c
    rw [hcount₂]
    exact hlast
  · rw [UInt32.le_iff_toNat_le, hheight, hheight']
    exact hle
  · rw [hheight]
    exact hget'
  · rw [hheight']
    exact hc

end Runs

/-- A node finalizes the genesis block, makes a block and finalizes that. -/
def sampleFinality : Acts Bool :=
  [(false, .received 0 .incoming (voteMessage (polyVote [118] [7] (genesis.hashHex polyCrypto)))),
    (false, .consensusRound),
    (false, .received 0 .incoming (voteMessage (polyVote [118] [7] (sampleBlock.hashHex polyCrypto))))]

theorem finalized_forward_sample :
    finalizedAfter (fun _ => sampleSetup) (fun _ => sampleNode) (sampleFinality.take 1) false = some genesis ∧
      ∃ c, finalizedAfter (fun _ => sampleSetup) (fun _ => sampleNode) sampleFinality false = some c ∧
        genesis.height ≤ c.height ∧
        (chainAfter (fun _ => sampleSetup) (fun _ => sampleNode) sampleFinality false)[0]? = some genesis ∧
        (chainAfter (fun _ => sampleSetup) (fun _ => sampleNode) sampleFinality false)[c.height.toNat]? =
          some c := by
  have hfirst : finalizedAfter (fun _ => sampleSetup) (fun _ => sampleNode) (sampleFinality.take 1) false =
      some genesis := by decide +kernel
  have hshort : ∀ i, (chainAfter (fun _ => sampleSetup) (fun _ => sampleNode) sampleFinality i).length ≤
      2 ^ 31 := by decide +kernel
  exact ⟨hfirst, finalized_forward (fun _ => sampleSetup) (fun _ => sampleNode) (fun _ => rfl) (fun _ => rfl)
    sampleFinality hshort (sampleFinality.take 1) sampleFinality (List.take_prefix 1 sampleFinality)
    (List.prefix_refl _) false genesis hfirst⟩

end Mermai
