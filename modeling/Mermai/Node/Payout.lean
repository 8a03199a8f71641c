import Mermai.Node.Agreement
import Mermai.Node.Coins

/-!
# Node.Payout — what the rounds of a node pay

`finalize_block` of the engine is called in one place, behind the `add_block` of `consensus_loop`: a node pays
for the blocks of its own rounds and for no others.  These blocks have no transactions, so what is due is the
base reward of the height; and they stand at different heights of the node's own chain, because the chain
only grows.  So the pending rewards of a run are the base rewards of blocks that the node made, for whatever
address, and stay below the emission of its chain (`rewards_accounted`): the sums of 64 bits never wrap.
-/

namespace Mermai

variable {F ι : Type}

/-! ## Base rewards of blocks -/

/-- The base rewards of a list of blocks. -/
def baseRewards (blocks : List Block) : ℕ := (blocks.map fun b => (getBaseReward b.height).toNat).sum

/-- The base rewards that blocks pay to an address. -/
def rewardsOf (a : Bytes) (blocks : List Block) : ℕ :=
  baseRewards (blocks.filter fun b => b.validatorAddress = a)

theorem baseRewards_append (blocks blocks' : List Block) :
    baseRewards (blocks ++ blocks') = baseRewards blocks + baseRewards blocks' := by
  rw [baseRewards, List.map_append, List.sum_append]
  rfl

theorem rewardsOf_append (a : Bytes) (blocks blocks' : List Block) :
    rewardsOf a (blocks ++ blocks') = rewardsOf a blocks + rewardsOf a blocks' := by
  rw [rewardsOf, List.filter_append, baseRewards_append]
  rfl

theorem baseRewards_sublist {blocks blocks' : List Block} (h : blocks.Sublist blocks') :
    baseRewards blocks ≤ baseRewards blocks' :=
  (h.map _).sum_le_sum fun _ _ => Nat.zero_le _

theorem rewardsOf_le (a : Bytes) (blocks : List Block) : rewardsOf a blocks ≤ baseRewards blocks :=
  baseRewards_sublist List.filter_sublist

/-- A chain whose blocks stand at their heights pays the emission of its length. -/
theorem baseRewards_chain {chain : List Block}
    (h : ∀ (k : ℕ) (b : Block), chain[k]? = some b → b.height.toNat = k) :
    baseRewards chain = emission chain.length := by
  induction chain using List.reverseRecOn with
  | nil => rfl
  | append_singleton chain b ih =>
    have hb : b.height.toNat = chain.length := h _ _ List.getElem?_concat_length
    have hheight : UInt32.ofNat chain.length = b.height := by rw [← hb, UInt32.ofNat_toNat]
    have hlast : baseRewards [b] = (getBaseReward b.height).toNat := by simp [baseRewards]
    rw [baseRewards_append, ih fun k c hc => h k c (getElem?_longer (List.prefix_append chain [b]) hc),
      hlast, List.length_append, List.length_singleton, emission, emission, Finset.sum_range_succ, hheight]

theorem emission_lt {n : ℕ} (hn : n ≤ 2 ^ 32) : emission n < 21000000000000 := by
  rcases le_total lastReward n with hlast | hlast
  · rw [emission_stays hlast hn]
    exact emission_lastReward
  · exact (Finset.sum_le_sum_of_subset (Finset.range_mono hlast)).trans_lt emission_lastReward

theorem Stands.baseRewards_lt {S : Set Block} {chain blocks : List Block} (h : Stands S chain)
    (hsub : blocks.Sublist chain) : baseRewards blocks < 21000000000000 := by
  have hchain := baseRewards_chain fun k b hb => (h.blocks k b hb).2
  have hle := baseRewards_sublist hsub
  rw [hchain] at hle
  exact hle.trans_lt (emission_lt h.length_le)

/-! ## Events -/

namespace MermaiNode

variable {σ : Setup F} {s : MermaiNode F}

/-- `get_pending_rewards` of the engine of the node. -/
def getPendingRewards (s : MermaiNode F) (a : Bytes) : UInt64 :=
  RewardEngine.getPendingRewards { pendingRewards := s.pendingRewards } a

theorem pending_connectToPeer (address : Bytes) (port : UInt16) :
    (s.connectToPeer σ address port).1.pendingRewards = s.pendingRewards := by
  unfold connectToPeer
  split_ifs
  · rfl
  · rfl

/-- `finalize_block` pays the base reward of a block without transactions. -/
theorem getPendingRewards_finalize {b : Block} (hengine : s.node.engine.isSome)
    (hb : b.transactions = []) (a : Bytes) :
    (s.finalize b).getPendingRewards a = s.getPendingRewards a + UInt64.ofNat (rewardsOf a [b]) := by
  obtain ⟨e, he⟩ := Option.isSome_iff_exists.mp hengine
  have hpay := RewardEngine.getPendingRewards_finalizeBlock ⟨e.activeValidators, s.pendingRewards⟩ b
    b.validatorAddress a
  have hdue : dueReward b = (getBaseReward b.height).toNat := by simp [dueReward, feeSum, hb]
  have hstate : (s.finalize b).getPendingRewards a =
      (RewardEngine.finalizeBlock ⟨e.activeValidators, s.pendingRewards⟩ (some b)
        b.validatorAddress).getPendingRewards a := by
    unfold finalize
    split
    · rename_i hnone
      rw [he] at hnone
      cases hnone
    · rename_i e' he'
      rw [he] at he'
      cases he'
      rfl
  rw [hstate, hpay, hdue]
  by_cases ha : b.validatorAddress = a
  · rw [if_pos ha.symm]
    simp [rewardsOf, baseRewards, ha]
    rfl
  · rw [if_neg (Ne.symm ha)]
    simp [rewardsOf, baseRewards, ha]
    rfl

/-- **Inversion** of an event for the pending rewards: it pays for what it makes. -/
theorem pending_react (σ : Setup F) (s : MermaiNode F) (e : Event) (a : Bytes) :
    (s.react σ e).1.getPendingRewards a =
      s.getPendingRewards a + UInt64.ofNat (rewardsOf a (s.made σ e)) := by
  have hkeep : ∀ s' : MermaiNode F, s'.pendingRewards = s.pendingRewards →
      s'.getPendingRewards a = s.getPendingRewards a + UInt64.ofNat (rewardsOf a []) := by
    intro s' hs'
    rw [getPendingRewards, hs']
    exact (UInt64.add_zero _).symm
  cases e with
  | connectToPeer address port => exact hkeep _ (pending_connectToPeer address port)
  | accepted ip socket =>
    simp only [react, accept]
    split_ifs
    · exact hkeep _ rfl
    · exact hkeep _ rfl
  | received place loop m =>
    simp only [react, receive]
    split
    · exact hkeep _ rfl
    · exact hkeep _ rfl
  | requested now clock fuel data =>
    simp only [react, request]
    split_ifs
    · exact hkeep _ rfl
    · split
      · exact hkeep _ rfl
      · exact hkeep _ rfl
  | syncRound reachable =>
    simp only [react, syncRound]
    split_ifs
    · exact hkeep _ (pending_connectToPeer _ _)
    · exact hkeep _ rfl
  | consensusRound =>
    simp only [react, consensusRound, made]
    cases hb : s.assembled σ with
    | none => exact hkeep _ rfl
    | some b =>
      show (s.produce σ b).1.getPendingRewards a = _
      rw [produce]
      cases hok : (s.tick.node.acceptBlock σ.crypto σ.floats.toFloatOps σ.clock b).1 with
      | false =>
        rw [if_neg Bool.false_ne_true, Option.toList_some, List.filter_singleton, hok]
        exact hkeep _ rfl
      | true =>
        obtain ⟨eng, heng, hassemble⟩ := Option.bind_eq_some_iff.mp hb
        have hengine : (s.tick.node.acceptBlock σ.crypto σ.floats.toFloatOps σ.clock b).2.engine.isSome := by
          have hran : RanTo σ.crypto σ.floats.toFloatOps s.tick.node.engine
              (s.tick.node.acceptBlock σ.crypto σ.floats.toFloatOps σ.clock b).2.engine :=
            (s.tick.node.proposes_acceptBlock b).engine
          rw [show s.tick.node.engine = some eng from heng] at hran
          generalize (s.tick.node.acceptBlock σ.crypto σ.floats.toFloatOps σ.clock b).2.engine = eng' at hran
          cases hran
          rfl
        rw [if_pos rfl, Option.toList_some, List.filter_singleton, hok]
        exact getPendingRewards_finalize hengine (assembleBlock_transactions hassemble) a

/-- **One event** of a node with a database extends the chain by what it makes, at least. -/
theorem grows_react (hclock : Monotone σ.clock) {db : Db} (hdb : s.node.db = some db)
    (h : Stands Set.univ s.node.chain) (e : Event) :
    (∃ db', (s.react σ e).1.node.db = some db') ∧ Stands Set.univ (s.react σ e).1.node.chain ∧
      ∃ added, (s.react σ e).1.node.chain = s.node.chain ++ added ∧ (s.made σ e).Sublist added := by
  obtain ⟨added, hpays⟩ := pays_react hclock hdb e
  obtain ⟨db', hdb', -⟩ := hpays.utxos db hdb
  refine ⟨⟨db', hdb'⟩, ?_, ?_⟩
  · obtain ⟨n, blocks, hn, -, hframe⟩ := react_ledger σ hdb e
    rw [hframe.chain]
    exact Stands.acceptBlocks (by rw [hn.chain]; exact h) fun b _ => Set.mem_univ b
  · cases hmade : s.made σ e with
    | nil => exact ⟨added, hpays.chain, List.nil_sublist _⟩
    | cons b rest =>
      have hb : b ∈ s.made σ e := by
        rw [hmade]
        exact List.mem_cons_self
      have hone : s.made σ e = [b] := by
        have hlen : (s.made σ e).length ≤ 1 := by
          cases e with
          | consensusRound => exact (List.length_filter_le _ _).trans (by cases s.assembled σ <;> simp)
          | _ => exact Nat.zero_le _
        rw [hmade] at hlen ⊢
        rw [List.length_eq_zero_iff.mp (Nat.le_zero.mp (Nat.le_of_succ_le_succ hlen))]
      rw [← hmade, hone]
      exact ⟨[b], (chain_of_made hb).1, List.Sublist.refl _⟩

end MermaiNode

/-! ## Runs -/

section Runs

variable [DecidableEq ι]

/-- The blocks that the rounds of one node made. -/
def madeBy (σ : ι → Setup F) (start : ι → MermaiNode F) (acts : Acts ι) (i : ι) : List Block :=
  (network σ).trace (fun j s e => if j = i then MermaiNode.made (σ j) s e else []) ⟨start, []⟩ acts

variable {σ : ι → Setup F} {start : ι → MermaiNode F}

/-- **Step and run**: a node's own blocks are on its chain, and it has paid for them. -/
theorem paid_network (hclock : ∀ i, Monotone (σ i).clock) (hdb : ∀ i, ∃ db, (start i).node.db = some db)
    (hchain : ∀ i, (start i).node.chain = [genesis]) (hpending : ∀ i, (start i).pendingRewards = ∅)
    (acts : Acts ι) (i : ι) :
    let s := (networkRun σ start acts).state i
    (∃ db, s.node.db = some db) ∧ Stands Set.univ s.node.chain ∧
      (madeBy σ start acts i).Sublist s.node.chain ∧
      ∀ a, s.getPendingRewards a = UInt64.ofNat (rewardsOf a (madeBy σ start acts i)) := by
  induction acts using List.reverseRecOn with
  | nil =>
    refine ⟨hdb i, ?_, List.nil_sublist _, fun a => ?_⟩
    · show Stands Set.univ (start i).node.chain
      rw [hchain i]
      exact stands_genesis (Set.mem_univ _)
    · show (start i).getPendingRewards a = _
      rw [MermaiNode.getPendingRewards, hpending i]
      rfl
  | append_singleton acts act ih =>
    obtain ⟨j, e⟩ := act
    obtain ⟨⟨db, hdb'⟩, hstands, hsub, hpaid⟩ := ih
    have htrace : madeBy σ start (acts ++ [(j, e)]) i = madeBy σ start acts i ++
        if j = i then MermaiNode.made (σ j) ((networkRun σ start acts).state j) e else [] :=
      Network.Protocol.trace_concat _ _ _ _
    intro s
    have hs : s = ((network σ).step (networkRun σ start acts) (j, e)).state i := by
      rw [← networkRun_concat]
    by_cases hj : j = i
    · subst hj
      rw [Network.Protocol.step_state_self] at hs
      rw [if_pos rfl] at htrace
      obtain ⟨hsome, hnext, added, hadded, hmade⟩ := MermaiNode.grows_react (hclock j) hdb' hstands e
      rw [htrace, hs]
      refine ⟨hsome, hnext, ?_, fun a => ?_⟩
      · show List.Sublist _ (MermaiNode.react _ _ _).1.node.chain
        rw [hadded]
        exact hsub.append hmade
      · show (MermaiNode.react _ _ _).1.getPendingRewards a = _
        rw [MermaiNode.pending_react, hpaid a, rewardsOf_append, UInt64.ofNat_add]
    · rw [Network.Protocol.step_state_ne _ (Ne.symm hj)] at hs
      rw [if_neg hj, List.append_nil] at htrace
      rw [htrace, hs]
      exact ⟨⟨db, hdb'⟩, hstands, hsub, hpaid⟩

end Runs

/-- **Rewards are accounted for**: nodes start with a database, the genesis block and no pending rewards, and
their clocks do not run back.  Whatever arrives in whatever order and whoever made it up, the blocks that the
rounds of a node made are on its chain, their base rewards stay below 21·10¹², and the pending rewards of an
address are exactly the base rewards of those that name it: nothing wraps, and no block of another node pays.
So no event makes them fall. -/
theorem rewards_accounted [DecidableEq ι] (σ : ι → Setup F) (start : ι → MermaiNode F)
    (hclock : ∀ i, Monotone (σ i).clock) (hdb : ∀ i, ∃ db, (start i).node.db = some db)
    (hchain : ∀ i, (start i).node.chain = [genesis]) (hpending : ∀ i, (start i).pendingRewards = ∅)
    (acts : Acts ι) (i : ι) :
    (madeBy σ start acts i).Sublist (chainAfter σ start acts i) ∧
      baseRewards (madeBy σ start acts i) < 21000000000000 ∧
      (∀ a, (((networkRun σ start acts).state i).getPendingRewards a).toNat =
        rewardsOf a (madeBy σ start acts i)) ∧
      ∀ pre, pre <+: acts → ∀ a, ((networkRun σ start pre).state i).getPendingRewards a ≤
        ((networkRun σ start acts).state i).getPendingRewards a := by
  have hexact : ∀ acts : Acts ι, (madeBy σ start acts i).Sublist (chainAfter σ start acts i) ∧
      baseRewards (madeBy σ start acts i) < 21000000000000 ∧
      ∀ a, (((networkRun σ start acts).state i).getPendingRewards a).toNat =
        rewardsOf a (madeBy σ start acts i) := by
    intro acts
    obtain ⟨-, hstands, hsub, hpaid⟩ := paid_network hclock hdb hchain hpending acts i
    have hlt := hstands.baseRewards_lt hsub
    refine ⟨hsub, hlt, fun a => ?_⟩
    have hle := rewardsOf_le a (madeBy σ start acts i)
    rw [hpaid a, UInt64.toNat_ofNat_of_lt']
    exact (hle.trans_lt hlt).trans (by decide)
  obtain ⟨hsub, hlt, heq⟩ := hexact acts
  refine ⟨hsub, hlt, heq, ?_⟩
  intro pre hpre a
  obtain ⟨rest, rfl⟩ := hpre
  rw [UInt64.le_iff_toNat_le, (hexact pre).2.2 a, heq a]
  induction rest using List.reverseRecOn with
  | nil => rw [List.append_nil]
  | append_singleton rest act ih =>
    refine (ih (hexact _).1 (hexact _).2.1 (hexact _).2.2).trans ?_
    rw [← List.append_assoc, madeBy, madeBy, Network.Protocol.trace_concat, rewardsOf_append]
    exact Nat.le_add_right _ _

/-- Two nodes make a block of height 1 each, and one of them gets that of the other. -/
theorem rewards_accounted_sample :
    let acts : Acts Bool := [(false, .consensusRound), (true, .consensusRound),
      (true, .received 0 .incoming (blockMessage sampleBlock))]
    ∀ i, (((networkRun (fun _ => sampleSetup) (fun _ => sampleNode) acts).state i).getPendingRewards
      [118]).toNat = 50000000 := by
  intro acts i
  have hclock : Monotone fun n : ℕ => 1640000013 + n := fun _ _ h => Nat.add_le_add_left h _
  obtain ⟨-, -, hpaid, -⟩ := rewards_accounted (fun _ : Bool => sampleSetup) (fun _ => sampleNode)
    (fun _ => hclock) (fun _ => ⟨_, rfl⟩) (fun _ => rfl) (fun _ => rfl) acts i
  rw [hpaid]
  have hpay : ∀ i, rewardsOf [118] (madeBy (fun _ => sampleSetup) (fun _ => sampleNode) acts i) =
      50000000 := by decide +kernel
  exact hpay i

end Mermai
