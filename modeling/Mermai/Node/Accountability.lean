import Mermai.Node.Network
import Mermai.Node.Stakes

/-!
# Node.Accountability — finality across nodes

Nodes that start with the same validators count votes and slash on their own, so their totals drift apart,
and nothing keeps two of them from finalizing different blocks.  What they cannot do is hide it: behind every
event the votes a node stores are signed for the keys of the start, and the stake of the start behind a
finalized hash is two thirds of what the node has not slashed (`Backs`).  Two finalized hashes, of any two
nodes, therefore leave signed votes for both hashes of a third of the stake, less what was slashed
(`accountable`).
-/

namespace Mermai

variable {F ι : Type}

/-! ## Validators that lost stake -/

/-- The validator under its address and key, with no more stake than at the start. -/
structure ValidatorStake.Shrunk (v v₀ : ValidatorStake) : Prop where
  address : v.address = v₀.address
  publicKey : v.publicKey = v₀.publicKey
  stake : v.stake ≤ v₀.stake

theorem ValidatorStake.Shrunk.refl (v : ValidatorStake) : v.Shrunk v := ⟨rfl, rfl, le_rfl⟩

theorem ValidatorStake.Shrunk.trans {v v' v'' : ValidatorStake} (h : v.Shrunk v') (h' : v'.Shrunk v'') :
    v.Shrunk v'' :=
  ⟨h.address.trans h'.address, h.publicKey.trans h'.publicKey, h.stake.trans h'.stake⟩

theorem forall₂_shrunk_refl (vs : List ValidatorStake) : List.Forall₂ ValidatorStake.Shrunk vs vs :=
  List.forall₂_same.mpr fun v _ => .refl v

theorem forall₂_shrunk_trans {vs vs' vs'' : List ValidatorStake}
    (h : List.Forall₂ ValidatorStake.Shrunk vs vs') (h' : List.Forall₂ ValidatorStake.Shrunk vs' vs'') :
    List.Forall₂ ValidatorStake.Shrunk vs vs'' := by
  induction h generalizing vs'' with
  | nil =>
    cases h'
    exact .nil
  | cons hv _ ih =>
    cases h' with
    | cons hv' hvs' => exact .cons (hv.trans hv') (ih hvs')

theorem totalStake_shrunk {vs vs₀ : List ValidatorStake}
    (h : List.Forall₂ ValidatorStake.Shrunk vs vs₀) : totalStake vs ≤ totalStake vs₀ := by
  induction h with
  | nil => exact le_rfl
  | cons hv _ ih =>
    simp only [totalStake, Quorum.total_cons] at ih ⊢
    exact Nat.add_le_add hv.stake ih

theorem exists_of_shrunk {vs vs₀ : List ValidatorStake} (h : List.Forall₂ ValidatorStake.Shrunk vs vs₀)
    {v : ValidatorStake} (hv : v ∈ vs) : ∃ v₀ ∈ vs₀, v.Shrunk v₀ := by
  induction h with
  | nil => cases hv
  | cons hu _ ih =>
    rcases List.mem_cons.mp hv with rfl | hv
    · exact ⟨_, List.mem_cons_self, hu⟩
    · obtain ⟨v₀, hv₀, hshrunk⟩ := ih hv
      exact ⟨v₀, List.mem_cons_of_mem _ hv₀, hshrunk⟩

/-- Slashing shrinks, when the float product does. -/
theorem slashValidator_shrunk {fl : FloatOps F} {p : F} (hslash : ∀ a, slashedAmount fl p a ≤ a)
    (address : Bytes) (vs : List ValidatorStake) :
    List.Forall₂ ValidatorStake.Shrunk (slashValidator fl vs address p) vs := by
  unfold slashValidator
  induction vs with
  | nil => exact .nil
  | cons v vs ih =>
    unfold slashStake
    split_ifs
    · exact .cons ⟨rfl, rfl, UInt64.le_iff_toNat_le.mp (hslash v.amount)⟩ (forall₂_shrunk_refl vs)
    · exact .cons (.refl v) ih

theorem setLastProposal_shrunk (address : Bytes) (timestamp : UInt64) (vs : List ValidatorStake) :
    List.Forall₂ ValidatorStake.Shrunk (setLastProposal address timestamp vs) vs := by
  induction vs with
  | nil => exact .nil
  | cons v vs ih =>
    unfold setLastProposal
    split_ifs
    · exact .cons ⟨rfl, rfl, le_rfl⟩ (forall₂_shrunk_refl vs)
    · exact .cons (.refl v) ih

/-! ## Votes -/

/-- The vote is a signed one for the hash, under the registered key of the validator if it has one. -/
structure BlockVote.Evidence (C : Crypto) (v : ValidatorStake) (h : Bytes) (vote : BlockVote) : Prop where
  blockHash : vote.blockHash = h
  address : vote.validatorAddress = v.address
  publicKey : v.publicKey = [] ∨ vote.validatorPublicKey = v.publicKey
  signed : vote.verifySignature C = true

/-- An accepted vote is evidence against a validator of the list. -/
theorem evidence_of_accepts {C : Crypto} {vs : List ValidatorStake} {vote : BlockVote}
    (h : acceptsVote C vs vote = true) : ∃ v ∈ vs, vote.Evidence C v vote.blockHash := by
  rw [acceptsVote, Bool.and_eq_true] at h
  obtain ⟨hsig, hstake⟩ := h
  obtain ⟨stake, hstake⟩ := Option.isSome_iff_exists.mp hstake
  unfold voterStake at hstake
  split at hstake
  · cases hstake
  · rename_i v hfind
    split_ifs at hstake with hkey
    refine ⟨v, List.mem_of_find?_eq_some hfind, rfl, ?_, ?_, hsig⟩
    · simpa [eq_comm] using List.find?_some hfind
    · rcases not_and_or.mp hkey with hkey | hkey
      · exact .inl (not_not.mp hkey)
      · exact .inr (not_not.mp hkey).symm

theorem BlockVote.Evidence.shrunk {C : Crypto} {v v₀ : ValidatorStake} {h : Bytes} {vote : BlockVote}
    (he : vote.Evidence C v h) (hv : v.Shrunk v₀) : vote.Evidence C v₀ h :=
  ⟨he.blockHash, he.address.trans hv.address, hv.publicKey ▸ he.publicKey, he.signed⟩

/-! ## The invariant -/

/-- **Invariant** of the validators and the votes of a node that started with `vs₀`. -/
structure Backs (C : Crypto) (vs₀ : List ValidatorStake) (s : FinalityState) : Prop where
  shrunk : List.Forall₂ ValidatorStake.Shrunk s.validators vs₀
  totals : ∀ h, (s.collector.voteStakeTotals h).toNat ≤ s.collector.stakeFor vs₀ h
  finalized : ∀ h ∈ s.collector.finalizedBlocks,
    2 * totalStake s.validators ≤ 3 * s.collector.stakeFor vs₀ h
  votes : ∀ h, ∀ vote ∈ s.collector.blockVotes h, ∃ v ∈ vs₀, vote.Evidence C v h

section Invariant

variable {C : Crypto} {fl : FloatOps F} {vs₀ : List ValidatorStake} {s s' : FinalityState}

theorem backs_start (C : Crypto) (vs₀ : List ValidatorStake) : Backs C vs₀ ⟨vs₀, .empty⟩ := by
  refine ⟨forall₂_shrunk_refl vs₀, ?_, ?_, ?_⟩
  · intro h
    exact Nat.zero_le _
  · intro h hh
    exact absurd hh (Finset.notMem_empty h)
  · intro h vote hvote
    cases hvote

/-- Validators may shrink. -/
theorem Backs.shrink (h : Backs C vs₀ s) {vs : List ValidatorStake}
    (hvs : List.Forall₂ ValidatorStake.Shrunk vs s.validators) :
    Backs C vs₀ { s with validators := vs } := by
  refine ⟨forall₂_shrunk_trans hvs h.shrunk, h.totals, ?_, h.votes⟩
  intro t ht
  exact (Nat.mul_le_mul_left 2 (totalStake_shrunk hvs)).trans (h.finalized t ht)

/-- What a counted vote adds to the stake of the start behind its hash. -/
theorem count_stakeFor_start {q : QuorumCollector} (vs : List ValidatorStake) {vote : BlockVote}
    {v₀ : ValidatorStake} (amount : UInt64) (hnd : (vs₀.map ValidatorStake.address).Nodup) (hv₀ : v₀ ∈ vs₀)
    (haddr : v₀.address = vote.validatorAddress)
    (hnew : q.hasVoted vote.blockHash vote.validatorAddress = false) (h : Bytes) :
    (q.count vs vote amount).stakeFor vs₀ h =
      q.stakeFor vs₀ h + if h = vote.blockHash then v₀.stake else 0 := by
  rw [← QuorumCollector.count_stakeFor hnd hv₀ haddr hnew h]
  -- who has voted does not depend on the stake that is counted
  refine Quorum.weight_congr ?_
  intro u _
  rw [QuorumCollector.count_hasVoted, QuorumCollector.count_hasVoted]

theorem Backs.count (h : Backs C vs₀ s) (hnd : (vs₀.map ValidatorStake.address).Nodup)
    (hT : 3 * totalStake vs₀ < 2 ^ 64) {vote : BlockVote} {v : ValidatorStake} (hv : v ∈ s.validators)
    (haddr : v.address = vote.validatorAddress) (hacc : acceptsVote C s.validators vote = true)
    (hnew : s.collector.hasVoted vote.blockHash vote.validatorAddress = false) :
    Backs C vs₀ { s with collector := s.collector.count s.validators vote v.amount } := by
  obtain ⟨v₀, hv₀, hshrunk⟩ := exists_of_shrunk h.shrunk hv
  have hstake := count_stakeFor_start s.validators v.amount hnd hv₀
    (hshrunk.address.symm.trans haddr) hnew
  have hle : ∀ t, (s.collector.count s.validators vote v.amount).stakeFor vs₀ t ≤ totalStake vs₀ :=
    fun t => Quorum.weight_le_total _ _ vs₀
  -- the total of the voted hash does not wrap
  have htotal : (s.collector.voteStakeTotals vote.blockHash + v.amount).toNat ≤
      (s.collector.count s.validators vote v.amount).stakeFor vs₀ vote.blockHash := by
    have hb := hle vote.blockHash
    have hold := h.totals vote.blockHash
    have hamount : v.amount.toNat ≤ v₀.stake := hshrunk.stake
    rw [hstake, if_pos rfl] at hb ⊢
    rw [UInt64.toNat_add, Nat.mod_eq_of_lt (by omega)]
    omega
  refine ⟨h.shrunk, ?_, ?_, ?_⟩
  · intro t
    rw [QuorumCollector.count_totals]
    by_cases hh : t = vote.blockHash
    · subst hh
      rw [if_pos rfl]
      exact htotal
    · rw [hstake t, if_neg hh, if_neg hh, UInt64.add_zero, Nat.add_zero]
      exact h.totals t
  · intro t ht
    rcases QuorumCollector.mem_count_finalized.mp ht with hold | ⟨rfl, -, htest⟩
    · refine (h.finalized t hold).trans (Nat.mul_le_mul_left 3 ?_)
      rw [hstake t]
      exact Nat.le_add_right _ _
    · -- neither side of the comparison wraps: the live total is at most that of the start
      have hlive := totalStake_shrunk h.shrunk
      have hb := hle vote.blockHash
      rw [Nat.mod_eq_of_lt (by omega), Nat.mod_eq_of_lt (by omega)] at htest
      exact htest.trans (Nat.mul_le_mul_left 3 htotal)
  · intro t u hu
    by_cases hh : t = vote.blockHash
    · subst hh
      simp only [QuorumCollector.count, Function.update_self, List.mem_append, List.mem_singleton] at hu
      rcases hu with hu | rfl
      · exact h.votes _ u hu
      · obtain ⟨w, hw, hevidence⟩ := evidence_of_accepts hacc
        obtain ⟨w₀, hw₀, hshrunk'⟩ := exists_of_shrunk h.shrunk hw
        exact ⟨w₀, hw₀, hevidence.shrunk hshrunk'⟩
    · have hold : u ∈ s.collector.blockVotes t := by simpa [QuorumCollector.count, hh] using hu
      exact h.votes t u hold

/-- **One move** keeps the invariant. -/
theorem Backs.move (h : Backs C vs₀ s) (hnd : (vs₀.map ValidatorStake.address).Nodup)
    (hT : 3 * totalStake vs₀ < 2 ^ 64) (hslash : ∀ a, slashedAmount fl (fl.lit 5 1) a ≤ a)
    (hmove : StakeMove C fl s s') : Backs C vs₀ s' := by
  cases hmove with
  | slashed address => exact h.shrink (slashValidator_shrunk hslash address s.validators)
  | proposed address timestamp => exact h.shrink (setLastProposal_shrunk address timestamp s.validators)
  | voted vote =>
    rcases addVote_cases C s.validators s.collector vote with
      ⟨-, heq⟩ | ⟨v, hv, haddr, -, hacc, hnew, heq⟩
    · rw [heq]
      exact h
    · rw [heq]
      exact h.count hnd hT hv haddr hacc hnew

/-- The validators of the start with a stored vote, each with the vote. -/
theorem Backs.evidence (h : Backs C vs₀ s) (hnd : (vs₀.map ValidatorStake.address).Nodup)
    {v : ValidatorStake} (hv : v ∈ vs₀) {t : Bytes} (hvoted : s.collector.hasVoted t v.address = true) :
    ∃ vote ∈ s.collector.getVotes t, vote.Evidence C v t := by
  obtain ⟨vote, hvote, haddr⟩ := List.any_eq_true.mp hvoted
  obtain ⟨u, hu, hevidence⟩ := h.votes t vote hvote
  have haddr' : u.address = v.address := hevidence.address.symm.trans (of_decide_eq_true haddr)
  have huv : u = v := List.inj_on_of_nodup_map hnd hu hv haddr'
  exact ⟨vote, hvote, huv ▸ hevidence⟩

end Invariant

/-! ## Nodes -/

variable [DecidableEq ι]

/-- The validators and votes of a node behind a run. -/
def finalityAfter (σ : ι → Setup F) (start : ι → MermaiNode F) (acts : Acts ι) (i : ι) : FinalityState :=
  ((networkRun σ start acts).state i).node.finality

/-- The stake that a node has slashed since the start. -/
def lostStake (vs₀ : List ValidatorStake) (s : FinalityState) : ℕ :=
  totalStake vs₀ - totalStake s.validators

/-- **Run**: every node backs what it finalized, when nobody registers. -/
theorem backs_network {σ : ι → Setup F} {C : Crypto} (hC : ∀ i, (σ i).crypto = C)
    (hslash : ∀ i a, slashedAmount (σ i).floats.toFloatOps ((σ i).floats.lit 5 1) a ≤ a)
    {start : ι → MermaiNode F} {vs₀ : List ValidatorStake}
    (hstart : ∀ i, (start i).node.finality = ⟨vs₀, .empty⟩)
    (hnd : (vs₀.map ValidatorStake.address).Nodup) (hT : 3 * totalStake vs₀ < 2 ^ 64) {acts : Acts ι}
    (hsame : ∀ pre i e f, pre ++ [(i, e)] <+: acts →
      ¬ MermaiNode.Registers (σ i) ((networkRun σ start pre).state i) e f)
    {pre : Acts ι} (hpre : pre <+: acts) (i : ι) : Backs C vs₀ (finalityAfter σ start pre i) := by
  rw [finalityAfter, networkRun, Network.Protocol.run]
  refine Run.foldl_invariant (fun w : Network.World ι (MermaiNode F) P2PMessage =>
    ∀ k, Backs C vs₀ (w.state k).node.finality) ?_ ?_ hpre i
  · intro k
    dsimp only
    rw [hstart k]
    exact backs_start C vs₀
  · rintro pre ⟨j, e⟩ hprefix ih k
    by_cases hk : k = j
    · subst hk
      rw [Network.Protocol.step_state_self]
      rcases MermaiNode.react_moves (σ k) ((networkRun σ start pre).state k) e with hmoves | hreg
      · refine hmoves.invariant ?_ (ih k)
        intro s s' hs hmove
        rw [hC k] at hmove
        exact hs.move hnd hT (hslash k) hmove
      · exact absurd hreg (hsame pre k e _ hprefix)
    · rw [Network.Protocol.step_state_ne _ hk]
      exact ih k

/-- **Accountability**: nodes start with the same validators, whatever messages, blocks and requests arrive,
and nobody registers.  When two nodes have finalized two hashes, at any times, there are validators of the
start with a stored and signed vote for either hash, and they hold a third of the stake, less two thirds of
what the two nodes have slashed. -/
theorem accountable (σ : ι → Setup F) (C : Crypto) (hC : ∀ i, (σ i).crypto = C)
    (hslash : ∀ i a, slashedAmount (σ i).floats.toFloatOps ((σ i).floats.lit 5 1) a ≤ a)
    (start : ι → MermaiNode F) (vs₀ : List ValidatorStake)
    (hstart : ∀ i, (start i).node.finality = ⟨vs₀, .empty⟩)
    (hnd : (vs₀.map ValidatorStake.address).Nodup) (hT : 3 * totalStake vs₀ < 2 ^ 64) (acts : Acts ι)
    (hsame : ∀ pre i e f, pre ++ [(i, e)] <+: acts →
      ¬ MermaiNode.Registers (σ i) ((networkRun σ start pre).state i) e f)
    (pre later : Acts ι) (hpre : pre <+: acts) (hlater : later <+: acts) (i j : ι) (h h' : Bytes)
    (hfin : (finalityAfter σ start pre i).collector.isBlockFinalized h = true)
    (hfin' : (finalityAfter σ start later j).collector.isBlockFinalized h' = true) :
    ∃ culprits, culprits.Sublist vs₀ ∧
      totalStake vs₀ ≤ 3 * totalStake culprits + 2 * (lostStake vs₀ (finalityAfter σ start pre i) +
        lostStake vs₀ (finalityAfter σ start later j)) ∧
      ∀ v ∈ culprits,
        (∃ vote ∈ (finalityAfter σ start pre i).collector.getVotes h, vote.Evidence C v h) ∧
        ∃ vote ∈ (finalityAfter σ start later j).collector.getVotes h', vote.Evidence C v h' := by
  have hbacks := backs_network hC hslash hstart hnd hT hsame hpre i
  have hbacks' := backs_network hC hslash hstart hnd hT hsame hlater j
  generalize finalityAfter σ start pre i = s at hfin hbacks
  generalize finalityAfter σ start later j = s' at hfin' hbacks'
  let double : ValidatorStake → Bool :=
    fun v => s.collector.hasVoted h v.address && s'.collector.hasVoted h' v.address
  refine ⟨vs₀.filter double, List.filter_sublist, ?_, ?_⟩
  · have hquorum := hbacks.finalized h (of_decide_eq_true hfin)
    have hquorum' := hbacks'.finalized h' (of_decide_eq_true hfin')
    have hoverlap := Quorum.weight_add_le ValidatorStake.stake
      (fun v => s.collector.hasVoted h v.address) (fun v => s'.collector.hasVoted h' v.address) vs₀
    change s.collector.stakeFor vs₀ h + s'.collector.stakeFor vs₀ h' ≤
      totalStake vs₀ + totalStake (vs₀.filter double) at hoverlap
    rw [lostStake, lostStake]
    omega
  · intro v hv
    obtain ⟨hmem, hdouble⟩ := List.mem_filter.mp hv
    obtain ⟨hvoted, hvoted'⟩ := Bool.and_eq_true_iff.mp hdouble
    exact ⟨hbacks.evidence hnd hmem hvoted, hbacks'.evidence hnd hmem hvoted'⟩

/-! ## Two nodes that finalize different blocks -/

/-- A new node with three validators of equal stake. -/
def threeNode : MermaiNode ℚ :=
  { node := freshNode {} (some ⟨threeValidators, fun _ => none⟩) (some .empty) }

/-- One node gets the votes for one hash and the other those for another; the second validator signs both. -/
def splitVotes : Acts Bool :=
  [(false, .received 0 .incoming (voteMessage (polyVote [97] [7] [1]))),
    (false, .received 0 .incoming (voteMessage (polyVote [98] [8] [1]))),
    (true, .received 0 .connected (voteMessage (polyVote [98] [8] [2]))),
    (true, .received 0 .connected (voteMessage (polyVote [99] [9] [2])))]

/-- Exact arithmetic takes half of an amount, rounded down. -/
theorem slashedAmount_exact (a : UInt64) : slashedAmount exactFloat (exactFloat.lit 5 1) a ≤ a := by
  have hrate : exactFloat.sub (exactFloat.lit 1 0) (exactFloat.min (exactFloat.lit 1 0)
      (exactFloat.max (exactFloat.lit 0 0) (exactFloat.lit 5 1))) = 1 / 2 := by decide +kernel
  have hfloor : ⌊(a.toNat : ℚ) * (1 / 2)⌋.toNat ≤ a.toNat := by
    have hle : ((⌊(a.toNat : ℚ) * (1 / 2)⌋ : ℤ) : ℚ) ≤ a.toNat := by
      have hpos : (0 : ℚ) ≤ a.toNat := Nat.cast_nonneg _
      have hhalf := Int.floor_le ((a.toNat : ℚ) * (1 / 2))
      linarith
    exact Int.toNat_le.mpr (by exact_mod_cast hle)
  unfold slashedAmount
  rw [hrate, UInt64.le_iff_toNat_le]
  show (UInt64.ofNat ⌊(a.toNat : ℚ) * (1 / 2)⌋.toNat).toNat ≤ a.toNat
  rw [UInt64.toNat_ofNat', Nat.mod_eq_of_lt (hfloor.trans_lt a.toNat_lt)]
  exact hfloor

theorem splitVotes_received {a : Bool × MermaiNode.Event} (ha : a ∈ splitVotes) :
    ∃ place loop m, a.2 = .received place loop m := by
  have key : ∀ a ∈ splitVotes, ∃ place loop m, a.2 = .received place loop m := by simp [splitVotes]
  exact key a ha

theorem accountable_sample :
    ∃ culprits, culprits.Sublist threeValidators ∧ 3000000 ≤ 3 * totalStake culprits ∧
      ∀ v ∈ culprits, (∃ vote : BlockVote, vote.Evidence polyCrypto v [1]) ∧
        ∃ vote : BlockVote, vote.Evidence polyCrypto v [2] := by
  have hstart : (finalityAfter (fun _ => sampleSetup) (fun _ => threeNode) splitVotes false).validators =
      threeValidators ∧ (finalityAfter (fun _ => sampleSetup) (fun _ => threeNode) splitVotes true).validators =
      threeValidators := by decide +kernel
  have hsame : ∀ pre i e f, pre ++ [(i, e)] <+: splitVotes → ¬ MermaiNode.Registers sampleSetup
      ((networkRun (fun _ => sampleSetup) (fun _ => threeNode) pre).state i) e f := by
    intro pre i e f hpre hreg
    obtain ⟨place, loop, m, heq⟩ :=
      splitVotes_received (hpre.subset (List.mem_append_right _ (List.mem_singleton_self _)))
    cases heq
    cases hreg
  obtain ⟨culprits, hsub, hstake, hevidence⟩ := accountable (fun _ : Bool => sampleSetup) polyCrypto
    (fun _ => rfl) (fun _ => slashedAmount_exact) (fun _ => threeNode) threeValidators (fun _ => rfl)
    (by decide) (by decide) splitVotes hsame splitVotes splitVotes (List.prefix_refl _)
    (List.prefix_refl _) false true [1] [2] (by decide +kernel) (by decide +kernel)
  have hT : totalStake threeValidators = 3000000 := by decide
  rw [lostStake, lostStake, hstart.1, hstart.2, Nat.sub_self, hT] at hstake
  refine ⟨culprits, hsub, hstake, ?_⟩
  intro v hv
  obtain ⟨⟨vote, -, hvote⟩, vote', -, hvote'⟩ := hevidence v hv
  exact ⟨⟨vote, hvote⟩, vote', hvote'⟩

end Mermai
