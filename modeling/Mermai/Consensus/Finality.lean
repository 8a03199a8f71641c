import Mermai.Consensus.Quorum

/-!
# Consensus.Finality — what a sequence of votes finalizes

For a fixed validator list the collector depends on the set of accepted votes only, as long as no
sum wraps.  `votedFor`, `backing` and `Backed` say what the votes amount to without the collector:
who has an accepted vote for a hash, the exact stake behind the hash, and whether that is two thirds.

* `Collected` — the invariant: the stored voters and the 64-bit totals are those of the votes;
* `finalized_concat` — what one vote adds to the finalized hashes: the test of the code, modulo 2⁶⁴;
* `finalized_of_wrapsRight` — where that test decides as the exact one, the finalized hashes are the
  backed ones.
-/

namespace Mermai

/-! ## What votes amount to -/

/-- Some accepted vote among `votes` is by the address for the hash. -/
def votedFor (C : Crypto) (vs : List ValidatorStake) (votes : List BlockVote) (h a : Bytes) : Bool :=
  votes.any fun v => acceptsVote C vs v && (v.blockHash = h ∧ v.validatorAddress = a)

/-- The exact stake of the validators with an accepted vote for the hash. -/
def backing (C : Crypto) (vs : List ValidatorStake) (votes : List BlockVote) (h : Bytes) : ℕ :=
  Quorum.weight ValidatorStake.stake (fun v => votedFor C vs votes h v.address) vs

/-- Some vote for the hash was accepted, and two thirds of the stake are behind it. -/
def Backed (C : Crypto) (vs : List ValidatorStake) (votes : List BlockVote) (h : Bytes) : Prop :=
  (∃ v ∈ votes, acceptsVote C vs v = true ∧ v.blockHash = h) ∧
    2 * totalStake vs ≤ 3 * backing C vs votes h

/-- The vote is accepted and is the first of its validator for its hash. -/
def Counts (C : Crypto) (vs : List ValidatorStake) (votes : List BlockVote) (vote : BlockVote) :
    Prop :=
  acceptsVote C vs vote = true ∧
    votedFor C vs votes vote.blockHash vote.validatorAddress = false

theorem votedFor_eq_true {C : Crypto} {vs : List ValidatorStake} {votes : List BlockVote}
    {h a : Bytes} : votedFor C vs votes h a = true ↔
      ∃ v ∈ votes, acceptsVote C vs v = true ∧ v.blockHash = h ∧ v.validatorAddress = a := by
  simp [votedFor]

theorem votedFor_concat (C : Crypto) (vs : List ValidatorStake) (votes : List BlockVote)
    (vote : BlockVote) (h a : Bytes) : votedFor C vs (votes ++ [vote]) h a =
      (votedFor C vs votes h a ||
        (acceptsVote C vs vote && (vote.blockHash = h ∧ vote.validatorAddress = a))) := by
  simp [votedFor]

theorem collectVotes_concat (C : Crypto) (vs : List ValidatorStake) (votes : List BlockVote)
    (vote : BlockVote) : collectVotes C vs (votes ++ [vote]) =
      (addVote C vs (collectVotes C vs votes) vote).2 := by
  simp [collectVotes, List.foldl_append]

/-! ## The invariant -/

/-- **Invariant** of the collector after `votes`, for stakes of any size. -/
structure Collected (C : Crypto) (vs : List ValidatorStake) (votes : List BlockVote)
    (q : QuorumCollector) : Prop where
  voted : ∀ h a, q.hasVoted h a = votedFor C vs votes h a
  totals : ∀ h, q.voteStakeTotals h = UInt64.ofNat (backing C vs votes h)
  keyed : ∀ h, ∀ v ∈ q.blockVotes h, v.blockHash = h

theorem Collected.stakeFor {C : Crypto} {vs : List ValidatorStake} {votes : List BlockVote}
    {q : QuorumCollector} (hq : Collected C vs votes q) (h : Bytes) :
    q.stakeFor vs h = backing C vs votes h :=
  Quorum.weight_congr fun v _ => hq.voted h v.address

/-- A vote that is not counted leaves every voter set as it is. -/
theorem votedFor_concat_of_not {C : Crypto} {vs : List ValidatorStake} {votes : List BlockVote}
    {vote : BlockVote} (hn : ¬ Counts C vs votes vote) (h a : Bytes) :
    votedFor C vs (votes ++ [vote]) h a = votedFor C vs votes h a := by
  rw [votedFor_concat]
  by_cases hacc : acceptsVote C vs vote = true
  · have hv : votedFor C vs votes vote.blockHash vote.validatorAddress = true := by
      by_contra hv
      exact hn ⟨hacc, Bool.eq_false_iff.mpr hv⟩
    by_cases heq : vote.blockHash = h ∧ vote.validatorAddress = a
    · obtain ⟨rfl, rfl⟩ := heq
      rw [hv, Bool.true_or]
    · simp [heq]
  · simp [hacc]

/-- A vote that `add_vote` passes over does not count. -/
theorem Collected.not_counts {C : Crypto} {vs : List ValidatorStake} {votes : List BlockVote}
    {q : QuorumCollector} (hq : Collected C vs votes q) {vote : BlockVote}
    (hskip : acceptsVote C vs vote = false ∨
      q.hasVoted vote.blockHash vote.validatorAddress = true) : ¬ Counts C vs votes vote := by
  rintro ⟨hacc, hnv⟩
  rcases hskip with h | h
  · rw [hacc] at h
    cases h
  · rw [hq.voted, hnv] at h
    cases h

theorem Collected.step {C : Crypto} {vs : List ValidatorStake} {votes : List BlockVote}
    {q : QuorumCollector} (hnd : (vs.map ValidatorStake.address).Nodup)
    (hq : Collected C vs votes q) (vote : BlockVote) :
    Collected C vs (votes ++ [vote]) (addVote C vs q vote).2 := by
  rcases addVote_cases C vs q vote with ⟨hskip, heq⟩ | ⟨v, hv, haddr, -, hacc, hnew, heq⟩
  · have hn := hq.not_counts hskip
    have hback : ∀ h, backing C vs (votes ++ [vote]) h = backing C vs votes h :=
      fun h => Quorum.weight_congr fun v _ => votedFor_concat_of_not hn h v.address
    rw [heq]
    refine ⟨?_, ?_, hq.keyed⟩
    · intro h a
      rw [votedFor_concat_of_not hn, hq.voted]
    · intro h
      rw [hback, hq.totals]
  · have hvoted : ∀ h a, (q.count vs vote v.amount).hasVoted h a =
        votedFor C vs (votes ++ [vote]) h a := by
      intro h a
      rw [QuorumCollector.count_hasVoted, votedFor_concat, hq.voted, hacc, Bool.true_and]
      simp only [eq_comm]
    have hback : ∀ h, backing C vs (votes ++ [vote]) h =
        backing C vs votes h + if h = vote.blockHash then v.stake else 0 := by
      intro h
      rw [← hq.stakeFor, ← QuorumCollector.count_stakeFor hnd hv haddr hnew]
      exact Quorum.weight_congr fun u _ => (hvoted h u.address).symm
    rw [heq]
    refine ⟨hvoted, ?_, ?_⟩
    · intro h
      rw [hback h, QuorumCollector.count_totals, hq.totals]
      split_ifs
      · simp [ValidatorStake.stake, UInt64.ofNat_add]
      · simp
    · intro h u hu
      by_cases hh : h = vote.blockHash
      · subst hh
        simp only [QuorumCollector.count, Function.update_self, List.mem_append,
          List.mem_singleton] at hu
        rcases hu with hu | rfl
        · exact hq.keyed _ u hu
        · rfl
      · have hold : u ∈ q.blockVotes h := by simpa [QuorumCollector.count, hh] using hu
        exact hq.keyed h u hold

/-- **Run lemma**: the collector after any votes. -/
theorem collectVotes_collected (C : Crypto) {vs : List ValidatorStake}
    (hnd : (vs.map ValidatorStake.address).Nodup) (votes : List BlockVote) :
    Collected C vs votes (collectVotes C vs votes) := by
  induction votes using List.reverseRecOn with
  | nil =>
    have hback : ∀ h, backing C vs [] h = 0 := by
      intro h
      simp [backing, votedFor, Quorum.weight]
    refine ⟨fun h a => rfl, ?_, ?_⟩
    · intro h
      rw [hback]
      rfl
    · intro h v hv
      cases hv
  | append_singleton votes vote ih =>
    rw [collectVotes_concat]
    exact ih.step hnd vote

/-! ## Finality along a run -/

variable {C : Crypto} {vs : List ValidatorStake}

/-- **One vote**: a hash becomes finalized exactly when the vote counts for it and passes the test
of the code. -/
theorem finalized_concat (hnd : (vs.map ValidatorStake.address).Nodup) (votes : List BlockVote)
    (vote : BlockVote) (h : Bytes) :
    h ∈ (collectVotes C vs (votes ++ [vote])).finalizedBlocks ↔
      h ∈ (collectVotes C vs votes).finalizedBlocks ∨ (h = vote.blockHash ∧
        Counts C vs votes vote ∧
        wrappedTest (backing C vs (votes ++ [vote]) vote.blockHash) (totalStake vs)) := by
  have hq := collectVotes_collected C hnd votes
  have hq' := hq.step hnd vote
  rw [collectVotes_concat]
  rcases addVote_cases C vs (collectVotes C vs votes) vote with
    ⟨hskip, heq⟩ | ⟨v, hv, haddr, -, hacc, hnew, heq⟩
  · have hn := hq.not_counts hskip
    rw [heq]
    simp [hn]
  · have hcounts : Counts C vs votes vote := ⟨hacc, by rw [← hq.voted]; exact hnew⟩
    -- the total after the vote is the exact stake behind the hash, modulo 2⁶⁴
    have htotal := hq'.totals vote.blockHash
    rw [heq] at htotal ⊢
    rw [QuorumCollector.count_totals, if_pos rfl] at htotal
    rw [QuorumCollector.mem_count_finalized, htotal, wrappedTest_mod]
    exact or_congr_right (and_congr_right fun _ => (and_iff_right hcounts).symm)

/-- A vote that does not count for the hash changes nothing about it. -/
theorem backed_concat_of_not {votes : List BlockVote} {vote : BlockVote} {h : Bytes}
    (hn : ¬ (h = vote.blockHash ∧ Counts C vs votes vote)) :
    Backed C vs (votes ++ [vote]) h ↔ Backed C vs votes h := by
  have hvoted : ∀ a, votedFor C vs (votes ++ [vote]) h a = votedFor C vs votes h a := by
    intro a
    by_cases hh : h = vote.blockHash
    · exact votedFor_concat_of_not (fun hc => hn ⟨hh, hc⟩) h a
    · rw [votedFor_concat]
      simp [Ne.symm hh]
  have hback : backing C vs (votes ++ [vote]) h = backing C vs votes h :=
    Quorum.weight_congr fun v _ => hvoted v.address
  have hexists : ∀ l : List BlockVote, (∃ v ∈ l, acceptsVote C vs v = true ∧ v.blockHash = h) ↔
      ∃ a, votedFor C vs l h a = true := by
    intro l
    simp only [votedFor_eq_true]
    constructor
    · rintro ⟨v, hv, hacc, hh⟩
      exact ⟨_, v, hv, hacc, hh, rfl⟩
    · rintro ⟨_, v, hv, hacc, hh, -⟩
      exact ⟨v, hv, hacc, hh⟩
  rw [Backed, Backed, hback, hexists, hexists]
  simp only [hvoted]

theorem Backed.mono {votes : List BlockVote} {h : Bytes} (hb : Backed C vs votes h)
    (vote : BlockVote) : Backed C vs (votes ++ [vote]) h := by
  obtain ⟨⟨v, hv, hacc, hh⟩, hle⟩ := hb
  refine ⟨⟨v, List.mem_append_left _ hv, hacc, hh⟩, hle.trans ?_⟩
  refine Nat.mul_le_mul_left 3 (Quorum.weight_mono ?_)
  intro u _ hu
  rw [votedFor_concat, hu, Bool.true_or]

/-- After a vote that counts, the hash is backed when the exact comparison holds. -/
theorem backed_concat_of_counts {votes : List BlockVote} {vote : BlockVote}
    (hc : Counts C vs votes vote) : Backed C vs (votes ++ [vote]) vote.blockHash ↔
      2 * totalStake vs ≤ 3 * backing C vs (votes ++ [vote]) vote.blockHash := by
  rw [Backed]
  exact and_iff_right ⟨vote, by simp, hc.1, rfl⟩

/-- An accepted vote is by a validator with stake. -/
theorem Counts.totalStake_pos {votes : List BlockVote} {vote : BlockVote}
    (hc : Counts C vs votes vote) : 0 < totalStake vs := by
  have hsome : (voterStake vs vote).isSome = true := by
    have := hc.1
    rw [acceptsVote, Bool.and_eq_true] at this
    exact this.2
  obtain ⟨stake, hs⟩ := Option.isSome_iff_exists.mp hsome
  obtain ⟨v, hv, -, rfl⟩ := voterStake_eq_some hs
  have hle : v.stake ≤ totalStake vs := Quorum.le_total_of_mem _ hv
  have hne : v.amount.toNat ≠ 0 := by
    intro h0
    exact voterStake_ne_zero hs (UInt64.toNat_inj.mp h0)
  have : 0 < v.stake := Nat.pos_of_ne_zero hne
  omega

/-- The wrapped comparison decides as the exact one on every vote that counts for a hash that is not
backed before it. -/
def WrapsRight (C : Crypto) (vs : List ValidatorStake) (votes : List BlockVote) : Prop :=
  ∀ pre vote, pre ++ [vote] <+: votes → Counts C vs pre vote →
    ¬ Backed C vs pre vote.blockHash →
    (wrappedTest (backing C vs (pre ++ [vote]) vote.blockHash) (totalStake vs) ↔
      2 * totalStake vs ≤ 3 * backing C vs (pre ++ [vote]) vote.blockHash)

theorem wrapsRight_of_lt (hT : 3 * totalStake vs < 2 ^ 64) (votes : List BlockVote) :
    WrapsRight C vs votes := by
  intro pre vote _ hc _
  exact wrappedTest_iff hT hc.totalStake_pos (Quorum.weight_le_total _ _ vs)

/-- **Finality along a run**, by induction on the votes so far. -/
theorem finalized_of_wrapsRight (hnd : (vs.map ValidatorStake.address).Nodup)
    {votes : List BlockVote} (hw : WrapsRight C vs votes) {pre : List BlockVote}
    (hpre : pre <+: votes) (h : Bytes) :
    h ∈ (collectVotes C vs pre).finalizedBlocks ↔ Backed C vs pre h := by
  induction pre using List.reverseRecOn with
  | nil => simp [collectVotes, QuorumCollector.empty, Backed]
  | append_singleton pre vote ih =>
    have ih := ih ((List.prefix_append pre [vote]).trans hpre)
    rw [finalized_concat hnd, ih]
    by_cases hc : h = vote.blockHash ∧ Counts C vs pre vote
    · obtain ⟨rfl, hc⟩ := hc
      by_cases hb : Backed C vs pre vote.blockHash
      · exact ⟨fun _ => hb.mono vote, fun _ => .inl hb⟩
      · rw [backed_concat_of_counts hc, ← hw pre vote hpre hc hb]
        simp [hb, hc]
    · rw [backed_concat_of_not hc]
      constructor
      · rintro (hb | ⟨hh, hc', -⟩)
        · exact hb
        · exact absurd ⟨hh, hc'⟩ hc
      · exact .inl

/-! ## The exact threshold -/

/-- **Exactness**: along a run of votes the finalized hashes are those with an accepted vote and two
thirds of the exact stake, exactly when the wrapped comparison decides every vote right; with three
times the total stake below 2⁶⁴ it always does. -/
theorem finality_exact_iff (C : Crypto) {vs : List ValidatorStake} (hreg : Registered C vs)
    (votes : List BlockVote) :
    ((∀ pre, pre <+: votes → ∀ h,
        (collectVotes C vs pre).isBlockFinalized h = true ↔ Backed C vs pre h) ↔
      WrapsRight C vs votes) ∧
    (3 * totalStake vs < 2 ^ 64 → WrapsRight C vs votes) := by
  simp only [QuorumCollector.isBlockFinalized, decide_eq_true_eq]
  refine ⟨⟨?_, ?_⟩, fun hT => wrapsRight_of_lt hT votes⟩
  · intro hexact pre vote hpre hc hb
    have hbefore := hexact pre ((List.prefix_append pre [vote]).trans hpre) vote.blockHash
    have hafter := hexact (pre ++ [vote]) hpre vote.blockHash
    rw [finalized_concat hreg.nodup, hbefore, backed_concat_of_counts hc] at hafter
    simpa [hb, hc] using hafter
  · intro hw pre hpre h
    exact finalized_of_wrapsRight hreg.nodup hw hpre h

theorem finality_exact_sample :
    Registered polyCrypto threeValidators ∧ ∀ h,
      (collectVotes polyCrypto threeValidators sampleVotes).isBlockFinalized h = true ↔
        Backed polyCrypto threeValidators sampleVotes h := by
  refine ⟨threeValidators_registered, ?_⟩
  have hexact := finality_exact_iff polyCrypto threeValidators_registered sampleVotes
  exact hexact.1.mpr (hexact.2 (by decide)) sampleVotes (List.prefix_refl _)

/-- One validator with seven tenths of 10¹⁹. -/
def whale : ValidatorStake := ⟨[119], 7000000000000000000, 5, 0, [7]⟩

/-- The only validator votes, all stake is behind the hash, and the hash is not finalized: three
times the stake wraps, twice the stake does not. -/
theorem finality_wraps :
    registerValidator polyCrypto 5 [] [119] 7000000000000000000 [7] = some [whale] ∧
    minStake ≤ whale.amount ∧ acceptsVote polyCrypto [whale] (polyVote [119] [7] [1]) = true ∧
    2 * totalStake [whale] ≤ 3 * backing polyCrypto [whale] [polyVote [119] [7] [1]] [1] ∧
    (collectVotes polyCrypto [whale] [polyVote [119] [7] [1]]).isBlockFinalized [1] = false := by
  decide +kernel

/-! ## The order of votes -/

/-- The pairs of validator and hash among the stored votes. -/
def QuorumCollector.votePairs (q : QuorumCollector) : Set (Bytes × Bytes) :=
  {p | ∃ h, ∃ v ∈ q.getVotes h, p = (v.validatorAddress, v.blockHash)}

theorem Collected.mem_votePairs {votes : List BlockVote} {q : QuorumCollector}
    (hq : Collected C vs votes q) (p : Bytes × Bytes) :
    p ∈ q.votePairs ↔ votedFor C vs votes p.2 p.1 = true := by
  rw [← hq.voted]
  simp only [QuorumCollector.hasVoted, List.any_eq_true, decide_eq_true_eq]
  constructor
  · rintro ⟨h, v, hv, rfl⟩
    have hh := hq.keyed h v hv
    exact ⟨v, by rw [hh]; exact hv, rfl⟩
  · rintro ⟨v, hv, ha⟩
    exact ⟨p.2, v, hv, Prod.ext ha.symm (hq.keyed _ v hv).symm⟩

theorem votedFor_perm {votes votes' : List BlockVote} (hp : votes.Perm votes') (h a : Bytes) :
    votedFor C vs votes h a = votedFor C vs votes' h a := by
  rw [Bool.eq_iff_iff, votedFor_eq_true, votedFor_eq_true]
  simp only [hp.mem_iff]

theorem backing_perm {votes votes' : List BlockVote} (hp : votes.Perm votes') (h : Bytes) :
    backing C vs votes h = backing C vs votes' h :=
  Quorum.weight_congr fun v _ => votedFor_perm hp h v.address

/-- **Order of votes**: with three times the total stake below 2⁶⁴, every order of the same votes
gives the same finalized hashes, totals and voters. -/
theorem collectVotes_perm (C : Crypto) {vs : List ValidatorStake} (hreg : Registered C vs)
    (hT : 3 * totalStake vs < 2 ^ 64) {votes votes' : List BlockVote} (hp : votes.Perm votes') :
    (collectVotes C vs votes).finalizedBlocks = (collectVotes C vs votes').finalizedBlocks ∧
    (∀ h, (collectVotes C vs votes).getVoteStake h = (collectVotes C vs votes').getVoteStake h) ∧
    (collectVotes C vs votes).votePairs = (collectVotes C vs votes').votePairs := by
  have hq := collectVotes_collected C hreg.nodup votes
  have hq' := collectVotes_collected C hreg.nodup votes'
  refine ⟨?_, ?_, ?_⟩
  · ext h
    rw [finalized_of_wrapsRight hreg.nodup (wrapsRight_of_lt hT votes) (List.prefix_refl _),
      finalized_of_wrapsRight hreg.nodup (wrapsRight_of_lt hT votes') (List.prefix_refl _),
      Backed, Backed, backing_perm hp]
    simp only [hp.mem_iff]
  · intro h
    show (collectVotes C vs votes).voteStakeTotals h = (collectVotes C vs votes').voteStakeTotals h
    rw [hq.totals, hq'.totals, backing_perm hp]
  · ext p
    rw [hq.mem_votePairs, hq'.mem_votePairs, votedFor_perm hp]

theorem collectVotes_perm_sample :
    (collectVotes polyCrypto threeValidators sampleVotes).finalizedBlocks =
      (collectVotes polyCrypto threeValidators sampleVotes.reverse).finalizedBlocks :=
  (collectVotes_perm polyCrypto threeValidators_registered (by decide)
    (List.reverse_perm sampleVotes).symm).1

end Mermai
