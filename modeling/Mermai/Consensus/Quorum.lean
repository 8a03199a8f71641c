import Mermai.Consensus.Stake
import Mermai.Lib.Quorum
import Mathlib.Data.Finset.Insert

/-!
# Consensus.Quorum — votes and finality

`mermai_quorum_collector::add_vote`.  The invariant `Tallied` ties the running 64-bit totals to the
set of validators with an accepted vote: a total is the weight of that set, and a finalized hash has
two thirds of the total stake behind it.  It needs distinct addresses, which every operation on
validators keeps (`Registered.nodup`), and three times the total stake below 2⁶⁴, so that none of the
sums and products of the threshold wraps (`wrappedTest.exact`).

One vote changes nothing or is counted (`addVote_cases`); what counting does to the voters, to the
totals and to the finalized hashes is said once, for all invariants of the collector.
-/

namespace Mermai

/-! ## The collector -/

/-- `mermai_quorum_collector`; a missing key of the two maps is the empty list and 0. -/
structure QuorumCollector where
  blockVotes : Bytes → List BlockVote
  voteStakeTotals : Bytes → UInt64
  finalizedBlocks : Finset Bytes

/-- A new collector. -/
def QuorumCollector.empty : QuorumCollector := ⟨fun _ => [], fun _ => 0, ∅⟩

/-- Some accepted vote for the hash is by the address. -/
def QuorumCollector.hasVoted (q : QuorumCollector) (blockHash address : Bytes) : Bool :=
  (q.blockVotes blockHash).any fun v => v.validatorAddress = address

/-- The stake a vote brings: the voter is registered, its key matches and its stake is not 0. -/
def voterStake (vs : List ValidatorStake) (vote : BlockVote) : Option UInt64 :=
  match vs.find? fun v => v.address = vote.validatorAddress with
  | none => none
  | some v =>
    if v.publicKey ≠ [] ∧ v.publicKey ≠ vote.validatorPublicKey then none
    else if v.amount = 0 then none
    else some v.amount

/-- Store the vote, add its stake and look at the threshold. -/
def QuorumCollector.count (q : QuorumCollector) (vs : List ValidatorStake) (vote : BlockVote)
    (stake : UInt64) : QuorumCollector :=
  let h := vote.blockHash
  let stakeTotal := q.voteStakeTotals h + stake
  let totalStake := getTotalActiveStake vs
  { blockVotes := Function.update q.blockVotes h (q.blockVotes h ++ [vote])
    voteStakeTotals := Function.update q.voteStakeTotals h stakeTotal
    finalizedBlocks :=
      if 0 < totalStake ∧ stakeTotal * 3 ≥ totalStake * 2 then insert h q.finalizedBlocks
      else q.finalizedBlocks }

/-- `add_vote`: the verdict and the collector after it. -/
def addVote (C : Crypto) (vs : List ValidatorStake) (q : QuorumCollector) (vote : BlockVote) :
    Bool × QuorumCollector :=
  if ¬ vote.verifySignature C then (false, q)
  else
    match voterStake vs vote with
    | none => (false, q)
    | some stake =>
      -- a second vote of the validator for the hash is accepted and not counted
      if q.hasVoted vote.blockHash vote.validatorAddress then (true, q)
      else (true, q.count vs vote stake)

/-- The collector after a list of votes. -/
def collectVotes (C : Crypto) (vs : List ValidatorStake) (votes : List BlockVote) :
    QuorumCollector :=
  votes.foldl (fun q vote => (addVote C vs q vote).2) .empty

/-- `is_block_finalized`. -/
def QuorumCollector.isBlockFinalized (q : QuorumCollector) (blockHash : Bytes) : Bool :=
  blockHash ∈ q.finalizedBlocks

/-- `get_vote_stake`. -/
def QuorumCollector.getVoteStake (q : QuorumCollector) (blockHash : Bytes) : UInt64 :=
  q.voteStakeTotals blockHash

/-- `get_votes`. -/
def QuorumCollector.getVotes (q : QuorumCollector) (blockHash : Bytes) : List BlockVote :=
  q.blockVotes blockHash

/-! ## Registered validators -/

/-- The validator lists that the operations of the engine can build. -/
inductive Registered (C : Crypto) : List ValidatorStake → Prop
  | nil : Registered C []
  | register {vs vs' : List ValidatorStake} {now : ℕ} {address publicKey : Bytes} {stake : UInt64} :
      Registered C vs → registerValidator C now vs address stake publicKey = some vs' →
      Registered C vs'
  | unregister {vs vs' : List ValidatorStake} {address : Bytes} : Registered C vs →
      unregisterValidator vs address = some vs' → Registered C vs'
  | restore {vs vs' : List ValidatorStake} {stake : ValidatorStake} : Registered C vs →
      restoreValidator vs stake = some vs' → Registered C vs'
  | slash {vs : List ValidatorStake} {F : Type} (fl : FloatOps F) (address : Bytes) (p : F) :
      Registered C vs → Registered C (slashValidator fl vs address p)

theorem slashStake_addresses {F : Type} (fl : FloatOps F) (a : Bytes) (p : F)
    (vs : List ValidatorStake) :
    (slashStake fl a p vs).map ValidatorStake.address = vs.map ValidatorStake.address := by
  induction vs with
  | nil => rfl
  | cons v vs ih =>
    unfold slashStake
    split_ifs <;> simp [ih]

theorem nodup_append_new {vs : List ValidatorStake} {v : ValidatorStake}
    (h : (vs.map ValidatorStake.address).Nodup) (hnew : ¬ ∃ u ∈ vs, u.address = v.address) :
    ((vs ++ [v]).map ValidatorStake.address).Nodup := by
  rw [List.map_append, List.map_singleton, List.nodup_append]
  refine ⟨h, by simp, ?_⟩
  intro a ha b hb
  obtain ⟨u, hu, rfl⟩ := List.mem_map.mp ha
  rw [List.mem_singleton.mp hb]
  exact fun heq => hnew ⟨u, hu, heq⟩

/-- No address is registered twice. -/
theorem Registered.nodup {C : Crypto} {vs : List ValidatorStake} (h : Registered C vs) :
    (vs.map ValidatorStake.address).Nodup := by
  induction h with
  | nil => exact List.nodup_nil
  | register _ heq ih =>
    unfold registerValidator at heq
    split_ifs at heq with h1 h2 h3
    cases heq
    exact nodup_append_new ih h3
  | unregister _ heq ih =>
    unfold unregisterValidator at heq
    split_ifs at heq
    cases heq
    exact ih.sublist (List.filter_sublist.map _)
  | restore _ heq ih =>
    unfold restoreValidator at heq
    split_ifs at heq with h1 h2
    cases heq
    exact nodup_append_new ih h2
  | slash fl a p _ ih =>
    rw [slashValidator, slashStake_addresses]
    exact ih

/-! ## Stake sums -/

/-- The stake of a validator as a number. -/
def ValidatorStake.stake (v : ValidatorStake) : ℕ := v.amount.toNat

/-- The exact total stake. -/
def totalStake (vs : List ValidatorStake) : ℕ := Quorum.total ValidatorStake.stake vs

/-- The exact stake of the validators with an accepted vote for the hash. -/
def QuorumCollector.stakeFor (q : QuorumCollector) (vs : List ValidatorStake) (h : Bytes) : ℕ :=
  Quorum.weight ValidatorStake.stake (fun v => q.hasVoted h v.address) vs

theorem getTotalActiveStake_wraps (vs : List ValidatorStake) :
    getTotalActiveStake vs = UInt64.ofNat (totalStake vs) := by
  have key : ∀ t : UInt64, vs.foldl (fun total v => total + v.amount) t =
      t + UInt64.ofNat (totalStake vs) := by
    induction vs with
    | nil => simp [totalStake]
    | cons v vs ih =>
      intro t
      rw [List.foldl_cons, ih]
      simp [totalStake, ValidatorStake.stake, UInt64.ofNat_add, UInt64.add_assoc]
  simpa [getTotalActiveStake] using key 0

theorem getTotalActiveStake_eq {vs : List ValidatorStake} (h : totalStake vs < 2 ^ 64) :
    (getTotalActiveStake vs).toNat = totalStake vs := by
  rw [getTotalActiveStake_wraps, UInt64.toNat_ofNat', Nat.mod_eq_of_lt h]

/-! ## The threshold -/

/-- The comparison of `add_vote` for the exact stakes `w` and `t`: sums and products modulo 2⁶⁴. -/
def wrappedTest (w t : ℕ) : Prop := 0 < t % 2 ^ 64 ∧ 2 * t % 2 ^ 64 ≤ 3 * w % 2 ^ 64

/-- The comparison of the code is the wrapped one. -/
theorem threshold_iff_wrappedTest (vs : List ValidatorStake) (w : ℕ) :
    (0 < getTotalActiveStake vs ∧ UInt64.ofNat w * 3 ≥ getTotalActiveStake vs * 2) ↔
      wrappedTest w (totalStake vs) := by
  have h2 : UInt64.ofNat (totalStake vs) * 2 = UInt64.ofNat (2 * totalStake vs) := by
    rw [UInt64.ofNat_mul, UInt64.mul_comm]
    rfl
  have h3 : UInt64.ofNat w * 3 = UInt64.ofNat (3 * w) := by
    rw [UInt64.ofNat_mul, UInt64.mul_comm]
    rfl
  rw [getTotalActiveStake_wraps, h2, h3, wrappedTest, ge_iff_le, UInt64.le_iff_toNat_le,
    UInt64.lt_iff_toNat_lt, UInt64.toNat_ofNat', UInt64.toNat_ofNat', UInt64.toNat_ofNat']
  rfl

theorem wrappedTest_mod {w t : ℕ} : wrappedTest (UInt64.ofNat w).toNat t ↔ wrappedTest w t := by
  rw [wrappedTest, wrappedTest, UInt64.toNat_ofNat', Nat.mul_mod_mod]

/-- Where three times the total fits 64 bits the wrapped comparison is the exact one. -/
theorem wrappedTest_iff {w t : ℕ} (ht : 3 * t < 2 ^ 64) (hpos : 0 < t) (hw : w ≤ t) :
    wrappedTest w t ↔ 2 * t ≤ 3 * w := by
  rw [wrappedTest, Nat.mod_eq_of_lt (by omega), Nat.mod_eq_of_lt (by omega),
    Nat.mod_eq_of_lt (by omega)]
  exact and_iff_right hpos

theorem wrappedTest.exact {w t : ℕ} (h : wrappedTest w t) (ht : 3 * t < 2 ^ 64) (hw : w ≤ t) :
    2 * t ≤ 3 * w := by
  refine (wrappedTest_iff ht ?_ hw).mp h
  rcases Nat.eq_zero_or_pos t with rfl | hpos
  · exact absurd h.1 (lt_irrefl _)
  · exact hpos

/-! ## One vote -/

/-- `add_vote` returns true on the vote, whatever the collector holds. -/
def acceptsVote (C : Crypto) (vs : List ValidatorStake) (vote : BlockVote) : Bool :=
  vote.verifySignature C && (voterStake vs vote).isSome

/-- A vote that brings stake is by a registered validator. -/
theorem voterStake_eq_some {vs : List ValidatorStake} {vote : BlockVote} {stake : UInt64}
    (h : voterStake vs vote = some stake) :
    ∃ v ∈ vs, v.address = vote.validatorAddress ∧ v.amount = stake := by
  unfold voterStake at h
  split at h
  · cases h
  · split_ifs at h
    cases h
    rename_i v hfind _ _
    exact ⟨v, List.mem_of_find?_eq_some hfind, by simpa using List.find?_some hfind, rfl⟩

theorem voterStake_ne_zero {vs : List ValidatorStake} {vote : BlockVote} {stake : UInt64}
    (h : voterStake vs vote = some stake) : stake ≠ 0 := by
  unfold voterStake at h
  split at h
  · cases h
  · split_ifs at h with _ hzero
    cases h
    exact hzero

/-- What `add_vote` does: nothing, or it counts the vote. -/
theorem addVote_cases (C : Crypto) (vs : List ValidatorStake) (q : QuorumCollector)
    (vote : BlockVote) :
    ((acceptsVote C vs vote = false ∨ q.hasVoted vote.blockHash vote.validatorAddress = true) ∧
      addVote C vs q vote = (acceptsVote C vs vote, q)) ∨
    ∃ v ∈ vs, v.address = vote.validatorAddress ∧ v.amount ≠ 0 ∧ acceptsVote C vs vote = true ∧
      q.hasVoted vote.blockHash vote.validatorAddress = false ∧
      addVote C vs q vote = (true, q.count vs vote v.amount) := by
  unfold addVote acceptsVote
  by_cases hsig : vote.verifySignature C = true
  · rw [if_neg (not_not.mpr hsig), hsig, Bool.true_and]
    cases hs : voterStake vs vote with
    | none => exact .inl ⟨.inl rfl, rfl⟩
    | some stake =>
      obtain ⟨v, hv, haddr, rfl⟩ := voterStake_eq_some hs
      by_cases hvoted : q.hasVoted vote.blockHash vote.validatorAddress = true
      · exact .inl ⟨.inr hvoted, if_pos hvoted⟩
      · exact .inr ⟨v, hv, haddr, voterStake_ne_zero hs, rfl, Bool.eq_false_iff.mpr hvoted,
          if_neg hvoted⟩
  · rw [if_pos hsig, Bool.eq_false_iff.mpr hsig]
    exact .inl ⟨.inl rfl, rfl⟩


theorem QuorumCollector.count_hasVoted (q : QuorumCollector) (vs : List ValidatorStake)
    (vote : BlockVote) (stake : UInt64) (h a : Bytes) :
    (q.count vs vote stake).hasVoted h a =
      (q.hasVoted h a || (h = vote.blockHash ∧ a = vote.validatorAddress)) := by
  by_cases hh : h = vote.blockHash
  · subst hh
    simp [count, hasVoted, eq_comm]
  · simp [count, hasVoted, hh]

/-- The stake behind a hash after a counted vote. -/
theorem QuorumCollector.count_stakeFor {q : QuorumCollector} {vs : List ValidatorStake}
    {vote : BlockVote} {v : ValidatorStake} (hnd : (vs.map ValidatorStake.address).Nodup)
    (hv : v ∈ vs) (haddr : v.address = vote.validatorAddress)
    (hnew : q.hasVoted vote.blockHash vote.validatorAddress = false) (h : Bytes) :
    (q.count vs vote v.amount).stakeFor vs h =
      q.stakeFor vs h + if h = vote.blockHash then v.stake else 0 := by
  unfold stakeFor
  by_cases hh : h = vote.blockHash
  · subst hh
    rw [if_pos rfl, ← Quorum.weight_insert (p := fun a => q.hasVoted vote.blockHash a) _ _ hnd hv
      (haddr ▸ hnew)]
    refine Quorum.weight_congr ?_
    intro u _
    simp [count_hasVoted, haddr]
  · rw [if_neg hh, Nat.add_zero]
    refine Quorum.weight_congr ?_
    intro u _
    simp [count_hasVoted, hh]

/-- The total of the voted hash grows by the stake. -/
theorem QuorumCollector.count_totals (q : QuorumCollector) (vs : List ValidatorStake)
    (vote : BlockVote) (stake : UInt64) (h : Bytes) :
    (q.count vs vote stake).voteStakeTotals h =
      q.voteStakeTotals h + if h = vote.blockHash then stake else 0 := by
  by_cases hh : h = vote.blockHash
  · subst hh
    simp [count]
  · simp [count, hh]

/-- A counted vote finalizes its hash exactly when the new total passes the comparison. -/
theorem QuorumCollector.mem_count_finalized {q : QuorumCollector} {vs : List ValidatorStake}
    {vote : BlockVote} {stake : UInt64} {h : Bytes} :
    h ∈ (q.count vs vote stake).finalizedBlocks ↔ h ∈ q.finalizedBlocks ∨ (h = vote.blockHash ∧
      wrappedTest (q.voteStakeTotals vote.blockHash + stake).toNat (totalStake vs)) := by
  rw [← threshold_iff_wrappedTest, UInt64.ofNat_toNat]
  simp only [count]
  split_ifs with htest
  · rw [Finset.mem_insert, or_comm]
    exact or_congr_right (and_iff_left htest).symm
  · simp [htest]

/-! ## The invariant -/

/-- **Invariant** of the collector for a fixed validator list. -/
structure Tallied (vs : List ValidatorStake) (q : QuorumCollector) : Prop where
  totals : ∀ h, (q.voteStakeTotals h).toNat = q.stakeFor vs h
  finalized : ∀ h ∈ q.finalizedBlocks, 2 * totalStake vs ≤ 3 * q.stakeFor vs h

theorem tallied_empty (vs : List ValidatorStake) : Tallied vs .empty := by
  refine ⟨?_, ?_⟩
  · intro h
    simp [QuorumCollector.stakeFor, QuorumCollector.empty, QuorumCollector.hasVoted, Quorum.weight]
  · intro h hh
    simp [QuorumCollector.empty] at hh

theorem Tallied.count {q : QuorumCollector} {vs : List ValidatorStake} {vote : BlockVote}
    {v : ValidatorStake} (h : Tallied vs q) (hnd : (vs.map ValidatorStake.address).Nodup)
    (hT : 3 * totalStake vs < 2 ^ 64) (hv : v ∈ vs) (haddr : v.address = vote.validatorAddress)
    (hnew : q.hasVoted vote.blockHash vote.validatorAddress = false) :
    Tallied vs (q.count vs vote v.amount) := by
  have hstake := QuorumCollector.count_stakeFor (q := q) hnd hv haddr hnew
  have hle : ∀ t, (q.count vs vote v.amount).stakeFor vs t ≤ totalStake vs :=
    fun t => Quorum.weight_le_total _ _ vs
  have htot : (q.voteStakeTotals vote.blockHash + v.amount).toNat =
      (q.count vs vote v.amount).stakeFor vs vote.blockHash := by
    have hb := hle vote.blockHash
    rw [hstake, if_pos rfl, ← h.totals, ValidatorStake.stake] at hb ⊢
    rw [UInt64.toNat_add, Nat.mod_eq_of_lt (by omega)]
  refine ⟨?_, ?_⟩
  · intro t
    rw [QuorumCollector.count_totals]
    by_cases hh : t = vote.blockHash
    · subst hh
      rw [if_pos rfl, htot]
    · rw [hstake t, if_neg hh, if_neg hh, UInt64.add_zero, Nat.add_zero, h.totals]
  · intro t ht
    rcases QuorumCollector.mem_count_finalized.mp ht with hold | ⟨rfl, htest⟩
    · have := h.finalized t hold
      rw [hstake t]
      omega
    · -- the threshold was met: nothing in it wraps
      rw [htot] at htest
      exact htest.exact hT (hle _)

theorem Tallied.addVote {C : Crypto} {q : QuorumCollector} {vs : List ValidatorStake}
    (h : Tallied vs q) (hnd : (vs.map ValidatorStake.address).Nodup)
    (hT : 3 * totalStake vs < 2 ^ 64) (vote : BlockVote) :
    Tallied vs (addVote C vs q vote).2 := by
  rcases addVote_cases C vs q vote with ⟨-, heq⟩ | ⟨v, hv, haddr, -, -, hnew, heq⟩
  · rw [heq]
    exact h
  · rw [heq]
    exact h.count hnd hT hv haddr hnew

theorem collectVotes_tallied (C : Crypto) {vs : List ValidatorStake}
    (hnd : (vs.map ValidatorStake.address).Nodup) (hT : 3 * totalStake vs < 2 ^ 64)
    (votes : List BlockVote) : Tallied vs (collectVotes C vs votes) := by
  have key : ∀ q, Tallied vs q →
      Tallied vs (votes.foldl (fun q vote => (addVote C vs q vote).2) q) := by
    induction votes with
    | nil => exact fun _ h => h
    | cons vote votes ih => exact fun q h => ih _ (h.addVote hnd hT vote)
  exact key _ (tallied_empty vs)

/-- **Accountable finality**: if two hashes are finalized, the validators with an accepted vote for
both hold at least one third of the total stake. -/
theorem finalized_overlap (C : Crypto) {vs : List ValidatorStake} (hreg : Registered C vs)
    (hT : 3 * totalStake vs < 2 ^ 64) (votes : List BlockVote) (h₁ h₂ : Bytes)
    (hf₁ : h₁ ∈ (collectVotes C vs votes).finalizedBlocks)
    (hf₂ : h₂ ∈ (collectVotes C vs votes).finalizedBlocks) :
    totalStake vs ≤ 3 * Quorum.weight ValidatorStake.stake (fun v =>
      (collectVotes C vs votes).hasVoted h₁ v.address &&
        (collectVotes C vs votes).hasVoted h₂ v.address) vs := by
  have h := collectVotes_tallied C hreg.nodup hT votes
  exact Quorum.third_of_two_thirds (h.finalized h₁ hf₁) (h.finalized h₂ hf₂)

/-- Three validators with one third of the stake each; the second has a registered key. -/
def threeValidators : List ValidatorStake :=
  [⟨[97], 1000000, 1, 0, []⟩, ⟨[98], 1000000, 1, 0, [8]⟩, ⟨[99], 1000000, 1, 0, []⟩]

theorem threeValidators_registered : Registered polyCrypto threeValidators := by
  have h1 : Registered polyCrypto (threeValidators.take 1) :=
    .restore .nil (show restoreValidator [] ⟨[97], 1000000, 1, 0, []⟩ = some _ by decide)
  have h2 : Registered polyCrypto (threeValidators.take 2) :=
    .restore h1 (show restoreValidator _ ⟨[98], 1000000, 1, 0, [8]⟩ = some _ by decide)
  exact .restore h2 (show restoreValidator _ ⟨[99], 1000000, 1, 0, []⟩ = some _ by decide)

/-- A signed vote of the address for the hash. -/
def polyVote (address key blockHash : Bytes) : BlockVote :=
  let vote : BlockVote := { validatorAddress := address, blockHash, validatorPublicKey := key,
                            signature := [] }
  { vote with signature := polyDigest (key ++ vote.signingPayload) }

/-- Two quorums of exactly two thirds that meet in the second validator, a repeated vote and a vote
with the wrong key. -/
def sampleVotes : List BlockVote :=
  [polyVote [97] [7] [1], polyVote [98] [8] [1], polyVote [98] [8] [1], polyVote [98] [8] [2],
    polyVote [98] [9] [3], polyVote [99] [9] [2]]

theorem finalized_overlap_sample :
    totalStake threeValidators = 3000000 ∧
      (collectVotes polyCrypto threeValidators sampleVotes).finalizedBlocks = {[1], [2]} ∧
      3000000 ≤ 3 * Quorum.weight ValidatorStake.stake (fun v =>
        (collectVotes polyCrypto threeValidators sampleVotes).hasVoted [1] v.address &&
          (collectVotes polyCrypto threeValidators sampleVotes).hasVoted [2] v.address)
        threeValidators := by
  have hT : totalStake threeValidators = 3000000 := by decide
  have hf : (collectVotes polyCrypto threeValidators sampleVotes).finalizedBlocks =
      {[1], [2]} := by decide +kernel
  refine ⟨hT, hf, ?_⟩
  rw [← hT]
  exact finalized_overlap polyCrypto threeValidators_registered (by rw [hT]; decide) sampleVotes [1] [2]
    (by rw [hf]; decide) (by rw [hf]; decide)

end Mermai
