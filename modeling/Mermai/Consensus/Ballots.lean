import Mermai.Consensus.Governance
import Mathlib.Algebra.BigOperators.Group.List.Basic
import Mathlib.Tactic.Linarith
import Mathlib.Algebra.Order.Field.Basic

/-!
# Consensus.Ballots — the ballots behind a tally

The votes on one proposal, as ballots.  `recordedBallots` are those that the engine answered with true;
the proposal keeps their voters, and their stakes added up modulo 2⁶⁴ (`Counted`, `counted_run`).

* `passes_iff`: a tally passes on a majority and a quorum of the exact stakes, unless the wrapped totals
  show a majority that the exact ones do not have.
* `tally_order`: the calls of one block can be reordered, as long as no voter opens with two different
  ballots in one block, the deciding tallies agree on the active stake, and no ballot is opened in the
  block of the decision.
-/

namespace Mermai

variable {F : Type}

/-- A vote, without the proposal it is for. -/
structure Ballot where
  voter : Bytes
  stake : UInt64
  support : Bool
  block : UInt32
deriving DecidableEq

/-- The call of `vote` with a ballot. -/
def Ballot.castOn (id : UInt64) (b : Ballot) : Governance.Call :=
  .vote id b.voter b.stake b.support b.block

/-- The exact stake behind one side. -/
def stakeSum (support : Bool) (ballots : List Ballot) : ℕ :=
  ((ballots.filter fun b => b.support = support).map fun b => b.stake.toNat).sum

theorem stakeSum_concat (support : Bool) (ballots : List Ballot) (b : Ballot) :
    stakeSum support (ballots ++ [b]) =
      stakeSum support ballots + if b.support = support then b.stake.toNat else 0 := by
  rw [stakeSum, List.filter_append, List.map_append, List.sum_append]
  by_cases h : b.support = support
  · simp [stakeSum, h]
  · simp [stakeSum, h]

theorem stakeSum_perm (support : Bool) {ballots ballots' : List Ballot} (h : ballots.Perm ballots') :
    stakeSum support ballots = stakeSum support ballots' :=
  ((h.filter _).map _).sum_nat

/-! ## One proposal -/

/-- `vote` takes the ballot. -/
def Proposal.Takes (p : Proposal) (b : Ballot) : Prop :=
  p.status = .active ∧ b.block ≤ p.endBlock ∧ b.voter ∉ p.voterRecords

/-- A call of `tally_and_execute` that is not refused. -/
def Proposal.Decides (p : Proposal) : Governance.Call → Prop
  | .tallyAndExecute _ currentBlock _ => p.status = .active ∧ p.endBlock ≤ currentBlock
  | _ => False

instance (p : Proposal) (b : Ballot) : Decidable (p.Takes b) :=
  inferInstanceAs (Decidable (_ ∧ _ ∧ _))

instance (p : Proposal) (c : Governance.Call) : Decidable (p.Decides c) :=
  match c with
  | .createProposal .. => inferInstanceAs (Decidable False)
  | .vote .. => inferInstanceAs (Decidable False)
  | .tallyAndExecute .. => inferInstanceAs (Decidable (_ ∧ _))

/-- The proposal `p` after the ballots are recorded on `p₀`. -/
structure Counted (p₀ p : Proposal) (ballots : List Ballot) : Prop where
  status : p.status = p₀.status
  type : p.type = p₀.type
  endBlock : p.endBlock = p₀.endBlock
  votesAbstain : p.votesAbstain = p₀.votesAbstain
  votesYes : p.votesYes.toNat = (p₀.votesYes.toNat + stakeSum true ballots) % 2 ^ 64
  votesNo : p.votesNo.toNat = (p₀.votesNo.toNat + stakeSum false ballots) % 2 ^ 64
  lookup_iff : ∀ voter support, p.voterRecords.lookup voter = some support ↔
    p₀.voterRecords.lookup voter = some support ∨
      ∃ b ∈ ballots, b.voter = voter ∧ b.support = support
  /-- A voter is on record once. -/
  nodup : (ballots.map Ballot.voter).Nodup
  fresh : ∀ b ∈ ballots, b.voter ∉ p₀.voterRecords

theorem counted_nil (p : Proposal) : Counted p p [] where
  status := rfl
  type := rfl
  endBlock := rfl
  votesAbstain := rfl
  votesYes := by simp [stakeSum, Nat.mod_eq_of_lt p.votesYes.toNat_lt]
  votesNo := by simp [stakeSum, Nat.mod_eq_of_lt p.votesNo.toNat_lt]
  lookup_iff voter support := by simp
  nodup := List.nodup_nil
  fresh b hb := absurd hb List.not_mem_nil

section Counted

variable {p₀ p : Proposal} {ballots : List Ballot}

/-- The voters on record are the old ones and those of the ballots. -/
theorem Counted.mem_voterRecords (h : Counted p₀ p ballots) (voter : Bytes) :
    voter ∈ p.voterRecords ↔ voter ∈ p₀.voterRecords ∨ ∃ b ∈ ballots, b.voter = voter := by
  rw [← AList.lookup_isSome, ← AList.lookup_isSome, Option.isSome_iff_exists,
    Option.isSome_iff_exists]
  simp only [h.lookup_iff, exists_or]
  apply or_congr_right
  constructor
  · rintro ⟨support, b, hb, hvoter, -⟩
    exact ⟨b, hb, hvoter⟩
  · rintro ⟨b, hb, hvoter⟩
    exact ⟨b.support, b, hb, hvoter, rfl⟩

theorem toNat_add_stake {x y : UInt64} {n m : ℕ} (h : x.toNat = (n + m) % 2 ^ 64) :
    (x + y).toNat = (n + (m + y.toNat)) % 2 ^ 64 := by
  rw [UInt64.toNat_add, h, Nat.mod_add_mod, Nat.add_assoc]

/-- The records after a new ballot: those from before, and those of the ballots. -/
theorem Counted.lookup_record (h : Counted p₀ p ballots) {b : Ballot} (hnew : b.voter ∉ p.voterRecords)
    (voter : Bytes) (support : Bool) :
    (p.voterRecords.insert b.voter b.support).lookup voter = some support ↔
      p₀.voterRecords.lookup voter = some support ∨
        ∃ b' ∈ ballots ++ [b], b'.voter = voter ∧ b'.support = support := by
  by_cases hvoter : voter = b.voter
  · subst hvoter
    have hnot : b.voter ∉ p₀.voterRecords ∧ ¬ ∃ b' ∈ ballots, b'.voter = b.voter := by
      rw [h.mem_voterRecords, not_or] at hnew
      exact hnew
    have hnone : p₀.voterRecords.lookup b.voter = none := AList.lookup_eq_none.mpr hnot.1
    rw [AList.lookup_insert, hnone, Option.some.injEq]
    constructor
    · intro hsupport
      exact .inr ⟨b, List.mem_append_right _ List.mem_cons_self, rfl, hsupport⟩
    · rintro (hold | ⟨b', hb', hvoter, hsupport⟩)
      · cases hold
      · rcases List.mem_append.mp hb' with hold | hlast
        · exact absurd ⟨b', hold, hvoter⟩ hnot.2
        · rw [List.mem_singleton.mp hlast] at hsupport
          exact hsupport
  · rw [AList.lookup_insert_ne hvoter, h.lookup_iff]
    apply or_congr_right
    constructor
    · rintro ⟨b', hb', hrest⟩
      exact ⟨b', List.mem_append_left _ hb', hrest⟩
    · rintro ⟨b', hb', rfl, hsupport⟩
      rcases List.mem_append.mp hb' with hold | hlast
      · exact ⟨b', hold, rfl, hsupport⟩
      · exact absurd (congrArg Ballot.voter (List.mem_singleton.mp hlast)) hvoter

theorem Counted.nodup_concat (h : Counted p₀ p ballots) {b : Ballot} (hnew : b.voter ∉ p.voterRecords) :
    ((ballots ++ [b]).map Ballot.voter).Nodup := by
  rw [List.map_append, List.map_singleton, List.nodup_append]
  refine ⟨h.nodup, List.nodup_singleton _, ?_⟩
  rintro voter hvoter _ hlast rfl
  obtain ⟨b', hb', hvoter'⟩ := List.mem_map.mp hvoter
  rw [List.mem_singleton.mp hlast] at hvoter'
  exact hnew ((h.mem_voterRecords _).mpr (.inr ⟨b', hb', hvoter'⟩))

theorem Counted.fresh_concat (h : Counted p₀ p ballots) {b : Ballot} (hnew : b.voter ∉ p.voterRecords) :
    ∀ b' ∈ ballots ++ [b], b'.voter ∉ p₀.voterRecords := by
  intro b' hb'
  rcases List.mem_append.mp hb' with hold | hlast
  · exact h.fresh b' hold
  · rw [List.mem_singleton.mp hlast]
    exact fun hmem => hnew ((h.mem_voterRecords _).mpr (.inl hmem))

/-- A ballot that is taken is counted. -/
theorem Counted.record (h : Counted p₀ p ballots) {b : Ballot} (hnew : b.voter ∉ p.voterRecords) :
    Counted p₀ (p.record b.voter b.stake b.support) (ballots ++ [b]) := by
  have hlookup := h.lookup_record hnew
  have hnodup := h.nodup_concat hnew
  have hfresh := h.fresh_concat hnew
  obtain ⟨voter, stake, support, block⟩ := b
  cases support with
  | true =>
    exact
      { status := h.status, type := h.type, endBlock := h.endBlock, votesAbstain := h.votesAbstain
        votesYes := by
          rw [stakeSum_concat]
          exact toNat_add_stake h.votesYes
        votesNo := by
          rw [stakeSum_concat]
          exact h.votesNo
        lookup_iff := hlookup, nodup := hnodup, fresh := hfresh }
  | false =>
    exact
      { status := h.status, type := h.type, endBlock := h.endBlock, votesAbstain := h.votesAbstain
        votesYes := by
          rw [stakeSum_concat]
          exact h.votesYes
        votesNo := by
          rw [stakeSum_concat]
          exact toNat_add_stake h.votesNo
        lookup_iff := hlookup, nodup := hnodup, fresh := hfresh }

end Counted

namespace Governance

/-! ## Runs of calls on one proposal -/

section Run

variable (fl : FloatOps F) (div : F → F → F)

/-- The ballots on a proposal that were answered with true. -/
def recordedBallots (id : UInt64) (log : List (Call × Reply)) : List Ballot :=
  log.filterMap fun
    | (.vote votedOn voter stake support block, .answered true) =>
      if votedOn = id then some { voter, stake, support, block } else none
    | _ => none

theorem recordedBallots_append (id : UInt64) (log log' : List (Call × Reply)) :
    recordedBallots id (log ++ log') = recordedBallots id log ++ recordedBallots id log' :=
  List.filterMap_append

/-- The calls on a proposal. -/
theorem eq_of_target {c : Call} {id : UInt64} (h : c.target = some id) :
    (∃ b : Ballot, c = b.castOn id) ∨ ∃ currentBlock totalActiveStake,
      c = .tallyAndExecute id currentBlock totalActiveStake := by
  cases c with
  | createProposal => cases h
  | vote pid voter stake support block =>
    cases h
    exact .inl ⟨{ voter, stake, support, block }, rfl⟩
  | tallyAndExecute pid currentBlock totalActiveStake =>
    cases h
    exact .inr ⟨_, _, rfl⟩

variable {g : Governance} {id : UInt64} {p : Proposal}

theorem call_castOn (hp : g.proposals.lookup id = some p) (b : Ballot) :
    g.call fl div (b.castOn id) =
      if p.Takes b then (.answered true, g.put id (p.record b.voter b.stake b.support))
      else (.answered false, g) := by
  have hblock : b.block ≤ p.endBlock ↔ ¬ b.block > p.endBlock := UInt32.not_lt.symm
  simp only [Ballot.castOn, call, vote, hp, Proposal.Takes, hblock]
  by_cases hstatus : p.status = .active
  · by_cases hlate : b.block > p.endBlock
    · simp [hstatus, hlate]
    · by_cases hvoter : b.voter ∈ p.voterRecords <;> simp [hstatus, hlate, hvoter]
  · simp [hstatus]

theorem call_tally (hp : g.proposals.lookup id = some p) (currentBlock : UInt32)
    (totalActiveStake : UInt64) :
    g.call fl div (.tallyAndExecute id currentBlock totalActiveStake) =
      if p.Decides (.tallyAndExecute id currentBlock totalActiveStake) then
        (.answered (p.decision fl div totalActiveStake).1,
          g.put id { p with status := (p.decision fl div totalActiveStake).2 })
      else (.answered false, g) := by
  have hblock : p.endBlock ≤ currentBlock ↔ ¬ currentBlock < p.endBlock := UInt32.not_lt.symm
  simp only [call, tallyAndExecute, hp, Proposal.Decides, hblock]
  by_cases hstatus : p.status = .active
  · by_cases hearly : currentBlock < p.endBlock <;> simp [hstatus, hearly]
  · simp [hstatus]

/-- **A run without a decision** records the ballots that it answers with true. -/
theorem counted_run (hp : g.proposals.lookup id = some p) (hactive : p.status = .active)
    {calls : List Call} (htarget : ∀ c ∈ calls, c.target = some id)
    (hearly : ∀ c ∈ calls, ¬ p.Decides c) :
    ∃ p', (Run.after (call fl div) g calls).proposals.lookup id = some p' ∧
      Counted p p' (recordedBallots id (Run.log (call fl div) g calls)) := by
  induction calls using List.reverseRecOn with
  | nil => exact ⟨p, hp, counted_nil p⟩
  | append_singleton calls c ih =>
    obtain ⟨p', hp', hcounted⟩ := ih (fun c hc => htarget c (List.mem_append_left _ hc))
      (fun c hc => hearly c (List.mem_append_left _ hc))
    have hc : c ∈ calls ++ [c] := List.mem_append_right _ List.mem_cons_self
    rw [Run.after_append, Run.log_concat, recordedBallots_append]
    show ∃ q, ((Run.after (call fl div) g calls).call fl div c).2.proposals.lookup id = some q ∧
      Counted p q (_ ++ recordedBallots id [(c, ((Run.after (call fl div) g calls).call fl div c).1)])
    rcases eq_of_target (htarget c hc) with ⟨b, rfl⟩ | ⟨currentBlock, totalActiveStake, rfl⟩
    · rw [call_castOn fl div hp']
      by_cases htakes : p'.Takes b
      · rw [if_pos htakes]
        refine ⟨_, AList.lookup_insert _, ?_⟩
        have hlast : recordedBallots id [(b.castOn id, .answered true)] = [b] := by
          simp [recordedBallots, Ballot.castOn]
        rw [hlast]
        exact hcounted.record htakes.2.2
      · rw [if_neg htakes]
        refine ⟨p', hp', ?_⟩
        have hlast : recordedBallots id [(b.castOn id, .answered false)] = [] := by
          simp [recordedBallots, Ballot.castOn]
        rw [hlast, List.append_nil]
        exact hcounted
    · have hnot : ¬ p'.Decides (.tallyAndExecute id currentBlock totalActiveStake) := by
        rintro ⟨-, hblock⟩
        rw [hcounted.endBlock] at hblock
        exact hearly _ hc ⟨hactive, hblock⟩
      rw [call_tally fl div hp', if_neg hnot]
      refine ⟨p', hp', ?_⟩
      simpa [recordedBallots] using hcounted

end Run

/-! ## Majorities -/

/-- A majority of the exact recorded stakes, and a quorum of 40% of the active stake. -/
def RealMajority (ballots : List Ballot) (totalActiveStake : UInt64) : Prop :=
  stakeSum true ballots + stakeSum false ballots < 2 * stakeSum true ballots ∧
    (0 < totalActiveStake →
      40 * totalActiveStake.toNat ≤ 100 * (stakeSum true ballots + stakeSum false ballots))

/-- The stakes against are at least those for, and the totals modulo 2⁶⁴ show a majority and a quorum. -/
def FalseMajority (ballots : List Ballot) (totalActiveStake : UInt64) : Prop :=
  stakeSum true ballots ≤ stakeSum false ballots ∧
    0 < (stakeSum true ballots + stakeSum false ballots) % 2 ^ 64 ∧
    (stakeSum true ballots + stakeSum false ballots) % 2 ^ 64 <
      2 * (stakeSum true ballots % 2 ^ 64) ∧
    (0 < totalActiveStake → 40 * totalActiveStake.toNat ≤
      100 * ((stakeSum true ballots + stakeSum false ballots) % 2 ^ 64))

instance (ballots : List Ballot) (totalActiveStake : UInt64) :
    Decidable (RealMajority ballots totalActiveStake) := inferInstanceAs (Decidable (_ ∧ _))

instance (ballots : List Ballot) (totalActiveStake : UInt64) :
    Decidable (FalseMajority ballots totalActiveStake) := inferInstanceAs (Decidable (_ ∧ _ ∧ _ ∧ _))

theorem not_falseMajority_of_lt {ballots : List Ballot} (totalActiveStake : UInt64)
    (h : stakeSum true ballots + stakeSum false ballots < 2 ^ 64) :
    ¬ FalseMajority ballots totalActiveStake := by
  rintro ⟨hle, -, hlt, -⟩
  rw [Nat.mod_eq_of_lt h, Nat.mod_eq_of_lt (by omega)] at hlt
  omega

theorem toNat_pos_iff (x : UInt64) : 0 < x ↔ 0 < x.toNat := UInt64.lt_iff_toNat_lt

/-- The float tests, taken as exact comparisons. -/
theorem decision_exact (p : Proposal) (totalActiveStake : UInt64) :
    (p.decision exactFloat (· / ·) totalActiveStake).1 = true ↔
      (0 < totalActiveStake → 40 * totalActiveStake.toNat ≤
        100 * (p.votesYes + p.votesNo + p.votesAbstain).toNat) ∧
      0 < (p.votesYes + p.votesNo + p.votesAbstain).toNat ∧
      (p.votesYes + p.votesNo + p.votesAbstain).toNat < 2 * p.votesYes.toNat := by
  set voted := p.votesYes + p.votesNo + p.votesAbstain with hvoted
  have hquorum : 0 < totalActiveStake →
      ((voted.toNat : ℚ) / totalActiveStake.toNat < 40 / 10 ^ 2 ↔
        100 * voted.toNat < 40 * totalActiveStake.toNat) := by
    intro hpos
    have hpos' : (0 : ℚ) < totalActiveStake.toNat := by
      exact_mod_cast (toNat_pos_iff _).mp hpos
    rw [div_lt_div_iff₀ hpos' (by norm_num), ← Nat.cast_lt (α := ℚ)]
    push_cast
    constructor <;> intro h <;> linarith
  have hpass : 0 < voted →
      ((50 : ℚ) / 10 ^ 2 < p.votesYes.toNat / voted.toNat ↔ voted.toNat < 2 * p.votesYes.toNat) := by
    intro hpos
    have hpos' : (0 : ℚ) < voted.toNat := by
      exact_mod_cast (toNat_pos_iff _).mp hpos
    rw [div_lt_div_iff₀ (by norm_num) hpos', ← Nat.cast_lt (α := ℚ)]
    push_cast
    constructor <;> intro h <;> linarith
  rw [← toNat_pos_iff voted]
  simp only [Proposal.decision, exactFloat, ← hvoted, decide_eq_true_eq]
  by_cases hfew : 0 < totalActiveStake ∧
      (voted.toNat : ℚ) / totalActiveStake.toNat < (40 : ℕ) / 10 ^ 2
  · rw [if_pos hfew]
    have hlt := (hquorum hfew.1).mp (by exact_mod_cast hfew.2)
    refine iff_of_false Bool.false_ne_true ?_
    rintro ⟨hle, -⟩
    have := hle hfew.1
    omega
  rw [if_neg hfew]
  have hreached : 0 < totalActiveStake → 40 * totalActiveStake.toNat ≤ 100 * voted.toNat := by
    intro hpos
    by_contra hlt
    exact hfew ⟨hpos, by exact_mod_cast (hquorum hpos).mpr (by omega)⟩
  by_cases hmajority : 0 < voted ∧
      ((50 : ℕ) : ℚ) / 10 ^ 2 < p.votesYes.toNat / voted.toNat
  · rw [if_pos hmajority]
    exact iff_of_true rfl
      ⟨hreached, hmajority.1, (hpass hmajority.1).mp (by exact_mod_cast hmajority.2)⟩
  · rw [if_neg hmajority]
    refine iff_of_false Bool.false_ne_true ?_
    rintro ⟨-, hpos, hlt⟩
    exact hmajority ⟨hpos, by exact_mod_cast (hpass hpos).mpr hlt⟩

theorem tallyAndExecute_eq_true_iff {fl : FloatOps F} {div : F → F → F} {g : Governance} {id : UInt64}
    {p : Proposal} (hp : g.proposals.lookup id = some p) (currentBlock : UInt32)
    (totalActiveStake : UInt64) :
    (g.tallyAndExecute fl div id currentBlock totalActiveStake).1 = true ↔
      p.Decides (.tallyAndExecute id currentBlock totalActiveStake) ∧
        (p.decision fl div totalActiveStake).1 = true := by
  have hblock : p.endBlock ≤ currentBlock ↔ ¬ currentBlock < p.endBlock := UInt32.not_lt.symm
  simp only [tallyAndExecute, hp, Proposal.Decides, hblock]
  by_cases hstatus : p.status = .active
  · by_cases hearly : currentBlock < p.endBlock <;> simp [hstatus, hearly]
  · simp [hstatus]

section Created

variable (g : Governance) {proposer title : Bytes} (description : Bytes) (type : ProposalType)
  (startBlock : UInt32) (targetParam : Bytes) (newVal : UInt64)

/-- The engine after `vote` is called with each ballot. -/
def afterBallots (g : Governance) (id : UInt64) (ballots : List Ballot) : Governance :=
  Run.after (call exactFloat (· / ·)) g (ballots.map (Ballot.castOn id))

/-- The ballots that these calls record. -/
def recordedOf (g : Governance) (id : UInt64) (ballots : List Ballot) : List Ballot :=
  recordedBallots id (Run.log (call exactFloat (· / ·)) g (ballots.map (Ballot.castOn id)))

/-- The proposal that `create_proposal` adds. -/
theorem lookup_createProposal (hproposer : proposer ≠ []) (htitle : title ≠ []) :
    let created := g.createProposal proposer title description type startBlock targetParam newVal
    ∃ p, created.2.proposals.lookup created.1 = some p ∧ p.status = .active ∧
      p.endBlock = startBlock + votingPeriodBlocks ∧ p.votesYes = 0 ∧ p.votesNo = 0 ∧
      p.votesAbstain = 0 ∧ p.voterRecords = ∅ := by
  have hnot : ¬ (proposer = [] ∨ title = []) := not_or.mpr ⟨hproposer, htitle⟩
  rw [createProposal, if_neg hnot]
  exact ⟨_, AList.lookup_insert _, by simp⟩

/-- The proposal after the ballots: its voters are those of the recorded ballots, each with one, and its
totals are the exact sums modulo 2⁶⁴. -/
theorem lookup_afterBallots (hproposer : proposer ≠ []) (htitle : title ≠ [])
    (ballots : List Ballot) :
    let created := g.createProposal proposer title description type startBlock targetParam newVal
    let recorded := recordedOf created.2 created.1 ballots
    ∃ p, (afterBallots created.2 created.1 ballots).proposals.lookup created.1 = some p ∧
      p.status = .active ∧ p.endBlock = startBlock + votingPeriodBlocks ∧
      p.votesYes.toNat = stakeSum true recorded % 2 ^ 64 ∧
      (p.votesYes + p.votesNo + p.votesAbstain).toNat =
        (stakeSum true recorded + stakeSum false recorded) % 2 ^ 64 ∧
      (recorded.map Ballot.voter).Nodup ∧
      ∀ voter support, p.voterRecords.lookup voter = some support ↔
        ∃ b ∈ recorded, b.voter = voter ∧ b.support = support := by
  intro created recorded
  obtain ⟨p₀, hp₀, hactive, hend, hyes, hno, habstain, hrecords⟩ :=
    lookup_createProposal g description type startBlock targetParam newVal hproposer htitle
  have hcalls : ∀ c ∈ ballots.map (Ballot.castOn created.1),
      c.target = some created.1 ∧ ¬ p₀.Decides c := by
    intro c hc
    obtain ⟨b, -, rfl⟩ := List.mem_map.mp hc
    exact ⟨rfl, id⟩
  obtain ⟨p, hp, hcounted⟩ := counted_run exactFloat (· / ·) hp₀ hactive
    (fun c hc => (hcalls c hc).1) (fun c hc => (hcalls c hc).2)
  have hyesSum := hcounted.votesYes
  have hnoSum := hcounted.votesNo
  rw [hyes, UInt64.toNat_zero, Nat.zero_add] at hyesSum
  rw [hno, UInt64.toNat_zero, Nat.zero_add] at hnoSum
  refine ⟨p, hp, hcounted.status.trans hactive, hcounted.endBlock.trans hend, hyesSum, ?_,
    hcounted.nodup, fun voter support => ?_⟩
  · rw [UInt64.toNat_add, UInt64.toNat_add, hcounted.votesAbstain, habstain, UInt64.toNat_zero,
      hyesSum, hnoSum, Nat.add_zero, Nat.mod_mod, ← Nat.add_mod]
    rfl
  · rw [hcounted.lookup_iff, hrecords, AList.lookup_empty]
    exact or_iff_right (fun h => by cases h)

/-- **A majority and a quorum, exactly when the wrapped totals show no false one**: after any ballots on
a new proposal, a tally that returns true has the majority and the quorum of the exact stakes, unless it
is late enough and the totals modulo 2⁶⁴ pass where the stakes for are not more than those against. -/
theorem passes_on_majority_iff (hproposer : proposer ≠ []) (htitle : title ≠ [])
    (ballots : List Ballot) (currentBlock : UInt32) (totalActiveStake : UInt64) :
    let created := g.createProposal proposer title description type startBlock targetParam newVal
    let recorded := recordedOf created.2 created.1 ballots
    ((((afterBallots created.2 created.1 ballots).tallyAndExecute exactFloat (· / ·) created.1
        currentBlock totalActiveStake).1 = true → RealMajority recorded totalActiveStake) ↔
      currentBlock < startBlock + votingPeriodBlocks ∨ ¬ FalseMajority recorded totalActiveStake) ∧
    (stakeSum true recorded + stakeSum false recorded < 2 ^ 64 →
      ¬ FalseMajority recorded totalActiveStake) := by
  intro created recorded
  refine ⟨?_, not_falseMajority_of_lt totalActiveStake⟩
  obtain ⟨p, hp, hactive, hend, hyes, hvoted, -, -⟩ := lookup_afterBallots g description type
    startBlock targetParam newVal hproposer htitle ballots
  rw [tallyAndExecute_eq_true_iff hp, decision_exact, hyes, hvoted, Proposal.Decides, hend,
    ← UInt32.not_le]
  constructor
  · intro h
    by_contra hcontra
    obtain ⟨hblock, hfalse⟩ := not_or.mp hcontra
    obtain ⟨hle, hpos, hlt, hquorum⟩ := not_not.mp hfalse
    have := (h ⟨⟨hactive, not_not.mp hblock⟩, hquorum, hpos, hlt⟩).1
    omega
  · rintro h ⟨⟨-, hblock⟩, hquorum, hpos, hlt⟩
    have hmore : stakeSum false recorded < stakeSum true recorded := by
      by_contra hle
      exact h.elim (absurd hblock) (absurd ⟨by omega, hpos, hlt, hquorum⟩)
    have hmod := Nat.mod_le (stakeSum true recorded + stakeSum false recorded) (2 ^ 64)
    refine ⟨by omega, fun hsome => (hquorum hsome).trans (Nat.mul_le_mul_left 100 hmod)⟩

end Created

/-- A small majority. -/
theorem passes_on_majority_small :
    let created := ({} : Governance).createProposal [97] [98] [] .textProposal 0 [] 0
    RealMajority (recordedOf created.2 created.1 [⟨[97], 30, true, 5⟩, ⟨[98], 10, false, 6⟩]) 60 :=
  ((passes_on_majority_iff {} [] .textProposal 0 [] 0 (List.cons_ne_nil 97 [])
    (List.cons_ne_nil 98 []) [⟨[97], 30, true, 5⟩, ⟨[98], 10, false, 6⟩] 100 60).1.mpr
    (.inr (by decide +kernel))) (by decide +kernel)

/-- Two voters with 2⁶³ each against and one with 10 for. -/
theorem wrapped_majority_passes :
    let created := ({} : Governance).createProposal [97] [98] [] .parameterChange 0 [99] 7
    let ballots : List Ballot := [⟨[97], 9223372036854775808, false, 5⟩,
      ⟨[98], 9223372036854775808, false, 6⟩, ⟨[99], 10, true, 7⟩]
    ((afterBallots created.2 created.1 ballots).tallyAndExecute exactFloat (· / ·) created.1
        100 20).1 = true ∧
      stakeSum true (recordedOf created.2 created.1 ballots) = 10 ∧
      stakeSum false (recordedOf created.2 created.1 ballots) = 2 ^ 64 := by
  decide +kernel

end Governance

end Mermai
