import Mermai.Consensus.Ballots

/-!
# Consensus.BallotOrder — the order of the calls of one block

Two orders of the same votes and tallies on a proposal, both by block number (`Reordered`).  A voter's
opening ballots are those of the first block in which it votes within the voting period (`Opens`); they
depend on the set of the calls only, and one of them is recorded before the first tally that decides
(`mem_recorded_iff`).  So the voters on record and the status are those of any other order
(`tally_order`), as long as nothing races with the decision in its own block.
-/

namespace Mermai

namespace Governance

variable {F : Type}

/-- The block in which a call is made. -/
def Call.block : Call → UInt32
  | .createProposal _ _ _ _ currentBlock _ _ => currentBlock
  | .vote _ _ _ _ currentBlock => currentBlock
  | .tallyAndExecute _ currentBlock _ => currentBlock

/-- The same calls, both times ordered by block. -/
structure Reordered (calls calls' : List Call) : Prop where
  perm : calls.Perm calls'
  sorted : calls.Pairwise fun c d => c.block ≤ d.block
  sorted' : calls'.Pairwise fun c d => c.block ≤ d.block

/-- A ballot of a new voter within the voting period, with none of the same voter in an earlier block. -/
def Opens (p : Proposal) (id : UInt64) (calls : List Call) (b : Ballot) : Prop :=
  b.castOn id ∈ calls ∧ b.block ≤ p.endBlock ∧ b.voter ∉ p.voterRecords ∧
    ∀ b' : Ballot, b'.castOn id ∈ calls → b'.voter = b.voter → b.block ≤ b'.block

theorem Opens.perm {p : Proposal} {id : UInt64} {calls calls' : List Call} {b : Ballot}
    (h : Opens p id calls b) (hperm : calls.Perm calls') : Opens p id calls' b :=
  ⟨hperm.subset h.1, h.2.1, h.2.2.1, fun b' hb' => h.2.2.2 b' (hperm.symm.subset hb')⟩

theorem castOn_inj {id : UInt64} {b b' : Ballot} (h : b.castOn id = b'.castOn id) : b = b' := by
  cases b
  cases b'
  cases h
  rfl

theorem not_decides_castOn (p : Proposal) (id : UInt64) (b : Ballot) : ¬ p.Decides (b.castOn id) :=
  fun h => h

section Run

variable (fl : FloatOps F) (div : F → F → F) {g : Governance} {id : UInt64} {p : Proposal}
  {calls : List Call}

/-! ## Before the decision -/

/-- The last call of a run without a decision. -/
theorem recordedBallots_concat (hp : g.proposals.lookup id = some p) (hactive : p.status = .active)
    {c : Call} (htarget : ∀ d ∈ calls ++ [c], d.target = some id)
    (hearly : ∀ d ∈ calls ++ [c], ¬ p.Decides d) :
    ∃ p', (Run.after (call fl div) g calls).proposals.lookup id = some p' ∧
      Counted p p' (recordedBallots id (Run.log (call fl div) g calls)) ∧
      ∀ b, b ∈ recordedBallots id (Run.log (call fl div) g (calls ++ [c])) ↔
        b ∈ recordedBallots id (Run.log (call fl div) g calls) ∨ (c = b.castOn id ∧ p'.Takes b) := by
  obtain ⟨p', hp', hcounted⟩ := counted_run fl div hp hactive
    (fun d hd => htarget d (List.mem_append_left _ hd))
    (fun d hd => hearly d (List.mem_append_left _ hd))
  refine ⟨p', hp', hcounted, fun b => ?_⟩
  have hc : c ∈ calls ++ [c] := List.mem_append_right _ List.mem_cons_self
  rw [Run.log_concat, recordedBallots_append, List.mem_append]
  apply or_congr_right
  show b ∈ recordedBallots id [(c, ((Run.after (call fl div) g calls).call fl div c).1)] ↔ _
  rcases eq_of_target (htarget c hc) with ⟨b', rfl⟩ | ⟨currentBlock, totalActiveStake, rfl⟩
  · rw [call_castOn fl div hp']
    by_cases htakes : p'.Takes b'
    · rw [if_pos htakes]
      have hlast : recordedBallots id [(b'.castOn id, .answered true)] = [b'] := by
        simp [recordedBallots, Ballot.castOn]
      rw [hlast, List.mem_singleton]
      constructor
      · rintro rfl
        exact ⟨rfl, htakes⟩
      · exact fun h => (castOn_inj h.1).symm
    · rw [if_neg htakes]
      have hlast : recordedBallots id [(b'.castOn id, .answered false)] = [] := by
        simp [recordedBallots, Ballot.castOn]
      rw [hlast]
      refine iff_of_false List.not_mem_nil ?_
      rintro ⟨heq, h⟩
      rw [castOn_inj heq] at htakes
      exact htakes h
  · have hnone : recordedBallots id [(.tallyAndExecute id currentBlock totalActiveStake,
        ((Run.after (call fl div) g calls).call fl div
          (.tallyAndExecute id currentBlock totalActiveStake)).1)] = [] := rfl
    rw [hnone]
    exact iff_of_false List.not_mem_nil fun h => by cases h.1

/-- A ballot cast within the voting period puts its voter on record. -/
theorem mem_voterRecords_of_cast (hp : g.proposals.lookup id = some p) (hactive : p.status = .active)
    (htarget : ∀ c ∈ calls, c.target = some id) (hearly : ∀ c ∈ calls, ¬ p.Decides c) {b : Ballot}
    (hb : b.castOn id ∈ calls) (hblock : b.block ≤ p.endBlock) :
    b.voter ∈ p.voterRecords ∨
      ∃ b' ∈ recordedBallots id (Run.log (call fl div) g calls), b'.voter = b.voter := by
  induction calls using List.reverseRecOn with
  | nil => exact absurd hb List.not_mem_nil
  | append_singleton calls c ih =>
    obtain ⟨p', hp', hcounted, hrecorded⟩ := recordedBallots_concat fl div hp hactive htarget hearly
    simp only [hrecorded]
    rcases List.mem_append.mp hb with hold | hlast
    · rcases ih (fun d hd => htarget d (List.mem_append_left _ hd))
        (fun d hd => hearly d (List.mem_append_left _ hd)) hold with hbefore | ⟨b', hb', hvoter⟩
      · exact .inl hbefore
      · exact .inr ⟨b', .inl hb', hvoter⟩
    · by_cases hvoter : b.voter ∈ p'.voterRecords
      · rcases (hcounted.mem_voterRecords _).mp hvoter with hbefore | ⟨b', hb', heq⟩
        · exact .inl hbefore
        · exact .inr ⟨b', .inl hb', heq⟩
      · refine .inr ⟨b, .inr ⟨(List.mem_singleton.mp hlast).symm, ?_⟩, rfl⟩
        exact ⟨hcounted.status.trans hactive, hcounted.endBlock ▸ hblock, hvoter⟩

/-- A recorded ballot is an opening one. -/
theorem opens_of_recorded (hp : g.proposals.lookup id = some p) (hactive : p.status = .active)
    (htarget : ∀ c ∈ calls, c.target = some id) (hearly : ∀ c ∈ calls, ¬ p.Decides c)
    (hsorted : calls.Pairwise fun c d => c.block ≤ d.block) {b : Ballot}
    (hb : b ∈ recordedBallots id (Run.log (call fl div) g calls)) : Opens p id calls b := by
  induction calls using List.reverseRecOn with
  | nil => exact absurd hb List.not_mem_nil
  | append_singleton calls c ih =>
    obtain ⟨p', hp', hcounted, hrecorded⟩ := recordedBallots_concat fl div hp hactive htarget hearly
    obtain ⟨hsortedInit, -, hlate⟩ := List.pairwise_append.mp hsorted
    have htargetInit := fun d hd => htarget d (List.mem_append_left [c] hd)
    have hearlyInit := fun d hd => hearly d (List.mem_append_left [c] hd)
    rcases (hrecorded b).mp hb with hold | ⟨rfl, hstatus, hblock, hvoter⟩
    · obtain ⟨hcast, hblock, hnew, hfirst⟩ := ih htargetInit hearlyInit hsortedInit hold
      refine ⟨List.mem_append_left _ hcast, hblock, hnew, fun b' hb' hvoter => ?_⟩
      rcases List.mem_append.mp hb' with hold' | hlast
      · exact hfirst b' hold' hvoter
      · rw [← List.mem_singleton.mp hlast] at hlate
        exact hlate _ hcast _ List.mem_cons_self
    · rw [hcounted.mem_voterRecords, not_or] at hvoter
      rw [hcounted.endBlock] at hblock
      refine ⟨List.mem_append_right _ List.mem_cons_self, hblock, hvoter.1, fun b' hb' heq => ?_⟩
      rcases List.mem_append.mp hb' with hold | hlast
      · -- an earlier ballot of the voter would have been recorded
        have hle : b'.block ≤ b.block := hlate _ hold _ List.mem_cons_self
        have hcast := mem_voterRecords_of_cast fl div hp hactive htargetInit hearlyInit hold
          (UInt32.le_trans hle hblock)
        rw [heq] at hcast
        exact absurd hcast (not_or.mpr hvoter)
      · rw [castOn_inj (List.mem_singleton.mp hlast)]
        exact UInt32.le_refl _

/-! ## The decision -/

theorem decision_ne_active (p : Proposal) (totalActiveStake : UInt64) :
    (p.decision fl div totalActiveStake).2 ≠ .active := by
  unfold Proposal.decision
  dsimp only
  split_ifs <;> simp

/-- The decision is taken on the totals and the type. -/
theorem decision_congr {p p' : Proposal} (htype : p.type = p'.type) (hyes : p.votesYes = p'.votesYes)
    (hno : p.votesNo = p'.votesNo) (habstain : p.votesAbstain = p'.votesAbstain)
    (totalActiveStake : UInt64) :
    p.decision fl div totalActiveStake = p'.decision fl div totalActiveStake := by
  unfold Proposal.decision
  rw [htype, hyes, hno, habstain]

/-- A decided proposal refuses all calls on it. -/
theorem lookup_after_decided (hp : g.proposals.lookup id = some p) (hstatus : p.status ≠ .active)
    (htarget : ∀ c ∈ calls, c.target = some id) :
    (Run.after (call fl div) g calls).proposals.lookup id = some p := by
  induction calls using List.reverseRecOn with
  | nil => exact hp
  | append_singleton calls c ih =>
    have hbefore := ih fun d hd => htarget d (List.mem_append_left _ hd)
    rw [Run.after_append]
    show ((Run.after (call fl div) g calls).call fl div c).2.proposals.lookup id = some p
    rcases eq_of_target (htarget c (List.mem_append_right _ List.mem_cons_self)) with
      ⟨b, rfl⟩ | ⟨currentBlock, totalActiveStake, rfl⟩
    · rw [call_castOn fl div hbefore, if_neg fun h => hstatus h.1]
      exact hbefore
    · rw [call_tally fl div hbefore, if_neg fun h => hstatus h.1]
      exact hbefore

/-- The calls in front of the first tally that decides. -/
def undecided (p : Proposal) (calls : List Call) : List Call :=
  calls.takeWhile fun c => ¬ p.Decides c

theorem undecided_initial (p : Proposal) (calls : List Call) : undecided p calls <+: calls :=
  List.takeWhile_prefix _

theorem not_decides_of_undecided {c : Call} (h : c ∈ undecided p calls) : ¬ p.Decides c := by
  simpa using List.mem_takeWhile_imp h

/-- Either no call decides, or the first that does stands behind the undecided ones. -/
theorem undecided_cases (p : Proposal) (calls : List Call) :
    (undecided p calls = calls ∧ ∀ c ∈ calls, ¬ p.Decides c) ∨
      ∃ t rest, calls = undecided p calls ++ t :: rest ∧ p.Decides t := by
  have hsplit := List.takeWhile_append_dropWhile (p := fun c => decide ¬ p.Decides c) (l := calls)
  have hhead := List.head?_dropWhile_not (fun c => decide ¬ p.Decides c) calls
  cases hrest : calls.dropWhile (fun c => decide ¬ p.Decides c) with
  | nil =>
    rw [hrest, List.append_nil] at hsplit
    exact .inl ⟨hsplit, fun c hc => not_decides_of_undecided (hsplit.symm ▸ hc)⟩
  | cons t rest =>
    rw [hrest] at hsplit hhead
    refine .inr ⟨t, rest, hsplit.symm, ?_⟩
    simpa using hhead

/-- **All the calls**: the ballots in front of the first deciding tally are counted, and that tally takes
the decision on them. -/
theorem after_calls (hp : g.proposals.lookup id = some p) (hactive : p.status = .active)
    (htarget : ∀ c ∈ calls, c.target = some id) :
    ∃ p', Counted p p' (recordedBallots id (Run.log (call fl div) g (undecided p calls))) ∧
      (((∀ c ∈ calls, ¬ p.Decides c) ∧
          (Run.after (call fl div) g calls).proposals.lookup id = some p') ∨
        ∃ currentBlock totalActiveStake,
          Call.tallyAndExecute id currentBlock totalActiveStake ∈ calls ∧
          p.Decides (.tallyAndExecute id currentBlock totalActiveStake) ∧
          (Run.after (call fl div) g calls).proposals.lookup id =
            some { p' with status := (p'.decision fl div totalActiveStake).2 }) := by
  obtain ⟨p', hp', hcounted⟩ := counted_run fl div hp hactive
    (fun c hc => htarget c ((undecided_initial p calls).subset hc))
    (fun c hc => not_decides_of_undecided hc)
  refine ⟨p', hcounted, ?_⟩
  rcases undecided_cases p calls with ⟨hall, hnone⟩ | ⟨t, rest, hsplit, ht⟩
  · rw [hall] at hp'
    exact .inl ⟨hnone, hp'⟩
  have hmem : t ∈ calls := hsplit ▸ List.mem_append_right _ List.mem_cons_self
  rcases eq_of_target (htarget t hmem) with ⟨b, rfl⟩ | ⟨currentBlock, totalActiveStake, rfl⟩
  · exact absurd ht (not_decides_castOn p id b)
  refine .inr ⟨currentBlock, totalActiveStake, hmem, ht, ?_⟩
  have hdecides : p'.Decides (.tallyAndExecute id currentBlock totalActiveStake) :=
    ⟨hcounted.status.trans hactive, hcounted.endBlock ▸ ht.2⟩
  have hrest : ∀ c ∈ rest, c.target = some id := fun c hc =>
    htarget c (hsplit ▸ List.mem_append_right _ (List.mem_cons_of_mem _ hc))
  rw [hsplit, Run.after_append]
  show (Run.after (call fl div) ((Run.after (call fl div) g (undecided p calls)).call fl div
    (.tallyAndExecute id currentBlock totalActiveStake)).2 rest).proposals.lookup id = _
  rw [call_tally fl div hp', if_pos hdecides]
  exact lookup_after_decided fl div (AList.lookup_insert _)
    (decision_ne_active fl div p' totalActiveStake) hrest

/-! ## Reordering -/

/-- All calls are made up to the block of the first tally that decides. -/
def UpToDecision (p : Proposal) (calls : List Call) : Prop :=
  ∀ t ∈ calls, p.Decides t → ∀ c ∈ calls, c.block ≤ t.block

/-- No ballot is opened in the block of a tally that decides. -/
def QuietDecision (p : Proposal) (id : UInt64) (calls : List Call) : Prop :=
  ∀ t ∈ calls, p.Decides t → ∀ b, Opens p id calls b → b.block ≠ t.block

/-- The opening ballots of one voter are equal. -/
def SameBallots (p : Proposal) (id : UInt64) (calls : List Call) : Prop :=
  ∀ b b', Opens p id calls b → Opens p id calls b' → b.voter = b'.voter →
    b.stake = b'.stake ∧ b.support = b'.support

/-- The tallies that decide are given the same active stake. -/
def SameTotals (p : Proposal) (id : UInt64) (calls : List Call) : Prop :=
  ∀ currentBlock currentBlock' totalActiveStake totalActiveStake',
    Call.tallyAndExecute id currentBlock totalActiveStake ∈ calls →
    Call.tallyAndExecute id currentBlock' totalActiveStake' ∈ calls →
    p.Decides (.tallyAndExecute id currentBlock totalActiveStake) →
    p.Decides (.tallyAndExecute id currentBlock' totalActiveStake') →
    totalActiveStake = totalActiveStake'

/-- No ballot races with a decision behind the voting period. -/
theorem quietDecision_of_late (h : ∀ t ∈ calls, p.Decides t → p.endBlock < t.block) :
    QuietDecision p id calls := by
  intro t ht hdecides b hb heq
  have hlate := h t ht hdecides
  rw [← heq, ← UInt32.not_le] at hlate
  exact hlate hb.2.1

/-- An opening ballot is cast in front of the decision. -/
theorem Opens.undecided {b : Ballot} (h : Opens p id calls b) (hlast : UpToDecision p calls)
    (hquiet : QuietDecision p id calls) (hsorted : calls.Pairwise fun c d => c.block ≤ d.block) :
    b.castOn id ∈ undecided p calls := by
  rcases undecided_cases p calls with ⟨hall, -⟩ | ⟨t, rest, hsplit, ht⟩
  · rw [hall]
    exact h.1
  have hmem : t ∈ calls := hsplit ▸ List.mem_append_right _ List.mem_cons_self
  have hcast := h.1
  rw [hsplit] at hcast hsorted
  rcases List.mem_append.mp hcast with hbefore | hbehind
  · exact hbefore
  rcases List.mem_cons.mp hbehind with rfl | hrest
  · exact absurd ht (not_decides_castOn p id b)
  have hle : t.block ≤ b.block :=
    (List.pairwise_cons.mp (List.pairwise_append.mp hsorted).2.1).1 _ hrest
  exact absurd (UInt32.le_antisymm (hlast t hmem ht _ h.1) hle) (hquiet t hmem ht b h)

/-- A ballot recorded before the decision opens among all the calls. -/
theorem opens_of_undecided (hp : g.proposals.lookup id = some p) (hactive : p.status = .active)
    (htarget : ∀ c ∈ calls, c.target = some id)
    (hsorted : calls.Pairwise fun c d => c.block ≤ d.block) {b : Ballot}
    (hb : b ∈ recordedBallots id (Run.log (call fl div) g (undecided p calls))) :
    Opens p id calls b := by
  obtain ⟨rest, hsplit⟩ := undecided_initial p calls
  have hsub := (undecided_initial p calls).subset
  rw [← hsplit] at hsorted
  obtain ⟨hsortedInit, -, hlate⟩ := List.pairwise_append.mp hsorted
  obtain ⟨hcast, hblock, hnew, hfirst⟩ := opens_of_recorded fl div hp hactive
    (fun c hc => htarget c (hsub hc)) (fun c hc => not_decides_of_undecided hc) hsortedInit hb
  refine ⟨hsub hcast, hblock, hnew, fun b' hb' hvoter => ?_⟩
  rw [← hsplit] at hb'
  rcases List.mem_append.mp hb' with hbefore | hbehind
  · exact hfirst b' hbefore hvoter
  · exact hlate _ hcast _ hbehind

/-- The voter of an opening ballot is recorded before the decision. -/
theorem recorded_of_opens (hp : g.proposals.lookup id = some p) (hactive : p.status = .active)
    (htarget : ∀ c ∈ calls, c.target = some id)
    (hsorted : calls.Pairwise fun c d => c.block ≤ d.block) (hlast : UpToDecision p calls)
    (hquiet : QuietDecision p id calls) {b : Ballot} (hb : Opens p id calls b) :
    ∃ b' ∈ recordedBallots id (Run.log (call fl div) g (undecided p calls)),
      b'.voter = b.voter := by
  have hcast := mem_voterRecords_of_cast fl div hp hactive
    (fun c hc => htarget c ((undecided_initial p calls).subset hc))
    (fun c hc => not_decides_of_undecided hc) (hb.undecided hlast hquiet hsorted) hb.2.1
  exact hcast.resolve_left hb.2.2.1

/-- When the opening ballots of a voter are equal, they are the recorded ones. -/
theorem mem_recorded_iff (hp : g.proposals.lookup id = some p) (hactive : p.status = .active)
    (htarget : ∀ c ∈ calls, c.target = some id)
    (hsorted : calls.Pairwise fun c d => c.block ≤ d.block) (hlast : UpToDecision p calls)
    (hquiet : QuietDecision p id calls) (hsame : SameBallots p id calls) (b : Ballot) :
    b ∈ recordedBallots id (Run.log (call fl div) g (undecided p calls)) ↔ Opens p id calls b := by
  refine ⟨opens_of_undecided fl div hp hactive htarget hsorted, fun hb => ?_⟩
  obtain ⟨b', hb', hvoter⟩ := recorded_of_opens fl div hp hactive htarget hsorted hlast hquiet hb
  have hopens := opens_of_undecided fl div hp hactive htarget hsorted hb'
  obtain ⟨hstake, hsupport⟩ := hsame b' b hopens hb hvoter
  have hblock : b'.block = b.block :=
    UInt32.le_antisymm (hopens.2.2.2 b hb.1 hvoter.symm) (hb.2.2.2 b' hopens.1 hvoter)
  have heq : b' = b := by
    cases b
    cases b'
    simp_all
  exact heq ▸ hb'

/-- The voters on record after all the calls are the old ones and those with an opening ballot. -/
theorem mem_voterRecords_undecided (hp : g.proposals.lookup id = some p) (hactive : p.status = .active)
    (htarget : ∀ c ∈ calls, c.target = some id)
    (hsorted : calls.Pairwise fun c d => c.block ≤ d.block) (hlast : UpToDecision p calls)
    (hquiet : QuietDecision p id calls) {p' : Proposal}
    (hcounted : Counted p p' (recordedBallots id (Run.log (call fl div) g (undecided p calls))))
    (voter : Bytes) :
    voter ∈ p'.voterRecords ↔ voter ∈ p.voterRecords ∨ ∃ b, Opens p id calls b ∧ b.voter = voter := by
  rw [hcounted.mem_voterRecords]
  apply or_congr_right
  constructor
  · rintro ⟨b, hb, hvoter⟩
    exact ⟨b, opens_of_undecided fl div hp hactive htarget hsorted hb, hvoter⟩
  · rintro ⟨b, hb, rfl⟩
    exact recorded_of_opens fl div hp hactive htarget hsorted hlast hquiet hb

/-- Proposals that counted the same ballots decide alike. -/
theorem Counted.decision_eq {p₀ p p' : Proposal} {ballots ballots' : List Ballot}
    (h : Counted p₀ p ballots) (h' : Counted p₀ p' ballots') (hperm : ballots.Perm ballots')
    (totalActiveStake : UInt64) :
    p.decision fl div totalActiveStake = p'.decision fl div totalActiveStake := by
  refine decision_congr fl div (h.type.trans h'.type.symm) ?_ ?_
    (h.votesAbstain.trans h'.votesAbstain.symm) totalActiveStake
  · rw [← UInt64.toNat_inj, h.votesYes, h'.votesYes, stakeSum_perm true hperm]
  · rw [← UInt64.toNat_inj, h.votesNo, h'.votesNo, stakeSum_perm false hperm]

/-- **The order within a block does not matter**: votes and tallies on a proposal, made up to the block of
the first tally that decides, leave the same voters on record in any order of the calls of one block,
if no ballot is opened in the block of the decision; and the same status, if moreover the opening ballots
of a voter are equal and the deciding tallies are given the same active stake. -/
theorem tally_order {calls' : List Call} (hp : g.proposals.lookup id = some p)
    (htarget : ∀ c ∈ calls, c.target = some id) (horder : Reordered calls calls')
    (hlast : UpToDecision p calls) (hquiet : QuietDecision p id calls) :
    ∃ q q', (Run.after (call fl div) g calls).proposals.lookup id = some q ∧
      (Run.after (call fl div) g calls').proposals.lookup id = some q' ∧
      (∀ voter, voter ∈ q.voterRecords ↔ voter ∈ q'.voterRecords) ∧
      (SameBallots p id calls → SameTotals p id calls → q.status = q'.status) := by
  have hmem : ∀ c, c ∈ calls' ↔ c ∈ calls := fun c => horder.perm.mem_iff.symm
  have hopens : ∀ b, Opens p id calls' b ↔ Opens p id calls b := fun b =>
    ⟨fun h => h.perm horder.perm.symm, fun h => h.perm horder.perm⟩
  have htarget' : ∀ c ∈ calls', c.target = some id := fun c hc => htarget c ((hmem c).mp hc)
  by_cases hactive : p.status = .active
  · have hlast' : UpToDecision p calls' := fun t ht hdecides c hc =>
      hlast t ((hmem t).mp ht) hdecides c ((hmem c).mp hc)
    have hquiet' : QuietDecision p id calls' := fun t ht hdecides b hb =>
      hquiet t ((hmem t).mp ht) hdecides b ((hopens b).mp hb)
    obtain ⟨r, hcounted, hafter⟩ := after_calls fl div hp hactive htarget
    obtain ⟨r', hcounted', hafter'⟩ := after_calls fl div hp hactive htarget'
    have hvoters : ∀ voter, voter ∈ r.voterRecords ↔ voter ∈ r'.voterRecords := by
      intro voter
      rw [mem_voterRecords_undecided fl div hp hactive htarget horder.sorted hlast hquiet hcounted,
        mem_voterRecords_undecided fl div hp hactive htarget' horder.sorted' hlast' hquiet' hcounted']
      simp only [hopens]
    rcases hafter with ⟨hnone, hq⟩ | ⟨block, total, ht, hdecides, hq⟩ <;>
      rcases hafter' with ⟨hnone', hq'⟩ | ⟨block', total', ht', hdecides', hq'⟩
    · exact ⟨r, r', hq, hq', hvoters, fun _ _ => hcounted.status.trans hcounted'.status.symm⟩
    · exact absurd hdecides' (hnone _ ((hmem _).mp ht'))
    · exact absurd hdecides (hnone' _ ((hmem _).mpr ht))
    · refine ⟨_, _, hq, hq', hvoters, fun hsame htotals => ?_⟩
      have hsame' : SameBallots p id calls' := fun b b' hb hb' =>
        hsame b b' ((hopens b).mp hb) ((hopens b').mp hb')
      have hperm := (List.perm_ext_iff_of_nodup (List.Nodup.of_map _ hcounted.nodup)
        (List.Nodup.of_map _ hcounted'.nodup)).mpr fun b => by
          rw [mem_recorded_iff fl div hp hactive htarget horder.sorted hlast hquiet hsame,
            mem_recorded_iff fl div hp hactive htarget' horder.sorted' hlast' hquiet' hsame', hopens]
      have htotal : total = total' :=
        htotals block block' total total' ht ((hmem _).mp ht') hdecides hdecides'
      show (r.decision fl div total).2 = (r'.decision fl div total').2
      rw [htotal, Counted.decision_eq fl div hcounted hcounted' hperm]
  · exact ⟨p, p, lookup_after_decided fl div hp hactive htarget,
      lookup_after_decided fl div hp hactive htarget', fun _ => Iff.rfl, fun _ _ => rfl⟩

end Run

/-! ## Samples -/

/-- An engine with one open proposal up to block 100. -/
def oneProposal : Governance := (({} : Governance).createProposal [97] [98] [] .textProposal 0 [] 0).2

/-- The status of the proposal and its voters after calls on `oneProposal`. -/
def outcome (calls : List Call) : Option (ProposalStatus × List Bytes) :=
  ((Run.after (call exactFloat (· / ·)) oneProposal calls).proposals.lookup 1).map fun p =>
    (p.status, p.voterRecords.keys)

/-- The proposal of `oneProposal`. -/
def openProposal : Proposal :=
  { id := 1, proposer := [97], title := [98], description := [], type := .textProposal
    targetParameter := [], newParameterValue := 0, startBlock := 0, endBlock := 100 }

/-- A ballot for and one against in block 5, and a tally behind the voting period. -/
def twoBallots : List Call := [.vote 1 [97] 30 true 5, .vote 1 [98] 10 false 5, .tallyAndExecute 1 101 40]

theorem tally_order_pair :
    ∃ q q', (Run.after (call exactFloat (· / ·)) oneProposal twoBallots).proposals.lookup 1 = some q ∧
      (Run.after (call exactFloat (· / ·)) oneProposal
        [.vote 1 [98] 10 false 5, .vote 1 [97] 30 true 5, .tallyAndExecute 1 101 40]
        ).proposals.lookup 1 = some q' ∧ q.status = q'.status := by
  have hsame : SameBallots openProposal 1 twoBallots := by
    intro b b' hb hb' hvoter
    have hcast := hb.1
    have hcast' := hb'.1
    simp only [twoBallots, Ballot.castOn, List.mem_cons, List.not_mem_nil, or_false, Call.vote.injEq,
      reduceCtorEq] at hcast hcast'
    rcases hcast with ⟨-, h1, h2, h3, -⟩ | ⟨-, h1, h2, h3, -⟩ <;>
      rcases hcast' with ⟨-, h1', h2', h3', -⟩ | ⟨-, h1', h2', h3', -⟩ <;> simp_all
  have htotals : SameTotals openProposal 1 twoBallots := by
    intro block block' total total' ht ht' _ _
    simp only [twoBallots, List.mem_cons, List.not_mem_nil, or_false, false_or,
      Call.tallyAndExecute.injEq, reduceCtorEq] at ht ht'
    exact ht.2.2.trans ht'.2.2.symm
  obtain ⟨q, q', hq, hq', -, hstatus⟩ := @tally_order ℚ exactFloat (· / ·) oneProposal 1
    openProposal twoBallots _ rfl (by decide)
    ⟨List.Perm.swap _ _ _, by decide, by decide⟩ (by unfold UpToDecision; decide)
    (quietDecision_of_late (by decide))
  exact ⟨q, q', hq, hq', hstatus hsame htotals⟩

/-- Two calls of one block that give different results in the two orders: the two ballots of a voter,
tallies with different totals, and a ballot against the deciding tally. -/
theorem tally_order_matters :
    (let yes := Call.vote 1 [97] 30 true 5
      let no := Call.vote 1 [97] 30 false 5
      let tally := Call.tallyAndExecute 1 101 40
      Reordered [yes, no, tally] [no, yes, tally] ∧
        outcome [yes, no, tally] = some (.passed, [[97]]) ∧
        outcome [no, yes, tally] = some (.rejected, [[97]])) ∧
    (let yes := Call.vote 1 [97] 30 true 5
      let small := Call.tallyAndExecute 1 101 40
      let large := Call.tallyAndExecute 1 101 400
      Reordered [yes, small, large] [yes, large, small] ∧
        outcome [yes, small, large] = some (.passed, [[97]]) ∧
        outcome [yes, large, small] = some (.rejected, [[97]])) ∧
    (let yes := Call.vote 1 [97] 30 true 100
      let tally := Call.tallyAndExecute 1 100 40
      Reordered [yes, tally] [tally, yes] ∧ outcome [yes, tally] = some (.passed, [[97]]) ∧
        outcome [tally, yes] = some (.rejected, [])) := by
  refine ⟨⟨⟨?_, ?_, ?_⟩, ?_, ?_⟩, ⟨⟨?_, ?_, ?_⟩, ?_, ?_⟩, ⟨⟨?_, ?_, ?_⟩, ?_, ?_⟩⟩
  all_goals first | exact List.Perm.swap _ _ _ | exact (List.Perm.swap _ _ _).cons _ | decide +kernel

end Governance

end Mermai
