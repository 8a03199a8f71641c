import Mermai.Lib.Run
import Mermai.Lib.StdMap
import Mermai.Consensus.Stake

/-!
# Consensus.Governance — proposals, votes and their tally

`mermai_governance_engine`.  A proposal is open to votes until it is tallied; the tally decides it in one
call, through `PASSED` to `EXECUTED` for a change of a parameter.  A call touches the proposal it names
and no other, and an open proposal only (`Touches`); the rest is what this gives over whole runs.  The
ratios of the tally are floats, so they are a parameter here (`FloatOps` and a division).
-/

namespace Mermai

open Sql (Table)

variable {F : Type}

/-! ## The engine -/

/-- `proposal_status`. -/
inductive ProposalStatus
  | active | passed | rejected | executed
deriving DecidableEq

/-- `proposal_type`. -/
inductive ProposalType
  | parameterChange | textProposal | communityGrant
deriving DecidableEq

/-- `mermai_proposal`. -/
structure Proposal where
  id : UInt64
  proposer : Bytes
  title : Bytes
  description : Bytes
  type : ProposalType
  status : ProposalStatus := .active
  targetParameter : Bytes
  newParameterValue : UInt64
  startBlock : UInt32
  endBlock : UInt32
  votesYes : UInt64 := 0
  votesNo : UInt64 := 0
  votesAbstain : UInt64 := 0
  voterRecords : Table Bytes Bool := ∅

/-- `mermai_governance_engine`. -/
structure Governance where
  proposals : Table UInt64 Proposal := ∅
  nextProposalId : UInt64 := 1

/-- `voting_period_blocks`. -/
abbrev votingPeriodBlocks : UInt32 := 100

/-- The record of a vote. -/
def Proposal.record (p : Proposal) (voter : Bytes) (stake : UInt64) (support : Bool) : Proposal :=
  let p := { p with voterRecords := p.voterRecords.insert voter support }
  if support then { p with votesYes := p.votesYes + stake }
  else { p with votesNo := p.votesNo + stake }

/-- What `tally_and_execute` returns for an open proposal, and the status it gives it. -/
def Proposal.decision (fl : FloatOps F) (div : F → F → F) (p : Proposal) (totalActiveStake : UInt64) :
    Bool × ProposalStatus :=
  let totalVoted := p.votesYes + p.votesNo + p.votesAbstain
  if 0 < totalActiveStake ∧
      fl.lt (div (fl.ofUInt64 totalVoted) (fl.ofUInt64 totalActiveStake)) (fl.lit 40 2) then
    (false, .rejected)
  else if 0 < totalVoted ∧
      fl.lt (fl.lit 50 2) (div (fl.ofUInt64 p.votesYes) (fl.ofUInt64 totalVoted)) then
    (true, if p.type = .parameterChange then .executed else .passed)
  else (false, .rejected)

namespace Governance

/-- A write through the reference that `find` gives. -/
def put (g : Governance) (id : UInt64) (p : Proposal) : Governance :=
  { g with proposals := g.proposals.insert id p }

/-- `create_proposal`. -/
def createProposal (g : Governance) (proposer title description : Bytes) (type : ProposalType)
    (currentBlock : UInt32) (targetParam : Bytes) (newVal : UInt64) : UInt64 × Governance :=
  if proposer = [] ∨ title = [] then (0, g)
  else
    let pid := g.nextProposalId
    let p : Proposal :=
      { id := pid, proposer, title, description, type, targetParameter := targetParam
        newParameterValue := newVal, startBlock := currentBlock
        endBlock := currentBlock + votingPeriodBlocks }
    (pid, { proposals := g.proposals.insert pid p, nextProposalId := g.nextProposalId + 1 })

/-- `vote`. -/
def vote (g : Governance) (id : UInt64) (voter : Bytes) (stake : UInt64) (support : Bool)
    (currentBlock : UInt32) : Bool × Governance :=
  match g.proposals.lookup id with
  | none => (false, g)
  | some p =>
    if p.status ≠ .active then (false, g)
    else if currentBlock > p.endBlock then (false, g)
    else if voter ∈ p.voterRecords then (false, g)
    else (true, g.put id (p.record voter stake support))

/-- `tally_and_execute`. -/
def tallyAndExecute (fl : FloatOps F) (div : F → F → F) (g : Governance) (id : UInt64)
    (currentBlock : UInt32) (totalActiveStake : UInt64) : Bool × Governance :=
  match g.proposals.lookup id with
  | none => (false, g)
  | some p =>
    if p.status ≠ .active then (false, g)
    else if currentBlock < p.endBlock then (false, g)
    else
      let decision := p.decision fl div totalActiveStake
      (decision.1, g.put id { p with status := decision.2 })

/-! ## Runs -/

inductive Call
  | createProposal (proposer title description : Bytes) (type : ProposalType)
      (currentBlock : UInt32) (targetParam : Bytes) (newVal : UInt64)
  | vote (id : UInt64) (voter : Bytes) (stake : UInt64) (support : Bool) (currentBlock : UInt32)
  | tallyAndExecute (id : UInt64) (currentBlock : UInt32) (totalActiveStake : UInt64)

inductive Reply
  | created (id : UInt64)
  | answered (ok : Bool)
deriving DecidableEq

def call (fl : FloatOps F) (div : F → F → F) (g : Governance) : Call → Reply × Governance
  | .createProposal proposer title description type currentBlock targetParam newVal =>
    (g.createProposal proposer title description type currentBlock targetParam newVal).map .created id
  | .vote pid voter stake support currentBlock =>
    (g.vote pid voter stake support currentBlock).map .answered id
  | .tallyAndExecute pid currentBlock totalActiveStake =>
    (g.tallyAndExecute fl div pid currentBlock totalActiveStake).map .answered id

/-- The proposal that a vote or a tally is about. -/
def Call.target : Call → Option UInt64
  | .createProposal .. => none
  | .vote id .. => some id
  | .tallyAndExecute id .. => some id

/-- A call that makes a proposal. -/
def Call.creates : Call → Bool
  | .createProposal proposer title .. => proposer ≠ [] ∧ title ≠ []
  | _ => false

/-- The number of proposals that a run makes. -/
def proposalCount (calls : List Call) : ℕ := calls.countP Call.creates

/-- The ids other than zero that a run has returned. -/
def createdIds (log : List (Call × Reply)) : List UInt64 :=
  log.filterMap fun
    | (_, .created id) => if id = 0 then none else some id
    | _ => none

/-- The accepted votes of a voter on a proposal. -/
def acceptedVotes (id : UInt64) (voter : Bytes) (log : List (Call × Reply)) : List (Call × Reply) :=
  log.filter fun
    | (.vote votedOn votedBy .., .answered true) => votedOn = id ∧ votedBy = voter
    | _ => false

/-- The engine after a run of calls. -/
def run (fl : FloatOps F) (div : F → F → F) (calls : List Call) : Governance :=
  Run.after (call fl div) {} calls

/-! ## One call -/

/-- What a call can do. -/
inductive Touches (g : Governance) : Call → Reply × Governance → Prop
  | refusedCreate {c : Call} : c.creates = false → c.target = none → Touches g c (.created 0, g)
  | created {c : Call} {p : Proposal} : c.creates = true → c.target = none →
      Touches g c (.created g.nextProposalId,
        { proposals := g.proposals.insert g.nextProposalId p
          nextProposalId := g.nextProposalId + 1 })
  | refused {c : Call} {id : UInt64} : c.creates = false → c.target = some id →
      Touches g c (.answered false, g)
  | voted {id : UInt64} {p : Proposal} {voter : Bytes} {stake : UInt64} {support : Bool}
      {currentBlock : UInt32} : g.proposals.lookup id = some p → p.status = .active →
      voter ∉ p.voterRecords → Touches g (.vote id voter stake support currentBlock)
        (.answered true, g.put id (p.record voter stake support))
  | tallied {id : UInt64} {p : Proposal} {currentBlock : UInt32} {totalActiveStake : UInt64}
      {ok : Bool} {status : ProposalStatus} : g.proposals.lookup id = some p →
      p.status = .active → Touches g (.tallyAndExecute id currentBlock totalActiveStake)
        (.answered ok, g.put id { p with status })

section Call

variable {fl : FloatOps F} {div : F → F → F} {g : Governance} {c : Call} {r : Reply × Governance}
  {id : UInt64} {p : Proposal}

/-- **Inversion** of the calls. -/
theorem call_touches (fl : FloatOps F) (div : F → F → F) (g : Governance) (c : Call) :
    Touches g c (g.call fl div c) := by
  cases c with
  | createProposal proposer title description type currentBlock targetParam newVal =>
    by_cases h : proposer = [] ∨ title = []
    · have hcall : g.call fl div (.createProposal proposer title description type currentBlock
          targetParam newVal) = (.created 0, g) := by
        simp only [call, createProposal, if_pos h]
        rfl
      rw [hcall]
      exact .refusedCreate (decide_eq_false (by tauto)) rfl
    · simp only [call, createProposal, if_neg h]
      exact .created (decide_eq_true (not_or.mp h)) rfl
  | vote pid voter stake support currentBlock =>
    simp only [call, vote]
    cases hp : g.proposals.lookup pid with
    | none => exact .refused rfl rfl
    | some p =>
      dsimp only
      split_ifs with hstatus hblock hvoter
      · exact .refused rfl rfl
      · exact .refused rfl rfl
      · exact .refused rfl rfl
      · exact .voted hp (not_not.mp hstatus) hvoter
  | tallyAndExecute pid currentBlock totalActiveStake =>
    simp only [call, tallyAndExecute]
    cases hp : g.proposals.lookup pid with
    | none => exact .refused rfl rfl
    | some p =>
      dsimp only
      split_ifs with hstatus hblock
      · exact .refused rfl rfl
      · exact .refused rfl rfl
      · exact .tallied hp (not_not.mp hstatus)

theorem lookup_put_of_ne {id' : UInt64} (h : id ≠ id') (p : Proposal) :
    (g.put id' p).proposals.lookup id = g.proposals.lookup id := AList.lookup_insert_ne h

/-- **Isolation**: a call changes the proposal it names, or adds one under the next id. -/
theorem Touches.lookup_eq (h : Touches g c r) (htarget : c.target ≠ some id)
    (hnext : id ≠ g.nextProposalId) : r.2.proposals.lookup id = g.proposals.lookup id := by
  cases h with
  | refusedCreate => rfl
  | created => exact AList.lookup_insert_ne hnext
  | refused => rfl
  | voted => exact lookup_put_of_ne (fun heq => htarget (congrArg some heq.symm)) _
  | tallied => exact lookup_put_of_ne (fun heq => htarget (congrArg some heq.symm)) _

/-- **Finality**: a decided proposal is not touched. -/
theorem Touches.decided (h : Touches g c r) (hp : g.proposals.lookup id = some p)
    (hstatus : p.status ≠ .active) (hnext : id ≠ g.nextProposalId) :
    r.2.proposals.lookup id = some p ∧ (c.target = some id → r.1 = .answered false) := by
  by_cases htarget : c.target = some id
  · cases h with
    | refusedCreate _ hnone | created _ hnone =>
      rw [hnone] at htarget
      cases htarget
    | refused => exact ⟨hp, fun _ => rfl⟩
    | voted hp' hactive | tallied hp' hactive =>
      cases htarget
      rw [hp] at hp'
      cases hp'
      exact absurd hactive hstatus
  · exact ⟨(h.lookup_eq htarget hnext).trans hp, fun heq => absurd heq htarget⟩

theorem record_voterRecords (p : Proposal) (voter : Bytes) (stake : UInt64) (support : Bool) :
    (p.record voter stake support).voterRecords = p.voterRecords.insert voter support := by
  unfold Proposal.record
  dsimp only
  split_ifs <;> rfl

/-- A vote stays on record. -/
theorem Touches.records (h : Touches g c r) (hp : g.proposals.lookup id = some p)
    (hnext : id ≠ g.nextProposalId) :
    ∃ p', r.2.proposals.lookup id = some p' ∧ ∀ voter ∈ p.voterRecords, voter ∈ p'.voterRecords := by
  by_cases htarget : c.target = some id
  · cases h with
    | refusedCreate _ hnone | created _ hnone =>
      rw [hnone] at htarget
      cases htarget
    | refused => exact ⟨p, hp, fun _ hvoter => hvoter⟩
    | voted hp' =>
      cases htarget
      rw [hp] at hp'
      cases hp'
      refine ⟨_, AList.lookup_insert _, fun voter hvoter => ?_⟩
      rw [record_voterRecords]
      exact (AList.mem_insert _).mpr (.inr hvoter)
    | tallied hp' =>
      cases htarget
      rw [hp] at hp'
      cases hp'
      exact ⟨_, AList.lookup_insert _, fun voter hvoter => hvoter⟩
  · exact ⟨p, (h.lookup_eq htarget hnext).trans hp, fun _ hvoter => hvoter⟩

/-- An accepted vote was not on record and is now. -/
theorem Touches.accepted {voter : Bytes} {stake : UInt64} {support : Bool} {currentBlock : UInt32}
    (h : Touches g (.vote id voter stake support currentBlock) r) (hr : r.1 = .answered true) :
    ∃ p p', g.proposals.lookup id = some p ∧ voter ∉ p.voterRecords ∧
      r.2.proposals.lookup id = some p' ∧ voter ∈ p'.voterRecords := by
  cases h with
  | refusedCreate => cases hr
  | created => cases hr
  | refused => cases hr
  | voted hp hactive hvoter =>
    refine ⟨_, _, hp, hvoter, AList.lookup_insert _, ?_⟩
    rw [record_voterRecords]
    exact (AList.mem_insert _).mpr (.inl rfl)

end Call

/-! ## Ids -/

section Run

variable (fl : FloatOps F) (div : F → F → F)

theorem run_concat (calls : List Call) (c : Call) :
    run fl div (calls ++ [c]) = ((run fl div calls).call fl div c).2 :=
  Run.after_append (call fl div) {} calls [c]

theorem createdIds_append (log log' : List (Call × Reply)) :
    createdIds (log ++ log') = createdIds log ++ createdIds log' := List.filterMap_append

theorem proposalCount_append (calls calls' : List Call) :
    proposalCount (calls ++ calls') = proposalCount calls + proposalCount calls' :=
  List.countP_append

/-- The counter has moved once for every proposal, and the ids in the map are behind it. -/
theorem run_nextProposalId (calls : List Call) :
    (run fl div calls).nextProposalId = UInt64.ofNat (proposalCount calls + 1) := by
  induction calls using List.reverseRecOn with
  | nil => rfl
  | append_singleton calls c ih =>
    rw [run_concat, proposalCount_append]
    have htouch := call_touches fl div (run fl div calls) c
    generalize (run fl div calls).call fl div c = r at htouch
    cases htouch with
    | created hcreates =>
      have hone : proposalCount [c] = 1 := by simp [proposalCount, hcreates]
      rw [hone]
      show (run fl div calls).nextProposalId + 1 = UInt64.ofNat (proposalCount calls + 1 + 1)
      rw [ih, UInt64.ofNat_add (proposalCount calls + 1) 1]
      rfl
    | refusedCreate hcreates | refused hcreates =>
      have hzero : proposalCount [c] = 0 := by simp [proposalCount, hcreates]
      rw [hzero, Nat.add_zero, ih]
    | voted | tallied => exact ih

/-- The ids in the map are behind the counter. -/
theorem toNat_le_of_mem_run {calls : List Call} (hfew : proposalCount calls < 2 ^ 64 - 1)
    {id : UInt64} (h : id ∈ (run fl div calls).proposals) : id.toNat ≤ proposalCount calls := by
  induction calls using List.reverseRecOn with
  | nil => exact absurd h (AList.notMem_empty id)
  | append_singleton calls c ih =>
    rw [proposalCount_append] at hfew ⊢
    by_cases hold : id ∈ (run fl div calls).proposals
    · have := ih (by omega) hold
      omega
    rw [run_concat] at h
    have htouch := call_touches fl div (run fl div calls) c
    generalize (run fl div calls).call fl div c = r at htouch h
    have hstored : ∀ {pid p}, (run fl div calls).proposals.lookup pid = some p →
        pid ∈ (run fl div calls).proposals := fun hp => by
      rw [← AList.lookup_isSome, hp]
      rfl
    cases htouch with
    | created hcreates =>
      have hone : proposalCount [c] = 1 := by simp [proposalCount, hcreates]
      have hnext : id = (run fl div calls).nextProposalId :=
        ((AList.mem_insert _).mp h).resolve_right hold
      rw [hnext, run_nextProposalId, UInt64.toNat_ofNat', Nat.mod_eq_of_lt (by omega), hone]
    | refusedCreate | refused => exact absurd h hold
    | voted hp | tallied hp =>
      rcases (AList.mem_insert _).mp h with rfl | hrest
      · exact absurd (hstored hp) hold
      · exact absurd hrest hold

/-- The next id is a new one. -/
theorem ne_nextProposalId {calls : List Call} (hfew : proposalCount calls < 2 ^ 64 - 1) {id : UInt64}
    {p : Proposal} (h : (run fl div calls).proposals.lookup id = some p) :
    id ≠ (run fl div calls).nextProposalId := by
  have hmem : id ∈ (run fl div calls).proposals := by
    rw [← AList.lookup_isSome, h]
    rfl
  have hle := toNat_le_of_mem_run fl div hfew hmem
  rintro rfl
  rw [run_nextProposalId, UInt64.toNat_ofNat', Nat.mod_eq_of_lt (by omega)] at hle
  omega

theorem createdIds_log {calls : List Call} (hfew : proposalCount calls < 2 ^ 64 - 1) :
    createdIds (Run.log (call fl div) {} calls) =
      (List.range (proposalCount calls)).map fun i => UInt64.ofNat (i + 1) := by
  induction calls using List.reverseRecOn with
  | nil => rfl
  | append_singleton calls c ih =>
    rw [proposalCount_append] at hfew ⊢
    rw [Run.log_concat, createdIds_append, ih (by omega)]
    have hnext := run_nextProposalId fl div calls
    have htouch := call_touches fl div (run fl div calls) c
    show _ ++ createdIds [(c, ((run fl div calls).call fl div c).1)] = _
    generalize (run fl div calls).call fl div c = r at htouch
    cases htouch with
    | created hcreates =>
      have hone : proposalCount [c] = 1 := by simp [proposalCount, hcreates]
      have hne : (run fl div calls).nextProposalId ≠ 0 := by
        rw [hnext, ne_eq, ← UInt64.toNat_inj, UInt64.toNat_ofNat', Nat.mod_eq_of_lt (by omega)]
        exact Nat.succ_ne_zero _
      rw [hone, List.range_succ, List.map_append, List.map_singleton, ← hnext]
      simp [createdIds, hne]
    | refusedCreate hcreates | refused hcreates =>
      have hzero : proposalCount [c] = 0 := by simp [proposalCount, hcreates]
      rw [hzero]
      simp [createdIds]
    | voted | tallied => simp [createdIds, proposalCount, Call.creates]

/-! ## Votes and decisions -/

theorem mem_acceptedVotes {id : UInt64} {voter : Bytes} {log : List (Call × Reply)}
    {e : Call × Reply} (h : e ∈ acceptedVotes id voter log) :
    e ∈ log ∧ ∃ stake support currentBlock,
      e = (.vote id voter stake support currentBlock, .answered true) := by
  obtain ⟨hmem, hvote⟩ := List.mem_filter.mp h
  refine ⟨hmem, ?_⟩
  split at hvote
  · obtain ⟨rfl, rfl⟩ := of_decide_eq_true hvote
    exact ⟨_, _, _, rfl⟩
  · cases hvote

theorem acceptedVotes_append (id : UInt64) (voter : Bytes) (log log' : List (Call × Reply)) :
    acceptedVotes id voter (log ++ log') = acceptedVotes id voter log ++ acceptedVotes id voter log' :=
  List.filter_append log log'

/-- One vote a voter, and it is on record. -/
theorem acceptedVotes_run {calls : List Call} (hfew : proposalCount calls < 2 ^ 64 - 1) (id : UInt64)
    (voter : Bytes) :
    (acceptedVotes id voter (Run.log (call fl div) {} calls)).length ≤ 1 ∧
    (acceptedVotes id voter (Run.log (call fl div) {} calls) ≠ [] →
      ∃ p, (run fl div calls).proposals.lookup id = some p ∧ voter ∈ p.voterRecords) := by
  induction calls using List.reverseRecOn with
  | nil => exact ⟨Nat.zero_le 1, fun h => absurd rfl h⟩
  | append_singleton calls c ih =>
    rw [proposalCount_append] at hfew
    obtain ⟨hone, hrecorded⟩ := ih (by omega)
    have htouch := call_touches fl div (run fl div calls) c
    rw [run_concat, Run.log_concat, acceptedVotes_append]
    show (_ ++ acceptedVotes id voter [(c, ((run fl div calls).call fl div c).1)]).length ≤ 1 ∧
      (_ ++ acceptedVotes id voter [(c, ((run fl div calls).call fl div c).1)] ≠ [] → _)
    generalize (run fl div calls).call fl div c = r at htouch
    cases hlast : acceptedVotes id voter [(c, r.1)] with
    | nil =>
      rw [List.append_nil]
      refine ⟨hone, fun hne => ?_⟩
      obtain ⟨p, hp, hvoter⟩ := hrecorded hne
      obtain ⟨p', hp', hkept⟩ := htouch.records hp (ne_nextProposalId fl div (by omega) hp)
      exact ⟨p', hp', hkept voter hvoter⟩
    | cons e rest =>
      have he : e ∈ acceptedVotes id voter [(c, r.1)] := hlast ▸ List.mem_cons_self
      obtain ⟨hmem, stake, support, currentBlock, hvote⟩ := mem_acceptedVotes he
      have hpair := (List.mem_singleton.mp hmem).symm.trans hvote
      obtain ⟨hc, hr⟩ := Prod.mk.inj hpair
      subst hc
      obtain ⟨p, p', hp, hnot, hp', hvoter⟩ := htouch.accepted hr
      -- a vote on record would have refused this one
      have hnone : acceptedVotes id voter (Run.log (call fl div) {} calls) = [] := by
        by_contra hne
        obtain ⟨q, hq, hin⟩ := hrecorded hne
        rw [hp] at hq
        cases hq
        exact hnot hin
      have hle : (acceptedVotes id voter [(Call.vote id voter stake support currentBlock, r.1)]).length
          ≤ 1 := List.length_filter_le _ _
      rw [hnone, List.nil_append, ← hlast]
      exact ⟨hle, fun _ => ⟨p', hp', hvoter⟩⟩

/-- A decided proposal stays as it is, and every later vote or tally on it is refused. -/
theorem decided_run {before later : List Call}
    (hfew : proposalCount (before ++ later) < 2 ^ 64 - 1) {id : UInt64} {p : Proposal}
    (hp : (run fl div before).proposals.lookup id = some p) (hstatus : p.status ≠ .active) :
    (run fl div (before ++ later)).proposals.lookup id = some p ∧
    ∀ e ∈ Run.log (call fl div) (run fl div before) later,
      e.1.target = some id → e.2 = .answered false := by
  induction later using List.reverseRecOn with
  | nil =>
    rw [List.append_nil]
    exact ⟨hp, fun e he => absurd he (List.not_mem_nil)⟩
  | append_singleton later c ih =>
    rw [← List.append_assoc] at hfew ⊢
    rw [proposalCount_append] at hfew
    obtain ⟨hkept, hlog⟩ := ih (by omega)
    have hdecided := (call_touches fl div (run fl div (before ++ later)) c).decided hkept hstatus
      (ne_nextProposalId fl div (by omega) hkept)
    rw [run_concat]
    refine ⟨hdecided.1, fun e he htarget => ?_⟩
    rw [Run.log_concat] at he
    rcases List.mem_append.mp he with hearlier | hlast
    · exact hlog e hearlier htarget
    · have hrun : Run.after (call fl div) (run fl div before) later = run fl div (before ++ later) :=
        (Run.after_append (call fl div) {} before later).symm
      rw [List.mem_singleton.mp hlast, hrun] at htarget ⊢
      exact hdecided.2 htarget

/-- **Isolated and final**: in a run with fewer than 2⁶⁴ - 1 proposals the ids returned differ, a call
changes no proposal but the one it names, a voter has one accepted vote on a proposal, and a proposal that
is no longer active stays as it is and refuses every vote and tally. -/
theorem isolated_and_final (calls : List Call) (hfew : proposalCount calls < 2 ^ 64 - 1) :
    (createdIds (Run.log (call fl div) {} calls)).Nodup ∧
    (∀ before c later id p, calls = before ++ c :: later →
      (run fl div before).proposals.lookup id = some p → c.target ≠ some id →
        (run fl div (before ++ [c])).proposals.lookup id = some p) ∧
    (∀ id voter, (acceptedVotes id voter (Run.log (call fl div) {} calls)).length ≤ 1) ∧
    ∀ before later id p, calls = before ++ later →
      (run fl div before).proposals.lookup id = some p → p.status ≠ .active →
        (run fl div calls).proposals.lookup id = some p ∧
        ∀ e ∈ Run.log (call fl div) (run fl div before) later,
          e.1.target = some id → e.2 = .answered false := by
  refine ⟨?_, ?_, fun id voter => (acceptedVotes_run fl div hfew id voter).1, ?_⟩
  · rw [createdIds_log fl div hfew]
    exact Run.nodup_counter (by omega)
  · rintro before c later id p rfl hp htarget
    rw [proposalCount_append] at hfew
    rw [run_concat, (call_touches fl div _ c).lookup_eq htarget
      (ne_nextProposalId fl div (by omega) hp)]
    exact hp
  · rintro before later id p rfl hp hstatus
    exact decided_run fl div hfew hp hstatus

end Run

/-- A change of a parameter with one vote for it, and its tally. -/
def smallCalls : List Call :=
  [.createProposal [97] [98] [] .parameterChange 0 [99] 7, .vote 1 [97] 10 true 50,
    .tallyAndExecute 1 100 20]

/-- A second tally and a late vote change nothing. -/
theorem isolated_and_final_small :
    ∃ p, p.status = .executed ∧
      (run exactFloat (· / ·) (smallCalls ++ [.tallyAndExecute 1 200 0, .vote 1 [98] 5 false 60])
        ).proposals.lookup 1 = some p := by
  have hstatus : ((run exactFloat (· / ·) smallCalls).proposals.lookup 1).map Proposal.status =
      some .executed := by decide +kernel
  obtain ⟨p, hp, hexecuted⟩ := Option.map_eq_some_iff.mp hstatus
  refine ⟨p, hexecuted, ?_⟩
  exact ((isolated_and_final exactFloat (· / ·) (smallCalls ++ _) (by decide)).2.2.2 smallCalls _ 1 p rfl
    hp (by rw [hexecuted]; decide)).1

end Governance

end Mermai
