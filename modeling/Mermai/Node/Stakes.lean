import Mermai.Chain.Slashing
import Mermai.Consensus.LiveStake
import Mermai.Node.Process
import Mermai.Node.Sync
import Mathlib.Logic.Relation

/-!
# Node.Stakes — what an event does to the validators and the votes

A message, a request or a round of `consensus_loop` changes the validators of a node and its collector in few
ways (`StakeMove`): a proposal slashes, a finalized block sets the time of the last proposal, a vote is added.
Only a request registers a validator.  `react_moves` says this once for all events, and what every move keeps
holds along a run.
-/

namespace Mermai

open Relation
open Merlite (ascii)

variable {F : Type}

/-! ## Moves -/

/-- A change of the validators or of the collector that is not a registration. -/
inductive StakeMove (C : Crypto) (fl : FloatOps F) : FinalityState → FinalityState → Prop
  | slashed (s : FinalityState) (address : Bytes) :
      StakeMove C fl s { s with validators := slashValidator fl s.validators address (fl.lit 5 1) }
  | proposed (s : FinalityState) (address : Bytes) (timestamp : UInt64) :
      StakeMove C fl s { s with validators := setLastProposal address timestamp s.validators }
  | voted (s : FinalityState) (vote : BlockVote) :
      StakeMove C fl s { s with collector := (addVote C s.validators s.collector vote).2 }

/-- Any number of changes. -/
abbrev StakeMoves (C : Crypto) (fl : FloatOps F) : FinalityState → FinalityState → Prop :=
  ReflTransGen (StakeMove C fl)

/-- What every move keeps, any number of moves keeps. -/
theorem StakeMoves.invariant {C : Crypto} {fl : FloatOps F} {Inv : FinalityState → Prop}
    (hstep : ∀ s s', Inv s → StakeMove C fl s s' → Inv s') {s s' : FinalityState} (hs : Inv s)
    (h : StakeMoves C fl s s') : Inv s' := by
  induction h with
  | refl => exact hs
  | tail _ hmove ih => exact hstep _ _ ih hmove

/-- The validators and the collector of a node, empty where it has none. -/
def Node.finality (n : Node) : FinalityState where
  validators := (n.engine.map Engine.activeValidators).getD []
  collector := n.quorum.getD .empty

/-! ## Proposals -/

/-- What a run of `validate_proposal` leaves of an engine that may be missing. -/
inductive RanTo (C : Crypto) (fl : FloatOps F) : Option Engine → Option Engine → Prop
  | none : RanTo C fl none none
  | some {e e' : Engine} {calls : List ProposalCall} : CallRun C fl e calls e' →
      RanTo C fl (some e) (some e')

theorem RanTo.refl (C : Crypto) (fl : FloatOps F) (eng : Option Engine) : RanTo C fl eng eng := by
  cases eng with
  | none => exact .none
  | some e => exact .some (.nil e)

theorem RanTo.trans {C : Crypto} {fl : FloatOps F} {e₁ e₂ e₃ : Option Engine}
    (h : RanTo C fl e₁ e₂) (h' : RanTo C fl e₂ e₃) : RanTo C fl e₁ e₃ := by
  cases h with
  | none => exact h'
  | some hrun =>
    cases h' with
    | some hrun' => exact .some (hrun.append hrun')

theorem Checked.RunsFrom.ranTo {C : Crypto} {fl : FloatOps F} {e : Engine} {r : Checked}
    (h : r.RunsFrom C fl e) : RanTo C fl (.some e) r.engine := by
  obtain ⟨e', he', hrun⟩ := h
  rw [he']
  exact .some hrun

theorem canAddBlock_ranTo (C : Crypto) (fl : FloatOps F) (now : ℕ) (eng : Option Engine)
    (chain : List Block) (block : Option Block) :
    RanTo C fl eng (canAddBlock C fl now eng chain block).engine := by
  cases eng with
  | none =>
    rw [canAddBlock_engine_none]
    exact .none
  | some e => exact (canAddBlock_runsFrom C fl now e chain block).ranTo

theorem validateCandidate_engine_none (C : Crypto) (fl : FloatOps F) (now : ℕ)
    (validated : List Block) (candidate : List (Option Block)) :
    (validateCandidate C fl now none validated candidate).1.engine = none := by
  induction candidate generalizing validated with
  | nil => rfl
  | cons block rest ih =>
    cases block with
    | none => rfl
    | some b =>
      have hp : (candidateProposal C fl none validated b).engine = none := by
        unfold candidateProposal
        split_ifs <;> rfl
      rw [validateCandidate]
      dsimp only
      split_ifs
      · rw [hp]
        exact ih _
      · exact hp
      · rfl

theorem replaceChainIfLonger_ranTo (C : Crypto) (fl : FloatOps F) (now : ℕ) (eng : Option Engine)
    (chain : List Block) (candidate : List (Option Block)) :
    RanTo C fl eng (replaceChainIfLonger C fl now eng chain candidate).1.engine := by
  unfold replaceChainIfLonger
  split_ifs
  · exact .refl C fl eng
  · cases eng with
    | none =>
      dsimp only
      rw [validateCandidate_engine_none]
      exact .none
    | some e => exact (validateCandidate_runsFrom C fl now e [] candidate).ranTo

theorem CallRun.moves {C : Crypto} {fl : FloatOps F} {e e' : Engine} {calls : List ProposalCall}
    (h : CallRun C fl e calls e') (q : QuorumCollector) :
    StakeMoves C fl ⟨e.activeValidators, q⟩ ⟨e'.activeValidators, q⟩ := by
  induction h with
  | nil => exact .refl
  | @cons c cs e' _ ih =>
    rcases validateProposal_cases C fl c.before c.block c.time with
      ⟨-, heq⟩ | ⟨-, ⟨_, -, -, heq⟩ | ⟨-, heq⟩ | ⟨-, heq⟩⟩
    · rw [ProposalCall.after, heq] at ih
      exact ih
    · rw [ProposalCall.after, heq] at ih
      exact .head (.slashed ⟨c.before.activeValidators, q⟩ c.block.validatorAddress) ih
    · rw [ProposalCall.after, heq] at ih
      exact ih
    · rw [ProposalCall.after, heq] at ih
      exact ih

/-! ## Messages -/

section Messages

variable {C : Crypto} {fl : FloatOps F} {clock : ℕ → ℕ}

/-- The engines have run, and nothing was voted. -/
structure Node.Proposes (C : Crypto) (fl : FloatOps F) (n n' : Node) : Prop where
  engine : RanTo C fl n.engine n'.engine
  quorum : n'.quorum = n.quorum

theorem Node.Proposes.trans {n n' n'' : Node} (h : n.Proposes C fl n') (h' : n'.Proposes C fl n'') :
    n.Proposes C fl n'' := ⟨h.engine.trans h'.engine, h'.quorum.trans h.quorum⟩

theorem Node.Proposes.moves {n n' : Node} (h : n.Proposes C fl n') :
    StakeMoves C fl n.finality n'.finality := by
  obtain ⟨hengine, hquorum⟩ := h
  unfold Node.finality
  rw [hquorum]
  generalize n.engine = eng at hengine
  generalize n'.engine = eng' at hengine
  cases hengine with
  | none => exact .refl
  | some hrun => exact hrun.moves _

theorem Node.proposes_acceptBlock (n : Node) (b : Block) :
    n.Proposes C fl (n.acceptBlock C fl clock b).2 := by
  have hcan := canAddBlock_ranTo C fl (clock n.ticks) n.engine n.chain (some b)
  simp only [Node.acceptBlock]
  split_ifs
  · exact ⟨hcan.trans (canAddBlock_ranTo C fl _ _ n.chain (some b)), rfl⟩
  · exact ⟨hcan, rfl⟩
  · exact ⟨hcan, rfl⟩

theorem Node.proposes_acceptBlocks (blocks : List Block) (n : Node) :
    n.Proposes C fl (n.acceptBlocks C fl clock blocks).2 := by
  induction blocks generalizing n with
  | nil => exact ⟨.refl C fl n.engine, rfl⟩
  | cons b rest ih =>
    rw [Node.acceptBlocks]
    split_ifs
    · exact (n.proposes_acceptBlock b).trans (ih _)
    · exact n.proposes_acceptBlock b

theorem Node.proposes_handleBlocks (n : Node) (payload : Bytes) :
    n.Proposes C fl (handleBlocks C fl clock n payload).node := by
  have hrefl : n.Proposes C fl n := ⟨.refl C fl n.engine, rfl⟩
  rw [handleBlocks]
  split
  · exact hrefl
  · split
    · dsimp only
      split_ifs
      · exact hrefl
      · exact n.proposes_acceptBlocks _
      · exact hrefl
    · exact ⟨replaceChainIfLonger_ranTo C fl _ n.engine n.chain _, rfl⟩

/-- What a message does to the validators and the votes. -/
theorem Node.handleMessage_moves (n : Node) (m : Message) :
    StakeMoves C fl n.finality (handleMessage C fl clock n m).node.finality := by
  cases m with
  | getBlocks => exact .refl
  | other => exact .refl
  | blocks payload => exact (n.proposes_handleBlocks payload).moves
  | block payload =>
    simp only [handleMessage]
    split
    · exact .refl
    · exact (n.proposes_acceptBlock _).moves
  | newTransaction payload =>
    simp only [handleMessage, handleTransaction]
    split
    · exact .refl
    · exact .refl
  | blockVote payload =>
    simp only [handleMessage, handleVote]
    split
    · rename_i vote q e _ hq he
      have hfin : n.finality = ⟨e.activeValidators, q⟩ := by
        rw [Node.finality, hq, he]
        rfl
      have hfin' : Node.finality { n with quorum := some (addVote C e.activeValidators q vote).2 } =
          ⟨e.activeValidators, (addVote C e.activeValidators q vote).2⟩ := by
        rw [Node.finality, he]
        rfl
      rw [hfin, hfin']
      exact .single (.voted ⟨e.activeValidators, q⟩ vote)
    · exact .refl

end Messages

/-! ## Events -/

namespace MermaiNode

variable {σ : Setup F}

/-- The event is a request that registers the validator of the request. -/
inductive Registers (σ : Setup F) (s : MermaiNode F) : Event → FinalityState → Prop
  | mk {now : ℕ} {clock : ℕ → UInt64} {fuel : ℕ} {data : Bytes} {vs : List ValidatorStake}
      (hmethod : Rpc.methodOf (Rpc.requestString (requestBody (data.take 4095)) (ascii "method")) =
        some .registerValidator)
      (hreg : registerValidator σ.crypto now s.node.finality.validators
        (Rpc.requestString (requestBody (data.take 4095)) (ascii "address"))
        (Rpc.requestNumber (requestBody (data.take 4095)) (ascii "stake"))
        (Rpc.hexToBytes (Rpc.requestString (requestBody (data.take 4095)) (ascii "public_key"))) = some vs) :
      Registers σ s (.requested now clock fuel data) ⟨vs, s.node.finality.collector⟩

theorem finality_finalize (s : MermaiNode F) (b : Block) (C : Crypto) (fl : FloatOps F) :
    StakeMoves C fl s.node.finality (s.finalize b).node.finality := by
  unfold finalize
  split
  · exact .refl
  · rename_i e he
    have hfin : s.node.finality = ⟨e.activeValidators, s.node.quorum.getD .empty⟩ := by
      rw [Node.finality, he]
      rfl
    rw [hfin]
    exact .single (.proposed ⟨e.activeValidators, s.node.quorum.getD .empty⟩ b.validatorAddress
      b.timestamp)

theorem finality_connectToPeer (s : MermaiNode F) (address : Bytes) (port : UInt16) :
    (s.connectToPeer σ address port).1.node.finality = s.node.finality := by
  unfold connectToPeer
  split_ifs
  · rfl
  · rfl

/-- What a request does to the validators and the votes. -/
theorem finality_request {s : MermaiNode F} {now : ℕ} {clock : ℕ → UInt64} {fuel : ℕ} {data : Bytes}
    {S : Rpc.Server F} (h : Rpc.Server.Changes (⟨σ.crypto, σ.gas, σ.floats, now, clock⟩ : Rpc.Host F)
      (requestBody (data.take 4095)) s.server S) :
    StakeMoves σ.crypto σ.floats.toFloatOps s.node.finality (s.withServer S).node.finality ∨
      Registers σ s (.requested now clock fuel data) (s.withServer S).node.finality := by
  have hsame : ∀ T : Rpc.Server F, T.consensus = s.server.consensus → T.quorum = s.server.quorum →
      StakeMoves σ.crypto σ.floats.toFloatOps s.node.finality (s.withServer T).node.finality := by
    intro T hconsensus hquorum
    have heq : (s.withServer T).node.finality = s.node.finality := by
      simp only [Node.finality, withServer, hconsensus, hquorum, server]
      cases s.node.engine <;> rfl
    rw [heq]
  cases h with
  | nothing => exact .inl (hsame _ rfl rfl)
  | pooled tx hdb => exact .inl (hsame _ rfl rfl)
  | deployed address code hdb hsave => exact .inl (hsame _ rfl rfl)
  | @voted q vs hq hvs =>
    left
    obtain ⟨e, he, rfl⟩ := Option.map_eq_some_iff.mp (show s.node.engine.map _ = some vs from hvs)
    have hq' : s.node.quorum = some q := hq
    have hfin : s.node.finality = ⟨e.activeValidators, q⟩ := by
      rw [Node.finality, hq', he]
      rfl
    rw [hfin]
    simp only [Node.finality, withServer, he, server, hvs, Option.map_some, Option.getD_some]
    exact .single (.voted ⟨e.activeValidators, q⟩ _)
  | @registered vs vs' hvs hmethod hreg =>
    right
    obtain ⟨e, he, rfl⟩ := Option.map_eq_some_iff.mp (show s.node.engine.map _ = some vs from hvs)
    have hfin : s.node.finality = ⟨e.activeValidators, s.node.quorum.getD .empty⟩ := by
      rw [Node.finality, he]
      rfl
    have hfin' : (s.withServer { s.server with
        db := s.server.db.map fun db => (vs'.filter fun v => v.address = Rpc.requestString
          (requestBody (data.take 4095)) (ascii "address")).foldl
            (Rpc.saveRegistered σ.floats.toFloatOps) db
        consensus := some vs' }).node.finality = ⟨vs', s.node.finality.collector⟩ := by
      simp only [Node.finality, withServer, he, server, Option.map_some, Option.getD_some]
    rw [hfin']
    refine .mk hmethod ?_
    rw [hfin]
    exact hreg

/-- **Inversion** of an event for the validators and the votes. -/
theorem react_moves (σ : Setup F) (s : MermaiNode F) (e : Event) :
    StakeMoves σ.crypto σ.floats.toFloatOps s.node.finality (s.react σ e).1.node.finality ∨
      Registers σ s e (s.react σ e).1.node.finality := by
  cases e with
  | connectToPeer address port =>
    left
    rw [react, finality_connectToPeer]
  | accepted ip socket =>
    left
    simp only [react, accept]
    split_ifs
    · exact .refl
    · exact .refl
  | received place loop m =>
    left
    simp only [react, receive]
    split
    · rename_i result hround
      rw [ReceiveLoop.round_passed hround]
      exact s.node.handleMessage_moves _
    · exact .refl
  | requested now clock fuel data =>
    simp only [react, request]
    split_ifs
    · exact .inl .refl
    · split
      · exact .inl .refl
      · rename_i r S hr
        exact finality_request (Rpc.Server.changes_handleRequest hr)
  | consensusRound =>
    left
    simp only [react, consensusRound]
    cases s.assembled σ with
    | none => exact .refl
    | some b =>
      have hproposes : s.tick.node.Proposes σ.crypto σ.floats.toFloatOps
          (s.tick.node.acceptBlock σ.crypto σ.floats.toFloatOps σ.clock b).2 :=
        s.tick.node.proposes_acceptBlock b
      have hmoves := hproposes.moves
      show StakeMoves _ _ _ (s.produce σ b).1.node.finality
      rw [produce]
      split_ifs
      · exact hmoves.trans (finality_finalize { s with
          node := (s.tick.node.acceptBlock σ.crypto σ.floats.toFloatOps σ.clock b).2 } b _ _)
      · exact hmoves
  | syncRound reachable =>
    left
    simp only [react, syncRound]
    split_ifs
    · rw [finality_connectToPeer]
    · exact .refl

end MermaiNode

end Mermai
