import Mermai.Node.Network
import Mermai.Node.Producer
import Mermai.Node.Stakes

/-!
# Node.Rounds — a node that makes blocks, round after round

A round of `consensus_loop` makes a block, and the node takes it, under conditions on the engine and the
chain that the round itself must leave for the next one: validators without keys, a tip that is not after the
clock, and no recorded proposal for the next height.  `Producing` is that invariant; a round keeps it and adds
one block (`round_extends`), and every event other than a block from a peer or a registration leaves it alone
(`quiet_react`).  So over any such run every round makes one block and sends it (`rounds_extend`).
-/

namespace Mermai

open Merlite (ascii)

variable {F : Type}

/-! ## Validators that a round can name -/

/-- A validator whose unsigned blocks are accepted. -/
structure ValidatorStake.Keyless (v : ValidatorStake) : Prop where
  address : v.address ≠ []
  publicKey : v.publicKey = []
  amount : 0 < v.amount

/-- The node makes blocks: the invariant of its rounds. -/
structure MermaiNode.Producing (σ : Setup F) (s : MermaiNode F) (e : Engine) : Prop where
  engine : s.node.engine = some e
  some_validator : e.activeValidators ≠ []
  keyless : ∀ v ∈ e.activeValidators, v.Keyless
  fresh : ∀ height slot, s.node.chain.length ≤ height.toNat → e.seenProposals (height, slot) = none
  tip : ∃ tip, s.node.chain.getLast? = some tip ∧
    tip.timestamp ≤ slotTime (UInt64.ofNat (σ.clock s.node.ticks))

theorem keyless_setLastProposal {address : Bytes} {timestamp : UInt64} {vs : List ValidatorStake}
    (h : ∀ v ∈ vs, v.Keyless) : ∀ v ∈ setLastProposal address timestamp vs, v.Keyless := by
  induction vs with
  | nil => exact h
  | cons u vs ih =>
    have hu := h u List.mem_cons_self
    have hvs : ∀ v ∈ vs, v.Keyless := fun v hv => h v (List.mem_cons_of_mem _ hv)
    unfold setLastProposal
    split_ifs
    · intro v hv
      rcases List.mem_cons.mp hv with rfl | hv
      · exact ⟨hu.address, hu.publicKey, hu.amount⟩
      · exact hvs v hv
    · intro v hv
      rcases List.mem_cons.mp hv with rfl | hv
      · exact hu
      · exact ih hvs v hv

theorem setLastProposal_ne_nil {address : Bytes} {timestamp : UInt64} {vs : List ValidatorStake}
    (h : vs ≠ []) : setLastProposal address timestamp vs ≠ [] := by
  cases vs with
  | nil => exact h
  | cons v vs =>
    unfold setLastProposal
    split_ifs
    · exact List.cons_ne_nil _ _
    · exact List.cons_ne_nil _ _

/-- A later reading of the clock is in no earlier slot. -/
theorem slotTime_mono {m n : ℕ} (hle : m ≤ n) (hn : n < 2 ^ 64) :
    slotTime (UInt64.ofNat m) ≤ slotTime (UInt64.ofNat n) := by
  have htoNat : ∀ k < 2 ^ 64, (UInt64.ofNat k).toNat = k := by
    intro k hk
    rw [UInt64.toNat_ofNat', Nat.mod_eq_of_lt hk]
  rw [UInt64.le_iff_toNat_le, slotTime_toNat, slotTime_toNat, htoNat m (by omega), htoNat n hn]
  omega

/-! ## Quiet events -/

/-- The event presents no block of a peer and registers nobody. -/
def MermaiNode.Event.Quiet : MermaiNode.Event → Prop
  | .received _ _ m => m.dispatch.presented = []
  | .requested _ _ _ data => Rpc.methodOf (Rpc.requestString (MermaiNode.requestBody (data.take 4095))
      (ascii "method")) ≠ some .registerValidator
  | _ => True

/-- The event is a round of `consensus_loop`. -/
def MermaiNode.Event.isRound : MermaiNode.Event → Bool
  | .consensusRound => true
  | _ => false

/-- A message without blocks leaves the engine and the chain alone. -/
theorem handleMessage_quiet {C : Crypto} {fl : FloatOps F} {clock : ℕ → ℕ} {n : Node} {m : Message}
    (h : m.presented = []) : (handleMessage C fl clock n m).node.engine = n.engine ∧
      (handleMessage C fl clock n m).node.chain = n.chain ∧
      n.ticks ≤ (handleMessage C fl clock n m).node.ticks := by
  cases m with
  | getBlocks => exact ⟨rfl, rfl, le_rfl⟩
  | other => exact ⟨rfl, rfl, le_rfl⟩
  | blocks payload =>
    have hnil : decodeChainPayload payload = [] := h
    rw [handleMessage, handleBlocks, if_pos hnil]
    exact ⟨rfl, rfl, le_rfl⟩
  | block payload =>
    simp only [handleMessage]
    split
    · exact ⟨rfl, rfl, le_rfl⟩
    · rename_i b hdec
      rw [Message.presented, hdec] at h
      cases h
  | newTransaction payload =>
    simp only [handleMessage, handleTransaction]
    split
    · exact ⟨rfl, rfl, Nat.le_succ _⟩
    · exact ⟨rfl, rfl, le_rfl⟩
  | blockVote payload =>
    simp only [handleMessage, handleVote]
    split
    · exact ⟨rfl, rfl, le_rfl⟩
    · exact ⟨rfl, rfl, le_rfl⟩

namespace MermaiNode

variable {σ : Setup F} {s : MermaiNode F}

/-- Only `register_validator` changes the engine. -/
theorem engine_withServer {H : Rpc.Host F} {request : Bytes} {S : Rpc.Server F}
    (h : Rpc.Server.Changes H request s.server S)
    (hmethod : Rpc.methodOf (Rpc.requestString request (ascii "method")) ≠ some .registerValidator) :
    (s.withServer S).node.engine = s.node.engine := by
  have hsame : ∀ T : Rpc.Server F, T.consensus = s.server.consensus →
      (s.withServer T).node.engine = s.node.engine := by
    intro T hT
    simp only [withServer, hT, server]
    cases s.node.engine <;> rfl
  cases h with
  | nothing => exact hsame _ rfl
  | pooled tx hdb => exact hsame _ rfl
  | registered hvs hmethod' hreg => exact absurd hmethod' hmethod
  | voted hq hvs => exact hsame _ rfl
  | deployed address code hdb hsave => exact hsame _ rfl

theorem connectToPeer_node (address : Bytes) (port : UInt16) :
    (s.connectToPeer σ address port).1.node = s.node := by
  unfold connectToPeer
  split_ifs
  · rfl
  · rfl

/-- **A quiet event** leaves the engine and the chain alone. -/
theorem quiet_react (σ : Setup F) (s : MermaiNode F) {e : Event} (hquiet : e.Quiet) (hround : e.isRound = false) :
    (s.react σ e).1.node.engine = s.node.engine ∧ (s.react σ e).1.node.chain = s.node.chain ∧
      s.node.ticks ≤ (s.react σ e).1.node.ticks := by
  cases e with
  | connectToPeer address port =>
    rw [react, connectToPeer_node]
    exact ⟨rfl, rfl, le_rfl⟩
  | accepted ip socket =>
    simp only [react, accept]
    split_ifs
    · exact ⟨rfl, rfl, le_rfl⟩
    · exact ⟨rfl, rfl, le_rfl⟩
  | received place loop m =>
    simp only [react, receive]
    split
    · rename_i result hpassed
      have hresult := ReceiveLoop.round_passed hpassed
      subst hresult
      exact handleMessage_quiet hquiet
    · exact ⟨rfl, rfl, le_rfl⟩
  | requested now clock fuel data =>
    simp only [react, request]
    split_ifs
    · exact ⟨rfl, rfl, le_rfl⟩
    · split
      · exact ⟨rfl, rfl, le_rfl⟩
      · rename_i r S hr
        exact ⟨engine_withServer (Rpc.Server.changes_handleRequest hr) hquiet, rfl, le_rfl⟩
  | consensusRound => cases hround
  | syncRound reachable =>
    simp only [react, syncRound]
    split_ifs
    · rw [connectToPeer_node]
      exact ⟨rfl, rfl, le_rfl⟩
    · exact ⟨rfl, rfl, le_rfl⟩

/-! ## Rounds -/

/-- What the round assembles and what the engine makes of it. -/
structure Assembles (σ : Setup F) (s : MermaiNode F) (e : Engine) (b : Block) : Prop where
  assembled : s.assembled σ = some b
  transactions : b.transactions = []
  timestamp : b.timestamp = slotTime (UInt64.ofNat (σ.clock s.node.ticks))
  height : b.height.toNat = s.node.chain.length
  accepted : (canAddBlock σ.crypto σ.floats.toFloatOps (σ.clock s.tick.node.ticks) s.node.engine s.node.chain
    (some b)).ok = true

theorem Producing.assembles (hclock : Monotone σ.clock) (hfit : ∀ n, σ.clock n < 2 ^ 64)
    (hweight : ∀ (v : ValidatorStake) t, 0 < v.amount → σ.floats.lt (σ.floats.lit 0 0)
      (calculateWeight σ.floats.toFloatOps v t) = true) {e : Engine} (h : s.Producing σ e)
    (hlen : s.node.chain.length < 2 ^ 32) : ∃ b, s.Assembles σ e b := by
  set slot := slotTime (UInt64.ofNat (σ.clock s.node.ticks)) with hslot
  obtain ⟨tip, htip, htime⟩ := h.tip
  obtain ⟨v, hv⟩ := Option.isSome_iff_exists.mp
    (selectedValidator_isSome σ.crypto σ.floats.toFloatOps h.some_validator slot)
  have hkeyless := h.keyless v (List.mem_of_find?_eq_some hv)
  have hne : s.node.chain ≠ [] := by
    intro hnil
    rw [hnil] at htip
    cases htip
  have hheight := (height_ok_iff hne).mpr hlen
  have hlate : slot.toNat ≤ σ.clock s.tick.node.ticks + 120 := by
    have hle : σ.clock s.node.ticks ≤ σ.clock s.tick.node.ticks := hclock (Nat.le_succ _)
    rw [hslot, slotTime_toNat, UInt64.toNat_ofNat', Nat.mod_eq_of_lt (hfit _)]
    omega
  refine ⟨(nextBlock σ.crypto s.node.chain tip slot v.address).fillValidator slot v, ?_, rfl, rfl, hheight, ?_⟩
  · rw [MermaiNode.assembled, h.engine, Option.bind_some]
    exact assembleBlock_eq hv hkeyless.address htip
  · rw [canAddBlock_ok_iff, h.engine]
    refine ⟨?_, ?_, bodyOk_assembled _⟩
    · exact (extendsTip_assembled hkeyless.address hkeyless.amount htip htime hlate).mpr hlen
    · exact (proposalOk_assembled hslot hv hkeyless.address (hweight v slot hkeyless.amount)
        (h.fresh _ _ hheight.ge)).mpr hkeyless.publicKey

/-- A block without transactions is committed. -/
theorem applyStored_empty {C : Crypto} {now : ℕ} {db : Option Db} {b : Block} (hb : b.transactions = []) :
    (applyStored C now db b).1 = true := by
  cases db with
  | none => rfl
  | some db =>
    show (applyBlock C now db b).1 = true
    rw [applyBlock, hb]
    rfl

/-- The node takes the block of its round. -/
theorem Assembles.acceptBlock (hclock : Monotone σ.clock) {e : Engine} {b : Block} (h : s.Assembles σ e b)
    (he : s.node.engine = some e) :
    let r := s.tick.node.acceptBlock σ.crypto σ.floats.toFloatOps σ.clock b
    r.1 = true ∧ r.2.chain = s.node.chain ++ [b] ∧ s.node.ticks ≤ r.2.ticks ∧
      r.2.engine = some (validateProposal σ.crypto σ.floats.toFloatOps e b b.timestamp).2 ∧
      (validateProposal σ.crypto σ.floats.toFloatOps e b b.timestamp).1 = .accepted := by
  intro r
  have hr : r = s.tick.node.acceptBlock σ.crypto σ.floats.toFloatOps σ.clock b := rfl
  have hcan := h.accepted
  have hengine := canAddBlock_engine hcan
  obtain ⟨hok, hengine', hchain⟩ := @addBlock_of_canAddBlock _ _ _ _ (σ.clock (s.tick.node.ticks + 2)) _ _ _
    hcan (hclock (by omega))
  have hproposal := (canAddBlock_ok_iff.mp hcan).2.1
  rw [he] at hproposal hengine
  simp only [Node.acceptBlock] at hr
  rw [if_pos (show (canAddBlock σ.crypto σ.floats.toFloatOps (σ.clock s.tick.node.ticks) s.tick.node.engine
    s.tick.node.chain (some b)).ok = true from hcan), if_pos (applyStored_empty h.transactions)] at hr
  rw [hr]
  refine ⟨hok, hchain, ?_, ?_, of_decide_eq_true hproposal⟩
  · show s.node.ticks ≤ s.node.ticks + 1 + 3
    omega
  · show (addBlock _ _ _ _ _ _).1.engine = _
    refine hengine'.trans ?_
    rw [he]
    exact hengine

theorem engine_finalize (b : Block) (s : MermaiNode F) : (s.finalize b).node.engine =
    s.node.engine.map fun e =>
      { e with activeValidators := setLastProposal b.validatorAddress b.timestamp e.activeValidators } := by
  unfold finalize
  cases h : s.node.engine with
  | none => exact h
  | some e => rfl

theorem ticks_finalize (b : Block) (s : MermaiNode F) : (s.finalize b).node.ticks = s.node.ticks := by
  unfold finalize
  split
  · rfl
  · rfl

/-- **One round** adds a block, sends it, and leaves a node that makes blocks. -/
theorem round_extends (hclock : Monotone σ.clock) (hfit : ∀ n, σ.clock n < 2 ^ 64)
    (hweight : ∀ (v : ValidatorStake) t, 0 < v.amount → σ.floats.lt (σ.floats.lit 0 0)
      (calculateWeight σ.floats.toFloatOps v t) = true) {e : Engine} (h : s.Producing σ e)
    (hlen : s.node.chain.length < 2 ^ 32) :
    ∃ b e', (s.react σ .consensusRound).2 = [blockMessage b] ∧
      (s.react σ .consensusRound).1.node.chain = s.node.chain ++ [b] ∧
      (s.react σ .consensusRound).1.Producing σ e' := by
  obtain ⟨b, hb⟩ := h.assembles hclock hfit hweight hlen
  obtain ⟨hok, hchain, hticks, hengine, haccepted⟩ := hb.acceptBlock hclock h.engine
  have hround : s.react σ .consensusRound = ({ s with
      node := (s.tick.node.acceptBlock σ.crypto σ.floats.toFloatOps σ.clock b).2 }.finalize b,
      [blockMessage b]) := by
    rw [react, consensusRound, hb.assembled]
    exact if_pos hok
  have hvalidators := validateProposal_validators haccepted
  have hseen := validateProposal_seen haccepted
  let e' : Engine := { (validateProposal σ.crypto σ.floats.toFloatOps e b b.timestamp).2 with
    activeValidators := setLastProposal b.validatorAddress b.timestamp e.activeValidators }
  rw [hround]
  refine ⟨b, e', rfl, ?_, ?_, ?_, ?_, ?_, ?_⟩
  · dsimp only
    rw [(frames_finalize _ b).chain]
    exact hchain
  · dsimp only
    rw [engine_finalize, hengine, Option.map_some, hvalidators]
  · exact setLastProposal_ne_nil h.some_validator
  · exact keyless_setLastProposal h.keyless
  · intro height slot hheight
    dsimp only at hheight ⊢
    rw [(frames_finalize _ b).chain, hchain, List.length_append, List.length_singleton] at hheight
    rw [hseen, Function.update_of_ne]
    · exact h.fresh height slot (by omega)
    · intro heq
      have hsame : height = b.height := congrArg Prod.fst heq
      rw [hsame, hb.height] at hheight
      omega
  · refine ⟨b, ?_, ?_⟩
    · dsimp only
      rw [(frames_finalize _ b).chain, hchain]
      exact List.getLast?_concat
    · dsimp only
      rw [ticks_finalize, hb.timestamp]
      exact slotTime_mono (hclock hticks) (hfit _)

/-- A quiet event leaves a node that makes blocks. -/
theorem Producing.quiet (hclock : Monotone σ.clock) (hfit : ∀ n, σ.clock n < 2 ^ 64) {e : Engine}
    (h : s.Producing σ e) {x : Event} (hquiet : x.Quiet) (hround : x.isRound = false) :
    (s.react σ x).1.Producing σ e := by
  obtain ⟨hengine, hchain, hticks⟩ := quiet_react σ s hquiet hround
  obtain ⟨tip, htip, htime⟩ := h.tip
  refine ⟨by rw [hengine, h.engine], h.some_validator, h.keyless, ?_, tip, by rw [hchain, htip], ?_⟩
  · intro height slot hheight
    rw [hchain] at hheight
    exact h.fresh height slot hheight
  · exact UInt64.le_trans htime (slotTime_mono (hclock hticks) (hfit _))

/-! ## Runs -/

/-- The node behind a run of events. -/
def after (σ : Setup F) (s : MermaiNode F) (events : List Event) : MermaiNode F :=
  events.foldl (fun s x => (s.react σ x).1) s

theorem after_concat (s : MermaiNode F) (events : List Event) (x : Event) :
    s.after σ (events ++ [x]) = ((s.after σ events).react σ x).1 := by
  simp [after, List.foldl_append]

/-- **Run**: the node keeps making blocks. -/
theorem producing_after (hclock : Monotone σ.clock) (hfit : ∀ n, σ.clock n < 2 ^ 64)
    (hweight : ∀ (v : ValidatorStake) t, 0 < v.amount → σ.floats.lt (σ.floats.lit 0 0)
      (calculateWeight σ.floats.toFloatOps v t) = true) {e : Engine} (h : s.Producing σ e)
    {events : List Event} (hquiet : ∀ x ∈ events, x.Quiet)
    (hlen : s.node.chain.length + events.countP Event.isRound < 2 ^ 32) :
    (∃ e', (s.after σ events).Producing σ e') ∧
      (s.after σ events).node.chain.length = s.node.chain.length + events.countP Event.isRound := by
  induction events using List.reverseRecOn with
  | nil => exact ⟨⟨e, h⟩, rfl⟩
  | append_singleton events x ih =>
    have hx : x.Quiet := hquiet x (List.mem_append_right _ (List.mem_singleton_self x))
    rw [List.countP_append, List.countP_singleton] at hlen ⊢
    obtain ⟨⟨e', he'⟩, hchain⟩ := ih (fun y hy => hquiet y (List.mem_append_left _ hy)) (by omega)
    rw [after_concat]
    cases hround : x.isRound with
    | false =>
      obtain ⟨-, hsame, -⟩ := quiet_react σ (s.after σ events) hx hround
      refine ⟨⟨e', he'.quiet hclock hfit hx hround⟩, ?_⟩
      rw [hsame, hchain]
      rfl
    | true =>
      obtain rfl : x = .consensusRound := by
        cases x with
        | consensusRound => rfl
        | _ => cases hround
      obtain ⟨b, e'', -, hmore, hnext⟩ := round_extends hclock hfit hweight he' (by omega)
      refine ⟨⟨e'', hnext⟩, ?_⟩
      rw [hmore, List.length_append, List.length_singleton, hchain]
      rfl

/-- **Every round makes a block**: a node starts with the genesis block and validators without keys, clocks
do not run back, and stake has weight.  Then over any run of connections, requests that register nobody,
messages without blocks and rounds, every round adds one block to the chain and sends it, and nothing else
adds any. -/
theorem rounds_extend (σ : Setup F) (hclock : Monotone σ.clock) (hfit : ∀ n, σ.clock n < 2 ^ 64)
    (hweight : ∀ (v : ValidatorStake) t, 0 < v.amount → σ.floats.lt (σ.floats.lit 0 0)
      (calculateWeight σ.floats.toFloatOps v t) = true)
    (s : MermaiNode F) (vs : List ValidatorStake) (hengine : s.node.engine = some ⟨vs, fun _ => none⟩)
    (hvs : vs ≠ []) (hkeyless : ∀ v ∈ vs, v.Keyless) (hchain : s.node.chain = [genesis])
    (htime : genesis.timestamp ≤ slotTime (UInt64.ofNat (σ.clock s.node.ticks))) (events : List Event)
    (hquiet : ∀ x ∈ events, x.Quiet) (hlen : events.length + 1 < 2 ^ 32) :
    (s.after σ events).node.chain.length = 1 + events.countP Event.isRound ∧
      ∀ pre, pre ++ [.consensusRound] <+: events → ∃ b,
        ((s.after σ pre).react σ .consensusRound).2 = [blockMessage b] ∧
          (s.after σ (pre ++ [.consensusRound])).node.chain = (s.after σ pre).node.chain ++ [b] := by
  have hstart : s.Producing σ ⟨vs, fun _ => none⟩ :=
    ⟨hengine, hvs, hkeyless, fun _ _ _ => rfl, genesis, by rw [hchain]; rfl, htime⟩
  have hone : s.node.chain.length = 1 := by rw [hchain]; rfl
  refine ⟨?_, ?_⟩
  · have hcount := List.countP_le_length (p := Event.isRound) (l := events)
    rw [(producing_after hclock hfit hweight hstart hquiet (by omega)).2, hone]
  · intro pre hpre
    have hpre' : pre <+: events := (List.prefix_append pre _).trans hpre
    have hcount := List.countP_le_length (p := Event.isRound) (l := pre)
    have hbound := hpre'.length_le
    obtain ⟨⟨e, he⟩, hlength⟩ := producing_after hclock hfit hweight hstart
      (fun x hx => hquiet x (hpre'.subset hx)) (by omega)
    obtain ⟨b, -, hsent, hmore, -⟩ := round_extends hclock hfit hweight he (by omega)
    refine ⟨b, hsent, ?_⟩
    rw [after_concat]
    exact hmore

end MermaiNode

/-! ## A node that makes three blocks -/

theorem calculateTimeMultiplier_pos (age : UInt64) : 0 < calculateTimeMultiplier exactFloat age := by
  have hdays : ∀ (d : UInt64) (k : ℕ), (0 : ℚ) ≤ exactFloat.mul (exactFloat.ofUInt64 d) (exactFloat.lit 1 k) := by
    intro d k
    show (0 : ℚ) ≤ (d.toNat : ℚ) * ((1 : ℕ) / 10 ^ k)
    positivity
  have hlit : ∀ m k : ℕ, 0 < m → (0 : ℚ) < exactFloat.lit m k := by
    intro m k hm
    show (0 : ℚ) < (m : ℚ) / 10 ^ k
    positivity
  unfold calculateTimeMultiplier
  dsimp only
  split_ifs
  · exact hlit 1 0 Nat.one_pos
  · exact add_pos_of_pos_of_nonneg (hlit 1 0 Nat.one_pos) (hdays _ 3)
  · exact add_pos_of_pos_of_nonneg (hlit 103 2 (by decide)) (hdays _ 3)
  · refine add_pos_of_pos_of_nonneg (hlit 1365 3 (by decide)) ?_
    unfold FloatOps.min
    split_ifs
    · exact hdays _ 4
    · exact (hlit 1 1 Nat.one_pos).le

/-- Exact weights of stake are positive. -/
theorem calculateWeight_pos (v : ValidatorStake) (t : UInt64) (h : 0 < v.amount) :
    exactFloat.lt (exactFloat.lit 0 0) (calculateWeight exactFloat v t) = true := by
  have hamount : (0 : ℚ) < v.amount.toNat := Nat.cast_pos.mpr (UInt64.lt_iff_toNat_lt.mp h)
  refine decide_eq_true ?_
  show ((0 : ℕ) : ℚ) / 10 ^ 0 <
    (v.amount.toNat : ℚ) * calculateTimeMultiplier exactFloat (stakeAge v t) * ((1 : ℕ) / 10 ^ 0)
  have hmultiplier := calculateTimeMultiplier_pos (stakeAge v t)
  rw [Nat.cast_zero, zero_div]
  positivity

/-- A setup whose clock stops in the year 2096. -/
def stoppingSetup : Setup ℚ := { sampleSetup with clock := fun n => min (1640000013 + n) 4000000000 }

/-- Three rounds, two of them in one slot, with a connection, garbage and a request between. -/
def sampleRounds : List MermaiNode.Event :=
  [.consensusRound, .accepted [49] 5, .received 0 .incoming ⟨0x13, [1, 2, 3]⟩, .consensusRound,
    .requested 1640000020 (fun _ => 0) 5 (ascii "\x7b\"method\":\"mrm_blockNumber\"\x7d"), .consensusRound]

theorem rounds_extend_sample :
    (sampleNode.after stoppingSetup sampleRounds).node.chain.length = 4 := by
  have hclock : Monotone fun n : ℕ => min (1640000013 + n) 4000000000 :=
    fun _ _ h => min_le_min_right _ (Nat.add_le_add_left h _)
  have hquiet : ∀ x ∈ sampleRounds, x.Quiet := by
    intro x hx
    simp only [sampleRounds, List.mem_cons, List.not_mem_nil, or_false] at hx
    rcases hx with rfl | rfl | rfl | rfl | rfl | rfl
    · trivial
    · trivial
    · show (P2PMessage.dispatch ⟨0x13, [1, 2, 3]⟩).presented = []
      decide +kernel
    · trivial
    · show Rpc.methodOf _ ≠ _
      decide +kernel
    · trivial
  refine (MermaiNode.rounds_extend stoppingSetup hclock ?_ calculateWeight_pos sampleNode [keylessValidator] rfl
    (List.cons_ne_nil _ _) ?_ rfl (by decide) sampleRounds hquiet (by decide)).1
  · intro n
    exact (min_le_right _ _).trans_lt (by decide)
  · intro v hv
    rw [List.mem_singleton.mp hv]
    exact ⟨by decide, rfl, by decide⟩

end Mermai
