import Mermai.Consensus.Rewards
import Mermai.Node.Peers
import Mermai.Node.Producer
import Mermai.Node.Views
import Mermai.Node.Wire
import Mermai.Rpc.Server

/-!
# Node.Process — the whole node

`MermaiNode`: the chain, the database, the engine, the collector and the peers behind the receive loops, the
RPC server, `consensus_loop` and `network_sync_loop`.  The four run in threads of their own; an event is one
round of one of them, so calls do not overlap here.

`MermaiNode.react` says what an event leaves and which messages it sends.  What it does to the ledger is said
once, in `react_ledger`: an event tries to accept the blocks it presents, and otherwise leaves the chain and
the tables of blocks and outputs alone.  So the three views of the ledger stay in step whatever arrives in
whatever order (`InStep.react`).
-/

namespace Mermai

open Sql (Table)
open Merlite (ascii)

variable {F : Type}

/-- What a node runs on. -/
structure Setup (F : Type) where
  crypto : Crypto
  gas : Vm.GasSchedule
  floats : Rpc.WeightText F
  self : Identity
  clock : ℕ → ℕ

/-- `MermaiNode`; the pending rewards of the engine and two tables of the database stand beside the node. -/
structure MermaiNode (F : Type) where
  node : Node
  peers : PeerBook := {}
  pendingRewards : Table Bytes UInt64 := ∅
  weights : Table Bytes F := ∅
  contracts : Table Bytes Bytes := ∅

namespace MermaiNode

/-! ## The RPC server of the node -/

/-- What the RPC server shares with the node. -/
def server (s : MermaiNode F) : Rpc.Server F where
  blockchain := some s.node.chain
  p2pNode := some s.peers.getPeerCount
  db := s.node.db.map fun db => { toDb := db, weights := s.weights, contracts := s.contracts }
  consensus := s.node.engine.map Engine.activeValidators
  quorum := s.node.quorum

/-- The node behind a request. -/
def withServer (s : MermaiNode F) (S : Rpc.Server F) : MermaiNode F :=
  { s with
    node := { s.node with
      db := S.db.map Rpc.RpcDb.toDb
      engine := s.node.engine.map fun e =>
        { e with activeValidators := S.consensus.getD e.activeValidators }
      quorum := S.quorum }
    weights := (S.db.map Rpc.RpcDb.weights).getD s.weights
    contracts := (S.db.map Rpc.RpcDb.contracts).getD s.contracts }

/-- The body of a request: what stands behind the first empty line, or everything. -/
def requestBody (request : Bytes) : Bytes := (Rpc.findBehind (ascii "\r\n\r\n") request).getD request

/-- What `handle_request` broadcasts. -/
def broadcasts (S : Rpc.Server F) (H : Rpc.Host F) (request : Bytes) : List P2PMessage :=
  match Rpc.methodOf (Rpc.requestString request (ascii "method")) with
  | some .sendTransaction =>
    (sendTransaction H.crypto H.now (S.db.map Rpc.RpcDb.toDb) request).broadcast.toList.map
      transactionMessage
  | some .submitVote =>
    match S.quorum, S.consensus with
    | some q, some vs =>
      if (addVote H.crypto vs q (Rpc.submittedVote request)).1 then
        [voteMessage (Rpc.submittedVote request)]
      else []
    | _, _ => []
  | _ => []

/-! ## Events -/

/-- One round of one of the threads.  A request carries the readings of the clock and the fuel of its
thread. -/
inductive Event
  | connectToPeer (address : Bytes) (port : UInt16)
  | accepted (ip : Bytes) (socket : ℕ)
  | received (place : ℕ) (loop : ReceiveLoop) (m : P2PMessage)
  | requested (now : ℕ) (clock : ℕ → UInt64) (fuel : ℕ) (data : Bytes)
  | consensusRound
  | syncRound (reachable : Bool)

/-- The node behind an event, and the messages it sends. -/
abbrev Reaction (F : Type) := MermaiNode F × List P2PMessage

/-- `connect_to_peer`, when the connection comes about. -/
def connectToPeer (σ : Setup F) (s : MermaiNode F) (address : Bytes) (port : UInt16) : Reaction F :=
  if s.peers.isBanned address then (s, [])
  else
    let peer : Peer := ⟨address ++ [58] ++ decimal port.toNat, address, port, 100⟩
    ({ s with peers := s.peers.addPeer peer }, [helloMessage σ.self s.node.chain])

/-- `handle_incoming_connection`, for a client that is not banned. -/
def accept (s : MermaiNode F) (ip : Bytes) (socket : ℕ) : Reaction F :=
  if s.peers.isBanned ip then (s, [])
  else
    let peer : Peer := ⟨ascii "incoming-" ++ decimal socket, ascii "incoming", 0, 100⟩
    ({ s with peers := s.peers.addPeer peer }, [])

/-- A message of the peer at a place of the list. -/
def receive (σ : Setup F) (s : MermaiNode F) (place : ℕ) (loop : ReceiveLoop) (m : P2PMessage) :
    Reaction F :=
  let round := loop.round σ.crypto σ.floats.toFloatOps σ.clock σ.self s.node m
  match round with
  | .passed result =>
    ({ s with
        node := result.node
        peers := if result.penalty then s.peers.penalize place 10 else s.peers },
      round.reply.toList)
  | _ => (s, round.reply.toList)

/-- A connection of the RPC server: one `recv` of at most 4095 bytes. -/
def request (σ : Setup F) (s : MermaiNode F) (now : ℕ) (clock : ℕ → UInt64) (fuel : ℕ)
    (data : Bytes) : Reaction F :=
  let H : Rpc.Host F := ⟨σ.crypto, σ.gas, σ.floats, now, clock⟩
  let body := requestBody (data.take 4095)
  if data = [] then (s, [])
  else
    match s.server.handleRequest H fuel body with
    | none => (s, [])
    | some (_, S) => (s.withServer S, broadcasts s.server H body)

/-- `finalize_block` of the engine. -/
def finalize (s : MermaiNode F) (b : Block) : MermaiNode F :=
  match s.node.engine with
  | none => s
  | some e =>
    let rewards := RewardEngine.finalizeBlock ⟨e.activeValidators, s.pendingRewards⟩ (some b)
      b.validatorAddress
    { s with
      node := { s.node with engine := some { e with activeValidators := rewards.activeValidators } }
      pendingRewards := rewards.pendingRewards }

/-- The node after it has read the clock. -/
def tick (s : MermaiNode F) : MermaiNode F := { s with node := { s.node with ticks := s.node.ticks + 1 } }

/-- The block that a round of `consensus_loop` assembles. -/
def assembled (σ : Setup F) (s : MermaiNode F) : Option Block :=
  s.node.engine.bind fun e => assembleBlock σ.crypto σ.floats.toFloatOps e.activeValidators s.node.chain
    (UInt64.ofNat (σ.clock s.node.ticks))

/-- What `consensus_loop` does with its block. -/
def produce (σ : Setup F) (s : MermaiNode F) (b : Block) : Reaction F :=
  let accepted := s.tick.node.acceptBlock σ.crypto σ.floats.toFloatOps σ.clock b
  if accepted.1 then ({ s with node := accepted.2 }.finalize b, [blockMessage b])
  else ({ s with node := accepted.2 }, [])

/-- One round of `consensus_loop`. -/
def consensusRound (σ : Setup F) (s : MermaiNode F) : Reaction F :=
  match s.assembled σ with
  | none => (s.tick, [])
  | some b => s.produce σ b

/-- One round of `network_sync_loop`; the only bootstrap node is `127.0.0.1`, port 6333. -/
def syncRound (σ : Setup F) (s : MermaiNode F) (reachable : Bool) : Reaction F :=
  let discovered :=
    if s.peers.getPeerCount < 8 ∧ reachable then s.connectToPeer σ (ascii "127.0.0.1") 6333 else (s, [])
  (discovered.1, discovered.2 ++ [syncMessage])

/-- What a node does. -/
def react (σ : Setup F) (s : MermaiNode F) : Event → Reaction F
  | .connectToPeer address port => s.connectToPeer σ address port
  | .accepted ip socket => s.accept ip socket
  | .received place loop m => s.receive σ place loop m
  | .requested now clock fuel data => s.request σ now clock fuel data
  | .consensusRound => s.consensusRound σ
  | .syncRound reachable => s.syncRound σ reachable

end MermaiNode

/-! ## What a request changes -/

namespace Rpc

variable {H : Host F} {request : Bytes} {S : Server F}

/-- The changes of `handle_request`. -/
inductive Server.Changes (H : Host F) (request : Bytes) (S : Server F) : Server F → Prop
  | nothing : Server.Changes H request S S
  | pooled {db : RpcDb F} (tx : Transaction) (hdb : S.db = some db) :
      Server.Changes H request S
        { S with db := some { db with toDb := addToMempool H.crypto db.toDb tx } }
  | registered {vs vs' : List ValidatorStake} (hvs : S.consensus = some vs)
      (hmethod : methodOf (requestString request (ascii "method")) = some .registerValidator)
      (hreg : Mermai.registerValidator H.crypto H.now vs (requestString request (ascii "address"))
        (requestNumber request (ascii "stake"))
        (hexToBytes (requestString request (ascii "public_key"))) = some vs') :
      Server.Changes H request S
        { S with
          db := S.db.map fun db =>
            (vs'.filter fun v => v.address = requestString request (ascii "address")).foldl
              (saveRegistered H.floats.toFloatOps) db
          consensus := some vs' }
  | voted {q : QuorumCollector} {vs : List ValidatorStake} (hq : S.quorum = some q)
      (hvs : S.consensus = some vs) :
      Server.Changes H request S
        { S with quorum := some (addVote H.crypto vs q (submittedVote request)).2 }
  | deployed {db db' : RpcDb F} (address code : Bytes) (hdb : S.db = some db)
      (hsave : saveContractCode db address code = some db') :
      Server.Changes H request S { S with db := some db' }

theorem Server.changes_sendTransaction (S : Server F) :
    Server.Changes H request S (S.sendTransaction H request).2 := by
  cases hdb : S.db with
  | none =>
    have heq : (S.sendTransaction H request).2 = S := by
      rw [Server.sendTransaction, hdb]
      obtain ⟨chain, p2p, db, consensus, quorum⟩ := S
      cases hdb
      rfl
    rw [heq]
    exact .nothing
  | some db =>
    have hsent : (Mermai.sendTransaction H.crypto H.now (some db.toDb) request).db =
        some (afterDoor H.crypto db.toDb (rpcAdmits H.crypto H.now db.toDb request)) :=
      sendTransaction_db H.crypto H.now db.toDb request
    have heq : (S.sendTransaction H request).2 = { S with db := some { db with
        toDb := afterDoor H.crypto db.toDb (rpcAdmits H.crypto H.now db.toDb request) } } := by
      rw [Server.sendTransaction, hdb]
      simp only [Option.map_some, hsent, Option.getD_some]
    rw [heq]
    cases rpcAdmits H.crypto H.now db.toDb request with
    | none =>
      have hsame : ({ S with db := some { db with toDb := afterDoor H.crypto db.toDb none } } :
          Server F) = S := by
        obtain ⟨chain, p2p, db', consensus, quorum⟩ := S
        cases hdb
        rfl
      rw [hsame]
      exact .nothing
    | some tx => exact .pooled tx hdb

theorem Server.changes_registerValidator (S : Server F)
    (hmethod : methodOf (requestString request (ascii "method")) = some .registerValidator) :
    Server.Changes H request S (S.registerValidator H request).2 := by
  unfold Server.registerValidator
  split
  · exact .nothing
  · rename_i vs hvs
    dsimp only
    split
    · exact .nothing
    · rename_i vs' hreg
      split_ifs at hreg with hbad
      exact .registered hvs hmethod hreg

theorem Server.changes_submitVote (S : Server F) :
    Server.Changes H request S (S.submitVote H request).2 := by
  unfold Server.submitVote
  split
  · rename_i q vs hq hvs
    dsimp only
    split
    · exact .voted hq hvs
    · exact .voted hq hvs
  · exact .nothing

theorem Server.changes_deployContract (S : Server F) :
    Server.Changes H request S (S.deployContract H.crypto request).2 := by
  unfold Server.deployContract
  dsimp only
  split_ifs
  · exact .nothing
  · split
    · exact .nothing
    · rename_i db hdb
      split
      · exact .nothing
      · rename_i db' hsave
        exact .deployed _ _ hdb hsave

/-- **Inversion** of `handle_request`. -/
theorem Server.changes_handleRequest {fuel : ℕ} {r : Bytes × Server F}
    (h : S.handleRequest H fuel request = some r) : Server.Changes H request S r.2 := by
  rw [Server.handleRequest] at h
  obtain ⟨q, hq, rfl⟩ := Option.map_eq_some_iff.mp h
  cases hmethod : methodOf (requestString request (ascii "method")) with
  | none =>
    rw [hmethod] at hq
    cases hq
    exact .nothing
  | some m =>
    rw [hmethod] at hq
    cases m with
    | sendTransaction =>
      cases hq
      exact S.changes_sendTransaction
    | registerValidator =>
      cases hq
      exact S.changes_registerValidator hmethod
    | submitVote =>
      cases hq
      exact S.changes_submitVote
    | deployContract =>
      cases hq
      exact S.changes_deployContract
    | callContract =>
      obtain ⟨a, -, rfl⟩ := Option.map_eq_some_iff.mp hq
      exact .nothing
    | estimateGas =>
      obtain ⟨a, -, rfl⟩ := Option.map_eq_some_iff.mp hq
      exact .nothing
    | _ =>
      cases hq
      exact .nothing

theorem ledger_foldl_saveRegistered (fl : FloatOps F) (vs : List ValidatorStake) (db : RpcDb F) :
    (vs.foldl (saveRegistered fl) db).blocks = db.blocks ∧
      (vs.foldl (saveRegistered fl) db).utxos = db.utxos := by
  induction vs generalizing db with
  | nil => exact ⟨rfl, rfl⟩
  | cons v vs ih => exact ih _

/-- No request changes the chain or the tables of blocks and outputs. -/
theorem Server.Changes.ledger {T : Server F} (h : Server.Changes H request S T) :
    T.blockchain = S.blockchain ∧ ∀ db, S.db = some db →
      ∃ db', T.db = some db' ∧ db'.blocks = db.blocks ∧ db'.utxos = db.utxos := by
  cases h with
  | nothing => exact ⟨rfl, fun db hdb => ⟨db, hdb, rfl, rfl⟩⟩
  | pooled tx hdb =>
    refine ⟨rfl, fun db hdb' => ⟨_, rfl, ?_⟩⟩
    cases hdb.symm.trans hdb'
    exact ⟨rfl, rfl⟩
  | registered hvs hmethod hreg =>
    refine ⟨rfl, fun db hdb => ⟨_, congrArg (Option.map _) hdb, ?_⟩⟩
    exact ledger_foldl_saveRegistered _ _ db
  | voted hq hvs => exact ⟨rfl, fun db hdb => ⟨db, hdb, rfl, rfl⟩⟩
  | deployed address code hdb hsave =>
    refine ⟨rfl, fun db hdb' => ⟨_, rfl, ?_⟩⟩
    cases hdb.symm.trans hdb'
    unfold saveContractCode at hsave
    split_ifs at hsave
    obtain ⟨blob, -, rfl⟩ := Option.map_eq_some_iff.mp hsave
    exact ⟨rfl, rfl⟩

end Rpc

/-! ## What an event does to the ledger -/

theorem Node.Frames.trans {n n' n'' : Node} (h : n.Frames n') (h' : n'.Frames n'') : n.Frames n'' where
  chain := h'.chain.trans h.chain
  ticks := h.ticks.trans h'.ticks
  db d hd := by
    obtain ⟨d', hd', hblocks, hutxos⟩ := h.db d hd
    obtain ⟨d'', hd'', hblocks', hutxos'⟩ := h'.db d' hd'
    exact ⟨d'', hd'', hblocks'.trans hblocks, hutxos'.trans hutxos⟩

/-- What a loop passes on is what `handle_message` makes of it. -/
theorem ReceiveLoop.round_passed {C : Crypto} {fl : FloatOps F} {clock : ℕ → ℕ} {self : Identity}
    {n : Node} {m : P2PMessage} {loop : ReceiveLoop} {result : Handled}
    (h : loop.round C fl clock self n m = .passed result) :
    result = handleMessage C fl clock n m.dispatch := by
  cases loop with
  | incoming =>
    simp only [ReceiveLoop.round] at h
    split_ifs at h
    exact (Round.passed.inj h).symm
  | connected =>
    simp only [ReceiveLoop.round] at h
    split_ifs at h
    exact (Round.passed.inj h).symm

namespace MermaiNode

variable {σ : Setup F}

/-- The blocks an event presents to a node. -/
def Event.presents (σ : Setup F) (s : MermaiNode F) : Event → List Block
  | .received _ _ m => m.dispatch.presented
  | .consensusRound => (s.assembled σ).toList
  | _ => []

theorem frames_withServer {s : MermaiNode F} {H : Rpc.Host F} {request : Bytes} {S : Rpc.Server F}
    (h : Rpc.Server.Changes H request s.server S) : s.node.Frames (s.withServer S).node := by
  refine ⟨rfl, le_rfl, ?_⟩
  intro d hd
  obtain ⟨db', hdb', hblocks, hutxos⟩ := h.ledger.2 _ (congrArg (Option.map _) hd)
  exact ⟨db'.toDb, congrArg (Option.map Rpc.RpcDb.toDb) hdb', hblocks, hutxos⟩

theorem frames_finalize (s : MermaiNode F) (b : Block) : s.node.Frames (s.finalize b).node := by
  unfold finalize
  split
  · exact .refl _
  · exact ⟨rfl, le_rfl, fun d hd => ⟨d, hd, rfl, rfl⟩⟩

theorem frames_connectToPeer (σ : Setup F) (s : MermaiNode F) (address : Bytes) (port : UInt16) :
    s.node.Frames (s.connectToPeer σ address port).1.node := by
  unfold connectToPeer
  split_ifs
  · exact .refl _
  · exact .refl _

/-- **Inversion** of an event for the ledger of a node with a database: it tries to accept the blocks it
presents, one after another, and else keeps the chain and the tables of blocks and outputs. -/
theorem react_ledger (σ : Setup F) {s : MermaiNode F} {db : Db} (hdb : s.node.db = some db)
    (e : Event) : ∃ n blocks, s.node.Frames n ∧ (∀ b ∈ blocks, b ∈ e.presents σ s) ∧
      (n.acceptBlocks σ.crypto σ.floats.toFloatOps σ.clock blocks).2.Frames (s.react σ e).1.node := by
  cases e with
  | connectToPeer address port =>
    exact ⟨s.node, [], .refl _, fun b hb => hb, frames_connectToPeer σ s address port⟩
  | accepted ip socket =>
    refine ⟨s.node, [], .refl _, fun b hb => hb, ?_⟩
    simp only [react, accept]
    split_ifs
    · exact .refl _
    · exact .refl _
  | received place loop m =>
    simp only [react, receive]
    split
    · rename_i result hround
      rw [ReceiveLoop.round_passed hround]
      exact ⟨s.node, s.node.triedBlocks m.dispatch, .refl _, fun b hb => Node.triedBlocks_presented hb,
        (handleMessage_frames hdb m.dispatch).1⟩
    · exact ⟨s.node, [], .refl _, fun b hb => (List.not_mem_nil hb).elim, .refl _⟩
  | requested now clock fuel data =>
    refine ⟨s.node, [], .refl _, fun b hb => hb, ?_⟩
    simp only [react, request]
    split_ifs
    · exact .refl _
    · split
      · exact .refl _
      · rename_i r S hr
        exact frames_withServer (Rpc.Server.changes_handleRequest hr)
  | consensusRound =>
    have htick : s.node.Frames s.tick.node := ⟨rfl, Nat.le_succ _, fun d hd => ⟨d, hd, rfl, rfl⟩⟩
    simp only [react, consensusRound, Event.presents]
    cases hb : s.assembled σ with
    | none => exact ⟨s.tick.node, [], htick, fun b hb => hb, .refl _⟩
    | some b =>
      refine ⟨s.tick.node, [b], htick, fun c hc => hc, ?_⟩
      show (s.tick.node.acceptBlocks _ _ _ [b]).2.Frames (s.produce σ b).1.node
      rw [Node.acceptBlocks, produce]
      split_ifs
      · exact frames_finalize { s with
          node := (s.tick.node.acceptBlock σ.crypto σ.floats.toFloatOps σ.clock b).2 } b
      · exact .refl _
  | syncRound reachable =>
    refine ⟨s.node, [], .refl _, fun b hb => hb, ?_⟩
    simp only [react, syncRound]
    split_ifs
    · exact frames_connectToPeer σ s _ _
    · exact .refl _

/-- **One event** keeps the views in step and only extends the chain. -/
theorem InStep.react (hclock : Monotone σ.clock) {utxos₀ : Utxos} {S : Set Bytes}
    (hfree : σ.crypto.CollisionFreeOn S) {s : MermaiNode F}
    (h : s.node.InStep σ.crypto σ.clock utxos₀ S) {e : Event}
    (he : ∀ b ∈ e.presents σ s, b.serialize ∈ S) :
    (s.react σ e).1.node.InStep σ.crypto σ.clock utxos₀ S ∧
      s.node.chain <+: (s.react σ e).1.node.chain := by
  obtain ⟨db, hdb, -⟩ := id h
  obtain ⟨n, blocks, hn, hblocks, hframe⟩ := react_ledger σ hdb e
  obtain ⟨hin, hpre⟩ := @Node.InStep.acceptBlocks _ _ σ.floats.toFloatOps _ _ _ hclock hfree blocks n
    (h.frame hclock hn) fun b hb => he b (hblocks b hb)
  refine ⟨hin.frame hclock hframe, ?_⟩
  rw [hframe.chain, ← hn.chain]
  exact hpre

end MermaiNode

end Mermai
