import Mermai.Core.Prims
import Mermai.Lib.StdMap
import Mathlib.Data.Finset.Insert

/-!
# Node.Peers — peers, reputation, bans and limits

The part of `mermai_p2p_node` that keeps account of its peers.  There are two reputations: a score of 0 to
100 in every `mermai_peer`, and a sum by address in `peer_reputation_map`; only the second one bans.  The two
limits, of blocks by address and of connections by subnet, are one counter (`allow`) that is never reset.

A run of calls from a new node is looked at through its log.  An address is banned exactly when somebody
banned it or its sum was −100 or less behind some update (`isBanned_iff`): bans are for ever.  A limit lets
through the first calls for a key, as many as it allows, and no other (`allowed_blocks`,
`allowed_connections`).
-/

namespace Mermai

open Sql (Table)
open StdMap

/-! ## Peers -/

/-- `mermai_peer` without its socket and the time it was last seen. -/
structure Peer where
  peerId : Bytes
  address : Bytes
  port : UInt16
  reputation : UInt32 := 100
deriving DecidableEq

/-- `increase_reputation`; the score goes through `int`. -/
def Peer.increaseReputation (p : Peer) (points : ℤ) : Peer :=
  { p with reputation := UInt32.ofInt (min 100 (p.reputation.toInt32.toInt + points)) }

/-- `decrease_reputation`. -/
def Peer.decreaseReputation (p : Peer) (points : ℤ) : Peer :=
  { p with reputation := UInt32.ofInt (max 0 (p.reputation.toInt32.toInt - points)) }

/-- `mermai_peer::is_trusted`. -/
def Peer.isTrusted (p : Peer) : Bool := 50 < p.reputation

/-- `mermai_peer::is_banned`. -/
def Peer.isBanned (p : Peer) : Bool := p.reputation = 0

/-- `MAX_PEERS`. -/
abbrev maxPeers : ℕ := 100
/-- `RATE_LIMIT_PER_WINDOW`. -/
abbrev rateLimitPerWindow : ℕ := 15
/-- `MAX_PEERS_PER_SUBNET`. -/
abbrev maxPeersPerSubnet : ℕ := 3

/-- The fields of `mermai_p2p_node` about its peers.  A sum of reputation points that leaves `int` is not
defined in the source; here it is exact. -/
structure PeerBook where
  peers : List Peer := []
  bannedIps : Finset Bytes := ∅
  peerReputationMap : Table Bytes ℤ := ∅
  blockRateCounts : Table Bytes ℕ := ∅
  subnetConnectionCounts : Table Bytes ℕ := ∅

namespace PeerBook

/-- `add_peer`. -/
def addPeer (n : PeerBook) (peer : Peer) : PeerBook :=
  if n.peers.length < maxPeers then { n with peers := n.peers ++ [peer] } else n

/-- `remove_peer`. -/
def removePeer (n : PeerBook) (peerId : Bytes) : PeerBook :=
  { n with peers := n.peers.filter fun p => p.peerId ≠ peerId }

/-- `get_peer`. -/
def getPeer (n : PeerBook) (peerId : Bytes) : Option Peer := n.peers.find? fun p => p.peerId = peerId

/-- `get_peer_count`. -/
def getPeerCount (n : PeerBook) : UInt32 := UInt32.ofNat n.peers.length

/-- `ban_peer`. -/
def banPeer (n : PeerBook) (address : Bytes) : PeerBook :=
  { n with bannedIps := insert address n.bannedIps }

/-- `is_banned` and `is_peer_banned`. -/
def isBanned (n : PeerBook) (address : Bytes) : Bool := address ∈ n.bannedIps

/-- `update_peer_reputation`: it bans at −100. -/
def updatePeerReputation (n : PeerBook) (ip : Bytes) (delta : ℤ) : PeerBook :=
  let score := valueAt n.peerReputationMap ip + delta
  { n with
    peerReputationMap := n.peerReputationMap.insert ip score
    bannedIps := if score ≤ -100 then insert ip n.bannedIps else n.bannedIps }

/-- `get_peer_reputation`. -/
def getPeerReputation (n : PeerBook) (ip : Bytes) : ℤ := (n.peerReputationMap.lookup ip).getD 0

/-- A counter for each key that lets `limit` calls through. -/
def allow (limit : ℕ) (counts : Table Bytes ℕ) (key : Bytes) : Bool × Table Bytes ℕ :=
  if limit ≤ valueAt counts key then (false, subscript counts key)
  else (true, counts.insert key (valueAt counts key + 1))

/-- `allow_block_from_peer`. -/
def allowBlockFromPeer (n : PeerBook) (ip : Bytes) : Bool × PeerBook :=
  let allowed := allow rateLimitPerWindow n.blockRateCounts ip
  (allowed.1, { n with blockRateCounts := allowed.2 })

/-- `get_subnet`: what stands before the last dot. -/
def getSubnet (ip : Bytes) : Bytes :=
  if 46 ∈ ip then (ip.reverse.dropWhile (· ≠ 46)).tail.reverse else ip

/-- `allow_subnet_connection`. -/
def allowSubnetConnection (n : PeerBook) (ip : Bytes) : Bool × PeerBook :=
  let allowed := allow maxPeersPerSubnet n.subnetConnectionCounts (getSubnet ip)
  (allowed.1, { n with subnetConnectionCounts := allowed.2 })

/-- `decrease_reputation` of the peer at a place of the list; a peer that the full list did not take is
nowhere in it. -/
def penalize (n : PeerBook) (place : ℕ) (points : ℤ) : PeerBook :=
  { n with peers := n.peers.modify place fun p => p.decreaseReputation points }

/-! ## Runs -/

/-- The calls that change the book. -/
inductive Call
  | addPeer (peer : Peer)
  | removePeer (peerId : Bytes)
  | penalize (place : ℕ) (points : ℤ)
  | banPeer (address : Bytes)
  | updatePeerReputation (ip : Bytes) (delta : ℤ)
  | allowBlockFromPeer (ip : Bytes)
  | allowSubnetConnection (ip : Bytes)
deriving DecidableEq

/-- What a call returns, true for a call that returns nothing, and the book behind it. -/
def call (n : PeerBook) : Call → Bool × PeerBook
  | .addPeer peer => (true, n.addPeer peer)
  | .removePeer peerId => (true, n.removePeer peerId)
  | .penalize place points => (true, n.penalize place points)
  | .banPeer address => (true, n.banPeer address)
  | .updatePeerReputation ip delta => (true, n.updatePeerReputation ip delta)
  | .allowBlockFromPeer ip => n.allowBlockFromPeer ip
  | .allowSubnetConnection ip => n.allowSubnetConnection ip

/-- The book of a new node after a run of calls. -/
def after (calls : List Call) : PeerBook := Run.after call {} calls

theorem after_concat (calls : List Call) (c : Call) :
    after (calls ++ [c]) = ((after calls).call c).2 := by
  rw [after, Run.after_append]
  rfl

/-! ## Reputation and bans -/

/-- The points that a call gives an address. -/
def Call.points (ip : Bytes) : Call → ℤ
  | .updatePeerReputation address delta => if address = ip then delta else 0
  | _ => 0

/-- The points of an address in a run. -/
def score (ip : Bytes) (calls : List Call) : ℤ := (calls.map (Call.points ip)).sum

theorem score_concat (ip : Bytes) (calls : List Call) (c : Call) :
    score ip (calls ++ [c]) = score ip calls + c.points ip := by
  simp [score]

theorem getPeerReputation_call (n : PeerBook) (c : Call) (ip : Bytes) :
    (n.call c).2.getPeerReputation ip = n.getPeerReputation ip + c.points ip := by
  cases c with
  | updatePeerReputation address delta =>
    show valueAt (n.updatePeerReputation address delta).peerReputationMap ip = _
    rw [updatePeerReputation, valueAt_insert, Function.update_apply, Call.points]
    split_ifs with h1 h2 h2
    · rw [h1]
      rfl
    · exact absurd h1.symm h2
    · exact absurd h2.symm h1
    · exact (add_zero _).symm
  | addPeer peer =>
    simp only [call, addPeer, Call.points, add_zero]
    split_ifs <;> rfl
  | removePeer peerId => exact (add_zero _).symm
  | penalize place points => exact (add_zero _).symm
  | banPeer address => exact (add_zero _).symm
  | allowBlockFromPeer address => exact (add_zero _).symm
  | allowSubnetConnection address => exact (add_zero _).symm

/-- The reputation of an address is the sum of its points. -/
theorem getPeerReputation_after (calls : List Call) (ip : Bytes) :
    (after calls).getPeerReputation ip = score ip calls := by
  induction calls using List.reverseRecOn with
  | nil => rfl
  | append_singleton calls c ih => rw [after_concat, getPeerReputation_call, ih, score_concat]

/-- The call bans the address, when the points so far are `before`. -/
def Call.Bans (ip : Bytes) (before : ℤ) : Call → Prop
  | .banPeer address => address = ip
  | .updatePeerReputation address delta => address = ip ∧ before + delta ≤ -100
  | _ => False

theorem mem_bannedIps_call (n : PeerBook) (c : Call) (ip : Bytes) :
    ip ∈ (n.call c).2.bannedIps ↔ ip ∈ n.bannedIps ∨ c.Bans ip (n.getPeerReputation ip) := by
  cases c with
  | banPeer address =>
    show ip ∈ insert address n.bannedIps ↔ _
    rw [Finset.mem_insert, or_comm, eq_comm]
    rfl
  | updatePeerReputation address delta =>
    show ip ∈ (n.updatePeerReputation address delta).bannedIps ↔ _
    simp only [updatePeerReputation, Call.Bans]
    by_cases hip : ip = address
    · subst hip
      have hval : valueAt n.peerReputationMap ip = n.getPeerReputation ip := rfl
      rw [hval]
      split_ifs with hlow
      · simp [hlow]
      · simp [hlow]
    · split_ifs
      · simp [hip, Ne.symm hip]
      · simp [Ne.symm hip]
  | addPeer peer =>
    simp only [call, addPeer, Call.Bans, or_false]
    split_ifs <;> rfl
  | removePeer peerId => exact (or_false _).symm ▸ Iff.rfl
  | penalize place points => exact (or_false _).symm ▸ Iff.rfl
  | allowBlockFromPeer address => exact (or_false _).symm ▸ Iff.rfl
  | allowSubnetConnection address => exact (or_false _).symm ▸ Iff.rfl

/-- **Bans**: after any run of calls an address is banned exactly when it was banned by name, or an update
left its points at −100 or less; points it gains later do not help. -/
theorem isBanned_iff (calls : List Call) (ip : Bytes) :
    (after calls).isBanned ip = true ↔
      .banPeer ip ∈ calls ∨
        ∃ pre delta, pre ++ [.updatePeerReputation ip delta] <+: calls ∧
          score ip (pre ++ [.updatePeerReputation ip delta]) ≤ -100 := by
  rw [isBanned, decide_eq_true_eq]
  induction calls using List.reverseRecOn with
  | nil =>
    constructor
    · intro h
      cases h
    · rintro (h | ⟨pre, delta, hpre, -⟩)
      · cases h
      · exact absurd (List.prefix_nil.mp hpre) (by simp)
  | append_singleton calls c ih =>
    rw [after_concat, mem_bannedIps_call, ih, getPeerReputation_after, List.mem_append]
    constructor
    · rintro ((h | ⟨pre, delta, hpre, hlow⟩) | hbans)
      · exact .inl (.inl h)
      · exact .inr ⟨pre, delta, hpre.trans (List.prefix_append _ _), hlow⟩
      · cases c with
        | banPeer address =>
          cases hbans
          exact .inl (.inr (List.mem_singleton_self _))
        | updatePeerReputation address delta =>
          obtain ⟨rfl, hlow⟩ := hbans
          refine .inr ⟨calls, delta, List.prefix_refl _, ?_⟩
          rw [score_concat, Call.points, if_pos rfl]
          exact hlow
        | _ => cases hbans
    · rintro ((h | h) | ⟨pre, delta, hpre, hlow⟩)
      · exact .inl (.inl h)
      · rw [← List.mem_singleton.mp h]
        exact .inr rfl
      · rcases List.prefix_concat_iff.mp hpre with heq | hpre
        · obtain ⟨rfl, hc⟩ := List.append_inj' heq rfl
          rw [← List.singleton_inj.mp hc]
          rw [score_concat, Call.points, if_pos rfl] at hlow
          exact .inr ⟨rfl, hlow⟩
        · exact .inl (.inr ⟨pre, delta, hpre, hlow⟩)

/-! ## Limits -/

/-- The answers of true that a run gives to some calls. -/
def answeredTrue (asks : Call → Bool) (calls : List Call) : ℕ :=
  (Run.log call {} calls).countP fun e => asks e.1 && e.2

section Limits

/-- The calls that ask one of the two counters, and the key they ask for. -/
structure Counter where
  limit : ℕ
  counts : PeerBook → Table Bytes ℕ
  key : Call → Option Bytes
  /-- A call that asks is answered by the counter. -/
  asks : ∀ {n c k}, key c = some k → (n.call c).1 = (allow limit (counts n) k).1 ∧
    counts (n.call c).2 = (allow limit (counts n) k).2
  /-- Any other call leaves the counter alone. -/
  frame : ∀ {n c}, key c = none → counts (n.call c).2 = counts n
  /-- It begins at zero. -/
  start : counts {} = ∅

/-- The counter behind `allow_block_from_peer`. -/
def blockCounter : Counter where
  limit := rateLimitPerWindow
  counts := blockRateCounts
  key
    | .allowBlockFromPeer ip => some ip
    | _ => none
  asks := by
    intro n c k hk
    cases c with
    | allowBlockFromPeer ip =>
      cases hk
      exact ⟨rfl, rfl⟩
    | _ => cases hk
  frame := by
    intro n c hk
    cases c with
    | allowBlockFromPeer ip => cases hk
    | addPeer peer =>
      simp only [call, addPeer]
      split_ifs <;> rfl
    | _ => rfl
  start := rfl

/-- The counter behind `allow_subnet_connection`. -/
def subnetCounter : Counter where
  limit := maxPeersPerSubnet
  counts := subnetConnectionCounts
  key
    | .allowSubnetConnection ip => some (getSubnet ip)
    | _ => none
  asks := by
    intro n c k hk
    cases c with
    | allowSubnetConnection ip =>
      cases hk
      exact ⟨rfl, rfl⟩
    | _ => cases hk
  frame := by
    intro n c hk
    cases c with
    | allowSubnetConnection ip => cases hk
    | addPeer peer =>
      simp only [call, addPeer]
      split_ifs <;> rfl
    | _ => rfl
  start := rfl

variable (M : Counter)

/-- How often a run asks for a key. -/
def Counter.asked (k : Bytes) (calls : List Call) : ℕ := calls.countP fun c => M.key c = some k

/-- How often a run asks for a key and is let through. -/
def Counter.granted (k : Bytes) (calls : List Call) : ℕ :=
  answeredTrue (fun c => M.key c = some k) calls

variable {M}

/-- One question moves the count of its key up to the limit. -/
theorem valueAt_allow (limit : ℕ) (counts : Table Bytes ℕ) (k k' : Bytes) :
    valueAt (allow limit counts k).2 k' =
      valueAt counts k' + if k' = k ∧ valueAt counts k < limit then 1 else 0 := by
  unfold allow
  by_cases hlim : limit ≤ valueAt counts k
  · rw [if_pos hlim, valueAt_subscript, if_neg (fun h => absurd h.2 (not_lt.mpr hlim)), Nat.add_zero]
  · rw [if_neg hlim, valueAt_insert, Function.update_apply]
    by_cases hk : k' = k
    · subst hk
      rw [if_pos rfl, if_pos ⟨rfl, not_le.mp hlim⟩]
    · rw [if_neg hk, if_neg (fun h => hk h.1), Nat.add_zero]

theorem allow_eq_true {limit : ℕ} {counts : Table Bytes ℕ} {k : Bytes} :
    (allow limit counts k).1 = true ↔ valueAt counts k < limit := by
  unfold allow
  split_ifs with h <;> simp <;> omega

theorem Counter.asked_concat (k : Bytes) (calls : List Call) (c : Call) :
    M.asked k (calls ++ [c]) = M.asked k calls + if M.key c = some k then 1 else 0 := by
  rw [asked, List.countP_append, List.countP_singleton, ← asked]
  simp

theorem answeredTrue_concat (asks : Call → Bool) (calls : List Call) (c : Call) :
    answeredTrue asks (calls ++ [c]) = answeredTrue asks calls +
      if asks c = true ∧ ((after calls).call c).1 = true then 1 else 0 := by
  rw [answeredTrue, Run.log_concat, List.countP_append, List.countP_singleton]
  simp only [Bool.and_eq_true]
  rfl

theorem Counter.granted_concat (k : Bytes) (calls : List Call) (c : Call) :
    M.granted k (calls ++ [c]) = M.granted k calls +
      if M.key c = some k ∧ ((after calls).call c).1 = true then 1 else 0 := by
  rw [granted, answeredTrue_concat, ← granted]
  simp only [decide_eq_true_eq]

/-- The count of a key is what was let through for it, and that is what was asked for up to the limit. -/
theorem Counter.value_after (k : Bytes) (calls : List Call) :
    valueAt (M.counts (after calls)) k = M.granted k calls ∧
      M.granted k calls = min M.limit (M.asked k calls) := by
  induction calls using List.reverseRecOn with
  | nil =>
    have hstart : valueAt (M.counts (after [])) k = 0 := by
      show valueAt (M.counts {}) k = 0
      rw [M.start]
      rfl
    exact ⟨hstart, (Nat.min_zero M.limit).symm⟩
  | append_singleton calls c ih =>
    obtain ⟨hvalue, hgranted⟩ := ih
    rw [after_concat, granted_concat, asked_concat]
    cases hc : M.key c with
    | none =>
      rw [M.frame hc, if_neg (fun h => by cases h.1), if_neg (fun h => by cases h)]
      exact ⟨hvalue, hgranted⟩
    | some k' =>
      obtain ⟨hanswer, hcounts⟩ := @Counter.asks M (after calls) c k' hc
      simp only [hanswer, hcounts, valueAt_allow, allow_eq_true]
      by_cases hk : k' = k
      · subst hk
        simp only [true_and, if_true]
        by_cases hlim : valueAt (M.counts (after calls)) k' < M.limit
        · rw [if_pos hlim]
          omega
        · rw [if_neg hlim]
          omega
      · rw [if_neg (fun h => hk h.1.symm), if_neg (fun h => hk (Option.some.inj h.1)),
          if_neg (fun h => hk (Option.some.inj h))]
        exact ⟨hvalue, hgranted⟩

end Limits

/-- The call is a question of `allow_subnet_connection` for an address in the subnet. -/
def Call.asksSubnet (subnet : Bytes) : Call → Bool
  | .allowSubnetConnection ip => getSubnet ip = subnet
  | _ => false

/-- **Limits**: in any run of calls the first 15 blocks from an address are allowed and the first 3
connections from a subnet, and none after them: nothing resets a count. -/
theorem limits_exact (calls : List Call) :
    (∀ ip, answeredTrue (· = .allowBlockFromPeer ip) calls =
      min 15 (calls.count (.allowBlockFromPeer ip))) ∧
    ∀ subnet, answeredTrue (Call.asksSubnet subnet) calls =
      min 3 (calls.countP (Call.asksSubnet subnet)) := by
  refine ⟨?_, ?_⟩
  · intro ip
    have hasks : (fun c => decide (blockCounter.key c = some ip)) =
        fun c => decide (c = .allowBlockFromPeer ip) := by
      funext c
      cases c <;> simp [blockCounter]
    have hvalue := (blockCounter.value_after ip calls).2
    rw [Counter.granted, Counter.asked, hasks] at hvalue
    rw [hvalue, List.count]
    congr 2
  · intro subnet
    have hasks : (fun c => decide (subnetCounter.key c = some subnet)) = Call.asksSubnet subnet := by
      funext c
      cases c <;> simp [subnetCounter, Call.asksSubnet]
    have hvalue := (subnetCounter.value_after subnet calls).2
    rw [Counter.granted, Counter.asked, hasks] at hvalue
    exact hvalue

end PeerBook

end Mermai
