import Mermai.Chain.Invariant
import Mermai.Light.Headers
import Mermai.Node.Coins

/-!
# Node.Following — a light client at a node of the network

`sync_header` looks at the height only, so what a light client holds is worth as much as what it is fed
(`Light.Headers`).  Fed with blocks that one node of a network holds, at whatever times, in whatever order and
however often, it holds the headers of one stretch of that node's chain, in order and linked, and nothing else:
the first block whose header passes opens the stretch, and from then on exactly the next block of the chain
moves its end (`Stretch.offer`).  So it never sees a fork, and never has to give a header back, as long as it
stays with its node (`light_client_follows`).
-/

namespace Mermai

variable {F ι : Type}

/-! ## The stretch -/

/-- The heights of a chain from one up to another. -/
structure Stretch where
  first : ℕ
  next : ℕ
deriving DecidableEq

/-- A client that takes any header first, and then only the next one, is offered the header of a height. -/
def Stretch.offer (w : Option Stretch) (height : ℕ) (passes : Bool) : Option Stretch :=
  if passes then
    match w with
    | none => some ⟨height, height + 1⟩
    | some w => if height = w.next then some ⟨w.first, height + 1⟩ else some w
  else w

/-- The blocks of a chain at the heights of a stretch. -/
def stretchOf (chain : List Block) : Option Stretch → List Block
  | none => []
  | some w => (chain.take w.next).drop w.first

/-- `mermai_light_client::get_latest_height`. -/
def LightClient.getLatestHeight (c : LightClient) : UInt32 :=
  match c.headers.getLast? with
  | none => 0
  | some tip => tip.height

/-- The stretch behind blocks that are offered. -/
def stretchAfter (C : Crypto) (blocks : List Block) : Option Stretch :=
  blocks.foldl (fun w b => Stretch.offer w b.height.toNat ((b.header C).verifySignature C)) none

/-! ## One block -/

/-- The client holds the headers of a stretch of a chain. -/
structure LightClient.Holds (C : Crypto) (chain : List Block) (c : LightClient) (w : Option Stretch) :
    Prop where
  bounds : ∀ s, w = some s → s.first < s.next ∧ s.next ≤ chain.length
  headers : c.headers = (stretchOf chain w).map (Block.header C)

section Chain

variable {C : Crypto} {chain : List Block} {c : LightClient} {w : Option Stretch} {b : Block}

theorem stretchOf_concat {s : Stretch} (hs : s.first < s.next) (hb : chain[s.next]? = some b) :
    stretchOf chain (some ⟨s.first, s.next + 1⟩) = stretchOf chain (some s) ++ [b] := by
  obtain ⟨hlt, rfl⟩ := List.getElem?_eq_some_iff.mp hb
  have hlen : s.first ≤ (chain.take s.next).length := by
    rw [List.length_take]
    omega
  simp only [stretchOf]
  rw [List.take_succ_eq_append_getElem hlt, List.drop_append_of_le_length hlen]

/-- The tip of the client is the last block of the stretch. -/
theorem LightClient.Holds.tip {s : Stretch} (h : c.Holds C chain (some s)) :
    ∃ p, chain[s.next - 1]? = some p ∧ c.headers.getLast? = some (p.header C) := by
  obtain ⟨hfirst, hnext⟩ := h.bounds s rfl
  have hlt : s.next - 1 < chain.length := by omega
  refine ⟨chain[s.next - 1], List.getElem?_eq_getElem hlt, ?_⟩
  have hlen : ¬ (chain.take s.next).length ≤ s.first := by
    rw [List.length_take]
    omega
  rw [h.headers, List.getLast?_map, stretchOf, List.getLast?_drop, if_neg hlen, List.getLast?_take,
    if_neg (by omega), List.getElem?_eq_getElem hlt]
  rfl

/-- The header of a block of the chain extends the client's when it is the next one. -/
theorem LightClient.Holds.extendsHeaders_iff (hchain : WellFormedChain C chain) (hlen : chain.length < 2 ^ 32)
    {s : Stretch} (h : c.Holds C chain (some s)) :
    c.extendsHeaders (b.header C) = true ↔ b.height.toNat = s.next := by
  obtain ⟨hfirst, hnext⟩ := h.bounds s rfl
  obtain ⟨p, hp, htip⟩ := h.tip
  have hheight := hchain.heights _ p hp
  unfold LightClient.extendsHeaders
  rw [htip]
  have hstep : (b.height = p.height + 1) ↔ b.height.toNat = p.height.toNat + 1 := by
    constructor
    · intro heq
      exact (toNat_eq_succ_iff heq).mpr (by omega)
    · intro heq
      rw [← UInt32.toNat_inj, UInt32.toNat_add, UInt32.toNat_one, heq, Nat.mod_eq_of_lt (by omega)]
  rw [decide_eq_true_iff, show ((b.header C).height = (p.header C).height + 1) ↔ _ from hstep]
  omega

/-- **One block** of the chain moves the client as it moves the stretch. -/
theorem LightClient.Holds.offer (hchain : WellFormedChain C chain) (hlen : chain.length < 2 ^ 32)
    (h : c.Holds C chain w) (hb : b ∈ chain) :
    (c.call C (.syncHeaderFromBlock b)).Holds C chain
      (Stretch.offer w b.height.toNat ((b.header C).verifySignature C)) := by
  obtain ⟨k, hk⟩ := List.getElem?_of_mem hb
  have hheight := hchain.heights k b hk
  have hklt := (List.getElem?_eq_some_iff.mp hk).1
  rw [LightClient.call_eq, SyncCall.presents, hheight]
  rcases c.syncHeader_cases C (b.header C) with ⟨hno, heq⟩ | ⟨hext, hver, -, heq, -⟩
  · rw [heq]
    cases hver : (b.header C).verifySignature C with
    | false => exact h
    | true =>
      cases w with
      | none =>
        have hext : c.extendsHeaders (b.header C) = true := by
          rw [LightClient.extendsHeaders, h.headers]
          rfl
        exact absurd ⟨hext, hver⟩ hno
      | some s =>
        have hne : ¬ k = s.next := fun hks =>
          hno ⟨(h.extendsHeaders_iff hchain hlen).mpr (hheight.trans hks), hver⟩
        simp only [Stretch.offer, if_true, if_neg hne]
        exact h
  · rw [hver]
    cases w with
    | none =>
      refine ⟨?_, ?_⟩
      · rintro s ⟨⟩
        exact ⟨Nat.lt_succ_self k, hklt⟩
      · obtain ⟨hlt, rfl⟩ := List.getElem?_eq_some_iff.mp hk
        rw [heq, h.headers]
        simp only [Stretch.offer, if_true, stretchOf]
        rw [List.take_succ_eq_append_getElem hlt, List.drop_left' (by rw [List.length_take]; omega)]
        rfl
    | some s =>
      obtain ⟨hfirst, hnext⟩ := h.bounds s rfl
      obtain rfl : k = s.next := hheight.symm.trans ((h.extendsHeaders_iff hchain hlen).mp hext)
      simp only [Stretch.offer, if_true]
      refine ⟨?_, ?_⟩
      · rintro s' ⟨⟩
        exact ⟨Nat.lt_succ_of_lt hfirst, hklt⟩
      · rw [heq, h.headers, stretchOf_concat hfirst hk, List.map_append, List.map_singleton]

/-! ## Runs over one chain -/

/-- The calls that offer blocks. -/
def offered (blocks : List Block) : List SyncCall := blocks.map .syncHeaderFromBlock

/-- **A run** over blocks of the chain leaves the headers of a stretch of it. -/
theorem holds_run (hchain : WellFormedChain C chain) (hlen : chain.length < 2 ^ 32) {blocks : List Block}
    (hblocks : ∀ b ∈ blocks, b ∈ chain) :
    (LightClient.run C (offered blocks)).Holds C chain (stretchAfter C blocks) := by
  induction blocks using List.reverseRecOn with
  | nil => exact ⟨fun s hs => (by cases hs), rfl⟩
  | append_singleton blocks b ih =>
    have ih' := ih fun b' hb' => hblocks b' (List.mem_append_left _ hb')
    rw [offered, List.map_append, List.map_singleton, LightClient.run_concat, stretchAfter, List.foldl_append]
    exact ih'.offer hchain hlen (hblocks b (by simp))

/-- The headers of a chain are linked. -/
theorem isChain_headers (hchain : WellFormedChain C chain) :
    (chain.map (Block.header C)).IsChain BlockHeader.Follows := by
  rw [List.isChain_map, List.isChain_iff_getElem]
  intro i hi
  have hp := List.getElem?_eq_getElem (Nat.lt_of_succ_lt hi)
  have hb := List.getElem?_eq_getElem hi
  refine ⟨(hchain.links i _ _ hp hb).1, ?_⟩
  rw [Block.header, Block.header, hchain.heights _ _ hb, hchain.heights _ _ hp]

theorem LightClient.Holds.linked (hchain : WellFormedChain C chain) (h : c.Holds C chain w) :
    c.headers.IsChain BlockHeader.Follows := by
  rw [h.headers]
  cases w with
  | none => exact List.isChain_nil
  | some s =>
    rw [stretchOf, List.map_drop, List.map_take]
    exact ((isChain_headers hchain).take s.next).drop s.first

/-- What `get_header` finds are the headers of the stretch. -/
theorem getHeader_offered (hchain : WellFormedChain C chain) (hlen : chain.length < 2 ^ 32)
    {blocks : List Block} (hblocks : ∀ b ∈ blocks, b ∈ chain) (height : UInt32) (h : BlockHeader) :
    (LightClient.run C (offered blocks)).getHeader height = some h ↔
      ∃ b ∈ stretchOf chain (stretchAfter C blocks), b.height = height ∧ h = b.header C := by
  have hholds := holds_run hchain hlen hblocks
  have hnodup := nodup_heights (hholds.linked hchain)
  rw [LightClient.getHeader_run]
  constructor
  · intro hfind
    have hmem := List.mem_reverse.mp (List.mem_of_find?_eq_some hfind)
    rw [hholds.headers] at hmem
    obtain ⟨b, hb, rfl⟩ := List.mem_map.mp hmem
    have hheight : (b.header C).height = height := by simpa using List.find?_some hfind
    exact ⟨b, hb, hheight, rfl⟩
  · rintro ⟨b, hb, rfl, rfl⟩
    have hmem : b.header C ∈ (LightClient.run C (offered blocks)).headers := by
      rw [hholds.headers]
      exact List.mem_map_of_mem hb
    obtain ⟨h', hfind⟩ : ∃ h', (LightClient.run C (offered blocks)).headers.reverse.find?
        (fun x => x.height = b.height) = some h' :=
      Option.isSome_iff_exists.mp
        (List.find?_isSome.mpr ⟨b.header C, List.mem_reverse.mpr hmem, by simp [Block.header]⟩)
    have hheight : h'.height = b.height := by simpa using List.find?_some hfind
    have hmem' := List.mem_reverse.mp (List.mem_of_find?_eq_some hfind)
    rw [hfind, List.inj_on_of_nodup_map hnodup hmem' hmem hheight]

end Chain

/-! ## The chain of a node -/

section Grown

variable {C : Crypto} {fl : FloatOps F} {clock : ℕ → ℕ}

theorem Grown.acceptBlock {n : Node} (h : Grown C n.chain) (b : Block) :
    Grown C (n.acceptBlock C fl clock b).2.chain := by
  simp only [Node.acceptBlock]
  split_ifs
  · exact addBlock_grown h
  · exact h
  · exact h

theorem Grown.acceptBlocks {blocks : List Block} {n : Node} (h : Grown C n.chain) :
    Grown C (n.acceptBlocks C fl clock blocks).2.chain := by
  induction blocks generalizing n with
  | nil => exact h
  | cons b rest ih =>
    rw [Node.acceptBlocks]
    split_ifs
    · exact ih (h.acceptBlock b)
    · exact h.acceptBlock b

end Grown

section Network

variable [DecidableEq ι] {σ : ι → Setup F} {start : ι → MermaiNode F}

/-- **Step and run**: the chain of a node with a database is one that its checks can build. -/
theorem grown_network (hclock : ∀ i, Monotone (σ i).clock) (hdb : ∀ i, ∃ db, (start i).node.db = some db)
    (hgrown : ∀ i, Grown (σ i).crypto (start i).node.chain) (acts : Acts ι) (i : ι) :
    Grown (σ i).crypto (chainAfter σ start acts i) := by
  induction acts using List.reverseRecOn with
  | nil => exact hgrown i
  | append_singleton acts a ih =>
    obtain ⟨j, e⟩ := a
    rw [chainAfter, networkRun_concat]
    by_cases hi : i = j
    · subst hi
      rw [Network.Protocol.step_state_self]
      obtain ⟨⟨db, hacts⟩, -⟩ := pays_network hclock hdb (List.prefix_refl acts) i
      obtain ⟨n, blocks, hn, -, hframe⟩ := MermaiNode.react_ledger (σ i) hacts e
      show Grown (σ i).crypto (((networkRun σ start acts).state i).react (σ i) e).1.node.chain
      rw [hframe.chain]
      refine Grown.acceptBlocks ?_
      rw [hn.chain]
      exact ih
    · rw [Network.Protocol.step_state_ne _ hi]
      exact ih

end Network

/-- **A light client at a node**: fed with blocks that one node with a database holds at any moments of a run,
in any order and any number of times, it holds the headers of one stretch of the chain that the node ends with,
linked and in order, finds each under its height and no other, and has the height of the last. -/
theorem light_client_follows [DecidableEq ι] (σ : ι → Setup F) (start : ι → MermaiNode F)
    (hclock : ∀ i, Monotone (σ i).clock) (hdb : ∀ i, ∃ db, (start i).node.db = some db)
    (hgrown : ∀ i, Grown (σ i).crypto (start i).node.chain) (acts : Acts ι) (i : ι)
    (hlen : (chainAfter σ start acts i).length < 2 ^ 32) (blocks : List Block)
    (hblocks : ∀ b ∈ blocks, ∃ pre, pre <+: acts ∧ b ∈ chainAfter σ start pre i) :
    let C := (σ i).crypto
    let held := stretchOf (chainAfter σ start acts i) (stretchAfter C blocks)
    let client := LightClient.run C (offered blocks)
    client.headers = held.map (Block.header C) ∧ client.headers.IsChain BlockHeader.Follows ∧
      (∀ height h, client.getHeader height = some h ↔
        ∃ b ∈ held, b.height = height ∧ h = b.header C) ∧
      ∀ tip, held.getLast? = some tip → client.getLatestHeight = tip.height := by
  intro C held client
  have hchain : WellFormedChain C (chainAfter σ start acts i) :=
    (grown_network hclock hdb hgrown acts i).wellFormed hlen
  have hmem : ∀ b ∈ blocks, b ∈ chainAfter σ start acts i := by
    intro b hb
    obtain ⟨pre, hpre, hbpre⟩ := hblocks b hb
    obtain ⟨-, added, hpays⟩ := pays_network hclock hdb hpre i
    rw [chainAfter, hpays.chain]
    exact List.mem_append_left _ hbpre
  have hholds := holds_run hchain hlen hmem
  refine ⟨hholds.headers, hholds.linked hchain, getHeader_offered hchain hlen hmem, ?_⟩
  intro tip htip
  have hlast : client.headers.getLast? = some (tip.header C) := by
    rw [show client.headers = _ from hholds.headers, List.getLast?_map, htip]
    rfl
  rw [LightClient.getLatestHeight, hlast]
  rfl

/-- The client is offered the second block twice, with the first between: it holds the second. -/
theorem light_client_follows_sample :
    stretchAfter polyCrypto [sampleBlock, genesis, sampleBlock] = some ⟨1, 2⟩ ∧
      (LightClient.run polyCrypto (offered [sampleBlock, genesis, sampleBlock])).headers =
        [sampleBlock.header polyCrypto] := by
  have hclock : Monotone fun n : ℕ => 1640000013 + n := fun _ _ h => Nat.add_le_add_left h _
  have hchain : chainAfter (fun _ => sampleSetup) (fun _ => sampleNode) sampleActs true =
      [genesis, sampleBlock] := by decide +kernel
  have hmem : ∀ b ∈ [sampleBlock, genesis, sampleBlock], ∃ pre, pre <+: sampleActs ∧
      b ∈ chainAfter (fun _ => sampleSetup) (fun _ => sampleNode) pre true := by
    intro b hb
    refine ⟨sampleActs, List.prefix_refl _, ?_⟩
    rw [hchain]
    have hsub : [sampleBlock, genesis, sampleBlock] ⊆ [genesis, sampleBlock] :=
      List.cons_subset.mpr ⟨List.mem_cons_of_mem _ List.mem_cons_self, List.Subset.refl _⟩
    exact hsub hb
  have hstretch : stretchAfter polyCrypto [sampleBlock, genesis, sampleBlock] = some ⟨1, 2⟩ := by
    decide +kernel
  obtain ⟨hheaders, -⟩ := light_client_follows (fun _ : Bool => sampleSetup) (fun _ => sampleNode)
    (fun _ => hclock) (fun _ => ⟨{}, rfl⟩) (fun _ => grown_genesis polyCrypto) sampleActs true
    (by rw [hchain]; decide) [sampleBlock, genesis, sampleBlock] hmem
  refine ⟨hstretch, ?_⟩
  rw [hchain, show stretchAfter (sampleSetup).crypto _ = _ from hstretch] at hheaders
  exact hheaders

end Mermai
