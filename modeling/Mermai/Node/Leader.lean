import Mermai.Node.Finalized
import Mermai.Node.Rounds

/-!
# Node.Leader — one node that makes blocks

Agreement needs that no two rounds make different blocks of one height.  A node with a database never takes a
block back, so its own rounds make blocks of different heights; when it is the only one with rounds, all nodes
agree for ever, whatever the network does with the messages (`one_producer_agrees`).
-/

namespace Mermai

variable {F ι : Type} [DecidableEq ι] {σ : ι → Setup F} {start : ι → MermaiNode F} {acts : Acts ι}

/-- Only a round makes a block. -/
theorem MermaiNode.isRound_of_made {σ : Setup F} {s : MermaiNode F} {e : MermaiNode.Event} {b : Block}
    (hb : b ∈ s.made σ e) : e.isRound = true := by
  cases e with
  | consensusRound => rfl
  | _ => cases hb

/-- The blocks of the rounds of one node are different at different heights only. -/
theorem made_unique {p : ι} (hdb : (start p).node.db.isSome = true)
    (hsole : ∀ a ∈ acts, a.2.isRound = true → a.1 = p) :
    ∀ b ∈ madeIn σ start acts, ∀ c ∈ madeIn σ start acts, b.height = c.height → b = c := by
  intro b hb c hc hheight
  obtain ⟨pre, ⟨i, e⟩, hpre, hb⟩ := Network.Protocol.exists_of_mem_trace hb
  obtain ⟨later, ⟨j, e'⟩, hlater, hc⟩ := Network.Protocol.exists_of_mem_trace hc
  have hmem : ∀ {pre : Acts ι} {a : ι × MermaiNode.Event}, pre ++ [a] <+: acts → a ∈ acts :=
    fun hpre => hpre.subset (List.mem_append_right _ (List.mem_singleton_self _))
  obtain rfl : i = p := hsole _ (hmem hpre) (MermaiNode.isRound_of_made hb)
  obtain rfl : j = i := hsole _ (hmem hlater) (MermaiNode.isRound_of_made hc)
  have hb' := getElem?_of_made hb
  have hc' := getElem?_of_made hc
  rw [← hheight] at hc'
  -- one of the rounds is before the other, and the chain between them only grows
  rcases List.prefix_or_prefix_of_prefix hpre hlater with hle | hle
  · have hgrown := (onward_network σ hdb hle).1.chain
    exact Option.some.inj ((getElem?_longer hgrown hb').symm.trans hc')
  · have hgrown := (onward_network σ hdb hle).1.chain
    exact Option.some.inj (hb'.symm.trans (getElem?_longer hgrown hc'))

/-- **One producer**: nodes start with the genesis block and validators whose names fit the decoder, only
one node has rounds, and it has a database.  Then any two chains, of any nodes at any times, are prefixes of
one another, however the network delays, repeats, reorders or drops what was sent. -/
theorem one_producer_agrees (σ : ι → Setup F) (start : ι → MermaiNode F)
    (hchain : ∀ i, (start i).node.chain = [genesis])
    (hmodest : ∀ i, Modest (start i).node.finality.validators) (p : ι)
    (hdb : (start p).node.db.isSome = true) (acts : Acts ι)
    (hfaith : (network σ).Faithful ⟨start, []⟩ acts)
    (hsole : ∀ a ∈ acts, a.2.isRound = true → a.1 = p) (pre later : Acts ι) (hpre : pre <+: acts)
    (hlater : later <+: acts) (i j : ι) :
    chainAfter σ start pre i <+: chainAfter σ start later j ∨
      chainAfter σ start later j <+: chainAfter σ start pre i :=
  comparable_of_unique hchain hmodest hfaith (made_unique hdb hsole) hpre hlater i j

/-- One node makes two blocks, which arrive in the other order, and then once more. -/
def leaderActs : Acts Bool :=
  let second := (nextBlock polyCrypto [genesis, sampleBlock] sampleBlock 1640000010 [118]).fillValidator
    1640000010 keylessValidator
  [(false, .consensusRound), (false, .consensusRound), (true, .received 0 .incoming (blockMessage second)),
    (true, .received 0 .incoming (blockMessage sampleBlock)), (true, .received 0 .connected (blockMessage second))]

theorem one_producer_agrees_sample :
    (chainAfter (fun _ => sampleSetup) (fun _ => sampleNode) leaderActs true).length = 3 ∧
      ∀ pre later, pre <+: leaderActs → later <+: leaderActs → ∀ i j,
        chainAfter (fun _ => sampleSetup) (fun _ => sampleNode) pre i <+:
            chainAfter (fun _ => sampleSetup) (fun _ => sampleNode) later j ∨
          chainAfter (fun _ => sampleSetup) (fun _ => sampleNode) later j <+:
            chainAfter (fun _ => sampleSetup) (fun _ => sampleNode) pre i := by
  refine ⟨by decide +kernel, ?_⟩
  intro pre later hpre hlater
  refine one_producer_agrees (fun _ => sampleSetup) (fun _ => sampleNode) (fun _ => rfl) ?_ false rfl leaderActs
    (by decide +kernel) (by simp [leaderActs, MermaiNode.Event.isRound]) pre later hpre hlater
  intro _ v hv
  rw [List.mem_singleton.mp hv]
  decide

end Mermai
