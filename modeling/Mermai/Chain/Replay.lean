import Mermai.Chain.Invariant

/-!
# Chain.Replay — validating an accepted chain a second time

`replace_chain_if_longer` asks the engine about every block after the first, with the validators the
engine has at that moment.  Over a chain that `can_add_block` accepted block by block all the other
checks pass again, so the verdict is that of the validators alone: they have to name and authorize
each block (`Replays`).

* `Accepted` — the chains that `can_add_block` builds, with the checks that do not ask the engine;
* `replay_iff` — the loop of `replace_chain_if_longer` over such a chain.
-/

namespace Mermai

variable {F : Type}

/-! ## Accepted chains -/

/-- The chains that `can_add_block` accepts block by block, as far as the engine is not asked. -/
inductive Accepted (C : Crypto) (now : ℕ) : List Block → Prop
  | genesis : Accepted C now [genesis]
  | snoc {chain : List Block} {b : Block} : Accepted C now chain →
      extendsTip C now chain b = true → bodyOk C now b = true → Accepted C now (chain ++ [b])

theorem Accepted.mono {C : Crypto} {now now' : ℕ} {chain : List Block} (h : Accepted C now chain)
    (hle : now ≤ now') : Accepted C now' chain := by
  induction h with
  | genesis => exact .genesis
  | snoc _ ht hb ih => exact .snoc ih (extendsTip_mono ht hle) (bodyOk_mono hb hle)

theorem Accepted.head {C : Crypto} {now : ℕ} {chain : List Block} (h : Accepted C now chain) :
    ∃ rest, chain = Mermai.genesis :: rest := by
  induction h with
  | genesis => exact ⟨[], rfl⟩
  | @snoc chain b _ _ _ ih =>
    obtain ⟨rest, rfl⟩ := ih
    exact ⟨rest ++ [b], rfl⟩

theorem Accepted.ne_nil {C : Crypto} {now : ℕ} {chain : List Block} (h : Accepted C now chain) :
    chain ≠ [] := by
  obtain ⟨rest, rfl⟩ := h.head
  exact List.cons_ne_nil _ _

/-- Every block after the first passed the checks over the blocks before it. -/
theorem Accepted.split {C : Crypto} {now : ℕ} {chain : List Block} (h : Accepted C now chain)
    {pre rest : List Block} {b : Block} (hne : pre ≠ []) (heq : chain = pre ++ b :: rest) :
    extendsTip C now pre b = true ∧ bodyOk C now b = true := by
  induction h generalizing rest with
  | genesis =>
    have := congrArg List.length heq
    have := List.length_pos_iff.mpr hne
    simp at *
    omega
  | @snoc chain c _ ht hb ih =>
    rcases List.eq_nil_or_concat rest with rfl | ⟨rest, d, rfl⟩
    · obtain ⟨rfl, h2⟩ := List.append_inj' heq rfl
      cases h2
      exact ⟨ht, hb⟩
    · have heq' : chain ++ [c] = (pre ++ b :: rest) ++ [d] := by
        rw [heq]
        simp
      exact ih (List.append_inj' heq' rfl).1

/-! ## Replaying an accepted chain -/

/-- The validators still name and authorize the block at its own time. -/
def Replays (C : Crypto) (fl : FloatOps F) (vs : List ValidatorStake) (b : Block) : Prop :=
  namesProposer C fl vs b (slotTime b.timestamp) = true ∧
    authorizes C fl vs b (slotTime b.timestamp) = true

instance (C : Crypto) (fl : FloatOps F) (vs : List ValidatorStake) (b : Block) :
    Decidable (Replays C fl vs b) := inferInstanceAs (Decidable (_ ∧ _))

theorem candidateOk_of_accepted {C : Crypto} {now : ℕ} {pre : List Block} {b : Block}
    (ht : extendsTip C now pre b = true) (hb : bodyOk C now b = true) :
    candidateOk C pre b = true ∧ merkleOk C b = true ∧
      transactionsOk C now b.transactions = true := by
  obtain ⟨tip, hlast, hheight, -, hlink, htime, -, hval⟩ := extendsTip_iff.mp ht
  have hb' := hb
  simp only [bodyOk, Bool.decide_and, Bool.decide_eq_true, Bool.and_eq_true,
    decide_eq_true_eq] at hb'
  obtain ⟨hcount, hmerkle, htx⟩ := hb'
  refine ⟨candidateOk_iff.mpr ⟨?_, ?_, .inr hval, hcount⟩, hmerkle, htx⟩
  · rw [← hheight, UInt32.ofNat_toNat]
  · rw [followsValidated, hlast]
    simp only [Bool.decide_and, Bool.and_eq_true, decide_eq_true_eq, UInt64.not_lt]
    exact ⟨hlink, htime⟩

/-- The verdict of one round of the loop on a block that passes the checks beside the engine. -/
theorem validateCandidate_round {C : Crypto} {fl : FloatOps F} {now : ℕ} {eng : Option Engine}
    {pre : List Block} {b : Block} {rest : List (Option Block)}
    (hc : candidateOk C pre b = true) (hm : merkleOk C b = true)
    (ht : transactionsOk C now b.transactions = true) :
    let p := candidateProposal C fl eng pre b
    (validateCandidate C fl now eng pre (some b :: rest)).1.ok =
      (p.ok && (validateCandidate C fl now p.engine (pre ++ [b]) rest).1.ok) := by
  intro p
  by_cases hp : p.ok = true
  · have hall : (p.ok && merkleOk C b && transactionsOk C now b.transactions) = true := by
      rw [hp, hm, ht]
      rfl
    rw [validateCandidate, if_pos hc, if_pos hall, hp, Bool.true_and]
  · have hall : ¬ (p.ok && merkleOk C b && transactionsOk C now b.transactions) = true := by
      rw [Bool.eq_false_iff.mpr hp]
      simp
    rw [validateCandidate, if_pos hc, if_neg hall, Bool.eq_false_iff.mpr hp]
    rfl

/-- A table without an entry for the height of the block leaves the verdict to the validators. -/
theorem proposalOk_iff_replays {C : Crypto} {fl : FloatOps F} {e : Engine} {b : Block}
    (hseen : e.seenProposals (b.height, slotTime b.timestamp) = none) :
    (proposalOk C fl (some e) b).ok = true ↔ Replays C fl e.activeValidators b := by
  have h : (proposalOk C fl (some e) b).ok = true ↔
      (validateProposal C fl e b b.timestamp).1 = .accepted := by
    simp [proposalOk]
  rw [h, validateProposal_accepted, Replays, hseen]
  simp

/-- **Replay**: the loop accepts the rest of an accepted chain exactly when the validators still
name and authorize each of its blocks.  Heights grow, so the table never finds a second block. -/
theorem replay_iff {C : Crypto} {fl : FloatOps F} {now : ℕ} {chain : List Block}
    (hacc : Accepted C now chain) {pre rest : List Block} {e : Engine} (hne : pre ≠ [])
    (heq : chain = pre ++ rest)
    (hseen : ∀ k h, e.seenProposals k = some h → k.1.toNat < pre.length) :
    (validateCandidate C fl now (some e) pre (rest.map some)).1.ok = true ↔
      ∀ b ∈ rest, Replays C fl e.activeValidators b := by
  induction rest generalizing pre e with
  | nil => simp [validateCandidate]
  | cons b rest ih =>
    obtain ⟨ht, hb⟩ := hacc.split hne heq
    obtain ⟨hc, hm, htx⟩ := candidateOk_of_accepted ht hb
    obtain ⟨tip, -, hheight, -⟩ := extendsTip_iff.mp ht
    have hnone : e.seenProposals (b.height, slotTime b.timestamp) = none := by
      by_contra hsome
      obtain ⟨h, hh⟩ := Option.ne_none_iff_exists'.mp hsome
      have := hseen _ h hh
      dsimp only at this
      omega
    have hprop : candidateProposal C fl (some e) pre b = proposalOk C fl (some e) b := if_neg hne
    rw [List.map_cons, validateCandidate_round hc hm htx, hprop, Bool.and_eq_true,
      proposalOk_iff_replays hnone, List.forall_mem_cons]
    refine and_congr_right ?_
    intro hr
    -- the engine after an accepted proposal has the same validators and one more entry
    have haccept : (validateProposal C fl e b b.timestamp).1 = .accepted := by
      have := (proposalOk_iff_replays hnone).mpr hr
      simpa [proposalOk] using this
    have hvs := validateProposal_validators haccept
    have heng : (proposalOk C fl (some e) b).engine =
        some (validateProposal C fl e b b.timestamp).2 := rfl
    rw [heng, ← hvs]
    refine ih (by simp) (by rw [heq]; simp) ?_
    intro k h hk
    rw [validateProposal_seen haccept] at hk
    rw [List.length_append, List.length_singleton]
    by_cases hkey : k = (b.height, slotTime b.timestamp)
    · subst hkey
      dsimp only
      omega
    · rw [Function.update_of_ne hkey] at hk
      have := hseen k h hk
      omega

theorem validateCandidate_result {C : Crypto} {fl : FloatOps F} {now : ℕ} {eng : Option Engine}
    {pre rest : List Block}
    (hok : (validateCandidate C fl now eng pre (rest.map some)).1.ok = true) :
    (validateCandidate C fl now eng pre (rest.map some)).2 = pre ++ rest := by
  induction rest generalizing pre eng with
  | nil => simp [validateCandidate]
  | cons b rest ih =>
    obtain ⟨-, -, -, -, hok', heq⟩ := validateCandidate_cons hok
    rw [List.map_cons, heq, ih hok', List.append_assoc]
    rfl

/-- Adopting an accepted chain on a new node. -/
theorem replaceChainIfLonger_accepted {C : Crypto} {fl : FloatOps F} {now : ℕ} {rest : List Block}
    {vs : List ValidatorStake} (hacc : Accepted C now (genesis :: rest)) (hne : rest ≠ []) :
    (replaceChainIfLonger C fl now (some ⟨vs, fun _ => none⟩) [genesis]
      ((genesis :: rest).map some)).1.ok = true ↔ ∀ b ∈ rest, Replays C fl vs b := by
  have hpos := List.length_pos_iff.mpr hne
  have hlong : ¬ ((genesis :: rest).map some = [] ∨
      ((genesis :: rest).map some).length ≤ [genesis].length) := by
    simp only [List.map_cons, reduceCtorEq, List.length_cons, List.length_map, List.length_nil,
      false_or]
    omega
  have hc : candidateOk C [] genesis = true := by
    rw [candidateOk_iff]
    exact ⟨rfl, rfl, .inl rfl, Nat.zero_le _⟩
  rw [replaceChainIfLonger, if_neg hlong, List.map_cons,
    validateCandidate_round hc rfl rfl, candidateProposal, if_pos rfl, Bool.true_and]
  exact replay_iff hacc (by simp) rfl fun k h hk => by cases hk

end Mermai
