import Mermai.Core.FormatLaws
import Mermai.Chain.Replay

/-!
# Chain.Adoption — a whole chain at once, or block by block

Without an engine `replace_chain_if_longer` and `add_block` should accept the same chains.  The loop
of the first is a second copy of the rules of the second, with three rules missing: the first block
is not compared with the genesis block, no timestamp is bounded by the clock, and heights are compared
after a cast to 32 bits.

* `linked` — the rules that both have;
* `validateCandidate_iff_linked`, `addAll_iff_linked` — each validator against them.
-/

namespace Mermai

variable {F : Type}

/-! ## The shared rules -/

/-- The rules for block number `n` after `previous` that both validators have. -/
def linkedOver (C : Crypto) (now n : ℕ) (previous b : Block) : Bool :=
  b.height = UInt32.ofNat n ∧ b.prevBlockHash = previous.hashHex C ∧
    previous.timestamp ≤ b.timestamp ∧ b.verifyTimeWeightPos ∧ bodyOk C now b

/-- The shared rules for the blocks from number `n` on, after `previous`. -/
def linkedFrom (C : Crypto) (now : ℕ) : ℕ → Block → List (Option Block) → Bool
  | _, _, [] => true
  | _, _, none :: _ => false
  | n, previous, some b :: rest => linkedOver C now n previous b && linkedFrom C now (n + 1) b rest

/-- The shared rules for a whole chain. -/
def linked (C : Crypto) (now : ℕ) : List (Option Block) → Bool
  | some b :: rest =>
    (b.height = 0 ∧ b.prevBlockHash = zeroHash ∧ bodyOk C now b) && linkedFrom C now 1 b rest
  | _ => false

/-! ## Adopting block by block -/

/-- `add_block` succeeds on each of the blocks in order. -/
def addAll (C : Crypto) (fl : FloatOps F) (now : ℕ) : List Block → List (Option Block) → Bool
  | _, [] => true
  | chain, block :: rest =>
    let r := addBlock C fl now none chain block
    r.1.ok && addAll C fl now r.2 rest

/-- The first block encodes to the bytes of the genesis block. -/
def sameGenesis : List (Option Block) → Bool
  | some b :: _ => b.serialize = genesis.serialize
  | _ => false

/-- Adoption block by block: the same genesis block, then `add_block` on the genesis-only chain. -/
def adoptable (C : Crypto) (fl : FloatOps F) (now : ℕ) (candidate : List (Option Block)) : Bool :=
  sameGenesis candidate && addAll C fl now [genesis] candidate.tail

/-! ## The loop of `replace_chain_if_longer` -/

theorem candidateOk_iff_linkedOver {C : Crypto} {now : ℕ} {pre : List Block} {tip b : Block}
    (hlast : pre.getLast? = some tip) :
    (candidateOk C pre b = true ∧ merkleOk C b = true ∧
      transactionsOk C now b.transactions = true) ↔
      linkedOver C now pre.length tip b = true := by
  have hne : pre ≠ [] := by
    rintro rfl
    cases hlast
  rw [candidateOk_iff, followsValidated, hlast]
  simp only [linkedOver, bodyOk, Bool.decide_and, Bool.decide_eq_true, Bool.and_eq_true,
    decide_eq_true_eq, UInt64.not_lt, hne, false_or]
  tauto

/-- **The loop after the first block** checks the shared rules. -/
theorem validateCandidate_iff_linkedFrom {C : Crypto} {fl : FloatOps F} {now : ℕ}
    {candidate : List (Option Block)} {pre : List Block} {tip : Block}
    (hlast : pre.getLast? = some tip) :
    (validateCandidate C fl now none pre candidate).1.ok = true ↔
      linkedFrom C now pre.length tip candidate = true := by
  have hne : pre ≠ [] := by
    rintro rfl
    cases hlast
  induction candidate generalizing pre tip with
  | nil => simp [validateCandidate, linkedFrom]
  | cons block rest ih =>
    cases block with
    | none => simp [validateCandidate, linkedFrom]
    | some b =>
      have hprop : candidateProposal C fl none pre b = ⟨true, none, []⟩ := if_neg hne
      have hih : (validateCandidate C fl now none (pre ++ [b]) rest).1.ok = true ↔
          linkedFrom C now (pre.length + 1) b rest = true := by
        rw [← List.length_singleton (a := b), ← List.length_append]
        exact ih List.getLast?_concat (by simp)
      rw [linkedFrom, Bool.and_eq_true, ← candidateOk_iff_linkedOver hlast, ← hih]
      constructor
      · intro h
        obtain ⟨hc, -, hm, ht, hok, -⟩ := validateCandidate_cons h
        rw [hprop] at hok
        exact ⟨⟨hc, hm, ht⟩, hok⟩
      · rintro ⟨⟨hc, hm, ht⟩, hok⟩
        rw [validateCandidate_round hc hm ht, hprop]
        exact hok

theorem candidateOk_nil_iff {C : Crypto} {now : ℕ} {b : Block} :
    (candidateOk C [] b = true ∧ merkleOk C b = true ∧
      transactionsOk C now b.transactions = true) ↔
      b.height = 0 ∧ b.prevBlockHash = zeroHash ∧ bodyOk C now b = true := by
  rw [candidateOk_iff, followsValidated]
  simp only [bodyOk, Bool.decide_and, Bool.decide_eq_true, Bool.and_eq_true, decide_eq_true_eq,
    List.getLast?_nil, List.length_nil, true_or, true_and]
  tauto

/-- **The whole loop** checks the shared rules. -/
theorem validateCandidate_iff_linked {C : Crypto} {fl : FloatOps F} {now : ℕ}
    {candidate : List (Option Block)} (hne : candidate ≠ []) :
    (validateCandidate C fl now none [] candidate).1.ok = true ↔
      linked C now candidate = true := by
  cases candidate with
  | nil => exact absurd rfl hne
  | cons block rest =>
    cases block with
    | none => simp [validateCandidate, linked]
    | some b =>
      have hrest : (validateCandidate C fl now none [b] rest).1.ok = true ↔
          linkedFrom C now [b].length b rest = true := validateCandidate_iff_linkedFrom rfl
      simp only [linked, Bool.and_eq_true, decide_eq_true_eq]
      rw [← candidateOk_nil_iff, ← List.length_singleton (a := b), ← hrest]
      constructor
      · intro h
        obtain ⟨hc, -, hm, ht, hok, -⟩ := validateCandidate_cons h
        exact ⟨⟨hc, hm, ht⟩, hok⟩
      · rintro ⟨⟨hc, hm, ht⟩, hok⟩
        rw [validateCandidate_round hc hm ht]
        exact hok

/-! ## `add_block` -/

theorem ne_nil_hashHex {C : Crypto} {b : Block} : b.hashHex C ≠ [] :=
  IsDigest.ne_nil ⟨b.serialize, rfl⟩

/-- The rules that only `add_block` has: the clock, and the height before any cast. -/
theorem addBlock_iff_linkedOver (C : Crypto) (fl : FloatOps F) (now : ℕ) (b : Block)
    {chain : List Block} {tip : Block} (hlast : chain.getLast? = some tip) :
    (addBlock C fl now none chain (some b)).1.ok = true ↔
      linkedOver C now chain.length tip b = true ∧ b.timestamp.toNat ≤ now + 120 ∧
        chain.length < 2 ^ 32 := by
  have hheight : b.height.toNat = chain.length ↔
      b.height = UInt32.ofNat chain.length ∧ chain.length < 2 ^ 32 := by
    constructor
    · intro h
      exact ⟨by rw [← h, UInt32.ofNat_toNat], h ▸ b.height.toNat_lt⟩
    · rintro ⟨h, hlt⟩
      rw [h, UInt32.toNat_ofNat_of_lt' hlt]
  have htip : extendsTip C now chain b = true ↔ b.height.toNat = chain.length ∧
      b.prevBlockHash = tip.hashHex C ∧ tip.timestamp ≤ b.timestamp ∧
      b.timestamp.toNat ≤ now + 120 ∧ b.verifyTimeWeightPos = true := by
    rw [extendsTip_iff]
    constructor
    · rintro ⟨t, ht, h1, -, h2, h3, h4, h5⟩
      cases hlast.symm.trans ht
      exact ⟨h1, h2, h3, h4, h5⟩
    · rintro ⟨h1, h2, h3, h4, h5⟩
      exact ⟨tip, hlast, h1, by rw [h2]; exact ne_nil_hashHex, h2, h3, h4, h5⟩
  show (canAddBlock C fl now none chain (some b)).ok = true ↔ _
  rw [canAddBlock_ok_iff, htip, hheight]
  simp only [linkedOver, proposalOk, Bool.decide_and, Bool.decide_eq_true, Bool.and_eq_true,
    decide_eq_true_eq, true_and]
  constructor
  · rintro ⟨⟨⟨h1, hlt⟩, h2, h3, h4, h5⟩, h6⟩
    exact ⟨⟨h1, h2, h3, h5, h6⟩, h4, hlt⟩
  · rintro ⟨⟨h1, h2, h3, h5, h6⟩, h4, hlt⟩
    exact ⟨⟨⟨h1, hlt⟩, h2, h3, h4, h5⟩, h6⟩

/-- **Block by block**: the shared rules, every block dated at most 120 seconds ahead, and heights
that fit 32 bits. -/
theorem addAll_iff_linked {C : Crypto} {fl : FloatOps F} {now : ℕ} {rest : List (Option Block)}
    {chain : List Block} {tip : Block} (hlast : chain.getLast? = some tip)
    (hlen : chain.length ≤ 2 ^ 32) :
    addAll C fl now chain rest = true ↔ linkedFrom C now chain.length tip rest = true ∧
      (∀ b, some b ∈ rest → b.timestamp.toNat ≤ now + 120) ∧
      chain.length + rest.length ≤ 2 ^ 32 := by
  induction rest generalizing chain tip with
  | nil => simpa [addAll, linkedFrom] using hlen
  | cons block rest ih =>
    cases block with
    | none => simp [addAll, linkedFrom, addBlock, canAddBlock]
    | some b =>
      have hstep := addBlock_iff_linkedOver C fl now b hlast
      rw [addAll, linkedFrom, Bool.and_eq_true, Bool.and_eq_true, hstep]
      have hadd : (addBlock C fl now none chain (some b)).1.ok = true →
          (addBlock C fl now none chain (some b)).2 = chain ++ [b] := by
        intro hok
        exact if_pos hok
      have hih : chain.length < 2 ^ 32 → (addAll C fl now (chain ++ [b]) rest = true ↔
          linkedFrom C now (chain.length + 1) b rest = true ∧
            (∀ c, some c ∈ rest → c.timestamp.toNat ≤ now + 120) ∧
            chain.length + 1 + rest.length ≤ 2 ^ 32) := by
        intro hlt
        rw [← List.length_singleton (a := b), ← List.length_append]
        refine ih List.getLast?_concat ?_
        rw [List.length_append, List.length_singleton]
        omega
      simp only [List.mem_cons, Option.some.injEq, forall_eq_or_imp, List.length_cons]
      constructor
      · rintro ⟨⟨hl, ht, hlt⟩, hrest⟩
        rw [hadd (hstep.mpr ⟨hl, ht, hlt⟩), hih hlt] at hrest
        exact ⟨⟨hl, hrest.1⟩, ⟨ht, hrest.2.1⟩, by omega⟩
      · rintro ⟨⟨hl, hrest⟩, ⟨ht, hts⟩, hle⟩
        have hlt : chain.length < 2 ^ 32 := by omega
        rw [hadd (hstep.mpr ⟨hl, ht, hlt⟩), hih hlt]
        exact ⟨⟨hl, ht, hlt⟩, hrest, hts, by omega⟩

theorem eq_genesis_of_serialize {b : Block} (h : b.serialize = genesis.serialize) : b = genesis :=
  Block.serialize_inj_of_short h (by rw [h]; decide +kernel)

theorem adoptable_iff_linked {C : Crypto} {fl : FloatOps F} {now : ℕ}
    {candidate : List (Option Block)} :
    adoptable C fl now candidate = true ↔ linked C now candidate = true ∧
      sameGenesis candidate = true ∧
      (∀ b, some b ∈ candidate.tail → b.timestamp.toNat ≤ now + 120) ∧
      candidate.length ≤ 2 ^ 32 := by
  rcases candidate with - | ⟨- | b, rest⟩
  · simp [adoptable, sameGenesis]
  · simp [adoptable, sameGenesis]
  rw [adoptable, Bool.and_eq_true, List.tail_cons,
    addAll_iff_linked (show [genesis].getLast? = some genesis from rfl) (by simp)]
  simp only [linked, sameGenesis, decide_eq_true_eq, Bool.and_eq_true, List.length_cons,
    List.length_nil]
  constructor
  · rintro ⟨hg, hl, ht, hle⟩
    rw [eq_genesis_of_serialize hg]
    exact ⟨⟨⟨rfl, rfl, rfl⟩, hl⟩, rfl, ht, by omega⟩
  · rintro ⟨⟨-, hl⟩, hg, ht, hle⟩
    rw [eq_genesis_of_serialize hg] at hl ⊢
    exact ⟨rfl, hl, ht, by omega⟩

/-! ## When the two agree -/

/-- **Adoption**: `replace_chain_if_longer` agrees with `add_block` from the genesis block on, for a
longer candidate, exactly when the candidate breaks a shared rule or keeps the three rules that only
`add_block` has. -/
theorem replaceChain_agrees_iff (C : Crypto) (fl : FloatOps F) (now : ℕ) (chain : List Block)
    (candidate : List (Option Block)) (hlong : chain.length < candidate.length) :
    ((replaceChainIfLonger C fl now none chain candidate).1.ok = true ↔
        adoptable C fl now candidate = true) ↔
      (linked C now candidate = true → sameGenesis candidate = true ∧
        (∀ b, some b ∈ candidate.tail → b.timestamp.toNat ≤ now + 120) ∧
        candidate.length ≤ 2 ^ 32) := by
  have hne : candidate ≠ [] := List.ne_nil_of_length_pos (by omega)
  have hguard : ¬ (candidate = [] ∨ candidate.length ≤ chain.length) := by
    rw [not_or]
    exact ⟨hne, by omega⟩
  have hreplace : (replaceChainIfLonger C fl now none chain candidate).1.ok = true ↔
      linked C now candidate = true := by
    rw [replaceChainIfLonger, if_neg hguard]
    exact validateCandidate_iff_linked hne
  rw [hreplace, adoptable_iff_linked]
  constructor
  · intro h hl
    exact (h.mp hl).2
  · intro h
    exact ⟨fun hl => ⟨hl, h hl⟩, fun hl => hl.1⟩

theorem replaceChain_agrees_second :
    (replaceChainIfLonger polyCrypto exactFloat 1700000000 none [genesis]
        [some genesis, some firstBlock, some secondBlock]).1.ok = true ∧
    ((replaceChainIfLonger polyCrypto exactFloat 1700000000 none [genesis]
        [some genesis, some firstBlock, some secondBlock]).1.ok = true ↔
      adoptable polyCrypto exactFloat 1700000000
        [some genesis, some firstBlock, some secondBlock] = true) := by
  refine ⟨by decide +kernel, ?_⟩
  refine (replaceChain_agrees_iff polyCrypto exactFloat 1700000000 [genesis]
    [some genesis, some firstBlock, some secondBlock] (by simp)).mpr ?_
  intro _
  refine ⟨rfl, ?_, by simp⟩
  intro b hb
  simp only [List.tail_cons, List.mem_cons, Option.some.injEq, List.not_mem_nil, or_false] at hb
  rcases hb with rfl | rfl
  · decide
  · decide

/-- A block dated a year ahead of the clock 1640000000. -/
def futureBlock : Block := { firstBlock with timestamp := 1671536000 }

/-- Another first block, dated before the genesis block. -/
def foreignGenesis : Block := { genesis with timestamp := 1 }

/-- A block over it. -/
def foreignBlock : Block := { firstBlock with prevBlockHash := foreignGenesis.hashHex polyCrypto }

/-- `replace_chain_if_longer` adopts a chain with a block from the future and a chain with another
genesis block; block by block neither is adopted. -/
theorem replaceChain_disagrees :
    ((replaceChainIfLonger polyCrypto exactFloat 1640000000 none [genesis]
        [some genesis, some futureBlock]).1.ok = true ∧
      adoptable polyCrypto exactFloat 1640000000 [some genesis, some futureBlock] = false) ∧
    ((replaceChainIfLonger polyCrypto exactFloat 1700000000 none [genesis]
        [some foreignGenesis, some foreignBlock]).1.ok = true ∧
      adoptable polyCrypto exactFloat 1700000000
        [some foreignGenesis, some foreignBlock] = false) := by
  decide +kernel

end Mermai
