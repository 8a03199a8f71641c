import Mermai.Chain.Blockchain

/-!
# Chain.Invariant — the chains that appending and replacing can build

`Grown C chain`: the chain starts with a block of height 0 over the all-zero hash, and every later
block `Follows` the one before it.  Both validators of `mermai_blockchain` keep this invariant
(`addBlock_grown`, `replaceChainIfLonger_grown`), although they re-implement the checks; so it holds
after every run of calls (`runChain_grown`), and what the queries return follows from it.
-/

namespace Mermai

variable {F : Type}

/-! ## The invariant -/

/-- The relation of block number `n` to the block before it. -/
structure Follows (C : Crypto) (n : ℕ) (previous b : Block) : Prop where
  height : b.height = UInt32.ofNat n
  link : b.prevBlockHash = previous.hashHex C
  timestamp : previous.timestamp ≤ b.timestamp
  validator : b.verifyTimeWeightPos = true
  merkle : merkleOk C b = true
  ids : (b.transactions.map Transaction.id).Nodup

/-- The chains that grow from a first block one checked block at a time. -/
inductive Grown (C : Crypto) : List Block → Prop
  | first {b : Block} : b.height = 0 → b.prevBlockHash = zeroHash → Grown C [b]
  | snoc {chain : List Block} {tip b : Block} : Grown C chain → chain.getLast? = some tip →
      Follows C chain.length tip b → Grown C (chain ++ [b])

theorem grown_genesis (C : Crypto) : Grown C [genesis] := .first rfl rfl

theorem Grown.ne_nil {C : Crypto} {chain : List Block} (h : Grown C chain) : chain ≠ [] := by
  cases h <;> simp

theorem getElem?_concat_cases {α : Type} {l : List α} {a x : α} {i : ℕ}
    (h : (l ++ [a])[i]? = some x) : l[i]? = some x ∨ (i = l.length ∧ x = a) := by
  rcases Nat.lt_trichotomy i l.length with hi | hi | hi
  · left
    rwa [List.getElem?_append_left hi] at h
  · right
    subst hi
    simp only [List.getElem?_concat_length, Option.some.injEq] at h
    exact ⟨rfl, h.symm⟩
  · rw [List.getElem?_eq_none (by simp; omega)] at h
    cases h

theorem Grown.head {C : Crypto} {chain : List Block} (h : Grown C chain) {b : Block}
    (hb : chain[0]? = some b) : b.height = 0 ∧ b.prevBlockHash = zeroHash := by
  induction h with
  | first h1 h2 =>
    cases hb
    exact ⟨h1, h2⟩
  | snoc hg _ _ ih =>
    rcases getElem?_concat_cases hb with hb | ⟨hl, -⟩
    · exact ih hb
    · exact absurd (List.length_eq_zero_iff.mp hl.symm) hg.ne_nil

/-- **Links**: two neighbours of a grown chain. -/
theorem Grown.follows {C : Crypto} {chain : List Block} (h : Grown C chain) {i : ℕ}
    {previous b : Block} (hp : chain[i]? = some previous) (hb : chain[i + 1]? = some b) :
    Follows C (i + 1) previous b := by
  induction h with
  | first =>
    rw [List.getElem?_eq_none (by simp)] at hb
    cases hb
  | @snoc chain tip c hg hlast hf ih =>
    rcases getElem?_concat_cases hb with hb | ⟨hl, rfl⟩
    · have hi := (List.getElem?_eq_some_iff.mp hb).1
      rw [List.getElem?_append_left (by omega)] at hp
      exact ih hp hb
    · rw [List.getElem?_append_left (by omega)] at hp
      have htip : tip = previous := by
        rw [List.getLast?_eq_getElem?, ← hl, Nat.add_sub_cancel, hp] at hlast
        exact (Option.some.inj hlast).symm
      rw [hl, ← htip]
      exact hf

theorem Grown.height {C : Crypto} {chain : List Block} (h : Grown C chain) {i : ℕ} {b : Block}
    (hb : chain[i]? = some b) : b.height = UInt32.ofNat i := by
  cases i with
  | zero => exact (h.head hb).1
  | succ i =>
    have hi := (List.getElem?_eq_some_iff.mp hb).1
    exact (h.follows (List.getElem?_eq_getElem (by omega)) hb).height

/-! ## Both validators keep it -/

theorem addBlock_grown {C : Crypto} {fl : FloatOps F} {now : ℕ} {eng : Option Engine}
    {chain : List Block} {block : Option Block} (h : Grown C chain) :
    Grown C (addBlock C fl now eng chain block).2 := by
  unfold addBlock
  cases block with
  | none => simpa [canAddBlock] using h
  | some b =>
    by_cases hok : (canAddBlock C fl now eng chain (some b)).ok = true
    · obtain ⟨ht, -, hb⟩ := canAddBlock_ok_iff.mp hok
      obtain ⟨tip, hlast, hheight, -, hlink, htime, -, hval⟩ := extendsTip_iff.mp ht
      obtain ⟨-, hmerkle, -, hids⟩ := bodyOk_iff.mp hb
      simp only [hok, if_true]
      refine .snoc h hlast ⟨?_, hlink, htime, hval, hmerkle, hids⟩
      rw [← hheight, UInt32.ofNat_toNat]
    · simpa [hok] using h

theorem candidateOk_iff {C : Crypto} {validated : List Block} {b : Block} :
    candidateOk C validated b = true ↔ b.height = UInt32.ofNat validated.length ∧
      followsValidated C validated b = true ∧
      (validated = [] ∨ b.verifyTimeWeightPos = true) ∧
      b.transactions.length ≤ maxBlockTransactions := by
  simp [candidateOk]

/-- One round of the loop of `replace_chain_if_longer`. -/
theorem grown_candidate {C : Crypto} {now : ℕ} {validated : List Block} {b : Block}
    (h : validated = [] ∨ Grown C validated) (hc : candidateOk C validated b = true)
    (hm : merkleOk C b = true) (ht : transactionsOk C now b.transactions = true) :
    Grown C (validated ++ [b]) := by
  obtain ⟨hheight, hf, hval, -⟩ := candidateOk_iff.mp hc
  unfold followsValidated at hf
  rcases h with rfl | h
  · simp only [List.getLast?_nil, Bool.decide_and, Bool.and_eq_true, decide_eq_true_eq] at hf
    exact .first hf.1 hf.2
  · cases hlast : validated.getLast? with
    | none => exact absurd (List.getLast?_eq_none_iff.mp hlast) h.ne_nil
    | some tip =>
      rw [hlast] at hf
      simp only [Bool.decide_and, Bool.and_eq_true, decide_eq_true_eq, UInt64.not_lt] at hf
      have hids : (b.transactions.map Transaction.id).Nodup := by
        simp only [transactionsOk, Bool.decide_and, Bool.and_eq_true, decide_eq_true_eq] at ht
        exact ht.2
      exact .snoc h hlast ⟨hheight, hf.1, hf.2, hval.resolve_left h.ne_nil, hm, hids⟩

/-- A candidate that passes: its first block passed, and the loop went on with the rest. -/
theorem validateCandidate_cons {C : Crypto} {fl : FloatOps F} {now : ℕ} {eng : Option Engine}
    {validated : List Block} {b : Block} {rest : List (Option Block)}
    (hok : (validateCandidate C fl now eng validated (some b :: rest)).1.ok = true) :
    let p := candidateProposal C fl eng validated b
    candidateOk C validated b = true ∧ p.ok = true ∧ merkleOk C b = true ∧
      transactionsOk C now b.transactions = true ∧
      (validateCandidate C fl now p.engine (validated ++ [b]) rest).1.ok = true ∧
      (validateCandidate C fl now eng validated (some b :: rest)).2 =
        (validateCandidate C fl now p.engine (validated ++ [b]) rest).2 := by
  intro p
  by_cases hc : candidateOk C validated b = true
  · by_cases hb : (p.ok && merkleOk C b && transactionsOk C now b.transactions) = true
    · have heq : validateCandidate C fl now eng validated (some b :: rest) =
          let r := validateCandidate C fl now p.engine (validated ++ [b]) rest
          ({ r.1 with calls := p.calls ++ r.1.calls }, r.2) := by
        rw [validateCandidate, if_pos hc, if_pos hb]
      rw [heq] at hok ⊢
      simp only [Bool.and_eq_true] at hb
      exact ⟨hc, hb.1.1, hb.1.2, hb.2, hok, rfl⟩
    · rw [validateCandidate, if_pos hc, if_neg hb] at hok
      cases hok
  · rw [validateCandidate, if_neg hc] at hok
    cases hok

theorem validateCandidate_grown {C : Crypto} {fl : FloatOps F} {now : ℕ} {eng : Option Engine}
    {validated : List Block} {candidate : List (Option Block)} (hne : candidate ≠ [])
    (h : validated = [] ∨ Grown C validated)
    (hok : (validateCandidate C fl now eng validated candidate).1.ok = true) :
    Grown C (validateCandidate C fl now eng validated candidate).2 := by
  induction candidate generalizing eng validated with
  | nil => exact absurd rfl hne
  | cons block rest ih =>
    cases block with
    | none => cases hok
    | some b =>
      obtain ⟨hc, -, hm, ht, hok', heq⟩ := validateCandidate_cons hok
      have hg := grown_candidate h hc hm ht
      rw [heq]
      cases rest with
      | nil => exact hg
      | cons c rest => exact ih (by simp) (.inr hg) hok'

theorem replaceChainIfLonger_grown {C : Crypto} {fl : FloatOps F} {now : ℕ} {eng : Option Engine}
    {chain : List Block} {candidate : List (Option Block)} (h : Grown C chain) :
    Grown C (replaceChainIfLonger C fl now eng chain candidate).2 := by
  unfold replaceChainIfLonger
  split_ifs with hlen
  · exact h
  · rw [not_or] at hlen
    by_cases hok : (validateCandidate C fl now eng [] candidate).1.ok = true
    · simp only [hok, if_true]
      exact validateCandidate_grown hlen.1 (.inl rfl) hok
    · simpa [hok] using h

/-! ## Runs -/

/-- A call on the chain.  The engine is shared with other threads: every call finds its own. -/
inductive ChainOp
  | add (now : ℕ) (eng : Option Engine) (block : Option Block)
  | replace (now : ℕ) (eng : Option Engine) (candidate : List (Option Block))

/-- The chain after one call. -/
def ChainOp.apply (C : Crypto) (fl : FloatOps F) (chain : List Block) : ChainOp → List Block
  | .add now eng block => (addBlock C fl now eng chain block).2
  | .replace now eng candidate => (replaceChainIfLonger C fl now eng chain candidate).2

/-- The chain after the constructor and a list of calls. -/
def runChain (C : Crypto) (fl : FloatOps F) (ops : List ChainOp) : List Block :=
  ops.foldl (ChainOp.apply C fl) [genesis]

theorem ChainOp.apply_grown {C : Crypto} {fl : FloatOps F} {chain : List Block} (op : ChainOp)
    (h : Grown C chain) : Grown C (op.apply C fl chain) := by
  cases op with
  | add now eng block => exact addBlock_grown h
  | replace now eng candidate => exact replaceChainIfLonger_grown h

theorem runChain_grown (C : Crypto) (fl : FloatOps F) (ops : List ChainOp) :
    Grown C (runChain C fl ops) := by
  have key : ∀ chain, Grown C chain → Grown C (ops.foldl (ChainOp.apply C fl) chain) := by
    induction ops with
    | nil => exact fun _ h => h
    | cons op ops ih => exact fun chain h => ih _ (op.apply_grown h)
  exact key _ (grown_genesis C)

/-! ## What the invariant says -/

/-- The root matches the transactions, and is empty exactly when there are none. -/
theorem merkleOk_iff {C : Crypto} {b : Block} : merkleOk C b = true ↔
    (b.transactions ≠ [] → b.merkleRoot = calculateTreeHash C b.transactions) ∧
      (b.merkleRoot = [] ↔ b.transactions = []) := by
  simp only [merkleOk, decide_eq_true_eq, not_or, not_and, not_not]
  refine and_congr_right fun h => ⟨fun h' => ⟨?_, h'⟩, fun h' => h'.mpr⟩
  intro hr
  by_contra hne
  exact (calculateTreeHash_digest hne).ne_nil (h hne ▸ hr)

/-- What the chain of a node looks like. -/
structure WellFormedChain (C : Crypto) (chain : List Block) : Prop where
  nonempty : chain ≠ []
  heights : ∀ (i : ℕ) (b : Block), chain[i]? = some b → b.height.toNat = i
  first : ∀ b : Block, chain[0]? = some b → b.prevBlockHash = zeroHash
  links : ∀ (i : ℕ) (p b : Block), chain[i]? = some p → chain[i + 1]? = some b →
    b.prevBlockHash = p.hashHex C ∧ p.timestamp ≤ b.timestamp
  validators : ∀ (i : ℕ) (b : Block), chain[i + 1]? = some b →
    b.validatorAddress ≠ [] ∧ 0 < b.validatorStake
  merkle : ∀ (i : ℕ) (b : Block), chain[i + 1]? = some b →
    (b.transactions ≠ [] → b.merkleRoot = calculateTreeHash C b.transactions) ∧
      (b.merkleRoot = [] ↔ b.transactions = [])
  ids : ∀ (i : ℕ) (b : Block), chain[i + 1]? = some b →
    (b.transactions.map Transaction.id).Nodup

theorem Grown.wellFormed {C : Crypto} {chain : List Block} (h : Grown C chain)
    (hlen : chain.length < 2 ^ 32) : WellFormedChain C chain := by
  have hprev : ∀ {i : ℕ} {b : Block}, chain[i + 1]? = some b →
      ∃ p, Follows C (i + 1) p b := by
    intro i b hb
    have hi := (List.getElem?_eq_some_iff.mp hb).1
    exact ⟨_, h.follows (List.getElem?_eq_getElem (by omega)) hb⟩
  refine ⟨h.ne_nil, fun i b hb => ?_, fun b hb => (h.head hb).2, fun i p b hp hb => ?_,
    fun i b hb => ?_, fun i b hb => ?_, fun i b hb => ?_⟩
  · have hi := (List.getElem?_eq_some_iff.mp hb).1
    rw [h.height hb, UInt32.toNat_ofNat_of_lt' (by simp only [UInt32.size]; omega)]
  · have hf := h.follows hp hb
    exact ⟨hf.link, hf.timestamp⟩
  · obtain ⟨p, hf⟩ := hprev hb
    simpa [Block.verifyTimeWeightPos] using hf.validator
  · obtain ⟨p, hf⟩ := hprev hb
    exact merkleOk_iff.mp hf.merkle
  · obtain ⟨p, hf⟩ := hprev hb
    exact hf.ids

theorem Grown.isChainValid {C : Crypto} {chain : List Block} (h : Grown C chain) :
    isChainValid C chain = true := by
  unfold Mermai.isChainValid
  rw [List.all_eq_true]
  rintro ⟨p, b⟩ hmem
  obtain ⟨i, hi⟩ := List.getElem?_of_mem hmem
  rw [List.getElem?_zip_eq_some, List.getElem?_tail] at hi
  have hf : Follows C (i + 1) p b := h.follows hi.1 hi.2
  simp [hf.link, hf.validator]

theorem getHeight_succ {chain : List Block} (hne : chain ≠ []) (hlen : chain.length ≤ 2 ^ 32) :
    (getHeight chain).toNat + 1 = chain.length := by
  have := List.length_pos_iff.mpr hne
  rw [getHeight, if_neg hne, UInt32.toNat_ofNat_of_lt' (by simp only [UInt32.size]; omega)]
  omega

/-- **Chain invariant**: every chain a run of calls can build is well-formed, and the queries agree
with it. -/
theorem runChain_wellFormed (C : Crypto) (fl : FloatOps F) (ops : List ChainOp)
    (hlen : (runChain C fl ops).length < 2 ^ 32) :
    WellFormedChain C (runChain C fl ops) ∧ isChainValid C (runChain C fl ops) = true ∧
      (getHeight (runChain C fl ops)).toNat + 1 = (runChain C fl ops).length ∧
      ∀ h ≤ getHeight (runChain C fl ops), ∃ b, getBlock (runChain C fl ops) h = some b ∧
        b.height = h := by
  have hg := runChain_grown C fl ops
  have hheight := getHeight_succ hg.ne_nil hlen.le
  refine ⟨hg.wellFormed hlen, hg.isChainValid, hheight, ?_⟩
  intro h hle
  have hlt : h.toNat < (runChain C fl ops).length := by
    have := UInt32.le_iff_toNat_le.mp hle
    omega
  have hb := List.getElem?_eq_getElem hlt
  refine ⟨_, hb, ?_⟩
  rw [hg.height hb, UInt32.ofNat_toNat]

/-- A run that appends a block, is refused the same block again, and adopts a longer chain. -/
def sampleOps : List ChainOp :=
  [.add 1700000000 none (some firstBlock), .add 1700000000 none (some firstBlock),
    .replace 1700000000 none [some genesis, some firstBlock, some secondBlock]]

theorem runChain_wellFormed_sample :
    (runChain polyCrypto exactFloat sampleOps).length = 3 ∧
      WellFormedChain polyCrypto (runChain polyCrypto exactFloat sampleOps) := by
  have hlen : (runChain polyCrypto exactFloat sampleOps).length = 3 := by decide +kernel
  exact ⟨hlen, (runChain_wellFormed polyCrypto exactFloat sampleOps (by omega)).1⟩

end Mermai
