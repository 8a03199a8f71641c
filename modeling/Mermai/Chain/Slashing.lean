import Mermai.Chain.Blockchain

/-!
# Chain.Slashing — what a slashed validator has done

Every call of `validate_proposal`, directly or from the chain, goes through one table, and a call
that finds another block under its height and slot slashes the proposer.  `SlashingSound` says what
a slashing should be evidence of: two signed, conflicting blocks of the validator.  The code looks at
the table before it looks at the signature, so a forged block can stand in for one of the two.

* `CallRun` — a sequence of calls, each finding the engine the one before it left;
* `Traced` — the invariant: every entry of the table is the hash of a block that was presented under
  its key and named the proposer;
* `CleanLog` — the runs without forged or re-signed blocks and with one proposer for each height and
  slot: in these slashing is sound.
-/

namespace Mermai

variable {F : Type}

/-! ## Runs of calls -/

/-- The block of the call names the proposer of its slot: the call reaches the table. -/
def ProposalCall.Eligible (C : Crypto) (fl : FloatOps F) (c : ProposalCall) : Prop :=
  namesProposer C fl c.before.activeValidators c.block (slotTime c.time) = true

instance (C : Crypto) (fl : FloatOps F) (c : ProposalCall) : Decidable (c.Eligible C fl) :=
  inferInstanceAs (Decidable (_ = true))

/-- The calls form a run from the first engine to the second. -/
inductive CallRun (C : Crypto) (fl : FloatOps F) : Engine → List ProposalCall → Engine → Prop
  | nil (e : Engine) : CallRun C fl e [] e
  | cons {c : ProposalCall} {cs : List ProposalCall} {e' : Engine} :
      CallRun C fl (c.after C fl) cs e' → CallRun C fl c.before (c :: cs) e'

theorem CallRun.append {C : Crypto} {fl : FloatOps F} {e e' e'' : Engine}
    {cs cs' : List ProposalCall} (h : CallRun C fl e cs e') (h' : CallRun C fl e' cs' e'') :
    CallRun C fl e (cs ++ cs') e'' := by
  induction h with
  | nil => exact h'
  | cons _ ih => exact .cons (ih h')

/-! ## The routes to `validate_proposal` -/

/-- A call that may validate proposals. -/
inductive ProposalOp
  | validate (block : Option Block) (currentTime : UInt64)
  | canAdd (now : ℕ) (block : Option Block)
  | add (now : ℕ) (block : Option Block)
  | replace (now : ℕ) (candidate : List (Option Block))

/-- The chain and engine after an operation, and the calls it made. -/
def ProposalOp.step (C : Crypto) (fl : FloatOps F) (chain : List Block) (e : Engine) :
    ProposalOp → List Block × Engine × List ProposalCall
  | .validate none _ => (chain, e, [])
  | .validate (some b) t => (chain, (validateProposal C fl e b t).2, [⟨e, b, t⟩])
  | .canAdd now block =>
    let r := canAddBlock C fl now (some e) chain block
    (chain, r.engine.getD e, r.calls)
  | .add now block =>
    let r := addBlock C fl now (some e) chain block
    (r.2, r.1.engine.getD e, r.1.calls)
  | .replace now candidate =>
    let r := replaceChainIfLonger C fl now (some e) chain candidate
    (r.2, r.1.engine.getD e, r.1.calls)

/-- All calls of a run, in order. -/
def proposalLog (C : Crypto) (fl : FloatOps F) :
    List Block → Engine → List ProposalOp → List ProposalCall
  | _, _, [] => []
  | chain, e, op :: ops =>
    let s := op.step C fl chain e
    s.2.2 ++ proposalLog C fl s.1 s.2.1 ops

/-- A check that was handed the engine `e` made a run of calls from it. -/
def Checked.RunsFrom (C : Crypto) (fl : FloatOps F) (e : Engine) (r : Checked) : Prop :=
  ∃ e', r.engine = some e' ∧ CallRun C fl e r.calls e'

theorem runsFrom_silent (C : Crypto) (fl : FloatOps F) (e : Engine) (ok : Bool) :
    Checked.RunsFrom C fl e ⟨ok, some e, []⟩ := ⟨e, rfl, .nil e⟩

theorem proposalOk_runsFrom (C : Crypto) (fl : FloatOps F) (e : Engine) (b : Block) :
    (proposalOk C fl (some e) b).RunsFrom C fl e :=
  ⟨_, rfl, CallRun.cons (c := ⟨e, b, b.timestamp⟩) (.nil _)⟩

theorem canAddBlock_runsFrom (C : Crypto) (fl : FloatOps F) (now : ℕ) (e : Engine)
    (chain : List Block) (block : Option Block) :
    (canAddBlock C fl now (some e) chain block).RunsFrom C fl e := by
  cases block with
  | none => exact runsFrom_silent C fl e false
  | some b =>
    unfold canAddBlock
    by_cases h : extendsTip C now chain b = true
    · simp only [h, if_true]
      exact proposalOk_runsFrom C fl e b
    · simp only [h]
      exact runsFrom_silent C fl e false

theorem validateCandidate_runsFrom (C : Crypto) (fl : FloatOps F) (now : ℕ) (e : Engine)
    (validated : List Block) (candidate : List (Option Block)) :
    (validateCandidate C fl now (some e) validated candidate).1.RunsFrom C fl e := by
  induction candidate generalizing e validated with
  | nil => exact runsFrom_silent C fl e true
  | cons block rest ih =>
    cases block with
    | none => exact runsFrom_silent C fl e false
    | some b =>
      rw [validateCandidate]
      by_cases hc : candidateOk C validated b = true
      · have hp : (candidateProposal C fl (some e) validated b).RunsFrom C fl e := by
          unfold candidateProposal
          split_ifs
          · exact runsFrom_silent C fl e true
          · exact proposalOk_runsFrom C fl e b
        rw [if_pos hc]
        obtain ⟨e', he', hrun⟩ := hp
        dsimp only
        split_ifs
        · obtain ⟨e'', he'', hrun'⟩ := ih e' (validated ++ [b])
          rw [he']
          exact ⟨e'', he'', hrun.append hrun'⟩
        · exact ⟨e', he', hrun⟩
      · rw [if_neg hc]
        exact runsFrom_silent C fl e false

theorem ProposalOp.step_run (C : Crypto) (fl : FloatOps F) (chain : List Block) (e : Engine)
    (op : ProposalOp) :
    CallRun C fl e (op.step C fl chain e).2.2 (op.step C fl chain e).2.1 := by
  have key : ∀ r : Checked, r.RunsFrom C fl e → CallRun C fl e r.calls (r.engine.getD e) := by
    rintro r ⟨e', he', hrun⟩
    rw [he']
    exact hrun
  cases op with
  | validate block t =>
    cases block with
    | none => exact .nil e
    | some b => exact CallRun.cons (c := ⟨e, b, t⟩) (.nil _)
  | canAdd now block => exact key _ (canAddBlock_runsFrom C fl now e chain block)
  | add now block => exact key _ (canAddBlock_runsFrom C fl now e chain block)
  | replace now candidate =>
    refine key _ ?_
    unfold replaceChainIfLonger
    split_ifs
    · exact runsFrom_silent C fl e false
    · exact validateCandidate_runsFrom C fl now e [] candidate

theorem proposalLog_run (C : Crypto) (fl : FloatOps F) (chain : List Block) (e : Engine)
    (ops : List ProposalOp) : ∃ e', CallRun C fl e (proposalLog C fl chain e ops) e' := by
  induction ops generalizing chain e with
  | nil => exact ⟨e, .nil e⟩
  | cons op ops ih =>
    obtain ⟨e', h⟩ := ih (op.step C fl chain e).1 (op.step C fl chain e).2.1
    exact ⟨e', (op.step_run C fl chain e).append h⟩

/-! ## The table -/

/-- **Invariant**: every entry of the table comes from an eligible call made so far, and the
registered keys are those of the start. -/
structure Traced (C : Crypto) (fl : FloatOps F) (vs : List ValidatorStake)
    (done : List ProposalCall) (e : Engine) : Prop where
  table : ∀ k h, e.seenProposals k = some h →
    ∃ c ∈ done, c.key = k ∧ c.Eligible C fl ∧ c.block.hashHex C = h
  keys : ∀ a, registeredKey e.activeValidators a = registeredKey vs a

theorem Traced.call {C : Crypto} {fl : FloatOps F} {vs : List ValidatorStake}
    {done : List ProposalCall} {c : ProposalCall} (h : Traced C fl vs done c.before) :
    Traced C fl vs (done ++ [c]) (c.after C fl) := by
  have hold : ∀ k t, c.before.seenProposals k = some t →
      ∃ c' ∈ done ++ [c], c'.key = k ∧ c'.Eligible C fl ∧ c'.block.hashHex C = t := by
    intro k t hk
    obtain ⟨c', hc', h'⟩ := h.table k t hk
    exact ⟨c', List.mem_append_left _ hc', h'⟩
  unfold ProposalCall.after
  rcases validateProposal_cases C fl c.before c.block c.time with
    ⟨-, hv⟩ | ⟨hn, ⟨_, -, -, hv⟩ | ⟨-, hv⟩ | ⟨-, hv⟩⟩
  · rw [hv]
    exact ⟨hold, h.keys⟩
  · rw [hv]
    refine ⟨hold, ?_⟩
    intro a
    rw [← h.keys a]
    exact registeredKey_slash fl _ _ _ a
  · rw [hv]
    exact ⟨hold, h.keys⟩
  · rw [hv]
    refine ⟨?_, h.keys⟩
    intro k t hk
    by_cases hkey : k = c.key
    · subst hkey
      have ht : c.block.hashHex C = t := by
        simpa [Engine.record, ProposalCall.key] using hk
      exact ⟨c, by simp, rfl, hn, ht⟩
    · have hk' : Function.update c.before.seenProposals c.key (some (c.block.hashHex C)) k =
          some t := hk
      rw [Function.update_of_ne hkey] at hk'
      exact hold k t hk'

/-- The invariant holds before every call of a run. -/
theorem CallRun.traced {C : Crypto} {fl : FloatOps F} {vs : List ValidatorStake} {e e' : Engine}
    {cs done : List ProposalCall} (hrun : CallRun C fl e cs e') (h : Traced C fl vs done e) {i : ℕ}
    {c : ProposalCall} (hc : cs[i]? = some c) : Traced C fl vs (done ++ cs.take i) c.before := by
  induction hrun generalizing done i with
  | nil => cases hc
  | @cons d cs e' hrun ih =>
    cases i with
    | zero =>
      cases hc
      simpa using h
    | succ i =>
      have := ih h.call hc
      rwa [List.append_assoc] at this

/-! ## Soundness of slashing -/

/-- Two calls presented conflicting blocks of validator `v` for one height and slot, both with a
signature valid under `publicKey`. -/
def Conflict (C : Crypto) (key : UInt32 × UInt64) (v publicKey : Bytes) (c₁ c₂ : ProposalCall) :
    Prop :=
  (c₁.key = key ∧ c₂.key = key) ∧
  (c₁.block.validatorAddress = v ∧ c₂.block.validatorAddress = v) ∧
  c₁.block.signingPayload ≠ c₂.block.signingPayload ∧
  (signatureValid C c₁.block publicKey = true ∧ signatureValid C c₂.block publicKey = true)

/-- Whenever a call slashes a validator with a registered key, two conflicting blocks signed under
that key have been presented. -/
def SlashingSound (C : Crypto) (fl : FloatOps F) (log : List ProposalCall) : Prop :=
  ∀ (i : ℕ) (c : ProposalCall), log[i]? = some c → ∀ v publicKey,
    (validateProposal C fl c.before c.block c.time).1 = .slashed v →
    registeredKey c.before.activeValidators v = some publicKey → publicKey ≠ [] →
    ∃ c₁ ∈ log.take (i + 1), ∃ c₂ ∈ log.take (i + 1), Conflict C c.key v publicKey c₁ c₂

/-- A call that cannot mislead the table: a block that names a proposer with a registered key is
signed under it, names the validator that the earlier blocks of its height and slot name, and is
not one of these with another signature. -/
def CleanCall (C : Crypto) (fl : FloatOps F) (earlier : List ProposalCall) (c : ProposalCall) :
    Prop :=
  c.Eligible C fl →
    ∀ publicKey ∈ registeredKey c.before.activeValidators c.block.validatorAddress,
      publicKey ≠ [] →
      signatureValid C c.block publicKey = true ∧
      ∀ c' ∈ earlier, c'.Eligible C fl → c'.key = c.key →
        c'.block.validatorAddress = c.block.validatorAddress ∧
        (c'.block.signingPayload = c.block.signingPayload →
          c'.block.serialize = c.block.serialize)

instance (C : Crypto) (fl : FloatOps F) (earlier : List ProposalCall) (c : ProposalCall) :
    Decidable (CleanCall C fl earlier c) :=
  inferInstanceAs (Decidable (c.Eligible C fl →
    ∀ publicKey ∈ registeredKey c.before.activeValidators c.block.validatorAddress, _))

/-- Every call of the run is clean. -/
def CleanLog (C : Crypto) (fl : FloatOps F) (log : List ProposalCall) : Prop :=
  ∀ (i : ℕ) (c : ProposalCall), log[i]? = some c → CleanCall C fl (log.take i) c

/-- A slashing call found another block in the table. -/
theorem validateProposal_slashed {C : Crypto} {fl : FloatOps F} {e : Engine} {b : Block}
    {t : UInt64} {v : Bytes} (h : (validateProposal C fl e b t).1 = .slashed v) :
    v = b.validatorAddress ∧ namesProposer C fl e.activeValidators b (slotTime t) = true ∧
      ∃ hash, e.seenProposals (b.height, slotTime t) = some hash ∧ hash ≠ b.hashHex C := by
  have hauth : ∀ vs slot, authorization C fl vs b slot ≠ .slashed v := by
    intro vs slot
    unfold authorization
    split_ifs <;> simp
  rcases validateProposal_cases C fl e b t with
    ⟨-, hv⟩ | ⟨hn, ⟨hash, hs, hne, hv⟩ | ⟨-, hv⟩ | ⟨-, hv⟩⟩
  · rw [hv] at h
    cases h
  · rw [hv] at h
    cases h
    exact ⟨rfl, hn, hash, hs, hne⟩
  · rw [hv] at h
    exact absurd h (hauth _ _)
  · rw [hv] at h
    exact absurd h (hauth _ _)

theorem CallRun.slashingSound {C : Crypto} {fl : FloatOps F} {vs : List ValidatorStake}
    {e' : Engine} {log : List ProposalCall} (hrun : CallRun C fl ⟨vs, fun _ => none⟩ log e')
    (hclean : CleanLog C fl log) : SlashingSound C fl log := by
  intro i c hc v publicKey hslash hreg hne
  have htr : ∀ {j : ℕ} {d : ProposalCall}, log[j]? = some d →
      Traced C fl vs (log.take j) d.before := by
    intro j d hd
    have h0 : Traced C fl vs [] ⟨vs, fun _ => none⟩ :=
      ⟨fun _ _ hk => (nomatch hk), fun _ => rfl⟩
    simpa using hrun.traced h0 hd
  obtain ⟨rfl, hel, hash, htab, hhash⟩ := validateProposal_slashed hslash
  -- the entry of the table is the block of an earlier call `d`
  obtain ⟨d, hd, hdk, hdel, rfl⟩ := (htr hc).table _ _ htab
  obtain ⟨hsig, hearlier⟩ := hclean i c hc hel publicKey hreg hne
  obtain ⟨haddr, hpayload⟩ := hearlier d hd hdel hdk
  obtain ⟨j, hj⟩ := List.getElem?_of_mem hd
  have hji : j < i := by
    have := (List.getElem?_eq_some_iff.mp hj).1
    rw [List.length_take] at this
    omega
  rw [List.getElem?_take_of_lt hji] at hj
  have hdreg : registeredKey d.before.activeValidators d.block.validatorAddress =
      some publicKey := by
    rw [(htr hj).keys, haddr, ← (htr hc).keys, hreg]
  obtain ⟨hdsig, -⟩ := hclean j d hj hdel publicKey hdreg hne
  have hdiff : d.block.signingPayload ≠ c.block.signingPayload := by
    intro heq
    apply hhash
    rw [Block.hashHex, Block.hashHex, Block.calculateHash, Block.calculateHash, hpayload heq]
  have hcmem : c ∈ log.take (i + 1) := by
    refine List.mem_of_getElem? (i := i) ?_
    rw [List.getElem?_take_of_lt (by omega), hc]
  have hdmem : d ∈ log.take (i + 1) := by
    refine List.mem_of_getElem? (i := j) ?_
    rw [List.getElem?_take_of_lt (by omega), hj]
  exact ⟨d, hdmem, c, hcmem, ⟨hdk, rfl⟩, ⟨haddr, rfl⟩, hdiff, hdsig, hsig⟩

/-- **Slashing is sound on clean runs**: from any chain and any validators, with the empty table of
a new process, whatever the route the blocks take. -/
theorem slashingSound_of_clean (C : Crypto) (fl : FloatOps F) (chain : List Block)
    (vs : List ValidatorStake) (ops : List ProposalOp)
    (hclean : CleanLog C fl (proposalLog C fl chain ⟨vs, fun _ => none⟩ ops)) :
    SlashingSound C fl (proposalLog C fl chain ⟨vs, fun _ => none⟩ ops) := by
  obtain ⟨e', hrun⟩ := proposalLog_run C fl chain ⟨vs, fun _ => none⟩ ops
  exact hrun.slashingSound hclean

/-! ## Two runs -/

/-- One validator with a registered key. -/
def keyedValidator : ValidatorStake := ⟨[118], 1000000, 1639999990, 0, [7]⟩

/-- The block of the validator for height 1, signed. -/
def honestBlock : Block := polySign [7] { firstBlock with validatorAge := 20 }

/-- Another block of the validator for the same height and slot, signed. -/
def secondHonestBlock : Block := polySign [7] { firstBlock with validatorAge := 20, nonce := 1 }

/-- The log of `can_add_block` on two blocks, one after the other. -/
def twoProposals (b b' : Block) : List ProposalCall :=
  proposalLog polyCrypto exactFloat [genesis] ⟨[keyedValidator], fun _ => none⟩
    [.canAdd 1700000000 (some b), .canAdd 1700000000 (some b')]

theorem slashingSound_of_clean_conflict :
    CleanLog polyCrypto exactFloat (twoProposals honestBlock secondHonestBlock) ∧
      (∃ c ∈ (twoProposals honestBlock secondHonestBlock)[1]?,
        (validateProposal polyCrypto exactFloat c.before c.block c.time).1 = .slashed [118]) ∧
      SlashingSound polyCrypto exactFloat (twoProposals honestBlock secondHonestBlock) := by
  have hclean : CleanLog polyCrypto exactFloat (twoProposals honestBlock secondHonestBlock) := by
    have hlen : (twoProposals honestBlock secondHonestBlock).length = 2 := by decide +kernel
    have key : ∀ i < 2, ∀ c ∈ (twoProposals honestBlock secondHonestBlock)[i]?,
        CleanCall polyCrypto exactFloat
          ((twoProposals honestBlock secondHonestBlock).take i) c := by decide +kernel
    intro i c hc
    have := (List.getElem?_eq_some_iff.mp hc).1
    exact key i (by omega) c hc
  refine ⟨hclean, by decide +kernel, ?_⟩
  exact slashingSound_of_clean polyCrypto exactFloat [genesis] [keyedValidator] _ hclean

/-- **A forged block**: `firstBlock` names the validator and carries no signature.  Shown to
`can_add_block` it is refused and fills the table; the validator's one signed block then slashes
it. -/
theorem not_slashingSound_forged :
    ¬ SlashingSound polyCrypto exactFloat (twoProposals firstBlock honestBlock) := by
  intro h
  have hblocks : (twoProposals firstBlock honestBlock).map ProposalCall.block =
      [firstBlock, honestBlock] := by decide +kernel
  have hslash : ∃ c ∈ (twoProposals firstBlock honestBlock)[1]?,
      (validateProposal polyCrypto exactFloat c.before c.block c.time).1 = .slashed [118] ∧
      registeredKey c.before.activeValidators [118] = some [7] := by decide +kernel
  obtain ⟨c, hc, hv, hreg⟩ := hslash
  obtain ⟨c₁, h1, c₂, h2, -, -, hne, hs1, hs2⟩ := h 1 c hc [118] [7] hv hreg (by decide)
  have hsigned : ∀ d ∈ (twoProposals firstBlock honestBlock).take 2,
      signatureValid polyCrypto d.block [7] = true → d.block = honestBlock := by
    intro d hd hs
    have hmem := List.mem_map_of_mem (f := ProposalCall.block) (List.mem_of_mem_take hd)
    rw [hblocks] at hmem
    rcases List.mem_cons.mp hmem with heq | hmem
    · rw [heq] at hs
      exact absurd hs (by decide +kernel)
    · exact List.mem_singleton.mp hmem
  exact hne (by rw [hsigned c₁ h1 hs1, hsigned c₂ h2 hs2])

end Mermai
