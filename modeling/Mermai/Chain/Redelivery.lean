import Mermai.Chain.Slashing

/-!
# Chain.Redelivery — presenting a block again

Gossip, synchronization and the query `can_add_block` show the same block to `validate_proposal` many
times.  The table `seen_proposals` remembers the first hash of a height and slot, and nothing of the
blocks that conflicted with it: a conflicting block halves the stake of the proposer each time it is
delivered.  `redelivery_harmless_iff` says which deliveries are harmless.

Halving is a float operation; of the float arithmetic the result needs that a halved stake is the
stake itself only when it is 0 (`FloatOps.Halves`).
-/

namespace Mermai

variable {F : Type}

/-! ## Runs of deliveries -/

/-- The engine after one call of `validate_proposal` on a block at a time. -/
def present (C : Crypto) (fl : FloatOps F) (e : Engine) (p : Block × UInt64) : Engine :=
  (validateProposal C fl e p.1 p.2).2

/-- The engine after a run of calls. -/
def presentAll (C : Crypto) (fl : FloatOps F) (e : Engine) (ps : List (Block × UInt64)) : Engine :=
  ps.foldl (present C fl) e

/-- The stakes of the validators, in the order of the engine. -/
def Engine.stakes (e : Engine) : List (Bytes × UInt64) :=
  e.activeValidators.map fun v => (v.address, v.amount)

/-! ## Halving -/

/-- The amount `slash_validator` leaves for the penalty of a double proposal. -/
def FloatOps.halved (fl : FloatOps F) (amount : UInt64) : UInt64 :=
  fl.toUInt64 (fl.mul (fl.ofUInt64 amount) (fl.sub (fl.lit 1 0)
    (fl.min (fl.lit 1 0) (fl.max (fl.lit 0 0) (fl.lit 5 1)))))

/-- Halving changes every amount but 0. -/
def FloatOps.Halves (fl : FloatOps F) : Prop := ∀ amount, fl.halved amount = amount ↔ amount = 0

theorem exactFloat_halves : exactFloat.Halves := by
  intro amount
  have hfloor : ⌊(amount.toNat : ℚ) * (1 / 2)⌋.toNat = amount.toNat / 2 := by
    have hdiv : (amount.toNat : ℚ) * (1 / 2) = ((amount.toNat : ℤ) : ℚ) / ((2 : ℕ) : ℚ) := by
      push_cast
      ring
    rw [hdiv, Rat.floor_intCast_div_natCast]
    omega
  have hhalf : exactFloat.halved amount = UInt64.ofNat (amount.toNat / 2) := by
    rw [← hfloor]
    show UInt64.ofNat ⌊(amount.toNat : ℚ) * _⌋.toNat = _
    norm_num [exactFloat, FloatOps.min, FloatOps.max]
  have hlt := amount.toNat_lt
  rw [hhalf, ← UInt64.toNat_inj, ← UInt64.toNat_inj,
    UInt64.toNat_ofNat_of_lt' (by simp only [UInt64.size]; omega), UInt64.toNat_zero]
  omega

/-- Slashing keeps the list exactly when the first validator with the address keeps its amount. -/
theorem slash_stakes_iff (fl : FloatOps F) (e : Engine) (address : Bytes) :
    (e.slash fl address).stakes = e.stakes ↔
      ∀ v, e.activeValidators.find? (fun u => u.address = address) = some v →
        fl.halved v.amount = v.amount := by
  obtain ⟨vs, seen⟩ := e
  show (slashStake fl address _ vs).map _ = vs.map _ ↔ _
  induction vs with
  | nil => simp [slashStake]
  | cons v vs ih =>
    unfold slashStake
    by_cases hv : v.address = address
    · simp only [hv, if_true, List.map_cons, List.cons.injEq, Prod.mk.injEq, true_and, and_true,
        decide_true, List.find?_cons_of_pos, Option.some.injEq, forall_eq']
      rfl
    · simp only [hv, if_false, List.map_cons, List.cons.injEq, true_and, decide_false,
        Bool.false_eq_true, not_false_eq_true, List.find?_cons_of_neg]
      exact ih

/-! ## Harmless deliveries -/

/-- The state in which a delivery takes nothing: the block does not name the proposer, or the table
holds no other block under its key, or nothing is left to take. -/
def Harmless (C : Crypto) (fl : FloatOps F) (e : Engine) (b : Block) (t : UInt64) : Prop :=
  namesProposer C fl e.activeValidators b (slotTime t) = true →
    ∀ hash, e.seenProposals (b.height, slotTime t) = some hash → hash ≠ b.hashHex C →
      ∀ v, e.activeValidators.find? (fun u => u.address = b.validatorAddress) = some v →
        v.amount = 0

/-- **One delivery**: it keeps all stakes exactly when it is harmless. -/
theorem present_stakes_iff {C : Crypto} {fl : FloatOps F} (hfl : fl.Halves) (e : Engine)
    (b : Block) (t : UInt64) :
    (present C fl e (b, t)).stakes = e.stakes ↔ Harmless C fl e b t := by
  unfold present Harmless
  rcases validateProposal_cases C fl e b t with
    ⟨hn, h⟩ | ⟨hn, ⟨hash, hs, hne, h⟩ | ⟨hs, h⟩ | ⟨hs, h⟩⟩
  · simp [h, hn]
  · rw [h, slash_stakes_iff]
    simp only [hn, hs, Option.some.injEq, forall_const, forall_eq', hfl _]
    exact ⟨fun h _ => h, fun h => h hne⟩
  · simp [h, hs]
  · simp [h, hs, Engine.record, Engine.stakes]

/-- The amounts of the validators are all that a call can change of them. -/
theorem slashStake_eq_of_stakes {fl : FloatOps F} {address : Bytes} {p : F}
    {vs : List ValidatorStake}
    (h : (slashStake fl address p vs).map (fun v => (v.address, v.amount)) =
      vs.map fun v => (v.address, v.amount)) : slashStake fl address p vs = vs := by
  induction vs with
  | nil => rfl
  | cons v vs ih =>
    unfold slashStake at h ⊢
    split_ifs at h ⊢ with hv
    · simp only [List.map_cons, List.cons.injEq, Prod.mk.injEq, true_and, and_true] at h
      rw [h]
    · simp only [List.map_cons, List.cons.injEq, true_and] at h
      rw [ih h]

/-- After a harmless delivery the next one is harmless. -/
theorem harmless_present {C : Crypto} {fl : FloatOps F} (hfl : fl.Halves) {e : Engine} {b : Block}
    {t : UInt64} (h : Harmless C fl e b t) :
    Harmless C fl (present C fl e (b, t)) b t := by
  have hkept := (present_stakes_iff hfl e b t).mpr h
  unfold present at hkept ⊢
  rcases validateProposal_cases C fl e b t with
    ⟨-, hv⟩ | ⟨-, ⟨_, -, -, hv⟩ | ⟨-, hv⟩ | ⟨-, hv⟩⟩
  · rwa [hv]
  · -- a slashing that took nothing leaves the engine as it was
    rw [hv] at hkept ⊢
    have heq : e.slash fl b.validatorAddress = e := by
      obtain ⟨vs, seen⟩ := e
      exact congrArg (Engine.mk · seen) (slashStake_eq_of_stakes hkept)
    rwa [heq]
  · rwa [hv]
  · rw [hv]
    intro _ hash hs hne
    have hself : some (b.hashHex C) = some hash := by
      rw [← hs]
      exact (Function.update_self _ _ e.seenProposals).symm
    exact absurd (Option.some.inj hself).symm hne

/-- A harmless block can be delivered any number of times. -/
theorem harmless_replicate {C : Crypto} {fl : FloatOps F} (hfl : fl.Halves) {e : Engine} {b : Block}
    {t : UInt64} (h : Harmless C fl e b t) (n : ℕ) :
    (presentAll C fl e (List.replicate n (b, t))).stakes = e.stakes := by
  induction n generalizing e with
  | zero => rfl
  | succ n ih =>
    rw [List.replicate_succ, presentAll, List.foldl_cons, ← presentAll, ih (harmless_present hfl h)]
    exact (present_stakes_iff hfl e b t).mpr h

/-- **Redelivery**: after every run of calls in which the block was presented, presenting it again
any number of times keeps all stakes exactly when the state before is harmless for it. -/
theorem redelivery_harmless_iff (C : Crypto) (fl : FloatOps F) (hfl : fl.Halves) (e₀ : Engine)
    (before after : List (Block × UInt64)) (b : Block) (t : UInt64) :
    (∀ n, (presentAll C fl (presentAll C fl e₀ (before ++ (b, t) :: after))
        (List.replicate n (b, t))).stakes =
      (presentAll C fl e₀ (before ++ (b, t) :: after)).stakes) ↔
    Harmless C fl (presentAll C fl e₀ (before ++ (b, t) :: after)) b t := by
  constructor
  · intro h
    exact (present_stakes_iff hfl _ b t).mp (h 1)
  · intro h n
    exact harmless_replicate hfl h n

/-! ## Two runs -/

/-- The engine with one validator and the empty table of a new process. -/
def soleEngine : Engine := ⟨[keyedValidator], fun _ => none⟩

/-- The block the table holds can be delivered again. -/
theorem redelivery_harmless_first :
    exactFloat.Halves ∧
      ∀ n, (presentAll polyCrypto exactFloat
          (presentAll polyCrypto exactFloat soleEngine ([] ++ [(honestBlock, 1640000010)]))
          (List.replicate n (honestBlock, 1640000010))).stakes =
        (presentAll polyCrypto exactFloat soleEngine ([] ++ [(honestBlock, 1640000010)])).stakes := by
  refine ⟨exactFloat_halves, (redelivery_harmless_iff polyCrypto exactFloat exactFloat_halves
    soleEngine [] [] honestBlock 1640000010).mpr ?_⟩
  intro _ hash hs hne
  have htable : (presentAll polyCrypto exactFloat soleEngine
      [(honestBlock, 1640000010)]).seenProposals (honestBlock.height, slotTime 1640000010) =
      some (honestBlock.hashHex polyCrypto) := by decide +kernel
  exact absurd (Option.some.inj (htable.symm.trans hs)).symm hne

/-- **The second block of the slot**: presented once it costs half of the stake, delivered again half
of the rest. -/
theorem redelivery_slashes_again :
    (presentAll polyCrypto exactFloat soleEngine
        [(honestBlock, 1640000010), (secondHonestBlock, 1640000010)]).stakes = [([118], 500000)] ∧
      (presentAll polyCrypto exactFloat
        (presentAll polyCrypto exactFloat soleEngine
          [(honestBlock, 1640000010), (secondHonestBlock, 1640000010)])
        (List.replicate 1 (secondHonestBlock, 1640000010))).stakes = [([118], 250000)] := by
  decide +kernel

end Mermai
