import Mermai.Core.Verify
import Mathlib.Data.Rat.Floor
import Mathlib.Logic.Function.Basic

/-!
# Consensus.Stake — validators, weights and the choice of the proposer

`mermai_consensus_state` and the validator operations of `mermai_time_weighted_pos`.  Weights are
single-precision floats, so the arithmetic is a parameter `FloatOps F`: every result that quantifies
over it holds for IEEE floats with any rounding, and `exactFloat` (rationals) is the instance that
agrees with them where no rounding occurs.  The `weight` field of a validator is written and read by
the RPC server alone, as a column of its own, and is left out here.
-/

namespace Mermai

/-! ## Floating point -/

/-- The float operations of the consensus engine. -/
structure FloatOps (F : Type) where
  /-- `lit m e` is the literal `m · 10⁻ᵉ`. -/
  lit : ℕ → ℕ → F
  /-- Conversion of a `uint64_t`. -/
  ofUInt64 : UInt64 → F
  add : F → F → F
  sub : F → F → F
  mul : F → F → F
  le : F → F → Bool
  lt : F → F → Bool
  /-- `static_cast<float>(std::fmod(static_cast<double>(seed), static_cast<double>(total)))`. -/
  fmod : UInt64 → F → F
  /-- `static_cast<uint64_t>`. -/
  toUInt64 : F → UInt64
  /-- `std::ostream << float` with default precision. -/
  print : F → Bytes

variable {F : Type}

/-- `std::min`. -/
def FloatOps.min (fl : FloatOps F) (a b : F) : F := if fl.lt b a then b else a

/-- `std::max`. -/
def FloatOps.max (fl : FloatOps F) (a b : F) : F := if fl.lt a b then b else a

/-- A natural number in the `%g` form of `std::ostream`, up to six significant digits. -/
def printG (n : ℕ) : Bytes :=
  if n < 1000000 then decimal n
  else
    let tail := ((decimal n).tail.reverse.dropWhile (· = 48)).reverse
    let exponent := (decimal n).length - 1
    (decimal n).take 1 ++ (if tail = [] then [] else 46 :: tail) ++ [101, 43] ++
      (if exponent < 10 then [48] else []) ++ decimal exponent

/-- Exact arithmetic: what the float operations compute where no rounding occurs. -/
def exactFloat : FloatOps ℚ where
  lit m e := m / 10 ^ e
  ofUInt64 x := x.toNat
  add := (· + ·)
  sub := (· - ·)
  mul := (· * ·)
  le x y := x ≤ y
  lt x y := x < y
  fmod seed total := seed.toNat - total * ⌊(seed.toNat : ℚ) / total⌋
  toUInt64 x := UInt64.ofNat ⌊x⌋.toNat
  print x := printG ⌊x⌋.toNat

/-! ## Validators -/

/-- `mermai_validator_stake`. -/
structure ValidatorStake where
  address : Bytes
  amount : UInt64
  lockTime : UInt64
  lastProposal : UInt64
  publicKey : Bytes
deriving DecidableEq

/-- `min_stake`. -/
abbrev minStake : UInt64 := 1000000

/-- `register_validator` at clock `now`; `none` when it returns false. -/
def registerValidator (C : Crypto) (now : ℕ) (vs : List ValidatorStake) (address : Bytes)
    (stakeAmount : UInt64) (publicKey : Bytes) : Option (List ValidatorStake) :=
  if stakeAmount < minStake ∨ address = [] then none
  else if publicKey ≠ [] ∧ C.d2iPubkey publicKey = none then none
  else if ∃ v ∈ vs, v.address = address then none
  else some (vs ++ [⟨address, stakeAmount, UInt64.ofNat now, 0, publicKey⟩])

/-- `unregister_validator`; `none` when it returns false. -/
def unregisterValidator (vs : List ValidatorStake) (address : Bytes) :
    Option (List ValidatorStake) :=
  if ∃ v ∈ vs, v.address = address then some (vs.filter fun v => v.address ≠ address) else none

/-- `restore_validator`; `none` when it returns false. -/
def restoreValidator (vs : List ValidatorStake) (stake : ValidatorStake) :
    Option (List ValidatorStake) :=
  if stake.address = [] ∨ stake.amount < minStake ∨ stake.lockTime = 0 then none
  else if ∃ v ∈ vs, v.address = stake.address then none
  else some (vs ++ [stake])

/-- `mermai_consensus_state::slash_validator`: the first validator with the address. -/
def slashStake (fl : FloatOps F) (address : Bytes) (percentage : F) :
    List ValidatorStake → List ValidatorStake
  | [] => []
  | v :: vs =>
    if v.address = address then
      { v with amount := fl.toUInt64 (fl.mul (fl.ofUInt64 v.amount)
          (fl.sub (fl.lit 1 0) percentage)) } :: vs
    else v :: slashStake fl address percentage vs

/-- `mermai_time_weighted_pos::slash_validator`: the percentage is clamped to `[0, 1]`. -/
def slashValidator (fl : FloatOps F) (vs : List ValidatorStake) (address : Bytes)
    (penaltyPercentage : F) : List ValidatorStake :=
  slashStake fl address (fl.min (fl.lit 1 0) (fl.max (fl.lit 0 0) penaltyPercentage)) vs

/-- `get_total_active_stake`: a wrapping 64-bit sum. -/
def getTotalActiveStake (vs : List ValidatorStake) : UInt64 :=
  vs.foldl (fun total v => total + v.amount) 0

/-! ## The proposer of a slot -/

/-- `calculate_time_multiplier`. -/
def calculateTimeMultiplier (fl : FloatOps F) (stakeAgeSeconds : UInt64) : F :=
  let days := stakeAgeSeconds / 86400
  if days < 1 then fl.lit 1 0
  else if days < 30 then fl.add (fl.lit 1 0) (fl.mul (fl.ofUInt64 days) (fl.lit 1 3))
  else if days < 365 then
    fl.add (fl.lit 103 2) (fl.mul (fl.ofUInt64 (days - 30)) (fl.lit 1 3))
  else
    fl.add (fl.lit 1365 3)
      (fl.min (fl.lit 1 1) (fl.mul (fl.ofUInt64 (days - 365)) (fl.lit 1 4)))

/-- The age of a stake at a time, 0 before the lock. -/
def stakeAge (v : ValidatorStake) (time : UInt64) : UInt64 :=
  if v.lockTime ≤ time then time - v.lockTime else 0

/-- `calculate_weight`; the performance multiplier is the constant `1.0f`. -/
def calculateWeight (fl : FloatOps F) (v : ValidatorStake) (currentTime : UInt64) : F :=
  fl.mul (fl.mul (fl.ofUInt64 v.amount) (calculateTimeMultiplier fl (stakeAge v currentTime)))
    (fl.lit 1 0)

/-- The cumulative walk of `select_block_proposer`. -/
def pickProposer (fl : FloatOps F) (randomValue : F) :
    F → List (Bytes × F) → Option Bytes
  | _, [] => none
  | cumulative, (address, weight) :: rest =>
    if fl.le randomValue (fl.add cumulative weight) then some address
    else pickProposer fl randomValue (fl.add cumulative weight) rest

/-- The first eight bytes of a digest as `memcpy` puts them into a `uint64_t`. -/
def digestSeed (digest : Bytes) : UInt64 := UInt64.ofNat (Codec.ofBE (digest.take 8).reverse)

/-- `select_block_proposer`. -/
def selectBlockProposer (C : Crypto) (fl : FloatOps F) (vs : List ValidatorStake)
    (currentTime : UInt64) : Bytes :=
  match vs with
  | [] => []
  | first :: _ =>
    let weighted := vs.map fun v => (v.address, calculateWeight fl v currentTime)
    let totalWeight := weighted.foldl (fun acc p => fl.add acc p.2) (fl.lit 0 0)
    if fl.le totalWeight (fl.lit 0 0) then first.address
    else
      let seed := decimal currentTime.toNat ++ weighted.flatMap fun p => p.1 ++ fl.print p.2
      let randomValue := fl.fmod (digestSeed (C.sha256 seed)) totalWeight
      match pickProposer fl randomValue (fl.lit 0 0) weighted with
      | some address => address
      | none => (weighted.getLastD ([], fl.lit 0 0)).1

/-- The registered key of an address: that of the first validator with it. -/
def registeredKey (vs : List ValidatorStake) (address : Bytes) : Option Bytes :=
  (vs.find? fun v => v.address = address).map ValidatorStake.publicKey

/-- Slashing touches amounts only. -/
theorem registeredKey_slash (fl : FloatOps F) (vs : List ValidatorStake) (a : Bytes) (p : F)
    (address : Bytes) : registeredKey (slashStake fl a p vs) address = registeredKey vs address := by
  induction vs with
  | nil => rfl
  | cons v vs ih =>
    unfold slashStake
    split_ifs with h
    · by_cases hv : v.address = address <;> simp [registeredKey, hv]
    · by_cases hv : v.address = address
      · simp [registeredKey, hv]
      · simpa [registeredKey, List.find?_cons, hv] using ih

end Mermai
