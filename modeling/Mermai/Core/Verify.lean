import Mermai.Core.Format

/-!
# Core.Verify — stateless checks of transactions and blocks

`mermai_transaction::verify`, `mermai_block::verify_validator_signature`, `verify_time_weight_pos`
and `mermai_merkle_tree::calculate_tree_hash`.  The clock `std::time(nullptr)` is an argument
`now : ℕ`.  Sums of amounts are 64-bit with a guard before each addition (`addGuarded`);
`sumGuarded_eq_some` says that a guarded sum succeeds exactly with the exact sum.
-/

namespace Mermai

open Codec

/-! ## Guarded 64-bit sums -/

/-- `if (amount > UINT64_MAX - total) return false; total += amount;` -/
def addGuarded (total amount : UInt64) : Option UInt64 :=
  if amount.toNat > 2 ^ 64 - 1 - total.toNat then none else some (total + amount)

/-- The guarded additions of a loop, from `start`. -/
def sumGuarded (start : UInt64) (amounts : List UInt64) : Option UInt64 :=
  amounts.foldlM addGuarded start

/-- The guard is exact: the addition is refused when the sum does not fit. -/
theorem addGuarded_eq_some {t a r : UInt64} :
    addGuarded t a = some r ↔ r.toNat = t.toNat + a.toNat := by
  have ht := t.toNat_lt
  have hr := r.toNat_lt
  unfold addGuarded
  split_ifs with hlt
  · constructor
    · intro h
      cases h
    · omega
  · rw [Option.some_inj, ← UInt64.toNat_inj, UInt64.toNat_add, Nat.mod_eq_of_lt (by omega), eq_comm]

theorem sumGuarded_eq_some {l : List UInt64} {t r : UInt64} :
    sumGuarded t l = some r ↔ r.toNat = t.toNat + (l.map UInt64.toNat).sum := by
  induction l generalizing t with
  | nil => simp [sumGuarded, ← UInt64.toNat_inj, eq_comm]
  | cons a l ih =>
    rw [sumGuarded, List.foldlM_cons, Option.bind_eq_bind, Option.bind_eq_some_iff, List.map_cons,
      List.sum_cons]
    constructor
    · rintro ⟨u, hu, h⟩
      rw [ih.mp h, addGuarded_eq_some.mp hu, add_assoc]
    · intro h
      have hfits : (UInt64.ofNat (t.toNat + a.toNat)).toNat = t.toNat + a.toNat := by
        have := r.toNat_lt
        rw [UInt64.toNat_ofNat', Nat.mod_eq_of_lt (by omega)]
      refine ⟨UInt64.ofNat (t.toNat + a.toNat), addGuarded_eq_some.mpr hfits, ih.mpr ?_⟩
      rw [h, hfits, add_assoc]

/-! ## Transactions -/

/-- The output an input spends. -/
def TxInput.outpoint (i : TxInput) : Bytes × UInt32 := (i.prevTxHash, i.prevOutputIdx)

/-- One round of the signature loop of `mermai_transaction::verify`: the key is not required to
fill the whole `public_key` field here. -/
def inputSigned (C : Crypto) (payload : Bytes) (i : TxInput) : Bool :=
  i.signature ≠ [] ∧ i.publicKey ≠ [] ∧ (C.d2iPubkey i.publicKey).isSome ∧
    C.digestVerify i.publicKey payload i.signature

/-- `mermai_transaction::verify`. -/
def Transaction.verify (C : Crypto) (now : ℕ) (tx : Transaction) : Bool :=
  if tx.id = [] ∨ tx.inputs = [] ∨ tx.outputs = [] then false
  else if tx.inputs.length > maxTransactionInputs ∨
      tx.outputs.length > maxTransactionOutputs then false
  else if tx.timestamp.toNat > now + 120 then false
  -- the loop over `spent_outputs`
  else if ¬ ((∀ i ∈ tx.inputs, i.prevTxHash ≠ []) ∧ (tx.inputs.map TxInput.outpoint).Nodup) then
    false
  -- the loop over `total_outputs`
  else if ¬ ((∀ o ∈ tx.outputs, o.address ≠ [] ∧ o.amount ≠ 0) ∧
      (sumGuarded 0 (tx.outputs.map TxOutput.amount)).isSome) then false
  else tx.inputs.all (inputSigned C tx.unsignedPayload)

/-- What `verify` has checked when it returns true. -/
structure Transaction.Verified (C : Crypto) (now : ℕ) (tx : Transaction) : Prop where
  id_ne : tx.id ≠ []
  inputs_ne : tx.inputs ≠ []
  outputs_ne : tx.outputs ≠ []
  inputs_le : tx.inputs.length ≤ maxTransactionInputs
  outputs_le : tx.outputs.length ≤ maxTransactionOutputs
  timestamp_le : tx.timestamp.toNat ≤ now + 120
  prev_ne : ∀ i ∈ tx.inputs, i.prevTxHash ≠ []
  distinct : (tx.inputs.map TxInput.outpoint).Nodup
  outputs_ok : ∀ o ∈ tx.outputs, o.address ≠ [] ∧ o.amount ≠ 0
  sum_ok : (sumGuarded 0 (tx.outputs.map TxOutput.amount)).isSome
  signed : ∀ i ∈ tx.inputs, inputSigned C tx.unsignedPayload i

theorem Transaction.verify_iff {C : Crypto} {now : ℕ} {tx : Transaction} :
    tx.verify C now = true ↔ tx.Verified C now := by
  unfold Transaction.verify
  constructor
  · intro h
    split_ifs at h with h1 h2 h3 h4 h5
    simp only [not_or, not_lt] at h1 h2 h3 h4 h5
    exact ⟨h1.1, h1.2.1, h1.2.2, h2.1, h2.2, h3, h4.1, h4.2, h5.1, h5.2, List.all_eq_true.mp h⟩
  · intro h
    rw [if_neg (by simp [h.id_ne, h.inputs_ne, h.outputs_ne]),
      if_neg (by have := h.inputs_le; have := h.outputs_le; omega),
      if_neg (not_lt.mpr h.timestamp_le), if_neg (not_not.mpr ⟨h.prev_ne, h.distinct⟩),
      if_neg (not_not.mpr ⟨h.outputs_ok, h.sum_ok⟩)]
    exact List.all_eq_true.mpr h.signed

/-- The clock only moves the bound on the timestamp: what verifies now verifies later. -/
theorem Transaction.verify_mono {C : Crypto} {now now' : ℕ} {tx : Transaction}
    (h : tx.verify C now = true) (hle : now ≤ now') : tx.verify C now' = true := by
  have hv := Transaction.verify_iff.mp h
  exact Transaction.verify_iff.mpr { hv with timestamp_le := hv.timestamp_le.trans (by omega) }

/-! ## Blocks -/

/-- `mermai_block::verify_time_weight_pos`. -/
def Block.verifyTimeWeightPos (b : Block) : Bool := b.validatorAddress ≠ [] ∧ 0 < b.validatorStake

/-- `mermai_block::verify_validator_signature`: the key must fill the whole field. -/
def Block.verifyValidatorSignature (C : Crypto) (b : Block) : Bool :=
  b.validatorPublicKey ≠ [] ∧ b.validatorSignature ≠ [] ∧
    C.d2iPubkey b.validatorPublicKey = some b.validatorPublicKey.length ∧
    C.digestVerify b.validatorPublicKey b.signingPayload b.validatorSignature

/-- `mermai_block_vote::verify_signature`. -/
def BlockVote.verifySignature (C : Crypto) (v : BlockVote) : Bool :=
  v.validatorPublicKey ≠ [] ∧ v.signature ≠ [] ∧ (C.d2iPubkey v.validatorPublicKey).isSome ∧
    C.digestVerify v.validatorPublicKey v.signingPayload v.signature

/-! ## Merkle root -/

/-- `mermai_merkle_tree::hash_combine` of the database: the digest of the two hex texts. -/
def hashCombine (C : Crypto) (left right : Bytes) : Bytes := hashToHex (C.sha256 (left ++ right))

/-- One round of the `while` loop of `calculate_tree_hash`: an odd last node is paired with
itself. -/
def nextLevel (C : Crypto) : List Bytes → List Bytes
  | [] => []
  | [a] => [hashCombine C a a]
  | a :: b :: rest => hashCombine C a b :: nextLevel C rest

/-- The `while` loop of `calculate_tree_hash`; `fuel` bounds the number of rounds. -/
def climb (C : Crypto) : ℕ → List Bytes → Bytes
  | 0, level => level.headD []
  | fuel + 1, level =>
    if level.length > 1 then climb C fuel (nextLevel C level) else level.headD []

/-- `mermai_merkle_tree::calculate_tree_hash`.  Every round shortens the level, so the number of
leaves is fuel enough (`climb_fuel`). -/
def calculateTreeHash (C : Crypto) (txs : List Transaction) : Bytes :=
  if txs = [] then zeroHash else climb C txs.length (txs.map (Transaction.getHash C))

theorem nextLevel_length (C : Crypto) : ∀ level : List Bytes,
    (nextLevel C level).length = (level.length + 1) / 2
  | [] => rfl
  | [_] => by simp [nextLevel]
  | _ :: _ :: rest => by
    simp only [nextLevel, List.length_cons, nextLevel_length C rest]
    omega

/-- Fuel beyond the number of nodes changes nothing. -/
theorem climb_fuel (C : Crypto) {f f' : ℕ} {level : List Bytes} (h : level.length ≤ f)
    (h' : level.length ≤ f') : climb C f level = climb C f' level := by
  induction f generalizing f' level with
  | zero =>
    have : level = [] := List.length_eq_zero_iff.mp (by omega)
    subst this
    cases f' <;> simp [climb]
  | succ f ih =>
    cases f' with
    | zero =>
      have : level = [] := List.length_eq_zero_iff.mp (by omega)
      subst this
      simp [climb]
    | succ f' =>
      unfold climb
      split_ifs with hl
      · have := nextLevel_length C level
        exact ih (by omega) (by omega)
      · rfl

/-- The hex text of some digest. -/
def IsDigest (C : Crypto) (s : Bytes) : Prop := ∃ m, s = hashToHex (C.sha256 m)

theorem IsDigest.length {C : Crypto} {s : Bytes} (h : IsDigest C s) : s.length = 64 := by
  obtain ⟨m, rfl⟩ := h
  rw [hashToHex_length, C.sha256_length]

theorem IsDigest.ne_nil {C : Crypto} {s : Bytes} (h : IsDigest C s) : s ≠ [] := by
  rintro rfl
  cases h.length

theorem nextLevel_digest (C : Crypto) : ∀ {level : List Bytes} {a : Bytes},
    a ∈ nextLevel C level → IsDigest C a
  | [], _, h => by simp [nextLevel] at h
  | [x], a, h => by
    simp only [nextLevel, List.mem_singleton] at h
    exact ⟨x ++ x, h⟩
  | x :: y :: rest, a, h => by
    rcases List.mem_cons.mp h with rfl | h
    · exact ⟨x ++ y, rfl⟩
    · exact nextLevel_digest C h

theorem climb_digest (C : Crypto) {f : ℕ} {level : List Bytes} (hne : level ≠ [])
    (h : ∀ a ∈ level, IsDigest C a) : IsDigest C (climb C f level) := by
  have hhead : ∀ l : List Bytes, l ≠ [] → (∀ a ∈ l, IsDigest C a) → IsDigest C (l.headD []) := by
    intro l hl ha
    cases l with
    | nil => exact absurd rfl hl
    | cons a l => exact ha a (by simp)
  induction f generalizing level with
  | zero => exact hhead level hne h
  | succ f ih =>
    unfold climb
    split_ifs with hl
    · refine ih (fun hn => ?_) (fun a ha => nextLevel_digest C ha)
      have := congrArg List.length hn
      rw [nextLevel_length, List.length_nil] at this
      omega
    · exact hhead level hne h

/-- The root of a non-empty list of transactions is a digest. -/
theorem calculateTreeHash_digest {C : Crypto} {txs : List Transaction} (h : txs ≠ []) :
    IsDigest C (calculateTreeHash C txs) := by
  rw [calculateTreeHash, if_neg h]
  refine climb_digest C (by simpa using h) ?_
  intro a ha
  obtain ⟨tx, -, rfl⟩ := List.mem_map.mp ha
  exact ⟨tx.serialize, rfl⟩

end Mermai
