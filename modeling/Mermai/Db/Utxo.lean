import Mermai.Core.Verify
import Mermai.Lib.Sql

/-!
# Db.Utxo — the table of unspent outputs

The part of `mermai_db` that reads and writes `utxos`: `save_unspent_output`,
`spend_unspent_output`, `validate_transaction_inputs` and the loop body of `apply_block`.  Text
is bound up to its first NUL byte, an output index as a signed 32-bit number and an amount as a
signed 64-bit number; `Utxo.pos` is the constraint `CHECK(amount > 0)` of the schema.  A statement
that fails makes `apply_block` roll back, so the functions below return `none`.
-/

namespace Mermai

open Sql

/-! ## Rows -/

/-- A row of `utxos` without its key. -/
structure Utxo where
  address : Bytes
  amount : Int64
  pos : 0 < amount
deriving DecidableEq

/-- `utxos` with `PRIMARY KEY(tx_id, output_index)`. -/
abbrev Utxos := Table (Bytes × Int32) Utxo

/-- The primary key of an output. -/
def outKey (txId : Bytes) (index : UInt32) : Bytes × Int32 := (cText txId, index.toInt32)

def TxInput.key (i : TxInput) : Bytes × Int32 := outKey i.prevTxHash i.prevOutputIdx

/-- The amount of a row as a number. -/
def Utxo.value (u : Utxo) : ℕ := u.amount.toInt.toNat

/-- The exact sum of the amounts. -/
def totalAmount (t : Utxos) : ℕ := total Utxo.value t

/-- `static_cast<uint64_t>` of a stored amount is exact. -/
theorem Utxo.toUInt64_amount (u : Utxo) : u.amount.toUInt64.toNat = u.value := by
  have hpos : 0 < u.amount.toInt := by simpa [Int64.lt_iff_toInt_lt] using u.pos
  have hbv : u.amount.toInt = u.amount.toBitVec.toInt := rfl
  have hnat : u.amount.toUInt64.toNat = u.amount.toBitVec.toNat := rfl
  rw [hbv, BitVec.toInt_eq_toNat_cond] at hpos
  rw [Utxo.value, hnat, hbv, BitVec.toInt_eq_toNat_cond]
  split_ifs at hpos ⊢ with h
  · rfl
  · have := u.amount.toBitVec.isLt
    omega

/-! ## Statements -/

/-- `save_unspent_output`. -/
def saveUnspentOutput (t : Utxos) (txId : Bytes) (index : UInt32) (o : TxOutput) : Option Utxos :=
  if txId = [] ∨ o.address = [] ∨ o.amount = 0 then none
  else if h : 0 < o.amount.toInt64 then
    insertNew t (outKey txId index) ⟨cText o.address, o.amount.toInt64, h⟩
  else none

/-- `spend_unspent_output`. -/
def spendUnspentOutput (t : Utxos) (txId : Bytes) (index : UInt32) : Option Utxos :=
  deleteRow t (outKey txId index)

/-- `address_from_public_key`: `mrm1` and the first 20 bytes of the digest; empty for a key that
does not parse or does not fill the whole string. -/
def addressFromPublicKey (C : Crypto) (publicKey : Bytes) : Bytes :=
  if publicKey = [] ∨ C.d2iPubkey publicKey ≠ some publicKey.length then []
  else [109, 114, 109, 49] ++ hashToHex ((C.sha256 publicKey).take 20)

/-- The amount an input brings, when its row is there and belongs to its key. -/
def inputAmount (C : Crypto) (t : Utxos) (i : TxInput) : Option UInt64 :=
  match t.lookup i.key with
  | none => none
  | some u =>
    if u.address = [] ∨ addressFromPublicKey C i.publicKey ≠ u.address then none
    else some u.amount.toUInt64

/-- The loop over the inputs in `validate_transaction_inputs`. -/
def sumInputs (C : Crypto) (t : Utxos) (start : UInt64) (inputs : List TxInput) : Option UInt64 :=
  inputs.foldlM (fun inputsTotal i => do addGuarded inputsTotal (← inputAmount C t i)) start

/-- `validate_transaction_inputs`. -/
def validateTransactionInputs (C : Crypto) (now : ℕ) (t : Utxos) (tx : Transaction) : Bool :=
  tx.verify C now &&
    match sumGuarded tx.fee (tx.outputs.map TxOutput.amount), sumInputs C t 0 tx.inputs with
    | some outputsTotal, some inputsTotal => inputsTotal = outputsTotal
    | _, _ => false

/-- The loop of `apply_block` that spends the inputs. -/
def spendInputs (t : Utxos) (inputs : List TxInput) : Option Utxos :=
  inputs.foldlM (fun t i => spendUnspentOutput t i.prevTxHash i.prevOutputIdx) t

/-- The loop of `apply_block` that saves the outputs.  An index past 2³² - 1 wraps to one that is
already taken, and the insertion fails. -/
def saveOutputs (txId : Bytes) : Utxos → ℕ → List TxOutput → Option Utxos
  | t, _, [] => some t
  | t, index, o :: rest => do
    let t ← saveUnspentOutput t txId (UInt32.ofNat index) o
    saveOutputs txId t (index + 1) rest

/-- One round of the loop of `apply_block`. -/
def applyTransaction (C : Crypto) (now : ℕ) (t : Utxos) (tx : Transaction) : Option Utxos :=
  if tx.inputs = [] then saveOutputs (tx.rowId C) t 0 tx.outputs
  else if validateTransactionInputs C now t tx then do
    let t ← spendInputs t tx.inputs
    saveOutputs (tx.rowId C) t 0 tx.outputs
  else none

/-- The loop of `apply_block`. -/
def applyTransactions (C : Crypto) (now : ℕ) (t : Utxos) (txs : List Transaction) : Option Utxos :=
  txs.foldlM (applyTransaction C now) t

/-! ## What the statements do -/

theorem saveUnspentOutput_eq_some {t t' : Utxos} {txId : Bytes} {index : UInt32} {o : TxOutput}
    (h : saveUnspentOutput t txId index o = some t') :
    ∃ u : Utxo, u.address = cText o.address ∧ u.value = o.amount.toNat ∧
      insertNew t (outKey txId index) u = some t' := by
  unfold saveUnspentOutput at h
  split_ifs at h with h1 h2
  refine ⟨⟨cText o.address, o.amount.toInt64, h2⟩, rfl, ?_, h⟩
  rw [← Utxo.toUInt64_amount]
  rfl

/-- A row of the table after saving is a row from before, or a new one. -/
theorem saveOutputs_lookup {txId : Bytes} {t t' : Utxos} {n : ℕ} {os : List TxOutput}
    (h : saveOutputs txId t n os = some t') {k : Bytes × Int32} {u : Utxo}
    (hk : t.lookup k = some u) : t'.lookup k = some u := by
  induction os generalizing t n with
  | nil =>
    cases h
    exact hk
  | cons o os ih =>
    obtain ⟨s, hs, h⟩ := Option.bind_eq_some_iff.mp h
    obtain ⟨v, -, -, hins⟩ := saveUnspentOutput_eq_some hs
    obtain ⟨hnew, rfl⟩ := insertNew_eq_some.mp hins
    refine ih h ?_
    have hne : k ≠ outKey txId (UInt32.ofNat n) := by
      rintro rfl
      exact hnew (AList.lookup_isSome.mp (by rw [hk]; rfl))
    rw [AList.lookup_insert_ne hne, hk]

theorem spendInputs_cons {t t' : Utxos} {i : TxInput} {inputs : List TxInput} :
    spendInputs t (i :: inputs) = some t' ↔ i.key ∈ t ∧ spendInputs (t.erase i.key) inputs = some t' := by
  unfold spendInputs
  rw [List.foldlM_cons, Option.bind_eq_bind, Option.bind_eq_some_iff]
  constructor
  · rintro ⟨s, hs, h⟩
    obtain ⟨hmem, rfl⟩ := deleteRow_eq_some.mp hs
    exact ⟨hmem, h⟩
  · rintro ⟨hmem, h⟩
    exact ⟨_, deleteRow_eq_some.mpr ⟨hmem, rfl⟩, h⟩

theorem spendInputs_mem {t t' : Utxos} {inputs : List TxInput}
    (h : spendInputs t inputs = some t') : ∀ i ∈ inputs, i.key ∈ t := by
  induction inputs generalizing t with
  | nil => simp
  | cons i inputs ih =>
    obtain ⟨hmem, h⟩ := spendInputs_cons.mp h
    intro j hj
    rcases List.mem_cons.mp hj with rfl | hj
    · exact hmem
    · exact (AList.mem_erase.mp (ih h j hj)).2

/-- A row that is gone was spent. -/
theorem spendInputs_lookup {t t' : Utxos} {inputs : List TxInput}
    (h : spendInputs t inputs = some t') {k : Bytes × Int32} {u : Utxo} (hk : t.lookup k = some u) :
    t'.lookup k = some u ∨ ∃ i ∈ inputs, i.key = k := by
  induction inputs generalizing t with
  | nil =>
    cases h
    exact .inl hk
  | cons i inputs ih =>
    obtain ⟨-, h⟩ := spendInputs_cons.mp h
    by_cases hik : i.key = k
    · exact .inr ⟨i, by simp, hik⟩
    · have hk' : (t.erase i.key).lookup k = some u := by
        rw [AList.lookup_erase_ne (Ne.symm hik), hk]
      rcases ih h hk' with h' | ⟨j, hj, hjk⟩
      · exact .inl h'
      · exact .inr ⟨j, by simp [hj], hjk⟩

theorem inputAmount_eq_some {C : Crypto} {t : Utxos} {i : TxInput} {a : UInt64} :
    inputAmount C t i = some a ↔ ∃ u, t.lookup i.key = some u ∧ u.address ≠ [] ∧
      addressFromPublicKey C i.publicKey = u.address ∧ a.toNat = u.value := by
  unfold inputAmount
  cases t.lookup i.key with
  | none => simp
  | some u =>
    have hval : u.amount.toUInt64 = a ↔ a.toNat = u.value := by
      rw [← UInt64.toNat_inj, u.toUInt64_amount, eq_comm]
    simp only [Option.some.injEq, exists_eq_left']
    split_ifs with hc
    · constructor
      · intro hnone
        cases hnone
      · rintro ⟨hne, haddr, -⟩
        exact absurd hc (not_or.mpr ⟨hne, not_not.mpr haddr⟩)
    · rw [not_or, not_not] at hc
      rw [Option.some_inj, hval]
      simp [hc]

/-- The amount of the row an input names; zero when there is none. -/
def spentValue (t : Utxos) (i : TxInput) : ℕ := ((t.lookup i.key).map Utxo.value).getD 0

/-- The loop over the inputs succeeds exactly with the exact sum of the rows they name. -/
theorem sumInputs_eq_some {C : Crypto} {t : Utxos} {inputs : List TxInput} {s r : UInt64} :
    sumInputs C t s inputs = some r ↔
      (∀ i ∈ inputs, ∃ u, t.lookup i.key = some u ∧ u.address ≠ [] ∧
        addressFromPublicKey C i.publicKey = u.address ∧ spentValue t i = u.value) ∧
      r.toNat = s.toNat + (inputs.map (spentValue t)).sum := by
  induction inputs generalizing s with
  | nil => simp [sumInputs, ← UInt64.toNat_inj, eq_comm]
  | cons i inputs ih =>
    rw [sumInputs, List.foldlM_cons, Option.bind_eq_bind, Option.bind_eq_some_iff,
      List.forall_mem_cons, List.map_cons, List.sum_cons]
    constructor
    · rintro ⟨s', hs, h⟩
      obtain ⟨a, ha, hadd⟩ := Option.bind_eq_some_iff.mp hs
      obtain ⟨u, hu, hne, haddr, hval⟩ := inputAmount_eq_some.mp ha
      obtain ⟨hrows, hsum⟩ := ih.mp h
      have hspent : spentValue t i = u.value := by simp [spentValue, hu]
      refine ⟨⟨⟨u, hu, hne, haddr, hspent⟩, hrows⟩, ?_⟩
      rw [hsum, addGuarded_eq_some.mp hadd, hval, hspent, add_assoc]
    · rintro ⟨⟨⟨u, hu, hne, haddr, hspent⟩, hrows⟩, hsum⟩
      have hlt := r.toNat_lt
      have hadd : addGuarded s u.amount.toUInt64 =
          some (UInt64.ofNat (s.toNat + spentValue t i)) := by
        refine addGuarded_eq_some.mpr ?_
        rw [u.toUInt64_amount, hspent, UInt64.toNat_ofNat', Nat.mod_eq_of_lt (by omega)]
      refine ⟨_, Option.bind_eq_some_iff.mpr ⟨_, inputAmount_eq_some.mpr
        ⟨u, hu, hne, haddr, u.toUInt64_amount⟩, hadd⟩, ih.mpr ⟨hrows, ?_⟩⟩
      rw [hsum, UInt64.toNat_ofNat', Nat.mod_eq_of_lt (by omega), add_assoc]

/-- What `validate_transaction_inputs` has checked when it returns true. -/
structure InputsValidated (C : Crypto) (now : ℕ) (t : Utxos) (tx : Transaction)
    (value : TxInput → ℕ) : Prop where
  verified : tx.Verified C now
  rows : ∀ i ∈ tx.inputs, ∃ u, t.lookup i.key = some u ∧ u.address ≠ [] ∧
    addressFromPublicKey C i.publicKey = u.address ∧ value i = u.value
  balance : (tx.inputs.map value).sum =
    tx.fee.toNat + (tx.outputs.map fun o => o.amount.toNat).sum

/-- `validate_transaction_inputs` returns true exactly when that holds and the sums fit. -/
theorem validateTransactionInputs_iff {C : Crypto} {now : ℕ} {t : Utxos} {tx : Transaction} :
    validateTransactionInputs C now t tx = true ↔ InputsValidated C now t tx (spentValue t) ∧
      tx.fee.toNat + (tx.outputs.map fun o => o.amount.toNat).sum < 2 ^ 64 := by
  have hamounts : ((tx.outputs.map TxOutput.amount).map UInt64.toNat).sum =
      (tx.outputs.map fun o => o.amount.toNat).sum := by
    rw [List.map_map]
    rfl
  unfold validateTransactionInputs
  rw [Bool.and_eq_true, Transaction.verify_iff]
  constructor
  · rintro ⟨hverified, hsums⟩
    split at hsums
    · rename_i outputsTotal inputsTotal hout hin
      have heq : inputsTotal = outputsTotal := by simpa using hsums
      have hout' := sumGuarded_eq_some.mp hout
      rw [hamounts] at hout'
      obtain ⟨hrows, hsum⟩ := sumInputs_eq_some.mp hin
      have hlt := outputsTotal.toNat_lt
      rw [heq, hout'] at hsum
      exact ⟨⟨hverified, hrows, by simpa using hsum.symm⟩, by omega⟩
    · cases hsums
  · rintro ⟨hvalid, hfits⟩
    have htotal := UInt64.toNat_ofNat_of_lt' hfits
    have hout := sumGuarded_eq_some.mpr (htotal.trans (by rw [hamounts]))
    have hin : sumInputs C t 0 tx.inputs = some _ :=
      sumInputs_eq_some.mpr ⟨hvalid.rows, htotal.trans (by rw [hvalid.balance]; simp)⟩
    refine ⟨hvalid.verified, ?_⟩
    rw [hout, hin]
    simp

/-- **Inversion** of one round of `apply_block`. -/
theorem applyTransaction_eq_some {C : Crypto} {now : ℕ} {t t' : Utxos} {tx : Transaction}
    (h : applyTransaction C now t tx = some t') :
    (tx.inputs = [] ∧ saveOutputs (tx.rowId C) t 0 tx.outputs = some t') ∨
    (tx.inputs ≠ [] ∧ ∃ value s, InputsValidated C now t tx value ∧
      spendInputs t tx.inputs = some s ∧ saveOutputs (tx.rowId C) s 0 tx.outputs = some t') := by
  unfold applyTransaction at h
  split_ifs at h with hin hval
  · exact .inl ⟨hin, h⟩
  · obtain ⟨s, hs, hsave⟩ := Option.bind_eq_some_iff.mp h
    exact .inr ⟨hin, _, s, (validateTransactionInputs_iff.mp hval).1, hs, hsave⟩

theorem applyTransactions_cons {C : Crypto} {now : ℕ} {t t' : Utxos} {tx : Transaction}
    {txs : List Transaction} : applyTransactions C now t (tx :: txs) = some t' ↔
      ∃ s, applyTransaction C now t tx = some s ∧ applyTransactions C now s txs = some t' := by
  rw [applyTransactions, List.foldlM_cons, Option.bind_eq_bind, Option.bind_eq_some_iff]
  rfl

theorem applyTransactions_append_iff {C : Crypto} {now : ℕ} {t t' : Utxos}
    {txs txs' : List Transaction} : applyTransactions C now t (txs ++ txs') = some t' ↔
      ∃ s, applyTransactions C now t txs = some s ∧ applyTransactions C now s txs' = some t' := by
  rw [applyTransactions, List.foldlM_append, Option.bind_eq_bind, Option.bind_eq_some_iff]
  rfl

theorem applyTransactions_append {C : Crypto} {now : ℕ} {t s t' : Utxos}
    {txs txs' : List Transaction} (h : applyTransactions C now t txs = some s)
    (h' : applyTransactions C now s txs' = some t') :
    applyTransactions C now t (txs ++ txs') = some t' :=
  applyTransactions_append_iff.mpr ⟨s, h, h'⟩

theorem applyTransaction_mono {C : Crypto} {now now' : ℕ} {t t' : Utxos} {tx : Transaction}
    (h : applyTransaction C now t tx = some t') (hle : now ≤ now') :
    applyTransaction C now' t tx = some t' := by
  unfold applyTransaction at h ⊢
  by_cases hin : tx.inputs = []
  · rwa [if_pos hin] at h ⊢
  · rw [if_neg hin] at h ⊢
    split_ifs at h with hval
    have hval' : validateTransactionInputs C now' t tx = true := by
      unfold validateTransactionInputs at hval ⊢
      rw [Bool.and_eq_true] at hval ⊢
      exact ⟨Transaction.verify_mono hval.1 hle, hval.2⟩
    rwa [if_pos hval']

/-- The clock only decides whether the transactions are accepted, not what they do. -/
theorem applyTransactions_mono {C : Crypto} {now now' : ℕ} {t t' : Utxos} {txs : List Transaction}
    (h : applyTransactions C now t txs = some t') (hle : now ≤ now') :
    applyTransactions C now' t txs = some t' := by
  induction txs generalizing t with
  | nil => exact h
  | cons tx txs ih =>
    obtain ⟨s, hs, h⟩ := applyTransactions_cons.mp h
    exact applyTransactions_cons.mpr ⟨s, applyTransaction_mono hs hle, ih h⟩

end Mermai
