import Mermai.Lib.Run
import Mermai.Db.Ledger

/-!
# Db.Atomic — `apply_block` as one step of the ledger

`apply_block` as the source has it: statements on an open SQL transaction, loops that break with
`result = false` in the middle of their work, and `COMMIT` or `ROLLBACK` at the end.  What they come to
is a step on a map from outputs to addresses and amounts (`Ledger`), taken whole or not at all
(`applyBlock_atomic`).
-/

namespace Mermai

open Sql

/-! ## Statements -/

/-- A connection: the tables, and the tables to go back to while a transaction is open. -/
structure Connection where
  db : Db
  begun : Option Db := none

namespace Connection

/-- `BEGIN IMMEDIATE TRANSACTION`. -/
def beginTransaction (conn : Connection) : Bool × Connection :=
  if conn.begun.isSome then (false, conn) else (true, { conn with begun := some conn.db })

/-- `COMMIT`. -/
def commitTransaction (conn : Connection) : Bool × Connection :=
  (conn.begun.isSome, { conn with begun := none })

/-- `ROLLBACK`. -/
def rollback (conn : Connection) : Bool × Connection :=
  match conn.begun with
  | none => (false, conn)
  | some db => (true, { db, begun := none })

end Connection

/-- A statement on `utxos`: it changes the table or fails. -/
def Db.onUtxos (db : Db) : Option Utxos → Bool × Db
  | none => (false, db)
  | some utxos => (true, { db with utxos })

/-- The loop of `apply_block` over the inputs. -/
def Db.spendLoop (db : Db) (inputs : List TxInput) : Bool × Db :=
  Run.breakLoop (fun db i => db.onUtxos (spendUnspentOutput db.utxos i.prevTxHash i.prevOutputIdx))
    db inputs

/-- The loop of `apply_block` over the outputs. -/
def Db.saveLoop (db : Db) (txId : Bytes) (outputs : List TxOutput) : Bool × Db :=
  Run.breakLoop (fun db o => db.onUtxos (saveUnspentOutput db.utxos txId (UInt32.ofNat o.2) o.1))
    db outputs.zipIdx

/-- The `if` of `apply_block` on the inputs. -/
def Db.takeInputs (C : Crypto) (now : ℕ) (db : Db) (tx : Transaction) : Bool × Db :=
  if tx.inputs ≠ [] then
    if ¬ validateTransactionInputs C now db.utxos tx then (false, db) else db.spendLoop tx.inputs
  else (true, db)

/-- The rest of a round of `apply_block`; what `remove_from_mempool` returns is not looked at. -/
def Db.putOutputs (C : Crypto) (db : Db) (tx : Transaction) : Bool × Db :=
  let r := db.saveLoop (tx.rowId C) tx.outputs
  if ¬ r.1 then (false, r.2)
  else (true, { r.2 with mempool := removeFromMempool C r.2.mempool tx })

/-- One round of the loop of `apply_block`. -/
def Db.round (C : Crypto) (now : ℕ) (db : Db) (tx : Transaction) : Bool × Db :=
  let r := db.takeInputs C now tx
  if ¬ r.1 then (false, r.2) else r.2.putOutputs C tx

/-- `apply_block` on a non-null block. -/
def Connection.applyBlock (C : Crypto) (now : ℕ) (conn : Connection) (b : Block) :
    Bool × Connection :=
  let (begun, conn) := conn.beginTransaction
  if ¬ begun then (false, conn)
  else
    let (result, db) := Run.breakLoop (Db.round C now) conn.db b.transactions
    -- `save_block` cannot violate a constraint, so `result` stays
    let db := if result then saveBlock C db b else db
    let conn := { conn with db }
    let (done, conn) := if result then conn.commitTransaction else conn.rollback
    (result && done, conn)

/-! ## What the statements do -/

section Statements

variable (C : Crypto) (now : ℕ)

theorem onUtxos_follows (db : Db) (o : Option Utxos) :
    Run.Follows (db.onUtxos o) (o.map fun utxos => { db with utxos }) := by
  cases o <;> rfl

/-- A loop of statements on `utxos` does what a run of them does. -/
theorem breakLoop_onUtxos {ι : Type} (step : Utxos → ι → Option Utxos) (db : Db) (l : List ι) :
    Run.Follows (Run.breakLoop (fun db i => db.onUtxos (step db.utxos i)) db l)
      ((l.foldlM step db.utxos).map fun utxos => { db with utxos }) := by
  have hview : (l.foldlM step db.utxos).map (fun utxos => ({ db with utxos } : Db)) =
      l.foldlM (fun (d : Db) i => (step d.utxos i).map fun utxos => ({ d with utxos } : Db)) db :=
    Run.foldlM_refines (fun utxos => ({ db with utxos } : Db)) (fun _ _ _ => rfl) db.utxos
  rw [hview]
  exact Run.breakLoop_follows (fun d i => onUtxos_follows d (step d.utxos i)) db l

theorem spendLoop_follows (db : Db) (inputs : List TxInput) :
    Run.Follows (db.spendLoop inputs)
      ((spendInputs db.utxos inputs).map fun utxos => { db with utxos }) :=
  breakLoop_onUtxos _ db inputs

/-- The loop over the outputs as a run over their numbers. -/
theorem saveOutputs_eq_foldlM (txId : Bytes) (t : Utxos) (n : ℕ) (os : List TxOutput) :
    saveOutputs txId t n os = (os.zipIdx n).foldlM
      (fun t o => saveUnspentOutput t txId (UInt32.ofNat o.2) o.1) t := by
  induction os generalizing t n with
  | nil => rfl
  | cons o os ih =>
    rw [saveOutputs, List.zipIdx_cons, List.foldlM_cons]
    congr 1
    funext t'
    exact ih t' (n + 1)

theorem saveLoop_follows (db : Db) (txId : Bytes) (outputs : List TxOutput) :
    Run.Follows (db.saveLoop txId outputs)
      ((saveOutputs txId db.utxos 0 outputs).map fun utxos => { db with utxos }) := by
  rw [saveOutputs_eq_foldlM]
  exact breakLoop_onUtxos _ db outputs.zipIdx

/-- What the `if` on the inputs leaves of the table. -/
theorem takeInputs_follows (db : Db) (tx : Transaction) :
    Run.Follows (db.takeInputs C now tx)
      ((if tx.inputs = [] then some db.utxos
        else if validateTransactionInputs C now db.utxos tx then spendInputs db.utxos tx.inputs
        else none).map fun utxos => { db with utxos }) := by
  unfold Db.takeInputs
  by_cases hin : tx.inputs = []
  · rw [if_neg (not_not.mpr hin), if_pos hin]
    rfl
  · rw [if_pos hin, if_neg hin]
    by_cases hval : validateTransactionInputs C now db.utxos tx = true
    · rw [if_neg (not_not.mpr hval), if_pos hval]
      exact spendLoop_follows db tx.inputs
    · rw [if_pos hval, if_neg hval]
      rfl

theorem applyTransaction_eq_bind (t : Utxos) (tx : Transaction) :
    applyTransaction C now t tx =
      (if tx.inputs = [] then some t
        else if validateTransactionInputs C now t tx then spendInputs t tx.inputs
        else none).bind fun t => saveOutputs (tx.rowId C) t 0 tx.outputs := by
  unfold applyTransaction
  split_ifs <;> rfl

theorem putOutputs_follows (db : Db) (tx : Transaction) :
    Run.Follows (db.putOutputs C tx)
      ((saveOutputs (tx.rowId C) db.utxos 0 tx.outputs).map fun utxos =>
        { db with utxos, mempool := removeFromMempool C db.mempool tx }) := by
  have h : Run.Follows (db.putOutputs C tx) _ :=
    (saveLoop_follows db (tx.rowId C) tx.outputs).andThen
      (f := fun d => some { d with mempool := removeFromMempool C d.mempool tx }) fun _ => rfl
  rw [Option.bind_map] at h
  rwa [Option.map_eq_bind]

/-- One round: the table after the transaction, and the transaction gone from the mempool. -/
theorem round_follows (db : Db) (tx : Transaction) :
    Run.Follows (db.round C now tx) ((applyTransaction C now db.utxos tx).map fun utxos =>
      { db with utxos, mempool := removeFromMempool C db.mempool tx }) := by
  have h := (takeInputs_follows C now db tx).andThen
    fun d => putOutputs_follows C d tx
  rw [Option.bind_map] at h
  rw [applyTransaction_eq_bind, Option.map_bind]
  exact h

/-- The loop: the table after the transactions, and all of them gone from the mempool. -/
theorem rounds_follow (db : Db) (txs : List Transaction) :
    Run.Follows (Run.breakLoop (Db.round C now) db txs)
      ((applyTransactions C now db.utxos txs).map fun utxos =>
        { db with utxos, mempool := txs.foldl (removeFromMempool C) db.mempool }) := by
  have hrun := Run.breakLoop_follows (round_follows C now) db txs
  suffices heq : txs.foldlM (fun (d : Db) tx => (applyTransaction C now d.utxos tx).map fun utxos =>
      ({ d with utxos, mempool := removeFromMempool C d.mempool tx } : Db)) db =
      (applyTransactions C now db.utxos txs).map fun utxos =>
        { db with utxos, mempool := txs.foldl (removeFromMempool C) db.mempool } by
    rwa [← heq]
  clear hrun
  induction txs generalizing db with
  | nil => rfl
  | cons tx txs ih =>
    rw [List.foldlM_cons, applyTransactions, List.foldlM_cons]
    cases applyTransaction C now db.utxos tx with
    | none => rfl
    | some t => exact ih { db with utxos := t, mempool := removeFromMempool C db.mempool tx }

end Statements

/-- **Atomicity** of the statements: with `ROLLBACK` after a loop that broke, `apply_block` does what
`applyBlock` does, and leaves no transaction open. -/
theorem Connection.applyBlock_eq (C : Crypto) (now : ℕ) (db : Db) (b : Block) :
    Connection.applyBlock C now { db } b =
      ((Mermai.applyBlock C now db b).1, { db := (Mermai.applyBlock C now db b).2 }) := by
  have hloop := rounds_follow C now db b.transactions
  unfold Connection.applyBlock Mermai.applyBlock
  cases happly : applyTransactions C now db.utxos b.transactions with
  | none =>
    rw [happly] at hloop
    replace hloop : (Run.breakLoop (Db.round C now) db b.transactions).1 = false := hloop
    simp only [beginTransaction, Option.isSome_none, Bool.false_eq_true, if_false, not_true_eq_false]
    rw [hloop]
    rfl
  | some utxos =>
    rw [happly] at hloop
    replace hloop : Run.breakLoop (Db.round C now) db b.transactions =
      (true, { db with utxos, mempool := b.transactions.foldl (removeFromMempool C) db.mempool }) :=
      hloop
    simp only [beginTransaction, Option.isSome_none, Bool.false_eq_true, if_false, not_true_eq_false]
    rw [hloop]
    rfl

/-! ## The ledger -/

/-- What the table of unspent outputs is for: the outputs that can be spent, with the address and the
amount of each. -/
abbrev Ledger := Bytes × UInt32 → Option (Bytes × ℕ)

namespace Ledger

/-- The amount of an output; an output that is not there has none. -/
def amount (L : Ledger) (k : Bytes × UInt32) : ℕ := (L k).elim 0 Prod.snd

/-- An output goes, if it is there. -/
def spend (L : Ledger) (k : Bytes × UInt32) : Option Ledger :=
  if L k = none then none else some (Function.update L k none)

/-- An output comes, if it has an address and a positive amount that fits a column, and is new. -/
def create (L : Ledger) (k : Bytes × UInt32) (o : TxOutput) : Option Ledger :=
  if o.address ≠ [] ∧ 1 ≤ o.amount.toNat ∧ o.amount.toNat ≤ 2 ^ 63 - 1 ∧ L k = none then
    some (Function.update L k (some (o.address, o.amount.toNat)))
  else none

/-- The output of an input is there and has the address of its key. -/
def Owns (C : Crypto) (L : Ledger) (i : TxInput) : Prop :=
  addressFromPublicKey C i.publicKey ≠ [] ∧
    ∃ v, L i.outpoint = some (addressFromPublicKey C i.publicKey, v)

/-- What a transaction with inputs has to meet: it verifies, it may spend what it names, and that is
its fee and its outputs to the last unit, in 64 bits. -/
structure Pays (C : Crypto) (now : ℕ) (L : Ledger) (tx : Transaction) : Prop where
  verified : tx.Verified C now
  owns : ∀ i ∈ tx.inputs, Owns C L i
  balance : (tx.inputs.map fun i => L.amount i.outpoint).sum = tx.fee.toNat + tx.outputSum
  fits : tx.fee.toNat + tx.outputSum < 2 ^ 64

open Classical in
/-- One transaction: its inputs go one by one, then its outputs come one by one. -/
noncomputable def apply (C : Crypto) (now : ℕ) (L : Ledger) (tx : Transaction) : Option Ledger :=
  if tx.inputs = [] ∨ Pays C now L tx then do
    let L ← tx.inputs.foldlM (fun L i => spend L i.outpoint) L
    tx.outputs.zipIdx.foldlM (fun L o => create L (tx.rowId C, UInt32.ofNat o.2) o.1) L
  else none

end Ledger

/-! ## The table as a ledger -/

/-- The table as a map. -/
def ledger (t : Utxos) : Ledger :=
  fun k => (t.lookup (k.1, k.2.toInt32)).map fun u => (u.address, u.value)

theorem ledger_eq_none {t : Utxos} {k : Bytes × UInt32} :
    ledger t k = none ↔ (k.1, k.2.toInt32) ∉ t := by
  rw [ledger, Option.map_eq_none_iff, AList.lookup_eq_none]

/-- Keys of the map that differ are different keys of the table. -/
theorem tableKey_inj {k l : Bytes × UInt32} (h : (k.1, k.2.toInt32) = (l.1, l.2.toInt32)) :
    k = l := by
  obtain ⟨hid, hindex⟩ := Prod.mk.inj h
  exact Prod.ext hid (toInt32_inj hindex)

theorem ledger_erase (t : Utxos) (k : Bytes × UInt32) :
    ledger (t.erase (k.1, k.2.toInt32)) = Function.update (ledger t) k none := by
  funext l
  by_cases hl : l = k
  · subst hl
    rw [Function.update_self, ledger, AList.lookup_erase]
    rfl
  · rw [Function.update_of_ne hl, ledger, AList.lookup_erase_ne fun h => hl (tableKey_inj h)]
    rfl

theorem ledger_insert (t : Utxos) (k : Bytes × UInt32) (u : Utxo) :
    ledger (t.insert (k.1, k.2.toInt32) u) =
      Function.update (ledger t) k (some (u.address, u.value)) := by
  funext l
  by_cases hl : l = k
  · subst hl
    rw [Function.update_self, ledger, AList.lookup_insert]
    rfl
  · rw [Function.update_of_ne hl, ledger, AList.lookup_insert_ne fun h => hl (tableKey_inj h)]
    rfl

/-! ## Statements on the ledger -/

theorem outKey_of_notMem {txId : Bytes} (h : 0 ∉ txId) (index : UInt32) :
    outKey txId index = (txId, index.toInt32) := by
  rw [outKey, cText_of_notMem h]

theorem spendUnspentOutput_ledger {t : Utxos} {txId : Bytes} {index : UInt32} (h : 0 ∉ txId) :
    (spendUnspentOutput t txId index).map ledger = (ledger t).spend (txId, index) := by
  rw [spendUnspentOutput, outKey_of_notMem h, Ledger.spend, deleteRow]
  by_cases hk : (txId, index.toInt32) ∈ t
  · rw [if_pos hk, if_neg (fun hnone => ledger_eq_none.mp hnone hk), Option.map_some,
      ← ledger_erase t (txId, index)]
  · rw [if_neg hk, if_pos (ledger_eq_none.mpr hk)]
    rfl

/-- The amounts that `CHECK(amount > 0)` lets in. -/
theorem toInt64_pos_iff {a : UInt64} : 0 < a.toInt64 ↔ 1 ≤ a.toNat ∧ a.toNat ≤ 2 ^ 63 - 1 := by
  have hbv : a.toInt64.toInt = a.toBitVec.toInt := rfl
  have hnat : a.toBitVec.toNat = a.toNat := rfl
  have hlt := a.toNat_lt
  rw [Int64.lt_iff_toInt_lt, hbv, BitVec.toInt_eq_toNat_cond, hnat]
  show 0 < _ ↔ _
  split_ifs <;> omega

theorem saveUnspentOutput_ledger {t : Utxos} {txId : Bytes} {index : UInt32} {o : TxOutput}
    (hid : txId ≠ []) (h : 0 ∉ txId) (ho : 0 ∉ o.address) :
    (saveUnspentOutput t txId index o).map ledger = (ledger t).create (txId, index) o := by
  have hzero : o.amount = 0 ↔ o.amount.toNat = 0 := by
    rw [← UInt64.toNat_inj]
    rfl
  unfold saveUnspentOutput Ledger.create
  by_cases hpos : 0 < o.amount.toInt64
  · have hrange := toInt64_pos_iff.mp hpos
    have hne : o.amount ≠ 0 := by
      rw [Ne, hzero]
      omega
    by_cases haddr : o.address = []
    · rw [if_pos (.inr (.inl haddr)), if_neg (fun hc => hc.1 haddr)]
      rfl
    · rw [if_neg (by simp [hid, haddr, hne]), dif_pos hpos, outKey_of_notMem h, insertNew]
      by_cases hk : (txId, index.toInt32) ∈ t
      · rw [if_pos hk, if_neg (fun hc => ledger_eq_none.mp hc.2.2.2 hk)]
        rfl
      · rw [if_neg hk, if_pos ⟨haddr, hrange.1, hrange.2, ledger_eq_none.mpr hk⟩, Option.map_some,
          ledger_insert t (txId, index), cText_of_notMem ho, ← Utxo.toUInt64_amount]
        rfl
  · rw [dif_neg hpos, ite_self, if_neg fun hc => hpos (toInt64_pos_iff.mpr ⟨hc.2.1, hc.2.2.1⟩)]
    rfl

/-! ## Validation on the ledger -/

section Validation

variable {C : Crypto} {now : ℕ} {t : Utxos}

/-- The row of an input as the ledger has it. -/
theorem ledger_outpoint {i : TxInput} (h : 0 ∉ i.prevTxHash) :
    ledger t i.outpoint = (t.lookup i.key).map fun u => (u.address, u.value) := by
  rw [TxInput.key, outKey_of_notMem h]
  rfl

theorem amount_ledger {i : TxInput} (h : 0 ∉ i.prevTxHash) :
    (ledger t).amount i.outpoint = spentValue t i := by
  rw [Ledger.amount, ledger_outpoint h, spentValue]
  cases t.lookup i.key <;> rfl

theorem owns_ledger {i : TxInput} (h : 0 ∉ i.prevTxHash) :
    Ledger.Owns C (ledger t) i ↔ ∃ u, t.lookup i.key = some u ∧ u.address ≠ [] ∧
      addressFromPublicKey C i.publicKey = u.address ∧ spentValue t i = u.value := by
  rw [Ledger.Owns, ledger_outpoint h, spentValue]
  cases t.lookup i.key with
  | none => simp
  | some u =>
    constructor
    · rintro ⟨hne, v, hrow⟩
      have haddr : u.address = addressFromPublicKey C i.publicKey :=
        congrArg Prod.fst (Option.some.inj hrow)
      exact ⟨u, rfl, haddr ▸ hne, haddr.symm, rfl⟩
    · rintro ⟨u', hu', hne, haddr, -⟩
      cases hu'
      rw [haddr]
      exact ⟨hne, u.value, rfl⟩

/-- `validate_transaction_inputs` decides `Pays`. -/
theorem validateTransactionInputs_ledger {tx : Transaction}
    (h : ∀ i ∈ tx.inputs, 0 ∉ i.prevTxHash) :
    validateTransactionInputs C now t tx = true ↔ Ledger.Pays C now (ledger t) tx := by
  have hamounts : (tx.inputs.map fun i => (ledger t).amount i.outpoint) =
      tx.inputs.map (spentValue t) :=
    List.map_congr_left fun i hi => amount_ledger (h i hi)
  rw [validateTransactionInputs_iff]
  constructor
  · rintro ⟨hvalid, hfits⟩
    exact ⟨hvalid.verified, fun i hi => (owns_ledger (h i hi)).mpr (hvalid.rows i hi),
      (congrArg List.sum hamounts).trans hvalid.balance, hfits⟩
  · intro hpays
    exact ⟨⟨hpays.verified, fun i hi => (owns_ledger (h i hi)).mp (hpays.owns i hi),
      (congrArg List.sum hamounts).symm.trans hpays.balance⟩, hpays.fits⟩

end Validation

/-! ## One step of the ledger -/

/-- No identifier and no address of the block holds a NUL byte. -/
def Block.TextNulFree (b : Block) : Prop :=
  b.NulFree ∧ ∀ tx ∈ b.transactions, ∀ o ∈ tx.outputs, 0 ∉ o.address

instance (b : Block) : Decidable b.TextNulFree :=
  inferInstanceAs (Decidable (_ ∧ ∀ tx ∈ _, ∀ o ∈ _, _))

theorem rowId_ne_nil (C : Crypto) (tx : Transaction) : tx.rowId C ≠ [] := by
  unfold Transaction.rowId
  split_ifs with h
  · exact IsDigest.ne_nil ⟨tx.serialize, rfl⟩
  · exact h

/-- **Refinement**: a round of `apply_block` on the table is a transaction on the ledger. -/
theorem applyTransaction_ledger (C : Crypto) (now : ℕ) (t : Utxos) {tx : Transaction}
    (hid : 0 ∉ tx.id) (hin : ∀ i ∈ tx.inputs, 0 ∉ i.prevTxHash)
    (hout : ∀ o ∈ tx.outputs, 0 ∉ o.address) :
    (applyTransaction C now t tx).map ledger = (ledger t).apply C now tx := by
  have hspend : ∀ s : Utxos, (spendInputs s tx.inputs).map ledger =
      tx.inputs.foldlM (fun L i => Ledger.spend L i.outpoint) (ledger s) := by
    intro s
    refine Run.foldlM_refines ledger ?_ s
    intro s i hi
    exact spendUnspentOutput_ledger (hin i hi)
  have hsave : ∀ s : Utxos, (saveOutputs (tx.rowId C) s 0 tx.outputs).map ledger =
      tx.outputs.zipIdx.foldlM (fun L o => Ledger.create L (tx.rowId C, UInt32.ofNat o.2) o.1)
        (ledger s) := by
    intro s
    rw [saveOutputs_eq_foldlM]
    refine Run.foldlM_refines ledger ?_ s
    intro s o ho
    exact saveUnspentOutput_ledger (rowId_ne_nil C tx) (zero_notMem_rowId hid)
      (hout o.1 (List.fst_mem_of_mem_zipIdx ho))
  unfold applyTransaction Ledger.apply
  by_cases hnil : tx.inputs = []
  · rw [if_pos hnil, if_pos (.inl hnil), hsave, hnil]
    rfl
  · rw [if_neg hnil]
    by_cases hpays : Ledger.Pays C now (ledger t) tx
    · rw [if_pos ((validateTransactionInputs_ledger hin).mpr hpays), if_pos (.inr hpays),
        ← hspend t]
      cases spendInputs t tx.inputs with
      | none => rfl
      | some s => exact hsave s
    · rw [if_neg (mt (validateTransactionInputs_ledger hin).mp hpays),
        if_neg (not_or.mpr ⟨hnil, hpays⟩)]
      rfl

/-- The transactions of a block on the ledger, in order. -/
theorem applyTransactions_ledger (C : Crypto) (now : ℕ) (t : Utxos) {b : Block}
    (h : b.TextNulFree) : (applyTransactions C now t b.transactions).map ledger =
      b.transactions.foldlM (Ledger.apply C now) (ledger t) := by
  refine Run.foldlM_refines ledger ?_ t
  intro s tx htx
  exact applyTransaction_ledger C now s (h.1 tx htx).1 (h.1 tx htx).2 (h.2 tx htx)

theorem lookup_removeFromMempool (C : Crypto) (txs : List Transaction) (t : Table Bytes MempoolRow)
    (h : ∀ tx ∈ txs, 0 ∉ tx.id) (id : Bytes) :
    (txs.foldl (removeFromMempool C) t).lookup id =
      if id ∈ txs.map (Transaction.rowId C) then none else t.lookup id := by
  induction txs using List.reverseRecOn with
  | nil => simp
  | append_singleton txs tx ih =>
    have ih' := ih fun tx' htx' => h tx' (by simp [htx'])
    have hid : cText (tx.rowId C) = tx.rowId C :=
      cText_of_notMem (zero_notMem_rowId (h tx (by simp)))
    rw [List.foldl_append, List.foldl_cons, List.foldl_nil, removeFromMempool, hid, List.map_append,
      List.map_singleton]
    by_cases heq : id = tx.rowId C
    · subst heq
      rw [AList.lookup_erase, if_pos (by simp)]
    · rw [AList.lookup_erase_ne heq, ih']
      simp [heq]

/-- The row of a transaction of a stored block. -/
def transactionRow (C : Crypto) (b : Block) (tx : Transaction) : TransactionRow :=
  ⟨some (b.hashHex C), tx.serialize, tx.timestamp.toInt64⟩

theorem lookup_saveTransaction_foldl (C : Crypto) {b : Block} (h : b.NulFree)
    (t : Table Bytes TransactionRow) (id : Bytes) :
    (b.transactions.foldl (saveTransaction C (b.hashHex C)) t).lookup id =
      (Run.written (b.transactions.map fun tx => (tx.rowId C, transactionRow C b tx)) id).or
        (t.lookup id) := by
  have hhash : cText (b.hashHex C) = b.hashHex C := cText_of_notMem (zero_notMem_hashToHex _)
  have hids : ∀ tx ∈ b.transactions, cText (tx.rowId C) = tx.rowId C := fun tx htx =>
    cText_of_notMem (zero_notMem_rowId (h tx htx).1)
  generalize b.transactions = txs at hids ⊢
  induction txs using List.reverseRecOn with
  | nil => rfl
  | append_singleton txs tx ih =>
    have ih' := ih fun tx' htx' => hids tx' (by simp [htx'])
    rw [List.foldl_append, List.foldl_cons, List.foldl_nil, saveTransaction, hhash,
      hids tx (by simp), List.map_append, List.map_singleton, Run.written_concat]
    by_cases heq : id = tx.rowId C
    · rw [if_pos heq, heq, AList.lookup_insert]
      rfl
    · rw [if_neg heq, AList.lookup_insert_ne heq, ih']

/-- The tables around `utxos` after a block is stored: its transactions are gone from the mempool, its
row and theirs are written, and nothing else changes. -/
structure BlockStored (C : Crypto) (b : Block) (db db' : Db) : Prop where
  mempool : ∀ id, db'.mempool.lookup id =
    if id ∈ b.transactions.map (Transaction.rowId C) then none else db.mempool.lookup id
  block : db'.blocks = db.blocks.insertOrReplace (blockRow C b)
  transactions : ∀ id, db'.transactions.lookup id =
    (Run.written (b.transactions.map fun tx => (tx.rowId C, transactionRow C b tx)) id).or
      (db.transactions.lookup id)
  validators : db'.validators = db.validators
  accounts : db'.accounts = db.accounts
  stateRoots : db'.stateRoots = db.stateRoots

theorem saveBlock_stored (C : Crypto) {b : Block} (h : b.TextNulFree) (db : Db) (utxos : Utxos) :
    BlockStored C b db (saveBlock C
      { db with utxos, mempool := b.transactions.foldl (removeFromMempool C) db.mempool } b) where
  mempool := lookup_removeFromMempool C b.transactions db.mempool fun tx htx => (h.1 tx htx).1
  block := rfl
  transactions := lookup_saveTransaction_foldl C h.1 db.transactions
  validators := rfl
  accounts := rfl
  stateRoots := rfl

/-- **One step of the ledger, or none**: `apply_block` returns true exactly when the transactions of
the block can be taken in order on the ledger.  Then it has taken them and stored the block, and
otherwise every table is as before; no transaction stays open. -/
theorem applyBlock_atomic (C : Crypto) (now : ℕ) (db : Db) (b : Block) (h : b.TextNulFree) :
    match b.transactions.foldlM (Ledger.apply C now) (ledger db.utxos) with
    | some L => ∃ db', Connection.applyBlock C now { db } b = (true, { db := db' }) ∧
        ledger db'.utxos = L ∧ BlockStored C b db db'
    | none => Connection.applyBlock C now { db } b = (false, { db }) := by
  rw [← applyTransactions_ledger C now db.utxos h, Connection.applyBlock_eq, applyBlock]
  cases applyTransactions C now db.utxos b.transactions with
  | none => rfl
  | some utxos => exact ⟨_, rfl, rfl, saveBlock_stored C h db utxos⟩

theorem applyBlock_atomic_payment :
    ∃ L db', (paymentBlock [118]).transactions.foldlM (Ledger.apply polyCrypto 5) (ledger ∅) =
        some L ∧
      Connection.applyBlock polyCrypto 5 { db := {} } (paymentBlock [118]) =
        (true, { db := db' }) ∧
      ledger db'.utxos = L ∧ BlockStored polyCrypto (paymentBlock [118]) {} db' := by
  have hnul : (paymentBlock [118]).TextNulFree := by decide +kernel
  have hok : (Connection.applyBlock polyCrypto 5 { db := {} } (paymentBlock [118])).1 = true := by
    decide +kernel
  have hstep := applyBlock_atomic polyCrypto 5 {} (paymentBlock [118]) hnul
  cases hL : (paymentBlock [118]).transactions.foldlM (Ledger.apply polyCrypto 5) (ledger ∅) with
  | none =>
    rw [hL] at hstep
    rw [show Connection.applyBlock polyCrypto 5 { db := {} } (paymentBlock [118]) = _ from hstep]
      at hok
    cases hok
  | some L =>
    rw [hL] at hstep
    obtain ⟨db', hstep⟩ := hstep
    exact ⟨L, db', rfl, hstep⟩

end Mermai
