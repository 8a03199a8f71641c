import Mermai.Db.Utxo
import Mermai.Core.FormatLaws
import Mermai.Consensus.Stake
import Mathlib.Data.List.Sort

/-!
# Db.Store — the database of a node

The tables of `mermai_db` and the functions the node calls on them.  `apply_block` runs inside one
SQL transaction: `applyBlock` returns the database unchanged when a step fails.  The accounts and the
state roots are tables that none of these functions touches; the contracts and the weights of the
validators are the RPC server's.
-/

namespace Mermai

open Sql

/-! ## Tables -/

/-- A row of `blocks`. -/
structure BlockRow where
  hash : Bytes
  height : Int32
  previousHash : Bytes
  timestamp : Int64
  serialized : Bytes
deriving DecidableEq

/-- A row of `transactions` without its id. -/
structure TransactionRow where
  blockHash : Option Bytes
  serialized : Bytes
  timestamp : Int64

/-- A row of `mempool` without its id. -/
structure MempoolRow where
  serialized : Bytes
  timestamp : Int64

/-- A row of `validators` without its address. -/
structure ValidatorRow where
  amount : Int64
  lockTime : Int64
  lastProposal : Int64
  publicKey : Bytes

/-- A row of `accounts` without its address. -/
structure AccountRow where
  balance : Int64
  nonce : Int32
  lastActivity : Int64

/-- `blocks` with `hash TEXT PRIMARY KEY` and `height INTEGER NOT NULL UNIQUE`. -/
abbrev Blocks := UniqueTable BlockRow.hash BlockRow.height

structure Db where
  blocks : Blocks := .empty
  transactions : Table Bytes TransactionRow := ∅
  utxos : Utxos := ∅
  mempool : Table Bytes MempoolRow := ∅
  validators : Table Bytes ValidatorRow := ∅
  accounts : Table Bytes AccountRow := ∅
  /-- `block_height INTEGER PRIMARY KEY` and the root. -/
  stateRoots : Table Int32 Bytes := ∅

/-! ## Blocks and transactions -/

/-- The row `save_block` writes. -/
def blockRow (C : Crypto) (b : Block) : BlockRow where
  hash := cText (b.hashHex C)
  height := b.height.toInt32
  previousHash := cText b.prevBlockHash
  timestamp := b.timestamp.toInt64
  serialized := b.serialize

/-- `save_transaction`, and the `UPDATE` of `save_block` that follows it. -/
def saveTransaction (C : Crypto) (blockHash : Bytes) (t : Table Bytes TransactionRow)
    (tx : Transaction) : Table Bytes TransactionRow :=
  t.insert (cText (tx.rowId C)) ⟨some (cText blockHash), tx.serialize, tx.timestamp.toInt64⟩

/-- `save_block`: no statement of it can violate a constraint. -/
def saveBlock (C : Crypto) (db : Db) (b : Block) : Db :=
  { db with blocks := db.blocks.insertOrReplace (blockRow C b)
            transactions := b.transactions.foldl (saveTransaction C (b.hashHex C)) db.transactions }

/-- `add_to_mempool`. -/
def addToMempool (C : Crypto) (db : Db) (tx : Transaction) : Db :=
  { db with mempool := db.mempool.insert (cText (tx.rowId C)) ⟨tx.serialize, tx.timestamp.toInt64⟩ }

/-- `remove_from_mempool`. -/
def removeFromMempool (C : Crypto) (t : Table Bytes MempoolRow) (tx : Transaction) :
    Table Bytes MempoolRow := t.erase (cText (tx.rowId C))

/-- `apply_block` on a non-null block: the verdict and the database after it. -/
def applyBlock (C : Crypto) (now : ℕ) (db : Db) (b : Block) : Bool × Db :=
  match applyTransactions C now db.utxos b.transactions with
  | none => (false, db)
  | some utxos =>
    let mempool := b.transactions.foldl (removeFromMempool C) db.mempool
    (true, saveBlock C { db with utxos, mempool } b)

/-- `get_block_by_height`; a blob that does not decode is no block. -/
def getBlockByHeight (db : Db) (height : UInt32) : Option Block :=
  match db.blocks.select height.toInt32 with
  | none => none
  | some row => (Block.deserialize row.serialized).toOption

/-- `get_block_by_hash`. -/
def getBlockByHash (db : Db) (hash : Bytes) : Option Block :=
  match db.blocks.rows.find? fun row => row.hash = cText hash with
  | none => none
  | some row => (Block.deserialize row.serialized).toOption

/-- `get_latest_block_height`: the largest height as a signed number. -/
def getLatestBlockHeight (db : Db) : UInt32 :=
  (Int32.ofInt ((db.blocks.rows.map fun r => r.height.toInt).max?.getD 0)).toUInt32

/-! ## Validators -/

/-- `save_validator`. -/
def saveValidator (db : Db) (v : ValidatorStake) : Db :=
  let row := ⟨v.amount.toInt64, v.lockTime.toInt64, v.lastProposal.toInt64, v.publicKey⟩
  { db with validators := db.validators.insert (cText v.address) row }

/-- `remove_validator`. -/
def removeValidator (db : Db) (address : Bytes) : Db :=
  { db with validators := db.validators.erase (cText address) }

/-- A row as `get_all_validators` reads it. -/
def ValidatorRow.toStake (address : Bytes) (r : ValidatorRow) : ValidatorStake :=
  ⟨address, r.amount.toUInt64, r.lockTime.toUInt64, r.lastProposal.toUInt64, r.publicKey⟩

/-- `get_all_validators`: ordered by address. -/
def getAllValidators (db : Db) : List ValidatorStake :=
  (db.validators.entries.map fun e => e.2.toStake e.1).insertionSort
    fun v w => v.address ≤ w.address

/-! ## Heights and hashes as columns -/

theorem toInt32_inj {a b : UInt32} (h : a.toInt32 = b.toInt32) : a = b :=
  congrArg Int32.toUInt32 h

theorem toInt_toInt32 {h : UInt32} (hlt : h.toNat < 2 ^ 31) : h.toInt32.toInt = h.toNat := by
  have hbv : h.toInt32.toInt = h.toBitVec.toInt := rfl
  have hnat : h.toBitVec.toNat = h.toNat := rfl
  rw [hbv, BitVec.toInt_eq_toNat_cond, hnat, if_pos (by omega)]

/-- Two blocks whose rows share a hash have the same height. -/
theorem height_of_rowHash {C : Crypto} {S : Set Bytes} (hfree : C.CollisionFreeOn S)
    {b c : Block} (hb : b.serialize ∈ S) (hc : c.serialize ∈ S)
    (h : (blockRow C b).hash = (blockRow C c).hash) : b.height = c.height := by
  simp only [blockRow, Block.hashHex, cText_of_notMem (zero_notMem_hashToHex _)] at h
  exact Block.height_of_serialize (hfree _ hb _ hc (hashToHex_injective h))

/-! ## What `apply_block` does -/

/-- **Inversion** of a committed `apply_block`: the coins of its transactions, and the rows of the block. -/
theorem applyBlock_committed {C : Crypto} {now : ℕ} {db : Db} {b : Block}
    (h : (applyBlock C now db b).1 = true) :
    ∃ utxos, applyTransactions C now db.utxos b.transactions = some utxos ∧
      (applyBlock C now db b).2 = saveBlock C
        { db with utxos, mempool := b.transactions.foldl (removeFromMempool C) db.mempool } b := by
  unfold applyBlock at h ⊢
  cases hu : applyTransactions C now db.utxos b.transactions with
  | none =>
    rw [hu] at h
    cases h
  | some utxos => exact ⟨utxos, rfl, rfl⟩

theorem applyBlock_eq_true {C : Crypto} {now : ℕ} {db : Db} {b : Block}
    (h : (applyBlock C now db b).1 = true) :
    applyTransactions C now db.utxos b.transactions = some (applyBlock C now db b).2.utxos ∧
      (applyBlock C now db b).2.blocks = db.blocks.insertOrReplace (blockRow C b) ∧
      (applyBlock C now db b).2.validators = db.validators := by
  obtain ⟨utxos, hutxos, heq⟩ := applyBlock_committed h
  rw [heq]
  exact ⟨hutxos, rfl, rfl⟩

theorem applyBlock_transactions {C : Crypto} {now : ℕ} {db : Db} {b : Block}
    (h : (applyBlock C now db b).1 = true) :
    (applyBlock C now db b).2.transactions =
      b.transactions.foldl (saveTransaction C (b.hashHex C)) db.transactions := by
  obtain ⟨utxos, -, heq⟩ := applyBlock_committed h
  rw [heq]
  rfl

theorem applyBlock_mempool {C : Crypto} {now : ℕ} {db : Db} {b : Block}
    (h : (applyBlock C now db b).1 = true) :
    (applyBlock C now db b).2.mempool = b.transactions.foldl (removeFromMempool C) db.mempool := by
  obtain ⟨utxos, -, heq⟩ := applyBlock_committed h
  rw [heq]
  rfl

theorem mem_saveTransactions {C : Crypto} {h : Bytes} {txs : List Transaction}
    {t : Table Bytes TransactionRow} {k : Bytes} :
    k ∈ txs.foldl (saveTransaction C h) t ↔ k ∈ t ∨ ∃ tx ∈ txs, k = cText (tx.rowId C) := by
  induction txs generalizing t with
  | nil => simp
  | cons tx txs ih =>
    rw [List.foldl_cons, ih, saveTransaction, AList.mem_insert]
    simp only [List.mem_cons, exists_eq_or_imp]
    tauto

/-- The ids in the table after a committed block. -/
theorem mem_applyBlock_transactions {C : Crypto} {now : ℕ} {db : Db} {b : Block}
    (h : (applyBlock C now db b).1 = true) {k : Bytes} :
    k ∈ (applyBlock C now db b).2.transactions ↔
      k ∈ db.transactions ∨ ∃ tx ∈ b.transactions, k = cText (tx.rowId C) := by
  rw [applyBlock_transactions h, mem_saveTransactions]

/-- `apply_block` writes neither accounts nor state roots. -/
theorem applyBlock_frame (C : Crypto) (now : ℕ) (db : Db) (b : Block) :
    (applyBlock C now db b).2.accounts = db.accounts ∧
      (applyBlock C now db b).2.stateRoots = db.stateRoots := by
  unfold applyBlock
  cases applyTransactions C now db.utxos b.transactions <;> exact ⟨rfl, rfl⟩

/-- A call that does not commit leaves the database as it is. -/
theorem applyBlock_eq_false {C : Crypto} {now : ℕ} {db : Db} {b : Block}
    (h : (applyBlock C now db b).1 = false) : (applyBlock C now db b).2 = db := by
  unfold applyBlock at h ⊢
  cases hu : applyTransactions C now db.utxos b.transactions with
  | none => rfl
  | some utxos =>
    rw [hu] at h
    cases h

end Mermai
