import Mermai.Lib.Run
import Mermai.Node.Message

/-!
# Node.NoReplay — how often a signed transaction takes effect

The ids of transactions are free text, outputs are filed under them, and an id can be used again once
its outputs are spent.  `can_add_block` compares the ids inside one block, and `save_transaction`
replaces the row of an earlier transaction with the id.  As long as committed blocks only bring ids
that the `transactions` table does not hold (`FreshIds`), no transaction is committed twice; without
that a cycle of transactions that give each other's inputs back replays all of them.
-/

namespace Mermai

open Sql

variable {F : Type}

/-! ## Runs of offered blocks -/

/-- The transaction with all signatures cleared. -/
def Transaction.unsigned (tx : Transaction) : Transaction :=
  { tx with inputs := tx.inputs.map fun i => { i with signature := [] } }

/-- `can_add_block` accepts the block and `apply_block` commits it. -/
def Node.commits (C : Crypto) (fl : FloatOps F) (clock : ℕ → ℕ) (n : Node) (b : Block) : Bool :=
  (canAddBlock C fl (clock n.ticks) n.engine n.chain (some b)).ok &&
    (applyStored C (clock (n.ticks + 1)) n.db b).1

/-- Offer a block to the node and note the transactions it commits. -/
def offerBlock (C : Crypto) (fl : FloatOps F) (clock : ℕ → ℕ) (s : Node × List Transaction)
    (b : Block) : Node × List Transaction :=
  ((s.1.acceptBlock C fl clock b).2,
    if s.1.commits C fl clock b then s.2 ++ b.transactions else s.2)

/-- The node after a list of blocks, and the transactions it committed, in order. -/
def offerBlocks (C : Crypto) (fl : FloatOps F) (clock : ℕ → ℕ) (n : Node) (blocks : List Block) :
    Node × List Transaction :=
  blocks.foldl (offerBlock C fl clock) (n, [])

/-- No transaction of the block has an id that the `transactions` table holds. -/
def FreshIds (C : Crypto) (db : Option Db) (b : Block) : Prop :=
  ∀ d, db = some d → ∀ tx ∈ b.transactions, cText (tx.rowId C) ∉ d.transactions

/-! ## The database after a block -/

/-- The database after an offered block: that of `apply_block` when it commits, else the same. -/
theorem Node.acceptBlock_db (C : Crypto) (fl : FloatOps F) (clock : ℕ → ℕ) {n : Node} {db : Db}
    (hdb : n.db = some db) (b : Block) :
    (n.acceptBlock C fl clock b).2.db =
      some (if n.commits C fl clock b then (applyBlock C (clock (n.ticks + 1)) db b).2 else db) := by
  unfold Node.acceptBlock Node.commits
  rw [hdb]
  by_cases hok : (canAddBlock C fl (clock n.ticks) n.engine n.chain (some b)).ok = true
  · by_cases happly : (applyBlock C (clock (n.ticks + 1)) db b).1 = true
    · simp [applyStored, hok, happly]
    · simp [applyStored, hok, happly, applyBlock_eq_false (Bool.eq_false_iff.mpr happly)]
  · simp [hok]

/-! ## The invariant -/

/-- **Invariant**: the committed transactions have ids, their ids are in the table, and no two have
the same content. -/
structure CommittedOnce (C : Crypto) (s : Node × List Transaction) (db : Db) : Prop where
  stored : s.1.db = some db
  ids : ∀ tx ∈ s.2, tx.id ≠ [] ∧ cText tx.id ∈ db.transactions
  once : (s.2.map Transaction.unsigned).Nodup

theorem rowId_of_ne_nil {C : Crypto} {tx : Transaction} (h : tx.id ≠ []) : tx.rowId C = tx.id :=
  if_neg h

/-- **Step lemma**: an offered block that only commits fresh ids keeps the invariant. -/
theorem CommittedOnce.step {C : Crypto} {fl : FloatOps F} {clock : ℕ → ℕ}
    {s : Node × List Transaction} {db : Db} (hs : CommittedOnce C s db) {b : Block}
    (hfresh : s.1.commits C fl clock b = true → FreshIds C s.1.db b) :
    ∃ db', CommittedOnce C (offerBlock C fl clock s b) db' := by
  have hdb' := Node.acceptBlock_db C fl clock hs.stored b
  by_cases hc : s.1.commits C fl clock b = true
  · have hfresh := hfresh hc db hs.stored
    have hok := hc
    rw [Node.commits, Bool.and_eq_true, hs.stored] at hok
    obtain ⟨hadd, happly⟩ := hok
    obtain ⟨-, -, hverify, hids⟩ := bodyOk_iff.mp (canAddBlock_ok_iff.mp hadd).2.2
    have hne : ∀ tx ∈ b.transactions, tx.id ≠ [] :=
      fun tx htx => (Transaction.verify_iff.mp (hverify tx htx)).id_ne
    rw [if_pos hc] at hdb'
    refine ⟨_, hdb', ?_, ?_⟩
    · intro tx htx
      rw [offerBlock, if_pos hc] at htx
      rw [mem_applyBlock_transactions happly]
      rcases List.mem_append.mp htx with htx | htx
      · exact ⟨(hs.ids tx htx).1, .inl (hs.ids tx htx).2⟩
      · exact ⟨hne tx htx, .inr ⟨tx, htx, by rw [rowId_of_ne_nil (hne tx htx)]⟩⟩
    · rw [offerBlock, if_pos hc, List.map_append, List.nodup_append]
      refine ⟨hs.once, ?_, ?_⟩
      · -- inside the block `can_add_block` has compared the ids
        refine List.Nodup.of_map Transaction.id ?_
        rw [List.map_map]
        exact hids
      · intro x hx y hy hxy
        obtain ⟨tx, htx, rfl⟩ := List.mem_map.mp hx
        obtain ⟨tx', htx', rfl⟩ := List.mem_map.mp hy
        have hid : tx.id = tx'.id := by
          have hid' := congrArg Transaction.id hxy
          exact hid'
        have hnot := hfresh tx' htx'
        rw [rowId_of_ne_nil (hne tx' htx'), ← hid] at hnot
        exact hnot (hs.ids tx htx).2
  · rw [if_neg hc] at hdb'
    refine ⟨db, hdb', ?_, ?_⟩
    · rw [offerBlock, if_neg hc]
      exact hs.ids
    · rw [offerBlock, if_neg hc]
      exact hs.once

/-- **No replay**: in every run whose committed blocks only bring fresh ids, no two committed
transactions have the same content with signatures cleared. -/
theorem committed_once (C : Crypto) (fl : FloatOps F) (clock : ℕ → ℕ) (n : Node) (db : Db)
    (hdb : n.db = some db) (blocks : List Block)
    (hfresh : ∀ pre b, pre ++ [b] <+: blocks →
      (offerBlocks C fl clock n pre).1.commits C fl clock b = true →
      FreshIds C (offerBlocks C fl clock n pre).1.db b) :
    ((offerBlocks C fl clock n blocks).2.map Transaction.unsigned).Nodup := by
  have hrun : ∃ db', CommittedOnce C (offerBlocks C fl clock n blocks) db' := by
    refine Run.foldl_invariant (fun s => ∃ db', CommittedOnce C s db') ?_ ?_
      (List.prefix_refl blocks)
    · refine ⟨db, hdb, ?_, List.nodup_nil⟩
      intro tx htx
      cases htx
    · rintro pre b hpre ⟨db', hs⟩
      exact hs.step (hfresh pre b hpre)
  obtain ⟨db', hs⟩ := hrun
  exact hs.once

/-! ## A cycle -/

/-- A signed transaction under `id` that moves the output `(prev, 0)` of 100 to its own owner. -/
def hopTx (id prev : Bytes) : Transaction :=
  polySignTx [7] { id := id, inputs := [⟨prev, 0, [], []⟩],
                   outputs := [⟨addressFromPublicKey polyCrypto [7], 100⟩] }

/-- The block after `previous` with one transaction. -/
def hopBlock (previous : Block) (tx : Transaction) : Block where
  height := previous.height + 1
  prevBlockHash := previous.hashHex polyCrypto
  merkleRoot := calculateTreeHash polyCrypto [tx]
  timestamp := previous.timestamp
  validatorAddress := [118]
  validatorStake := 1000000
  transactions := [tx]

/-- A node whose ledger holds the output `([120], 0)`. -/
def seededNode : Node where
  chain := [genesis]
  db := some { utxos := (saveUnspentOutput ∅ [120] 0
    ⟨addressFromPublicKey polyCrypto [7], 100⟩).getD ∅ }
  engine := none
  quorum := none
  ticks := 0

/-- There and back: the second transaction has the id of the output the first one spends. -/
def thereAndBack : List Block :=
  let there := hopBlock genesis (hopTx [97] [120])
  [there, hopBlock there (hopTx [120] [97])]

theorem committed_once_thereAndBack :
    ((offerBlocks polyCrypto exactFloat (1700000000 + ·) seededNode thereAndBack).2.map
      Transaction.unsigned).Nodup := by
  refine committed_once polyCrypto exactFloat (1700000000 + ·) seededNode _ rfl thereAndBack ?_
  have key : ∀ n < 2, ((offerBlocks polyCrypto exactFloat (1700000000 + ·) seededNode
      (thereAndBack.take n)).1.db).all (fun d => (thereAndBack[n]?).all fun b =>
        b.transactions.all fun tx => cText (tx.rowId polyCrypto) ∉ d.transactions) = true := by
    decide +kernel
  intro pre b hpre _ d hd
  obtain ⟨htake, hget⟩ := Run.prefix_concat hpre
  have hlen : pre.length < 2 := (List.getElem?_eq_some_iff.mp hget).1
  have hkey := key pre.length hlen
  rw [← htake, hd, hget] at hkey
  simpa using hkey

/-- A third block with the first transaction again. -/
def againBlock : Block :=
  hopBlock (thereAndBack.getLastD genesis) (hopTx [97] [120])

/-- The cycle commits the first transaction a second time: all three blocks are accepted, and the
first and the last committed transaction are the same. -/
theorem committed_again :
    let run := offerBlocks polyCrypto exactFloat (1700000000 + ·) seededNode
      (thereAndBack ++ [againBlock])
    run.1.chain.length = 4 ∧
    run.2 = [hopTx [97] [120], hopTx [120] [97], hopTx [97] [120]] ∧
    ¬ (run.2.map Transaction.unsigned).Nodup := by
  decide +kernel

end Mermai
