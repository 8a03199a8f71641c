import Mermai.Rpc.Status

/-!
# Rpc.Listing — what waits, and what an account has seen

`get_mempool` and `get_account_transactions` after runs of the calls that move the tables `mempool` and
`transactions`.  The log of a run says which transaction waits under a key and which one was committed last
there; the rows hold their bytes and their times, no more and no fewer (`rowed_run`).  So the first function
lists what waits, once each and oldest first (`mempool_listed`), the second what was committed, newest first
(`account_listed`), both as far as the decoder reads it.  Times are compared as signed numbers, and a limit of
`get_mempool` from 2³¹ on is none.
-/

namespace Mermai

open Sql (Table orderBy)

/-! ## The functions -/

/-- `ORDER BY timestamp, id`, for the id and the time of a row. -/
def Sooner (r s : Bytes × Int64) : Prop := r.2 < s.2 ∨ (r.2 = s.2 ∧ r.1 ≤ s.1)

instance : DecidableRel Sooner := fun r s => inferInstanceAs (Decidable (r.2 < s.2 ∨ (r.2 = s.2 ∧ r.1 ≤ s.1)))

/-- `LIMIT`: none when it is negative. -/
def limited {α : Type} (limit : Int32) (rows : List α) : List α :=
  if limit < 0 then rows else rows.take limit.toInt.toNat

/-- `get_mempool`. -/
def getMempool (db : Db) (maxCount : UInt32) : List Transaction :=
  let rows := orderBy (fun r s => Sooner (r.1, r.2.timestamp) (s.1, s.2.timestamp)) db.mempool
  (limited maxCount.toInt32 rows).filterMap fun r => (Transaction.deserialize r.2.serialized).toOption

/-- `belongs_to_account`: an output to the address, or an input with a key of it. -/
def Transaction.belongsToAccount (C : Crypto) (address : Bytes) (tx : Transaction) : Bool :=
  (tx.outputs.any fun o => o.address = address) ||
    tx.inputs.any fun i => i.publicKey ≠ [] ∧ addressFromPublicKey C i.publicKey = address

/-- The loop of `get_account_transactions`: it ends with the rows, or when it has found enough. -/
def accountLoop (C : Crypto) (address : Bytes) : ℕ → List Bytes → List Transaction
  | 0, _ | _, [] => []
  | n + 1, data :: rest =>
    match Transaction.deserialize data with
    | .ok tx =>
      if tx.belongsToAccount C address then tx :: accountLoop C address n rest
      else accountLoop C address (n + 1) rest
    | .error _ => accountLoop C address (n + 1) rest

/-- `get_account_transactions`. -/
def getAccountTransactions (C : Crypto) (db : Db) (address : Bytes) (limit : UInt32) : List Transaction :=
  let rows := orderBy (fun r s => Sooner (s.1, s.2.timestamp) (r.1, r.2.timestamp)) db.transactions
  accountLoop C address limit.toNat (rows.map fun r => r.2.serialized)

theorem accountLoop_eq (C : Crypto) (address : Bytes) (n : ℕ) (rows : List Bytes) :
    accountLoop C address n rows =
      ((rows.filterMap fun data => (Transaction.deserialize data).toOption).filter
        (Transaction.belongsToAccount C address)).take n := by
  induction rows generalizing n with
  | nil => cases n <;> rfl
  | cons data rest ih =>
    cases n with
    | zero => rfl
    | succ n =>
      rw [accountLoop, List.filterMap_cons]
      cases Transaction.deserialize data with
      | error e => exact ih (n + 1)
      | ok tx =>
        rw [show (Except.ok tx : Except _ Transaction).toOption = some tx from rfl]
        dsimp only
        rw [List.filter_cons]
        split_ifs
        · rw [List.take_succ_cons, ih n]
        · exact ih (n + 1)

/-! ## The order -/

theorem sooner_total (r s : Bytes × Int64) : Sooner r s ∨ Sooner s r := by
  unfold Sooner
  rw [Int64.lt_iff_toInt_lt, Int64.lt_iff_toInt_lt, ← Int64.toInt_inj, ← Int64.toInt_inj]
  rcases lt_trichotomy r.2.toInt s.2.toInt with h | h | h
  · exact .inl (.inl h)
  · rcases List.le_total r.1 s.1 with hle | hle
    · exact .inl (.inr ⟨h, hle⟩)
    · exact .inr (.inr ⟨h.symm, hle⟩)
  · exact .inr (.inl h)

theorem sooner_trans {r s t : Bytes × Int64} (h : Sooner r s) (h' : Sooner s t) : Sooner r t := by
  rcases h with h | ⟨heq, hle⟩
  · rcases h' with h' | ⟨heq', -⟩
    · exact .inl (Int64.lt_trans h h')
    · exact .inl (heq' ▸ h)
  · rcases h' with h' | ⟨heq', hle'⟩
    · exact .inl (heq ▸ h')
    · exact .inr ⟨heq.trans heq', List.le_trans hle hle'⟩

/-! ## What the rows hold -/

/-- The bytes and the time of a transaction, as the two tables have them. -/
def Transaction.filed (tx : Transaction) : MempoolRow := ⟨tx.serialize, tx.timestamp.toInt64⟩

/-- A row of `transactions` without its block. -/
def TransactionRow.filed (r : TransactionRow) : MempoolRow := ⟨r.serialized, r.timestamp⟩

/-- The rows of the two tables are those of the transactions of the log. -/
structure Rowed (C : Crypto) (log : List (StoreCall × Bool)) (db : Db) : Prop where
  committed : ∀ key, (db.transactions.lookup key).map TransactionRow.filed =
    (lastCommitted C log key).map Transaction.filed
  waiting : ∀ key, db.mempool.lookup key = (waiting C log key).map Transaction.filed

section Run

variable {C : Crypto}

theorem filed_saveTransactions (blockHash : Bytes) (txs : List Transaction)
    (t : Table Bytes TransactionRow) (key : Bytes) :
    ((txs.foldl (saveTransaction C blockHash) t).lookup key).map TransactionRow.filed =
      (Option.map Transaction.filed (Run.written (txs.map fun tx => (tx.fileKey C, tx)) key)).or
        ((t.lookup key).map TransactionRow.filed) := by
  induction txs using List.reverseRecOn with
  | nil => rfl
  | append_singleton txs tx ih =>
    rw [List.foldl_append, List.foldl_cons, List.foldl_nil, List.map_append, List.map_singleton,
      Run.written_concat, saveTransaction]
    rw [show cText (tx.rowId C) = tx.fileKey C from rfl]
    by_cases heq : key = tx.fileKey C
    · rw [heq, if_pos rfl, AList.lookup_insert]
      rfl
    · rw [if_neg heq, ← ih, AList.lookup_insert_ne heq]

/-- One call files what the log says. -/
theorem Rowed.call {log : List (StoreCall × Bool)} {db : Db} (h : Rowed C log db) (c : StoreCall) :
    Rowed C (log ++ [(c, (storeCall C db c).1)]) (storeCall C db c).2 := by
  cases c with
  | addToMempool tx =>
    refine ⟨fun key => by rw [lastCommitted_concat]; exact h.committed key, fun key => ?_⟩
    rw [waiting_concat]
    show (db.mempool.insert (tx.fileKey C) _).lookup key = Option.map _ (if _ then _ else _)
    split_ifs with heq
    · rw [heq, AList.lookup_insert]
      rfl
    · rw [AList.lookup_insert_ne heq]
      exact h.waiting key
  | removeFromMempool txId =>
    refine ⟨fun key => by rw [lastCommitted_concat]; exact h.committed key, fun key => ?_⟩
    rw [waiting_concat]
    show (db.mempool.erase (cText txId)).lookup key = Option.map _ (if _ then _ else _)
    split_ifs with heq
    · rw [heq, AList.lookup_erase]
      rfl
    · rw [AList.lookup_erase_ne heq]
      exact h.waiting key
  | clearMempool =>
    refine ⟨fun key => by rw [lastCommitted_concat]; exact h.committed key, fun key => ?_⟩
    rw [waiting_concat]
    rfl
  | applyBlock now b =>
    cases hok : (storeCall C db (.applyBlock now b)).1 with
    | false =>
      rw [show (storeCall C db (.applyBlock now b)).2 = db from applyBlock_eq_false hok]
      refine ⟨fun key => ?_, fun key => ?_⟩
      · rw [lastCommitted_concat]
        exact h.committed key
      · rw [waiting_concat]
        exact h.waiting key
    | true =>
      refine ⟨fun key => ?_, fun key => ?_⟩
      · have hrows : (storeCall C db (.applyBlock now b)).2.transactions =
            b.transactions.foldl (saveTransaction C (b.hashHex C)) db.transactions :=
          applyBlock_transactions hok
        have hlast : lastCommitted C [(StoreCall.applyBlock now b, true)] key =
            Run.written (b.transactions.map fun tx => (tx.fileKey C, tx)) key := by
          simp [lastCommitted, committedBlocks]
        rw [hrows, filed_saveTransactions, h.committed, lastCommitted_concat, hlast]
        cases Run.written (b.transactions.map fun tx => (tx.fileKey C, tx)) key <;> rfl
      · have hpool : (storeCall C db (.applyBlock now b)).2.mempool =
            b.transactions.foldl (removeFromMempool C) db.mempool := applyBlock_mempool hok
        rw [hpool, lookup_removeTransactions, waiting_concat]
        show _ = Option.map _ (if _ then _ else _)
        split_ifs
        · rfl
        · exact h.waiting key

/-- **The rows of a run**: they are those of what waits and of what was committed last. -/
theorem rowed_run (utxos : Utxos) (calls : List StoreCall) :
    Rowed C (Run.log (storeCall C) { utxos } calls) (Run.after (storeCall C) { utxos } calls) := by
  induction calls using List.reverseRecOn with
  | nil => exact ⟨fun _ => rfl, fun _ => rfl⟩
  | append_singleton calls c ih =>
    rw [Run.log_concat, Run.after_append]
    exact ih.call c

/-! ## The lists -/

/-- What a transaction reads back as; within the limits of the decoder it is the transaction. -/
def Transaction.readBack (tx : Transaction) : Option Transaction := (Transaction.deserialize tx.serialize).toOption

/-- The transactions that a map holds, each once under its key, ordered by key and time. -/
structure Listed (order : Bytes × Int64 → Bytes × Int64 → Prop) (holds : Bytes → Option Transaction)
    (q : List (Bytes × Transaction)) : Prop where
  mem_iff : ∀ key tx, (key, tx) ∈ q ↔ holds key = some tx
  keys : (q.map Prod.fst).Nodup
  ordered : q.Pairwise fun p p' => order (p.1, p.2.timestamp.toInt64) (p'.1, p'.2.timestamp.toInt64)

/-- A table whose rows are those of what a map holds, in the order of a query. -/
theorem exists_listed {V : Type} {filed : V → MempoolRow} {order : Bytes × Int64 → Bytes × Int64 → Prop}
    [DecidableRel order] (htotal : ∀ r s, order r s ∨ order s r)
    (htrans : ∀ {r s t}, order r s → order s t → order r t) {t : Table Bytes V}
    {holds : Bytes → Option Transaction}
    (h : ∀ key, (t.lookup key).map filed = (holds key).map Transaction.filed) :
    ∃ q, Listed order holds q ∧
      (orderBy (fun r s => order (r.1, (filed r.2).timestamp) (s.1, (filed s.2).timestamp)) t).map
        (fun r => (filed r.2).serialized) = q.map fun p => p.2.serialize := by
  let le : Bytes × V → Bytes × V → Prop := fun r s =>
    order (r.1, (filed r.2).timestamp) (s.1, (filed s.2).timestamp)
  have : Std.Total le := ⟨fun r s => htotal _ _⟩
  have : IsTrans (Bytes × V) le := ⟨fun r s t => htrans⟩
  obtain ⟨q, hq, hmem, hkeys⟩ := Sql.exists_orderBy le h
  refine ⟨q, ⟨hmem, hkeys, ?_⟩, ?_⟩
  · have hsorted : ((orderBy le t).map (Prod.map id filed)).Pairwise fun r s =>
        order (r.1, r.2.timestamp) (s.1, s.2.timestamp) :=
      List.pairwise_map.mpr (Sql.pairwise_orderBy le t)
    rw [hq, List.pairwise_map] at hsorted
    exact hsorted
  · have hbytes := congrArg (List.map fun r : Bytes × MempoolRow => r.2.serialized) hq
    rw [List.map_map, List.map_map] at hbytes
    exact hbytes

theorem limited_map {α β : Type} (f : α → β) (limit : Int32) (rows : List α) :
    limited limit (rows.map f) = (limited limit rows).map f := by
  unfold limited
  split_ifs
  · rfl
  · exact List.map_take.symm

/-- **The mempool as it is listed**: after every run `get_mempool` returns what waits, once each and oldest
first, up to the limit. -/
theorem mempool_listed (C : Crypto) (utxos : Utxos) (calls : List StoreCall) :
    ∃ q, Listed Sooner (waiting C (Run.log (storeCall C) { utxos } calls)) q ∧
      ∀ maxCount, getMempool (Run.after (storeCall C) { utxos } calls) maxCount =
        (limited maxCount.toInt32 q).filterMap fun p => p.2.readBack := by
  have hrows : ∀ key, ((Run.after (storeCall C) { utxos } calls).mempool.lookup key).map id =
      (waiting C (Run.log (storeCall C) { utxos } calls) key).map Transaction.filed := fun key => by
    rw [Option.map_id]
    exact (rowed_run utxos calls).waiting key
  obtain ⟨q, hq, hbytes⟩ := exists_listed sooner_total sooner_trans hrows
  refine ⟨q, hq, fun maxCount => ?_⟩
  have hlimited := congrArg (limited maxCount.toInt32) hbytes
  rw [limited_map, limited_map] at hlimited
  have hread := congrArg (List.filterMap fun data => (Transaction.deserialize data).toOption) hlimited
  rw [List.filterMap_map, List.filterMap_map] at hread
  exact hread

/-- **The history of an account as it is listed**: after every run `get_account_transactions` returns what was
committed and belongs to the account, once each and newest first, up to the limit. -/
theorem account_listed (C : Crypto) (utxos : Utxos) (calls : List StoreCall) :
    ∃ q, Listed (fun r s => Sooner s r) (lastCommitted C (Run.log (storeCall C) { utxos } calls)) q ∧
      ∀ address limit,
        getAccountTransactions C (Run.after (storeCall C) { utxos } calls) address limit =
          ((q.filterMap fun p => p.2.readBack).filter (Transaction.belongsToAccount C address)).take
            limit.toNat := by
  obtain ⟨q, hq, hbytes⟩ := exists_listed (fun r s => sooner_total s r) (fun h h' => sooner_trans h' h)
    (rowed_run (C := C) utxos calls).committed
  refine ⟨q, hq, fun address limit => (accountLoop_eq C address _ _).trans ?_⟩
  have hread : (q.map fun p => p.2.serialize).filterMap (fun data => (Transaction.deserialize data).toOption) =
      q.filterMap fun p => p.2.readBack := List.filterMap_map
  rw [← hread, ← hbytes]
  rfl

end Run

end Mermai
