import Mermai.Db.History
import Mermai.Rpc.Text

/-!
# Rpc.Status — the status of a transaction

`get_transaction_status` over runs of the calls that move the tables `transactions` and `mempool`.  What the
two tables hold under a key is read off the calls and their answers: the transaction committed last
(`lastCommitted`) and the one that waits (`waiting`), as `filed_run` says.  The status comes from
`get_transaction`, which looks into both tables, so it is `CONFIRMED` for a transaction that only waits:
it tells committed transactions exactly where no transaction waits that is not committed
(`status_right_iff`).
-/

namespace Mermai

open Merlite (ascii)
open Sql (Table)

/-! ## The functions -/

/-- `get_transaction_status`. -/
def getTransactionStatus (db : Option Db) (txId : Bytes) : Bytes :=
  match db with
  | none => Rpc.jsonError (-1) (ascii "Database unavailable")
  | some db =>
    if (getTransaction db txId).id = [] then ascii "\x7b\"result\":\"NOT_FOUND\"\x7d"
    else ascii "\x7b\"result\":\"CONFIRMED\"\x7d"

/-- The answer for a committed transaction. -/
def confirmed : Bytes := ascii "\x7b\"result\":\"CONFIRMED\"\x7d"

/-- The calls that move transactions; a block comes with the clock of its `apply_block`. -/
inductive StoreCall
  | addToMempool (tx : Transaction)
  | removeFromMempool (txId : Bytes)
  | clearMempool
  | applyBlock (now : ℕ) (b : Block)

/-- A call with what it returns; `clear_mempool` returns nothing. -/
def storeCall (C : Crypto) (db : Db) : StoreCall → Bool × Db
  | .addToMempool tx => (true, addToMempool C db tx)
  | .removeFromMempool txId => (true, { db with mempool := db.mempool.erase (cText txId) })
  | .clearMempool => (true, { db with mempool := ∅ })
  | .applyBlock now b => applyBlock C now db b

/-! ## What a run files -/

/-- The key of the rows of a transaction. -/
def Transaction.fileKey (C : Crypto) (tx : Transaction) : Bytes := cText (tx.rowId C)

/-- The blocks that were committed. -/
def committedBlocks (log : List (StoreCall × Bool)) : List Block :=
  log.filterMap fun e =>
    match e with
    | (.applyBlock _ b, true) => some b
    | _ => none

/-- Some committed block contains a transaction with the id. -/
def CommittedId (log : List (StoreCall × Bool)) (id : Bytes) : Prop :=
  ∃ b ∈ committedBlocks log, ∃ tx ∈ b.transactions, tx.id = id

/-- The transaction that was committed last under a key. -/
def lastCommitted (C : Crypto) (log : List (StoreCall × Bool)) (key : Bytes) : Option Transaction :=
  Run.written ((committedBlocks log).flatMap fun b => b.transactions.map fun tx => (tx.fileKey C, tx)) key

/-- What waits under a key after a call. -/
def waitingAfter (C : Crypto) (key : Bytes) (before : Option Transaction) :
    StoreCall × Bool → Option Transaction
  | (.addToMempool tx, _) => if key = tx.fileKey C then some tx else before
  | (.removeFromMempool txId, _) => if key = cText txId then none else before
  | (.clearMempool, _) => none
  | (.applyBlock _ b, true) => if b.transactions.any fun tx => tx.fileKey C = key then none else before
  | (.applyBlock _ _, false) => before

/-- The transaction that waits under a key. -/
def waiting (C : Crypto) (log : List (StoreCall × Bool)) (key : Bytes) : Option Transaction :=
  log.foldl (waitingAfter C key) none

/-- The two tables hold what is read off the log. -/
structure Filed (C : Crypto) (log : List (StoreCall × Bool)) (db : Db) : Prop where
  committed : ∀ key, (db.transactions.lookup key).map TransactionRow.serialized =
    (lastCommitted C log key).map Transaction.serialize
  waiting : ∀ key, (db.mempool.lookup key).map MempoolRow.serialized =
    (waiting C log key).map Transaction.serialize

section Run

variable {C : Crypto}

theorem committedBlocks_concat (log : List (StoreCall × Bool)) (e : StoreCall × Bool) :
    committedBlocks (log ++ [e]) = committedBlocks log ++ committedBlocks [e] := List.filterMap_append

theorem lastCommitted_concat (log : List (StoreCall × Bool)) (e : StoreCall × Bool) (key : Bytes) :
    lastCommitted C (log ++ [e]) key =
      (lastCommitted C [e] key).or (lastCommitted C log key) := by
  rw [lastCommitted, committedBlocks_concat, List.flatMap_append, Run.written_append]
  rfl

theorem waiting_concat (log : List (StoreCall × Bool)) (e : StoreCall × Bool) (key : Bytes) :
    waiting C (log ++ [e]) key = waitingAfter C key (waiting C log key) e := List.foldl_append

/-- The rows of the transactions of a block, over the rows from before. -/
theorem serialized_saveTransactions (blockHash : Bytes) (txs : List Transaction)
    (t : Table Bytes TransactionRow) (key : Bytes) :
    ((txs.foldl (saveTransaction C blockHash) t).lookup key).map TransactionRow.serialized =
      (Option.map Transaction.serialize (Run.written (txs.map fun tx => (tx.fileKey C, tx)) key)).or
        ((t.lookup key).map TransactionRow.serialized) := by
  induction txs using List.reverseRecOn with
  | nil => rfl
  | append_singleton txs tx ih =>
    rw [List.foldl_append, List.foldl_cons, List.foldl_nil, List.map_append, List.map_singleton,
      Run.written_concat, saveTransaction]
    rw [show cText (tx.rowId C) = tx.fileKey C from rfl]
    by_cases heq : key = tx.fileKey C
    · rw [heq, if_pos rfl, AList.lookup_insert]
      rfl
    · rw [if_neg heq, ← ih, AList.lookup_insert_ne heq]

theorem lookup_removeTransactions (txs : List Transaction) (t : Table Bytes MempoolRow) (key : Bytes) :
    (txs.foldl (removeFromMempool C) t).lookup key =
      if txs.any fun tx => tx.fileKey C = key then none else t.lookup key := by
  induction txs using List.reverseRecOn with
  | nil => rfl
  | append_singleton txs tx ih =>
    rw [List.foldl_append, List.foldl_cons, List.foldl_nil, removeFromMempool]
    by_cases heq : key = tx.fileKey C
    · rw [if_pos (by simp [heq]), heq]
      exact AList.lookup_erase _ _
    · rw [show (txs.foldl (removeFromMempool C) t).erase (cText (tx.rowId C)) =
        (txs.foldl (removeFromMempool C) t).erase (tx.fileKey C) from rfl, AList.lookup_erase_ne heq, ih]
      simp [Ne.symm heq]

/-- One call commits what the log says. -/
theorem Filed.committed_call {log : List (StoreCall × Bool)} {db : Db} (h : Filed C log db)
    (c : StoreCall) (key : Bytes) :
    ((storeCall C db c).2.transactions.lookup key).map TransactionRow.serialized =
      (lastCommitted C (log ++ [(c, (storeCall C db c).1)]) key).map Transaction.serialize := by
  rw [lastCommitted_concat]
  cases c with
  | addToMempool tx => exact h.committed key
  | removeFromMempool txId => exact h.committed key
  | clearMempool => exact h.committed key
  | applyBlock now b =>
    cases hok : (storeCall C db (.applyBlock now b)).1 with
    | false =>
      rw [show (storeCall C db (.applyBlock now b)).2 = db from applyBlock_eq_false hok]
      exact h.committed key
    | true =>
      have hrows : (storeCall C db (.applyBlock now b)).2.transactions =
          b.transactions.foldl (saveTransaction C (b.hashHex C)) db.transactions :=
        applyBlock_transactions hok
      have hlast : lastCommitted C [(StoreCall.applyBlock now b, true)] key =
          Run.written (b.transactions.map fun tx => (tx.fileKey C, tx)) key := by
        simp [lastCommitted, committedBlocks]
      rw [hrows, serialized_saveTransactions, h.committed, hlast]
      cases Run.written (b.transactions.map fun tx => (tx.fileKey C, tx)) key <;> rfl

/-- After one call waits what the log says. -/
theorem Filed.waiting_call {log : List (StoreCall × Bool)} {db : Db} (h : Filed C log db)
    (c : StoreCall) (key : Bytes) :
    ((storeCall C db c).2.mempool.lookup key).map MempoolRow.serialized =
      (Mermai.waiting C (log ++ [(c, (storeCall C db c).1)]) key).map Transaction.serialize := by
  rw [waiting_concat]
  cases c with
  | addToMempool tx =>
    show ((db.mempool.insert (tx.fileKey C) _).lookup key).map _ = Option.map _ (if _ then _ else _)
    split_ifs with heq
    · rw [heq, AList.lookup_insert]
      rfl
    · rw [AList.lookup_insert_ne heq]
      exact h.waiting key
  | removeFromMempool txId =>
    show ((db.mempool.erase (cText txId)).lookup key).map _ = Option.map _ (if _ then _ else _)
    split_ifs with heq
    · rw [heq, AList.lookup_erase]
      rfl
    · rw [AList.lookup_erase_ne heq]
      exact h.waiting key
  | clearMempool => rfl
  | applyBlock now b =>
    cases hok : (storeCall C db (.applyBlock now b)).1 with
    | false =>
      rw [show (storeCall C db (.applyBlock now b)).2 = db from applyBlock_eq_false hok]
      exact h.waiting key
    | true =>
      have hpool : (storeCall C db (.applyBlock now b)).2.mempool =
          b.transactions.foldl (removeFromMempool C) db.mempool := applyBlock_mempool hok
      rw [hpool, lookup_removeTransactions]
      show _ = Option.map _ (if _ then _ else _)
      split_ifs
      · rfl
      · exact h.waiting key

/-- One call files what the log says. -/
theorem Filed.call {log : List (StoreCall × Bool)} {db : Db} (h : Filed C log db) (c : StoreCall) :
    Filed C (log ++ [(c, (storeCall C db c).1)]) (storeCall C db c).2 :=
  ⟨h.committed_call c, h.waiting_call c⟩

/-- **Filing**: after every run the two tables hold what was committed last and what waits. -/
theorem filed_run (utxos : Utxos) (calls : List StoreCall) :
    Filed C (Run.log (storeCall C) { utxos } calls) (Run.after (storeCall C) { utxos } calls) := by
  induction calls using List.reverseRecOn with
  | nil => exact ⟨fun _ => rfl, fun _ => rfl⟩
  | append_singleton calls c ih =>
    rw [Run.log_concat, Run.after_append]
    exact ih.call c

/-! ## The status -/

/-- A transaction that is read back from its row with an id. -/
def Transaction.ReadsBack (tx : Transaction) : Prop :=
  ∃ tx', Transaction.deserialize tx.serialize = .ok tx' ∧ tx'.id ≠ []

theorem readsBack_of_within {tx : Transaction} (h : tx.Within) (hid : tx.id ≠ []) : tx.ReadsBack :=
  ⟨tx, (Transaction.deserialize_iff _ _).mpr ⟨rfl, h⟩, hid⟩

/-- `load_transaction` on the row of a transaction. -/
theorem loadTransaction_id {serialized : Option Bytes} {filed : Option Transaction}
    (h : serialized = filed.map Transaction.serialize) :
    (loadTransaction serialized).id ≠ [] ↔ ∃ tx, filed = some tx ∧ tx.ReadsBack := by
  subst h
  cases filed with
  | none => simp [loadTransaction]
  | some tx =>
    simp only [loadTransaction, Option.map_some, Option.bind_some, Option.some.injEq, exists_eq_left',
      Transaction.ReadsBack]
    cases Transaction.deserialize tx.serialize with
    | error err => simp [Except.toOption]
    | ok tx' => simp [Except.toOption]

/-- `get_transaction` finds a transaction with an id when either table holds one. -/
theorem getTransaction_id {log : List (StoreCall × Bool)} {db : Db} (h : Filed C log db) (id : Bytes) :
    (getTransaction db id).id ≠ [] ↔ ∃ tx, tx.ReadsBack ∧
      (lastCommitted C log (cText id) = some tx ∨ waiting C log (cText id) = some tx) := by
  have hcommitted := loadTransaction_id (h.committed (cText id))
  have hwaiting := loadTransaction_id (h.waiting (cText id))
  unfold getTransaction
  dsimp only
  split_ifs with hfound
  · exact iff_of_true hfound (let ⟨tx, htx, hreads⟩ := hcommitted.mp hfound; ⟨tx, hreads, .inl htx⟩)
  · rw [hwaiting]
    constructor
    · rintro ⟨tx, htx, hreads⟩
      exact ⟨tx, hreads, .inr htx⟩
    · rintro ⟨tx, hreads, htx | htx⟩
      · exact absurd (hcommitted.mpr ⟨tx, htx, hreads⟩) hfound
      · exact ⟨tx, htx, hreads⟩

theorem getTransactionStatus_eq_confirmed (db : Db) (id : Bytes) :
    getTransactionStatus (some db) id = confirmed ↔ (getTransaction db id).id ≠ [] := by
  unfold getTransactionStatus
  dsimp only
  split_ifs with h
  · exact iff_of_false (by decide) (not_not.mpr h)
  · exact iff_of_true rfl h

/-- The status of an id tells whether it is committed. -/
def StatusRight (C : Crypto) (utxos : Utxos) (calls : List StoreCall) (id : Bytes) : Prop :=
  getTransactionStatus (some (Run.after (storeCall C) { utxos } calls)) id = confirmed ↔
    CommittedId (Run.log (storeCall C) { utxos } calls) id

/-- A transaction that is committed or waits under the key of an id, and is read back with an id. -/
def Shows (C : Crypto) (log : List (StoreCall × Bool)) (id : Bytes) : Prop :=
  ∃ tx : Transaction, tx.ReadsBack ∧
    (lastCommitted C log (cText id) = some tx ∨ waiting C log (cText id) = some tx)

/-- The transactions that a call hands over. -/
def StoreCall.transactions : StoreCall → List Transaction
  | .addToMempool tx => [tx]
  | .applyBlock _ b => b.transactions
  | _ => []

/-- A transaction with an id that is text, within the limits of the decoder. -/
structure Transaction.Plain (tx : Transaction) : Prop where
  id_ne : tx.id ≠ []
  text : 0 ∉ tx.id
  within : tx.Within

theorem Transaction.Plain.fileKey {tx : Transaction} (h : tx.Plain) : tx.fileKey C = tx.id := by
  rw [Transaction.fileKey, Transaction.rowId, if_neg h.id_ne, cText_of_notMem h.text]

theorem lastCommitted_mem {log : List (StoreCall × Bool)} {key : Bytes} {tx : Transaction}
    (h : lastCommitted C log key = some tx) :
    ∃ b ∈ committedBlocks log, tx ∈ b.transactions ∧ tx.fileKey C = key := by
  obtain ⟨b, hb, hmem⟩ := List.mem_flatMap.mp (Run.mem_of_written h)
  obtain ⟨tx', htx', heq⟩ := List.mem_map.mp hmem
  cases heq
  exact ⟨b, hb, htx', rfl⟩

theorem waiting_mem {log : List (StoreCall × Bool)} {key : Bytes} {tx : Transaction}
    (h : waiting C log key = some tx) : ∃ ok, (StoreCall.addToMempool tx, ok) ∈ log := by
  induction log using List.reverseRecOn with
  | nil => cases h
  | append_singleton log e ih =>
    have hbefore : waiting C log key = some tx → ∃ ok, (StoreCall.addToMempool tx, ok) ∈ log ++ [e] :=
      fun h' => let ⟨ok, hmem⟩ := ih h'; ⟨ok, List.mem_append_left _ hmem⟩
    rw [waiting_concat] at h
    obtain ⟨c, ok⟩ := e
    cases c with
    | addToMempool tx' =>
      rw [waitingAfter] at h
      split_ifs at h
      · cases h
        exact ⟨ok, by simp⟩
      · exact hbefore h
    | removeFromMempool txId =>
      rw [waitingAfter] at h
      split_ifs at h
      exact hbefore h
    | clearMempool => cases h
    | applyBlock now b =>
      cases ok with
      | false => exact hbefore h
      | true =>
        rw [waitingAfter] at h
        split_ifs at h
        exact hbefore h

theorem mem_committedBlocks {log : List (StoreCall × Bool)} {b : Block} :
    b ∈ committedBlocks log ↔ ∃ now, (StoreCall.applyBlock now b, true) ∈ log := by
  rw [committedBlocks, List.mem_filterMap]
  constructor
  · rintro ⟨⟨c, ok⟩, hmem, hsome⟩
    split at hsome
    · rename_i now b' heq
      cases heq
      cases hsome
      exact ⟨now, hmem⟩
    · cases hsome
  · rintro ⟨now, hmem⟩
    exact ⟨_, hmem, rfl⟩

/-- Over plain transactions the key shows what is committed and what waits. -/
theorem shows_iff_of_plain {log : List (StoreCall × Bool)}
    (hplain : ∀ e ∈ log, ∀ tx ∈ e.1.transactions, tx.Plain) {id : Bytes} (hid : 0 ∉ id) :
    Shows C log id ↔ CommittedId log id ∨ waiting C log id ≠ none := by
  have hreads : ∀ tx : Transaction, tx.Plain → tx.ReadsBack :=
    fun tx h => readsBack_of_within h.within h.id_ne
  have hblock : ∀ b ∈ committedBlocks log, ∀ tx ∈ b.transactions, tx.Plain := by
    intro b hb
    obtain ⟨now, hmem⟩ := mem_committedBlocks.mp hb
    exact hplain _ hmem
  rw [Shows, cText_of_notMem hid]
  constructor
  · rintro ⟨tx, -, hlast | hwaits⟩
    · obtain ⟨b, hb, htx, hkey⟩ := lastCommitted_mem hlast
      exact .inl ⟨b, hb, tx, htx, (hblock b hb tx htx).fileKey.symm.trans hkey⟩
    · exact .inr (by rw [hwaits]; exact Option.some_ne_none tx)
  · rintro (⟨b, hb, tx, htx, rfl⟩ | hwaits)
    · have hpair : (tx.id, tx) ∈ (committedBlocks log).flatMap fun b =>
          b.transactions.map fun tx => (tx.fileKey C, tx) :=
        List.mem_flatMap.mpr ⟨b, hb, List.mem_map.mpr ⟨tx, htx, by rw [(hblock b hb tx htx).fileKey]⟩⟩
      obtain ⟨last, hlast⟩ := Run.exists_written hpair
      obtain ⟨b', hb', hmem, -⟩ := lastCommitted_mem (C := C) hlast
      exact ⟨last, hreads last (hblock b' hb' last hmem), .inl hlast⟩
    · obtain ⟨tx, htx⟩ := Option.ne_none_iff_exists'.mp hwaits
      obtain ⟨ok, hmem⟩ := waiting_mem htx
      exact ⟨tx, hreads tx (hplain _ hmem tx (by simp [StoreCall.transactions])), .inr htx⟩

/-- **`CONFIRMED` means committed exactly when** the key of the id shows a transaction that is read back
just in case the id is committed: over plain transactions, when none waits under the id that is not
committed. -/
theorem status_right_iff (C : Crypto) (utxos : Utxos) (calls : List StoreCall) (id : Bytes) :
    let log := Run.log (storeCall C) { utxos } calls
    (StatusRight C utxos calls id ↔ (Shows C log id ↔ CommittedId log id)) ∧
      (0 ∉ id ∧ (∀ c ∈ calls, ∀ tx ∈ c.transactions, tx.Plain) →
        (StatusRight C utxos calls id ↔ (waiting C log id ≠ none → CommittedId log id))) := by
  intro log
  have hstatus : StatusRight C utxos calls id ↔ (Shows C log id ↔ CommittedId log id) := by
    rw [StatusRight, getTransactionStatus_eq_confirmed, getTransaction_id (filed_run utxos calls) id]
    rfl
  refine ⟨hstatus, fun ⟨hid, hplain⟩ => ?_⟩
  have hlog : ∀ e ∈ log, ∀ tx ∈ e.1.transactions, tx.Plain := by
    intro e he
    refine hplain e.1 ?_
    rw [← Run.log_map_fst (storeCall C) { utxos } calls]
    exact List.mem_map_of_mem he
  rw [hstatus, shows_iff_of_plain hlog hid]
  exact ⟨fun h hwaits => h.mp (.inr hwaits), fun h => ⟨fun hor => hor.elim (fun hc => hc) h, .inl⟩⟩

/-- A transaction that is committed behind the mempool. -/
def committedRun : List StoreCall := [.addToMempool mintTx, .applyBlock 5 { transactions := [mintTx] }]

theorem mintTx_plain : mintTx.Plain := ⟨by decide, by decide, by decide +kernel⟩

theorem status_right_committed : StatusRight polyCrypto ∅ committedRun [116] := by
  refine ((status_right_iff polyCrypto ∅ committedRun [116]).2 ⟨by decide, ?_⟩).mpr fun _ => ?_
  · intro c hc tx htx
    have hmint : tx = mintTx := by
      rcases List.mem_cons.mp hc with rfl | hc
      · exact List.mem_singleton.mp htx
      · rw [List.mem_singleton.mp hc] at htx
        exact List.mem_singleton.mp htx
    exact hmint ▸ mintTx_plain
  · refine ⟨{ transactions := [mintTx] }, mem_committedBlocks.mpr ⟨5, ?_⟩, mintTx, by simp, rfl⟩
    have hok : (applyBlock polyCrypto 5 (addToMempool polyCrypto {} mintTx)
        { transactions := [mintTx] }).1 = true := by decide +kernel
    exact List.mem_cons_of_mem _ (List.mem_singleton.mpr (Prod.ext rfl hok.symm))

/-- A transaction that only waits is reported as confirmed. -/
theorem waiting_confirmed :
    getTransactionStatus (some (Run.after (storeCall polyCrypto) {} [.addToMempool mintTx])) [116] =
        confirmed ∧
      ¬ CommittedId (Run.log (storeCall polyCrypto) {} [.addToMempool mintTx]) [116] ∧
      ¬ StatusRight polyCrypto ∅ [.addToMempool mintTx] [116] := by
  have hconfirmed : getTransactionStatus
      (some (Run.after (storeCall polyCrypto) {} [.addToMempool mintTx])) [116] = confirmed := by
    decide +kernel
  have hnone : ¬ CommittedId (Run.log (storeCall polyCrypto) {} [.addToMempool mintTx]) [116] := by
    rintro ⟨b, hb, -⟩
    cases hb
  exact ⟨hconfirmed, hnone, fun h => hnone (h.mp hconfirmed)⟩

end Run

end Mermai
