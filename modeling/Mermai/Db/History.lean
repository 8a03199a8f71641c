import Mermai.Chain.Blockchain
import Mermai.Db.Atomic
import Mermai.Lib.StdMap

/-!
# Db.History — reading committed transactions back

`get_transaction` and `get_transactions_in_block` after a run of blocks that `can_add_block` accepts and
`apply_block` commits.  A row of `transactions` is keyed by the free-text id alone and written with
`INSERT OR REPLACE`, so it belongs to the block that wrote it last.  `can_add_block` wants the ids of
one block to differ, and `utxos` refuses an output only while the older one is unspent: a transaction whose
outputs are spent can be followed by another of the same id.  `history_kept_iff` says that this is all that
rewrites history.
-/

namespace Mermai

open Sql

/-! ## The functions -/

/-- The lambda `load_transaction`, on the blob that a query finds. -/
def loadTransaction (serialized : Option Bytes) : Transaction :=
  match serialized.bind fun data => (Transaction.deserialize data).toOption with
  | some tx => tx
  | none => ⟨[], [], [], 0, 0⟩

/-- `get_transaction`. -/
def getTransaction (db : Db) (txId : Bytes) : Transaction :=
  let result := loadTransaction ((db.transactions.lookup (cText txId)).map TransactionRow.serialized)
  if result.id ≠ [] then result
  else loadTransaction ((db.mempool.lookup (cText txId)).map MempoolRow.serialized)

/-- `get_transactions_in_block`: ordered by time and id. -/
def getTransactionsInBlock (db : Db) (blockHash : Bytes) : List Transaction :=
  let rows := (db.transactions.entries.filter fun e => e.2.blockHash = some (cText blockHash)).map
    fun e => (e.1, e.2)
  (rows.insertionSort fun r s =>
    r.2.timestamp < s.2.timestamp ∨ (r.2.timestamp = s.2.timestamp ∧ r.1 ≤ s.1)).filterMap
      fun r => (Transaction.deserialize r.2.serialized).toOption

/-! ## Runs of accepted blocks -/

/-- A block, the engine and the clock when it is offered to `can_add_block`, and the clock when it is
committed. -/
structure Offer where
  engine : Option Engine
  now : ℕ
  block : Block
  committed : ℕ

/-- The database after the blocks of a run. -/
def afterOffers (C : Crypto) (db : Db) (offers : List Offer) : Db :=
  offers.foldl (fun db o => (applyBlock C o.committed db o.block).2) db

/-- Every block is accepted on top of those before it, and committed. -/
structure Accepts {F : Type} (C : Crypto) (fl : FloatOps F) (chain : List Block) (db : Db)
    (offers : List Offer) : Prop where
  accepted : ∀ done o, done ++ [o] <+: offers →
    (canAddBlock C fl o.now o.engine (chain ++ done.map Offer.block) (some o.block)).ok = true
  applied : ∀ done o, done ++ [o] <+: offers →
    (applyBlock C o.committed (afterOffers C db done) o.block).1 = true

/-- The transactions of a block are read back, by the hash of the block and one by one. -/
structure Kept (C : Crypto) (db : Db) (b : Block) : Prop where
  inBlock : (getTransactionsInBlock db (b.hashHex C)).Perm b.transactions
  byId : ∀ tx ∈ b.transactions, getTransaction db tx.id = tx

/-- The rows that a run writes. -/
def committedRows (C : Crypto) (offers : List Offer) : List (Bytes × TransactionRow) :=
  offers.flatMap fun o => o.block.transactions.map fun tx => (tx.id, transactionRow C o.block tx)

theorem committedRows_concat (C : Crypto) (done : List Offer) (o : Offer) :
    committedRows C (done ++ [o]) = committedRows C done ++
      o.block.transactions.map fun tx => (tx.id, transactionRow C o.block tx) := by
  rw [committedRows, List.flatMap_append, List.flatMap_singleton]
  rfl

section Run

variable {F : Type} {C : Crypto} {fl : FloatOps F} {chain : List Block} {db : Db} {offers : List Offer}

theorem afterOffers_concat (done : List Offer) (o : Offer) :
    afterOffers C db (done ++ [o]) = (applyBlock C o.committed (afterOffers C db done) o.block).2 :=
  List.foldl_append

/-- What acceptance says about the block of a run: its height, and that its transactions have ids, all
different. -/
theorem Accepts.block (h : Accepts C fl chain db offers) {done : List Offer} {o : Offer}
    (hpre : done ++ [o] <+: offers) : o.block.height.toNat = chain.length + done.length ∧
      (∀ tx ∈ o.block.transactions, tx.id ≠ []) ∧ (o.block.transactions.map Transaction.id).Nodup := by
  obtain ⟨htip, -, hbody⟩ := canAddBlock_ok_iff.mp (h.accepted done o hpre)
  obtain ⟨tip, -, hheight, -⟩ := extendsTip_iff.mp htip
  obtain ⟨-, -, hverify, hnodup⟩ := bodyOk_iff.mp hbody
  rw [List.length_append, List.length_map] at hheight
  exact ⟨hheight, fun tx htx => (Transaction.verify_iff.mp (hverify tx htx)).id_ne, hnodup⟩

theorem Accepts.take (h : Accepts C fl chain db offers) {done : List Offer} (hdone : done <+: offers) :
    Accepts C fl chain db done where
  accepted done' o hpre := h.accepted done' o (hpre.trans hdone)
  applied done' o hpre := h.applied done' o (hpre.trans hdone)

/-- A row of the table is what the run has written last under its id. -/
theorem Accepts.lookup (h : Accepts C fl chain db offers) (hfresh : db.transactions = ∅)
    (hnul : ∀ o ∈ offers, o.block.NulFree) (id : Bytes) :
    (afterOffers C db offers).transactions.lookup id = Run.written (committedRows C offers) id := by
  induction offers using List.reverseRecOn with
  | nil =>
    show db.transactions.lookup id = none
    rw [hfresh, AList.lookup_empty]
  | append_singleton done o ih =>
    have hdone := List.prefix_append done [o]
    have ih' := ih (h.take hdone) fun o' ho' => hnul o' (List.mem_append_left _ ho')
    obtain ⟨-, hids, -⟩ := h.block List.prefix_rfl
    have hrows : o.block.transactions.map (fun tx => (tx.rowId C, transactionRow C o.block tx)) =
        o.block.transactions.map fun tx => (tx.id, transactionRow C o.block tx) := by
      refine List.map_congr_left fun tx htx => ?_
      rw [Transaction.rowId, if_neg (hids tx htx)]
    rw [afterOffers_concat, applyBlock_transactions (h.applied done o List.prefix_rfl),
      lookup_saveTransaction_foldl C (hnul o (by simp)), ih', hrows, committedRows_concat,
      Run.written_append]

theorem serializations_subset {done offers : List Offer} (h : done ⊆ offers) :
    {m | ∃ o ∈ done, m = o.block.serialize} ⊆ {m | ∃ o ∈ offers, m = o.block.serialize} :=
  fun _ ⟨o, ho, hm⟩ => ⟨o, h ho, hm⟩

/-- SHA-256 tells the blocks of a run apart. -/
theorem Accepts.hashes_nodup (h : Accepts C fl chain db offers)
    (hfree : C.CollisionFreeOn {m | ∃ o ∈ offers, m = o.block.serialize}) :
    (offers.map fun o => o.block.hashHex C).Nodup := by
  induction offers using List.reverseRecOn with
  | nil => exact List.nodup_nil
  | append_singleton done o ih =>
    have hdone := List.prefix_append done [o]
    have hfree' := hfree.subset (serializations_subset hdone.subset)
    rw [List.map_append, List.nodup_append]
    refine ⟨ih (h.take hdone) hfree', List.nodup_singleton _, ?_⟩
    intro hash hhash hash' hhash' heq
    obtain ⟨o', ho', rfl⟩ := List.mem_map.mp hhash
    rw [List.mem_singleton.mp hhash'] at heq
    -- the earlier block is lower
    obtain ⟨front, behind, rfl⟩ := List.append_of_mem ho'
    have hfront : front ++ [o'] <+: front ++ o' :: behind ++ [o] := ⟨behind ++ [o], by simp⟩
    have hlow := (h.block hfront).1
    have hhigh := (h.block List.prefix_rfl).1
    have hserialize := hfree _ ⟨o', by simp, rfl⟩ _ ⟨o, by simp, rfl⟩ (hashToHex_injective heq)
    rw [Block.height_of_serialize hserialize, hhigh, List.length_append, List.length_cons] at hlow
    omega

/-! ## Reading a block -/

/-- The transactions that are read from the rows of a block. -/
def readRows (blockHash : Bytes) (rows : List (Bytes × TransactionRow)) : List Transaction :=
  (rows.filter fun r => r.2.blockHash = some blockHash).filterMap
    fun r => (Transaction.deserialize r.2.serialized).toOption

theorem getTransactionsInBlock_perm (db : Db) (b : Block) :
    (getTransactionsInBlock db (b.hashHex C)).Perm
      (readRows (b.hashHex C) (db.transactions.entries.map fun e => (e.1, e.2))) := by
  have htext : cText (b.hashHex C) = b.hashHex C := cText_of_notMem (zero_notMem_hashToHex _)
  rw [readRows, List.filter_map]
  unfold getTransactionsInBlock
  rw [htext]
  exact (List.perm_insertionSort _ _).filterMap _

theorem deserialize_of_within {tx : Transaction} (h : tx.Within) :
    (Transaction.deserialize tx.serialize).toOption = some tx := by
  rw [(Transaction.deserialize_iff _ _).mpr ⟨rfl, h⟩]
  rfl

/-- The rows of one block are read under its hash, and under no other. -/
theorem readRows_block {b : Block} (hwithin : b.Within) (blockHash : Bytes) :
    readRows blockHash (b.transactions.map fun tx => (tx.id, transactionRow C b tx)) =
      if b.hashHex C = blockHash then b.transactions else [] := by
  have hread : ∀ tx ∈ b.transactions, (Transaction.deserialize tx.serialize).toOption = some tx :=
    fun tx htx => deserialize_of_within (hwithin.2.2.2.2.2.2 tx htx).2
  rw [readRows, List.filter_map, List.filterMap_map]
  split_ifs with hhash
  · subst hhash
    generalize b.transactions = txs at hread
    induction txs with
    | nil => rfl
    | cons tx txs ih =>
      have htail := ih fun tx' htx' => hread tx' (List.mem_cons_of_mem _ htx')
      simp only [Function.comp_def, transactionRow, decide_true, List.filter_true] at htail ⊢
      simp only [List.filterMap_cons, hread tx List.mem_cons_self, htail]
  · simp [Function.comp_def, transactionRow, hhash]

/-- The rows of a run are read block by block. -/
theorem readRows_committed (hwithin : ∀ o ∈ offers, o.block.Within) (blockHash : Bytes) :
    readRows blockHash (committedRows C offers) =
      offers.flatMap fun o => if o.block.hashHex C = blockHash then o.block.transactions else [] := by
  rw [readRows, committedRows, List.filter_flatMap, List.filterMap_flatMap]
  exact List.flatMap_congr fun o ho => readRows_block (hwithin o ho) blockHash

/-- A transaction that is read from a block has its row under the hash of the block. -/
theorem Accepts.row_of_read (h : Accepts C fl chain db offers) (hfresh : db.transactions = ∅)
    (hnul : ∀ o ∈ offers, o.block.NulFree) (hwithin : ∀ o ∈ offers, o.block.Within) {b : Block}
    {tx : Transaction}
    (hread : tx ∈ getTransactionsInBlock (afterOffers C db offers) (b.hashHex C)) :
    ∃ row, (afterOffers C db offers).transactions.lookup tx.id = some row ∧
      row.blockHash = some (b.hashHex C) := by
  rw [(getTransactionsInBlock_perm _ b).mem_iff] at hread
  obtain ⟨⟨id, row⟩, hrow, hdecode⟩ := List.mem_filterMap.mp hread
  obtain ⟨hentry, hhash⟩ := List.mem_filter.mp hrow
  obtain ⟨e, he, heq⟩ := List.mem_map.mp hentry
  cases heq
  have hlookup : (afterOffers C db offers).transactions.lookup e.1 = some e.2 :=
    AList.mem_lookup_iff.mpr he
  -- the row is one that the run has written, under the id that it holds
  have hwritten := hlookup
  rw [h.lookup hfresh hnul] at hwritten
  obtain ⟨o, ho, hmem⟩ := List.mem_flatMap.mp (Run.mem_of_written hwritten)
  obtain ⟨tx', htx', hpair⟩ := List.mem_map.mp hmem
  have hsame : tx' = tx := by
    have hrow' : e.2 = transactionRow C o.block tx' := (congrArg Prod.snd hpair).symm
    have hdecode' : (Transaction.deserialize e.2.serialized).toOption = some tx := hdecode
    rw [hrow', show (transactionRow C o.block tx').serialized = tx'.serialize from rfl,
      deserialize_of_within ((hwithin o ho).2.2.2.2.2.2 tx' htx').2] at hdecode'
    exact Option.some.inj hdecode'
  have hid : tx.id = e.1 := hsame ▸ congrArg Prod.fst hpair
  rw [hid]
  exact ⟨e.2, hlookup, of_decide_eq_true hhash⟩

/-! ## History -/

/-- Of blocks with hashes that differ, a hash selects one. -/
theorem flatMap_select {α β κ : Type} [DecidableEq κ] {f : α → κ} (g : α → List β) {l : List α}
    (h : (l.map f).Nodup) {a : α} (ha : a ∈ l) :
    l.flatMap (fun x => if f x = f a then g x else []) = g a := by
  have hnone : ∀ l' : List α, (∀ x ∈ l', f x ≠ f a) →
      l'.flatMap (fun x => if f x = f a then g x else []) = [] := by
    intro l' hne
    exact List.flatMap_eq_nil_iff.mpr fun x hx => if_neg (hne x hx)
  obtain ⟨front, behind, rfl⟩ := List.append_of_mem ha
  rw [List.map_append, List.map_cons, List.nodup_append, List.nodup_cons] at h
  obtain ⟨-, ⟨hbehind, -⟩, hdisjoint⟩ := h
  have hfront : ∀ x ∈ front, f x ≠ f a := fun x hx =>
    hdisjoint _ (List.mem_map_of_mem hx) _ List.mem_cons_self
  have hbehind' : ∀ x ∈ behind, f x ≠ f a := by
    intro x hx heq
    exact hbehind (heq ▸ List.mem_map_of_mem hx)
  rw [List.flatMap_append, List.flatMap_cons, hnone front hfront, hnone behind hbehind', if_pos rfl,
    List.nil_append, List.append_nil]

/-- The ids of the transactions of a run. -/
def idsOf (offers : List Offer) : List Bytes :=
  offers.flatMap fun o => o.block.transactions.map Transaction.id

theorem committedRows_ids (C : Crypto) (offers : List Offer) :
    (committedRows C offers).map Prod.fst = idsOf offers := by
  simp only [committedRows, idsOf, List.map_flatMap, List.map_map]
  rfl

/-- With ids that differ every block of the run is read back. -/
theorem Accepts.kept (h : Accepts C fl chain db offers) (hfresh : db.transactions = ∅)
    (hnul : ∀ o ∈ offers, o.block.NulFree) (hwithin : ∀ o ∈ offers, o.block.Within)
    (hfree : C.CollisionFreeOn {m | ∃ o ∈ offers, m = o.block.serialize})
    (hids : (idsOf offers).Nodup) {o : Offer} (ho : o ∈ offers) :
    Kept C (afterOffers C db offers) o.block := by
  rw [← committedRows_ids C] at hids
  have hlookup := h.lookup hfresh hnul
  constructor
  case inBlock =>
    have hrows := ((StdMap.entries_perm hids hlookup).filter
      fun r => r.2.blockHash = some (o.block.hashHex C)).filterMap
        fun r => (Transaction.deserialize r.2.serialized).toOption
    refine (getTransactionsInBlock_perm _ o.block).trans (hrows.trans (List.Perm.of_eq ?_))
    exact (readRows_committed hwithin (o.block.hashHex C)).trans
      (flatMap_select (fun o => o.block.transactions) (h.hashes_nodup hfree) ho)
  case byId =>
    intro tx htx
    obtain ⟨done, behind, hsplit⟩ := List.append_of_mem ho
    have hpre : done ++ [o] <+: offers := ⟨behind, by simp [hsplit]⟩
    have hid := (h.block hpre).2.1 tx htx
    have hrow : (afterOffers C db offers).transactions.lookup tx.id =
        some (transactionRow C o.block tx) := by
      rw [hlookup, Run.written_eq_some_iff_mem hids]
      exact List.mem_flatMap.mpr ⟨o, ho, List.mem_map.mpr ⟨tx, htx, rfl⟩⟩
    have hload : loadTransaction (some tx.serialize) = tx := by
      rw [loadTransaction, Option.bind_some,
        deserialize_of_within ((hwithin o ho).2.2.2.2.2.2 tx htx).2]
    unfold getTransaction
    rw [cText_of_notMem (hnul o ho tx htx).1, hrow, Option.map_some]
    show (if (loadTransaction (some tx.serialize)).id ≠ [] then _ else _) = tx
    rw [hload, if_pos hid]
    exact hload

/-- **A block takes an id of an earlier one**: then the earlier block is not read back any more. -/
theorem Accepts.not_kept {done : List Offer} {o : Offer} (h : Accepts C fl chain db (done ++ [o]))
    (hfresh : db.transactions = ∅) (hnul : ∀ o' ∈ done ++ [o], o'.block.NulFree)
    (hwithin : ∀ o' ∈ done ++ [o], o'.block.Within)
    (hfree : C.CollisionFreeOn {m | ∃ o' ∈ done ++ [o], m = o'.block.serialize}) {o' : Offer}
    (ho' : o' ∈ done) {tx tx' : Transaction} (htx : tx ∈ o.block.transactions)
    (htx' : tx' ∈ o'.block.transactions) (hid : tx.id = tx'.id) :
    ¬ Kept C (afterOffers C db (done ++ [o])) o'.block := by
  intro hkept
  obtain ⟨row, hrow, hhash⟩ :=
    h.row_of_read hfresh hnul hwithin (hkept.inBlock.symm.subset htx')
  -- the row of the id is that of the last block
  obtain ⟨-, -, hnodup⟩ := h.block List.prefix_rfl
  have hnodup' : ((o.block.transactions.map fun tx =>
      (tx.id, transactionRow C o.block tx)).map Prod.fst).Nodup := by
    rw [List.map_map]
    exact hnodup
  have hlast := (Run.written_eq_some_iff_mem hnodup').mpr (List.mem_map.mpr ⟨tx, htx, rfl⟩)
  rw [← hid, h.lookup hfresh hnul, committedRows_concat, Run.written_append, hlast] at hrow
  cases hrow
  have hnodupHashes := h.hashes_nodup hfree
  rw [List.map_append, List.nodup_append] at hnodupHashes
  exact hnodupHashes.2.2 _ (List.mem_map_of_mem ho') _ List.mem_cons_self
    (Option.some.inj hhash).symm

/-- **Committed history is kept exactly when** no id occurs twice in the run. -/
theorem history_kept_iff (h : Accepts C fl chain db offers) (hfresh : db.transactions = ∅)
    (hnul : ∀ o ∈ offers, o.block.NulFree) (hwithin : ∀ o ∈ offers, o.block.Within)
    (hfree : C.CollisionFreeOn {m | ∃ o ∈ offers, m = o.block.serialize}) :
    (∀ done, done <+: offers → ∀ o ∈ done, Kept C (afterOffers C db done) o.block) ↔
      (idsOf offers).Nodup := by
  have hfree' : ∀ done, done <+: offers →
      C.CollisionFreeOn {m | ∃ o ∈ done, m = o.block.serialize} :=
    fun done hdone => hfree.subset (serializations_subset hdone.subset)
  constructor
  · intro hkept
    suffices hpre : ∀ done, done <+: offers → (idsOf done).Nodup from hpre offers List.prefix_rfl
    intro done hdone
    induction done using List.reverseRecOn with
    | nil => exact List.nodup_nil
    | append_singleton done o ih =>
      have hids : idsOf (done ++ [o]) = idsOf done ++ o.block.transactions.map Transaction.id := by
        rw [idsOf, List.flatMap_append, List.flatMap_singleton]
        rfl
      rw [hids, List.nodup_append]
      refine ⟨ih ((List.prefix_append done [o]).trans hdone), (h.block hdone).2.2, ?_⟩
      rintro id hearly id' hlate rfl
      obtain ⟨o', ho', hmem⟩ := List.mem_flatMap.mp hearly
      obtain ⟨tx', htx', hid'⟩ := List.mem_map.mp hmem
      obtain ⟨tx, htx, hid⟩ := List.mem_map.mp hlate
      refine (h.take hdone).not_kept hfresh (fun a ha => hnul a (hdone.subset ha))
        (fun a ha => hwithin a (hdone.subset ha)) (hfree' _ hdone) ho' htx htx'
        (hid.trans hid'.symm) ?_
      exact hkept _ hdone o' (List.mem_append_left _ ho')
  · intro hids done hdone o ho
    have hids' : (idsOf done).Nodup := by
      obtain ⟨rest, rfl⟩ := hdone
      rw [idsOf, List.flatMap_append] at hids
      exact (List.nodup_append.mp hids).1
    exact (h.take hdone).kept hfresh (fun a ha => hnul a (hdone.subset ha))
      (fun a ha => hwithin a (hdone.subset ha)) (hfree' done hdone) hids' ho

end Run

/-! ## Two transfers -/

/-- A payment of `amount` and a fee of 10 out of the first output of `previous`, to the key `[7]`. -/
def transferTx (id previous : Bytes) (amount : UInt64) : Transaction :=
  polySignTx [7]
    { id
      inputs := [⟨previous, 0, [], []⟩]
      outputs := [⟨addressFromPublicKey polyCrypto [7], amount⟩]
      fee := 10 }

/-- A block over the genesis block that spends the output `([116], 0)` in a transaction `[97]`. -/
def firstTransfer : Block :=
  let txs := [transferTx [97] [116] 90]
  { firstBlock with merkleRoot := calculateTreeHash polyCrypto txs, transactions := txs }

/-- A block over it that spends the output of that transaction. -/
def secondTransfer (id : Bytes) : Block :=
  let txs := [transferTx id [97] 80]
  { secondBlock with
    prevBlockHash := firstTransfer.hashHex polyCrypto
    merkleRoot := calculateTreeHash polyCrypto txs
    transactions := txs }

/-- A block offered without an engine. -/
def plainOffer (b : Block) : Offer := ⟨none, 1700000000, b, 1700000000⟩

def transfers (id : Bytes) : List Offer := [plainOffer firstTransfer, plainOffer (secondTransfer id)]

/-- A database without transactions, with the output `([116], 0)` of 100. -/
def fundedDb : Db :=
  { utxos := (applyTransactions polyCrypto 5 ∅ [mintTx]).getD ∅ }

theorem accepts_pair {F : Type} {C : Crypto} {fl : FloatOps F} {chain : List Block} {db : Db}
    {o o' : Offer} (h : (canAddBlock C fl o.now o.engine chain (some o.block)).ok = true)
    (ha : (applyBlock C o.committed db o.block).1 = true)
    (h' : (canAddBlock C fl o'.now o'.engine (chain ++ [o.block]) (some o'.block)).ok = true)
    (ha' : (applyBlock C o'.committed (afterOffers C db [o]) o'.block).1 = true) :
    Accepts C fl chain db [o, o'] := by
  have hcases : ∀ done a, done ++ [a] <+: [o, o'] → (done = [] ∧ a = o) ∨ (done = [o] ∧ a = o') := by
    intro done a hpre
    obtain ⟨htake, hget⟩ := Run.prefix_concat hpre
    match hlen : done.length with
    | 0 =>
      rw [hlen] at htake hget
      exact .inl ⟨htake, (Option.some.inj hget).symm⟩
    | 1 =>
      rw [hlen] at htake hget
      exact .inr ⟨htake, (Option.some.inj hget).symm⟩
    | n + 2 =>
      rw [hlen] at hget
      cases hget
  constructor
  · intro done a hpre
    rcases hcases done a hpre with ⟨rfl, rfl⟩ | ⟨rfl, rfl⟩
    · rw [List.map_nil, List.append_nil]
      exact h
    · exact h'
  · intro done a hpre
    rcases hcases done a hpre with ⟨rfl, rfl⟩ | ⟨rfl, rfl⟩
    · exact ha
    · exact ha'

theorem accepts_transfers {id : Bytes} (hid : id = [97] ∨ id = [98]) :
    Accepts polyCrypto exactFloat [genesis] fundedDb (transfers id) := by
  rcases hid with rfl | rfl
  · exact accepts_pair (by decide +kernel) (by decide +kernel) (by decide +kernel) (by decide +kernel)
  · exact accepts_pair (by decide +kernel) (by decide +kernel) (by decide +kernel) (by decide +kernel)

theorem history_kept_transfers :
    Kept polyCrypto (afterOffers polyCrypto fundedDb (transfers [98])) firstTransfer ∧
      Kept polyCrypto (afterOffers polyCrypto fundedDb (transfers [98])) (secondTransfer [98]) := by
  have hfree : polyCrypto.CollisionFreeOn {m | ∃ o ∈ transfers [98], m = o.block.serialize} := by
    have key : ∀ a ∈ transfers [98], ∀ b ∈ transfers [98],
        polyCrypto.sha256 a.block.serialize = polyCrypto.sha256 b.block.serialize →
        a.block.serialize = b.block.serialize := by decide +kernel
    rintro m ⟨a, ha, rfl⟩ m' ⟨b, hb, rfl⟩
    exact key a ha b hb
  have hkept := (history_kept_iff (accepts_transfers (.inr rfl)) rfl (by decide +kernel)
    (by decide +kernel) hfree).mpr (by decide +kernel) (transfers [98]) List.prefix_rfl
  exact ⟨hkept (plainOffer firstTransfer) (by simp [transfers]),
    hkept (plainOffer (secondTransfer [98])) (by simp [transfers])⟩

/-- The second block takes the id `[97]` of the transaction that it spends: the first block reads back
empty, and the id gives the second transaction. -/
theorem taken_id_rewrites :
    Accepts polyCrypto exactFloat [genesis] fundedDb (transfers [97]) ∧
      (∀ o ∈ transfers [97], o.block.NulFree ∧ o.block.Within) ∧
      getTransactionsInBlock (afterOffers polyCrypto fundedDb (transfers [97]))
        (firstTransfer.hashHex polyCrypto) = [] ∧
      firstTransfer.transactions = [transferTx [97] [116] 90] ∧
      getTransaction (afterOffers polyCrypto fundedDb (transfers [97])) [97] =
        transferTx [97] [97] 80 ∧
      ¬ Kept polyCrypto (afterOffers polyCrypto fundedDb (transfers [97])) firstTransfer := by
  have hempty : getTransactionsInBlock (afterOffers polyCrypto fundedDb (transfers [97]))
      (firstTransfer.hashHex polyCrypto) = [] := by decide +kernel
  refine ⟨accepts_transfers (.inl rfl), by decide +kernel, hempty, rfl, by decide +kernel, ?_⟩
  intro hkept
  have hperm := hkept.inBlock
  rw [hempty] at hperm
  exact List.cons_ne_nil _ _ hperm.nil_eq.symm

end Mermai
