import Mermai.Db.Ledger
import Mathlib.Data.List.Induction

/-!
# Db.Recovery — rolling the database back

`rollback_to` of the recovery script deletes the blocks and the state roots above a height and clears
the mempool; it leaves `utxos` and `transactions` as they are.  `apply_block` writes all of these, so
the rollback restores the ledger of the height exactly when the deleted blocks wrote nothing but
their own rows, and the heights fit the signed column (`recovers_iff`).

* `commitAll` — a run of committed blocks with a state root saved after each;
* `commitAll_rows` — without a collision of SHA-256 the rows are those of the blocks, in order;
* `lookup_commitAll` — a row of `transactions` names the block that wrote it last.
-/

namespace Mermai

open Sql

/-! ## State roots and the script -/

/-- `save_state_root`. -/
def saveStateRoot (db : Db) (blockHeight : UInt32) (stateRoot : Bytes) : Db :=
  { db with stateRoots := db.stateRoots.insert blockHeight.toInt32 (cText stateRoot) }

/-- `rollback_to` on an existing database; `none` when there is no state root at the height and the
script exits. -/
def rollbackTo (db : Db) (targetHeight : ℤ) : Option Db :=
  if ∃ k ∈ db.stateRoots.keys, k.toInt = targetHeight then
    some { db with
      blocks := db.blocks.deleteWhere fun r => targetHeight < r.height.toInt
      stateRoots := deleteKeys db.stateRoots fun k => targetHeight < k.toInt
      mempool := ∅ }
  else none

/-! ## Runs of committed blocks -/

/-- A block, the clock when it is committed, and the state root saved for it. -/
structure Commit where
  now : ℕ
  block : Block
  root : Bytes

/-- The database after one commit. -/
def commit (C : Crypto) (db : Db) (c : Commit) : Db :=
  saveStateRoot (applyBlock C c.now db c.block).2 c.block.height c.root

def commitAll (C : Crypto) (db : Db) (cs : List Commit) : Db := cs.foldl (commit C) db

/-- `apply_block` succeeds on every block, one after the other. -/
def Committed (C : Crypto) : Db → List Commit → Prop
  | _, [] => True
  | db, c :: cs => (applyBlock C c.now db c.block).1 = true ∧ Committed C (commit C db c) cs

/-- The blocks, unspent outputs and transactions of two databases are the same rows. -/
def SameLedger (db db' : Db) : Prop :=
  (∀ row, row ∈ db.blocks.rows ↔ row ∈ db'.blocks.rows) ∧
  (∀ k, db.utxos.lookup k = db'.utxos.lookup k) ∧
  (∀ k, (db.transactions.lookup k) = db'.transactions.lookup k)

/-- Rolling back to `H` after the run restores the ledger of the first `H` blocks, and the other
blocks can be applied again. -/
def Recovers (C : Crypto) (db : Db) (cs : List Commit) (H : ℕ) : Prop :=
  ∃ db', rollbackTo (commitAll C db cs) H = some db' ∧
    SameLedger db' (commitAll C db (cs.take H)) ∧ Committed C db' (cs.drop H)

theorem commitAll_append (C : Crypto) (db : Db) (cs cs' : List Commit) :
    commitAll C db (cs ++ cs') = commitAll C (commitAll C db cs) cs' := List.foldl_append

theorem committed_append {C : Crypto} {db : Db} {cs cs' : List Commit} :
    Committed C db (cs ++ cs') ↔ Committed C db cs ∧ Committed C (commitAll C db cs) cs' := by
  induction cs generalizing db with
  | nil => simp [Committed, commitAll]
  | cons c cs ih =>
    rw [List.cons_append, Committed, Committed, ih, and_assoc]
    rfl

theorem Committed.take {C : Crypto} {db : Db} {cs : List Commit} (h : Committed C db cs) (H : ℕ) :
    Committed C db (cs.take H) := by
  rw [← List.take_append_drop H cs] at h
  exact (committed_append.mp h).1

/-! ## What one commit writes -/

/-- A block without transactions always commits, and writes its own row only. -/
theorem commit_quiet (C : Crypto) (db : Db) {c : Commit} (h : c.block.transactions = []) :
    (applyBlock C c.now db c.block).1 = true ∧ (commit C db c).utxos = db.utxos ∧
      (commit C db c).transactions = db.transactions := by
  unfold commit saveStateRoot applyBlock
  rw [h]
  refine ⟨rfl, rfl, ?_⟩
  show c.block.transactions.foldl _ db.transactions = _
  rw [h]
  rfl

theorem commitAll_quiet (C : Crypto) (db : Db) {cs : List Commit}
    (h : ∀ c ∈ cs, c.block.transactions = []) :
    Committed C db cs ∧ (commitAll C db cs).utxos = db.utxos ∧
      (commitAll C db cs).transactions = db.transactions := by
  induction cs generalizing db with
  | nil => exact ⟨trivial, rfl, rfl⟩
  | cons c cs ih =>
    obtain ⟨hok, hu, ht⟩ := commit_quiet C db (h c (by simp))
    obtain ⟨hrest, hu', ht'⟩ := ih (commit C db c) fun d hd => h d (by simp [hd])
    exact ⟨⟨hok, hrest⟩, hu'.trans hu, ht'.trans ht⟩

/-- A state root, once saved, stays in the table. -/
theorem mem_stateRoots {C : Crypto} {db : Db} {cs : List Commit} {k : Int32}
    (h : k ∈ db.stateRoots ∨ ∃ c ∈ cs, c.block.height.toInt32 = k) :
    k ∈ (commitAll C db cs).stateRoots := by
  induction cs generalizing db with
  | nil =>
    rcases h with h | ⟨_, hc, -⟩
    · exact h
    · cases hc
  | cons c cs ih =>
    refine ih ?_
    have hins : (commit C db c).stateRoots =
        db.stateRoots.insert c.block.height.toInt32 (cText c.root) := by
      show (applyBlock C c.now db c.block).2.stateRoots.insert _ _ = _
      rw [(applyBlock_frame C c.now db c.block).2]
    rw [hins, AList.mem_insert]
    rcases h with h | ⟨d, hd, rfl⟩
    · exact .inl (.inr h)
    · rcases List.mem_cons.mp hd with rfl | hd
      · exact .inl (.inl rfl)
      · exact .inr ⟨d, hd, rfl⟩

/-! ## The rows of `blocks` -/

/-- The heights of the run are 1, 2, 3, … -/
def Numbered (cs : List Commit) : Prop :=
  ∀ i c, cs[i]? = some c → c.block.height.toNat = i + 1

/-- SHA-256 does not collide on the blocks of the run. -/
def HashesDiffer (C : Crypto) (cs : List Commit) : Prop :=
  C.CollisionFreeOn {s | ∃ c ∈ cs, s = c.block.serialize}

theorem HashesDiffer.subset {C : Crypto} {cs cs' : List Commit} (h : HashesDiffer C cs)
    (hsub : cs' ⊆ cs) : HashesDiffer C cs' :=
  Crypto.CollisionFreeOn.subset h fun _ ⟨c, hc, hm⟩ => ⟨c, hsub hc, hm⟩

theorem HashesDiffer.height {C : Crypto} {cs : List Commit} (h : HashesDiffer C cs) {c d : Commit}
    (hc : c ∈ cs) (hd : d ∈ cs)
    (heq : (blockRow C c.block).hash = (blockRow C d.block).hash) : c.block.height = d.block.height :=
  height_of_rowHash h ⟨c, hc, rfl⟩ ⟨d, hd, rfl⟩ heq

theorem Numbered.mem {cs : List Commit} (h : Numbered cs) {c : Commit} (hc : c ∈ cs) :
    0 < c.block.height.toNat ∧ c.block.height.toNat ≤ cs.length := by
  obtain ⟨i, hi⟩ := List.getElem?_of_mem hc
  have hlt := (List.getElem?_eq_some_iff.mp hi).1
  have hheight := h i c hi
  omega

theorem Numbered.take {cs : List Commit} (h : Numbered cs) (H : ℕ) : Numbered (cs.take H) := by
  intro i c hc
  rw [List.getElem?_take] at hc
  split_ifs at hc
  exact h i c hc

theorem Numbered.mem_take {cs : List Commit} (h : Numbered cs) {H : ℕ} {c : Commit}
    (hc : c ∈ cs.take H) : c.block.height.toNat ≤ H :=
  ((h.take H).mem hc).2.trans (List.length_take_le H cs)

theorem Numbered.mem_drop {cs : List Commit} (h : Numbered cs) {H : ℕ} {c : Commit}
    (hc : c ∈ cs.drop H) : H < c.block.height.toNat := by
  obtain ⟨i, hi⟩ := List.getElem?_of_mem hc
  rw [List.getElem?_drop] at hi
  have := h _ c hi
  omega

/-- The rows are those of the blocks, in order: none replaces another. -/
theorem commitAll_rows {C : Crypto} {db : Db} {cs : List Commit} (hdb : db.blocks = .empty)
    (hnum : Numbered cs) (hhash : HashesDiffer C cs) (hrun : Committed C db cs) :
    (commitAll C db cs).blocks.rows = cs.map fun c => blockRow C c.block := by
  induction cs using List.reverseRecOn with
  | nil =>
    show db.blocks.rows = []
    rw [hdb]
    rfl
  | append_singleton cs c ih =>
    have hpre : Numbered cs := by
      have := hnum.take cs.length
      rwa [List.take_left] at this
    obtain ⟨hrun', hlast⟩ := committed_append.mp hrun
    have hrows := ih hpre (hhash.subset (List.subset_append_left cs [c])) hrun'
    have hins : (commitAll C db (cs ++ [c])).blocks =
        (commitAll C db cs).blocks.insertOrReplace (blockRow C c.block) := by
      rw [commitAll_append]
      exact (applyBlock_eq_true hlast.1).2.1
    have hfresh : ∀ row ∈ (commitAll C db cs).blocks.rows,
        row.hash ≠ (blockRow C c.block).hash ∧ row.height ≠ (blockRow C c.block).height := by
      intro row hrow
      rw [hrows] at hrow
      obtain ⟨d, hd, rfl⟩ := List.mem_map.mp hrow
      have hlt := (hpre.mem hd).2
      have hc : c.block.height.toNat = cs.length + 1 := hnum cs.length c (by simp)
      have hne : d.block.height ≠ c.block.height := by
        intro heq
        rw [heq] at hlt
        omega
      exact ⟨fun heq => hne (hhash.height (by simp [hd]) (by simp) heq),
        fun heq => hne (toInt32_inj heq)⟩
    rw [hins]
    show (commitAll C db cs).blocks.others _ ++ [_] = _
    rw [UniqueTable.others_eq_rows hfresh, hrows, List.map_append]
    rfl

/-! ## The rows of `transactions` -/

/-- The hashes of the blocks of a run, as the column `block_hash` holds them. -/
def hashes (C : Crypto) (cs : List Commit) : List Bytes := cs.map fun c => (blockRow C c.block).hash

/-- One row of `transactions` is written with the hash of the block. -/
theorem lookup_saveTransactions {C : Crypto} {hash : Bytes} {t : Table Bytes TransactionRow}
    {txs : List Transaction} {k : Bytes} {row : TransactionRow}
    (h : (txs.foldl (saveTransaction C hash) t).lookup k = some row) :
    row.blockHash = some (cText hash) ∨
      (t.lookup k = some row ∧ ∀ tx ∈ txs, cText (tx.rowId C) ≠ k) := by
  induction txs generalizing t with
  | nil => exact .inr ⟨h, by simp⟩
  | cons tx txs ih =>
    rcases ih h with hhash | ⟨hrow, hne⟩
    · exact .inl hhash
    · unfold saveTransaction at hrow
      by_cases heq : cText (tx.rowId C) = k
      · rw [heq, AList.lookup_insert] at hrow
        exact .inl (Option.some.inj hrow ▸ rfl)
      · rw [AList.lookup_insert_ne (Ne.symm heq)] at hrow
        refine .inr ⟨hrow, ?_⟩
        intro tx' htx'
        rcases List.mem_cons.mp htx' with rfl | htx'
        · exact heq
        · exact hne tx' htx'

/-- A row of `transactions` after a run was written by the run, or is from before it. -/
theorem lookup_commitAll {C : Crypto} {db : Db} {cs : List Commit} (hrun : Committed C db cs)
    {k : Bytes} {row : TransactionRow}
    (h : (commitAll C db cs).transactions.lookup k = some row) :
    (∃ hash ∈ hashes C cs, row.blockHash = some hash) ∨
      (db.transactions.lookup k = some row ∧
        ∀ c ∈ cs, ∀ tx ∈ c.block.transactions, cText (tx.rowId C) ≠ k) := by
  induction cs generalizing db with
  | nil => exact .inr ⟨h, by simp⟩
  | cons c cs ih =>
    rcases ih hrun.2 h with ⟨hash, hmem, hrow⟩ | ⟨hrow, hne⟩
    · exact .inl ⟨hash, List.mem_cons_of_mem _ hmem, hrow⟩
    · have hcommit : (commit C db c).transactions =
          c.block.transactions.foldl (saveTransaction C (c.block.hashHex C)) db.transactions :=
        applyBlock_transactions hrun.1
      rw [hcommit] at hrow
      rcases lookup_saveTransactions hrow with hhash | ⟨hrow, hne'⟩
      · exact .inl ⟨_, List.mem_cons_self, hhash⟩
      · refine .inr ⟨hrow, ?_⟩
        intro d hd
        rcases List.mem_cons.mp hd with rfl | hd
        · exact hne'
        · exact hne d hd

/-- A saved transaction has a row. -/
theorem mem_commitAll {C : Crypto} {db : Db} {cs : List Commit} (hrun : Committed C db cs)
    {k : Bytes} (h : k ∈ db.transactions ∨
      ∃ c ∈ cs, ∃ tx ∈ c.block.transactions, cText (tx.rowId C) = k) :
    k ∈ (commitAll C db cs).transactions := by
  induction cs generalizing db with
  | nil =>
    rcases h with h | ⟨_, hc, -⟩
    · exact h
    · cases hc
  | cons c cs ih =>
    refine ih hrun.2 ?_
    have hcommit : k ∈ (commit C db c).transactions ↔
        k ∈ db.transactions ∨ ∃ tx ∈ c.block.transactions, k = cText (tx.rowId C) :=
      mem_applyBlock_transactions hrun.1
    rw [hcommit]
    rcases h with h | ⟨d, hd, tx, htx, rfl⟩
    · exact .inl (.inl h)
    · rcases List.mem_cons.mp hd with rfl | hd
      · exact .inl (.inr ⟨tx, htx, rfl⟩)
      · exact .inr ⟨d, hd, tx, htx, rfl⟩

/-- The row of a transaction of the run names a block of the run. -/
theorem exists_row {C : Crypto} {db : Db} {cs : List Commit} (hrun : Committed C db cs) {c : Commit}
    (hc : c ∈ cs) {tx : Transaction} (htx : tx ∈ c.block.transactions) :
    ∃ row, (commitAll C db cs).transactions.lookup (cText (tx.rowId C)) = some row ∧
      ∃ hash ∈ hashes C cs, row.blockHash = some hash := by
  have hmem : cText (tx.rowId C) ∈ (commitAll C db cs).transactions :=
    mem_commitAll hrun (.inr ⟨c, hc, tx, htx, rfl⟩)
  obtain ⟨row, hrow⟩ := Option.isSome_iff_exists.mp (AList.lookup_isSome.mpr hmem)
  refine ⟨row, hrow, ?_⟩
  rcases lookup_commitAll hrun hrow with h | ⟨-, hnone⟩
  · exact h
  · exact absurd rfl (hnone c hc tx htx)

/-! ## Recovery -/

section Recovery

variable {C : Crypto} {db₀ : Db} {cs : List Commit} {H : ℕ}

theorem rollbackTo_eq_some {db db' : Db} {target : ℤ} (h : rollbackTo db target = some db') :
    (∃ k ∈ db.stateRoots.keys, k.toInt = target) ∧
      db'.blocks.rows = db.blocks.rows.filter (fun r => ¬ target < r.height.toInt) ∧
      db'.utxos = db.utxos ∧ db'.transactions = db.transactions := by
  unfold rollbackTo at h
  split_ifs at h with hroot
  cases h
  exact ⟨hroot, by simp [UniqueTable.deleteWhere], rfl, rfl⟩

/-- Of the rows of the run, the script keeps those of the first `H` blocks. -/
theorem filter_rows (hnum : Numbered cs) (hlen : cs.length < 2 ^ 31) :
    (cs.map fun c => blockRow C c.block).filter (fun r => ¬ (H : ℤ) < r.height.toInt) =
      (cs.take H).map fun c => blockRow C c.block := by
  have hint : ∀ c ∈ cs, (blockRow C c.block).height.toInt = c.block.height.toNat := by
    intro c hc
    exact toInt_toInt32 (lt_of_le_of_lt (hnum.mem hc).2 hlen)
  nth_rewrite 1 [← List.take_append_drop H cs]
  rw [List.map_append, List.filter_append, List.filter_eq_self.mpr, List.filter_eq_nil_iff.mpr,
    List.append_nil]
  · intro row hrow
    obtain ⟨c, hc, rfl⟩ := List.mem_map.mp hrow
    have hgt := hnum.mem_drop hc
    rw [hint c (List.mem_of_mem_drop hc)]
    simpa using hgt
  · intro row hrow
    obtain ⟨c, hc, rfl⟩ := List.mem_map.mp hrow
    have hle := hnum.mem_take hc
    rw [hint c (List.mem_of_mem_take hc)]
    simpa using hle

/-- The script finds the state root of every height the signed column can hold. -/
theorem root_found (hroot : 0 ∈ db₀.stateRoots) (hnum : Numbered cs) (hlen : cs.length < 2 ^ 31)
    (hH : H < cs.length) :
    ∃ k ∈ (commitAll C db₀ cs).stateRoots.keys, k.toInt = (H : ℤ) := by
  rcases Nat.eq_zero_or_pos H with rfl | hpos
  · exact ⟨0, AList.mem_keys.mp (mem_stateRoots (.inl hroot)), rfl⟩
  · obtain ⟨c, hc⟩ : ∃ c, cs[H - 1]? = some c :=
      ⟨_, List.getElem?_eq_getElem (show H - 1 < cs.length by omega)⟩
    have hheight : c.block.height.toNat = H := by
      rw [hnum _ c hc]
      omega
    refine ⟨c.block.height.toInt32,
      AList.mem_keys.mp (mem_stateRoots (.inr ⟨c, List.mem_of_getElem? hc, rfl⟩)), ?_⟩
    rw [toInt_toInt32 (by omega), hheight]

/-- Heights past the signed column are negative there: the script keeps their rows. -/
theorem length_lt_of_recovers (hdb : db₀.blocks = .empty) (hnum : Numbered cs)
    (hhash : HashesDiffer C cs) (hrun : Committed C db₀ cs) (hH : H < cs.length)
    (h : Recovers C db₀ cs H) : cs.length < 2 ^ 31 := by
  by_contra hlen
  obtain ⟨db', hroll, ⟨hblocks, -, -⟩, -⟩ := h
  obtain ⟨-, hrows, -, -⟩ := rollbackTo_eq_some hroll
  obtain ⟨c, hc⟩ : ∃ c, cs[cs.length - 1]? = some c :=
    ⟨_, List.getElem?_eq_getElem (show cs.length - 1 < cs.length by omega)⟩
  have hheight : c.block.height.toNat = cs.length := by
    rw [hnum _ c hc]
    omega
  have hneg : (blockRow C c.block).height.toInt < 0 := by
    have hlt := c.block.height.toNat_lt
    show c.block.height.toBitVec.toInt < 0
    rw [BitVec.toInt_eq_toNat_cond, if_neg]
    · show (c.block.height.toNat : ℤ) - _ < 0
      omega
    · show ¬ 2 * c.block.height.toNat < _
      omega
  have hkept : blockRow C c.block ∈ db'.blocks.rows := by
    rw [hrows, commitAll_rows hdb hnum hhash hrun, List.mem_filter]
    refine ⟨List.mem_map_of_mem (List.mem_of_getElem? hc), ?_⟩
    simp
    omega
  have hold := (hblocks _).mp hkept
  rw [commitAll_rows hdb (hnum.take H) (hhash.subset (List.take_subset H cs)) (hrun.take H)] at hold
  obtain ⟨d, hd, heq⟩ := List.mem_map.mp hold
  have hsame : d.block.height = c.block.height := toInt32_inj (congrArg BlockRow.height heq)
  have hle := hnum.mem_take hd
  rw [hsame, hheight] at hle
  omega

/-- A transaction above the height leaves a row that names a deleted block. -/
theorem quiet_of_recovers (htx : db₀.transactions = ∅) (hnum : Numbered cs)
    (hhash : HashesDiffer C cs) (hrun : Committed C db₀ cs) (h : Recovers C db₀ cs H) :
    ∀ c ∈ cs.drop H, c.block.transactions = [] := by
  intro c hc
  by_contra hne
  obtain ⟨tx, htxmem⟩ := List.exists_mem_of_ne_nil _ hne
  obtain ⟨db', hroll, ⟨-, -, htrans⟩, -⟩ := h
  obtain ⟨-, -, -, hsame⟩ := rollbackTo_eq_some hroll
  have hsplit := hrun
  rw [← List.take_append_drop H cs, committed_append] at hsplit
  obtain ⟨hrun₁, hrun₂⟩ := hsplit
  have hwhole : commitAll C db₀ cs = commitAll C (commitAll C db₀ (cs.take H)) (cs.drop H) := by
    rw [← commitAll_append, List.take_append_drop]
  -- after the run the row of `tx` names a block above `H`, before it one up to `H`
  obtain ⟨row, hrow, hash, hmem, hcol⟩ := exists_row hrun₂ hc htxmem
  have hrow' : (commitAll C db₀ (cs.take H)).transactions.lookup (cText (tx.rowId C)) =
      some row := by
    rw [← htrans, hsame, hwhole, hrow]
  obtain ⟨hash', hmem', hcol'⟩ : ∃ hash ∈ hashes C (cs.take H), row.blockHash = some hash := by
    rcases lookup_commitAll hrun₁ hrow' with h | ⟨hnone, -⟩
    · exact h
    · rw [htx] at hnone
      cases hnone
  obtain ⟨d, hd, rfl⟩ := List.mem_map.mp hmem
  obtain ⟨d', hd', rfl⟩ := List.mem_map.mp hmem'
  have heq : d.block.height = d'.block.height := hhash.height (List.mem_of_mem_drop hd)
    (List.mem_of_mem_take hd') (Option.some.inj (hcol.symm.trans hcol'))
  have hgt := hnum.mem_drop hd
  have hle := hnum.mem_take hd'
  rw [heq] at hgt
  omega

end Recovery

/-- **Recovery**: for every database without stored blocks and transactions, every committed run with
heights 1, …, n and a state root at every height, and every `H < n`, the script restores the ledger of
height `H` exactly when no block above `H` has transactions and the heights fit the signed column. -/
theorem recovers_iff (C : Crypto) (db₀ : Db) (hblocks : db₀.blocks = .empty)
    (htx : db₀.transactions = ∅) (hroot : 0 ∈ db₀.stateRoots) (cs : List Commit)
    (hnum : Numbered cs) (hhash : HashesDiffer C cs) (hrun : Committed C db₀ cs) (H : ℕ)
    (hH : H < cs.length) :
    Recovers C db₀ cs H ↔
      (∀ c ∈ cs.drop H, c.block.transactions = []) ∧ cs.length < 2 ^ 31 := by
  constructor
  · intro h
    exact ⟨quiet_of_recovers htx hnum hhash hrun h,
      length_lt_of_recovers hblocks hnum hhash hrun hH h⟩
  · rintro ⟨hquiet, hlen⟩
    have hfound := root_found (C := C) hroot hnum hlen hH
    have hhash' : HashesDiffer C (cs.take H) := hhash.subset (List.take_subset H cs)
    obtain ⟨-, hu, ht⟩ := commitAll_quiet C (commitAll C db₀ (cs.take H)) hquiet
    rw [← commitAll_append, List.take_append_drop] at hu ht
    refine ⟨_, if_pos hfound, ⟨?_, ?_, ?_⟩, (commitAll_quiet C _ hquiet).1⟩
    · intro row
      rw [commitAll_rows hblocks (hnum.take H) hhash' (hrun.take H), ← filter_rows hnum hlen,
        ← commitAll_rows hblocks hnum hhash hrun]
      simp [UniqueTable.deleteWhere]
    · intro k
      rw [← hu]
    · intro k
      rw [← ht]

/-! ## Two runs -/

/-- A new database with the state root of height 0. -/
def rootedDb : Db := saveStateRoot {} 0 [114]

/-- A block that creates the output `([116], 0)`. -/
def mintCommit : Commit := ⟨5, { height := 1, transactions := [mintTx] }, [114]⟩

/-- Two blocks, the second without transactions. -/
def quietRun : List Commit := [mintCommit, ⟨5, { height := 2 }, [114]⟩]

/-- Two blocks, the second spending the output of the first. -/
def spendingRun : List Commit :=
  [mintCommit, ⟨5, { height := 2, transactions := [paymentTx [117]] }, [114]⟩]

theorem numbered_pair {c d : Commit} (hc : c.block.height = 1) (hd : d.block.height = 2) :
    Numbered [c, d] := by
  intro i e he
  match i, he with
  | 0, he => cases he; rw [hc]; rfl
  | 1, he => cases he; rw [hd]; rfl

theorem recovers_quietRun :
    quietRun.length = 2 ∧ Recovers polyCrypto rootedDb quietRun 1 := by
  have hhash : HashesDiffer polyCrypto quietRun := by
    have key : ∀ c ∈ quietRun, ∀ d ∈ quietRun,
        polyCrypto.sha256 c.block.serialize = polyCrypto.sha256 d.block.serialize →
        c.block.serialize = d.block.serialize := by decide +kernel
    rintro m ⟨c, hc, rfl⟩ m' ⟨d, hd, rfl⟩
    exact key c hc d hd
  have hrun : Committed polyCrypto rootedDb quietRun :=
    ⟨by decide +kernel, by decide +kernel, trivial⟩
  refine ⟨rfl, (recovers_iff polyCrypto rootedDb rfl rfl (by decide +kernel) quietRun
    (numbered_pair rfl rfl) hhash hrun 1 (by decide)).mpr ⟨?_, by decide⟩⟩
  decide

/-- **A spent output stays spent**: after the rollback the second block can not be applied again. -/
theorem not_recovers_spendingRun :
    Numbered spendingRun ∧ Committed polyCrypto rootedDb spendingRun ∧
      ¬ Recovers polyCrypto rootedDb spendingRun 1 := by
  refine ⟨numbered_pair rfl rfl, ⟨by decide +kernel, by decide +kernel, trivial⟩, ?_⟩
  rintro ⟨db', hroll, -, hagain, -⟩
  have key : ∀ db' ∈ rollbackTo (commitAll polyCrypto rootedDb spendingRun) 1,
      (applyBlock polyCrypto 5 db'
        { height := 2, transactions := [paymentTx [117]] }).1 = false := by decide +kernel
  rw [key db' hroll] at hagain
  cases hagain

end Mermai
