import Mermai.Db.Ledger
import Mermai.Chain.Blockchain
import Mermai.Lib.Run

/-!
# Db.Accounts — reported balances and the ledger

The same money is in two tables: `accounts`, which `get_account` and the RPC method `get_balance`
read, and `utxos`, which `apply_block` writes.  `seed_database` of the launcher fills both from the
allocations of the genesis file; no function the node runs writes `accounts` afterwards.  So the
reported balances follow the ledger exactly as long as every block pays each address what it takes
from it (`balances_follow_iff`).

* `seedDatabase` — the launcher's seeding, with the errors of the SQL statements;
* `unspentOf` — the unspent outputs of an address;
* `takenFrom`, `paidTo` — what a block takes from an address and pays to it, read off the block and
  the table before it.
-/

namespace Mermai

open Sql

/-! ## Accounts -/

/-- `mermai_db::Account`. -/
structure Account where
  address : Bytes
  balance : UInt64 := 0
  nonce : UInt32 := 0
  lastActivity : UInt64 := 0

/-- `get_account`: zeros when there is no row. -/
def getAccount (db : Db) (address : Bytes) : Account :=
  match db.accounts.lookup (cText address) with
  | none => { address }
  | some row => ⟨address, row.balance.toUInt64, row.nonce.toUInt32, row.lastActivity.toUInt64⟩

/-- The number `get_balance` returns. -/
def getBalance (db : Db) (address : Bytes) : UInt64 := (getAccount db address).balance

/-- The sum of the unspent outputs of an address. -/
def unspentOf (t : Utxos) (address : Bytes) : ℕ :=
  total (fun u => if u.address = cText address then u.value else 0) t

/-- Every reported balance is the sum of the unspent outputs of the address. -/
def BalancesFollow (db : Db) : Prop :=
  ∀ address, (getBalance db address).toNat = unspentOf db.utxos address

/-! ## Seeding -/

/-- An entry of `allocations` in the genesis file.  Addresses are text without NUL bytes: the
launcher binds them whole, and the node reads them up to the first NUL. -/
structure Allocation where
  address : Bytes
  balance : ℤ
  text : 0 ∉ address

/-- An entry of `validators` in the genesis file. -/
structure GenesisValidator where
  address : Bytes
  stake : ℤ
  publicKey : Bytes

structure GenesisData where
  allocations : List Allocation
  validators : List GenesisValidator

/-- A Python integer as a bound parameter; out of range it raises `OverflowError`. -/
def bindInt (n : ℤ) : Option Int64 :=
  if -2 ^ 63 ≤ n ∧ n < 2 ^ 63 then some (Int64.ofInt n) else none

/-- The id of the output of an allocation: `genesis-` and the address. -/
def genesisTxId (address : Bytes) : Bytes := [103, 101, 110, 101, 115, 105, 115, 45] ++ address

/-- The two insertions for an allocation; `none` when one of them raises. -/
def seedAllocation (now : ℕ) (db : Db) (a : Allocation) : Option Db := do
  let balance ← bindInt a.balance
  let accounts ← insertNew db.accounts a.address ⟨balance, 0, Int64.ofNat now⟩
  if h : 0 < balance then
    let utxos ← insertNew db.utxos (genesisTxId a.address, 0) ⟨a.address, balance, h⟩
    some { db with accounts, utxos }
  else none

/-- The insertion for a validator; `none` when it raises. -/
def seedValidator (now : ℕ) (db : Db) (v : GenesisValidator) : Option Db := do
  let stake ← bindInt v.stake
  let row := ⟨stake, Int64.ofInt (now - 86400), 0, v.publicKey⟩
  let validators ← insertNew db.validators v.address row
  some { db with validators }

/-- `seed_database` at clock `now`; `none` when it raises before the commit. -/
def seedDatabase (now : ℕ) (g : GenesisData) : Option Db := do
  let db ← g.allocations.foldlM (seedAllocation now) {}
  g.validators.foldlM (seedValidator now) db

theorem seedAllocation_eq_some {now : ℕ} {db db' : Db} {a : Allocation}
    (h : seedAllocation now db a = some db') :
    ∃ (row : AccountRow) (u : Utxo), u.address = a.address ∧ row.balance = u.amount ∧
      a.address ∉ db.accounts ∧ db'.accounts = db.accounts.insert a.address row ∧
      insertNew db.utxos (genesisTxId a.address, 0) u = some db'.utxos := by
  obtain ⟨balance, -, h⟩ := Option.bind_eq_some_iff.mp h
  obtain ⟨accounts, ha, h⟩ := Option.bind_eq_some_iff.mp h
  obtain ⟨hnew, rfl⟩ := insertNew_eq_some.mp ha
  split_ifs at h with hpos
  obtain ⟨utxos, hu, h⟩ := Option.bind_eq_some_iff.mp h
  cases h
  exact ⟨_, _, rfl, rfl, hnew, rfl, hu⟩

/-- One allocation writes the same amount in both tables. -/
theorem seedAllocation_follow {now : ℕ} {db db' : Db} {a : Allocation} (hdb : BalancesFollow db)
    (h : seedAllocation now db a = some db') : BalancesFollow db' := by
  obtain ⟨row, u, haddr, hbal, hnew, hacc, hins⟩ := seedAllocation_eq_some h
  intro address
  have hsum : unspentOf db'.utxos address = unspentOf db.utxos address +
      if u.address = cText address then u.value else 0 := total_insertNew _ hins
  have hold := hdb address
  rw [hsum]
  unfold getBalance getAccount at hold ⊢
  rw [hacc]
  by_cases heq : cText address = a.address
  · rw [heq, AList.lookup_eq_none.mpr hnew] at hold
    rw [heq, AList.lookup_insert, haddr, if_pos rfl, ← hold]
    show row.balance.toUInt64.toNat = 0 + u.value
    rw [hbal, u.toUInt64_amount, Nat.zero_add]
  · rw [AList.lookup_insert_ne heq, haddr, if_neg (Ne.symm heq), Nat.add_zero]
    exact hold

/-- **Seeding**: in a seeded database the balances follow the ledger. -/
theorem seedDatabase_follow {now : ℕ} {g : GenesisData} {db : Db}
    (h : seedDatabase now g = some db) : BalancesFollow db := by
  obtain ⟨db', ha, hv⟩ := Option.bind_eq_some_iff.mp h
  have hempty : BalancesFollow {} := fun _ => rfl
  have hdb' : BalancesFollow db' :=
    Run.foldlM_invariant BalancesFollow (fun _ _ _ hs => seedAllocation_follow hs) hempty ha
  refine Run.foldlM_invariant BalancesFollow ?_ hdb' hv
  intro s v s' hs hstep
  obtain ⟨stake, -, hstep⟩ := Option.bind_eq_some_iff.mp hstep
  obtain ⟨validators, -, hstep⟩ := Option.bind_eq_some_iff.mp hstep
  cases hstep
  exact hs

/-! ## What a block takes and pays -/

/-- A view of the table: the address and the amount under a key. -/
abbrev Rows := Bytes × Int32 → Option (Bytes × ℕ)

/-- The rows of a table. -/
def rowsOf (t : Utxos) : Rows := fun k => (t.lookup k).map fun u => (u.address, u.value)

/-- The output stored under a key by the loop over the outputs, from an index on. -/
def createdAt (txId : Bytes) : ℕ → List TxOutput → Bytes × Int32 → Option TxOutput
  | _, [], _ => none
  | index, o :: rest, k =>
    if outKey txId (UInt32.ofNat index) = k then some o else createdAt txId (index + 1) rest k

/-- The rows after a transaction, under the keys that are still live. -/
def Rows.after (C : Crypto) (rows : Rows) (tx : Transaction) : Rows := fun k =>
  match createdAt (tx.rowId C) 0 tx.outputs k with
  | some o => some (cText o.address, o.amount.toNat)
  | none => rows k

/-- What a row holds for an address. -/
def share (address : Bytes) : Option (Bytes × ℕ) → ℕ
  | some (owner, amount) => if owner = cText address then amount else 0
  | none => 0

/-- What the inputs of a list of transactions take from an address. -/
def takenFromRows (C : Crypto) (address : Bytes) : Rows → List Transaction → ℕ
  | _, [] => 0
  | rows, tx :: txs =>
    (tx.inputs.map fun i => share address (rows i.key)).sum +
      takenFromRows C address (rows.after C tx) txs

/-- What a block takes from an address, when the table before it is `t`. -/
def takenFrom (C : Crypto) (t : Utxos) (b : Block) (address : Bytes) : ℕ :=
  takenFromRows C address (rowsOf t) b.transactions

/-- The amount an output pays to an address. -/
def TxOutput.paysTo (address : Bytes) (o : TxOutput) : ℕ :=
  if cText o.address = cText address then o.amount.toNat else 0

/-- What a block pays to an address. -/
def paidTo (b : Block) (address : Bytes) : ℕ :=
  (b.transactions.map fun tx => (tx.outputs.map (TxOutput.paysTo address)).sum).sum

/-! ## The equation of a block -/

/-- The view knows every row of the table. -/
def Covers (rows : Rows) (t : Utxos) : Prop :=
  ∀ k u, t.lookup k = some u → rows k = some (u.address, u.value)

theorem covers_rowsOf (t : Utxos) : Covers (rowsOf t) t := fun k u hu => by rw [rowsOf, hu]; rfl

/-- A row after saving is that of the output stored under its key, or an old one. -/
theorem saveOutputs_createdAt {txId : Bytes} {t t' : Utxos} {n : ℕ} {os : List TxOutput}
    (h : saveOutputs txId t n os = some t') {k : Bytes × Int32} {u : Utxo}
    (hk : t'.lookup k = some u) :
    match createdAt txId n os k with
    | some o => u.address = cText o.address ∧ u.value = o.amount.toNat
    | none => t.lookup k = some u := by
  induction os generalizing t n with
  | nil =>
    cases h
    exact hk
  | cons o os ih =>
    obtain ⟨s, hs, h⟩ := Option.bind_eq_some_iff.mp h
    obtain ⟨v, haddr, hval, hins⟩ := saveUnspentOutput_eq_some hs
    obtain ⟨-, rfl⟩ := insertNew_eq_some.mp hins
    unfold createdAt
    split_ifs with heq
    · -- the row stays to the end of the loop
      have hv : t'.lookup k = some v := by
        refine saveOutputs_lookup h ?_
        rw [heq, AList.lookup_insert]
      have huv : v = u := Option.some.inj (hv.symm.trans hk)
      exact huv ▸ ⟨haddr, hval⟩
    · have hrest := ih h
      rwa [AList.lookup_insert_ne (Ne.symm heq)] at hrest

/-- Spending only deletes rows. -/
theorem lookup_of_spendInputs {t t' : Utxos} {inputs : List TxInput}
    (h : spendInputs t inputs = some t') {k : Bytes × Int32} {u : Utxo}
    (hk : t'.lookup k = some u) : t.lookup k = some u := by
  induction inputs generalizing t with
  | nil =>
    cases h
    exact hk
  | cons i inputs ih =>
    obtain ⟨-, h⟩ := spendInputs_cons.mp h
    have herase := ih h
    have hne : k ≠ i.key := by
      rintro rfl
      rw [AList.lookup_erase] at herase
      cases herase
    rwa [AList.lookup_erase_ne hne] at herase

theorem covers_saveOutputs {C : Crypto} {rows : Rows} {tx : Transaction} {t t' : Utxos}
    (hc : Covers rows t) (h : saveOutputs (tx.rowId C) t 0 tx.outputs = some t') :
    Covers (rows.after C tx) t' := by
  intro k u hk
  have hrow := saveOutputs_createdAt h hk
  unfold Rows.after
  split at hrow
  · rw [hrow.1, hrow.2]
  · exact hc k u hrow

theorem saveOutputs_unspentOf {txId : Bytes} {t t' : Utxos} {n : ℕ} {os : List TxOutput}
    (h : saveOutputs txId t n os = some t') (address : Bytes) :
    unspentOf t' address = unspentOf t address + (os.map (TxOutput.paysTo address)).sum := by
  refine saveOutputs_sum ?_ h
  intro u o haddr hval
  rw [TxOutput.paysTo, haddr, hval]

/-- One transaction moves what its inputs take and its outputs pay. -/
theorem applyTransaction_unspentOf {C : Crypto} {now : ℕ} {rows : Rows} {t t' : Utxos}
    {tx : Transaction} (hc : Covers rows t) (h : applyTransaction C now t tx = some t') :
    Covers (rows.after C tx) t' ∧ ∀ address,
      unspentOf t' address + (tx.inputs.map fun i => share address (rows i.key)).sum =
        unspentOf t address + (tx.outputs.map (TxOutput.paysTo address)).sum := by
  rcases applyTransaction_eq_some h with ⟨hin, hsave⟩ | ⟨-, value, s, hv, hs, hsave⟩
  · refine ⟨covers_saveOutputs hc hsave, ?_⟩
    intro address
    rw [saveOutputs_unspentOf hsave address, hin]
    rfl
  · refine ⟨covers_saveOutputs (fun k u hk => hc k u (lookup_of_spendInputs hs hk)) hsave, ?_⟩
    intro address
    have hspent : unspentOf t address =
        unspentOf s address + (tx.inputs.map fun i => share address (rows i.key)).sum := by
      refine spendInputs_sum hs ?_
      intro i hi
      obtain ⟨u, hu, -⟩ := hv.rows i hi
      exact ⟨u, hu, by rw [hc _ u hu]; rfl⟩
    rw [saveOutputs_unspentOf hsave address, hspent]
    omega

theorem applyTransactions_unspentOf {C : Crypto} {now : ℕ} {rows : Rows} {t t' : Utxos}
    {txs : List Transaction} (hc : Covers rows t) (h : applyTransactions C now t txs = some t')
    (address : Bytes) :
    unspentOf t' address + takenFromRows C address rows txs = unspentOf t address +
      (txs.map fun tx => (tx.outputs.map (TxOutput.paysTo address)).sum).sum := by
  induction txs generalizing t rows with
  | nil =>
    cases h
    rfl
  | cons tx txs ih =>
    obtain ⟨s, hs, h⟩ := applyTransactions_cons.mp h
    obtain ⟨hc', hstep⟩ := applyTransaction_unspentOf hc hs
    have h1 := hstep address
    have h2 := ih hc' h
    rw [takenFromRows, List.map_cons, List.sum_cons]
    omega

/-- **The equation of a committed block**, for every address. -/
theorem applyBlock_unspentOf {C : Crypto} {now : ℕ} {db : Db} {b : Block}
    (h : (applyBlock C now db b).1 = true) (address : Bytes) :
    unspentOf (applyBlock C now db b).2.utxos address + takenFrom C db.utxos b address =
      unspentOf db.utxos address + paidTo b address :=
  applyTransactions_unspentOf (covers_rowsOf db.utxos) (applyBlock_eq_true h).1 address

/-! ## Runs -/

theorem getBalance_applyBlock (C : Crypto) (now : ℕ) (db : Db) (b : Block) (address : Bytes) :
    getBalance (applyBlock C now db b).2 address = getBalance db address := by
  rw [getBalance, getBalance, getAccount, getAccount, (applyBlock_frame C now db b).1]

/-- A committed block keeps the law exactly when it pays each address what it takes from it. -/
theorem applyBlock_follow_iff {C : Crypto} {now : ℕ} {db : Db} {b : Block}
    (hdb : BalancesFollow db) (h : (applyBlock C now db b).1 = true) :
    BalancesFollow (applyBlock C now db b).2 ↔
      ∀ address, paidTo b address = takenFrom C db.utxos b address := by
  unfold BalancesFollow at hdb ⊢
  refine forall_congr' fun address => ?_
  have heq := applyBlock_unspentOf h address
  rw [getBalance_applyBlock, hdb address]
  omega

/-- **Reported balances**: from every seeded database, over every run of calls, the balances follow
the ledger after each call exactly when every committed block pays each address what it takes from
it. -/
theorem balances_follow_iff (C : Crypto) (now : ℕ) (g : GenesisData) (db₀ : Db)
    (hseed : seedDatabase now g = some db₀) (calls : List (ℕ × Block)) :
    (∀ done, done <+: calls → BalancesFollow (applyBlocks C db₀ done)) ↔
    ∀ done now b, done ++ [(now, b)] <+: calls →
      (applyBlock C now (applyBlocks C db₀ done) b).1 = true →
      ∀ address, paidTo b address = takenFrom C (applyBlocks C db₀ done).utxos b address := by
  constructor
  · intro h done now b hpre hok
    have hbefore := h done ((List.prefix_append done _).trans hpre)
    have hafter := h _ hpre
    rw [applyBlocks, List.foldl_append, ← applyBlocks] at hafter
    exact (applyBlock_follow_iff hbefore hok).mp hafter
  · intro h done hdone
    refine Run.foldl_invariant BalancesFollow (seedDatabase_follow hseed) ?_ hdone
    rintro pre ⟨now, b⟩ hpre hinv
    cases hok : (applyBlock C now (applyBlocks C db₀ pre) b).1 with
    | true => exact (applyBlock_follow_iff hinv hok).mpr (h pre now b hpre hok)
    | false =>
      show BalancesFollow (applyBlock C now (applyBlocks C db₀ pre) b).2
      rw [applyBlock_eq_false hok]
      exact hinv

/-! ## Two runs -/

/-- One allocation, to the address of the key `[7]`. -/
def aliceGenesis : GenesisData where
  allocations := [⟨addressFromPublicKey polyCrypto [7], 100, by decide +kernel⟩]
  validators := []

/-- The whole allocation paid to an address, signed with the key. -/
def spendAllocation (receiver : Bytes) : Block where
  transactions := [polySignTx [7]
    { id := [116], inputs := [⟨genesisTxId (addressFromPublicKey polyCrypto [7]), 0, [], [7]⟩]
      outputs := [⟨receiver, 100⟩] }]

/-- The seeded database. -/
def aliceDb : Db := (seedDatabase 5 aliceGenesis).get (by decide +kernel)

theorem aliceDb_eq : seedDatabase 5 aliceGenesis = some aliceDb := (Option.some_get _).symm

/-- Alice pays herself: the balances still follow. -/
theorem balances_follow_self :
    seedDatabase 5 aliceGenesis = some aliceDb ∧
      (applyBlock polyCrypto 5 aliceDb
        (spendAllocation (addressFromPublicKey polyCrypto [7]))).1 = true ∧
      BalancesFollow (applyBlocks polyCrypto aliceDb
        [(5, spendAllocation (addressFromPublicKey polyCrypto [7]))]) := by
  refine ⟨aliceDb_eq, by decide +kernel, ?_⟩
  refine (balances_follow_iff polyCrypto 5 aliceGenesis aliceDb aliceDb_eq
    [(5, spendAllocation (addressFromPublicKey polyCrypto [7]))]).mpr ?_ _ List.prefix_rfl
  intro done now b hpre _ address
  obtain ⟨hdone, hb⟩ := Run.prefix_concat hpre
  have hlen : done.length = 0 := by
    have := (List.getElem?_eq_some_iff.mp hb).1
    simpa using this
  rw [List.length_eq_zero_iff] at hlen
  subst hlen
  cases hb
  have hkey : outKey (genesisTxId (addressFromPublicKey polyCrypto [7])) 0 =
      (genesisTxId (addressFromPublicKey polyCrypto [7]), 0) := by decide +kernel
  have hrow : rowsOf aliceDb.utxos (genesisTxId (addressFromPublicKey polyCrypto [7]), 0) =
      some (cText (addressFromPublicKey polyCrypto [7]), 100) := by decide +kernel
  simp [paidTo, takenFrom, takenFromRows, spendAllocation, polySignTx, TxOutput.paysTo,
    TxInput.key, applyBlocks, hkey, hrow, share]

/-- **A payment**: Alice pays Bob, and both balances stay as they were seeded. -/
theorem balances_stale_after_payment :
    seedDatabase 5 aliceGenesis = some aliceDb ∧
      (applyBlock polyCrypto 5 aliceDb (spendAllocation [98])).1 = true ∧
      ¬ BalancesFollow (applyBlocks polyCrypto aliceDb [(5, spendAllocation [98])]) := by
  refine ⟨aliceDb_eq, by decide +kernel, ?_⟩
  intro h
  exact absurd (h [98]) (by decide +kernel)

end Mermai
