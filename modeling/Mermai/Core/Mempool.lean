import Mermai.Lib.Run
import Mermai.Lib.StdMap
import Mermai.Core.Verify
import Mathlib.Data.Finset.Basic

/-!
# Core.Mempool — the transaction pool

`mermai_mempool`: the waiting transactions by id, and the outputs they spend in a set of its own.  An
insertion into a full pool evicts the transaction of the lowest fee.  Releasing the outputs of a
transaction that leaves is right only as long as no other transaction spends them, so the two facts
are one invariant (`Sound`), and every call keeps it.
-/

namespace Mermai

open Sql (Table)
open StdMap

/-- Some input of the transaction spends the output. -/
def Transaction.Spends (tx : Transaction) (o : Bytes × UInt32) : Prop :=
  ∃ i ∈ tx.inputs, i.outpoint = o

/-- `mermai_mempool`. -/
structure Mempool where
  maxCapacity : ℕ
  transactions : Table Bytes Transaction := ∅
  pendingUtxos : Finset (Bytes × UInt32) := ∅

namespace Mempool

/-! ## The pool -/

/-- `size`. -/
def size (m : Mempool) : ℕ := StdMap.size m.transactions

/-- `has_transaction`. -/
def hasTransaction (m : Mempool) (id : Bytes) : Bool := id ∈ m.transactions

/-- `is_utxo_spent`. -/
def isUtxoSpent (m : Mempool) (txHash : Bytes) (outputIndex : UInt32) : Bool :=
  (txHash, outputIndex) ∈ m.pendingUtxos

/-- The outputs of the inputs leave `pending_utxos`, and the transaction leaves the pool. -/
def release (m : Mempool) (id : Bytes) (tx : Transaction) : Mempool :=
  { m with transactions := m.transactions.erase id
           pendingUtxos := tx.inputs.foldl (fun s i => s.erase i.outpoint) m.pendingUtxos }

/-- The outputs of the inputs enter `pending_utxos`, and the transaction enters the pool. -/
def store (m : Mempool) (id : Bytes) (tx : Transaction) : Mempool :=
  { m with transactions := m.transactions.insert id tx
           pendingUtxos := tx.inputs.foldl (fun s i => insert i.outpoint s) m.pendingUtxos }

/-- The entry of the lowest fee. -/
def lowest (m : Mempool) : Option (Bytes × Transaction) :=
  minElement (fun a b => a.2.fee < b.2.fee) (inOrder m.transactions)

/-- A full pool evicts for a higher fee. -/
def makeRoom (m : Mempool) (fee : UInt64) : Option Mempool :=
  if m.size ≥ m.maxCapacity then
    match m.lowest with
    | none => none
    | some (id, tx) => if tx.fee < fee then some (m.release id tx) else none
  else some m

/-- `add_transaction`. -/
def addTransaction (C : Crypto) (m : Mempool) (tx : Transaction) : Bool × Mempool :=
  if tx.rowId C ∈ m.transactions then (false, m)
  else if ∃ i ∈ tx.inputs, i.outpoint ∈ m.pendingUtxos then (false, m)
  else match m.makeRoom tx.fee with
    | none => (false, m)
    | some m => (true, m.store (tx.rowId C) tx)

/-- `remove_transaction`. -/
def removeTransaction (m : Mempool) (id : Bytes) : Bool × Mempool :=
  match m.transactions.lookup id with
  | none => (false, m)
  | some tx => (true, m.release id tx)

/-- `clear`. -/
def clear (m : Mempool) : Mempool := { m with transactions := ∅, pendingUtxos := ∅ }

/-- What `get_transactions` may return: `std::sort` leaves transactions of the same fee in any order. -/
def GetTransactions (m : Mempool) (limit : UInt32) (list : List Transaction) : Prop :=
  ∃ sorted : List Transaction, sorted.Perm ((inOrder m.transactions).map Prod.snd) ∧
    sorted.Pairwise (fun a b => a.fee ≥ b.fee) ∧ list = sorted.take limit.toNat

/-- `get_transactions`, with a sort that keeps the order of the ids among equal fees. -/
def getTransactions (m : Mempool) (limit : UInt32) : List Transaction :=
  (((inOrder m.transactions).map Prod.snd).mergeSort fun a b => a.fee ≥ b.fee).take limit.toNat

theorem getTransactions_spec (m : Mempool) (limit : UInt32) :
    m.GetTransactions limit (m.getTransactions limit) := by
  refine ⟨_, List.mergeSort_perm _ _, ?_, rfl⟩
  have htrans : ∀ a b c : Transaction, decide (a.fee ≥ b.fee) = true →
      decide (b.fee ≥ c.fee) = true → decide (a.fee ≥ c.fee) = true := by
    intro a b c hab hbc
    exact decide_eq_true (UInt64.le_trans (of_decide_eq_true hbc) (of_decide_eq_true hab))
  have htotal : ∀ a b : Transaction, (decide (a.fee ≥ b.fee) || decide (b.fee ≥ a.fee)) = true := by
    intro a b
    simpa using UInt64.le_total b.fee a.fee
  exact (List.pairwise_mergeSort htrans htotal _).imp fun hab => of_decide_eq_true hab

/-- A call of the pool that can change it. -/
inductive Call
  | addTransaction (tx : Transaction)
  | removeTransaction (id : Bytes)
  | clear

def call (C : Crypto) (m : Mempool) : Call → Mempool
  | .addTransaction tx => (m.addTransaction C tx).2
  | .removeTransaction id => (m.removeTransaction id).2
  | .clear => m.clear

/-- The pool after a run of calls. -/
def run (C : Crypto) (capacity : ℕ) (calls : List Call) : Mempool :=
  calls.foldl (call C) { maxCapacity := capacity }

/-! ## The invariant -/

/-- `pending_utxos` lists what the stored transactions spend, and each of it is spent by one of them. -/
structure Sound (m : Mempool) : Prop where
  pending : ∀ o, o ∈ m.pendingUtxos ↔ ∃ id tx, m.transactions.lookup id = some tx ∧ tx.Spends o
  exclusive : ∀ {id id' tx tx' o}, m.transactions.lookup id = some tx →
    m.transactions.lookup id' = some tx' → tx.Spends o → tx'.Spends o → id = id'

theorem mem_foldl_erase (l : List TxInput) (s : Finset (Bytes × UInt32)) (o : Bytes × UInt32) :
    o ∈ l.foldl (fun s i => s.erase i.outpoint) s ↔ o ∈ s ∧ ∀ i ∈ l, i.outpoint ≠ o := by
  induction l generalizing s with
  | nil => simp
  | cons i l ih =>
    rw [List.foldl_cons, ih, Finset.mem_erase, List.forall_mem_cons, ne_comm]
    tauto

theorem mem_foldl_insert (l : List TxInput) (s : Finset (Bytes × UInt32)) (o : Bytes × UInt32) :
    o ∈ l.foldl (fun s i => insert i.outpoint s) s ↔ o ∈ s ∨ ∃ i ∈ l, i.outpoint = o := by
  induction l generalizing s with
  | nil => simp
  | cons i l ih =>
    rw [List.foldl_cons, ih, Finset.mem_insert, List.exists_mem_cons_iff, eq_comm]
    tauto

theorem sound_empty (capacity : ℕ) : Sound { maxCapacity := capacity } := by
  constructor
  · intro o
    simp
  · intro id id' tx tx' o h
    simp at h

theorem lookup_release_eq_some {m : Mempool} {id id' : Bytes} {tx tx' : Transaction} :
    (m.release id tx).transactions.lookup id' = some tx' ↔
      id' ≠ id ∧ m.transactions.lookup id' = some tx' := by
  show (m.transactions.erase id).lookup id' = some tx' ↔ _
  by_cases h : id' = id
  · rw [h, AList.lookup_erase]
    simp
  · simp [h, AList.lookup_erase_ne]

/-- A transaction that leaves takes its own outputs along and no others. -/
theorem Sound.release {m : Mempool} (h : m.Sound) {id : Bytes} {tx : Transaction}
    (htx : m.transactions.lookup id = some tx) : (m.release id tx).Sound := by
  constructor
  · intro o
    show o ∈ tx.inputs.foldl _ m.pendingUtxos ↔ _
    rw [mem_foldl_erase, h.pending]
    constructor
    · rintro ⟨⟨id', tx', hlook, hspends⟩, hnot⟩
      refine ⟨id', tx', lookup_release_eq_some.mpr ⟨?_, hlook⟩, hspends⟩
      rintro rfl
      obtain rfl : tx' = tx := Option.some.inj (hlook.symm.trans htx)
      obtain ⟨i, hi, hio⟩ := hspends
      exact hnot i hi hio
    · rintro ⟨id', tx', hlook, hspends⟩
      obtain ⟨hne, hlook⟩ := lookup_release_eq_some.mp hlook
      refine ⟨⟨id', tx', hlook, hspends⟩, ?_⟩
      intro i hi hio
      exact hne (h.exclusive hlook htx hspends ⟨i, hi, hio⟩)
  · intro id₁ id₂ tx₁ tx₂ o h₁ h₂
    exact h.exclusive (lookup_release_eq_some.mp h₁).2 (lookup_release_eq_some.mp h₂).2

theorem lookup_store_eq_some {m : Mempool} {id id' : Bytes} {tx tx' : Transaction}
    (hid : id ∉ m.transactions) : (m.store id tx).transactions.lookup id' = some tx' ↔
      (id' = id ∧ tx' = tx) ∨ m.transactions.lookup id' = some tx' := by
  show (m.transactions.insert id tx).lookup id' = some tx' ↔ _
  by_cases hne : id' = id
  · subst hne
    simp [AList.lookup_eq_none.mpr hid, eq_comm]
  · simp [hne, AList.lookup_insert_ne]

/-- A transaction enters when its id is new and no stored one spends its outputs. -/
theorem Sound.store {m : Mempool} (h : m.Sound) {id : Bytes} {tx : Transaction}
    (hid : id ∉ m.transactions) (hfree : ∀ o ∈ m.pendingUtxos, ¬ tx.Spends o) :
    (m.store id tx).Sound := by
  have hclash : ∀ {id' tx' o}, m.transactions.lookup id' = some tx' → tx'.Spends o →
      ¬ tx.Spends o :=
    fun hlook' hspends => hfree _ ((h.pending _).mpr ⟨_, _, hlook', hspends⟩)
  constructor
  · intro o
    show o ∈ tx.inputs.foldl _ m.pendingUtxos ↔ _
    rw [mem_foldl_insert, h.pending]
    constructor
    · rintro (⟨id', tx', hold, hspends⟩ | hspends)
      · exact ⟨id', tx', (lookup_store_eq_some hid).mpr (.inr hold), hspends⟩
      · exact ⟨id, tx, (lookup_store_eq_some hid).mpr (.inl ⟨rfl, rfl⟩), hspends⟩
    · rintro ⟨id', tx', hnew, hspends⟩
      rcases (lookup_store_eq_some hid).mp hnew with ⟨rfl, rfl⟩ | hold
      · exact .inr hspends
      · exact .inl ⟨id', tx', hold, hspends⟩
  · intro id₁ id₂ tx₁ tx₂ o h₁ h₂ hs₁ hs₂
    rcases (lookup_store_eq_some hid).mp h₁ with ⟨hid₁, htx₁⟩ | hold₁
    · rcases (lookup_store_eq_some hid).mp h₂ with ⟨hid₂, -⟩ | hold₂
      · rw [hid₁, hid₂]
      · exact absurd (htx₁ ▸ hs₁) (hclash hold₂ hs₂)
    · rcases (lookup_store_eq_some hid).mp h₂ with ⟨-, htx₂⟩ | hold₂
      · exact absurd (htx₂ ▸ hs₂) (hclash hold₁ hs₁)
      · exact h.exclusive hold₁ hold₂ hs₁ hs₂

/-! ## One call -/

theorem lookup_of_lowest {m : Mempool} {id : Bytes} {tx : Transaction}
    (h : m.lowest = some (id, tx)) : m.transactions.lookup id = some tx :=
  mem_inOrder.mp (minElement_mem _ h)

/-- What room is made of: the pool as it is, or without its lowest entry. -/
theorem makeRoom_eq_some {m m' : Mempool} {fee : UInt64} (h : m.makeRoom fee = some m') :
    (m.size < m.maxCapacity ∧ m' = m) ∨
    (m.maxCapacity ≤ m.size ∧ ∃ id tx, m.lowest = some (id, tx) ∧ tx.fee < fee ∧
      m' = m.release id tx) := by
  unfold makeRoom at h
  split_ifs at h with hfull
  · right
    refine ⟨hfull, ?_⟩
    cases hlow : m.lowest with
    | none =>
      rw [hlow] at h
      cases h
    | some entry =>
      obtain ⟨id, tx⟩ := entry
      rw [hlow] at h
      dsimp only at h
      split_ifs at h with hfee
      · cases h
        exact ⟨id, tx, rfl, hfee, rfl⟩
  · cases h
    exact .inl ⟨not_le.mp hfull, rfl⟩

/-- The outcomes of `add_transaction`. -/
theorem addTransaction_cases (C : Crypto) (m : Mempool) (tx : Transaction) :
    m.addTransaction C tx = (false, m) ∨
    (tx.rowId C ∉ m.transactions ∧ (∀ o ∈ m.pendingUtxos, ¬ tx.Spends o) ∧
      ∃ m', m.makeRoom tx.fee = some m' ∧
        m.addTransaction C tx = (true, m'.store (tx.rowId C) tx)) := by
  unfold addTransaction
  split_ifs with hid hclash
  · exact .inl rfl
  · exact .inl rfl
  · cases hroom : m.makeRoom tx.fee with
    | none => exact .inl rfl
    | some m' =>
      refine .inr ⟨hid, ?_, m', rfl, rfl⟩
      rintro o ho ⟨i, hi, rfl⟩
      exact hclash ⟨i, hi, ho⟩

/-- What `Sound` says, and the bound on the size. -/
structure Within (capacity : ℕ) (m : Mempool) : Prop extends Sound m where
  capacity_eq : m.maxCapacity = capacity
  size_le : m.size ≤ capacity

variable {capacity : ℕ} {m : Mempool}

theorem Within.release (h : m.Within capacity) {id : Bytes} {tx : Transaction}
    (htx : m.transactions.lookup id = some tx) : (m.release id tx).Within capacity where
  toSound := h.toSound.release htx
  capacity_eq := h.capacity_eq
  size_le := by
    have hid : id ∈ m.transactions := by
      rw [← AList.lookup_isSome, htx]
      rfl
    have herase := size_erase hid
    have hle : StdMap.size m.transactions ≤ capacity := h.size_le
    show StdMap.size (m.transactions.erase id) ≤ capacity
    omega

/-- An insertion into a full pool is paid for by the eviction. -/
theorem Within.addTransaction (h : m.Within capacity) (C : Crypto) (tx : Transaction) :
    (m.addTransaction C tx).2.Within capacity := by
  rcases addTransaction_cases C m tx with hout | ⟨hid, hfree, m', hroom, hout⟩
  · rw [hout]
    exact h
  · rw [hout]
    rcases makeRoom_eq_some hroom with ⟨hlt, hsame⟩ | ⟨-, low, lowTx, hlow, -, hevict⟩
    · rw [hsame]
      refine ⟨h.toSound.store hid hfree, h.capacity_eq, ?_⟩
      have hins := size_insert hid tx
      have hcap := h.capacity_eq
      have hlt' : StdMap.size m.transactions < m.maxCapacity := hlt
      show StdMap.size (m.transactions.insert (tx.rowId C) tx) ≤ capacity
      omega
    · rw [hevict]
      have hlook := lookup_of_lowest hlow
      have hlowIn : low ∈ m.transactions := by
        rw [← AList.lookup_isSome, hlook]
        rfl
      have hid' : tx.rowId C ∉ (m.release low lowTx).transactions := by
        show tx.rowId C ∉ m.transactions.erase low
        simp [AList.mem_erase, hid]
      refine ⟨(h.toSound.release hlook).store hid' ?_, h.capacity_eq, ?_⟩
      · intro o ho
        exact hfree o ((mem_foldl_erase _ _ _).mp ho).1
      · have hins := size_insert hid' tx
        have herase := size_erase hlowIn
        have hle : StdMap.size m.transactions ≤ capacity := h.size_le
        show StdMap.size ((m.release low lowTx).transactions.insert (tx.rowId C) tx) ≤ capacity
        rw [hins]
        show StdMap.size (m.transactions.erase low) + 1 ≤ capacity
        omega

theorem Within.removeTransaction (h : m.Within capacity) (id : Bytes) :
    (m.removeTransaction id).2.Within capacity := by
  unfold Mempool.removeTransaction
  cases htx : m.transactions.lookup id with
  | none => exact h
  | some tx => exact h.release htx

theorem within_empty (capacity : ℕ) : Within capacity { maxCapacity := capacity } :=
  ⟨sound_empty capacity, rfl, Nat.zero_le capacity⟩

theorem Within.clear (h : m.Within capacity) : m.clear.Within capacity := by
  have hclear : m.clear = { maxCapacity := capacity } := by rw [← h.capacity_eq]; rfl
  rw [hclear]
  exact within_empty capacity

theorem Within.call (h : m.Within capacity) (C : Crypto) (c : Call) :
    (m.call C c).Within capacity := by
  cases c with
  | addTransaction tx => exact h.addTransaction C tx
  | removeTransaction id => exact h.removeTransaction id
  | clear => exact h.clear

/-! ## Runs -/

theorem within_run (C : Crypto) (capacity : ℕ) (calls : List Call) :
    (run C capacity calls).Within capacity :=
  Run.foldl_invariant (Within capacity) (within_empty capacity)
    (fun _ c _ hinv => hinv.call C c) List.prefix_rfl

/-- Two places of a returned list hold different stored transactions. -/
theorem Sound.getTransactions (h : m.Sound) {limit : UInt32} {list : List Transaction}
    (hlist : m.GetTransactions limit list) :
    list.Pairwise fun a b => ∀ o, a.Spends o → ¬ b.Spends o := by
  obtain ⟨sorted, hperm, -, rfl⟩ := hlist
  have hentries : (inOrder m.transactions).Pairwise
      fun a b => ∀ o, a.2.Spends o → ¬ b.2.Spends o := by
    refine (inOrder_pairwise m.transactions).imp_of_mem ?_
    intro a b ha hb hne o hao hbo
    exact hne (h.exclusive (mem_inOrder.mp ha) (mem_inOrder.mp hb) hao hbo)
  have hstored : ((inOrder m.transactions).map Prod.snd).Pairwise
      fun a b => ∀ o, a.Spends o → ¬ b.Spends o := List.pairwise_map.mpr hentries
  have hsymm : ∀ {a b : Transaction}, (∀ o, a.Spends o → ¬ b.Spends o) →
      ∀ o, b.Spends o → ¬ a.Spends o := fun hab o hb ha => hab o ha hb
  exact ((hperm.pairwise_iff hsymm).mpr hstored).sublist (List.take_sublist _ _)

/-- **No double spend in the pool**: after every run of calls, whatever the capacity,
`pending_utxos` lists exactly what the stored transactions spend, no two of them spend the same
output, the pool is within its capacity, every list it returns spends each output through one
transaction, and `is_utxo_spent` is exact. -/
theorem run_no_double_spend (C : Crypto) (capacity : ℕ) (calls : List Call) :
    let m := run C capacity calls
    (∀ o, o ∈ m.pendingUtxos ↔ ∃ id tx, m.transactions.lookup id = some tx ∧ tx.Spends o) ∧
    (∀ id id' tx tx' o, m.transactions.lookup id = some tx →
      m.transactions.lookup id' = some tx' → id ≠ id' → tx.Spends o → ¬ tx'.Spends o) ∧
    m.size ≤ capacity ∧
    (∀ limit list, m.GetTransactions limit list →
      list.Pairwise fun a b => ∀ o, a.Spends o → ¬ b.Spends o) ∧
    ∀ txHash outputIndex, m.isUtxoSpent txHash outputIndex = true ↔
      ∃ id tx, m.transactions.lookup id = some tx ∧ tx.Spends (txHash, outputIndex) := by
  intro m
  have h : m.Within capacity := within_run C capacity calls
  refine ⟨h.pending, ?_, h.size_le, ?_, ?_⟩
  · intro id id' tx tx' o hlook hlook' hne hspends hspends'
    exact hne (h.exclusive hlook hlook' hspends hspends')
  · intro limit list hlist
    exact h.toSound.getTransactions hlist
  · intro txHash outputIndex
    rw [isUtxoSpent, decide_eq_true_eq]
    exact h.pending _

/-! ## Admission -/

/-- The entry has the lowest fee of the pool. -/
def LowestFee (m : Mempool) (id : Bytes) (tx : Transaction) : Prop :=
  m.transactions.lookup id = some tx ∧
    ∀ id' tx', m.transactions.lookup id' = some tx' → tx.fee ≤ tx'.fee

theorem lowestFee_of_lowest {id : Bytes} {tx : Transaction} (h : m.lowest = some (id, tx)) :
    m.LowestFee id tx := by
  refine ⟨lookup_of_lowest h, fun id' tx' hlook => ?_⟩
  have hleast := minElement_least (fun a b : Bytes × Transaction => a.2.fee < b.2.fee)
    (fun a b hlt => decide_eq_false (UInt64.not_lt.mpr (UInt64.le_of_lt (of_decide_eq_true hlt))))
    (fun a b c hab hbc => decide_eq_false (UInt64.not_lt.mpr (UInt64.le_trans
      (UInt64.not_lt.mp (of_decide_eq_false hbc)) (UInt64.not_lt.mp (of_decide_eq_false hab)))))
    h (id', tx') (mem_inOrder.mpr hlook)
  exact UInt64.not_lt.mp (of_decide_eq_false hleast)

theorem exists_lowest (h : 0 < m.size) : ∃ id tx, m.lowest = some (id, tx) := by
  have hne : inOrder m.transactions ≠ [] := by
    intro hnil
    have hlen := (inOrder_perm m.transactions).length_eq
    rw [hnil, List.length_map] at hlen
    have hsize : m.size = m.transactions.entries.length := rfl
    rw [List.length_nil] at hlen
    omega
  obtain ⟨⟨id, tx⟩, hlow⟩ := exists_minElement (fun a b : Bytes × Transaction => a.2.fee < b.2.fee) hne
  exact ⟨id, tx, hlow⟩

/-- Why `add_transaction` returns false: the id is there, an input is pending, or the pool is full of
transactions that pay as much. -/
def Refusal (C : Crypto) (m : Mempool) (tx : Transaction) : Prop :=
  tx.rowId C ∈ m.transactions ∨ (∃ o ∈ m.pendingUtxos, tx.Spends o) ∨
    (m.maxCapacity ≤ m.size ∧ ∃ id low, m.LowestFee id low ∧ tx.fee ≤ low.fee)

theorem refusal_of_refused (C : Crypto) {tx : Transaction} (hcapacity : 1 ≤ m.maxCapacity)
    (h : (m.addTransaction C tx).1 = false) : m.Refusal C tx := by
  unfold addTransaction at h
  split_ifs at h with hid hclash
  · exact .inl hid
  · obtain ⟨i, hi, hpending⟩ := hclash
    exact .inr (.inl ⟨_, hpending, i, hi, rfl⟩)
  · refine .inr (.inr ?_)
    by_cases hfull : m.size ≥ m.maxCapacity
    · obtain ⟨id, low, hlow⟩ := exists_lowest (hcapacity.trans hfull)
      refine ⟨hfull, id, low, lowestFee_of_lowest hlow, UInt64.not_lt.mp fun hlt => ?_⟩
      rw [makeRoom, if_pos hfull, hlow] at h
      simp [hlt] at h
    · rw [makeRoom, if_neg hfull] at h
      cases h

/-- What the pool gains and loses when a transaction comes in, in the place of another or of none. -/
structure Exchanged (m m' : Mempool) (id : Bytes) (tx : Transaction)
    (evicted : Option (Bytes × Transaction)) : Prop where
  isNew : id ∉ m.transactions
  stored : ∀ id', m'.transactions.lookup id' = if id' = id then some tx
    else if id' ∈ evicted.map Prod.fst then none else m.transactions.lookup id'
  enters : ∀ o, (o ∈ m'.pendingUtxos ∧ o ∉ m.pendingUtxos) ↔ tx.Spends o
  leaves : ∀ o, (o ∈ m.pendingUtxos ∧ o ∉ m'.pendingUtxos) ↔ ∃ e ∈ evicted, e.2.Spends o

theorem exchanged_store {id : Bytes} {tx : Transaction} (hid : id ∉ m.transactions)
    (hfree : ∀ o ∈ m.pendingUtxos, ¬ tx.Spends o) : Exchanged m (m.store id tx) id tx none := by
  have hmem : ∀ o, o ∈ (m.store id tx).pendingUtxos ↔ o ∈ m.pendingUtxos ∨ tx.Spends o :=
    mem_foldl_insert _ _
  refine ⟨hid, fun id' => ?_, fun o => ?_, fun o => ?_⟩
  · show (m.transactions.insert id tx).lookup id' = _
    split_ifs with heq hnone
    · rw [heq, AList.lookup_insert]
    · cases hnone
    · rw [AList.lookup_insert_ne heq]
  · rw [hmem]
    constructor
    · rintro ⟨hold | hspends, hnot⟩
      · exact absurd hold hnot
      · exact hspends
    · exact fun hspends => ⟨.inr hspends, fun hold => hfree o hold hspends⟩
  · rw [hmem]
    simp only [Option.not_mem_none, false_and, exists_false, iff_false]
    exact fun h => h.2 (.inl h.1)

theorem Sound.exchanged_evict (h : m.Sound) {id low : Bytes} {tx lowTx : Transaction}
    (hid : id ∉ m.transactions) (hfree : ∀ o ∈ m.pendingUtxos, ¬ tx.Spends o)
    (hlow : m.transactions.lookup low = some lowTx) :
    Exchanged m ((m.release low lowTx).store id tx) id tx (some (low, lowTx)) := by
  have hmem : ∀ o, o ∈ ((m.release low lowTx).store id tx).pendingUtxos ↔
      (o ∈ m.pendingUtxos ∧ ¬ lowTx.Spends o) ∨ tx.Spends o := by
    intro o
    have hreleased := mem_foldl_erase lowTx.inputs m.pendingUtxos o
    rw [show o ∈ ((m.release low lowTx).store id tx).pendingUtxos ↔ _ from mem_foldl_insert _ _ o]
    refine or_congr_left (hreleased.trans (and_congr_right fun _ => ?_))
    simp [Transaction.Spends]
  have hlowPending : ∀ o, lowTx.Spends o → o ∈ m.pendingUtxos :=
    fun o hspends => (h.pending o).mpr ⟨low, lowTx, hlow, hspends⟩
  refine ⟨hid, fun id' => ?_, fun o => ?_, fun o => ?_⟩
  · show ((m.release low lowTx).transactions.insert id tx).lookup id' = _
    split_ifs with heq hgone
    · rw [heq, AList.lookup_insert]
    · cases hgone
      rw [AList.lookup_insert_ne heq]
      exact AList.lookup_erase _ _
    · rw [AList.lookup_insert_ne heq]
      exact AList.lookup_erase_ne fun hsame => hgone (hsame ▸ rfl)
  · rw [hmem]
    constructor
    · rintro ⟨⟨hold, -⟩ | hspends, hnot⟩
      · exact absurd hold hnot
      · exact hspends
    · exact fun hspends => ⟨.inr hspends, fun hold => hfree o hold hspends⟩
  · rw [hmem]
    constructor
    · rintro ⟨hold, hnot⟩
      refine ⟨(low, lowTx), rfl, ?_⟩
      by_contra hspends
      exact hnot (.inl ⟨hold, hspends⟩)
    · rintro ⟨e, he, hspends⟩
      cases he
      refine ⟨hlowPending o hspends, ?_⟩
      rintro (⟨-, hnot⟩ | hspends')
      · exact hnot hspends
      · exact hfree o (hlowPending o hspends) hspends'

/-- What a call of `add_transaction` on a pool does and why it refuses. -/
structure Admission (C : Crypto) (m : Mempool) (tx : Transaction) : Prop where
  refused : (m.addTransaction C tx).1 = false → (m.addTransaction C tx).2 = m
  below : (m.addTransaction C tx).1 = true → m.size < m.maxCapacity →
    Exchanged m (m.addTransaction C tx).2 (tx.rowId C) tx none
  full : (m.addTransaction C tx).1 = true → m.maxCapacity ≤ m.size →
    ∃ id low, m.LowestFee id low ∧ low.fee < tx.fee ∧
      Exchanged m (m.addTransaction C tx).2 (tx.rowId C) tx (some (id, low))
  reason : 1 ≤ m.maxCapacity → (m.addTransaction C tx).1 = false → m.Refusal C tx

/-- **Admission policy**: in every reachable pool a refused call changes nothing and has its reason, and
an accepted one adds the transaction and, when the pool is full, removes one of the lowest fee, with
exactly their inputs. -/
theorem admission_policy (C : Crypto) (capacity : ℕ) (calls : List Call) (tx : Transaction) :
    Admission C (run C capacity calls) tx := by
  have hsound := (within_run C capacity calls).toSound
  generalize run C capacity calls = m at hsound
  refine ⟨fun h => ?_, fun h hlt => ?_, fun h hge => ?_, refusal_of_refused C⟩
  case refine_1 =>
    rcases addTransaction_cases C m tx with hout | ⟨-, -, m', -, hout⟩
    · rw [hout]
    · rw [hout] at h
      cases h
  all_goals
    rcases addTransaction_cases C m tx with hout | ⟨hid, hfree, m', hroom, hout⟩
    · rw [hout] at h
      cases h
  case refine_2.inr =>
    rw [hout]
    rcases makeRoom_eq_some hroom with ⟨-, hsame⟩ | ⟨hge, -⟩
    · rw [hsame]
      exact exchanged_store hid hfree
    · exact absurd hge (not_le.mpr hlt)
  case refine_3.inr =>
    rw [hout]
    rcases makeRoom_eq_some hroom with ⟨hlt, -⟩ | ⟨-, id, low, hlow, hfee, hevict⟩
    · exact absurd hge (not_le.mpr hlt)
    · rw [hevict]
      exact ⟨id, low, lowestFee_of_lowest hlow, hfee,
        hsound.exchanged_evict hid hfree (lookup_of_lowest hlow)⟩

end Mempool

end Mermai
