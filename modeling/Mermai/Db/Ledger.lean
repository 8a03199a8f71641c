import Mermai.Db.Store
import Mermai.Lib.Resource

/-!
# Db.Ledger — value and ownership in the ledger

What `apply_block` does to the table of unspent outputs, over runs of calls:

* conservation — inputs pay outputs and fees exactly, and only transactions without inputs create
  value;
* ownership — a row disappears only when an input that names it is signed by the key of its address;
* single use — the log of spends and creations of a run is a `Resource.Replay` over the keys of the
  table, so a row that is spent twice was created again in between.
-/

namespace Mermai

open Sql Resource

/-! ## Conservation -/

/-- The fees of the transactions with inputs. -/
def feesPaid (txs : List Transaction) : ℕ :=
  ((txs.filter fun tx => tx.inputs ≠ []).map fun tx => tx.fee.toNat).sum

/-- The sum of the outputs of a transaction. -/
def Transaction.outputSum (tx : Transaction) : ℕ := (tx.outputs.map fun o => o.amount.toNat).sum

/-- The outputs of the transactions without inputs. -/
def minted (txs : List Transaction) : ℕ :=
  ((txs.filter fun tx => tx.inputs = []).map Transaction.outputSum).sum

/-- A sum over the table after saving; `w` gives the summand of the row of an output. -/
theorem saveOutputs_sum {f : Utxo → ℕ} {w : TxOutput → ℕ}
    (hw : ∀ u o, u.address = cText o.address → u.value = o.amount.toNat → f u = w o)
    {txId : Bytes} {t t' : Utxos} {n : ℕ} {os : List TxOutput}
    (h : saveOutputs txId t n os = some t') : total f t' = total f t + (os.map w).sum := by
  induction os generalizing t n with
  | nil =>
    cases h
    simp
  | cons o os ih =>
    obtain ⟨s, hs, h⟩ := Option.bind_eq_some_iff.mp h
    obtain ⟨u, haddr, hval, hins⟩ := saveUnspentOutput_eq_some hs
    have hstep : total f s = total f t + f u := total_insertNew f hins
    rw [ih h, hstep, hw u o haddr hval, List.map_cons, List.sum_cons, add_assoc]

theorem saveOutputs_total {txId : Bytes} {t t' : Utxos} {n : ℕ} {os : List TxOutput}
    (h : saveOutputs txId t n os = some t') :
    totalAmount t' = totalAmount t + (os.map fun o => o.amount.toNat).sum :=
  saveOutputs_sum (fun _ _ _ hval => hval) h

/-- A sum over the table before spending.  The rows are those of the table before any input is
spent: an input whose row an earlier one has taken makes the whole transaction fail. -/
theorem spendInputs_sum {f : Utxo → ℕ} {t t' : Utxos} {inputs : List TxInput} {value : TxInput → ℕ}
    (h : spendInputs t inputs = some t')
    (hrows : ∀ i ∈ inputs, ∃ u, t.lookup i.key = some u ∧ value i = f u) :
    total f t = total f t' + (inputs.map value).sum := by
  induction inputs generalizing t with
  | nil =>
    cases h
    simp
  | cons i inputs ih =>
    obtain ⟨hmem, h⟩ := spendInputs_cons.mp h
    obtain ⟨u, hu, hval⟩ := hrows i (by simp)
    have hdel : deleteRow t i.key = some (t.erase i.key) := deleteRow_eq_some.mpr ⟨hmem, rfl⟩
    have hstep : total f t = total f (t.erase i.key) + f u := total_deleteRow f hdel hu
    have hrest : ∀ j ∈ inputs, ∃ u, (t.erase i.key).lookup j.key = some u ∧ value j = f u := by
      intro j hj
      obtain ⟨v, hv, hvv⟩ := hrows j (by simp [hj])
      have hjmem := spendInputs_mem h j hj
      have hne : j.key ≠ i.key := by
        intro heq
        rw [heq] at hjmem
        exact (AList.mem_erase.mp hjmem).1 rfl
      exact ⟨v, by rw [AList.lookup_erase_ne hne, hv], hvv⟩
    rw [hstep, ih h hrest, List.map_cons, List.sum_cons, hval]
    omega

theorem applyTransaction_total {C : Crypto} {now : ℕ} {t t' : Utxos} {tx : Transaction}
    (h : applyTransaction C now t tx = some t') :
    totalAmount t' + feesPaid [tx] = totalAmount t + minted [tx] := by
  rcases applyTransaction_eq_some h with ⟨hin, hsave⟩ | ⟨hin, value, s, hv, hs, hsave⟩
  · rw [saveOutputs_total hsave]
    simp [feesPaid, minted, hin, Transaction.outputSum]
  · have hspent : totalAmount t = totalAmount s + (tx.inputs.map value).sum :=
      spendInputs_sum hs fun i hi => by
        obtain ⟨u, hu, -, -, hval⟩ := hv.rows i hi
        exact ⟨u, hu, hval⟩
    rw [hv.balance] at hspent
    rw [saveOutputs_total hsave, hspent]
    simp [feesPaid, minted, hin]
    omega

theorem feesPaid_cons (tx : Transaction) (txs : List Transaction) :
    feesPaid (tx :: txs) = feesPaid [tx] + feesPaid txs := by
  by_cases h : tx.inputs = [] <;> simp [feesPaid, h]

theorem minted_cons (tx : Transaction) (txs : List Transaction) :
    minted (tx :: txs) = minted [tx] + minted txs := by
  by_cases h : tx.inputs = [] <;> simp [minted, h]

theorem applyTransactions_total {C : Crypto} {now : ℕ} {t t' : Utxos} {txs : List Transaction}
    (h : applyTransactions C now t txs = some t') :
    totalAmount t' + feesPaid txs = totalAmount t + minted txs := by
  induction txs generalizing t with
  | nil =>
    cases h
    rfl
  | cons tx txs ih =>
    obtain ⟨s, hs, h⟩ := applyTransactions_cons.mp h
    have h1 := applyTransaction_total hs
    have h2 := ih h
    rw [feesPaid_cons, minted_cons]
    omega

/-- The database after a list of calls of `apply_block`, each at its own clock. -/
def applyBlocks (C : Crypto) (db : Db) (calls : List (ℕ × Block)) : Db :=
  calls.foldl (fun db c => (applyBlock C c.1 db c.2).2) db

/-- **Conservation**: after any run of calls, a committed block changes the sum of the table by the
outputs of its transactions without inputs and the fees of the others. -/
theorem applyBlock_conserves (C : Crypto) (db₀ : Db) (calls : List (ℕ × Block)) (now : ℕ)
    (b : Block) (h : (applyBlock C now (applyBlocks C db₀ calls) b).1 = true) :
    totalAmount (applyBlock C now (applyBlocks C db₀ calls) b).2.utxos + feesPaid b.transactions =
        totalAmount (applyBlocks C db₀ calls).utxos + minted b.transactions ∧
      ((∀ tx ∈ b.transactions, tx.inputs ≠ []) →
        totalAmount (applyBlock C now (applyBlocks C db₀ calls) b).2.utxos ≤
          totalAmount (applyBlocks C db₀ calls).utxos) := by
  have htotal := applyTransactions_total (applyBlock_eq_true h).1
  refine ⟨htotal, ?_⟩
  intro hin
  have hzero : minted b.transactions = 0 := by
    have hnil : b.transactions.filter (fun tx => tx.inputs = []) = [] :=
      List.filter_eq_nil_iff.mpr fun tx htx => by simpa using hin tx htx
    simp [minted, hnil]
  omega

/-- A transaction without inputs that creates the output `([116], 0)` for the key `[7]`. -/
def mintTx : Transaction where
  id := [116]
  inputs := []
  outputs := [⟨addressFromPublicKey polyCrypto [7], 100⟩]

/-- A transaction that spends the output `([116], 0)` with a fee of 10, unsigned. -/
def unsignedPayment (id : Bytes) : Transaction where
  id := id
  inputs := [⟨[116], 0, [], [7]⟩]
  outputs := [⟨addressFromPublicKey polyCrypto [7], 90⟩]
  fee := 10

def paymentInput (id : Bytes) : TxInput :=
  ⟨[116], 0, polyDigest ([7] ++ (unsignedPayment id).unsignedPayload), [7]⟩

def paymentTx (id : Bytes) : Transaction := { unsignedPayment id with inputs := [paymentInput id] }

/-- A block that creates an output and spends it. -/
def paymentBlock (id : Bytes) : Block := { transactions := [mintTx, paymentTx id] }

theorem applyBlock_conserves_payment :
    feesPaid (paymentBlock [118]).transactions = 10 ∧
    minted (paymentBlock [118]).transactions = 100 ∧
    totalAmount (applyBlock polyCrypto 5
      (applyBlocks polyCrypto {} [(5, paymentBlock [117])]) (paymentBlock [118])).2.utxos + 10 =
    totalAmount (applyBlocks polyCrypto {} [(5, paymentBlock [117])]).utxos + 100 := by
  have hok : (applyBlock polyCrypto 5
      (applyBlocks polyCrypto {} [(5, paymentBlock [117])]) (paymentBlock [118])).1 = true := by
    decide +kernel
  have hfees : feesPaid (paymentBlock [118]).transactions = 10 := by decide +kernel
  have hminted : minted (paymentBlock [118]).transactions = 100 := by decide +kernel
  have htotal :=
    (applyBlock_conserves polyCrypto {} [(5, paymentBlock [117])] 5 (paymentBlock [118]) hok).1
  rw [hfees, hminted] at htotal
  exact ⟨hfees, hminted, htotal⟩

/-! ## Ownership -/

/-- A row survives a transaction, or an input of it names the row, carries the key of its address
and is signed with that key. -/
theorem applyTransaction_owner {C : Crypto} {now : ℕ} {t t' : Utxos} {tx : Transaction}
    (h : applyTransaction C now t tx = some t') {k : Bytes × Int32} {u : Utxo}
    (hk : t.lookup k = some u) :
    t'.lookup k = some u ∨ ∃ i ∈ tx.inputs, i.key = k ∧
      addressFromPublicKey C i.publicKey = u.address ∧
      inputSigned C tx.unsignedPayload i = true := by
  rcases applyTransaction_eq_some h with ⟨-, hsave⟩ | ⟨-, value, s, hv, hs, hsave⟩
  · exact .inl (saveOutputs_lookup hsave hk)
  · rcases spendInputs_lookup hs hk with hk' | ⟨i, hi, hik⟩
    · exact .inl (saveOutputs_lookup hsave hk')
    · obtain ⟨v, hlookup, -, haddr, -⟩ := hv.rows i hi
      have huv : v = u := by
        rw [hik, hk] at hlookup
        exact (Option.some.inj hlookup).symm
      subst huv
      exact .inr ⟨i, hi, hik, haddr, hv.verified.signed i hi⟩

theorem applyTransactions_owner {C : Crypto} {now : ℕ} {t t' : Utxos} {txs : List Transaction}
    (h : applyTransactions C now t txs = some t') {k : Bytes × Int32} {u : Utxo}
    (hk : t.lookup k = some u) (hgone : t'.lookup k ≠ some u) :
    ∃ tx ∈ txs, ∃ i ∈ tx.inputs, i.key = k ∧
      addressFromPublicKey C i.publicKey = u.address ∧
      inputSigned C tx.unsignedPayload i = true := by
  induction txs generalizing t with
  | nil =>
    cases h
    exact absurd hk hgone
  | cons tx txs ih =>
    obtain ⟨s, hs, h⟩ := applyTransactions_cons.mp h
    rcases applyTransaction_owner hs hk with hk' | hspent
    · obtain ⟨tx', htx', hspent⟩ := ih h hk'
      exact ⟨tx', by simp [htx'], hspent⟩
    · exact ⟨tx, by simp, hspent⟩

/-! ## The log of a run -/

/-- A spend of an input or the creation of an output. -/
inductive LedgerEvent
  | spend (tx : Transaction) (input : TxInput)
  | create (tx : Transaction) (index : UInt32)
deriving DecidableEq

def effectOf (C : Crypto) : LedgerEvent → Effect (Bytes × Int32)
  | .spend _ i => .spend i.key
  | .create tx index => .create (outKey (tx.rowId C) index)

/-- What a transaction does, in order. -/
def Transaction.events (tx : Transaction) : List LedgerEvent :=
  tx.inputs.map (.spend tx) ++ tx.outputs.mapIdx fun n _ => .create tx (UInt32.ofNat n)

/-- The transactions of the committed calls of a run, in order. -/
def committed (C : Crypto) : Db → List (ℕ × Block) → List Transaction
  | _, [] => []
  | db, (now, b) :: calls =>
    let r := applyBlock C now db b
    (if r.1 then b.transactions else []) ++ committed C r.2 calls

/-- The log of a run. -/
def ledgerLog (C : Crypto) (db : Db) (calls : List (ℕ × Block)) : List LedgerEvent :=
  (committed C db calls).flatMap Transaction.events

/-- The keys in the table. -/
def liveKeys (t : Utxos) : Set (Bytes × Int32) := {k | k ∈ t}

theorem liveKeys_erase (t : Utxos) (k : Bytes × Int32) : liveKeys (t.erase k) = liveKeys t \ {k} := by
  ext j
  simp only [liveKeys, Set.mem_ofPred_eq, AList.mem_erase, Set.mem_sdiff, Set.mem_singleton_iff]
  tauto

theorem liveKeys_insert (t : Utxos) (k : Bytes × Int32) (u : Utxo) :
    liveKeys (t.insert k u) = insert k (liveKeys t) := by
  ext j
  simp [liveKeys, AList.mem_insert]

theorem spendInputs_replay {C : Crypto} (tx : Transaction) {t t' : Utxos} {inputs : List TxInput}
    (h : spendInputs t inputs = some t') :
    Replay (effectOf C) (liveKeys t) (inputs.map (.spend tx)) (liveKeys t') := by
  induction inputs generalizing t with
  | nil =>
    cases h
    exact .nil _
  | cons i inputs ih =>
    obtain ⟨hmem, h⟩ := spendInputs_cons.mp h
    refine .spend rfl hmem ?_
    rw [← liveKeys_erase]
    exact ih h

theorem saveOutputs_replay {C : Crypto} (tx : Transaction) {t t' : Utxos} {n : ℕ}
    {os : List TxOutput} (h : saveOutputs (tx.rowId C) t n os = some t') :
    Replay (effectOf C) (liveKeys t) (os.mapIdx fun i _ => .create tx (UInt32.ofNat (n + i)))
      (liveKeys t') := by
  induction os generalizing t n with
  | nil =>
    cases h
    exact .nil _
  | cons o os ih =>
    obtain ⟨s, hs, h⟩ := Option.bind_eq_some_iff.mp h
    obtain ⟨u, -, -, hins⟩ := saveUnspentOutput_eq_some hs
    obtain ⟨hnew, rfl⟩ := insertNew_eq_some.mp hins
    rw [List.mapIdx_cons]
    refine .create rfl hnew ?_
    have hrest := ih h
    rw [liveKeys_insert] at hrest
    simpa [Nat.add_assoc, Nat.add_comm 1] using hrest

theorem applyTransaction_replay {C : Crypto} {now : ℕ} {t t' : Utxos} {tx : Transaction}
    (h : applyTransaction C now t tx = some t') :
    Replay (effectOf C) (liveKeys t) tx.events (liveKeys t') := by
  rcases applyTransaction_eq_some h with ⟨hin, hsave⟩ | ⟨-, value, s, -, hs, hsave⟩
  · have := saveOutputs_replay tx hsave
    simpa [Transaction.events, hin] using this
  · have := saveOutputs_replay tx hsave
    simp only [Nat.zero_add] at this
    exact (spendInputs_replay tx hs).append this

theorem applyTransactions_replay {C : Crypto} {now : ℕ} {t t' : Utxos} {txs : List Transaction}
    (h : applyTransactions C now t txs = some t') :
    Replay (effectOf C) (liveKeys t) (txs.flatMap Transaction.events) (liveKeys t') := by
  induction txs generalizing t with
  | nil =>
    cases h
    exact .nil _
  | cons tx txs ih =>
    obtain ⟨s, hs, h⟩ := applyTransactions_cons.mp h
    exact (applyTransaction_replay hs).append (ih h)

/-- **Refinement**: every run replays its log over the keys of the table. -/
theorem ledgerLog_replay (C : Crypto) (db : Db) (calls : List (ℕ × Block)) :
    Replay (effectOf C) (liveKeys db.utxos) (ledgerLog C db calls)
      (liveKeys (applyBlocks C db calls).utxos) := by
  induction calls generalizing db with
  | nil => exact .nil _
  | cons c calls ih =>
    obtain ⟨now, b⟩ := c
    have hrest := ih (applyBlock C now db b).2
    rw [ledgerLog, committed, List.flatMap_append]
    refine Replay.append ?_ hrest
    cases hb : (applyBlock C now db b).1 with
    | true => exact applyTransactions_replay (applyBlock_eq_true hb).1
    | false =>
      rw [applyBlock_eq_false hb]
      exact .nil _

/-! ## Single use -/

/-- No identifier of the block holds a NUL byte. -/
def Block.NulFree (b : Block) : Prop :=
  ∀ tx ∈ b.transactions, 0 ∉ tx.id ∧ ∀ i ∈ tx.inputs, 0 ∉ i.prevTxHash

instance (b : Block) : Decidable b.NulFree := inferInstanceAs (Decidable (∀ tx ∈ _, _))

theorem outKey_inj {s t : Bytes} {i j : UInt32} (hs : 0 ∉ s) (ht : 0 ∉ t)
    (h : outKey s i = outKey t j) : s = t ∧ i = j := by
  simp only [outKey, cText_of_notMem hs, cText_of_notMem ht, Prod.mk.injEq] at h
  exact ⟨h.1, congrArg Int32.toUInt32 h.2⟩

theorem zero_notMem_rowId {C : Crypto} {tx : Transaction} (h : 0 ∉ tx.id) : 0 ∉ tx.rowId C := by
  unfold Transaction.rowId
  split_ifs
  · exact zero_notMem_hashToHex _
  · exact h

theorem mem_committed {C : Crypto} {db : Db} {calls : List (ℕ × Block)} {tx : Transaction}
    (h : tx ∈ committed C db calls) : ∃ c ∈ calls, tx ∈ c.2.transactions := by
  induction calls generalizing db with
  | nil => cases h
  | cons c calls ih =>
    rcases List.mem_append.mp h with h | h
    · split_ifs at h
      · exact ⟨c, by simp, h⟩
      · cases h
    · obtain ⟨c', hc', htx⟩ := ih h
      exact ⟨c', by simp [hc'], htx⟩

theorem spend_mem_events {tx tx' : Transaction} {i : TxInput} (h : .spend tx i ∈ tx'.events) :
    tx = tx' ∧ i ∈ tx.inputs := by
  simp only [Transaction.events, List.mem_append, List.mem_map, LedgerEvent.spend.injEq,
    List.mem_mapIdx, reduceCtorEq, exists_false, or_false] at h
  obtain ⟨j, hj, rfl, rfl⟩ := h
  exact ⟨rfl, hj⟩

theorem create_mem_events {tx tx' : Transaction} {n : UInt32} (h : .create tx n ∈ tx'.events) :
    tx = tx' ∧ n.toNat < tx.outputs.length := by
  simp only [Transaction.events, List.mem_append, List.mem_map, reduceCtorEq, and_false,
    exists_false, false_or, List.mem_mapIdx, LedgerEvent.create.injEq] at h
  obtain ⟨j, hj, rfl, rfl⟩ := h
  refine ⟨rfl, lt_of_le_of_lt ?_ hj⟩
  rw [UInt32.toNat_ofNat']
  exact Nat.mod_le _ _

theorem mem_ledgerLog {C : Crypto} {db : Db} {calls : List (ℕ × Block)} {e : LedgerEvent}
    (h : e ∈ ledgerLog C db calls) : ∃ tx ∈ committed C db calls, e ∈ tx.events :=
  List.mem_flatMap.mp h

/-- **Only the owner spends, and only once**, in every run over identifiers without NUL bytes. -/
theorem spent_by_owner_once (C : Crypto) (db : Db) (calls : List (ℕ × Block))
    (hnul : ∀ c ∈ calls, c.2.NulFree) :
    (∀ (done : List (ℕ × Block)) (now : ℕ) (b : Block), done ++ [(now, b)] <+: calls →
      (applyBlock C now (applyBlocks C db done) b).1 = true →
      ∀ (t : Bytes) (i : UInt32) (u : Utxo), 0 ∉ t →
        (applyBlocks C db done).utxos.lookup (outKey t i) = some u →
        (applyBlock C now (applyBlocks C db done) b).2.utxos.lookup (outKey t i) ≠ some u →
        ∃ tx ∈ b.transactions, ∃ input ∈ tx.inputs, input.outpoint = (t, i) ∧
          addressFromPublicKey C input.publicKey = u.address ∧
          C.digestVerify input.publicKey tx.unsignedPayload input.signature = true) ∧
    (∀ (m n : ℕ) (tx tx' : Transaction) (input input' : TxInput), m < n →
      (ledgerLog C db calls)[m]? = some (.spend tx input) →
      (ledgerLog C db calls)[n]? = some (.spend tx' input') → input.outpoint = input'.outpoint →
      ∃ p, m < p ∧ p < n ∧ ∃ maker ∈ committed C db calls,
        (ledgerLog C db calls)[p]? = some (.create maker input.prevOutputIdx) ∧
        maker.rowId C = input.prevTxHash ∧
        input.prevOutputIdx.toNat < maker.outputs.length) := by
  constructor
  · intro done now b hpre hok t i u ht hk hgone
    have hmem : (now, b) ∈ calls := hpre.subset (by simp)
    obtain ⟨tx, htx, input, hin, hkey, haddr, hsig⟩ :=
      applyTransactions_owner (applyBlock_eq_true hok).1 hk hgone
    obtain ⟨h1, h2⟩ := outKey_inj ((hnul _ hmem tx htx).2 input hin) ht hkey
    refine ⟨tx, htx, input, hin, by rw [TxInput.outpoint, h1, h2], haddr, ?_⟩
    simp only [inputSigned, Bool.decide_and, Bool.and_eq_true, decide_eq_true_eq] at hsig
    exact hsig.2.2.2
  · intro m n tx tx' input input' hmn hm hn hout
    have hkey : input'.key = input.key := by
      simp only [TxInput.outpoint, Prod.mk.injEq] at hout
      rw [TxInput.key, TxInput.key, hout.1, hout.2]
    obtain ⟨p, hmp, hpn, e, he, hcreate⟩ := (ledgerLog_replay C db calls).create_between hmn hm hn
      (show effectOf C (.spend tx input) = .spend input.key from rfl)
      (show effectOf C (.spend tx' input') = .spend input.key by rw [effectOf, hkey])
    cases e with
    | spend _ _ => cases hcreate
    | create maker index =>
      obtain ⟨tx₁, h1, hev⟩ := mem_ledgerLog (List.mem_of_getElem? hm)
      obtain ⟨rfl, hin⟩ := spend_mem_events hev
      obtain ⟨tx₂, h2, hev'⟩ := mem_ledgerLog (List.mem_of_getElem? he)
      obtain ⟨rfl, hlen⟩ := create_mem_events hev'
      obtain ⟨c₁, hc₁, htx₁⟩ := mem_committed h1
      obtain ⟨c₂, hc₂, htx₂⟩ := mem_committed h2
      have hkeys : outKey (maker.rowId C) index = outKey input.prevTxHash input.prevOutputIdx :=
        Effect.create.inj hcreate
      obtain ⟨hid, rfl⟩ := outKey_inj (zero_notMem_rowId (hnul c₂ hc₂ maker htx₂).1)
        ((hnul c₁ hc₁ tx htx₁).2 input hin) hkeys
      exact ⟨p, hmp, hpn, maker, h2, he, hid, hlen⟩

/-- Two blocks that each create the output `([116], 0)` and spend it. -/
def twoPayments : List (ℕ × Block) := [(5, paymentBlock [117]), (5, paymentBlock [118])]

theorem spent_by_owner_once_payments :
    (ledgerLog polyCrypto {} twoPayments).length = 6 ∧
    ∃ p, 1 < p ∧ p < 4 ∧ ∃ maker ∈ committed polyCrypto {} twoPayments,
      (ledgerLog polyCrypto {} twoPayments)[p]? = some (.create maker 0) := by
  refine ⟨by decide +kernel, ?_⟩
  have hspend : (ledgerLog polyCrypto {} twoPayments)[1]? =
      some (.spend (paymentTx [117]) (paymentInput [117])) := by decide +kernel
  have hspend' : (ledgerLog polyCrypto {} twoPayments)[4]? =
      some (.spend (paymentTx [118]) (paymentInput [118])) := by decide +kernel
  have hnul : ∀ c ∈ twoPayments, c.2.NulFree := by decide +kernel
  obtain ⟨p, h1, h2, maker, hm, hp, -, -⟩ :=
    (spent_by_owner_once polyCrypto {} twoPayments hnul).2 1 4 _ _ _ _ (by decide) hspend
      hspend' rfl
  exact ⟨p, h1, h2, maker, hm, hp⟩

end Mermai
