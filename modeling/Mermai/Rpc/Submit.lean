import Mermai.Node.Message
import Mermai.Db.Ledger
import Mermai.Rpc.Text

/-!
# Rpc.Submit — the two doors of the mempool

A transaction enters the table `mempool` through `send_transaction` of the RPC server or through the case
`NEW_TRANSACTION` of `handle_message`.  `rpcAdmits` and `p2pAdmits` are the transactions that the two hand
to `add_to_mempool` (`sendTransaction_db`, `handleTransaction_db`).  The RPC server checks the inputs of a
transaction against `utxos`, the peer-to-peer node only calls `verify`: the doors are the same test for a
transaction exactly when it does not verify or its inputs pay for it (`doors_agree_iff`).
-/

namespace Mermai

open Merlite (ascii)

/-! ## The functions -/

/-- The transaction that `send_transaction` reads from the request; what it throws otherwise. -/
def submittedTransaction (txJson : Bytes) : Except String Transaction :=
  let field := Rpc.requestString txJson (ascii "raw")
  let text := if field = [] then Rpc.requestString txJson (ascii "serialized") else field
  let raw := if (ascii "0x").isPrefixOf text then Rpc.hexToBytes text else text
  let decoded : Except String Transaction :=
    if raw = [] then .ok ⟨[], [], [], 0, 0⟩ else Transaction.deserialize raw
  decoded.map fun tx =>
    if tx.id = [] then
      { tx with
        id := Rpc.requestString txJson (ascii "id")
        timestamp := Rpc.requestNumber txJson (ascii "timestamp")
        fee := Rpc.requestNumber txJson (ascii "fee") }
    else tx

/-- What `send_transaction` does: its answer, the database, and what is broadcast when there is a
peer-to-peer node. -/
structure Submitted where
  answer : Bytes
  db : Option Db
  broadcast : Option Transaction := none

/-- `send_transaction`; `add_to_mempool` does not fail. -/
def sendTransaction (C : Crypto) (now : ℕ) (db : Option Db) (txJson : Bytes) : Submitted :=
  let sent (db : Option Db) (tx : Transaction) : Submitted :=
    { answer := ascii "\x7b\"result\":" ++ Rpc.jsonString (tx.rowId C) ++ ascii "\x7d"
      db
      broadcast := some tx }
  match submittedTransaction txJson with
  | .error what => { answer := Rpc.jsonError (-32602) (ascii what), db }
  | .ok tx =>
    match db with
    | none => sent none tx
    | some db =>
      if ¬ validateTransactionInputs C now db.utxos tx then
        { answer := Rpc.jsonError (-32602) (ascii "Invalid transaction inputs"), db := some db }
      else sent (some (addToMempool C db tx)) tx

/-! ## The doors -/

/-- The transaction that `send_transaction` hands to `add_to_mempool`. -/
def rpcAdmits (C : Crypto) (now : ℕ) (db : Db) (txJson : Bytes) : Option Transaction :=
  (submittedTransaction txJson).toOption.filter (validateTransactionInputs C now db.utxos)

/-- The transaction that `handle_message` hands to `add_to_mempool`. -/
def p2pAdmits (C : Crypto) (now : ℕ) (payload : Bytes) : Option Transaction :=
  (Transaction.deserialize payload).toOption.filter (Transaction.verify C now)

/-- The database behind a door. -/
def afterDoor (C : Crypto) (db : Db) (admitted : Option Transaction) : Db :=
  admitted.elim db (addToMempool C db)

theorem sendTransaction_db (C : Crypto) (now : ℕ) (db : Db) (txJson : Bytes) :
    (sendTransaction C now (some db) txJson).db = some (afterDoor C db (rpcAdmits C now db txJson)) := by
  unfold sendTransaction rpcAdmits
  cases submittedTransaction txJson with
  | error what => rfl
  | ok tx =>
    cases hvalid : validateTransactionInputs C now db.utxos tx <;>
      simp [hvalid, Except.toOption, Option.filter, afterDoor]

theorem handleTransaction_db (C : Crypto) (clock : ℕ → ℕ) {n : Node} {db : Db} (hdb : n.db = some db)
    (payload : Bytes) :
    (handleTransaction C clock n payload).db =
      some (afterDoor C db (p2pAdmits C (clock n.ticks) payload)) := by
  unfold handleTransaction p2pAdmits
  rw [hdb]
  cases Transaction.deserialize payload with
  | error what => exact hdb
  | ok tx =>
    cases hverify : tx.verify C (clock n.ticks) <;>
      simp [hverify, Except.toOption, Option.filter, afterDoor]

/-! ## Requests that carry bytes -/

/-- A text of hexadecimal digits, of either case, for the bytes. -/
def HexOf : Bytes → Bytes → Prop
  | [], [] => True
  | c :: d :: hex, b :: data =>
    hexValue c = some (b.toNat / 16) ∧ hexValue d = some (b.toNat % 16) ∧ HexOf hex data
  | _, _ => False

theorem le_of_hexValue {c : UInt8} {n : ℕ} (h : hexValue c = some n) : 48 ≤ c.toNat := by
  unfold hexValue at h
  split_ifs at h with h1 h2 h3
  · exact h1.1
  · exact le_trans (by decide) (UInt8.le_iff_toNat_le.mp h2.1)
  · exact le_trans (by decide) (UInt8.le_iff_toNat_le.mp h3.1)

theorem stoulHex_of_hexValue {c d b : UInt8} (hc : hexValue c = some (b.toNat / 16))
    (hd : hexValue d = some (b.toNat % 16)) : Rpc.stoulHex [c, d] = some b := by
  obtain ⟨hspace, hplus, hminus⟩ := isSpace_of_le (le_of_hexValue hc)
  have hdrop : [c, d].dropWhile isSpace = [c, d] := by
    rw [List.dropWhile_cons, hspace]
    rfl
  have hvalue : strtolDigits 0 [c, d] = b.toNat := by
    simp only [strtolDigits, hc, hd]
    omega
  have hnumber : strtol [c, d] = (b.toNat : ℤ) := by
    rw [strtol, hdrop]
    split
    · rename_i heq
      cases heq
      exact absurd rfl hminus
    · rename_i heq
      cases heq
      exact absurd rfl hplus
    · rw [hvalue]
  have hsign : Rpc.skipSign [c, d] = [c, d] := if_neg (not_or.mpr ⟨hplus, hminus⟩)
  have hdigit : Rpc.isHexDigit c = true := by
    rw [Rpc.isHexDigit, hc]
    rfl
  have hbyte : UInt8.ofInt (b.toNat : ℤ) = b := by
    have hlt := b.toNat_lt
    have hmod : ((b.toNat : ℤ) % 2 ^ 8).toNat = b.toNat := by omega
    rw [UInt8.ofInt, hmod, UInt8.ofNat_toNat]
  rw [Rpc.stoulHex, hdrop, hsign]
  dsimp only
  rw [if_pos hdigit, hnumber, hbyte]

/-- `hex_to_bytes` reads the bytes back. -/
theorem hexPairs_of_hexOf : ∀ {hex data : Bytes}, HexOf hex data → Rpc.hexPairs hex = data
  | [], [], _ => rfl
  | _ :: _ :: _, _ :: _, h => by
    rw [Rpc.hexPairs, stoulHex_of_hexValue h.1 h.2.1, hexPairs_of_hexOf h.2.2]
    rfl

theorem hexOf_hashToHex (data : Bytes) : HexOf (hashToHex data) data := by
  induction data with
  | nil => trivial
  | cons b data ih =>
    have hb := b.toNat_lt
    have hvalue : ∀ n < 16, hexValue (hexDigit n) = some n := by decide
    exact ⟨hvalue _ (by omega), hvalue _ (by omega), ih⟩

/-- The request hands over the bytes: its field `raw` is `0x` and their digits. -/
def Carries (request data : Bytes) : Prop :=
  ∃ hex, Rpc.requestString request (ascii "raw") = ascii "0x" ++ hex ∧ HexOf hex data

/-- What the request hands over is decoded like the payload of a message; without bytes there is nothing
to decode. -/
theorem submittedTransaction_of_carries {request data : Bytes} (h : Carries request data)
    (hne : data ≠ []) (hid : ∀ tx, Transaction.deserialize data = .ok tx → tx.id ≠ []) :
    submittedTransaction request = Transaction.deserialize data := by
  obtain ⟨hex, hfield, hhex⟩ := h
  have hread : Rpc.hexToBytes (ascii "0x" ++ hex) = data := hexPairs_of_hexOf hhex
  have htext : ascii "0x" ++ hex ≠ [] := fun h => by cases h
  have hfront : (ascii "0x").isPrefixOf (ascii "0x" ++ hex) = true :=
    List.isPrefixOf_iff_prefix.mpr (List.prefix_append _ _)
  unfold submittedTransaction
  simp only [hfield, if_neg htext, hfront, if_true, hread, if_neg hne]
  cases hdecode : Transaction.deserialize data with
  | error what => rfl
  | ok tx =>
    exact congrArg Except.ok (if_neg (hid tx hdecode))

/-! ## The same test -/

/-- The inputs of a transaction name rows of `utxos` of their own keys, and bring what the outputs and the
fee take, within 64 bits. -/
structure Paid (C : Crypto) (t : Utxos) (tx : Transaction) : Prop where
  rows : ∀ i ∈ tx.inputs, ∃ u, t.lookup i.key = some u ∧ u.address ≠ [] ∧
    addressFromPublicKey C i.publicKey = u.address
  balance : (tx.inputs.map (spentValue t)).sum =
    tx.fee.toNat + (tx.outputs.map fun o => o.amount.toNat).sum
  fits : tx.fee.toNat + (tx.outputs.map fun o => o.amount.toNat).sum < 2 ^ 64

theorem spentValue_of_lookup {t : Utxos} {i : TxInput} {u : Utxo} (h : t.lookup i.key = some u) :
    spentValue t i = u.value := by
  rw [spentValue, h]
  rfl

/-- `validate_transaction_inputs` asks for more than `verify`: the inputs must pay. -/
theorem validateTransactionInputs_iff_paid {C : Crypto} {now : ℕ} {t : Utxos} {tx : Transaction} :
    validateTransactionInputs C now t tx = true ↔ tx.verify C now = true ∧ Paid C t tx := by
  rw [validateTransactionInputs_iff, Transaction.verify_iff]
  constructor
  · rintro ⟨⟨hverified, hrows, hbalance⟩, hfits⟩
    refine ⟨hverified, fun i hi => ?_, hbalance, hfits⟩
    obtain ⟨u, hu, hne, haddress, -⟩ := hrows i hi
    exact ⟨u, hu, hne, haddress⟩
  · rintro ⟨hverified, hrows, hbalance, hfits⟩
    refine ⟨⟨hverified, fun i hi => ?_, hbalance⟩, hfits⟩
    obtain ⟨u, hu, hne, haddress⟩ := hrows i hi
    exact ⟨u, hu, hne, haddress, spentValue_of_lookup hu⟩

theorem p2pAdmits_eq_some {C : Crypto} {now : ℕ} {payload : Bytes} {tx : Transaction} :
    p2pAdmits C now payload = some tx ↔
      Transaction.deserialize payload = .ok tx ∧ tx.verify C now = true := by
  rw [p2pAdmits, Option.filter_eq_some_iff]
  cases Transaction.deserialize payload <;> simp [Except.toOption]

theorem rpcAdmits_eq_some {C : Crypto} {now : ℕ} {db : Db} {request : Bytes} {tx : Transaction} :
    rpcAdmits C now db request = some tx ↔
      submittedTransaction request = .ok tx ∧ validateTransactionInputs C now db.utxos tx = true := by
  rw [rpcAdmits, Option.filter_eq_some_iff]
  cases submittedTransaction request <;> simp [Except.toOption]

/-- Without bytes `send_transaction` makes up a transaction without inputs, which does not verify. -/
theorem rpcAdmits_of_carries_nil {C : Crypto} {now : ℕ} {db : Db} {request : Bytes}
    (h : Carries request []) : rpcAdmits C now db request = none := by
  obtain ⟨hex, hfield, hhex⟩ := h
  have hnil : hex = [] := by
    cases hex with
    | nil => rfl
    | cons c hex => cases hex <;> exact hhex.elim
  have hinputs : ∀ tx, submittedTransaction request = .ok tx → tx.inputs = [] := by
    intro tx htx
    rw [hnil] at hfield
    unfold submittedTransaction at htx
    simp only [hfield] at htx
    cases htx
    rfl
  by_contra hsome
  obtain ⟨tx, htx⟩ := Option.ne_none_iff_exists'.mp hsome
  obtain ⟨hsubmitted, hvalid⟩ := rpcAdmits_eq_some.mp htx
  have hverified := Transaction.verify_iff.mp (validateTransactionInputs_iff_paid.mp hvalid).1
  exact hverified.inputs_ne (hinputs tx hsubmitted)

/-- The RPC server admits what the bytes encode when it verifies and is paid. -/
theorem rpcAdmits_of_carries {C : Crypto} {now : ℕ} {db : Db} {request data : Bytes}
    (h : Carries request data) (hid : ∀ tx, Transaction.deserialize data = .ok tx → tx.id ≠ [])
    {tx : Transaction} : rpcAdmits C now db request = some tx ↔
      Transaction.deserialize data = .ok tx ∧ tx.verify C now = true ∧ Paid C db.utxos tx := by
  by_cases hne : data = []
  · subst hne
    rw [rpcAdmits_of_carries_nil h]
    exact iff_of_false (fun hnone => by cases hnone) (fun hok => by cases hok.1)
  · rw [rpcAdmits_eq_some, submittedTransaction_of_carries h hne hid, validateTransactionInputs_iff_paid]

/-- **The doors are one test exactly when** the transaction does not verify or its inputs pay for it:
then the bytes are admitted by both or by neither, and what enters has passed
`validate_transaction_inputs`. -/
theorem doors_agree_iff (C : Crypto) (now : ℕ) (db : Db) {request data : Bytes}
    (h : Carries request data) (hid : ∀ tx, Transaction.deserialize data = .ok tx → tx.id ≠ []) :
    ((∀ tx, p2pAdmits C now data = some tx ↔ rpcAdmits C now db request = some tx) ∧
      ∀ tx, p2pAdmits C now data = some tx ∨ rpcAdmits C now db request = some tx →
        validateTransactionInputs C now db.utxos tx = true) ↔
    ∀ tx, Transaction.deserialize data = .ok tx → tx.verify C now = true → Paid C db.utxos tx := by
  simp only [p2pAdmits_eq_some, rpcAdmits_of_carries h hid, validateTransactionInputs_iff_paid]
  constructor
  · intro hsame tx hdecode hverify
    exact ((hsame.1 tx).mp ⟨hdecode, hverify⟩).2.2
  · intro hpaid
    refine ⟨fun tx => ⟨?_, ?_⟩, ?_⟩
    · rintro ⟨hdecode, hverify⟩
      exact ⟨hdecode, hverify, hpaid tx hdecode hverify⟩
    · rintro ⟨hdecode, hverify, -⟩
      exact ⟨hdecode, hverify⟩
    · rintro tx (⟨hdecode, hverify⟩ | ⟨-, hverify, hrows⟩)
      · exact ⟨hverify, hpaid tx hdecode hverify⟩
      · exact ⟨hverify, hrows⟩

/-- A request of `mrm_sendTransaction` for any bytes. -/
def sendRequest (data : Bytes) : Bytes :=
  ascii "\x7b\"method\":\"mrm_sendTransaction\",\"raw\":\"0x" ++ hashToHex data ++ ascii "\",\"id\":1\x7d"

theorem carries_sendRequest (data : Bytes) : Carries (sendRequest data) data := by
  refine ⟨hashToHex data, ?_, hexOf_hashToHex data⟩
  have hquote : 34 ∉ ascii "0x" ++ hashToHex data := by
    rw [List.mem_append, not_or]
    exact ⟨by decide, notMem_hashToHex (by decide) data⟩
  have hbehind : Rpc.behindKey (sendRequest data) (ascii "raw") =
      some (34 :: ((ascii "0x" ++ hashToHex data) ++ 34 :: ascii ",\"id\":1\x7d")) := by
    rfl
  rw [Rpc.requestString, hbehind]
  dsimp only
  rw [Delimited.cut, if_pos rfl]
  dsimp only
  rw [Delimited.cut_append hquote]

/-- A payment whose input is in the table enters by both doors. -/
theorem doors_agree_payment :
    let db : Db := (applyBlock polyCrypto 5 {} { transactions := [mintTx] }).2
    let data := (paymentTx [118]).serialize
    p2pAdmits polyCrypto 5 data = some (paymentTx [118]) ∧
      rpcAdmits polyCrypto 5 db (sendRequest data) = some (paymentTx [118]) := by
  intro db data
  have hdecode : Transaction.deserialize data = .ok (paymentTx [118]) := by decide +kernel
  have hvalid : validateTransactionInputs polyCrypto 5 db.utxos (paymentTx [118]) = true := by
    decide +kernel
  obtain ⟨hverify, hpaid⟩ := validateTransactionInputs_iff_paid.mp hvalid
  have hadmits : p2pAdmits polyCrypto 5 data = some (paymentTx [118]) :=
    p2pAdmits_eq_some.mpr ⟨hdecode, hverify⟩
  have hagree := (doors_agree_iff polyCrypto 5 db (carries_sendRequest data) fun tx htx => by
    rw [hdecode] at htx
    cases htx
    exact List.cons_ne_nil _ _).mpr fun tx htx _ => by
      rw [hdecode] at htx
      cases htx
      exact hpaid
  exact ⟨hadmits, (hagree.1 _).mp hadmits⟩

/-- A payment out of nothing enters by the peer-to-peer door alone. -/
theorem unpaid_admitted :
    p2pAdmits polyCrypto 5 (paymentTx [118]).serialize = some (paymentTx [118]) ∧
      Carries (sendRequest (paymentTx [118]).serialize) (paymentTx [118]).serialize ∧
      rpcAdmits polyCrypto 5 {} (sendRequest (paymentTx [118]).serialize) = none ∧
      validateTransactionInputs polyCrypto 5 (∅ : Utxos) (paymentTx [118]) = false := by
  exact ⟨by decide +kernel, carries_sendRequest _, by decide +kernel, by decide +kernel⟩

end Mermai
