import Mermai.Lib.Run
import Mermai.Core.Verify

/-!
# Core.Sign — signing blocks and transactions

`mermai_block::sign` and `mermai_transaction::sign`.  The private keys are the elements of a type
`K`; `Signer` holds what OpenSSL does with them, and `IdealSignatures` is the perfect scheme: a
signature verifies exactly for the message and the key it was made with.

* `Block.sign_eq_true`: what a block looks like after a successful `sign`.
* `Block.verifyValidatorSignature_sign`: in the perfect scheme the node's own check accepts it.
* `Transaction.verify_signAll_iff`: a transaction whose inputs are all signed verifies exactly when no
  call after the first had to fill in a public key.
-/

namespace Mermai

open Codec

/-! ## Keys and signatures -/

/-- The OpenSSL functions that take a private key. -/
structure Signer (K : Type) where
  /-- `i2d_PUBKEY`. -/
  i2dPubkey : K → Bytes
  /-- `EVP_DigestSignInit`, `Update`, `Final` with a key, the random bytes of the library and a
  message; `none` when one of the calls fails. -/
  digestSign : K → Bytes → Bytes → Option Bytes

variable {K : Type}

/-- A perfect signature scheme. -/
structure IdealSignatures (C : Crypto) (S : Signer K) : Prop where
  /-- A signature verifies exactly when it was made by signing the message with a matching key. -/
  verify_iff : ∀ publicKey message signature,
    C.digestVerify publicKey message signature = true ↔
      ∃ k random, S.i2dPubkey k = publicKey ∧ S.digestSign k random message = some signature
  /-- A signature was made by signing one message. -/
  message_inj : ∀ {k k' random random' message message' signature},
    S.i2dPubkey k = S.i2dPubkey k' → S.digestSign k random message = some signature →
      S.digestSign k' random' message' = some signature → message = message'
  /-- `d2i_PUBKEY` reads back what `i2d_PUBKEY` writes. -/
  parses : ∀ k, C.d2iPubkey (S.i2dPubkey k) = some (S.i2dPubkey k).length
  pubkey_ne : ∀ k, S.i2dPubkey k ≠ []
  signature_ne : ∀ {k random message signature},
    S.digestSign k random message = some signature → signature ≠ []

/-- Keys of one byte; a signature is the message behind the key. -/
def taggedSigner : Signer UInt8 where
  i2dPubkey k := [k]
  digestSign k _ message := some (k :: message)

/-- The verifying side of `taggedSigner`. -/
def taggedCrypto : Crypto where
  sha256 := polyDigest
  sha256_length := polyDigest_length
  d2iPubkey key := if key.length = 1 then some 1 else none
  digestVerify key message signature := key.length = 1 ∧ signature = key ++ message

theorem tagged_ideal : IdealSignatures taggedCrypto taggedSigner where
  verify_iff publicKey message signature := by
    simp only [taggedCrypto, taggedSigner, decide_eq_true_eq, Option.some.injEq,
      List.length_eq_one_iff]
    constructor
    · rintro ⟨⟨k, rfl⟩, rfl⟩
      exact ⟨k, [], rfl, rfl⟩
    · rintro ⟨k, -, rfl, rfl⟩
      exact ⟨⟨k, rfl⟩, rfl⟩
  message_inj := by
    rintro k k' _ _ message message' signature - h h'
    rw [← h'] at h
    exact (List.cons.inj (Option.some.inj h)).2
  parses _ := rfl
  pubkey_ne _ := List.cons_ne_nil _ _
  signature_ne := by
    rintro k _ message signature h
    rw [← Option.some.inj h]
    exact List.cons_ne_nil _ _

/-! ## Blocks -/

/-- The block whose payload `sign` signs: with a key, and with the old signature cleared. -/
def Block.keyed (S : Signer K) (k : K) (b : Block) : Block :=
  { b with
    validatorPublicKey := if b.validatorPublicKey = [] then S.i2dPubkey k else b.validatorPublicKey
    validatorSignature := [] }

/-- `mermai_block::sign`; a null key is `none`. -/
def Block.sign (S : Signer K) (privateKey : Option K) (random : Bytes) (b : Block) : Bool × Block :=
  match privateKey with
  | none => (false, b)
  | some k =>
    match S.digestSign k random (b.keyed S k).signingPayload with
    | none => (false, b.keyed S k)
    | some signature => (true, { b.keyed S k with validatorSignature := signature })

/-- **Inversion** of a successful `sign`: the signature is one of the block's own payload. -/
theorem Block.sign_eq_true {S : Signer K} {k : K} {random : Bytes} {b : Block}
    (h : (b.sign S (some k) random).1 = true) :
    S.digestSign k random (b.sign S (some k) random).2.signingPayload =
      some (b.sign S (some k) random).2.validatorSignature := by
  cases hs : S.digestSign k random (b.keyed S k).signingPayload with
  | none => simp [Block.sign, hs] at h
  | some signature =>
    have heq : b.sign S (some k) random =
        (true, { b.keyed S k with validatorSignature := signature }) := by simp [Block.sign, hs]
    rw [heq]
    exact hs

/-- The node's own check accepts a block that was signed with the key it carries. -/
theorem Block.verifyValidatorSignature_sign {C : Crypto} {S : Signer K} (hS : IdealSignatures C S)
    {k : K} {random : Bytes} {b : Block} (h : (b.sign S (some k) random).1 = true)
    (hkey : (b.sign S (some k) random).2.validatorPublicKey = S.i2dPubkey k) :
    (b.sign S (some k) random).2.verifyValidatorSignature C = true := by
  have hsig := Block.sign_eq_true h
  have hverify := (hS.verify_iff _ _ _).mpr ⟨k, random, rfl, hsig⟩
  have hparse := hS.parses k
  unfold Block.verifyValidatorSignature
  rw [hkey]
  simp [hS.pubkey_ne k, hS.signature_ne hsig, hparse, hverify]

/-! ## Transactions -/

/-- A call of `mermai_transaction::sign`, with what the library does in it. -/
structure SignCall (K : Type) where
  inputIdx : ℕ
  /-- A null key is `none`. -/
  privateKey : Option K
  random : Bytes := []
  /-- The size of the signature that is left when the last `EVP_DigestSignFinal` fails. -/
  leftover : ℕ := 0

/-- The input with a key, and with the old signature cleared. -/
def TxInput.keyed (S : Signer K) (k : K) (i : TxInput) : TxInput :=
  { i with
    publicKey := if i.publicKey = [] then S.i2dPubkey k else i.publicKey
    signature := [] }

def Transaction.setInput (tx : Transaction) (n : ℕ) (i : TxInput) : Transaction :=
  { tx with inputs := tx.inputs.set n i }

/-- `mermai_transaction::sign`. -/
def Transaction.sign (S : Signer K) (tx : Transaction) (call : SignCall K) : Bool × Transaction :=
  match call.privateKey, tx.inputs[call.inputIdx]? with
  | some k, some i =>
    match S.digestSign k call.random (tx.setInput call.inputIdx (i.keyed S k)).unsignedPayload with
    | none =>
      let signature := List.replicate call.leftover 0
      (false, tx.setInput call.inputIdx { i.keyed S k with signature })
    | some signature => (true, tx.setInput call.inputIdx { i.keyed S k with signature })
  | _, _ => (false, tx)

/-- The payload does not depend on signatures. -/
theorem Transaction.unsignedPayload_setInput (tx : Transaction) (n : ℕ) (i : TxInput)
    (signature : Bytes) : (tx.setInput n { i with signature }).unsignedPayload =
      (tx.setInput n i).unsignedPayload := by
  simp [Transaction.unsignedPayload, Transaction.setInput, List.map_set]

/-- **Inversion** of a successful `sign`: the signature is one of the transaction's own payload. -/
theorem Transaction.sign_eq_true {S : Signer K} {tx tx' : Transaction} {call : SignCall K}
    (h : tx.sign S call = (true, tx')) : ∃ k i signature, call.privateKey = some k ∧
      tx.inputs[call.inputIdx]? = some i ∧
      tx' = tx.setInput call.inputIdx { i.keyed S k with signature } ∧
      S.digestSign k call.random tx'.unsignedPayload = some signature := by
  unfold Transaction.sign at h
  split at h
  · rename_i k i hk hi
    split at h
    · cases h
    · rename_i signature hsig
      cases h
      refine ⟨k, i, signature, hk, hi, rfl, ?_⟩
      rw [Transaction.unsignedPayload_setInput, hsig]
  · cases h

/-! ## One call -/

section Step

variable {C : Crypto} {S : Signer K} {tx tx' : Transaction} {call : SignCall K}

/-- The public key of the input is empty, or the one of the call's key. -/
def SignCall.Matches (S : Signer K) (call : SignCall K) (tx : Transaction) : Prop :=
  ∀ i k, tx.inputs[call.inputIdx]? = some i → call.privateKey = some k →
    i.publicKey = [] ∨ i.publicKey = S.i2dPubkey k

/-- The call has a public key to fill in. -/
def SignCall.Fills (call : SignCall K) (tx : Transaction) : Prop :=
  ∃ i, tx.inputs[call.inputIdx]? = some i ∧ i.publicKey = []

/-- The input is one that the call signed with a payload. -/
def SignCall.Signed (S : Signer K) (call : SignCall K) (payload : Bytes) (i : TxInput) : Prop :=
  ∃ k, call.privateKey = some k ∧ i.publicKey = S.i2dPubkey k ∧
    S.digestSign k call.random payload = some i.signature

/-- In a perfect scheme the check of `verify` accepts a signature with no other payload. -/
theorem SignCall.Signed.inputSigned_iff (hS : IdealSignatures C S) {payload payload' : Bytes}
    {i : TxInput} (h : call.Signed S payload i) :
    inputSigned C payload' i = true ↔ payload = payload' := by
  obtain ⟨k, -, hkey, hsig⟩ := h
  have hchecks : inputSigned C payload' i = true ↔
      C.digestVerify i.publicKey payload' i.signature = true := by
    simp [inputSigned, hkey, hS.pubkey_ne k, hS.signature_ne hsig, hS.parses k]
  rw [hchecks, hS.verify_iff, hkey]
  constructor
  · rintro ⟨k', random', hk', hsig'⟩
    exact hS.message_inj hk'.symm hsig hsig'
  · rintro rfl
    exact ⟨k, call.random, rfl, hsig⟩

theorem Transaction.sign_signed (h : tx.sign S call = (true, tx')) (hmatch : call.Matches S tx) :
    ∃ i, tx'.inputs[call.inputIdx]? = some i ∧ call.Signed S tx'.unsignedPayload i := by
  obtain ⟨k, i, signature, hk, hi, rfl, hsig⟩ := Transaction.sign_eq_true h
  have hlt := (List.getElem?_eq_some_iff.mp hi).1
  refine ⟨{ i.keyed S k with signature }, by simp [Transaction.setInput, hlt], k, hk, ?_, hsig⟩
  rcases hmatch i k hi hk with hkey | hkey
  · simp [TxInput.keyed, hkey]
  · simp [TxInput.keyed, hkey]

/-- The other inputs stay. -/
theorem Transaction.sign_other (h : tx.sign S call = (true, tx')) {n : ℕ} (hn : n ≠ call.inputIdx) :
    tx'.inputs[n]? = tx.inputs[n]? := by
  obtain ⟨k, i, signature, -, -, rfl, -⟩ := Transaction.sign_eq_true h
  exact List.getElem?_set_ne hn.symm

/-- What `sign` does not touch. -/
structure Transaction.SameBody (tx tx' : Transaction) : Prop where
  id : tx'.id = tx.id
  timestamp : tx'.timestamp = tx.timestamp
  outputs : tx'.outputs = tx.outputs
  outpoints : tx'.inputs.map TxInput.outpoint = tx.inputs.map TxInput.outpoint

theorem Transaction.SameBody.length_inputs (h : tx.SameBody tx') :
    tx'.inputs.length = tx.inputs.length := by
  simpa using congrArg List.length h.outpoints

/-- Replacing an item by one with the same image. -/
theorem map_set_of_eq {α β : Type} {f : α → β} {l : List α} {n : ℕ} {a b : α} (hn : l[n]? = some b)
    (hab : f a = f b) : (l.set n a).map f = l.map f := by
  obtain ⟨hlt, rfl⟩ := List.getElem?_eq_some_iff.mp hn
  have hlt' : n < (l.map f).length := by simpa using hlt
  have hself : f l[n] = (l.map f)[n] := by simp
  rw [List.map_set, hab, hself, List.set_getElem_self]

theorem sum_map_set {α : Type} {f : α → ℕ} {l : List α} {n : ℕ} {a b : α} (hn : l[n]? = some b) :
    ((l.set n a).map f).sum + f b = (l.map f).sum + f a := by
  induction l generalizing n with
  | nil => simp at hn
  | cons c l ih =>
    cases n with
    | zero =>
      cases hn
      simp only [List.set_cons_zero, List.map_cons, List.sum_cons]
      omega
    | succ n =>
      have hrest := ih hn
      simp only [List.set_cons_succ, List.map_cons, List.sum_cons]
      omega

theorem Transaction.sign_sameBody (h : tx.sign S call = (true, tx')) : tx.SameBody tx' := by
  obtain ⟨k, i, signature, -, hi, rfl, -⟩ := Transaction.sign_eq_true h
  exact ⟨rfl, rfl, rfl, map_set_of_eq hi rfl⟩

/-- A call with nothing to fill in leaves the payload. -/
theorem Transaction.sign_payload (h : tx.sign S call = (true, tx')) (hfill : ¬ call.Fills tx) :
    tx'.unsignedPayload = tx.unsignedPayload := by
  obtain ⟨k, i, signature, -, hi, rfl, -⟩ := Transaction.sign_eq_true h
  have hkey : i.publicKey ≠ [] := fun hnil => hfill ⟨i, hi, hnil⟩
  rw [Transaction.unsignedPayload, Transaction.setInput, Transaction.unsignedPayload]
  congr 2
  refine map_set_of_eq hi ?_
  simp [TxInput.keyed, hkey]

/-- The part of the payload that does not depend on the public keys, and the public keys. -/
theorem Transaction.unsignedPayload_length (tx : Transaction) : tx.unsignedPayload.length =
    24 + tx.id.length + (writeCounted TxOutput.serialize tx.outputs).length +
      (tx.inputs.map fun i => 16 + i.prevTxHash.length + i.publicKey.length).sum := by
  have hinputs : ∀ l : List TxInput, ((l.map fun i => { i with signature := [] }).flatMap
      TxInput.serialize).length =
      (l.map fun i => 16 + i.prevTxHash.length + i.publicKey.length).sum := by
    intro l
    induction l with
    | nil => rfl
    | cons i l ih =>
      rw [List.map_cons, List.flatMap_cons, List.length_append, ih, List.map_cons, List.sum_cons]
      simp only [TxInput.serialize, writeString, writeBytes, writeU32, List.length_append,
        writeSized_length, writeBE_length, List.length_nil]
      omega
  simp only [Transaction.unsignedPayload, Transaction.serialize, writeString, writeU64,
    List.length_append, writeSized_length, writeBE_length]
  rw [writeCounted, List.length_append, writeBE_length, hinputs]
  omega

/-- Filling in a public key makes the payload longer. -/
theorem Transaction.sign_length (hS : IdealSignatures C S) (h : tx.sign S call = (true, tx')) :
    tx.unsignedPayload.length ≤ tx'.unsignedPayload.length ∧
      (call.Fills tx → tx.unsignedPayload.length < tx'.unsignedPayload.length) := by
  obtain ⟨k, i, signature, -, hi, rfl, -⟩ := Transaction.sign_eq_true h
  rw [Transaction.unsignedPayload_length, Transaction.unsignedPayload_length]
  have hsum := sum_map_set (f := fun i : TxInput => 16 + i.prevTxHash.length + i.publicKey.length)
    (a := { i.keyed S k with signature }) hi
  have hpos := List.length_pos_iff.mpr (hS.pubkey_ne k)
  simp only [Transaction.setInput]
  simp only [TxInput.keyed] at hsum ⊢
  by_cases hkey : i.publicKey = []
  · simp only [hkey, if_pos, List.length_nil] at hsum ⊢
    constructor
    · omega
    · intro
      omega
  · simp only [hkey, if_false] at hsum ⊢
    refine ⟨by omega, ?_⟩
    rintro ⟨i', hi', hnil⟩
    rw [hi] at hi'
    cases hi'
    exact absurd hnil hkey

end Step

/-! ## Signing every input -/

section Run

variable {C : Crypto} {S : Signer K} {tx tx' : Transaction} {calls : List (SignCall K)}

/-- One call of `sign` after another; the loop breaks at a call that fails. -/
def Transaction.signAll (S : Signer K) (tx : Transaction) (calls : List (SignCall K)) :
    Bool × Transaction := Run.breakLoop (Transaction.sign S) tx calls

/-- What no call touches stays. -/
theorem Transaction.signAll_other (h : tx.signAll S calls = (true, tx')) {n : ℕ}
    (hn : n ∉ calls.map SignCall.inputIdx) : tx'.inputs[n]? = tx.inputs[n]? := by
  refine Run.breakLoop_invariant (fun t => t.inputs[n]? = tx.inputs[n]?) ?_ rfl h
  intro t t' call hcall hother hsign
  rw [Transaction.sign_other hsign, hother]
  rintro rfl
  exact hn (List.mem_map_of_mem hcall)

theorem Transaction.signAll_sameBody (h : tx.signAll S calls = (true, tx')) : tx.SameBody tx' := by
  refine Run.breakLoop_invariant (fun t => tx.SameBody t) ?_ ⟨rfl, rfl, rfl, rfl⟩ h
  intro t t' call _ hbody hsign
  have hstep := Transaction.sign_sameBody hsign
  exact ⟨hstep.id.trans hbody.id, hstep.timestamp.trans hbody.timestamp,
    hstep.outputs.trans hbody.outputs, hstep.outpoints.trans hbody.outpoints⟩

theorem Transaction.signAll_length_le (hS : IdealSignatures C S)
    (h : tx.signAll S calls = (true, tx')) :
    tx.unsignedPayload.length ≤ tx'.unsignedPayload.length := by
  refine Run.breakLoop_invariant (fun t => tx.unsignedPayload.length ≤ t.unsignedPayload.length) ?_
    le_rfl h
  intro t t' call _ hle hsign
  exact hle.trans (Transaction.sign_length hS hsign).1

/-- A later call for another input finds that input as it was. -/
theorem Transaction.sign_later {call c : SignCall K} (h : tx.sign S call = (true, tx'))
    (hidx : call.inputIdx ∉ calls.map SignCall.inputIdx) (hc : c ∈ calls) :
    (c.Fills tx' ↔ c.Fills tx) ∧ (c.Matches S tx' ↔ c.Matches S tx) := by
  have hne : c.inputIdx ≠ call.inputIdx := fun heq => hidx (heq ▸ List.mem_map_of_mem hc)
  unfold SignCall.Fills SignCall.Matches
  rw [Transaction.sign_other h hne]
  exact ⟨Iff.rfl, Iff.rfl⟩

/-- A call that fills in a public key makes the payload longer, wherever it stands. -/
theorem Transaction.signAll_length_lt (hS : IdealSignatures C S)
    (hnodup : (calls.map SignCall.inputIdx).Nodup) (h : tx.signAll S calls = (true, tx'))
    (hfill : ∃ call ∈ calls, call.Fills tx) :
    tx.unsignedPayload.length < tx'.unsignedPayload.length := by
  induction calls generalizing tx with
  | nil => simp at hfill
  | cons call calls ih =>
    rw [List.map_cons, List.nodup_cons] at hnodup
    obtain ⟨m, hsign, hrest⟩ := Run.breakLoop_cons_eq_true.mp h
    have hlength := Transaction.sign_length hS hsign
    obtain ⟨c, hc, hfill⟩ := hfill
    rcases List.mem_cons.mp hc with rfl | hc
    · exact (hlength.2 hfill).trans_le (Transaction.signAll_length_le hS hrest)
    · have hfill' : c.Fills m := (Transaction.sign_later hsign hnodup.1 hc).1.mpr hfill
      exact hlength.1.trans_lt (ih hnodup.2 hrest ⟨c, hc, hfill'⟩)

/-- With nothing to fill in, every call signs the payload that was there. -/
theorem Transaction.signAll_signed (hnodup : (calls.map SignCall.inputIdx).Nodup)
    (h : tx.signAll S calls = (true, tx')) (hmatch : ∀ call ∈ calls, call.Matches S tx)
    (hfill : ∀ call ∈ calls, ¬ call.Fills tx) :
    tx'.unsignedPayload = tx.unsignedPayload ∧ ∀ call ∈ calls, ∃ i,
      tx'.inputs[call.inputIdx]? = some i ∧ call.Signed S tx.unsignedPayload i := by
  induction calls generalizing tx with
  | nil =>
    cases h
    simp
  | cons call calls ih =>
    rw [List.map_cons, List.nodup_cons] at hnodup
    obtain ⟨m, hsign, hrest⟩ := Run.breakLoop_cons_eq_true.mp h
    have hpayload := Transaction.sign_payload hsign (hfill call List.mem_cons_self)
    have hlater := fun c (hc : c ∈ calls) => Transaction.sign_later hsign hnodup.1 hc
    obtain ⟨hsame, hsigned⟩ := ih hnodup.2 hrest
      (fun c hc => (hlater c hc).2.mpr (hmatch c (List.mem_cons_of_mem call hc)))
      (fun c hc => mt (hlater c hc).1.mp (hfill c (List.mem_cons_of_mem call hc)))
    rw [hpayload] at hsame hsigned
    refine ⟨hsame, ?_⟩
    intro c hc
    rcases List.mem_cons.mp hc with rfl | hc
    · obtain ⟨i, hi, hown⟩ := Transaction.sign_signed hsign (hmatch c List.mem_cons_self)
      rw [hpayload] at hown
      exact ⟨i, by rw [Transaction.signAll_other hrest hnodup.1, hi], hown⟩
    · exact hsigned c hc

/-- What `verify` asks of a transaction before it looks at the signatures. -/
structure Transaction.Signable (now : ℕ) (tx : Transaction) : Prop where
  id_ne : tx.id ≠ []
  inputs_ne : tx.inputs ≠ []
  outputs_ne : tx.outputs ≠ []
  inputs_le : tx.inputs.length ≤ maxTransactionInputs
  outputs_le : tx.outputs.length ≤ maxTransactionOutputs
  timestamp_le : tx.timestamp.toNat ≤ now + 120
  prev_ne : ∀ i ∈ tx.inputs, i.prevTxHash ≠ []
  distinct : (tx.inputs.map TxInput.outpoint).Nodup
  outputs_ok : ∀ o ∈ tx.outputs, o.address ≠ [] ∧ o.amount ≠ 0
  sum_ok : (sumGuarded 0 (tx.outputs.map TxOutput.amount)).isSome

/-- `sign` keeps it, so after it `verify` is about the signatures. -/
theorem Transaction.Signable.verify_iff {now : ℕ} (h : tx.Signable now) (hbody : tx.SameBody tx') :
    tx'.verify C now = true ↔ ∀ i ∈ tx'.inputs, inputSigned C tx'.unsignedPayload i := by
  rw [Transaction.verify_iff]
  refine ⟨fun hv => hv.signed, fun hsigned => ?_⟩
  have hlen := hbody.length_inputs
  have hprev : ∀ i ∈ tx'.inputs, i.prevTxHash ≠ [] := by
    intro i hi
    have hmem : i.outpoint ∈ tx.inputs.map TxInput.outpoint :=
      hbody.outpoints ▸ List.mem_map_of_mem hi
    obtain ⟨j, hj, hout⟩ := List.mem_map.mp hmem
    have hprev : j.prevTxHash = i.prevTxHash := congrArg Prod.fst hout
    exact hprev ▸ h.prev_ne j hj
  exact
    { id_ne := hbody.id ▸ h.id_ne
      inputs_ne := fun hnil => h.inputs_ne (List.length_eq_zero_iff.mp (by rw [← hlen, hnil]; rfl))
      outputs_ne := hbody.outputs ▸ h.outputs_ne
      inputs_le := hlen ▸ h.inputs_le
      outputs_le := hbody.outputs ▸ h.outputs_le
      timestamp_le := hbody.timestamp ▸ h.timestamp_le
      prev_ne := hprev
      distinct := hbody.outpoints ▸ h.distinct
      outputs_ok := hbody.outputs ▸ h.outputs_ok
      sum_ok := hbody.outputs ▸ h.sum_ok
      signed := hsigned }

/-- Every input has its call. -/
theorem exists_call_of_mem (hcalls : (calls.map SignCall.inputIdx).Perm
    (List.range tx.inputs.length)) (hbody : tx.SameBody tx') {j : TxInput} (hj : j ∈ tx'.inputs) :
    ∃ call ∈ calls, tx'.inputs[call.inputIdx]? = some j := by
  obtain ⟨n, hn⟩ := List.mem_iff_getElem?.mp hj
  have hlt : n < tx.inputs.length :=
    hbody.length_inputs ▸ (List.getElem?_eq_some_iff.mp hn).1
  have hmem : n ∈ calls.map SignCall.inputIdx := hcalls.mem_iff.mpr (List.mem_range.mpr hlt)
  obtain ⟨call, hcall, rfl⟩ := List.mem_map.mp hmem
  exact ⟨call, hcall, hn⟩

/-- **Signing every input**, in any order: the transaction verifies exactly when no call after the
first has a public key to fill in. -/
theorem Transaction.verify_signAll_iff (hS : IdealSignatures C S) (now : ℕ) (tx : Transaction)
    (htx : tx.Signable now) (calls : List (SignCall K))
    (hcalls : (calls.map SignCall.inputIdx).Perm (List.range tx.inputs.length))
    (hmatch : ∀ call ∈ calls, call.Matches S tx) (hsign : (tx.signAll S calls).1 = true) :
    (tx.signAll S calls).2.verify C now = true ↔ ∀ call ∈ calls.tail, ¬ call.Fills tx := by
  have hnodup : (calls.map SignCall.inputIdx).Nodup := hcalls.nodup_iff.mpr List.nodup_range
  have hrun : tx.signAll S calls = (true, (tx.signAll S calls).2) := Prod.ext hsign rfl
  generalize (tx.signAll S calls).2 = tx' at hrun ⊢
  have hbody := Transaction.signAll_sameBody hrun
  rw [htx.verify_iff hbody]
  cases calls with
  | nil => exact absurd (by simpa using hcalls.length_eq.symm) htx.inputs_ne
  | cons first rest =>
    rw [List.map_cons, List.nodup_cons] at hnodup
    obtain ⟨m, hfirst, hrest⟩ := Run.breakLoop_cons_eq_true.mp hrun
    have hlater := fun c (hc : c ∈ rest) => Transaction.sign_later hfirst hnodup.1 hc
    obtain ⟨i, hi, hown⟩ := Transaction.sign_signed hfirst (hmatch first List.mem_cons_self)
    have hi' : tx'.inputs[first.inputIdx]? = some i := by
      rw [Transaction.signAll_other hrest hnodup.1, hi]
    constructor
    · -- the first signature is one of a shorter payload than the last
      intro hsigned call hcall hfill
      have hlt := Transaction.signAll_length_lt hS hnodup.2 hrest
        ⟨call, hcall, (hlater call hcall).1.mpr hfill⟩
      have heq := (hown.inputSigned_iff hS).mp (hsigned i (List.mem_of_getElem? hi'))
      rw [heq] at hlt
      exact lt_irrefl _ hlt
    · intro hfill
      obtain ⟨hsame, hsigned⟩ := Transaction.signAll_signed hnodup.2 hrest
        (fun c hc => (hlater c hc).2.mpr (hmatch c (List.mem_cons_of_mem first hc)))
        (fun c hc => mt (hlater c hc).1.mp (hfill c hc))
      intro j hj
      obtain ⟨call, hcall, hn⟩ := exists_call_of_mem hcalls hbody hj
      rcases List.mem_cons.mp hcall with rfl | hcall
      · rw [hi'] at hn
        cases hn
        exact (hown.inputSigned_iff hS).mpr hsame.symm
      · obtain ⟨i', hcur, hsig⟩ := hsigned call hcall
        rw [hcur] at hn
        cases hn
        exact (hsig.inputSigned_iff hS).mpr hsame.symm

end Run

/-- Two inputs to sign, the first without a public key. -/
def twoInputs (key : Bytes) : Transaction where
  id := [116]
  inputs := [⟨[97], 0, [], []⟩, ⟨[98], 0, [], key⟩]
  outputs := [⟨[99], 1⟩]

theorem twoInputs_signable (key : Bytes) : (twoInputs key).Signable 0 where
  id_ne := by simp [twoInputs]
  inputs_ne := by simp [twoInputs]
  outputs_ne := by simp [twoInputs]
  inputs_le := by
    show 2 ≤ maxTransactionInputs
    decide
  outputs_le := by
    show 1 ≤ maxTransactionOutputs
    decide
  timestamp_le := Nat.zero_le _
  prev_ne := by simp [twoInputs]
  distinct := by simp [twoInputs, TxInput.outpoint]
  outputs_ok := by simp [twoInputs]
  sum_ok := rfl

/-- A call of `sign` for each of the two inputs. -/
def twoCalls : List (SignCall UInt8) :=
  [{ inputIdx := 0, privateKey := some 7 }, { inputIdx := 1, privateKey := some 8 }]

theorem twoCalls_match {key : Bytes} (h : key = [] ∨ key = [8]) :
    ∀ call ∈ twoCalls, call.Matches taggedSigner (twoInputs key) := by
  intro call hcall i k hi hk
  simp only [twoCalls, List.mem_cons, List.not_mem_nil, or_false] at hcall
  rcases hcall with rfl | rfl
  · cases hi
    exact .inl rfl
  · cases hi
    cases hk
    exact h

theorem verify_signAll_two :
    ((twoInputs [8]).signAll taggedSigner twoCalls).2.verify taggedCrypto 0 = true := by
  refine (Transaction.verify_signAll_iff tagged_ideal 0 (twoInputs [8]) (twoInputs_signable [8])
    twoCalls (List.Perm.refl [0, 1]) (twoCalls_match (.inr rfl)) (by decide +kernel)).mpr ?_
  intro call hcall
  obtain rfl := List.mem_singleton.mp hcall
  rintro ⟨i, hi, hkey⟩
  cases hi
  cases hkey

/-- Two inputs without public keys, each signed once and with success. -/
theorem signAll_two_fails : IdealSignatures taggedCrypto taggedSigner ∧
    (twoInputs []).Signable 0 ∧
    (twoCalls.map SignCall.inputIdx).Perm (List.range (twoInputs []).inputs.length) ∧
    (∀ call ∈ twoCalls, call.Matches taggedSigner (twoInputs [])) ∧
    ((twoInputs []).signAll taggedSigner twoCalls).1 = true ∧
    ((twoInputs []).signAll taggedSigner twoCalls).2.verify taggedCrypto 0 = false :=
  ⟨tagged_ideal, twoInputs_signable [], List.Perm.refl [0, 1], twoCalls_match (.inl rfl),
    by decide +kernel, by decide +kernel⟩

end Mermai
