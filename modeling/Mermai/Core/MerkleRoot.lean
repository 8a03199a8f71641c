import Mermai.Lib.Merkle
import Mermai.Core.FormatLaws
import Mermai.Core.Verify

/-!
# Core.MerkleRoot — what the root of `calculate_tree_hash` commits to

Leaves and inner nodes are hashed without a domain tag.  They are told apart by the byte layout: a
serialized transaction starts with the four bytes of the length of its id, and four hex digits there
would announce an id longer than a pair of digests (`serialize_ne_digests`).  Outside the limits of
the decoders an encoding still determines its transaction while every size fits its four-byte prefix
(`Transaction.serialize_inj`).
-/

namespace Mermai

open Codec

/-! ## Sizes that fit their prefixes -/

/-- An input whose field lengths fit four bytes. -/
def TxInput.Sized (i : TxInput) : Prop :=
  i.prevTxHash.length < 2 ^ 32 ∧ i.signature.length < 2 ^ 32 ∧ i.publicKey.length < 2 ^ 32

/-- A transaction whose field lengths and counts fit four bytes. -/
def Transaction.Sized (tx : Transaction) : Prop :=
  tx.id.length < 2 ^ 32 ∧
  (tx.inputs.length < 2 ^ 32 ∧ ∀ i ∈ tx.inputs, i.Sized) ∧
  (tx.outputs.length < 2 ^ 32 ∧ ∀ o ∈ tx.outputs, o.address.length < 2 ^ 32)

instance (i : TxInput) : Decidable i.Sized := inferInstanceAs (Decidable (_ ∧ _))
instance (tx : Transaction) : Decidable tx.Sized := inferInstanceAs (Decidable (_ ∧ _))

/-- A string of any length that its prefix can announce. -/
def readAnySized : Reader Bytes := readSized eofText eofText (2 ^ 32 - 1)

/-- `readInput` without limits. -/
def readAnyInput : Reader TxInput := do
  let prevTxHash ← readAnySized
  let prevOutputIdx ← readU32
  let signature ← readAnySized
  let publicKey ← readAnySized
  pure ⟨prevTxHash, prevOutputIdx, signature, publicKey⟩

/-- `readOutput` without limits. -/
def readAnyOutput : Reader TxOutput := do
  let address ← readAnySized
  let amount ← readU64
  pure ⟨address, amount⟩

/-- `readTransaction` without limits. -/
def readAnyTransaction : Reader Transaction := do
  let id ← readAnySized
  let fee ← readU64
  let timestamp ← readU64
  let inputs ← readCounted eofText eofText (2 ^ 32 - 1) readAnyInput
  let outputs ← readCounted eofText eofText (2 ^ 32 - 1) readAnyOutput
  pure { id, fee, timestamp, inputs, outputs }

theorem readAnySized_reads : Reads readAnySized writeSized (fun s => s.length < 2 ^ 32) :=
  (readSized_reads _ _ (by decide)).congr (fun _ => rfl) (fun _ => by omega)

theorem readAnyInput_reads : Reads readAnyInput TxInput.serialize TxInput.Sized := by
  refine ReadsIn.congr (ReadsIn.bind TxInput.prevTxHash readAnySized_reads fun h _ =>
    ReadsIn.bind TxInput.prevOutputIdx readU32_reads fun n _ =>
    ReadsIn.bind TxInput.signature readAnySized_reads fun s _ =>
    ReadsIn.bind TxInput.publicKey readAnySized_reads fun k _ => ReadsIn.pure ?_) ?_ ?_
  · rintro ⟨_, _, _, _⟩
    simp [and_assoc]
  · intro i
    simp [TxInput.serialize, writeString, writeBytes]
  · intro i
    simp [TxInput.Sized]

theorem readAnyOutput_reads :
    Reads readAnyOutput TxOutput.serialize (fun o => o.address.length < 2 ^ 32) := by
  refine ReadsIn.congr (ReadsIn.bind TxOutput.address readAnySized_reads fun a _ =>
    ReadsIn.bind TxOutput.amount readU64_reads fun n _ => ReadsIn.pure ?_) ?_ ?_
  · rintro ⟨_, _⟩
    simp
  · intro o
    simp [TxOutput.serialize, writeString]
  · intro o
    simp

theorem readAnyTransaction_reads :
    Reads readAnyTransaction Transaction.serialize Transaction.Sized := by
  have hcount : ∀ {γ : Type} {item : Reader γ} {e : γ → Bytes} {P : γ → Prop}, Reads item e P →
      Reads (readCounted eofText eofText (2 ^ 32 - 1) item) (writeCounted e)
        (fun l => l.length < 2 ^ 32 ∧ ∀ a ∈ l, P a) := by
    intro γ item e P h
    exact (readCounted_reads _ _ (by decide) h).congr (fun _ => rfl)
      (fun l => and_congr_left' (by omega))
  refine ReadsIn.congr (ReadsIn.bind Transaction.id readAnySized_reads fun _ _ =>
    ReadsIn.bind Transaction.fee readU64_reads fun _ _ =>
    ReadsIn.bind Transaction.timestamp readU64_reads fun _ _ =>
    ReadsIn.bind Transaction.inputs (hcount readAnyInput_reads) fun _ _ =>
    ReadsIn.bind Transaction.outputs (hcount readAnyOutput_reads) fun _ _ =>
    ReadsIn.pure ?_) ?_ ?_
  · rintro ⟨_, _, _, _, _⟩
    simp only [Transaction.mk.injEq, true_and]
    tauto
  · intro tx
    simp [Transaction.serialize, writeString]
  · intro tx
    simp [Transaction.Sized]

/-- An encoding determines its transaction while every size fits its prefix. -/
theorem Transaction.serialize_inj {tx tx' : Transaction} (h : tx.Sized) (h' : tx'.Sized)
    (hs : tx.serialize = tx'.serialize) : tx = tx' :=
  readAnyTransaction_reads.enc_inj h h' hs

/-! ## Leaves are not inner nodes -/

theorem le_of_mem_hashToHex {s : Bytes} {b : UInt8} (h : b ∈ hashToHex s) : 48 ≤ b.toNat := by
  have key : ∀ i < 16, 48 ≤ (hexDigit i).toNat := by decide
  obtain ⟨c, -, hb⟩ := List.mem_flatMap.mp h
  have hlt := c.toNat_lt
  simp only [List.mem_cons, List.not_mem_nil, or_false] at hb
  rcases hb with rfl | rfl
  · exact key _ (by omega)
  · exact key _ (by omega)

/-- A number whose four bytes are hex digits is large. -/
theorem le_of_writeBE_digits {n : ℕ} (hn : n < 2 ^ 32) (h : ∀ b ∈ writeBE 4 n, 48 ≤ b.toNat) :
    48 * 256 ^ 3 ≤ n := by
  have hb : 48 ≤ (UInt8.ofNat (n >>> 24)).toNat := h _ (by simp [writeBE])
  rw [UInt8.toNat_ofNat', Nat.shiftRight_eq_div_pow] at hb
  omega

/-- A serialized transaction is never a pair of digests. -/
theorem serialize_ne_digests {C : Crypto} {tx : Transaction} (htx : tx.Sized) {a b : Bytes}
    (ha : IsDigest C a) (hb : IsDigest C b) : tx.serialize ≠ a ++ b := by
  intro h
  have hlen := congrArg List.length h
  have hshape : tx.serialize = writeBE 4 tx.id.length ++ (tx.id ++ (writeU64 tx.fee ++
      (writeU64 tx.timestamp ++ (writeCounted TxInput.serialize tx.inputs ++
        writeCounted TxOutput.serialize tx.outputs)))) := by
    simp [Transaction.serialize, writeString, writeSized]
  have htake : writeBE 4 tx.id.length = a.take 4 := by
    have := congrArg (List.take 4) (hshape.symm.trans h)
    rwa [List.take_left' (writeBE_length _ _), List.take_append_of_le_length
      (by rw [ha.length]; decide)] at this
  have hbig : 48 * 256 ^ 3 ≤ tx.id.length := by
    refine le_of_writeBE_digits htx.1 ?_
    intro x hx
    rw [htake] at hx
    obtain ⟨m, rfl⟩ := ha
    exact le_of_mem_hashToHex (List.mem_of_mem_take hx)
  rw [hshape] at hlen
  simp only [List.length_append, ha.length, hb.length] at hlen
  omega

/-! ## The strings that are hashed -/

theorem nextLevel_eq_pairUp (C : Crypto) : ∀ level : List Bytes,
    nextLevel C level = Merkle.pairUp (hashCombine C) level
  | [] => rfl
  | [_] => rfl
  | a :: b :: rest => by
    rw [nextLevel, Merkle.pairUp_cons₂, nextLevel_eq_pairUp C rest]

/-- `climb` returns the node of the last level. -/
theorem climb_eq_levels (C : Crypto) (f : ℕ) (level : List Bytes) :
    climb C f level = (((Merkle.levels (hashCombine C) f level).getLast?).getD []).headD [] := by
  induction f generalizing level with
  | zero => rfl
  | succ f ih =>
    unfold climb
    split_ifs with hl
    · rw [ih, nextLevel_eq_pairUp, Merkle.getLast?_levels_of_lt hl]
    · rw [Merkle.levels, if_neg hl]
      rfl

/-- The strings `calculate_tree_hash` hashes. -/
def treeInputs (C : Crypto) (txs : List Transaction) : List Bytes :=
  txs.map Transaction.serialize ++
    (Merkle.combined (hashCombine C) txs.length (txs.map (Transaction.getHash C))).map
      fun p => p.1 ++ p.2

/-- Two digests whose concatenation is among the strings `S`. -/
def HashedPair (C : Crypto) (S : Set Bytes) (a b : Bytes) : Prop :=
  IsDigest C a ∧ IsDigest C b ∧ a ++ b ∈ S

theorem getHash_digest {C : Crypto} {txs : List Transaction} {a : Bytes}
    (h : a ∈ txs.map (Transaction.getHash C)) : IsDigest C a := by
  obtain ⟨tx, -, rfl⟩ := List.mem_map.mp h
  exact ⟨tx.serialize, rfl⟩

/-- `calculate_tree_hash` reduces the hashes of the transactions to its result. -/
theorem calculateTreeHash_reduces (C : Crypto) {txs : List Transaction} (h : txs ≠ []) :
    ∃ k, (1 < txs.length → 0 < k) ∧ Merkle.Reduces (hashCombine C)
      (HashedPair C {m | m ∈ treeInputs C txs}) k (txs.map (Transaction.getHash C))
      (calculateTreeHash C txs) := by
  obtain ⟨k, r, hk, hlast, hr⟩ := Merkle.levels_reduces (f := hashCombine C) (n := txs.length)
    (l := txs.map (Transaction.getHash C)) (by simpa using h) (by simp)
  rw [List.length_map] at hk
  rw [calculateTreeHash, if_neg h, climb_eq_levels, hlast]
  refine ⟨k, hk, (hr.nodes (D := IsDigest C) ?_ ?_).mono ?_⟩
  · intro a b
    exact ⟨a ++ b, rfl⟩
  · intro a ha
    exact getHash_digest ha
  · intro a b hab
    exact ⟨hab.1, hab.2.1, List.mem_append_right _ (List.mem_map.mpr ⟨(a, b), hab.2.2, rfl⟩)⟩

/-! ## The commitment -/

/-- `hash_combine` tells pairs of digests apart that are hashed without a collision. -/
theorem hashCombine_injOn {C : Crypto} {S : Set Bytes} (hS : C.CollisionFreeOn S) :
    Merkle.InjOn (hashCombine C) (HashedPair C S) := by
  intro a b c d hab hcd h
  have hm : a ++ b = c ++ d := hS _ hab.2.2 _ hcd.2.2 (hashToHex_injective h)
  exact List.append_inj hm (by rw [hab.1.length, hcd.1.length])

/-- The hash of a sized transaction whose encoding is among the strings `S`. -/
def HashedLeaf (C : Crypto) (S : Set Bytes) (a : Bytes) : Prop :=
  ∃ tx : Transaction, tx.Sized ∧ tx.serialize ∈ S ∧ a = tx.getHash C

theorem not_hashedLeaf_hashCombine {C : Crypto} {S : Set Bytes} (hS : C.CollisionFreeOn S)
    {a b : Bytes} (h : HashedPair C S a b) : ¬ HashedLeaf C S (hashCombine C a b) := by
  rintro ⟨tx, htx, hmem, heq⟩
  exact serialize_ne_digests htx h.1 h.2.1
    (hS _ hmem _ h.2.2 (hashToHex_injective heq.symm))

theorem getHash_injOn {C : Crypto} {S : Set Bytes} (hS : C.CollisionFreeOn S)
    {tx tx' : Transaction} (h : tx.Sized ∧ tx.serialize ∈ S) (h' : tx'.Sized ∧ tx'.serialize ∈ S)
    (heq : tx.getHash C = tx'.getHash C) : tx = tx' :=
  Transaction.serialize_inj h.1 h'.1 (hS _ h.2 _ h'.2 (hashToHex_injective heq))

/-- **The Merkle root commits to the transaction list**: lists with pairwise distinct ids that have
the same root are equal, as long as SHA-256 does not collide on the strings the two trees hash. -/
theorem calculateTreeHash_inj (C : Crypto) {txs txs' : List Transaction} (hne : txs ≠ [])
    (hne' : txs' ≠ []) (hid : (txs.map Transaction.id).Nodup)
    (hid' : (txs'.map Transaction.id).Nodup) (hsz : ∀ tx ∈ txs, tx.Sized)
    (hsz' : ∀ tx ∈ txs', tx.Sized)
    (hC : C.CollisionFreeOn {m | m ∈ treeInputs C txs ∨ m ∈ treeInputs C txs'})
    (h : calculateTreeHash C txs = calculateTreeHash C txs') : txs = txs' := by
  set S : Set Bytes := {m | m ∈ treeInputs C txs ∨ m ∈ treeInputs C txs'} with hS
  have hmem : ∀ tx ∈ txs, tx.Sized ∧ tx.serialize ∈ S := by
    intro tx htx
    exact ⟨hsz tx htx, .inl (List.mem_append_left _ (List.mem_map.mpr ⟨tx, htx, rfl⟩))⟩
  have hmem' : ∀ tx ∈ txs', tx.Sized ∧ tx.serialize ∈ S := by
    intro tx htx
    exact ⟨hsz' tx htx, .inr (List.mem_append_left _ (List.mem_map.mpr ⟨tx, htx, rfl⟩))⟩
  have hleaf : ∀ l : List Transaction, (∀ tx ∈ l, tx.Sized ∧ tx.serialize ∈ S) →
      ∀ a ∈ l.map (Transaction.getHash C), HashedLeaf C S a := by
    intro l hl a ha
    obtain ⟨tx, htx, rfl⟩ := List.mem_map.mp ha
    exact ⟨tx, (hl tx htx).1, (hl tx htx).2, rfl⟩
  have hnodup : ∀ l : List Transaction, (∀ tx ∈ l, tx.Sized ∧ tx.serialize ∈ S) →
      (l.map Transaction.id).Nodup → (l.map (Transaction.getHash C)).Nodup := by
    intro l hl hnd
    refine List.Nodup.map_on ?_ (List.Nodup.of_map _ hnd)
    intro x hx y hy hxy
    exact getHash_injOn hC (hl x hx) (hl y hy) hxy
  obtain ⟨k, -, hr⟩ := calculateTreeHash_reduces C hne
  obtain ⟨k', -, hr'⟩ := calculateTreeHash_reduces C hne'
  rw [h] at hr
  have hlevel := Merkle.Reduces.inj (hashCombine_injOn hC)
    (fun a b hab => not_hashedLeaf_hashCombine hC hab)
    (hr.mono fun a b hab => ⟨hab.1, hab.2.1, .inl hab.2.2⟩)
    (hr'.mono fun a b hab => ⟨hab.1, hab.2.1, .inr hab.2.2⟩)
    (hnodup txs hmem hid) (hnodup txs' hmem' hid') (hleaf txs hmem) (hleaf txs' hmem')
  exact Merkle.map_inj_on (fun x y hx hy hxy => getHash_injOn hC hx hy hxy) hmem hmem' hlevel

/-- Three payments, the odd case of a level. -/
def threePayments : List Transaction :=
  [{ id := [97], inputs := [⟨[120], 0, [1], [2]⟩], outputs := [⟨[65], 5⟩] },
   { id := [98], inputs := [⟨[120], 1, [1], [2]⟩], outputs := [⟨[66], 6⟩, ⟨[67], 1⟩], fee := 1 },
   { id := [99], inputs := [⟨[121], 0, [1], [3]⟩], outputs := [⟨[65], 7⟩], timestamp := 9 }]

/-- The transactions that a reader of their encodings gets. -/
def received (txs : List Transaction) : List Transaction :=
  txs.filterMap fun tx => (Transaction.deserialize tx.serialize).toOption

theorem calculateTreeHash_inj_received :
    calculateTreeHash polyCrypto threePayments =
      calculateTreeHash polyCrypto (received threePayments) ∧
    threePayments = received threePayments := by
  have hroot : calculateTreeHash polyCrypto threePayments =
      calculateTreeHash polyCrypto (received threePayments) := by decide +kernel
  refine ⟨hroot, calculateTreeHash_inj polyCrypto (by decide) (by decide +kernel) (by decide)
    (by decide +kernel) (by decide) (by decide +kernel) ?_ hroot⟩
  have key : ∀ m ∈ treeInputs polyCrypto threePayments ++
      treeInputs polyCrypto (received threePayments),
      ∀ m' ∈ treeInputs polyCrypto threePayments ++
        treeInputs polyCrypto (received threePayments),
      polyCrypto.sha256 m = polyCrypto.sha256 m' → m = m' := by decide +kernel
  intro m hm m' hm' h
  exact key m (List.mem_append.mpr hm) m' (List.mem_append.mpr hm') h

end Mermai
