import Mermai.Light.Tree

/-!
# Light.Inclusion — which strings an inclusion proof verifies

`verify_proof` takes the length of a proof from its sender, and the tree hashes a pair of nodes as it
hashes a transaction.  Where SHA-256 does not collide, a proof of `k` steps verifies for the nodes `k`
levels below the root (`mem_level_of_verifies`, `exists_proof_of_mem_level`): for the leaves when `k`
is the depth of the tree, for inner nodes when it is smaller.  A longer proof needs a transaction whose
bytes are two digests (`serialize_of_verifies`).
-/

namespace Mermai

open Codec

/-! ## Hex texts of 32 bytes -/

/-- A lowercase hexadecimal digit. -/
def IsHexDigit (b : UInt8) : Prop := (48 ≤ b ∧ b ≤ 57) ∨ (97 ≤ b ∧ b ≤ 102)

/-- 64 lowercase hexadecimal digits. -/
def IsHex64 (x : Bytes) : Prop := x.length = 64 ∧ ∀ b ∈ x, IsHexDigit b

theorem exists_hexDigit {b : UInt8} (h : IsHexDigit b) : ∃ n < 16, hexDigit n = b := by
  rcases h with ⟨hle, hge⟩ | ⟨hle, hge⟩
  · have h1 : 48 ≤ b.toNat := hle
    have h2 : b.toNat ≤ 57 := hge
    refine ⟨b.toNat - 48, by omega, ?_⟩
    rw [hexDigit, if_pos (by omega), show 48 + (b.toNat - 48) = b.toNat by omega, UInt8.ofNat_toNat]
  · have h1 : 97 ≤ b.toNat := hle
    have h2 : b.toNat ≤ 102 := hge
    refine ⟨b.toNat - 87, by omega, ?_⟩
    rw [hexDigit, if_neg (by omega), show 87 + (b.toNat - 87) = b.toNat by omega, UInt8.ofNat_toNat]

theorem isHexDigit_hexDigit {n : ℕ} (h : n < 16) : IsHexDigit (hexDigit n) := by
  have key : ∀ i < 16, (48 ≤ hexDigit i ∧ hexDigit i ≤ 57) ∨ (97 ≤ hexDigit i ∧ hexDigit i ≤ 102) := by
    decide
  exact key n h

theorem ofInt_strtol {m n : ℕ} (hm : m < 16) (hn : n < 16) :
    UInt8.ofInt (strtol [hexDigit m, hexDigit n]) = UInt8.ofNat (m * 16 + n) := by
  have key : ∀ i < 16, ∀ j < 16,
      UInt8.ofInt (strtol [hexDigit i, hexDigit j]) = UInt8.ofNat (i * 16 + j) := by decide
  exact key m hm n hn

theorem hexToBytes_hashToHex (s : Bytes) : hexToBytes (hashToHex s) = s := by
  induction s with
  | nil => rfl
  | cons b s ih =>
    have hb := b.toNat_lt
    rw [hashToHex, List.flatMap_cons, ← hashToHex]
    show UInt8.ofInt (strtol [hexDigit (b.toNat / 16), hexDigit (b.toNat % 16)]) ::
      hexToBytes (hashToHex s) = b :: s
    rw [ih, ofInt_strtol (by omega) (by omega), Nat.div_add_mod', UInt8.ofNat_toNat]

theorem hashToHex_hexToBytes : ∀ {x : Bytes}, x.length % 2 = 0 → (∀ b ∈ x, IsHexDigit b) →
    hashToHex (hexToBytes x) = x
  | [], _, _ => rfl
  | [_], h, _ => by simp at h
  | c :: d :: rest, h, hx => by
    obtain ⟨hc, hx'⟩ := List.forall_mem_cons.mp hx
    obtain ⟨hd, hdigits⟩ := List.forall_mem_cons.mp hx'
    obtain ⟨m, hm, rfl⟩ := exists_hexDigit hc
    obtain ⟨n, hn, rfl⟩ := exists_hexDigit hd
    have hrest : rest.length % 2 = 0 := by
      rw [List.length_cons, List.length_cons] at h
      omega
    have hbyte : (UInt8.ofNat (m * 16 + n)).toNat = m * 16 + n := by
      rw [UInt8.toNat_ofNat']
      exact Nat.mod_eq_of_lt (by omega)
    rw [hexToBytes, ofInt_strtol hm hn, hashToHex, List.flatMap_cons, ← hashToHex,
      hashToHex_hexToBytes hrest hdigits, hbyte, show (m * 16 + n) / 16 = m by omega,
      show (m * 16 + n) % 16 = n by omega]
    rfl

theorem IsHex64.hashToHex_hexToBytes {x : Bytes} (h : IsHex64 x) : hashToHex (hexToBytes x) = x :=
  Mermai.hashToHex_hexToBytes (by rw [h.1]) h.2

theorem IsHex64.length {x : Bytes} (h : IsHex64 x) : (hexToBytes x).length = 32 := by
  rw [hexToBytes_length, h.1]

theorem isHex64_hashToHex {s : Bytes} (h : s.length = 32) : IsHex64 (hashToHex s) := by
  refine ⟨by rw [hashToHex_length, h], ?_⟩
  intro b hb
  obtain ⟨n, hn, rfl⟩ := exists_of_mem_hashToHex hb
  exact isHexDigit_hexDigit hn

theorem isHex64_hashPair (C : Crypto) (a b : Bytes) : IsHex64 (hashPair C a b) :=
  isHex64_hashToHex (C.sha256_length _)

/-! ## Proofs as paths -/

/-- The steps of a proof as a path of siblings. -/
def pathOf (steps : List MerkleProofStep) : List (Bool × Bytes) :=
  steps.map fun s => (s.isRight, s.hash)

theorem pathOf_length (steps : List MerkleProofStep) : (pathOf steps).length = steps.length :=
  List.length_map _

theorem foldSteps_ascend (C : Crypto) (steps : List MerkleProofStep) (x : Bytes) :
    foldSteps C x steps = Merkle.ascend (hashPair C) x (pathOf steps) := by
  induction steps generalizing x with
  | nil => rfl
  | cons s steps ih =>
    have hstep : (if s.isRight then hashPair C x s.hash else hashPair C s.hash x) =
        hashPair C (Merkle.beside x (s.isRight, s.hash)).1
          (Merkle.beside x (s.isRight, s.hash)).2 := by
      unfold Merkle.beside
      split_ifs
      · rfl
      · rfl
    show foldSteps C (if s.isRight then hashPair C x s.hash else hashPair C s.hash x) steps = _
    rw [ih, hstep]
    rfl

/-- The bytes that `hash_pair` hashes. -/
def pairBytes (p : Bytes × Bytes) : Bytes := hexToBytes p.1 ++ hexToBytes p.2

/-- The strings that `verify_proof` hashes. -/
def verifyInputs (C : Crypto) (x : Bytes) (steps : List MerkleProofStep) : List Bytes :=
  (Merkle.ascendPairs (hashPair C) x (pathOf steps)).map pairBytes

/-- Two hex texts of 32 bytes whose bytes are among the strings `S`. -/
def HexPair (S : Set Bytes) (a b : Bytes) : Prop := IsHex64 a ∧ IsHex64 b ∧ pairBytes (a, b) ∈ S

theorem HexPair.length {S : Set Bytes} {a b : Bytes} (h : HexPair S a b) :
    (pairBytes (a, b)).length = 64 := by
  rw [pairBytes, List.length_append, h.1.length, h.2.1.length]

theorem HexPair.halves {S : Set Bytes} {a b : Bytes} (h : HexPair S a b) :
    hashToHex ((pairBytes (a, b)).take 32) = a ∧ hashToHex ((pairBytes (a, b)).drop 32) = b := by
  rw [pairBytes, List.take_left' h.1.length, List.drop_left' h.1.length]
  exact ⟨h.1.hashToHex_hexToBytes, h.2.1.hashToHex_hexToBytes⟩

theorem hashPair_injOn {C : Crypto} {S : Set Bytes} (hfree : C.CollisionFreeOn S) :
    Merkle.InjOn (hashPair C) (HexPair S) := by
  intro a b c d h h' heq
  have hbytes : pairBytes (a, b) = pairBytes (c, d) :=
    hfree _ h.2.2 _ h'.2.2 (hashToHex_injective heq)
  obtain ⟨hleft, hright⟩ := h.halves
  rw [hbytes] at hleft hright
  exact ⟨hleft.symm.trans h'.halves.1, hright.symm.trans h'.halves.2⟩

/-! ## The tree over transactions -/

section TxTree

variable (C : Crypto) (txs : List Transaction)

/-- The digests of the transactions. -/
def txLeaves : List Bytes := txs.map (Transaction.getHash C)

/-- The tree over the digests of the transactions. -/
def txTree : MerkleTree := MerkleTree.build C (txLeaves C txs)

/-- The number of levels below the root. -/
def MerkleTree.depth (t : MerkleTree) : ℕ := t.levels.length - 1

/-- The strings that are hashed for the transactions and for the tree over them. -/
def treeStrings : Set Bytes :=
  {m | (∃ tx ∈ txs, tx.serialize = m) ∨ m ∈ MerkleTree.inputs C (txLeaves C txs)}

/-- A well-formed proof of `k` steps verifies for leaves only, as far as SHA-256 does not collide on
the strings of the tree and of the proof. -/
def ProofsSound (k : ℕ) : Prop :=
  ∀ (x : Bytes) (proof : MerkleProof), proof.steps.length = k → IsHex64 x →
    (∀ s ∈ proof.steps, IsHex64 s.hash) →
    C.CollisionFreeOn (treeStrings C txs ∪ {m | m ∈ verifyInputs C x proof.steps}) →
    MerkleTree.verifyProof C (txTree C txs).getRoot x proof = true → x ∈ txLeaves C txs

variable {C txs} (hne : txs ≠ [])
include hne

theorem txTree_levels : (txTree C txs).levels =
    Merkle.levels (hashPair C) (txLeaves C txs).length (txLeaves C txs) := by
  have hleaves : txLeaves C txs ≠ [] := List.map_eq_nil_iff.not.mpr hne
  rw [txTree, MerkleTree.build, if_neg hleaves]

theorem level_depth : Merkle.level (hashPair C) (txLeaves C txs) (txTree C txs).depth =
    [(txTree C txs).getRoot] := by
  have hleaves : txLeaves C txs ≠ [] := List.map_eq_nil_iff.not.mpr hne
  obtain ⟨r, hlast, hlevel⟩ := Merkle.level_last (f := hashPair C) hleaves le_rfl
  rw [MerkleTree.depth, MerkleTree.getRoot, txTree_levels hne, hlast, hlevel]
  rfl

theorem getD_levels {m : ℕ} (hm : m ≤ (txTree C txs).depth) :
    (txTree C txs).levels.getD m [] = Merkle.level (hashPair C) (txLeaves C txs) m := by
  have hpos := List.length_pos_iff.mpr
    (Merkle.levels_ne_nil (hashPair C) (txLeaves C txs).length (txLeaves C txs))
  rw [MerkleTree.depth, txTree_levels hne] at hm
  rw [txTree_levels hne, List.getD_eq_getElem?_getD, Merkle.getElem?_levels (by omega)]
  rfl

omit hne in
theorem level_hex64 (m : ℕ) : ∀ a ∈ Merkle.level (hashPair C) (txLeaves C txs) m, IsHex64 a := by
  refine Merkle.level_nodes (isHex64_hashPair C) ?_ m
  intro a ha
  obtain ⟨tx, -, rfl⟩ := List.mem_map.mp ha
  exact isHex64_hashToHex (C.sha256_length _)

/-- The pairs of the tree are pairs of its strings. -/
theorem hexPair_of_tree {S : Set Bytes} (hS : treeStrings C txs ⊆ S) :
    ∀ i < (txTree C txs).depth, ∀ p ∈ Merkle.pairs (Merkle.level (hashPair C) (txLeaves C txs) i),
      HexPair S p.1 p.2 := by
  intro i hi p hp
  refine ⟨level_hex64 i _ (Merkle.fst_mem_of_mem_pairs hp),
    level_hex64 i _ (Merkle.snd_mem_of_mem_pairs hp), hS (.inr ?_)⟩
  rw [MerkleTree.depth, txTree_levels hne] at hi
  exact List.mem_map_of_mem (Merkle.mem_combined (by omega) hp)

variable {x : Bytes} {proof : MerkleProof}

theorem ascend_of_verifies
    (hver : MerkleTree.verifyProof C (txTree C txs).getRoot x proof = true) :
    Merkle.ascend (hashPair C) x (pathOf proof.steps) ∈
      Merkle.level (hashPair C) (txLeaves C txs) (txTree C txs).depth := by
  rw [level_depth hne, List.mem_singleton, ← foldSteps_ascend]
  exact of_decide_eq_true hver

omit hne in
theorem hexPair_of_path (hx : IsHex64 x) (hsteps : ∀ s ∈ proof.steps, IsHex64 s.hash) :
    ∀ p ∈ Merkle.ascendPairs (hashPair C) x (pathOf proof.steps),
      HexPair (treeStrings C txs ∪ {m | m ∈ verifyInputs C x proof.steps}) p.1 p.2 := by
  intro p hp
  have hpath : ∀ s ∈ pathOf proof.steps, IsHex64 s.2 := by
    intro s hs
    obtain ⟨step, hstep, rfl⟩ := List.mem_map.mp hs
    exact hsteps step hstep
  obtain ⟨h1, h2⟩ := Merkle.ascendPairs_nodes (isHex64_hashPair C) hx hpath p hp
  exact ⟨h1, h2, .inr (List.mem_map_of_mem hp)⟩

section Verifies

variable (hx : IsHex64 x) (hsteps : ∀ s ∈ proof.steps, IsHex64 s.hash)
  (hfree : C.CollisionFreeOn (treeStrings C txs ∪ {m | m ∈ verifyInputs C x proof.steps}))
  (hver : MerkleTree.verifyProof C (txTree C txs).getRoot x proof = true)
include hx hsteps hfree hver

/-- A proof with no more steps than the tree is deep verifies for nodes that many levels below the
root. -/
theorem mem_level_of_verifies (hlen : proof.steps.length ≤ (txTree C txs).depth) :
    x ∈ Merkle.level (hashPair C) (txLeaves C txs)
      ((txTree C txs).depth - proof.steps.length) := by
  have hpath := pathOf_length proof.steps
  have hmem := Merkle.mem_level_of_ascend (hashPair_injOn hfree)
    (hexPair_of_tree hne Set.subset_union_left) (hexPair_of_path hx hsteps) (by omega)
    (ascend_of_verifies hne hver)
  rwa [hpath] at hmem

/-- A longer proof leads through the leaf of a transaction whose bytes are a pair of the path. -/
theorem serialize_of_verifies (hlen : (txTree C txs).depth < proof.steps.length) :
    ∃ tx ∈ txs, ∃ p ∈ Merkle.ascendPairs (hashPair C) x
        ((pathOf proof.steps).take (proof.steps.length - (txTree C txs).depth)),
      HexPair (treeStrings C txs ∪ {m | m ∈ verifyInputs C x proof.steps}) p.1 p.2 ∧
        tx.serialize = pairBytes p := by
  have hpath := pathOf_length proof.steps
  have hroot := ascend_of_verifies hne hver
  have hpairs : ∀ p ∈ Merkle.ascendPairs (hashPair C) x (pathOf proof.steps),
      HexPair (treeStrings C txs ∪ {m | m ∈ verifyInputs C x proof.steps}) p.1 p.2 :=
    hexPair_of_path hx hsteps
  -- the first steps lead to a leaf, and the others from there to the root
  rw [← List.take_append_drop (proof.steps.length - (txTree C txs).depth) (pathOf proof.steps)]
    at hroot hpairs
  rw [Merkle.ascend_append] at hroot
  rw [Merkle.ascendPairs_append] at hpairs
  obtain ⟨hfirst, hrest⟩ := List.forall_mem_append.mp hpairs
  have hdrop : ((pathOf proof.steps).drop (proof.steps.length - (txTree C txs).depth)).length =
      (txTree C txs).depth := by
    rw [List.length_drop]
    omega
  have hleaf := Merkle.mem_level_of_ascend (hashPair_injOn hfree)
    (hexPair_of_tree hne Set.subset_union_left) hrest hdrop.le hroot
  rw [hdrop, Nat.sub_self] at hleaf
  obtain ⟨tx, htx, hhash⟩ := List.mem_map.mp hleaf
  have htake : (pathOf proof.steps).take (proof.steps.length - (txTree C txs).depth) ≠ [] := by
    refine List.ne_nil_of_length_pos ?_
    rw [List.length_take]
    omega
  obtain ⟨p, hp, hcombined⟩ := Merkle.ascend_combined (f := hashPair C) htake x
  refine ⟨tx, htx, p, hp, hfirst p hp, ?_⟩
  refine hfree _ (.inl (.inl ⟨tx, htx, rfl⟩)) _ (hfirst p hp).2.2 (hashToHex_injective ?_)
  exact hhash.trans hcombined

end Verifies

/-- Every node of the tree has a well-formed proof with as many steps as there are levels above it,
and it hashes strings of the tree only. -/
theorem exists_proof_of_mem_level {k m : ℕ} (hkm : m + k = (txTree C txs).depth)
    (hx : x ∈ Merkle.level (hashPair C) (txLeaves C txs) m) :
    ∃ proof : MerkleProof, proof.steps.length = k ∧ (∀ s ∈ proof.steps, IsHex64 s.hash) ∧
      (∀ m ∈ verifyInputs C x proof.steps, m ∈ treeStrings C txs) ∧
      MerkleTree.verifyProof C (txTree C txs).getRoot x proof = true := by
  obtain ⟨path, hlen, hend, hpairs, hnodes⟩ := Merkle.exists_ascend (k := k) hx
  have hpath : pathOf (path.map fun s => ⟨s.2, s.1⟩) = path := by
    rw [pathOf, List.map_map]
    exact List.map_id path
  refine ⟨⟨x, path.map fun s => ⟨s.2, s.1⟩⟩, by rw [List.length_map, hlen], ?_, ?_, ?_⟩
  · intro s hs
    obtain ⟨b, hb, rfl⟩ := List.mem_map.mp hs
    obtain ⟨i, -, hi⟩ := hnodes b hb
    exact level_hex64 i _ hi
  · intro bytes hbytes
    rw [verifyInputs, hpath] at hbytes
    obtain ⟨p, hp, rfl⟩ := List.mem_map.mp hbytes
    obtain ⟨i, hi, hpi⟩ := hpairs p hp
    exact (hexPair_of_tree hne subset_rfl i (by omega) p hpi).2.2
  · rw [hkm, level_depth hne, List.mem_singleton] at hend
    refine decide_eq_true ?_
    rw [foldSteps_ascend, hpath, hend]

section Sound

variable (hfree : C.CollisionFreeOn (treeStrings C txs))
include hfree

omit hne in
/-- A proof that hashes strings of the tree only needs no more of SHA-256. -/
theorem ProofsSound.mem_leaves {k : ℕ} (h : ProofsSound C txs k) (proof : MerkleProof)
    (hlen : proof.steps.length = k) (hx : IsHex64 x)
    (hsteps : ∀ s ∈ proof.steps, IsHex64 s.hash)
    (hinputs : ∀ m ∈ verifyInputs C x proof.steps, m ∈ treeStrings C txs)
    (hver : MerkleTree.verifyProof C (txTree C txs).getRoot x proof = true) :
    x ∈ txLeaves C txs := by
  have hsub : {m | m ∈ verifyInputs C x proof.steps} ⊆ treeStrings C txs := hinputs
  refine h x proof hlen hx hsteps ?_ hver
  rwa [Set.union_eq_self_of_subset_right hsub]

/-- Proofs with no more steps than the tree is deep verify for exactly the nodes of one level. -/
theorem proofsSound_iff_of_le {k : ℕ} (hk : k ≤ (txTree C txs).depth) :
    ProofsSound C txs k ↔
      ∀ y ∈ (txTree C txs).levels.getD ((txTree C txs).depth - k) [], y ∈ txLeaves C txs := by
  rw [getD_levels hne (by omega)]
  constructor
  · intro h y hy
    obtain ⟨proof, hlen, hsteps, hinputs, hver⟩ := exists_proof_of_mem_level hne (k := k) (by omega) hy
    exact h.mem_leaves hfree proof hlen (level_hex64 _ y hy) hsteps hinputs hver
  · rintro h x proof rfl hx hsteps hfree' hver
    exact h x (mem_level_of_verifies hne hx hsteps hfree' hver hk)

/-- A proof of a leaf becomes one of the nodes that the leaf is made of. -/
theorem ProofsSound.mem_of_beside (h : ProofsSound C txs ((txTree C txs).depth + 1)) {y : Bytes}
    (right : Bool) (hx : IsHex64 x) (hy : IsHex64 y)
    (hstring : pairBytes (Merkle.beside x (right, y)) ∈ treeStrings C txs)
    (hleaf : hashPair C (Merkle.beside x (right, y)).1 (Merkle.beside x (right, y)).2 ∈
      txLeaves C txs) : x ∈ txLeaves C txs := by
  obtain ⟨proof, hlen, hsteps, hinputs, hver⟩ :=
    exists_proof_of_mem_level hne (m := 0) (Nat.zero_add _) hleaf
  have hfold := of_decide_eq_true hver
  refine h.mem_leaves hfree ⟨x, ⟨y, right⟩ :: proof.steps⟩ ?_ hx ?_ ?_ ?_
  · rw [List.length_cons, hlen]
  · exact List.forall_mem_cons.mpr ⟨hy, hsteps⟩
  · exact List.forall_mem_cons.mpr ⟨hstring, hinputs⟩
  · refine decide_eq_true ?_
    rw [foldSteps_ascend] at hfold ⊢
    exact hfold

/-- Proofs with one step more verify for the halves of the transactions of 64 bytes. -/
theorem proofsSound_succ_iff : ProofsSound C txs ((txTree C txs).depth + 1) ↔
    ∀ tx ∈ txs, tx.serialize.length = 64 → hashToHex (tx.serialize.take 32) ∈ txLeaves C txs ∧
      hashToHex (tx.serialize.drop 32) ∈ txLeaves C txs := by
  constructor
  · intro h tx htx hlen
    have hleft : IsHex64 (hashToHex (tx.serialize.take 32)) :=
      isHex64_hashToHex (by rw [List.length_take, hlen]; rfl)
    have hright : IsHex64 (hashToHex (tx.serialize.drop 32)) :=
      isHex64_hashToHex (by rw [List.length_drop, hlen])
    have hbytes : pairBytes (hashToHex (tx.serialize.take 32), hashToHex (tx.serialize.drop 32)) =
        tx.serialize := by
      rw [pairBytes, hexToBytes_hashToHex, hexToBytes_hashToHex, List.take_append_drop]
    have hstring : pairBytes (hashToHex (tx.serialize.take 32), hashToHex (tx.serialize.drop 32)) ∈
        treeStrings C txs := .inl ⟨tx, htx, hbytes.symm⟩
    have hleaf : hashPair C (hashToHex (tx.serialize.take 32)) (hashToHex (tx.serialize.drop 32)) ∈
        txLeaves C txs := by
      refine List.mem_map.mpr ⟨tx, htx, ?_⟩
      exact congrArg (sha256Hex C) hbytes.symm
    constructor
    · exact h.mem_of_beside hne hfree true hleft hright hstring hleaf
    · exact h.mem_of_beside hne hfree false hright hleft hstring hleaf
  · intro h x proof hlen hx hsteps hfree' hver
    obtain ⟨tx, htx, p, hp, hpair, hbytes⟩ :=
      serialize_of_verifies hne hx hsteps hfree' hver (by omega)
    obtain ⟨hleft, hright⟩ := h tx htx (by rw [hbytes]; exact hpair.length)
    rw [hbytes] at hleft hright
    -- the pair is the string and the first sibling
    obtain ⟨s, rest, hcons⟩ := List.exists_cons_of_length_eq_add_one hlen
    rw [hlen, Nat.add_sub_cancel_left, hcons] at hp
    obtain rfl := List.mem_singleton.mp hp
    cases hs : s.isRight with
    | true =>
      simp only [Merkle.beside, hs, if_true] at hleft hpair
      rwa [hpair.halves.1] at hleft
    | false =>
      simp only [Merkle.beside, hs, Bool.false_eq_true, if_false] at hright hpair
      rwa [hpair.halves.2] at hright

/-- An inner node is a leaf only as the digest of a transaction of 64 bytes. -/
theorem serialize_of_level_subset {m : ℕ} (hm : m < (txTree C txs).depth)
    (h : ∀ y ∈ Merkle.level (hashPair C) (txLeaves C txs) (m + 1), y ∈ txLeaves C txs) :
    ∃ tx ∈ txs, tx.serialize.length = 64 := by
  obtain ⟨leaf, hleaf⟩ := List.exists_mem_of_ne_nil (txLeaves C txs) (List.map_eq_nil_iff.not.mpr hne)
  obtain ⟨path, -, hnode, -, -⟩ :=
    Merkle.exists_ascend (f := hashPair C) (k := m + 1) (m := 0) (l := txLeaves C txs) hleaf
  rw [Nat.zero_add] at hnode
  obtain ⟨tx, htx, hhash⟩ := List.mem_map.mp (h _ hnode)
  rw [Merkle.level_succ] at hnode
  obtain ⟨p, hp, hcombined⟩ := List.mem_map.mp hnode
  have hpair := hexPair_of_tree hne subset_rfl m hm p hp
  refine ⟨tx, htx, ?_⟩
  rw [hfree _ (.inl ⟨tx, htx, rfl⟩) _ hpair.2.2 (hashToHex_injective (hhash.trans hcombined.symm))]
  exact hpair.length

/-- The proofs with as many steps as the tree is deep verify for leaves. -/
theorem proofsSound_depth : ProofsSound C txs (txTree C txs).depth := by
  rw [proofsSound_iff_of_le hne hfree le_rfl, Nat.sub_self, getD_levels hne (Nat.zero_le _)]
  exact fun y hy => hy

/-- Without transactions of 64 bytes the proofs that are long enough are sound, and no others. -/
theorem proofsSound_iff_of_ne (h64 : ∀ tx ∈ txs, tx.serialize.length ≠ 64) (k : ℕ) :
    ProofsSound C txs k ↔ (txTree C txs).depth ≤ k := by
  rcases lt_trichotomy k (txTree C txs).depth with hlt | rfl | hgt
  · refine iff_of_false ?_ (by omega)
    rw [proofsSound_iff_of_le hne hfree hlt.le, getD_levels hne (by omega)]
    intro h
    rw [show (txTree C txs).depth - k = (txTree C txs).depth - k - 1 + 1 by omega] at h
    obtain ⟨tx, htx, hlen⟩ := serialize_of_level_subset hne hfree (by omega) h
    exact h64 tx htx hlen
  · exact iff_of_true (proofsSound_depth hne hfree) le_rfl
  · refine iff_of_true ?_ hgt.le
    rintro x proof rfl hx hsteps hfree' hver
    obtain ⟨tx, htx, p, -, hpair, hbytes⟩ := serialize_of_verifies hne hx hsteps hfree' hver hgt
    exact absurd (by rw [hbytes]; exact hpair.length) (h64 tx htx)

end Sound

end TxTree

/-- **When inclusion proofs are sound**: a list without transactions of 64 bytes has sound proofs of
`k` steps when `k` is at least the depth of the tree.  For every list, proofs of at most that many
steps are sound when the nodes `k` levels below the root are leaves, which those of the depth are, and
proofs of one step more when the halves of every transaction of 64 bytes are. -/
theorem proofsSound_iff (C : Crypto) (txs : List Transaction) (hne : txs ≠ [])
    (hfree : C.CollisionFreeOn (treeStrings C txs)) :
    ((∀ tx ∈ txs, tx.serialize.length ≠ 64) →
      ∀ k, ProofsSound C txs k ↔ (txTree C txs).depth ≤ k) ∧
    (∀ k ≤ (txTree C txs).depth, ProofsSound C txs k ↔
      ∀ y ∈ (txTree C txs).levels.getD ((txTree C txs).depth - k) [], y ∈ txLeaves C txs) ∧
    ProofsSound C txs (txTree C txs).depth ∧
    (ProofsSound C txs ((txTree C txs).depth + 1) ↔
      ∀ tx ∈ txs, tx.serialize.length = 64 → hashToHex (tx.serialize.take 32) ∈ txLeaves C txs ∧
        hashToHex (tx.serialize.drop 32) ∈ txLeaves C txs) := by
  exact ⟨proofsSound_iff_of_ne hne hfree, fun k hk => proofsSound_iff_of_le hne hfree hk,
    proofsSound_depth hne hfree, proofsSound_succ_iff hne hfree⟩

/-- Two unsigned transfers. -/
def inclusionTxs : List Transaction :=
  [{ id := [97], inputs := [⟨[120], 0, [], []⟩], outputs := [⟨[65], 5⟩] },
    { id := [98], inputs := [⟨[121], 0, [], []⟩], outputs := [⟨[65], 5⟩] }]

theorem inclusionTxs_free : polyCrypto.CollisionFreeOn (treeStrings polyCrypto inclusionTxs) := by
  have key : ∀ m ∈ inclusionTxs.map Transaction.serialize ++
        MerkleTree.inputs polyCrypto (txLeaves polyCrypto inclusionTxs),
      ∀ m' ∈ inclusionTxs.map Transaction.serialize ++
        MerkleTree.inputs polyCrypto (txLeaves polyCrypto inclusionTxs),
      polyCrypto.sha256 m = polyCrypto.sha256 m' → m = m' := by decide +kernel
  have hmem : ∀ m ∈ treeStrings polyCrypto inclusionTxs, m ∈ inclusionTxs.map Transaction.serialize ++
      MerkleTree.inputs polyCrypto (txLeaves polyCrypto inclusionTxs) := by
    intro m hm
    rw [List.mem_append, List.mem_map]
    exact hm
  intro m hm m' hm'
  exact key m (hmem m hm) m' (hmem m' hm')

/-- The proofs of one step are sound over two transactions. -/
theorem proofsSound_two : ProofsSound polyCrypto inclusionTxs 1 :=
  ((proofsSound_iff polyCrypto inclusionTxs (by decide) inclusionTxs_free).1
    (by decide +kernel) 1).mpr (by decide +kernel)

/-- The root over two transactions verifies as a leaf, with the empty proof. -/
theorem root_verifies_as_leaf :
    polyCrypto.CollisionFreeOn (treeStrings polyCrypto inclusionTxs) ∧
    IsHex64 (txTree polyCrypto inclusionTxs).getRoot ∧
    MerkleTree.verifyProof polyCrypto (txTree polyCrypto inclusionTxs).getRoot
      (txTree polyCrypto inclusionTxs).getRoot {} = true ∧
    (txTree polyCrypto inclusionTxs).getRoot ∉ txLeaves polyCrypto inclusionTxs ∧
    ¬ ProofsSound polyCrypto inclusionTxs 0 := by
  have hroot : IsHex64 (txTree polyCrypto inclusionTxs).getRoot :=
    @level_hex64 polyCrypto inclusionTxs 1 _ (by decide +kernel)
  have hver : MerkleTree.verifyProof polyCrypto (txTree polyCrypto inclusionTxs).getRoot
      (txTree polyCrypto inclusionTxs).getRoot {} = true := decide_eq_true rfl
  have hnot : (txTree polyCrypto inclusionTxs).getRoot ∉ txLeaves polyCrypto inclusionTxs := by
    decide +kernel
  refine ⟨inclusionTxs_free, hroot, hver, hnot, ?_⟩
  intro h
  exact hnot (h.mem_leaves inclusionTxs_free {} rfl hroot (by simp) (by simp [verifyInputs, pathOf,
    Merkle.ascendPairs]) hver)

end Mermai
