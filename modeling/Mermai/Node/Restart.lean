import Mermai.Node.Views
import Mermai.Db.ReadBack
import Mermai.Chain.Replay

/-!
# Node.Restart — what a node is after a restart

`MermaiNode::initialize` builds a new chain and engine, restores the validators of the database,
reads the stored blocks and hands them to `replace_chain_if_longer`.  The blocks are validated again,
but against the validators of today: the proposer of an old slot is chosen among today's validators,
by today's stakes and ages.  So a restart recovers the chain exactly when the stored validators can
be restored, the heights fit the signed column, and today's validators still name and authorize
every block (`Recoverable`).

* `restoreAll_eq` — restoring the rows gives back the rows, or fails;
* `getLatestBlockHeight_eq`, `readPersisted_eq` — the stored blocks are those of the chain;
* `RunInv` — what holds of the node after any registrations and blocks.
-/

namespace Mermai

open Sql

variable {F : Type}

/-! ## The restart -/

/-- The loop of `initialize` over the stored validators; `none` when it returns false. -/
def restoreAll (rows : List ValidatorStake) : Option (List ValidatorStake) :=
  rows.foldlM restoreValidator []

/-- The loop of `initialize` over the stored heights, `count` of them from `height` on. -/
def readPersisted (db : Db) : ℕ → ℕ → Option (List Block)
  | _, 0 => some []
  | height, count + 1 => do
    let block ← getBlockByHeight db (UInt32.ofNat height)
    let rest ← readPersisted db (height + 1) count
    pure (block :: rest)

/-- The part of `MermaiNode::initialize` that recovers the chain; `none` when it returns false. -/
def restart (C : Crypto) (fl : FloatOps F) (now : ℕ) (db : Db) : Option (List Block) := do
  let validators ← restoreAll (getAllValidators db)
  let storedHeight := getLatestBlockHeight db
  if 0 < storedHeight then
    let blocks ← readPersisted db 1 storedHeight.toNat
    let r := replaceChainIfLonger C fl now (some ⟨validators, fun _ => none⟩) [genesis]
      ((genesis :: blocks).map some)
    if r.1.ok then some r.2 else none
  else some [genesis]

/-! ## Runs of a node -/

/-- An operation on a running node. -/
inductive NodeOp
  | register (address : Bytes) (stake : UInt64) (publicKey : Bytes)
  | unregister (address : Bytes)
  | accept (block : Block)

/-- Registration, and `save_validator` for the validator with the address. -/
def Node.register (C : Crypto) (clock : ℕ → ℕ) (n : Node) (address : Bytes) (stake : UInt64)
    (publicKey : Bytes) : Node :=
  match n.engine, n.db with
  | some e, some db =>
    match registerValidator C (clock n.ticks) e.activeValidators address stake publicKey with
    | some vs =>
      let db' := (vs.filter fun v => v.address = address).foldl saveValidator db
      { n with engine := some { e with activeValidators := vs }, db := some db'
               ticks := n.ticks + 1 }
    | none => { n with ticks := n.ticks + 1 }
  | _, _ => n

/-- `unregister_validator`, and `remove_validator` when it succeeds. -/
def Node.unregister (n : Node) (address : Bytes) : Node :=
  match n.engine, n.db with
  | some e, some db =>
    match unregisterValidator e.activeValidators address with
    | some vs => { n with engine := some { e with activeValidators := vs }
                          db := some (removeValidator db address) }
    | none => n
  | _, _ => n

def NodeOp.apply (C : Crypto) (fl : FloatOps F) (clock : ℕ → ℕ) (n : Node) : NodeOp → Node
  | .register address stake publicKey => n.register C clock address stake publicKey
  | .unregister address => n.unregister address
  | .accept b => (n.acceptBlock C fl clock b).2

/-- The node after a list of operations. -/
def runNode (C : Crypto) (fl : FloatOps F) (clock : ℕ → ℕ) (n : Node) (ops : List NodeOp) : Node :=
  ops.foldl (NodeOp.apply C fl clock) n

/-- A node with an engine without validators and no stored block or validator. -/
def newNode (db : Db) : Node :=
  freshNode { db with validators := ∅ } (some ⟨[], fun _ => none⟩) none

/-! ## Restoring the validators -/

/-- A stored validator that `restore_validator` takes. -/
def ValidatorStake.Restorable (v : ValidatorStake) : Prop :=
  v.address ≠ [] ∧ minStake ≤ v.amount ∧ v.lockTime ≠ 0

instance (v : ValidatorStake) : Decidable v.Restorable := inferInstanceAs (Decidable (_ ∧ _))

theorem restoreValidator_eq_some {vs vs' : List ValidatorStake} {v : ValidatorStake} :
    restoreValidator vs v = some vs' ↔
      v.Restorable ∧ (∀ u ∈ vs, u.address ≠ v.address) ∧ vs' = vs ++ [v] := by
  unfold restoreValidator ValidatorStake.Restorable
  split_ifs with h1 h2
  · simp only [false_iff, not_and]
    rintro ⟨ha, hb, hc⟩
    rcases h1 with h | h | h
    · exact absurd h ha
    · exact absurd h (UInt64.not_lt.mpr hb)
    · exact absurd h hc
  · obtain ⟨u, hu, heq⟩ := h2
    simp only [false_iff, not_and]
    exact fun _ hne => absurd heq (hne u hu)
  · simp only [not_or, UInt64.not_lt] at h1
    simp only [not_exists, not_and] at h2
    simp only [Option.some.injEq]
    constructor
    · intro h
      exact ⟨h1, h2, h.symm⟩
    · intro h
      exact h.2.2.symm

theorem foldlM_restore (acc : List ValidatorStake) {rows vs : List ValidatorStake}
    (hnd : ((acc ++ rows).map ValidatorStake.address).Nodup) :
    rows.foldlM restoreValidator acc = some vs ↔
      (∀ v ∈ rows, v.Restorable) ∧ vs = acc ++ rows := by
  induction rows generalizing acc with
  | nil => simp [eq_comm]
  | cons v rows ih =>
    have hnd' : ((acc ++ [v] ++ rows).map ValidatorStake.address).Nodup := by
      rwa [List.append_assoc, List.singleton_append]
    have hfresh : ∀ u ∈ acc, u.address ≠ v.address := by
      intro u hu heq
      rw [List.map_append, List.nodup_append] at hnd
      exact hnd.2.2 _ (List.mem_map_of_mem hu) _ (by simp) heq
    rw [List.foldlM_cons, Option.bind_eq_bind, Option.bind_eq_some_iff]
    simp only [restoreValidator_eq_some, List.forall_mem_cons]
    constructor
    · rintro ⟨_, ⟨hv, -, rfl⟩, h⟩
      obtain ⟨hrows, rfl⟩ := (ih _ hnd').mp h
      exact ⟨⟨hv, hrows⟩, by simp⟩
    · rintro ⟨⟨hv, hrows⟩, rfl⟩
      exact ⟨_, ⟨hv, hfresh, rfl⟩, (ih _ hnd').mpr ⟨hrows, by simp⟩⟩

theorem getAllValidators_nodup (db : Db) :
    ((getAllValidators db).map ValidatorStake.address).Nodup := by
  have hperm := (List.perm_insertionSort (fun v w : ValidatorStake => v.address ≤ w.address)
    (db.validators.entries.map fun e => e.2.toStake e.1)).map ValidatorStake.address
  refine hperm.nodup_iff.mpr ?_
  have hkeys : (db.validators.entries.map fun e => e.2.toStake e.1).map ValidatorStake.address =
      db.validators.keys := by
    rw [List.map_map]
    rfl
  rw [hkeys]
  exact db.validators.keys_nodup

/-- **Restoring** succeeds exactly when every row is restorable, and gives back the rows. -/
theorem restoreAll_eq {db : Db} {vs : List ValidatorStake} :
    restoreAll (getAllValidators db) = some vs ↔
      (∀ v ∈ getAllValidators db, v.Restorable) ∧ vs = getAllValidators db :=
  foldlM_restore [] (getAllValidators_nodup db)

/-! ## Reading the stored blocks -/

theorem readPersisted_length {db : Db} {h n : ℕ} {blocks : List Block}
    (hr : readPersisted db h n = some blocks) : blocks.length = n := by
  induction n generalizing h blocks with
  | zero =>
    cases hr
    rfl
  | succ n ih =>
    obtain ⟨b, -, hr⟩ := Option.bind_eq_some_iff.mp hr
    obtain ⟨rest, hrest, hr⟩ := Option.bind_eq_some_iff.mp hr
    cases hr
    rw [List.length_cons, ih hrest]

/-- The stored blocks from height `h` on are those of the chain. -/
theorem readPersisted_eq {db : Db} {chain : List Block} (hagree : BlocksAgree chain db.blocks)
    (hwithin : ∀ b ∈ chain.tail, b.Within) (hlen : chain.length ≤ 2 ^ 31) {h n : ℕ} (hpos : 1 ≤ h)
    (hn : h + n = chain.length) : readPersisted db h n = some (chain.drop h) := by
  induction n generalizing h with
  | zero =>
    rw [List.drop_eq_nil_of_le (by omega)]
    rfl
  | succ n ih =>
    have hlt : h < chain.length := by omega
    have hne : chain ≠ [] := List.ne_nil_of_length_pos (by omega)
    have hto : (UInt32.ofNat h).toNat = h :=
      UInt32.toNat_ofNat_of_lt' (by simp only [UInt32.size]; omega)
    have htip := getHeight_succ hne (by omega)
    have hmem : chain[h] ∈ chain.tail := by
      refine List.mem_of_getElem? (i := h - 1) ?_
      rw [List.getElem?_tail, Nat.sub_add_cancel hpos, List.getElem?_eq_getElem hlt]
    obtain ⟨row, b, hrow, hb, heq⟩ := hagree.rows (UInt32.ofNat h)
      (UInt32.le_iff_toNat_le.mpr (hto.symm ▸ hpos))
      (UInt32.le_iff_toNat_le.mpr (by rw [hto]; omega))
    rw [getBlock, hto, List.getElem?_eq_getElem hlt] at hb
    cases hb
    have hread : getBlockByHeight db (UInt32.ofNat h) = some chain[h] :=
      getBlockByHeight_eq_some.mpr ⟨row, hrow, heq, hwithin _ hmem⟩
    rw [readPersisted, hread, ih (by omega) (by omega), List.drop_eq_getElem_cons hlt]
    rfl

/-! ## The stored height -/

/-- The heights in the column, as numbers. -/
def rowHeights (db : Db) : List ℤ := db.blocks.rows.map fun r => r.height.toInt

theorem getLatestBlockHeight_of_max {db : Db} {m : ℕ} (hm : m < 2 ^ 31)
    (hmax : (rowHeights db).max?.getD 0 = m) : (getLatestBlockHeight db).toNat = m := by
  have heq : getLatestBlockHeight db = (Int32.ofInt m).toUInt32 := by
    rw [← hmax]
    rfl
  rw [heq]
  show (BitVec.ofInt 32 (m : ℤ)).toNat = m
  rw [BitVec.toNat_ofInt]
  omega

/-- No row lies above the tip of a chain with few enough blocks. -/
theorem rowHeights_le {db : Db} {chain : List Block} (hagree : BlocksAgree chain db.blocks)
    (hne : chain ≠ []) (hlen : chain.length ≤ 2 ^ 31) {x : ℤ} (hx : x ∈ rowHeights db) :
    0 ≤ x ∧ x + 1 ≤ chain.length := by
  obtain ⟨row, hrow, rfl⟩ := List.mem_map.mp hx
  have htip := getHeight_succ hne (by omega)
  have hle : ¬ getHeight chain < row.height.toUInt32 := by
    intro hlt
    have hnone := UniqueTable.select_eq_none.mp (hagree.above _ hlt) row hrow
    exact hnone rfl
  have hle' := UInt32.le_iff_toNat_le.mp (UInt32.not_lt.mp hle)
  have hlt : row.height.toUInt32.toNat < chain.length := by omega
  have hval : row.height.toInt = row.height.toUInt32.toNat :=
    toInt_toInt32 (h := row.height.toUInt32) (hlt.trans_le hlen)
  show 0 ≤ row.height.toInt ∧ row.height.toInt + 1 ≤ chain.length
  rw [hval]
  omega

/-- **The stored height** is the height of the tip, while it fits the signed column. -/
theorem getLatestBlockHeight_eq {db : Db} {chain : List Block}
    (hagree : BlocksAgree chain db.blocks) (hne : chain ≠ []) (hlen : chain.length ≤ 2 ^ 31) :
    (getLatestBlockHeight db).toNat + 1 = chain.length := by
  have hpos := List.length_pos_iff.mpr hne
  have htip := getHeight_succ hne (by omega)
  have hmax : (rowHeights db).max?.getD 0 = ((chain.length - 1 : ℕ) : ℤ) := by
    by_cases hone : chain.length = 1
    · cases hm : (rowHeights db).max? with
      | none => simp [hone]
      | some x =>
        have := rowHeights_le hagree hne hlen (List.max?_mem hm)
        simp only [Option.getD_some]
        omega
    · obtain ⟨row, b, hrow, -, -⟩ := hagree.rows (getHeight chain)
        (UInt32.le_iff_toNat_le.mpr (show 1 ≤ (getHeight chain).toNat by omega))
        (UInt32.le_iff_toNat_le.mpr le_rfl)
      obtain ⟨hmem, hcol⟩ := UniqueTable.select_eq_some.mp hrow
      have hval : row.height.toInt = ((chain.length - 1 : ℕ) : ℤ) := by
        rw [hcol, toInt_toInt32 (by omega)]
        omega
      have hmem' : ((chain.length - 1 : ℕ) : ℤ) ∈ rowHeights db :=
        hval ▸ List.mem_map_of_mem (f := fun r : BlockRow => r.height.toInt) hmem
      rw [List.max?_eq_some_iff.mpr ⟨hmem', fun x hx => ?_⟩]
      · rfl
      · have := rowHeights_le hagree hne hlen hx
        omega
  rw [getLatestBlockHeight_of_max (by omega) hmax]
  omega

/-- A positive stored height is below 2³¹ when there is a row at height 1. -/
theorem getLatestBlockHeight_lt {db : Db} {chain : List Block}
    (hagree : BlocksAgree chain db.blocks) (htip : 1 ≤ getHeight chain) :
    (getLatestBlockHeight db).toNat < 2 ^ 31 := by
  obtain ⟨row, b, hrow, -, -⟩ := hagree.rows 1 (UInt32.le_iff_toNat_le.mpr le_rfl) htip
  obtain ⟨hmem, hcol⟩ := UniqueTable.select_eq_some.mp hrow
  have hone : (1 : ℤ) ∈ rowHeights db :=
    List.mem_map.mpr ⟨row, hmem, by rw [hcol]; rfl⟩
  cases hm : (rowHeights db).max? with
  | none =>
    rw [List.max?_eq_none_iff] at hm
    rw [hm] at hone
    cases hone
  | some x =>
    obtain ⟨hx, hall⟩ := List.max?_eq_some_iff.mp hm
    have h1 := hall 1 hone
    obtain ⟨r, -, hr⟩ := List.mem_map.mp hx
    have h2 : r.height.toInt < 2 ^ 31 := r.height.toInt_lt
    rw [getLatestBlockHeight_of_max (m := x.toNat) (by omega) (by rw [hm]; simp; omega)]
    omega

/-! ## What holds of a running node -/

/-- The invariant of a run: the views are in step, and the chain is one of accepted blocks that the
decoder can read. -/
structure RunInv (C : Crypto) (clock : ℕ → ℕ) (utxos₀ : Utxos) (S : Set Bytes) (n : Node) :
    Prop where
  views : n.InStep C clock utxos₀ S
  accepted : Accepted C (clock n.ticks) n.chain
  within : ∀ b ∈ n.chain.tail, b.Within

section Steps

variable {C : Crypto} {fl : FloatOps F} {clock : ℕ → ℕ} {utxos₀ : Utxos} {S : Set Bytes}

/-- The validators of the engine and of the database are outside the invariant. -/
theorem RunInv.frame (hclock : Monotone clock) {n n' : Node} (h : RunInv C clock utxos₀ S n)
    (hf : n.Frames n') : RunInv C clock utxos₀ S n' := by
  refine ⟨h.views.frame hclock hf, ?_, ?_⟩
  · rw [hf.chain]
    exact h.accepted.mono (hclock hf.ticks)
  · rw [hf.chain]
    exact h.within

theorem foldl_saveValidator (vs : List ValidatorStake) (db : Db) :
    (vs.foldl saveValidator db).blocks = db.blocks ∧
      (vs.foldl saveValidator db).utxos = db.utxos := by
  induction vs generalizing db with
  | nil => exact ⟨rfl, rfl⟩
  | cons v vs ih => exact ih (saveValidator db v)

theorem RunInv.register (hclock : Monotone clock) {n : Node} (h : RunInv C clock utxos₀ S n)
    (address : Bytes) (stake : UInt64) (publicKey : Bytes) :
    RunInv C clock utxos₀ S (n.register C clock address stake publicKey) := by
  unfold Node.register
  split
  · rename_i e db _ hn
    split
    · refine h.frame hclock ⟨rfl, Nat.le_succ _, fun db' hdb' => ⟨_, rfl, ?_⟩⟩
      rw [hn] at hdb'
      cases hdb'
      exact foldl_saveValidator _ _
    · exact h.frame hclock ⟨rfl, Nat.le_succ _, fun db' hdb' => ⟨db', hn ▸ hdb', rfl, rfl⟩⟩
  · exact h

theorem RunInv.unregister (hclock : Monotone clock) {n : Node} (h : RunInv C clock utxos₀ S n)
    (address : Bytes) : RunInv C clock utxos₀ S (n.unregister address) := by
  unfold Node.unregister
  split
  · rename_i e db _ hn
    split
    · refine h.frame hclock ⟨rfl, le_rfl, fun db' hdb' => ⟨_, rfl, ?_⟩⟩
      rw [hn] at hdb'
      cases hdb'
      exact ⟨rfl, rfl⟩
    · exact h
  · exact h

theorem RunInv.accept (hclock : Monotone clock) (hfree : C.CollisionFreeOn S) {n : Node}
    (h : RunInv C clock utxos₀ S n) {b : Block} (hb : b.serialize ∈ S) (hw : b.Within) :
    RunInv C clock utxos₀ S (n.acceptBlock C fl clock b).2 := by
  obtain ⟨db, hdb, hin⟩ := id h.views
  have hviews := (h.views.acceptBlock fl hclock hfree hb).1
  obtain ⟨hticks, ⟨-, hchain, hdb'⟩ | ⟨-, hok, -, -, hchain, -⟩⟩ :=
    Node.acceptBlock_cases C fl hclock hdb b
  · refine h.frame hclock ⟨hchain, hticks, fun db' hn => ⟨db, hdb', ?_⟩⟩
    rw [hdb] at hn
    cases hn
    exact ⟨rfl, rfl⟩
  · obtain ⟨ht, -, hbody⟩ := canAddBlock_ok_iff.mp hok
    refine ⟨hviews, ?_, ?_⟩
    · rw [hchain]
      exact (h.accepted.snoc ht hbody).mono (hclock hticks)
    · rw [hchain, List.tail_append_of_ne_nil hin.nonempty]
      intro c hc
      rcases List.mem_append.mp hc with hc | hc
      · exact h.within c hc
      · rwa [List.mem_singleton.mp hc]

/-- **One operation** keeps the invariant. -/
theorem RunInv.apply (hclock : Monotone clock) (hfree : C.CollisionFreeOn S) {n : Node}
    (h : RunInv C clock utxos₀ S n) {op : NodeOp}
    (hop : ∀ b, op = .accept b → b.serialize ∈ S ∧ b.Within) :
    RunInv C clock utxos₀ S (op.apply C fl clock n) := by
  cases op with
  | register address stake publicKey => exact h.register hclock address stake publicKey
  | unregister address => exact h.unregister hclock address
  | accept b => exact h.accept hclock hfree (hop b rfl).1 (hop b rfl).2

theorem RunInv.run (hclock : Monotone clock) (hfree : C.CollisionFreeOn S) {ops : List NodeOp}
    {n : Node} (h : RunInv C clock utxos₀ S n)
    (hops : ∀ b, .accept b ∈ ops → b.serialize ∈ S ∧ b.Within) :
    RunInv C clock utxos₀ S (runNode C fl clock n ops) := by
  induction ops generalizing n with
  | nil => exact h
  | cons op ops ih =>
    have hstep : RunInv C clock utxos₀ S (op.apply C fl clock n) :=
      h.apply hclock hfree fun b hb => hops b (by simp [hb])
    exact ih hstep fun b hb => hops b (by simp [hb])

end Steps

theorem newNode_inv (C : Crypto) (clock : ℕ → ℕ) (S : Set Bytes) (db : Db) :
    RunInv C clock db.utxos S (newNode db) := by
  refine ⟨freshNode_inStep C clock S _ _ _, .genesis, ?_⟩
  intro b hb
  cases hb

/-! ## Recovery -/

/-- What a restart needs of the rows of `validators` and of the chain before the stop. -/
structure Recoverable (C : Crypto) (fl : FloatOps F) (validators : List ValidatorStake)
    (chain : List Block) : Prop where
  restorable : ∀ v ∈ validators, v.Restorable
  short : chain.length ≤ 2 ^ 31
  replays : ∀ b ∈ chain.tail, Replays C fl validators b

theorem replaceChainIfLonger_result {C : Crypto} {fl : FloatOps F} {now : ℕ} {eng : Option Engine}
    {chain candidate : List Block}
    (h : (replaceChainIfLonger C fl now eng chain (candidate.map some)).1.ok = true) :
    (replaceChainIfLonger C fl now eng chain (candidate.map some)).2 = candidate := by
  by_cases hlong : candidate.map some = [] ∨ (candidate.map some).length ≤ chain.length
  · rw [replaceChainIfLonger, if_pos hlong] at h
    cases h
  · rw [replaceChainIfLonger, if_neg hlong] at h ⊢
    dsimp only at h ⊢
    rw [if_pos h, validateCandidate_result h]
    rfl

/-- **Inversion** of a restart that succeeds. -/
theorem restart_eq_some {C : Crypto} {fl : FloatOps F} {now : ℕ} {db : Db} {chain : List Block} :
    restart C fl now db = some chain ↔
      (∀ v ∈ getAllValidators db, v.Restorable) ∧
      if 0 < getLatestBlockHeight db then
        ∃ blocks, readPersisted db 1 (getLatestBlockHeight db).toNat = some blocks ∧
          (replaceChainIfLonger C fl now (some ⟨getAllValidators db, fun _ => none⟩) [genesis]
            ((genesis :: blocks).map some)).1.ok = true ∧ chain = genesis :: blocks
      else chain = [genesis] := by
  rw [restart, Option.bind_eq_bind, Option.bind_eq_some_iff]
  simp only [restoreAll_eq, and_assoc, exists_and_left, exists_eq_left]
  refine and_congr_right ?_
  intro _
  split_ifs with hpos
  · rw [Option.bind_eq_bind, Option.bind_eq_some_iff]
    refine exists_congr fun blocks => and_congr_right fun _ => ?_
    split_ifs with hok
    · rw [replaceChainIfLonger_result hok, Option.some.injEq, eq_comm]
      exact (and_iff_right hok).symm
    · exact ⟨False.elim, fun h => absurd h.1 hok⟩
  · rw [Option.some.injEq, eq_comm]

section Recovery

variable {C : Crypto} {fl : FloatOps F} {now : ℕ} {db : Db} {rest : List Block}

/-- A restart that gives back the chain has read a row for every block of it. -/
theorem recoverable_of_restart (hagree : BlocksAgree (genesis :: rest) db.blocks)
    (hacc : Accepted C now (genesis :: rest))
    (h : restart C fl now db = some (genesis :: rest)) :
    Recoverable C fl (getAllValidators db) (genesis :: rest) := by
  obtain ⟨hrestore, h⟩ := restart_eq_some.mp h
  split_ifs at h with hpos
  · obtain ⟨blocks, hread, hok, heq⟩ := h
    cases heq
    have hlen := readPersisted_length hread
    have hpos' := UInt32.lt_iff_toNat_lt.mp hpos
    have hrest : rest ≠ [] := List.ne_nil_of_length_pos (hlen ▸ hpos')
    have hlt : rest.length < 2 ^ 32 := hlen ▸ (getLatestBlockHeight db).toNat_lt
    have htip := getHeight_succ (List.cons_ne_nil genesis rest) hlt
    rw [List.length_cons, Nat.add_right_cancel_iff, hlen] at htip
    refine ⟨hrestore, ?_, (replaceChainIfLonger_accepted hacc hrest).mp hok⟩
    rw [List.length_cons, hlen]
    exact getLatestBlockHeight_lt hagree (UInt32.le_iff_toNat_le.mpr (htip ▸ hpos'))
  · cases h
    refine ⟨hrestore, by simp, ?_⟩
    intro b hb
    cases hb

theorem restart_of_recoverable (hagree : BlocksAgree (genesis :: rest) db.blocks)
    (hacc : Accepted C now (genesis :: rest)) (hwithin : ∀ b ∈ rest, b.Within)
    (h : Recoverable C fl (getAllValidators db) (genesis :: rest)) :
    restart C fl now db = some (genesis :: rest) := by
  have hheight := getLatestBlockHeight_eq hagree (List.cons_ne_nil genesis rest) h.short
  rw [List.length_cons, Nat.add_right_cancel_iff] at hheight
  refine restart_eq_some.mpr ⟨h.restorable, ?_⟩
  split_ifs with hpos
  · have hpos' := UInt32.lt_iff_toNat_lt.mp hpos
    have hrest : rest ≠ [] := List.ne_nil_of_length_pos (hheight ▸ hpos')
    refine ⟨rest, ?_, (replaceChainIfLonger_accepted hacc hrest).mpr h.replays, rfl⟩
    have hn : 1 + (getLatestBlockHeight db).toNat = (genesis :: rest).length := by
      rw [List.length_cons, hheight, Nat.add_comm]
    rw [readPersisted_eq hagree hwithin h.short le_rfl hn]
    rfl
  · have hzero : rest.length = 0 := by
      have := UInt32.le_iff_toNat_le.mp (UInt32.not_lt.mp hpos)
      rw [hheight] at this
      exact Nat.le_zero.mp this
    rw [List.length_eq_zero_iff.mp hzero]

end Recovery

/-- The encodings of the blocks a list of operations offers. -/
def offeredEncodings (ops : List NodeOp) : Set Bytes :=
  {s | ∃ b, .accept b ∈ ops ∧ s = b.serialize}

/-- **Restart**: after any registrations, unregistrations and blocks the decoder can read, a restart
gives back the chain exactly when the stored validators can be restored, the heights fit the signed
column, and the stored validators name and authorize every block of the chain. -/
theorem restart_runNode (C : Crypto) (fl : FloatOps F) (clock : ℕ → ℕ) (hclock : Monotone clock)
    (db₀ : Db) (ops : List NodeOp) (hwithin : ∀ b, .accept b ∈ ops → b.Within)
    (hfree : C.CollisionFreeOn (offeredEncodings ops)) (now : ℕ)
    (hnow : clock (runNode C fl clock (newNode db₀) ops).ticks ≤ now) :
    let n := runNode C fl clock (newNode db₀) ops
    ∃ db, n.db = some db ∧ (restart C fl now db = some n.chain ↔
      Recoverable C fl (getAllValidators db) n.chain) := by
  intro n
  have hinv : RunInv C clock db₀.utxos (offeredEncodings ops) n :=
    (newNode_inv C clock _ db₀).run hclock hfree fun b hb => ⟨⟨b, hb, rfl⟩, hwithin b hb⟩
  obtain ⟨db, hdb, hin⟩ := hinv.views
  have hagree := hin.agree
  have hacc := hinv.accepted.mono hnow
  have hdecodes := hinv.within
  obtain ⟨rest, hchain⟩ := hacc.head
  rw [hchain] at hagree hacc hdecodes ⊢
  exact ⟨db, hdb, recoverable_of_restart hagree hacc, restart_of_recoverable hagree hacc hdecodes⟩

/-- A block of the only validator, ten seconds after the registration. -/
def firstProposal : Block := { firstBlock with validatorAge := 10 }

/-- A validator registers and proposes a block. -/
def sampleNodeOps : List NodeOp := [.register [118] 1000000 [], .accept firstProposal]

theorem firstProposal_within : firstProposal.Within := by decide +kernel

theorem restart_runNode_sample :
    let n := runNode polyCrypto exactFloat (1640000000 + ·) (newNode {}) sampleNodeOps
    n.chain = [genesis, firstProposal] ∧
      ∃ db, n.db = some db ∧ restart polyCrypto exactFloat 1640000100 db = some n.chain := by
  intro n
  have hoffered : ∀ b, .accept b ∈ sampleNodeOps → b = firstProposal := by
    intro b hb
    simpa [sampleNodeOps] using hb
  have hfree : polyCrypto.CollisionFreeOn (offeredEncodings sampleNodeOps) := by
    rintro s ⟨b, hb, rfl⟩ s' ⟨c, hc, rfl⟩ -
    rw [hoffered b hb, hoffered c hc]
  have hclock : Monotone fun n : ℕ => 1640000000 + n := fun _ _ h => Nat.add_le_add_left h _
  have hnow : 1640000000 + n.ticks ≤ 1640000100 := by decide +kernel
  obtain ⟨db, hdb, hiff⟩ := restart_runNode polyCrypto exactFloat _ hclock {} sampleNodeOps
    (fun b hb => hoffered b hb ▸ firstProposal_within) hfree 1640000100 hnow
  have hrec : ∀ db ∈ n.db, (∀ v ∈ getAllValidators db, v.Restorable) ∧ n.chain.length ≤ 2 ^ 31 ∧
      ∀ b ∈ n.chain.tail, Replays polyCrypto exactFloat (getAllValidators db) b := by
    decide +kernel
  obtain ⟨hrestore, hshort, hreplays⟩ := hrec db hdb
  exact ⟨by decide +kernel, db, hdb, hiff.mpr ⟨hrestore, hshort, hreplays⟩⟩

/-- The validator leaves before the stop: the restart refuses the chain it finds. -/
theorem restart_unregistered :
    let ops := sampleNodeOps ++ [.unregister [118]]
    let n := runNode polyCrypto exactFloat (1640000000 + ·) (newNode {}) ops
    (∀ b, .accept b ∈ ops → b.Within) ∧ n.chain = [genesis, firstProposal] ∧
      ∃ db, n.db = some db ∧ restart polyCrypto exactFloat 1640000100 db = none := by
  intro ops n
  refine ⟨?_, by decide +kernel, ?_⟩
  · intro b hb
    have heq : b = firstProposal := by simpa [ops, sampleNodeOps] using hb
    exact heq ▸ firstProposal_within
  · have hnone : ∀ db ∈ n.db, restart polyCrypto exactFloat 1640000100 db = none := by
      decide +kernel
    have hsome : n.db.isSome = true := by decide +kernel
    obtain ⟨db, hdb⟩ := Option.isSome_iff_exists.mp hsome
    exact ⟨db, hdb, hnone db hdb⟩

end Mermai
