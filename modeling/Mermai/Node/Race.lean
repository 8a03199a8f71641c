import Mermai.Node.Views

/-!
# Node.Race — the producer and a peer thread accept blocks at the same time

Two parties run `can_add_block`, `apply_block`, `add_block` for a block of their own, each call as
one atomic step, and stop at the first that returns false.  Nothing holds a lock over the three
calls, and `apply_block` replaces the row of the height it writes, so the table can end with one
block and the chain with the other.

* `RaceState.step` — one call of one party;
* `Guarded` — what a lock over the last two calls and a repeated check would ensure;
* `RaceInv` — the invariant of guarded runs: the table agrees with the chain, or with the chain and
  the one block that is committed and not yet appended.
-/

namespace Mermai

variable {F : Type}

/-! ## The two parties -/

/-- `consensus_loop` and the thread of a peer. -/
inductive Party
  | producer
  | peer
deriving DecidableEq

def Party.other : Party → Party
  | .producer => .peer
  | .peer => .producer

/-- The next call of a party. -/
inductive Stage
  | check
  | apply
  | append
  | stopped
deriving DecidableEq

/-- The shared node, the next call of each party, and the last reading of the clock. -/
structure RaceState where
  chain : List Block
  engine : Option Engine
  db : Db
  stage : Party → Stage
  clock : ℕ

/-- The state before the first call. -/
def RaceState.start (chain : List Block) (engine : Option Engine) (db : Db) : RaceState :=
  ⟨chain, engine, db, fun _ => .check, 0⟩

/-- The next call of party `p`, at clock `now`. -/
def RaceState.step (C : Crypto) (fl : FloatOps F) (block : Party → Block) (s : RaceState)
    (p : Party) (now : ℕ) : RaceState :=
  match s.stage p with
  | .check =>
    let r := canAddBlock C fl now s.engine s.chain (some (block p))
    { s with engine := r.engine, clock := now
             stage := Function.update s.stage p (if r.ok then .apply else .stopped) }
  | .apply =>
    let r := applyBlock C now s.db (block p)
    { s with db := r.2, clock := now
             stage := Function.update s.stage p (if r.1 then .append else .stopped) }
  | .append =>
    let r := addBlock C fl now s.engine s.chain (some (block p))
    { s with chain := r.2, engine := r.1.engine, clock := now
             stage := Function.update s.stage p .stopped }
  | .stopped => s

/-- The state after the calls of a schedule. -/
def RaceState.run (C : Crypto) (fl : FloatOps F) (block : Party → Block) :
    RaceState → List (Party × ℕ) → RaceState
  | s, [] => s
  | s, (p, now) :: rest => (s.step C fl block p now).run C fl block rest

/-! ## Guarded runs -/

/-- A call that cannot cross the other party: the clock has not gone back, `apply_block` is called
only where `can_add_block` still returns true, and between the `apply_block` and the `add_block` of
the other party there is no call that could change the verdict on its block. -/
structure Guarded (C : Crypto) (fl : FloatOps F) (block : Party → Block) (s : RaceState)
    (p : Party) (now : ℕ) : Prop where
  clock : s.clock ≤ now
  fresh : s.stage p = .apply →
    (canAddBlock C fl now s.engine s.chain (some (block p))).ok = true
  alone : s.stage p.other = .append →
    s.stage p = .stopped ∨ (s.stage p = .check ∧ s.engine = none)

/-- Every call of the schedule is guarded. -/
def GuardedRun (C : Crypto) (fl : FloatOps F) (block : Party → Block) :
    RaceState → List (Party × ℕ) → Prop
  | _, [] => True
  | s, (p, now) :: rest =>
    Guarded C fl block s p now ∧ GuardedRun C fl block (s.step C fl block p now) rest

/-- **Invariant** of guarded runs. -/
structure RaceInv (C : Crypto) (fl : FloatOps F) (S : Set Bytes) (block : Party → Block)
    (s : RaceState) : Prop where
  stored : Stored C S s.db.blocks
  settled : (∀ p, s.stage p ≠ .append) → BlocksAgree s.chain s.db.blocks
  pending : ∀ p, s.stage p = .append → s.stage p.other ≠ .append ∧
    (canAddBlock C fl s.clock s.engine s.chain (some (block p))).ok = true ∧
    BlocksAgree (s.chain ++ [block p]) s.db.blocks

section Invariant

variable {C : Crypto} {fl : FloatOps F} {S : Set Bytes} {block : Party → Block} {s : RaceState}
  {p : Party} {now : ℕ}

theorem Party.eq_or_other (p q : Party) : q = p ∨ q = p.other := by
  cases p <;> cases q <;> simp [Party.other]

theorem Party.other_ne (p : Party) : p.other ≠ p := by
  cases p <;> simp [Party.other]

/-- A party that is not appending, with the other neither. -/
theorem not_append_of {stage : Party → Stage} (h : stage p ≠ .append)
    (h' : stage p.other ≠ .append) : ∀ q, stage q ≠ .append := by
  intro q
  rcases p.eq_or_other q with rfl | rfl
  · exact h
  · exact h'

theorem update_ne_append {stage : Party → Stage} {new : Stage} (hnew : new ≠ .append)
    (h : stage p.other ≠ .append) (q : Party) : Function.update stage p new q ≠ .append := by
  rcases p.eq_or_other q with rfl | rfl
  · rwa [Function.update_self]
  · rwa [Function.update_of_ne p.other_ne]

theorem RaceInv.check (h : RaceInv C fl S block s) (hg : Guarded C fl block s p now)
    (hp : s.stage p = .check) : RaceInv C fl S block (s.step C fl block p now) := by
  have hstep : s.step C fl block p now =
      let r := canAddBlock C fl now s.engine s.chain (some (block p))
      { s with engine := r.engine, clock := now
               stage := Function.update s.stage p (if r.ok then .apply else .stopped) } := by
    rw [RaceState.step, hp]
  rw [hstep]
  refine ⟨h.stored, ?_, ?_⟩
  · intro hno
    refine h.settled (not_append_of (by rw [hp]; decide) ?_)
    have := hno p.other
    dsimp only at this
    rwa [Function.update_of_ne p.other_ne] at this
  · -- the party that is appending is the other one, and then there is no engine
    intro q hq
    have hqp : q = p.other := by
      rcases p.eq_or_other q with rfl | rfl
      · dsimp only at hq
        rw [Function.update_self] at hq
        split_ifs at hq
      · rfl
    subst hqp
    dsimp only at hq
    rw [Function.update_of_ne p.other_ne] at hq
    obtain ⟨hother, hok, hagree⟩ := h.pending _ hq
    rcases hg.alone hq with hstop | ⟨-, hnone⟩
    · rw [hp] at hstop
      cases hstop
    have heng : (canAddBlock C fl now s.engine s.chain (some (block p))).engine = s.engine := by
      rw [hnone]
      unfold canAddBlock
      dsimp only
      split_ifs <;> rfl
    refine ⟨?_, ?_, hagree⟩
    · have hpp : p.other.other = p := by cases p <;> rfl
      dsimp only
      rw [hpp, Function.update_self]
      split_ifs <;> decide
    · dsimp only
      rw [heng]
      exact canAddBlock_mono hok hg.clock

/-- A party whose `apply_block` is due finds the table in agreement. -/
theorem RaceInv.agree_of_apply (h : RaceInv C fl S block s) (hg : Guarded C fl block s p now)
    (hp : s.stage p = .apply) : s.stage p.other ≠ .append ∧ BlocksAgree s.chain s.db.blocks := by
  have hother : s.stage p.other ≠ .append := by
    intro happ
    rcases hg.alone happ with hstop | ⟨hcheck, -⟩
    · rw [hp] at hstop
      cases hstop
    · rw [hp] at hcheck
      cases hcheck
  exact ⟨hother, h.settled (not_append_of (by rw [hp]; decide) hother)⟩

theorem RaceInv.apply (hfree : C.CollisionFreeOn S) (hS : ∀ q, (block q).serialize ∈ S)
    (h : RaceInv C fl S block s) (hg : Guarded C fl block s p now) (hp : s.stage p = .apply) :
    RaceInv C fl S block (s.step C fl block p now) := by
  obtain ⟨hother, hagree⟩ := h.agree_of_apply hg hp
  have hok := hg.fresh hp
  have hstep : s.step C fl block p now =
      let r := applyBlock C now s.db (block p)
      { s with db := r.2, clock := now
               stage := Function.update s.stage p (if r.1 then .append else .stopped) } := by
    rw [RaceState.step, hp]
  rw [hstep]
  dsimp only
  by_cases happly : (applyBlock C now s.db (block p)).1 = true
  · rw [if_pos happly]
    obtain ⟨-, hblocks, -⟩ := applyBlock_eq_true happly
    obtain ⟨tip, htip, hheight, -⟩ := extendsTip_iff.mp (canAddBlock_ok_iff.mp hok).1
    have hne : s.chain ≠ [] := by
      intro hnil
      rw [hnil] at htip
      cases htip
    refine ⟨?_, ?_, ?_⟩
    · show Stored C S (applyBlock C now s.db (block p)).2.blocks
      rw [hblocks]
      exact h.stored.insert (hS p)
    · intro hno
      exact absurd (Function.update_self p Stage.append s.stage) (hno p)
    · intro q hq
      -- only the party that has just committed is appending
      have hqp : q = p := by
        rcases p.eq_or_other q with rfl | rfl
        · rfl
        · exact absurd ((Function.update_of_ne p.other_ne _ _).symm.trans hq) hother
      subst hqp
      refine ⟨?_, hok, ?_⟩
      · show Function.update s.stage q Stage.append q.other ≠ .append
        rwa [Function.update_of_ne q.other_ne]
      · show BlocksAgree (s.chain ++ [block q]) (applyBlock C now s.db (block q)).2.blocks
        rw [hblocks]
        exact hagree.append hfree h.stored (hS q) hne hheight
  · rw [if_neg happly, applyBlock_eq_false (Bool.eq_false_iff.mpr happly)]
    refine ⟨h.stored, fun _ => hagree, ?_⟩
    intro q hq
    exact absurd hq (update_ne_append (by decide) hother q)

theorem RaceInv.append (h : RaceInv C fl S block s) (hg : Guarded C fl block s p now)
    (hp : s.stage p = .append) : RaceInv C fl S block (s.step C fl block p now) := by
  obtain ⟨hother, hok, hagree⟩ := h.pending p hp
  have hadd : (addBlock C fl now s.engine s.chain (some (block p))).2 = s.chain ++ [block p] := by
    simp [addBlock, canAddBlock_mono hok hg.clock]
  have hstep : s.step C fl block p now =
      let r := addBlock C fl now s.engine s.chain (some (block p))
      { s with chain := r.2, engine := r.1.engine, clock := now
               stage := Function.update s.stage p .stopped } := by
    rw [RaceState.step, hp]
  rw [hstep]
  refine ⟨h.stored, ?_, ?_⟩
  · intro _
    show BlocksAgree (addBlock C fl now s.engine s.chain (some (block p))).2 s.db.blocks
    rw [hadd]
    exact hagree
  · intro q hq
    exact absurd hq (update_ne_append (by decide) hother q)

theorem RaceInv.step (hfree : C.CollisionFreeOn S) (hS : ∀ q, (block q).serialize ∈ S)
    (h : RaceInv C fl S block s) (hg : Guarded C fl block s p now) :
    RaceInv C fl S block (s.step C fl block p now) := by
  cases hp : s.stage p with
  | check => exact h.check hg hp
  | apply => exact h.apply hfree hS hg hp
  | append => exact h.append hg hp
  | stopped =>
    have hstep : s.step C fl block p now = s := by rw [RaceState.step, hp]
    rw [hstep]
    exact h

theorem RaceInv.run (hfree : C.CollisionFreeOn S) (hS : ∀ q, (block q).serialize ∈ S)
    {schedule : List (Party × ℕ)} (h : RaceInv C fl S block s)
    (hg : GuardedRun C fl block s schedule) :
    RaceInv C fl S block (s.run C fl block schedule) := by
  induction schedule generalizing s with
  | nil => exact h
  | cons e rest ih => exact ih (h.step hfree hS hg.1) hg.2

end Invariant

/-- **Guarded runs**: from a node whose blocks table agrees with its chain, whatever the order of the
guarded calls, the table agrees with the chain in every state where no party is between its
`apply_block` and its `add_block`, so also when both have stopped. -/
theorem guardedRun_agrees (C : Crypto) (fl : FloatOps F) (S : Set Bytes)
    (hfree : C.CollisionFreeOn S) (block : Party → Block) (hS : ∀ p, (block p).serialize ∈ S)
    (chain : List Block) (engine : Option Engine) (db : Db) (hstored : Stored C S db.blocks)
    (hagree : BlocksAgree chain db.blocks) (schedule : List (Party × ℕ))
    (hg : GuardedRun C fl block (.start chain engine db) schedule)
    (hdone : ∀ p, ((RaceState.start chain engine db).run C fl block schedule).stage p ≠ .append) :
    BlocksAgree ((RaceState.start chain engine db).run C fl block schedule).chain
      ((RaceState.start chain engine db).run C fl block schedule).db.blocks := by
  have hinv : RaceInv C fl S block (.start chain engine db) := by
    refine ⟨hstored, fun _ => hagree, ?_⟩
    intro p hp
    cases hp
  exact (hinv.run hfree hS hg).settled hdone

/-! ## Two runs -/

/-- The only validator, registered without a key. -/
def soleValidator : ValidatorStake := ⟨[118], 1000000, 1639999990, 0, []⟩

/-- Its blocks of height 1 for two consecutive slots, one in the hands of each party. -/
def rivalBlock : Party → Block
  | .producer => { firstBlock with timestamp := 1640000020, validatorAge := 30 }
  | .peer => { firstBlock with validatorAge := 20 }

/-- A check of the peer's block between the commit and the append of the producer. -/
def overlappingCheck : List (Party × ℕ) :=
  [(.producer, 1700000000), (.producer, 1700000000), (.peer, 1700000001), (.producer, 1700000001)]

theorem guardedRun_agrees_overlap :
    let s := (RaceState.start [genesis] none {}).run polyCrypto exactFloat rivalBlock
      overlappingCheck
    s.chain = [genesis, rivalBlock .producer] ∧ BlocksAgree s.chain s.db.blocks := by
  have hfree : polyCrypto.CollisionFreeOn
      {(rivalBlock .producer).serialize, (rivalBlock .peer).serialize} := by
    rintro m (rfl | rfl) m' (rfl | rfl) h
    · rfl
    · exact absurd h (by decide +kernel)
    · exact absurd h (by decide +kernel)
    · rfl
  have hguarded : GuardedRun polyCrypto exactFloat rivalBlock (.start [genesis] none {})
      overlappingCheck := by
    refine ⟨⟨by decide, nofun, nofun⟩, ⟨by decide +kernel, fun _ => by decide +kernel, ?_⟩,
      ⟨by decide +kernel, ?_,
        fun _ => .inr ⟨by decide +kernel, Option.isNone_iff_eq_none.mp (by decide +kernel)⟩⟩,
      ⟨by decide +kernel, ?_, ?_⟩, trivial⟩
    · exact fun h => absurd h (by decide +kernel)
    · exact fun h => absurd h (by decide +kernel)
    · exact fun h => absurd h (by decide +kernel)
    · exact fun h => absurd h (by decide +kernel)
  refine ⟨by decide +kernel, ?_⟩
  refine guardedRun_agrees polyCrypto exactFloat _ hfree rivalBlock ?_ [genesis] none {}
    (fun row hrow => by cases hrow) blocksAgree_genesis overlappingCheck hguarded ?_
  · rintro (_ | _)
    · exact .inl rfl
    · exact .inr rfl
  · rintro (_ | _) <;> decide +kernel

/-- Both parties check, then both commit, then the first appends. -/
def crossedSchedule : List (Party × ℕ) :=
  [(.producer, 1700000000), (.peer, 1700000000), (.producer, 1700000000), (.peer, 1700000000),
    (.producer, 1700000000), (.peer, 1700000000)]

/-- **A crossed update**: the two blocks are for different slots, so the engine accepts both; the
row of height 1 ends with the peer's block and the chain with the producer's. -/
theorem crossedSchedule_disagrees :
    let s := (RaceState.start [genesis] (some ⟨[soleValidator], fun _ => none⟩) {}).run polyCrypto
      exactFloat rivalBlock crossedSchedule
    BlocksAgree [genesis] ({} : Db).blocks ∧ (∀ p, s.stage p = .stopped) ∧
      ¬ BlocksAgree s.chain s.db.blocks := by
  intro s
  have hchain : getBlock s.chain 1 = some (rivalBlock .producer) := by decide +kernel
  have hrow : (s.db.blocks.select (1 : UInt32).toInt32).map BlockRow.serialized =
      some (rivalBlock .peer).serialize := by decide +kernel
  refine ⟨blocksAgree_genesis, ?_, ?_⟩
  · rintro (_ | _) <;> decide +kernel
  · intro h
    obtain ⟨row, b, hr, hb, heq⟩ := h.rows 1 (by decide) (by decide +kernel)
    rw [hchain] at hb
    rw [hr, Option.map_some, heq, ← Option.some.inj hb] at hrow
    exact absurd (Option.some.inj hrow) (by decide +kernel)

end Mermai
