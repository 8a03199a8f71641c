import Mermai.Merlite.Contract
import Mermai.Merlite.Correct

/-!
# Merlite.Require — what the machine does at a compiled `require`

The compiler writes a `require` as `PUSH1 1`, `JMPI`, a target byte and `REVERT`: a jump with its target
behind the opcode.  The `JMPI` of the machine has no such byte and takes two words from the stack, the
target and the condition.  Assignments of numbers leave the stack as it was (`afterStores_frame`), so
on a stack that starts empty there is only the condition, and the first guard ends the run with false
(`guard_underflow`).  `require_passes_iff` follows: a body runs through exactly when it has no guard.
-/

namespace Mermai.Merlite

open Vm (Opcode Context GasSchedule Word)

/-! ## Bodies of guards and numbers -/

namespace Statement

/-- A `require`, or an assignment of a number. -/
def literal : Statement → Bool
  | assign _ value _ _ => value.type = .number
  | block .. => false
  | require .. => true

/-- The slot and the number of an assignment. -/
def storePairs (slot : Bytes → UInt32) : Statement → List (UInt32 × UInt64)
  | assign target value _ _ => [(slot target, (assigned value).2)]
  | _ => []

theorem stores_literal {s : Statement} (h : s.literal = true) (slot : Bytes → UInt32) :
    s.stores slot = (s.storePairs slot).flatMap fun p => Pass.storeCode p.1 p.2 := by
  cases s with
  | assign target value more calm =>
    have hnumber : value.type = .number := of_decide_eq_true h
    simp [stores, storePairs, assigned, hnumber]
  | block | require => rfl

theorem storePairs_length_le (slot : Bytes → UInt32) (s : Statement) :
    (s.storePairs slot).length ≤ 1 := by
  cases s with
  | assign => exact le_rfl
  | block | require => exact Nat.zero_le 1

end Statement

/-- The slots and the numbers of the assignments of a body. -/
def bodyPairs (slot : Bytes → UInt32) (ss : List Statement) : List (UInt32 × UInt64) :=
  ss.flatMap (Statement.storePairs slot)

theorem bodyPairs_length_le (slot : Bytes → UInt32) (ss : List Statement) :
    (bodyPairs slot ss).length ≤ ss.length := by
  induction ss with
  | nil => exact le_rfl
  | cons s ss ih =>
    have hs := s.storePairs_length_le slot
    rw [bodyPairs, List.flatMap_cons, List.length_append, List.length_cons]
    unfold bodyPairs at ih
    omega

theorem bodyCode_append (slot : Bytes → UInt32) (position : ℕ) (ss ts : List Statement) :
    Pass.bodyCode slot position (ss ++ ts) = Pass.bodyCode slot position ss ++
      Pass.bodyCode slot (position + (Pass.bodyCode slot position ss).length) ts := by
  induction ss generalizing position with
  | nil => rfl
  | cons s ss ih =>
    rw [List.cons_append, Pass.bodyCode, ih, Pass.bodyCode, List.length_append, List.append_assoc,
      Nat.add_assoc]

/-- Without a guard the code is that of the stores. -/
theorem bodyCode_pairs (slot : Bytes → UInt32) {ss : List Statement}
    (hliteral : ∀ s ∈ ss, s.literal = true) (hquiet : ∀ s ∈ ss, s.isRequire = false) (position : ℕ) :
    Pass.bodyCode slot position ss =
      (bodyPairs slot ss).flatMap fun p => Pass.storeCode p.1 p.2 := by
  rw [Pass.bodyCode_quiet slot hquiet, bodyPairs, List.flatMap_assoc]
  exact List.flatMap_congr fun s hs => Statement.stores_literal (hliteral s hs) slot

/-! ## One guard -/

theorem HasGas.mono {c : Context} {m n : ℕ} (h : HasGas c n) (hle : m ≤ n) : HasGas c m :=
  (Nat.add_le_add_left hle _).trans h

section Guard

variable {G : GasSchedule} (clock : ℕ → UInt64) {code rest : Bytes} {c : Context}

/-- **One guard** on an empty stack: the condition is pushed, and the jump finds no second word. -/
theorem guard_underflow
    (hcode : code.drop c.programCounter = Opcode.push1.byte :: 0x01 :: Opcode.jmpi.byte :: rest)
    (hstack : c.stack = []) (hrun : c.halted = false) (hgas : HasGas c (G.gasPush.toNat + 1)) :
    ∃ t t', Machine.Reaches (Vm.step G clock code) c t ∧
      Vm.step G clock code t = .stop (.returned false, t') := by
  have hbyte : ∀ i, code[c.programCounter + i]? =
      (Opcode.push1.byte :: 0x01 :: Opcode.jmpi.byte :: rest)[i]? := by
    intro i
    rw [← hcode, List.getElem?_drop]
  set pushed := ({ c with programCounter := c.programCounter + 2 }.push
    (Word.ofByte 0x01)).charge G.gasPush with hpushed
  have hgas' : HasGas pushed (0 + 1) := hgas.charge
  have hpush : Vm.step G clock code c = .next pushed :=
    step_push1 clock (hbyte 0) (hbyte 1) hrun hgas
  have hone : pushed.stack = [Word.ofByte 0x01] := by
    rw [hpushed]
    show _ :: c.stack = _
    rw [hstack]
  have hop : code[pushed.programCounter]? = some Opcode.jmpi.byte := hbyte 2
  refine ⟨pushed, { pushed with programCounter := pushed.programCounter + 1 }, .single hpush, ?_⟩
  rw [Vm.step_opcode hop hrun hgas'.checkGas]
  simp only [Vm.execOpcode, hone]
  rfl

end Guard

/-! ## A body -/

/-- The run of the code of a body is in front of each statement with the stores before it done, and
returns true behind the final `STOP`. -/
structure RunsThrough (G : GasSchedule) (clock : ℕ → UInt64) (slot : Bytes → UInt32)
    (body : List Statement) (code : Bytes) (ctx : Context) : Prop where
  passes : ∀ done, done <+: body → ∃ t, Machine.Reaches (Vm.step G clock code) ctx.start t ∧
    t.programCounter = (Pass.bodyCode slot 0 done).length ∧
    t.storage = ((bodyPairs slot done).map fun p =>
      (byteWord (p.2 &&& 0xFF).toUInt8, byteWord p.1.toUInt8)).foldl Run.write ctx.storage
  returns : ∃ fuel final, Vm.execute G clock code ctx fuel = some (.returned true, final) ∧
    final.halted = true ∧ final.programCounter = code.length

section Body

variable {G : GasSchedule} (slot : Bytes → UInt32) {body : List Statement} {ctx : Context}

/-- A body without a guard runs through. -/
theorem runsThrough_quiet (clock : ℕ → UInt64) (hliteral : ∀ s ∈ body, s.literal = true)
    (hquiet : ∀ s ∈ body, s.isRequire = false)
    (hgas : HasGas ctx (body.length * storeGas G + 1)) :
    RunsThrough G clock slot body (Pass.bodyCode slot 0 body ++ [Opcode.stop.byte]) ctx := by
  set code := Pass.bodyCode slot 0 body ++ [Opcode.stop.byte] with hcode
  -- the code behind a part of the body
  have hsplit : ∀ done left, body = done ++ left → code.drop ctx.start.programCounter =
      (bodyPairs slot done).flatMap (fun p => Pass.storeCode p.1 p.2) ++
        (Pass.bodyCode slot (Pass.bodyCode slot 0 done).length left ++ [Opcode.stop.byte]) := by
    rintro done left rfl
    have hdone := bodyCode_pairs slot (fun s hs => hliteral s (List.mem_append_left left hs))
      (fun s hs => hquiet s (List.mem_append_left left hs)) 0
    rw [← hdone, ← List.append_assoc, hcode, bodyCode_append, Nat.zero_add]
    rfl
  have hreaches : ∀ done left, body = done ++ left →
      Machine.Reaches (Vm.step G clock code) ctx.start (afterStores G ctx.start (bodyPairs slot done)) ∧
        HasGas (afterStores G ctx.start (bodyPairs slot done)) (0 + 1) := by
    intro done left heq
    refine reaches_stores clock _ (hsplit done left heq) rfl (HasGas.mono hgas ?_)
    have hle : (bodyPairs slot done).length ≤ body.length := by
      rw [heq, List.length_append]
      exact (bodyPairs_length_le slot done).trans (Nat.le_add_right _ _)
    exact Nat.add_le_add_right (Nat.mul_le_mul_right _ hle) 1
  constructor
  · rintro done ⟨left, heq⟩
    obtain ⟨-, -, hcounter, hstorage⟩ :=
      afterStores_frame (G := G) (c := ctx.start) (bodyPairs slot done)
    have hdone := bodyCode_pairs slot
      (fun s hs => hliteral s (heq ▸ List.mem_append_left left hs))
      (fun s hs => hquiet s (heq ▸ List.mem_append_left left hs)) 0
    refine ⟨_, (hreaches done left heq.symm).1, ?_, hstorage⟩
    rw [hcounter, hdone]
    exact Nat.zero_add _
  · have hwhole : body = body ++ [] := (List.append_nil body).symm
    obtain ⟨hreach, hgas'⟩ := hreaches body [] hwhole
    obtain ⟨-, hrun, hcounter, -⟩ :=
      afterStores_frame (G := G) (c := ctx.start) (bodyPairs slot body)
    obtain ⟨fuel, hfuel⟩ :=
      execute_stop clock (afterStores_drop (hsplit body [] hwhole)) hreach hrun hgas'
    refine ⟨fuel, _, hfuel, rfl, ?_⟩
    show (afterStores G ctx.start (bodyPairs slot body)).programCounter + 1 = _
    rw [hcounter, hcode, List.length_append, bodyCode_pairs slot hliteral hquiet]
    exact congrArg (· + 1) (Nat.zero_add _)

/-- A body with a guard returns false, from an empty stack. -/
theorem returns_false_of_require (clock : ℕ → UInt64) (hliteral : ∀ s ∈ body, s.literal = true)
    (hguard : ∃ s ∈ body, s.isRequire = true) (hfresh : ctx.stack = [])
    (hgas : HasGas ctx (body.length * storeGas G + 1)) :
    ∃ fuel final, Vm.execute G clock (Pass.bodyCode slot 0 body ++ [Opcode.stop.byte]) ctx fuel =
      some (.returned false, final) := by
  -- the body up to its first guard
  obtain ⟨s, hs⟩ := Option.isSome_iff_exists.mp (List.find?_isSome.mpr hguard)
  obtain ⟨hrequire, front, behind, rfl, hfront⟩ := List.find?_eq_some_iff_append.mp hs
  have hquiet : ∀ s ∈ front, s.isRequire = false := fun s hs => by simpa using hfront s hs
  have hliteral' : ∀ s ∈ front, s.literal = true := fun s hs => hliteral s (List.mem_append_left _ hs)
  obtain ⟨tail, htail⟩ : ∃ tail, Pass.bodyCode slot 0 (front ++ s :: behind) ++ [Opcode.stop.byte] =
      (bodyPairs slot front).flatMap (fun p => Pass.storeCode p.1 p.2) ++
        Opcode.push1.byte :: 0x01 :: Opcode.jmpi.byte :: tail := by
    cases s with
    | assign | block => cases hrequire
    | require condition calm =>
      rw [bodyCode_append, bodyCode_pairs slot hliteral' hquiet, Pass.bodyCode, Statement.code]
      exact ⟨_, List.append_assoc _ _ _⟩
  set code := Pass.bodyCode slot 0 (front ++ s :: behind) ++ [Opcode.stop.byte]
  have hpairs := bodyPairs_length_le slot front
  have hneed : (bodyPairs slot front).length * storeGas G + (G.gasPush.toNat + 1) ≤
      (front ++ s :: behind).length * storeGas G + 1 := by
    have hguardGas : G.gasPush.toNat ≤ storeGas G := Nat.le_add_right _ _
    have hlength : (bodyPairs slot front).length + 1 ≤ (front ++ s :: behind).length := by
      rw [List.length_append, List.length_cons]
      omega
    have hmul := Nat.mul_le_mul_right (storeGas G) hlength
    rw [Nat.succ_mul] at hmul
    omega
  have hall : code.drop ctx.start.programCounter =
      (bodyPairs slot front).flatMap (fun p => Pass.storeCode p.1 p.2) ++
        Opcode.push1.byte :: 0x01 :: Opcode.jmpi.byte :: tail := htail
  obtain ⟨hreach, hgas'⟩ := reaches_stores clock _ hall rfl (HasGas.mono hgas hneed)
  obtain ⟨hstack, hrun, -, -⟩ := afterStores_frame (G := G) (c := ctx.start) (bodyPairs slot front)
  obtain ⟨t, final, hreach', hfail⟩ :=
    guard_underflow clock (afterStores_drop hall) (hstack.trans hfresh) hrun hgas'
  obtain ⟨fuel, hfuel⟩ := Machine.Reaches.run_eq (hreach.trans hreach') hfail
  exact ⟨fuel, final, hfuel⟩

end Body

/-! ## The whole contract -/

/-- **Compiled guards**: the code of a contract whose one function has guards and assignments of numbers
runs through exactly when there is no guard, or no code, as a number cannot be read. -/
theorem require_passes_iff {c : Contract} {fn : FunctionDecl} (hone : c.functions = [fn])
    (hliteral : ∀ st ∈ fn.body, st.literal = true) {s : Bytes} (hs : LaidOut c.lexemes s)
    (G : GasSchedule) (clock : ℕ → UInt64) {ctx : Context} (hfresh : ctx.stack = [])
    (hgas : HasGas ctx (fn.body.length * storeGas G + 1)) :
    ((compile s).success = true → RunsThrough G clock c.slot fn.body (compile s).bytecode ctx) ↔
      (∀ st ∈ fn.body, st.isRequire = false) ∨ ∃ st ∈ fn.body, st.readable = false := by
  obtain ⟨-, hsuccess, hcode⟩ := Contract.compile_contract hs
  have hbody : c.compiledBody = fn.body := by
    rw [Contract.compiledBody, hone]
    rfl
  rw [hbody] at hsuccess hcode
  constructor
  · intro hruns
    by_contra hnone
    obtain ⟨hguard, hread⟩ := not_or.mp hnone
    push Not at hguard hread
    have hguard' : ∃ st ∈ fn.body, st.isRequire = true := by simpa using hguard
    have hok := hsuccess.mpr fun st hst => by simpa using hread st hst
    obtain ⟨fuel, final, hrun, -⟩ := (hruns hok).returns
    obtain ⟨fuel', final', hrun'⟩ :=
      returns_false_of_require c.slot clock hliteral hguard' hfresh hgas
    rw [hcode hok] at hrun
    cases Machine.run_unique hrun hrun'
  · rintro (hquiet | ⟨st, hst, hunread⟩) hok
    · rw [hcode hok]
      exact runsThrough_quiet c.slot clock hliteral hquiet hgas
    · have hread := hsuccess.mp hok st hst
      rw [hunread] at hread
      cases hread

/-- `pub fn set() { require(x); x = 7; }`, with the guard or without. -/
def guardedSetter (guarded : Bool) : FunctionDecl where
  isPublic := true
  name := ascii "set"
  parameters := []
  returns := none
  body :=
    (if guarded then [.require [⟨.identifier, ascii "x"⟩] (by decide)] else []) ++
      [.assign (ascii "x") ⟨.number, ascii "7"⟩ [] (by decide)]
  closed := Contract.nil_closed

def guardedContract (guarded : Bool) : Contract where
  name := ascii "C"
  declarations := Contract.oneVariable
  functions := [guardedSetter guarded]
  distinct := Contract.oneVariable_distinct

example : (guardedContract true).print =
    ascii "contract C \x7b \nstate uint256 x ;\npub fn set ( ) \x7b \n" ++
      ascii "require ( x ) ;\nx = 7 ;\n\x7d \n\x7d \n" := by
  decide +kernel

theorem guardedContract_laidOut (guarded : Bool) :
    LaidOut (guardedContract guarded).lexemes (guardedContract guarded).print := by
  refine Contract.laidOut_print ?_
  decide +revert +kernel

theorem guardedSetter_literal (guarded : Bool) :
    ∀ st ∈ (guardedSetter guarded).body, st.literal = true := by
  cases guarded <;> simp [guardedSetter, Statement.literal]

theorem guardedSetter_readable (guarded : Bool) :
    ∀ st ∈ (guardedSetter guarded).body, st.readable = true := by
  have hread : (stoull (ascii "7")).isSome = true := by decide +kernel
  cases guarded <;> simp [guardedSetter, Statement.readable, hread]

theorem hasGas_guardedSetter (guarded : Bool) : HasGas { gasLimit := 1000000 }
    ((guardedSetter guarded).body.length * storeGas Vm.explorerGas + 1) := by
  unfold HasGas
  cases guarded <;> decide

theorem require_passes_quiet :
    RunsThrough Vm.explorerGas (fun _ => 0) (guardedContract false).slot (guardedSetter false).body
      (compile (guardedContract false).print).bytecode { gasLimit := 1000000 } := by
  have hs := guardedContract_laidOut false
  refine (require_passes_iff rfl (guardedSetter_literal false) hs Vm.explorerGas (fun _ => 0) rfl
    (hasGas_guardedSetter false)).mpr (.inl ?_) ?_
  · simp [guardedSetter, Statement.isRequire]
  · exact (Contract.compile_contract hs).2.1.mpr (guardedSetter_readable false)

/-- `require(x)` in front of a store: the run returns false at the guard. -/
theorem guard_returns_false :
    LaidOut (guardedContract true).lexemes (guardedContract true).print ∧
      (compile (guardedContract true).print).success = true ∧
      (∃ fuel final, Vm.execute Vm.explorerGas (fun _ => 0)
        (compile (guardedContract true).print).bytecode { gasLimit := 1000000 } fuel =
          some (.returned false, final)) ∧
      ¬ RunsThrough Vm.explorerGas (fun _ => 0) (guardedContract true).slot (guardedSetter true).body
        (compile (guardedContract true).print).bytecode { gasLimit := 1000000 } := by
  have hs := guardedContract_laidOut true
  obtain ⟨-, hsuccess, hcode⟩ := Contract.compile_contract hs
  have hok := hsuccess.mpr (guardedSetter_readable true)
  obtain ⟨fuel, final, hrun⟩ := returns_false_of_require (guardedContract true).slot
    (fun _ => 0) (guardedSetter_literal true) ⟨_, List.mem_cons_self, rfl⟩ rfl
    (hasGas_guardedSetter true)
  have hbytes : (compile (guardedContract true).print).bytecode =
      Pass.bodyCode (guardedContract true).slot 0 (guardedSetter true).body ++ [Opcode.stop.byte] :=
    hcode hok
  rw [← hbytes] at hrun
  refine ⟨hs, hok, ⟨fuel, final, hrun⟩, fun h => ?_⟩
  obtain ⟨fuel', final', hrun', -⟩ := h.returns
  cases Machine.run_unique hrun hrun'

end Mermai.Merlite
