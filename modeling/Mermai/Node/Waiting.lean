import Mermai.Db.Ledger
import Mermai.Node.Leader

/-!
# Node.Waiting — transactions that wait for ever

`send_transaction` and `NEW_TRANSACTION` put a transaction into the mempool table and pass it on, and only
`apply_block` takes one out.  But `consensus_loop` never looks at that table: the blocks it makes have no
transactions.  So as long as nodes get only what nodes send, every block of every chain is empty, the outputs
and the committed transactions are those of the start, and what is in a mempool stays there
(`transactions_wait`).  The step lemma is about one event of one node: where it accepts empty blocks only, it
keeps the tables (`keeps_react`).
-/

namespace Mermai

open Merlite (ascii)

variable {F ι : Type}

/-! ## Tables that are kept -/

/-- The outputs and the committed transactions are the same, and what waited still waits. -/
structure Db.Keeps (db db' : Db) : Prop where
  utxos : db'.utxos = db.utxos
  transactions : db'.transactions = db.transactions
  waiting : ∀ id, (db.mempool.lookup id).isSome = true → (db'.mempool.lookup id).isSome = true

/-- The same of the database of a node. -/
def Node.Keeps (n n' : Node) : Prop := ∀ db, n.db = some db → ∃ db', n'.db = some db' ∧ db.Keeps db'

theorem Db.Keeps.refl (db : Db) : db.Keeps db := ⟨rfl, rfl, fun _ h => h⟩

theorem Db.Keeps.trans {db db' db'' : Db} (h : db.Keeps db') (h' : db'.Keeps db'') : db.Keeps db'' :=
  ⟨h'.utxos.trans h.utxos, h'.transactions.trans h.transactions, fun id hid => h'.waiting id (h.waiting id hid)⟩

theorem Node.Keeps.refl (n : Node) : n.Keeps n := fun db hdb => ⟨db, hdb, .refl db⟩

theorem Node.Keeps.of_db {n n' : Node} (h : n'.db = n.db) : n.Keeps n' :=
  fun db hdb => ⟨db, h.trans hdb, .refl db⟩

theorem Node.Keeps.trans {n n' n'' : Node} (h : n.Keeps n') (h' : n'.Keeps n'') : n.Keeps n'' := by
  intro db hdb
  obtain ⟨db', hdb', hkeeps⟩ := h db hdb
  obtain ⟨db'', hdb'', hkeeps'⟩ := h' db' hdb'
  exact ⟨db'', hdb'', hkeeps.trans hkeeps'⟩

theorem keeps_addToMempool (C : Crypto) (db : Db) (tx : Transaction) : db.Keeps (addToMempool C db tx) := by
  refine ⟨rfl, rfl, fun id hid => ?_⟩
  by_cases heq : id = cText (tx.rowId C)
  · rw [heq, addToMempool, AList.lookup_insert]
    rfl
  · rw [addToMempool, AList.lookup_insert_ne heq]
    exact hid

/-- A block without transactions is committed without a trace in these tables. -/
theorem keeps_applyBlock (C : Crypto) (now : ℕ) (db : Db) {b : Block} (hb : b.transactions = []) :
    db.Keeps (applyBlock C now db b).2 := by
  rw [applyBlock, hb]
  refine ⟨rfl, ?_, fun id hid => hid⟩
  show (saveBlock C _ b).transactions = _
  rw [saveBlock, hb]
  rfl

section Blocks

variable {C : Crypto} {fl : FloatOps F} {clock : ℕ → ℕ}

theorem Node.keeps_acceptBlock (hclock : Monotone clock) {n : Node} {b : Block}
    (hidle : ∀ c ∈ (n.acceptBlock C fl clock b).2.chain, c.transactions = []) :
    n.Keeps (n.acceptBlock C fl clock b).2 := by
  intro db hdb
  obtain ⟨-, ⟨-, -, hsame⟩ | ⟨-, -, -, -, hchain, hdb'⟩⟩ := Node.acceptBlock_cases C fl hclock hdb b
  · exact ⟨db, hsame, .refl db⟩
  · have hb : b.transactions = [] := by
      refine hidle b ?_
      rw [hchain]
      exact List.mem_append_right _ (List.mem_singleton_self b)
    exact ⟨_, hdb', keeps_applyBlock C _ db hb⟩

/-- **A list of blocks**, where the chain behind it has no transactions. -/
theorem Node.keeps_acceptBlocks (hclock : Monotone clock) {blocks : List Block} {n : Node}
    (hidle : ∀ c ∈ (n.acceptBlocks C fl clock blocks).2.chain, c.transactions = []) :
    n.Keeps (n.acceptBlocks C fl clock blocks).2 := by
  induction blocks generalizing n with
  | nil => exact .refl n
  | cons b rest ih =>
    rw [Node.acceptBlocks] at hidle ⊢
    split_ifs at hidle ⊢
    · have hgrown : (n.acceptBlock C fl clock b).2.chain <+:
          ((n.acceptBlock C fl clock b).2.acceptBlocks C fl clock rest).2.chain :=
        (Node.onward_acceptBlocks rest _).chain
      exact (n.keeps_acceptBlock hclock fun c hc => hidle c (hgrown.subset hc)).trans (ih hidle)
    · exact n.keeps_acceptBlock hclock hidle

/-- **One message** to a node with a database. -/
theorem keeps_handleMessage (hclock : Monotone clock) {n : Node} {db : Db} (hdb : n.db = some db) {m : Message}
    (hidle : ∀ c ∈ (handleMessage C fl clock n m).node.chain, c.transactions = []) :
    n.Keeps (handleMessage C fl clock n m).node := by
  cases m with
  | getBlocks => exact .refl n
  | other => exact .refl n
  | blocks payload =>
    rw [handleMessage, handleBlocks_node hdb payload] at hidle ⊢
    exact n.keeps_acceptBlocks hclock hidle
  | block payload =>
    simp only [handleMessage] at hidle ⊢
    split at hidle
    · exact .refl n
    · exact n.keeps_acceptBlock hclock hidle
  | newTransaction payload =>
    simp only [handleMessage, handleTransaction]
    split
    · rename_i tx db' _ hdb'
      intro d hd
      obtain rfl : d = db' := Option.some.inj (hd.symm.trans hdb')
      refine ⟨_, rfl, ?_⟩
      split_ifs
      · exact keeps_addToMempool C d tx
      · exact .refl d
    · exact .refl n
  | blockVote payload =>
    simp only [handleMessage, handleVote]
    split
    · exact .of_db rfl
    · exact .refl n

end Blocks

/-! ## Requests -/

namespace Rpc

variable {H : Host F} {request : Bytes} {S T : Server F}

theorem keeps_saveRegistered (fl : FloatOps F) (vs : List ValidatorStake) (db : RpcDb F) :
    db.toDb.Keeps (vs.foldl (saveRegistered fl) db).toDb := by
  induction vs generalizing db with
  | nil => exact .refl _
  | cons v vs ih =>
    have hone : db.toDb.Keeps (saveRegistered fl db v).toDb := ⟨rfl, rfl, fun _ h => h⟩
    exact hone.trans (ih _)

/-- No request takes a transaction out of the mempool. -/
theorem Server.Changes.keeps (h : Server.Changes H request S T) {db : RpcDb F} (hdb : S.db = some db) :
    ∃ db', T.db = some db' ∧ db.toDb.Keeps db'.toDb := by
  cases h with
  | nothing => exact ⟨db, hdb, .refl _⟩
  | pooled tx hdb' =>
    cases hdb.symm.trans hdb'
    exact ⟨_, rfl, keeps_addToMempool H.crypto db.toDb tx⟩
  | registered hvs hmethod hreg => exact ⟨_, congrArg (Option.map _) hdb, keeps_saveRegistered _ _ db⟩
  | voted hq hvs => exact ⟨db, hdb, .refl _⟩
  | deployed address code hdb' hsave =>
    cases hdb.symm.trans hdb'
    refine ⟨_, rfl, ?_⟩
    unfold saveContractCode at hsave
    split_ifs at hsave
    obtain ⟨blob, -, rfl⟩ := Option.map_eq_some_iff.mp hsave
    exact ⟨rfl, rfl, fun _ h => h⟩

end Rpc

/-! ## Events -/

namespace MermaiNode

variable {σ : Setup F} {s : MermaiNode F}

theorem keeps_connectToPeer (address : Bytes) (port : UInt16) :
    s.node.Keeps (s.connectToPeer σ address port).1.node := by
  unfold connectToPeer
  split_ifs
  · exact .refl _
  · exact .refl _

/-- **One event** of a node with a database keeps the tables, where the chain behind it has no
transactions. -/
theorem keeps_react (hclock : Monotone σ.clock) {db : Db} (hdb : s.node.db = some db) {e : Event}
    (hidle : ∀ c ∈ (s.react σ e).1.node.chain, c.transactions = []) :
    s.node.Keeps (s.react σ e).1.node := by
  cases e with
  | connectToPeer address port => exact keeps_connectToPeer address port
  | accepted ip socket =>
    simp only [react, accept]
    split_ifs
    · exact .refl _
    · exact .refl _
  | received place loop m =>
    simp only [react, receive] at hidle ⊢
    split at hidle
    · rename_i result hround
      have hresult := ReceiveLoop.round_passed hround
      subst hresult
      exact keeps_handleMessage hclock hdb hidle
    · exact .refl _
  | requested now clock fuel data =>
    simp only [react, request]
    split_ifs
    · exact .refl _
    · split
      · exact .refl _
      · rename_i r T hr
        intro d hd
        obtain ⟨db', hdb', hkeeps⟩ := (Rpc.Server.changes_handleRequest hr).keeps
          (show s.server.db = some _ from congrArg (Option.map _) hd)
        exact ⟨db'.toDb, congrArg (Option.map Rpc.RpcDb.toDb) hdb', hkeeps⟩
  | consensusRound =>
    simp only [react, consensusRound] at hidle ⊢
    cases hb : s.assembled σ with
    | none => exact .of_db rfl
    | some b =>
      rw [hb] at hidle
      replace hidle : ∀ c ∈ (s.produce σ b).1.node.chain, c.transactions = [] := hidle
      show s.node.Keeps (s.produce σ b).1.node
      have hblock : (∀ c ∈ (s.tick.node.acceptBlock σ.crypto σ.floats.toFloatOps σ.clock b).2.chain,
          c.transactions = []) →
          s.node.Keeps (s.tick.node.acceptBlock σ.crypto σ.floats.toFloatOps σ.clock b).2 := by
        intro hempty
        have htick : s.node.Keeps s.tick.node := .of_db rfl
        exact htick.trans (s.tick.node.keeps_acceptBlock hclock hempty)
      rw [produce] at hidle ⊢
      split_ifs at hidle ⊢
      · rw [chain_finalize] at hidle
        refine (hblock hidle).trans ?_
        unfold finalize
        split
        · exact .refl _
        · exact .of_db rfl
      · exact hblock hidle
  | syncRound reachable =>
    simp only [react, syncRound]
    split_ifs
    · exact keeps_connectToPeer _ _
    · exact .refl _

end MermaiNode

/-! ## Runs -/

/-- A block that a round makes has no transactions. -/
theorem MermaiNode.transactions_of_made {σ : Setup F} {s : MermaiNode F} {e : MermaiNode.Event} {b : Block}
    (hb : b ∈ s.made σ e) : b.transactions = [] := by
  obtain ⟨eng, -, hassemble⟩ := Option.bind_eq_some_iff.mp (chain_of_made hb).2.2
  exact assembleBlock_transactions hassemble

section Runs

variable [DecidableEq ι] {σ : ι → Setup F} {start : ι → MermaiNode F} {acts : Acts ι}

/-- The chains of a faithful run have no transactions. -/
theorem idle_network (hchain : ∀ i, (start i).node.chain = [genesis])
    (hmodest : ∀ i, Modest (start i).node.finality.validators)
    (hfaith : (network σ).Faithful ⟨start, []⟩ acts) {pre : Acts ι} (hpre : pre <+: acts) (i : ι) :
    ∀ b ∈ chainAfter σ start pre i, b.transactions = [] := by
  intro b hb
  rcases (stands_network hchain hmodest hfaith hpre i).mem hb with rfl | hmade
  · rfl
  · obtain ⟨pre, ⟨j, e⟩, -, hmade⟩ := Network.Protocol.exists_of_mem_trace hmade
    exact MermaiNode.transactions_of_made hmade

/-- **Run**: what lies between two moments of a faithful run. -/
theorem keeps_network (hclock : ∀ i, Monotone (σ i).clock) (hdb : ∀ i, (start i).node.db.isSome = true)
    (hchain : ∀ i, (start i).node.chain = [genesis])
    (hmodest : ∀ i, Modest (start i).node.finality.validators)
    (hfaith : (network σ).Faithful ⟨start, []⟩ acts) {pre later : Acts ι} (hpre : pre <+: later)
    (hlater : later <+: acts) (i : ι) :
    ((networkRun σ start pre).state i).node.Keeps ((networkRun σ start later).state i).node := by
  obtain ⟨rest, rfl⟩ := hpre
  induction rest using List.reverseRecOn with
  | nil =>
    rw [List.append_nil]
    exact .refl _
  | append_singleton rest a ih =>
    rw [← List.append_assoc] at hlater ⊢
    have hbefore := ih ((List.prefix_append _ [a]).trans hlater)
    have hidle := idle_network hchain hmodest hfaith hlater i
    obtain ⟨j, e⟩ := a
    rw [chainAfter, networkRun_concat] at hidle
    rw [networkRun_concat]
    by_cases hi : i = j
    · subst hi
      rw [Network.Protocol.step_state_self] at hidle ⊢
      obtain ⟨db, hsome⟩ := Option.isSome_iff_exists.mp
        (onward_network σ (hdb i) (List.prefix_append pre rest)).2.1
      exact hbefore.trans (MermaiNode.keeps_react (hclock i) hsome hidle)
    · rw [Network.Protocol.step_state_ne _ hi]
      exact hbefore

end Runs

/-- **Transactions wait for ever**: nodes start with databases, the genesis block and validators whose names
fit the decoder, clocks do not run back, and the network delivers only what nodes sent.  Then no chain ever
gets a transaction; between any two moments the outputs and the committed transactions of every node stay the
same, and what is in its mempool stays in it. -/
theorem transactions_wait [DecidableEq ι] (σ : ι → Setup F) (start : ι → MermaiNode F)
    (hclock : ∀ i, Monotone (σ i).clock) (hdb : ∀ i, (start i).node.db.isSome = true)
    (hchain : ∀ i, (start i).node.chain = [genesis])
    (hmodest : ∀ i, Modest (start i).node.finality.validators) (acts : Acts ι)
    (hfaith : (network σ).Faithful ⟨start, []⟩ acts) (pre later : Acts ι) (hpre : pre <+: later)
    (hlater : later <+: acts) (i : ι) :
    (∀ b ∈ chainAfter σ start later i, b.transactions = []) ∧
      ∃ db db', ((networkRun σ start pre).state i).node.db = some db ∧
        ((networkRun σ start later).state i).node.db = some db' ∧
        db'.utxos = db.utxos ∧ db'.transactions = db.transactions ∧
        ∀ id, (db.mempool.lookup id).isSome = true → (db'.mempool.lookup id).isSome = true := by
  refine ⟨idle_network hchain hmodest hfaith hlater i, ?_⟩
  obtain ⟨db, hsome⟩ := Option.isSome_iff_exists.mp (onward_network σ (hdb i) (List.prefix_refl pre)).2.1
  obtain ⟨db', hsome', hkeeps⟩ := keeps_network hclock hdb hchain hmodest hfaith hpre hlater i db hsome
  exact ⟨db, db', hsome, hsome', hkeeps.utxos, hkeeps.transactions, hkeeps.waiting⟩

/-- A new node with an output and a transaction that spends it in the mempool. -/
def waitingNode : MermaiNode ℚ :=
  { node := freshNode (addToMempool polyCrypto fundedDb (transferTx [97] [116] 90))
      (some ⟨[keylessValidator], fun _ => none⟩) (some .empty) }

/-- Two rounds, and their blocks at the other node: the transaction still waits. -/
theorem transactions_wait_sample :
    (chainAfter (fun _ : Bool => sampleSetup) (fun _ => waitingNode) leaderActs true).length = 3 ∧
      ∃ db, ((networkRun (fun _ : Bool => sampleSetup) (fun _ => waitingNode) leaderActs).state true).node.db =
        some db ∧ (db.mempool.lookup [97]).isSome = true := by
  have hclock : Monotone fun n : ℕ => 1640000013 + n := fun _ _ h => Nat.add_le_add_left h _
  have hmodest : Modest waitingNode.node.finality.validators := by
    intro v hv
    rw [List.mem_singleton.mp hv]
    decide
  obtain ⟨-, db, db', hdb, hdb', -, -, hwaits⟩ := transactions_wait (fun _ : Bool => sampleSetup)
    (fun _ => waitingNode) (fun _ => hclock) (fun _ => rfl) (fun _ => rfl) (fun _ => hmodest) leaderActs
    (by decide +kernel) [] leaderActs List.nil_prefix (List.prefix_refl _) true
  refine ⟨by decide +kernel, db', hdb', hwaits [97] ?_⟩
  rw [← Option.some.inj hdb]
  decide +kernel

end Mermai
