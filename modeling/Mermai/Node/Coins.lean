import Mermai.Db.Ledger
import Mermai.Node.Network

/-!
# Node.Coins — the coins of a node among other nodes

Between any two moments of a run the unspent outputs of a node change by the transactions of the blocks that
its chain gained, and by nothing else (`Node.Pays`): not by a message that is refused, a request, a proposal
that slashes, or what other nodes hold.  So coins are conserved across a network run up to fees and what
transactions without inputs create, and an output only disappears through an input that carries the key of its
address and is signed with it (`coins_accounted`).
-/

namespace Mermai

variable {F ι : Type}

/-! ## What the added blocks pay -/

/-- The chain gained `added`, and the outputs are what their transactions make of those before. -/
structure Node.Pays (C : Crypto) (clock : ℕ → ℕ) (n n' : Node) (added : List Block) : Prop where
  ticks : n.ticks ≤ n'.ticks
  chain : n'.chain = n.chain ++ added
  utxos : ∀ db, n.db = some db → ∃ db', n'.db = some db' ∧
    applyTransactions C (clock n'.ticks) db.utxos (added.flatMap Block.transactions) = some db'.utxos

section Pays

variable {C : Crypto} {fl : FloatOps F} {clock : ℕ → ℕ}

theorem Node.Pays.refl (C : Crypto) (clock : ℕ → ℕ) (n : Node) : n.Pays C clock n [] :=
  ⟨le_rfl, (List.append_nil _).symm, fun db hdb => ⟨db, hdb, rfl⟩⟩

theorem Node.Frames.pays {n n' : Node} (h : n.Frames n') (C : Crypto) (clock : ℕ → ℕ) :
    n.Pays C clock n' [] := by
  refine ⟨h.ticks, by rw [h.chain, List.append_nil], ?_⟩
  intro db hdb
  obtain ⟨db', hdb', -, hutxos⟩ := h.db db hdb
  exact ⟨db', hdb', by rw [hutxos]; rfl⟩

theorem Node.Pays.trans (hclock : Monotone clock) {n n' n'' : Node} {added added' : List Block}
    (h : n.Pays C clock n' added) (h' : n'.Pays C clock n'' added') :
    n.Pays C clock n'' (added ++ added') := by
  refine ⟨h.ticks.trans h'.ticks, by rw [h'.chain, h.chain, List.append_assoc], ?_⟩
  intro db hdb
  obtain ⟨db', hdb', hutxos⟩ := h.utxos db hdb
  obtain ⟨db'', hdb'', hutxos'⟩ := h'.utxos db' hdb'
  refine ⟨db'', hdb'', ?_⟩
  rw [List.flatMap_append]
  exact applyTransactions_append (applyTransactions_mono hutxos (hclock h'.ticks)) hutxos'

variable (C fl) in
theorem Node.pays_acceptBlock (hclock : Monotone clock) {n : Node} {db : Db} (hdb : n.db = some db)
    (b : Block) : ∃ added, n.Pays C clock (n.acceptBlock C fl clock b).2 added := by
  obtain ⟨hticks, ⟨-, hchain, hdb'⟩ | ⟨-, -, happly, hticks', hchain, hdb'⟩⟩ :=
    Node.acceptBlock_cases C fl hclock hdb b
  · refine ⟨[], hticks, by rw [hchain, List.append_nil], ?_⟩
    intro d hd
    rw [hdb] at hd
    cases hd
    exact ⟨db, hdb', rfl⟩
  · refine ⟨[b], hticks, hchain, ?_⟩
    intro d hd
    rw [hdb] at hd
    cases hd
    refine ⟨_, hdb', ?_⟩
    rw [List.flatMap_cons, List.flatMap_nil, List.append_nil]
    exact applyTransactions_mono (applyBlock_eq_true happly).1 (hclock hticks')

variable (C fl) in
theorem Node.pays_acceptBlocks (hclock : Monotone clock) {blocks : List Block} {n : Node} {db : Db}
    (hdb : n.db = some db) : ∃ added, n.Pays C clock (n.acceptBlocks C fl clock blocks).2 added := by
  induction blocks generalizing n db with
  | nil => exact ⟨[], .refl C clock n⟩
  | cons b rest ih =>
    obtain ⟨added, hb⟩ := n.pays_acceptBlock C fl hclock hdb b
    rw [Node.acceptBlocks]
    split_ifs
    · obtain ⟨db', hdb', -⟩ := hb.utxos db hdb
      obtain ⟨added', hrest⟩ := ih hdb'
      exact ⟨_, hb.trans hclock hrest⟩
    · exact ⟨added, hb⟩

end Pays

/-- **One event** of a node with a database. -/
theorem MermaiNode.pays_react {σ : Setup F} (hclock : Monotone σ.clock) {s : MermaiNode F} {db : Db}
    (hdb : s.node.db = some db) (e : MermaiNode.Event) :
    ∃ added, s.node.Pays σ.crypto σ.clock (s.react σ e).1.node added := by
  obtain ⟨n, blocks, hn, -, hframe⟩ := MermaiNode.react_ledger σ hdb e
  have hbefore := hn.pays σ.crypto σ.clock
  obtain ⟨db', hdb', -⟩ := hn.db db hdb
  obtain ⟨added, hadded⟩ := n.pays_acceptBlocks σ.crypto σ.floats.toFloatOps hclock hdb'
  exact ⟨_, (hbefore.trans hclock hadded).trans hclock (hframe.pays σ.crypto σ.clock)⟩

/-! ## Runs -/

section Runs

variable [DecidableEq ι] {σ : ι → Setup F} {start : ι → MermaiNode F}

/-- **Run**: what lies between two moments of a run, for any node. -/
theorem pays_network (hclock : ∀ i, Monotone (σ i).clock) (hdb : ∀ i, ∃ db, (start i).node.db = some db)
    {pre later : Acts ι} (hpre : pre <+: later) (i : ι) :
    (∃ db, ((networkRun σ start pre).state i).node.db = some db) ∧
      ∃ added, ((networkRun σ start pre).state i).node.Pays (σ i).crypto (σ i).clock
        ((networkRun σ start later).state i).node added := by
  have hstep : ∀ (acts : Acts ι) (a : ι × MermaiNode.Event),
      (∃ db, ((networkRun σ start acts).state i).node.db = some db) →
      ∃ added, ((networkRun σ start acts).state i).node.Pays (σ i).crypto (σ i).clock
        ((networkRun σ start (acts ++ [a])).state i).node added := by
    rintro acts ⟨j, e⟩ ⟨db, hacts⟩
    rw [networkRun_concat]
    by_cases hi : i = j
    · subst hi
      rw [Network.Protocol.step_state_self]
      exact MermaiNode.pays_react (hclock i) hacts e
    · rw [Network.Protocol.step_state_ne _ hi]
      exact ⟨[], .refl _ _ _⟩
  have hsome : ∀ acts : Acts ι, ∃ db, ((networkRun σ start acts).state i).node.db = some db := by
    intro acts
    induction acts using List.reverseRecOn with
    | nil => exact hdb i
    | append_singleton acts a ih =>
      obtain ⟨db, hacts⟩ := ih
      obtain ⟨added, hadded⟩ := hstep acts a ⟨db, hacts⟩
      obtain ⟨db', hdb', -⟩ := hadded.utxos db hacts
      exact ⟨db', hdb'⟩
  refine ⟨hsome pre, ?_⟩
  obtain ⟨rest, rfl⟩ := hpre
  induction rest using List.reverseRecOn with
  | nil =>
    rw [List.append_nil]
    exact ⟨[], .refl _ _ _⟩
  | append_singleton rest a ih =>
    obtain ⟨added, hadded⟩ := ih
    obtain ⟨added', hadded'⟩ := hstep (pre ++ rest) a (hsome _)
    rw [← List.append_assoc]
    exact ⟨_, hadded.trans (hclock i) hadded'⟩

end Runs

/-- **Coins are accounted for**: on nodes with databases and clocks that do not run back, whatever arrives in
whatever order and whoever made it up, the chain of a node gains blocks between two moments; the sum of its
outputs falls by their fees and rises by what their transactions without inputs create; and an output that is
gone or changed was named by an input of one of these blocks that carries the key of its address and is
signed with it. -/
theorem coins_accounted [DecidableEq ι] (σ : ι → Setup F) (start : ι → MermaiNode F)
    (hclock : ∀ i, Monotone (σ i).clock) (hdb : ∀ i, ∃ db, (start i).node.db = some db)
    (pre later : Acts ι) (hpre : pre <+: later) (i : ι) :
    ∃ db db' added, ((networkRun σ start pre).state i).node.db = some db ∧
      ((networkRun σ start later).state i).node.db = some db' ∧
      chainAfter σ start later i = chainAfter σ start pre i ++ added ∧
      totalAmount db'.utxos + feesPaid (added.flatMap Block.transactions) =
        totalAmount db.utxos + minted (added.flatMap Block.transactions) ∧
      ∀ k u, db.utxos.lookup k = some u → db'.utxos.lookup k ≠ some u →
        ∃ b ∈ added, ∃ tx ∈ b.transactions, ∃ input ∈ tx.inputs, input.key = k ∧
          addressFromPublicKey (σ i).crypto input.publicKey = u.address ∧
          (σ i).crypto.digestVerify input.publicKey tx.unsignedPayload input.signature = true := by
  obtain ⟨⟨db, hdb⟩, added, hpays⟩ := pays_network hclock hdb hpre i
  obtain ⟨db', hdb', hutxos⟩ := hpays.utxos db hdb
  refine ⟨db, db', added, hdb, hdb', hpays.chain, applyTransactions_total hutxos, ?_⟩
  intro k u hk hgone
  obtain ⟨tx, htx, input, hinput, hkey, haddress, hsigned⟩ := applyTransactions_owner hutxos hk hgone
  obtain ⟨b, hb, htx⟩ := List.mem_flatMap.mp htx
  simp only [inputSigned, Bool.decide_and, Bool.and_eq_true, decide_eq_true_eq] at hsigned
  exact ⟨b, hb, tx, htx, input, hinput, hkey, haddress, hsigned.2.2.2⟩

/-! ## Two payments -/

/-- A setup whose clock is past the blocks of the payments. -/
def paymentSetup : Setup ℚ := { sampleSetup with clock := (1700000000 + ·) }

/-- A new node with one output. -/
def fundedNode : MermaiNode ℚ := { node := freshNode fundedDb none none }

/-- One node gets the payments block by block, with a repetition; the other gets the second only. -/
def paymentActs : Acts Bool :=
  [(false, .received 0 .incoming (blockMessage firstTransfer)),
    (true, .received 0 .incoming (blockMessage (secondTransfer [98]))),
    (false, .received 0 .connected (blockMessage firstTransfer)),
    (false, .received 0 .connected (blockMessage (secondTransfer [98])))]

/-- The output of 100 pays two fees of 10. -/
theorem coins_accounted_sample :
    chainAfter (fun _ => paymentSetup) (fun _ => fundedNode) paymentActs false =
        [genesis, firstTransfer, secondTransfer [98]] ∧
      ∃ db, ((networkRun (fun _ => paymentSetup) (fun _ => fundedNode) paymentActs).state false).node.db =
        some db ∧ totalAmount db.utxos = 80 := by
  have hclock : Monotone fun n : ℕ => 1700000000 + n := fun _ _ h => Nat.add_le_add_left h _
  have hchain : chainAfter (fun _ => paymentSetup) (fun _ => fundedNode) paymentActs false =
      [genesis, firstTransfer, secondTransfer [98]] := by decide +kernel
  obtain ⟨db, db', added, hdb, hdb', hadded, hsum, -⟩ := coins_accounted (fun _ : Bool => paymentSetup)
    (fun _ => fundedNode) (fun _ => hclock) (fun _ => ⟨_, rfl⟩) [] paymentActs (List.nil_prefix) false
  have hstart : chainAfter (fun _ : Bool => paymentSetup) (fun _ => fundedNode) [] false = [genesis] := rfl
  have hblocks : added = [firstTransfer, secondTransfer [98]] := by
    rw [hchain, hstart] at hadded
    exact (List.cons.inj hadded).2.symm
  have hfees : feesPaid ([firstTransfer, secondTransfer [98]].flatMap Block.transactions) = 20 := by
    decide +kernel
  have hminted : minted ([firstTransfer, secondTransfer [98]].flatMap Block.transactions) = 0 := by
    decide +kernel
  have hfunds : totalAmount fundedDb.utxos = 100 := by decide +kernel
  have hutxos : db.utxos = fundedDb.utxos := by rw [← Option.some.inj hdb]
  rw [hblocks, hfees, hminted, hutxos, hfunds] at hsum
  exact ⟨hchain, db', hdb', by omega⟩

end Mermai
