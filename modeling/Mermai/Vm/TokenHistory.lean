import Mermai.Vm.Token

/-!
# Vm.TokenHistory — what the history of a token says

The contract on total functions: a `TokenLedger` of balances and the supply, and `Accounts` with the
allowances and the events on top.  The maps of the contract, with the entries that its reads leave behind,
refine them call by call (`call_accounts`).

* `events_reconstruct`: the events applied to the empty ledger give the balances and the supply.
* `delegated_add_allowance`: what a spender has moved and what it may still move add up to what the owner
  approved last.
* `spent_with_consent`: with the supply below 2⁶⁴, a balance goes down only in a call of its holder or of a
  spender.
-/

namespace Mermai

open StdMap

/-! ## Ledgers -/

/-- The balances and the supply. -/
structure TokenLedger where
  balance : Bytes → UInt64
  supply : UInt64

namespace TokenLedger

def empty : TokenLedger where
  balance _ := 0
  supply := 0

def credit (l : TokenLedger) (address : Bytes) (amount : UInt64) : TokenLedger :=
  { l with balance := Function.update l.balance address (l.balance address + amount) }

def debit (l : TokenLedger) (address : Bytes) (amount : UInt64) : TokenLedger :=
  { l with balance := Function.update l.balance address (l.balance address - amount) }

def move (l : TokenLedger) (sender recipient : Bytes) (amount : UInt64) : TokenLedger :=
  (l.debit sender amount).credit recipient amount

def mint (l : TokenLedger) (recipient : Bytes) (amount : UInt64) : TokenLedger :=
  { l.credit recipient amount with supply := l.supply + amount }

def burn (l : TokenLedger) (holder : Bytes) (amount : UInt64) : TokenLedger :=
  { l.debit holder amount with supply := l.supply - amount }

/-- What an event says about the ledger; the constructor logs a transfer without a sender. -/
def apply (l : TokenLedger) (e : TokenEvent) : TokenLedger :=
  match e.eventType with
  | .transfer =>
    if e.sender = [] then l.mint e.recipient e.value else l.move e.sender e.recipient e.value
  | .mint => l.mint e.recipient e.value
  | .burn => l.burn e.sender e.value
  | .approval => l

end TokenLedger

/-! ## Accounts -/

/-- What the contract shows: the ledger, the allowances and the events. -/
structure Accounts extends TokenLedger where
  allowance : Bytes → Bytes → UInt64
  events : List TokenEvent

namespace Accounts

def setAllowance (v : Accounts) (owner spender : Bytes) (amount : UInt64) : Accounts :=
  { v with
    allowance := Function.update v.allowance owner
      (Function.update (v.allowance owner) spender amount) }

/-- A change of the ledger and its event. -/
def book (v : Accounts) (l : TokenLedger) (e : TokenEvent) : Accounts :=
  { v with toTokenLedger := l, events := v.events ++ [e] }

/-- The contract of an owner, on total functions. -/
def call (owner : Bytes) (v : Accounts) : TokenCall → Bool × Accounts
  | .transfer caller recipient amount =>
    if caller = [] ∨ recipient = [] ∨ v.balance caller < amount then (false, v)
    else (true, v.book (v.move caller recipient amount) ⟨.transfer, caller, recipient, amount⟩)
  | .approve caller spender amount =>
    if caller = [] ∨ spender = [] then (false, v)
    else (true, (v.setAllowance caller spender amount).book v.toTokenLedger
      ⟨.approval, caller, spender, amount⟩)
  | .transferFrom spender sender recipient amount =>
    if spender = [] ∨ sender = [] ∨ recipient = [] ∨ v.balance sender < amount ∨
        v.allowance sender spender < amount then (false, v)
    else (true, (v.setAllowance sender spender (v.allowance sender spender - amount)).book
      (v.move sender recipient amount) ⟨.transfer, sender, recipient, amount⟩)
  | .mint caller recipient amount =>
    if caller ≠ owner ∨ recipient = [] then (false, v)
    else (true, v.book (v.mint recipient amount) ⟨.mint, [], recipient, amount⟩)
  | .burn caller amount =>
    if v.balance caller < amount then (false, v)
    else (true, v.book (v.burn caller amount) ⟨.burn, caller, [], amount⟩)

end Accounts

namespace Token

/-- The contract as accounts. -/
def accounts (t : Token) : Accounts where
  balance := t.balanceOf
  supply := t.totalSupply
  allowance := t.allowance
  events := t.eventLogs

theorem accounts_readBalance (t : Token) (address : Bytes) :
    (t.readBalance address).accounts = t.accounts := by
  have hbalance : (t.readBalance address).balanceOf = t.balanceOf := valueAt_subscript _ _
  simp only [accounts, hbalance]
  rfl

theorem balanceOf_setBalance (t : Token) (address : Bytes) (amount : UInt64) :
    (t.setBalance address amount).balanceOf = Function.update t.balanceOf address amount :=
  valueAt_insert _ _ _

theorem allowancesOf_insert (t : Token) (owner : Bytes) (m : Sql.Table Bytes UInt64) :
    Token.allowancesOf { t with allowances := t.allowances.insert owner m } =
      Function.update t.allowancesOf owner m := by
  funext owner'
  by_cases h : owner' = owner
  · rw [h, Function.update_self, allowancesOf, AList.lookup_insert, Option.getD_some]
  · rw [Function.update_of_ne h, allowancesOf, AList.lookup_insert_ne h, ← allowancesOf]

theorem allowance_setAllowance (t : Token) (owner spender : Bytes) (amount : UInt64) :
    (t.setAllowance owner spender amount).allowance = Function.update t.allowance owner
      (Function.update (t.allowance owner) spender amount) := by
  funext owner'
  show valueAt ((t.setAllowance owner spender amount).allowancesOf owner') = _
  rw [setAllowance, allowancesOf_insert]
  by_cases h : owner' = owner
  · rw [h, Function.update_self, Function.update_self, valueAt_insert]
    rfl
  · rw [Function.update_of_ne h, Function.update_of_ne h]
    rfl

theorem accounts_readAllowance (t : Token) (owner spender : Bytes) :
    (t.readAllowance owner spender).accounts = t.accounts := by
  have hallowance : (t.readAllowance owner spender).allowance = t.allowance := by
    funext owner'
    show valueAt ((t.readAllowance owner spender).allowancesOf owner') = _
    rw [readAllowance, allowancesOf_insert]
    by_cases h : owner' = owner
    · rw [h, Function.update_self, valueAt_subscript]
      rfl
    · rw [Function.update_of_ne h]
      rfl
  simp only [accounts, hallowance]
  rfl

theorem accounts_setAllowance (t : Token) (owner spender : Bytes) (amount : UInt64) :
    (t.setAllowance owner spender amount).accounts =
      t.accounts.setAllowance owner spender amount := by
  simp only [accounts, Accounts.setAllowance, allowance_setAllowance]
  rfl

theorem balanceOf_move (t : Token) (sender recipient : Bytes) (amount : UInt64) :
    (t.move sender recipient amount).balanceOf =
      (t.accounts.move sender recipient amount).balance := by
  simp only [move, balanceOf_setBalance]
  rfl

theorem accounts_move_log (t : Token) (sender recipient : Bytes) (amount : UInt64) (e : TokenEvent) :
    ((t.move sender recipient amount).log e).accounts =
      t.accounts.book (t.accounts.move sender recipient amount) e := by
  have hbalance : ((t.move sender recipient amount).log e).balanceOf =
      (t.accounts.move sender recipient amount).balance := balanceOf_move t sender recipient amount
  simp only [accounts, hbalance]
  rfl

/-- **Refinement**: a call of the contract is the call on its accounts. -/
theorem call_accounts (t : Token) (c : TokenCall) :
    (t.call c).map id accounts = t.accounts.call t.owner c := by
  cases c with
  | transfer caller recipient amount =>
    have hread := accounts_readBalance t caller
    have hbalance : (t.readBalance caller).balanceOf caller = t.accounts.balance caller :=
      congrFun (congrArg (fun v : Accounts => v.balance) hread) caller
    simp only [call, transfer, Accounts.call, hbalance]
    by_cases hempty : caller = [] ∨ recipient = []
    · have hany : caller = [] ∨ recipient = [] ∨ t.accounts.balance caller < amount := by tauto
      rw [if_pos hempty, if_pos hany]
      rfl
    rw [if_neg hempty]
    by_cases hfew : t.accounts.balance caller < amount
    · rw [if_pos hfew, if_pos (.inr (.inr hfew)), Prod.map_apply, hread]
      rfl
    · rw [if_neg hfew, if_neg (by tauto), Prod.map_apply, accounts_move_log, hread]
      rfl
  | approve caller spender amount =>
    simp only [call, approve, Accounts.call]
    by_cases hempty : caller = [] ∨ spender = []
    · rw [if_pos hempty, if_pos hempty]
      rfl
    · rw [if_neg hempty, if_neg hempty]
      show (true, Token.accounts _) = _
      rw [← accounts_setAllowance]
      rfl
  | transferFrom spender sender recipient amount =>
    have hread := accounts_readBalance t sender
    have hbalance : (t.readBalance sender).balanceOf sender = t.accounts.balance sender :=
      congrFun (congrArg (fun v : Accounts => v.balance) hread) sender
    have hread' := (accounts_readAllowance (t.readBalance sender) sender spender).trans hread
    have hallowance : ((t.readBalance sender).readAllowance sender spender).allowance sender spender =
        t.accounts.allowance sender spender :=
      congrFun (congrFun (congrArg Accounts.allowance hread') sender) spender
    simp only [call, transferFrom, Accounts.call, hbalance, hallowance]
    by_cases hempty : spender = [] ∨ sender = [] ∨ recipient = []
    · rw [if_pos hempty, if_pos (by tauto)]
      rfl
    rw [if_neg hempty]
    by_cases hfew : t.accounts.balance sender < amount
    · rw [if_pos hfew, if_pos (by tauto), Prod.map_apply, hread]
      rfl
    rw [if_neg hfew]
    by_cases hless : t.accounts.allowance sender spender < amount
    · rw [if_pos hless, if_pos (by tauto), Prod.map_apply, hread']
      rfl
    · rw [if_neg hless, if_neg (by tauto), Prod.map_apply, accounts_move_log, accounts_setAllowance,
        hread']
      rfl
  | mint caller recipient amount =>
    simp only [call, mint, Accounts.call]
    by_cases hrefused : caller ≠ t.owner ∨ recipient = []
    · rw [if_pos hrefused, if_pos hrefused]
      rfl
    · rw [if_neg hrefused, if_neg hrefused, Prod.map_apply]
      have hbalance := balanceOf_setBalance t recipient (t.balanceOf recipient + amount)
      exact congrArg (fun balance => (true, Accounts.mk ⟨balance, t.totalSupply + amount⟩ t.allowance
        (t.eventLogs ++ [⟨.mint, [], recipient, amount⟩]))) hbalance
  | burn caller amount =>
    have hread := accounts_readBalance t caller
    have hbalance : (t.readBalance caller).balanceOf caller = t.accounts.balance caller :=
      congrFun (congrArg (fun v : Accounts => v.balance) hread) caller
    simp only [call, burn, Accounts.call, hbalance]
    by_cases hfew : t.accounts.balance caller < amount
    · rw [if_pos hfew, if_pos hfew, Prod.map_apply, hread]
      rfl
    · rw [if_neg hfew, if_neg hfew, Prod.map_apply]
      have hdebit := balanceOf_setBalance (t.readBalance caller) caller
        (t.accounts.balance caller - amount)
      have hold : (t.readBalance caller).balanceOf = t.balanceOf := valueAt_subscript _ _
      rw [hold] at hdebit
      exact congrArg (fun balance => (true, Accounts.mk ⟨balance, t.totalSupply - amount⟩ t.allowance
        (t.eventLogs ++ [⟨.burn, caller, [], amount⟩]))) hdebit

/-- The answer and the accounts after a call. -/
theorem call_eq (t : Token) (c : TokenCall) :
    (t.call c).1 = (t.accounts.call t.owner c).1 ∧
    (t.call c).2.accounts = (t.accounts.call t.owner c).2 := by
  rw [← call_accounts]
  exact ⟨rfl, rfl⟩

end Token

/-! ## Events -/

/-- **A call logs its effect**: the new events, applied to the ledger, give the ledger after the call. -/
theorem Accounts.call_events (owner : Bytes) (v : Accounts) (c : TokenCall) :
    ∃ new, (v.call owner c).2.events = v.events ++ new ∧
      (v.call owner c).2.toTokenLedger = new.foldl TokenLedger.apply v.toTokenLedger := by
  have hrefused : ∃ new, v.events = v.events ++ new ∧
      v.toTokenLedger = new.foldl TokenLedger.apply v.toTokenLedger :=
    ⟨[], (List.append_nil _).symm, rfl⟩
  cases c with
  | transfer caller recipient amount =>
    rw [Accounts.call]
    split_ifs with h
    · exact hrefused
    · refine ⟨_, rfl, ?_⟩
      have hcaller : caller ≠ [] := fun hempty => h (.inl hempty)
      simp [TokenLedger.apply, hcaller, book]
  | approve caller spender amount =>
    rw [Accounts.call]
    split_ifs
    · exact hrefused
    · exact ⟨_, rfl, rfl⟩
  | transferFrom spender sender recipient amount =>
    rw [Accounts.call]
    split_ifs with h
    · exact hrefused
    · refine ⟨_, rfl, ?_⟩
      have hsender : sender ≠ [] := fun hempty => h (.inr (.inl hempty))
      simp [TokenLedger.apply, hsender, book]
  | mint caller recipient amount =>
    rw [Accounts.call]
    split_ifs
    · exact hrefused
    · exact ⟨_, rfl, rfl⟩
  | burn caller amount =>
    rw [Accounts.call]
    split_ifs
    · exact hrefused
    · exact ⟨_, rfl, rfl⟩

namespace Token

/-- The events give the ledger. -/
def Logged (t : Token) : Prop :=
  t.accounts.toTokenLedger = t.eventLogs.foldl TokenLedger.apply TokenLedger.empty

theorem logged_create (name symbol : Bytes) (decimals : UInt8) (initialSupply : UInt64)
    {owner : Bytes} (howner : owner ≠ []) :
    (create name symbol decimals initialSupply owner).Logged := by
  unfold create Logged
  dsimp only
  split_ifs with h
  · have hbalance := valueAt_insert (∅ : Sql.Table Bytes UInt64) owner initialSupply
    simp only [accounts, List.foldl_cons, List.foldl_nil, TokenLedger.apply, if_true, TokenLedger.mint,
      TokenLedger.credit, TokenLedger.empty, zero_add]
    exact congrArg (fun balance => TokenLedger.mk balance initialSupply) hbalance
  · rw [eq_zero_of_not_credited howner h]
    rfl

theorem Logged.call {t : Token} (h : t.Logged) (c : TokenCall) : (t.call c).2.Logged := by
  obtain ⟨new, hevents, hledger⟩ := Accounts.call_events t.owner t.accounts c
  rw [← (call_eq t c).2] at hevents hledger
  have hlogs : (t.call c).2.eventLogs = t.eventLogs ++ new := hevents
  rw [Logged, hledger, hlogs, List.foldl_append, ← h]

/-- **The event log reconstructs the token**: over every run of calls, the events applied in order to an
empty ledger give the balance of every address and the total supply. -/
theorem events_reconstruct (name symbol : Bytes) (decimals : UInt8) (initialSupply : UInt64)
    (owner : Bytes) (howner : owner ≠ []) (calls : List TokenCall) :
    let t := (create name symbol decimals initialSupply owner).run calls
    let rebuilt := t.eventLogs.foldl TokenLedger.apply TokenLedger.empty
    (∀ address, rebuilt.balance address = t.balanceOf address) ∧ rebuilt.supply = t.totalSupply := by
  intro t rebuilt
  have hlogged : t.Logged := Run.foldl_invariant Logged
    (logged_create name symbol decimals initialSupply howner) (fun _ c _ hinv => Logged.call hinv c)
    List.prefix_rfl
  have hrebuilt : rebuilt = t.accounts.toTokenLedger := hlogged.symm
  rw [hrebuilt]
  exact ⟨fun _ => rfl, rfl⟩

theorem events_reconstruct_small :
    let t := (create [] [] 18 10 [97]).run smallCalls
    let rebuilt := t.eventLogs.foldl TokenLedger.apply TokenLedger.empty
    (∀ address, rebuilt.balance address = t.balanceOf address) ∧ rebuilt.supply = t.totalSupply :=
  events_reconstruct [] [] 18 10 [97] (List.cons_ne_nil 97 []) smallCalls

end Token

/-! ## Allowances -/

/-- A call in the account of what an owner approved last for a spender, and what the spender has moved
since. -/
def delegate (owner spender : Bytes) (d : ℕ × ℕ) : TokenCall × Bool → ℕ × ℕ
  | (.approve caller approved amount, true) =>
    if caller = owner ∧ approved = spender then (amount.toNat, 0) else d
  | (.transferFrom mover sender _ amount, true) =>
    if sender = owner ∧ mover = spender then (d.1, d.2 + amount.toNat) else d
  | _ => d

/-- The amount of the last accepted `approve`, zero without one, and the total of the accepted
`transfer_from` calls behind it. -/
def delegated (owner spender : Bytes) (log : List (TokenCall × Bool)) : ℕ × ℕ :=
  log.foldl (delegate owner spender) (0, 0)

namespace Accounts

theorem allowance_setAllowance (v : Accounts) (owner spender owner' spender' : Bytes)
    (amount : UInt64) : (v.setAllowance owner spender amount).allowance owner' spender' =
      if owner = owner' ∧ spender = spender' then amount else v.allowance owner' spender' := by
  simp only [setAllowance, Function.update_apply]
  by_cases howner : owner = owner'
  · subst howner
    by_cases hspender : spender = spender'
    · simp [hspender]
    · simp [hspender, Ne.symm hspender]
  · simp [howner, Ne.symm howner]

/-- **A call keeps the account of an allowance**: moved and left over make up the approved amount. -/
theorem call_delegate (contractOwner : Bytes) (v : Accounts) (c : TokenCall) (owner spender : Bytes)
    (d : ℕ × ℕ) (h : d.2 + (v.allowance owner spender).toNat = d.1) :
    (delegate owner spender d (c, (v.call contractOwner c).1)).2 +
        ((v.call contractOwner c).2.allowance owner spender).toNat =
      (delegate owner spender d (c, (v.call contractOwner c).1)).1 := by
  cases c with
  | transfer | mint | burn =>
    rw [call]
    split_ifs <;> exact h
  | approve caller approved amount =>
    rw [call]
    split_ifs
    · exact h
    · simp only [delegate, book, allowance_setAllowance]
      split_ifs
      · exact Nat.zero_add _
      · exact h
  | transferFrom mover sender recipient amount =>
    rw [call]
    split_ifs with hrefused
    · exact h
    · simp only [delegate, book, allowance_setAllowance]
      split_ifs with hpair
      · obtain ⟨rfl, rfl⟩ := hpair
        have hcover : ¬ v.allowance sender mover < amount := by tauto
        have hle : amount.toNat ≤ (v.allowance sender mover).toNat := by
          rwa [UInt64.lt_iff_toNat_lt, not_lt] at hcover
        rw [Token.toNat_sub hcover]
        omega
      · exact h

/-- A refused call changes nothing. -/
theorem call_refused {owner : Bytes} {v : Accounts} {c : TokenCall} (h : (v.call owner c).1 = false) :
    (v.call owner c).2 = v := by
  cases c with
  | transfer | approve | transferFrom | mint | burn =>
    rw [call] at h ⊢
    split_ifs at h ⊢
    rfl

end Accounts

/-! ## Consent -/

/-- A call by which the holder of a balance, or a spender it approved, gives some of it away. -/
def TokenCall.Spends (holder : Bytes) : TokenCall → Prop
  | .transfer caller _ _ => caller = holder
  | .transferFrom _ sender _ _ => sender = holder
  | .burn caller _ => caller = holder
  | _ => False

theorem TokenLedger.le_credit {l : TokenLedger} {recipient : Bytes} {amount : UInt64}
    (hfits : (l.balance recipient).toNat + amount.toNat < 2 ^ 64) (address : Bytes) :
    l.balance address ≤ (l.credit recipient amount).balance address := by
  simp only [credit, Function.update_apply]
  split_ifs with h
  · subst h
    rw [UInt64.le_iff_toNat_le, UInt64.toNat_add, Nat.mod_eq_of_lt hfits]
    exact Nat.le_add_right _ _
  · exact UInt64.le_refl _

/-- A payment takes from its sender only. -/
theorem TokenLedger.le_move {l : TokenLedger} {sender recipient : Bytes} {amount : UInt64}
    (hfits : ((l.debit sender amount).balance recipient).toNat + amount.toNat < 2 ^ 64)
    {address : Bytes} (hne : sender ≠ address) :
    l.balance address ≤ (l.move sender recipient amount).balance address := by
  have hdebit : (l.debit sender amount).balance address = l.balance address :=
    Function.update_of_ne (Ne.symm hne) _ _
  rw [← hdebit]
  exact le_credit hfits address

/-- **Consent**: where no credit wraps, a balance goes down in an accepted call that spends it. -/
theorem Accounts.call_consent {owner : Bytes} {v : Accounts} {c : TokenCall}
    (hmove : ∀ sender recipient amount, ¬ v.balance sender < amount →
      ((v.debit sender amount).balance recipient).toNat + amount.toNat < 2 ^ 64)
    (hmint : ∀ recipient amount, c = .mint owner recipient amount → recipient ≠ [] →
      (v.balance recipient).toNat + amount.toNat < 2 ^ 64) {holder : Bytes}
    (hless : (v.call owner c).2.balance holder < v.balance holder) :
    (v.call owner c).1 = true ∧ c.Spends holder := by
  cases hanswer : (v.call owner c).1 with
  | false =>
    rw [call_refused hanswer] at hless
    exact absurd hless (UInt64.lt_irrefl _)
  | true =>
    refine ⟨rfl, ?_⟩
    by_contra hother
    refine absurd hless (UInt64.not_lt.mpr ?_)
    cases c with
    | transfer caller recipient amount =>
      rw [call] at hanswer ⊢
      split_ifs at hanswer ⊢ with h
      exact TokenLedger.le_move (hmove caller recipient amount (by tauto)) hother
    | approve caller spender amount =>
      rw [call] at hanswer ⊢
      split_ifs at hanswer ⊢
      exact UInt64.le_refl _
    | transferFrom spender sender recipient amount =>
      rw [call] at hanswer ⊢
      split_ifs at hanswer ⊢ with h
      exact TokenLedger.le_move (hmove sender recipient amount (by tauto)) hother
    | mint caller recipient amount =>
      rw [call] at hanswer ⊢
      split_ifs at hanswer ⊢ with h
      rw [not_or, not_not] at h
      obtain ⟨rfl, hrecipient⟩ := h
      exact TokenLedger.le_credit (hmint recipient amount rfl hrecipient) holder
    | burn caller amount =>
      rw [call] at hanswer ⊢
      split_ifs at hanswer ⊢
      exact (UInt64.le_of_eq (Function.update_of_ne (Ne.symm hother) _ _).symm)

namespace Token

/-- The amounts of the accepted calls of `mint`. -/
def minted (log : List (TokenCall × Bool)) : ℕ :=
  (log.map fun
    | (.mint _ _ amount, true) => amount.toNat
    | _ => 0).sum

theorem minted_append (log log' : List (TokenCall × Bool)) :
    minted (log ++ log') = minted log + minted log' := by
  rw [minted, List.map_append, List.sum_append]
  rfl

theorem minted_mint {t : Token} {caller recipient : Bytes} (hcaller : caller = t.owner)
    (hrecipient : recipient ≠ []) (amount : UInt64) :
    minted [(.mint caller recipient amount, (t.call (.mint caller recipient amount)).1)] =
      amount.toNat := by
  have haccepted : (t.call (.mint caller recipient amount)).1 = true := by
    simp only [call, mint]
    rw [if_neg (by tauto)]
  rw [haccepted]
  simp [minted]

/-- A covered payment fits, also to the sender itself. -/
theorem Conserved.move_fits {t : Token} (h : t.Conserved) (sender recipient : Bytes) (amount : UInt64)
    (hcover : ¬ t.balanceOf sender < amount) :
    ((t.accounts.debit sender amount).balance recipient).toNat + amount.toNat < 2 ^ 64 := by
  have hout := sumBalances_setBalance t sender (t.balanceOf sender - amount)
  have hle := balanceOf_le (t.setBalance sender (t.balanceOf sender - amount)) recipient
  rw [balanceOf_setBalance] at hle
  rw [toNat_sub hcover] at hout
  rw [UInt64.lt_iff_toNat_lt, not_lt] at hcover
  have hsum : t.sumBalances = t.totalSupply.toNat := h
  have hlt := t.totalSupply.toNat_lt
  show (Function.update t.balanceOf sender (t.balanceOf sender - amount) recipient).toNat + _ < _
  omega

/-- What a call adds to the supply is what it mints. -/
theorem totalSupply_call (t : Token) (c : TokenCall) (hconserved : t.Conserved)
    (hfits : t.totalSupply.toNat + minted [(c, (t.call c).1)] < 2 ^ 64) :
    (t.call c).2.totalSupply.toNat ≤ t.totalSupply.toNat + minted [(c, (t.call c).1)] := by
  obtain ⟨hanswer, haccounts⟩ := call_eq t c
  have hsupply : (t.call c).2.totalSupply = (t.accounts.call t.owner c).2.supply :=
    congrArg (fun v : Accounts => v.supply) haccounts
  rw [hanswer] at hfits ⊢
  rw [hsupply]
  cases c with
  | transfer | approve | transferFrom =>
    rw [Accounts.call]
    split_ifs <;> exact Nat.le_add_right _ _
  | mint caller recipient amount =>
    rw [Accounts.call] at hfits ⊢
    split_ifs at hfits ⊢ with hrefused
    · exact Nat.le_add_right _ _
    · have hone : minted [(.mint caller recipient amount, true)] = amount.toNat := by simp [minted]
      rw [hone] at hfits ⊢
      show (t.totalSupply + amount).toNat ≤ _
      rw [UInt64.toNat_add, Nat.mod_eq_of_lt hfits]
  | burn caller amount =>
    rw [Accounts.call]
    split_ifs with hfew
    · exact Nat.le_add_right _ _
    · have hcover : amount.toNat ≤ (t.balanceOf caller).toNat := by
        rwa [← not_lt, ← UInt64.lt_iff_toNat_lt]
      have hle := balanceOf_le t caller
      have hsum : t.sumBalances = t.totalSupply.toNat := hconserved
      show (t.totalSupply - amount).toNat ≤ _
      rw [UInt64.toNat_sub_of_le _ _ (UInt64.le_iff_toNat_le.mpr (by omega))]
      omega

/-- What a spender has moved and what it may still move add up to the last approval. -/
theorem delegated_add_allowance (name symbol : Bytes) (decimals : UInt8) (initialSupply : UInt64)
    (owner : Bytes) (calls : List TokenCall) (holder spender : Bytes) :
    let t₀ := create name symbol decimals initialSupply owner
    (delegated holder spender (Run.log call t₀ calls)).2 +
        ((t₀.run calls).allowance holder spender).toNat =
      (delegated holder spender (Run.log call t₀ calls)).1 := by
  intro t₀
  induction calls using List.reverseRecOn with
  | nil =>
    have hnone : t₀.allowance holder spender = 0 := by
      show (create name symbol decimals initialSupply owner).allowance holder spender = 0
      rw [create]
      dsimp only
      split_ifs <;> rfl
    show 0 + (t₀.allowance holder spender).toNat = 0
    rw [hnone]
    rfl
  | append_singleton calls c ih =>
    obtain ⟨hanswer, haccounts⟩ := call_eq (t₀.run calls) c
    have hrun : t₀.run (calls ++ [c]) = ((t₀.run calls).call c).2 := List.foldl_concat ..
    have hallowance : ((t₀.run calls).call c).2.allowance =
        ((t₀.run calls).accounts.call (t₀.run calls).owner c).2.allowance :=
      congrArg Accounts.allowance haccounts
    have hlog : delegated holder spender (Run.log call t₀ (calls ++ [c])) =
        delegate holder spender (delegated holder spender (Run.log call t₀ calls))
          (c, ((t₀.run calls).call c).1) := by
      rw [Run.log_concat, delegated, List.foldl_concat]
      rfl
    rw [hlog, hrun, hallowance, hanswer]
    exact Accounts.call_delegate _ _ c holder spender _ ih

section History

variable (name symbol : Bytes) (decimals : UInt8) (initialSupply : UInt64) {owner : Bytes}
  (howner : owner ≠ [])

include howner

/-- A run within 64 bits keeps the sum of the balances and the supply together. -/
theorem conserved_run {calls : List TokenCall}
    (hbound : initialSupply.toNat +
      minted (Run.log call (create name symbol decimals initialSupply owner) calls) < 2 ^ 64) :
    ((create name symbol decimals initialSupply owner).run calls).Conserved ∧
    ((create name symbol decimals initialSupply owner).run calls).totalSupply.toNat ≤
      initialSupply.toNat +
        minted (Run.log call (create name symbol decimals initialSupply owner) calls) := by
  set t₀ := create name symbol decimals initialSupply owner with ht₀
  induction calls using List.reverseRecOn with
  | nil =>
    have hsupply : t₀.totalSupply = initialSupply := by
      rw [ht₀, create]
      dsimp only
      split_ifs <;> rfl
    refine ⟨conserved_create name symbol decimals initialSupply howner, ?_⟩
    show t₀.totalSupply.toNat ≤ _
    rw [hsupply]
    exact Nat.le_add_right _ _
  | append_singleton calls c ih =>
    rw [Run.log_concat, minted_append] at hbound ⊢
    change initialSupply.toNat + (minted _ + minted [(c, ((t₀.run calls).call c).1)]) < 2 ^ 64 at hbound
    obtain ⟨hconserved, hle⟩ := ih (by omega)
    have hnext := totalSupply_call (t₀.run calls) c hconserved (by omega)
    have hrun : t₀.run (calls ++ [c]) = ((t₀.run calls).call c).2 := List.foldl_concat ..
    rw [hrun]
    refine ⟨(hconserved.call_iff c).mpr ?_, ?_⟩
    · rintro caller recipient amount rfl hcaller hrecipient hwrap
      rw [minted_mint hcaller hrecipient] at hbound
      omega
    · show _ ≤ initialSupply.toNat + (minted _ + minted [(c, ((t₀.run calls).call c).1)])
      omega

/-- **Balances go down with consent only**: in a run in which the initial supply and the minted amounts
stay below 2⁶⁴, a balance decreases only in a successful `transfer` or `burn` of its holder or a
`transfer_from` out of it; a failed call changes no balance, no allowance and not the supply; and at any
time what a spender has moved since the owner's last `approve` and what it may still move add up to the
approved amount. -/
theorem spent_with_consent (calls : List TokenCall)
    (hbound : initialSupply.toNat +
      minted (Run.log call (create name symbol decimals initialSupply owner) calls) < 2 ^ 64) :
    let t₀ := create name symbol decimals initialSupply owner
    (∀ done c, done ++ [c] <+: calls →
      let t := t₀.run done
      (∀ holder, (t.call c).2.balanceOf holder < t.balanceOf holder →
        (t.call c).1 = true ∧ c.Spends holder) ∧
      ((t.call c).1 = false → (t.call c).2.balanceOf = t.balanceOf ∧
        (t.call c).2.allowance = t.allowance ∧ (t.call c).2.totalSupply = t.totalSupply)) ∧
    ∀ done, done <+: calls → ∀ holder spender,
      (delegated holder spender (Run.log call t₀ done)).2 +
          ((t₀.run done).allowance holder spender).toNat =
        (delegated holder spender (Run.log call t₀ done)).1 := by
  intro t₀
  have hsum : ∀ done, done <+: calls →
      initialSupply.toNat + minted (Run.log call t₀ done) < 2 ^ 64 := by
    rintro done ⟨rest, rfl⟩
    rw [Run.log_append, minted_append] at hbound
    exact lt_of_le_of_lt (Nat.add_le_add_left (Nat.le_add_right _ _) _) hbound
  refine ⟨fun done c hpre => ?_, fun done hdone holder spender => ?_⟩
  · intro t
    obtain ⟨hconserved, hle⟩ := conserved_run name symbol decimals initialSupply howner
      (hsum done ((List.prefix_append done [c]).trans hpre))
    have hlast := hsum _ hpre
    rw [Run.log_concat, minted_append] at hlast
    change initialSupply.toNat + (minted _ + minted [(c, (t.call c).1)]) < 2 ^ 64 at hlast
    obtain ⟨hanswer, haccounts⟩ := call_eq t c
    refine ⟨fun holder hless => ?_, fun hfailed => ?_⟩
    · have hbalance : (t.call c).2.balanceOf = (t.accounts.call t.owner c).2.balance :=
        congrArg (fun v : Accounts => v.balance) haccounts
      rw [hbalance] at hless
      rw [hanswer]
      refine Accounts.call_consent (Conserved.move_fits hconserved) ?_ hless
      rintro recipient amount rfl hrecipient
      rw [minted_mint rfl hrecipient] at hlast
      have hbal := balanceOf_le t recipient
      have hsame : t.sumBalances = t.totalSupply.toNat := hconserved
      show (t.balanceOf recipient).toNat + amount.toNat < 2 ^ 64
      change t.totalSupply.toNat ≤ initialSupply.toNat + minted (Run.log call t₀ done) at hle
      omega
    · rw [hanswer] at hfailed
      rw [Accounts.call_refused hfailed] at haccounts
      exact ⟨congrArg (fun v : Accounts => v.balance) haccounts,
        congrArg Accounts.allowance haccounts, congrArg (fun v : Accounts => v.supply) haccounts⟩
  · exact delegated_add_allowance name symbol decimals initialSupply owner done holder spender

end History

/-- `a` approves 6 of its 10 for `b`, which moves 2 of them and then 4 more. -/
def delegatedCalls : List TokenCall :=
  [.approve [97] [98] 6, .transferFrom [98] [97] [99] 2, .transferFrom [98] [97] [98] 4]

theorem spent_with_consent_delegated :
    (delegated [97] [98] (Run.log call (create [] [] 18 10 [97]) delegatedCalls)).2 +
        (((create [] [] 18 10 [97]).run delegatedCalls).allowance [97] [98]).toNat = 6 :=
  ((spent_with_consent [] [] 18 10 (List.cons_ne_nil 97 []) delegatedCalls (by decide +kernel)).2
    delegatedCalls List.prefix_rfl [97] [98]).trans (by decide +kernel)

end Token

end Mermai
