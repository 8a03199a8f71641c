import Mermai.Lib.Run
import Mermai.Lib.StdMap
import Mermai.Core.Prims
import Mathlib.Data.UInt

/-!
# Vm.Token — the MRM-20 token contract

`mermai_token_contract`: balances and allowances in maps, and the total supply as a number of its own.
The sum of the balances is the total supply at the start and after every call but one kind: `mint` adds
to both without a look at the 64 bits.  `supply_conserved_iff` says over whole runs which calls of `mint`
keep the two equal.
-/

namespace Mermai

open Sql (Table)
open StdMap

/-! ## The contract -/

/-- `mermai_token_event::event_type`. -/
inductive TokenEventType
  | transfer | approval | mint | burn
deriving DecidableEq

/-- `mermai_token_event`. -/
structure TokenEvent where
  eventType : TokenEventType
  sender : Bytes
  recipient : Bytes
  value : UInt64

/-- `mermai_token_contract`. -/
structure Token where
  name : Bytes
  symbol : Bytes
  decimals : UInt8
  totalSupply : UInt64
  owner : Bytes
  balances : Table Bytes UInt64 := ∅
  allowances : Table Bytes (Table Bytes UInt64) := ∅
  eventLogs : List TokenEvent := []

namespace Token

/-- The constructor. -/
def create (name symbol : Bytes) (decimals : UInt8) (initialSupply : UInt64) (owner : Bytes) : Token :=
  let t : Token := { name, symbol, decimals, totalSupply := initialSupply, owner }
  if 0 < initialSupply ∧ owner ≠ [] then
    { t with balances := t.balances.insert owner initialSupply
             eventLogs := [⟨.transfer, [], owner, initialSupply⟩] }
  else t

/-- `balance_of`. -/
def balanceOf (t : Token) (address : Bytes) : UInt64 := valueAt t.balances address

/-- `allowances[owner]`, an empty map when there is none. -/
def allowancesOf (t : Token) (owner : Bytes) : Table Bytes UInt64 := (t.allowances.lookup owner).getD ∅

/-- `allowance`. -/
def allowance (t : Token) (owner spender : Bytes) : UInt64 := valueAt (t.allowancesOf owner) spender

/-- `event_logs.push_back`. -/
def log (t : Token) (e : TokenEvent) : Token := { t with eventLogs := t.eventLogs ++ [e] }

/-- A read of `balances[address]`. -/
def readBalance (t : Token) (address : Bytes) : Token :=
  { t with balances := subscript t.balances address }

/-- `balances[address] = amount`. -/
def setBalance (t : Token) (address : Bytes) (amount : UInt64) : Token :=
  { t with balances := t.balances.insert address amount }

/-- A read of `allowances[owner][spender]`. -/
def readAllowance (t : Token) (owner spender : Bytes) : Token :=
  { t with allowances := t.allowances.insert owner (subscript (t.allowancesOf owner) spender) }

/-- `allowances[owner][spender] = amount`. -/
def setAllowance (t : Token) (owner spender : Bytes) (amount : UInt64) : Token :=
  { t with allowances := t.allowances.insert owner ((t.allowancesOf owner).insert spender amount) }

/-- `balances[sender] -= amount; balances[recipient] += amount;`. -/
def move (t : Token) (sender recipient : Bytes) (amount : UInt64) : Token :=
  let t := t.setBalance sender (t.balanceOf sender - amount)
  t.setBalance recipient (t.balanceOf recipient + amount)

/-- `transfer`. -/
def transfer (t : Token) (caller recipient : Bytes) (amount : UInt64) : Bool × Token :=
  if caller = [] ∨ recipient = [] then (false, t)
  else
    let t := t.readBalance caller
    if t.balanceOf caller < amount then (false, t)
    else (true, (t.move caller recipient amount).log ⟨.transfer, caller, recipient, amount⟩)

/-- `approve`. -/
def approve (t : Token) (caller spender : Bytes) (amount : UInt64) : Bool × Token :=
  if caller = [] ∨ spender = [] then (false, t)
  else (true, (t.setAllowance caller spender amount).log ⟨.approval, caller, spender, amount⟩)

/-- `transfer_from`. -/
def transferFrom (t : Token) (spender sender recipient : Bytes) (amount : UInt64) : Bool × Token :=
  if spender = [] ∨ sender = [] ∨ recipient = [] then (false, t)
  else
    let t := t.readBalance sender
    if t.balanceOf sender < amount then (false, t)
    else
      let t := t.readAllowance sender spender
      if t.allowance sender spender < amount then (false, t)
      else
        let t := t.setAllowance sender spender (t.allowance sender spender - amount)
        (true, (t.move sender recipient amount).log ⟨.transfer, sender, recipient, amount⟩)

/-- `mint`. -/
def mint (t : Token) (caller recipient : Bytes) (amount : UInt64) : Bool × Token :=
  if caller ≠ t.owner ∨ recipient = [] then (false, t)
  else
    let t := { t with totalSupply := t.totalSupply + amount }
    (true, (t.setBalance recipient (t.balanceOf recipient + amount)).log
      ⟨.mint, [], recipient, amount⟩)

/-- `burn`. -/
def burn (t : Token) (caller : Bytes) (amount : UInt64) : Bool × Token :=
  let t := t.readBalance caller
  if t.balanceOf caller < amount then (false, t)
  else
    let t := t.setBalance caller (t.balanceOf caller - amount)
    (true, { t with totalSupply := t.totalSupply - amount }.log ⟨.burn, caller, [], amount⟩)

end Token

/-! ## Runs -/

/-- A call of the contract. -/
inductive TokenCall
  | transfer (caller recipient : Bytes) (amount : UInt64)
  | approve (caller spender : Bytes) (amount : UInt64)
  | transferFrom (spender sender recipient : Bytes) (amount : UInt64)
  | mint (caller recipient : Bytes) (amount : UInt64)
  | burn (caller : Bytes) (amount : UInt64)

namespace Token

def call (t : Token) : TokenCall → Bool × Token
  | .transfer caller recipient amount => t.transfer caller recipient amount
  | .approve caller spender amount => t.approve caller spender amount
  | .transferFrom spender sender recipient amount => t.transferFrom spender sender recipient amount
  | .mint caller recipient amount => t.mint caller recipient amount
  | .burn caller amount => t.burn caller amount

/-- The contract after a run of calls. -/
def run (t : Token) (calls : List TokenCall) : Token := calls.foldl (fun t c => (t.call c).2) t

/-- The exact sum of the balances. -/
def sumBalances (t : Token) : ℕ := Sql.total UInt64.toNat t.balances

/-- The sum of the balances is the total supply. -/
def Conserved (t : Token) : Prop := t.sumBalances = t.totalSupply.toNat

/-- Of an accepted `mint`: the total supply does not wrap, or it wraps together with the balance. -/
def MintFits (t : Token) (caller recipient : Bytes) (amount : UInt64) : Prop :=
  caller = t.owner → recipient ≠ [] → 2 ^ 64 ≤ t.totalSupply.toNat + amount.toNat →
    2 ^ 64 ≤ (t.balanceOf recipient).toNat + amount.toNat

/-! ## Sums -/

theorem toNat_sub {a b : UInt64} (h : ¬ a < b) : (a - b).toNat = a.toNat - b.toNat := by
  rw [UInt64.lt_iff_toNat_lt, not_lt] at h
  exact UInt64.toNat_sub_of_le _ _ (UInt64.le_iff_toNat_le.mpr h)

theorem balanceOf_le (t : Token) (address : Bytes) : (t.balanceOf address).toNat ≤ t.sumBalances :=
  valueAt_le_total rfl t.balances address

theorem sumBalances_setBalance (t : Token) (address : Bytes) (amount : UInt64) :
    (t.setBalance address amount).sumBalances + (t.balanceOf address).toNat =
      t.sumBalances + amount.toNat :=
  total_insert rfl t.balances address amount

theorem sumBalances_readBalance (t : Token) (address : Bytes) :
    (t.readBalance address).sumBalances = t.sumBalances :=
  total_subscript rfl t.balances address

/-! ## One call -/

theorem Conserved.readBalance {t : Token} (h : t.Conserved) (address : Bytes) :
    (t.readBalance address).Conserved := (sumBalances_readBalance t address).trans h

/-- A covered payment moves the sum nowhere, whether or not the two addresses differ. -/
theorem Conserved.move {t : Token} (h : t.Conserved) {sender : Bytes} {amount : UInt64}
    (hcover : ¬ t.balanceOf sender < amount) (recipient : Bytes) :
    (t.move sender recipient amount).Conserved := by
  have hsum : t.sumBalances = t.totalSupply.toNat := h
  have hlt := t.totalSupply.toNat_lt
  set t₁ := t.setBalance sender (t.balanceOf sender - amount) with ht₁
  have hout := sumBalances_setBalance t sender (t.balanceOf sender - amount)
  rw [← ht₁, toNat_sub hcover] at hout
  have hcover' : amount.toNat ≤ (t.balanceOf sender).toNat := by
    rwa [UInt64.lt_iff_toNat_lt, not_lt] at hcover
  have hin := sumBalances_setBalance t₁ recipient (t₁.balanceOf recipient + amount)
  have hle := balanceOf_le t₁ recipient
  have hle' := balanceOf_le t sender
  rw [UInt64.toNat_add, Nat.mod_eq_of_lt (by omega)] at hin
  show (t₁.setBalance recipient (t₁.balanceOf recipient + amount)).sumBalances =
    t.totalSupply.toNat
  omega

theorem Conserved.log {t : Token} (h : t.Conserved) (e : TokenEvent) : (t.log e).Conserved := h

theorem Conserved.transfer {t : Token} (h : t.Conserved) (caller recipient : Bytes)
    (amount : UInt64) : (t.transfer caller recipient amount).2.Conserved := by
  have hread := h.readBalance caller
  unfold Token.transfer
  dsimp only
  split_ifs with _ hcover
  · exact h
  · exact hread
  · exact (hread.move hcover recipient).log _

/-- The allowances are no part of the sum. -/
theorem Conserved.readAllowance {t : Token} (h : t.Conserved) (owner spender : Bytes) :
    (t.readAllowance owner spender).Conserved := h

theorem Conserved.setAllowance {t : Token} (h : t.Conserved) (owner spender : Bytes)
    (amount : UInt64) : (t.setAllowance owner spender amount).Conserved := h

theorem Conserved.approve {t : Token} (h : t.Conserved) (caller spender : Bytes) (amount : UInt64) :
    (t.approve caller spender amount).2.Conserved := by
  unfold Token.approve
  split_ifs
  · exact h
  · exact (h.setAllowance caller spender amount).log _

theorem Conserved.transferFrom {t : Token} (h : t.Conserved) (spender sender recipient : Bytes)
    (amount : UInt64) : (t.transferFrom spender sender recipient amount).2.Conserved := by
  have hread := h.readBalance sender
  have hallowed := hread.readAllowance sender spender
  unfold Token.transferFrom
  dsimp only
  split_ifs with _ hcover
  · exact h
  · exact hread
  · exact hallowed
  · exact ((hallowed.setAllowance sender spender _).move hcover recipient).log _

theorem Conserved.burn {t : Token} (h : t.Conserved) (caller : Bytes) (amount : UInt64) :
    (t.burn caller amount).2.Conserved := by
  set t₁ := t.readBalance caller with ht₁
  have hread : t₁.sumBalances = t.totalSupply.toNat := (sumBalances_readBalance t caller).trans h
  unfold Token.burn
  dsimp only
  split_ifs with h₁
  · exact hread
  · have hcover : ¬ t₁.balanceOf caller < amount := h₁
    have hout := sumBalances_setBalance t₁ caller (t₁.balanceOf caller - amount)
    have hle := balanceOf_le t₁ caller
    have hcover' : amount.toNat ≤ (t₁.balanceOf caller).toNat := by
      rwa [UInt64.lt_iff_toNat_lt, not_lt] at hcover
    have hsupply : (t.totalSupply - amount).toNat = t.totalSupply.toNat - amount.toNat := by
      refine UInt64.toNat_sub_of_le _ _ (UInt64.le_iff_toNat_le.mpr ?_)
      omega
    rw [toNat_sub hcover] at hout
    show (t₁.setBalance caller (t₁.balanceOf caller - amount)).sumBalances =
      (t.totalSupply - amount).toNat
    omega

/-- `mint` keeps the law exactly when it fits. -/
theorem Conserved.mint_iff {t : Token} (h : t.Conserved) (caller recipient : Bytes)
    (amount : UInt64) :
    (t.mint caller recipient amount).2.Conserved ↔ t.MintFits caller recipient amount := by
  unfold Token.mint MintFits
  split_ifs with hrefused
  · have hne : caller = t.owner → ¬ recipient ≠ [] := by tauto
    exact ⟨fun _ hc hr => absurd hr (hne hc), fun _ => h⟩
  · rw [not_or, not_not] at hrefused
    have hsum : t.sumBalances = t.totalSupply.toNat := h
    have hin := sumBalances_setBalance t recipient (t.balanceOf recipient + amount)
    have hle := balanceOf_le t recipient
    have hamount := amount.toNat_lt
    have hlt := t.totalSupply.toNat_lt
    rw [UInt64.toNat_add] at hin
    show (t.setBalance recipient (t.balanceOf recipient + amount)).sumBalances =
      (t.totalSupply + amount).toNat ↔ _
    rw [UInt64.toNat_add]
    constructor
    · intro heq _ _ hwrap
      by_contra hfits
      omega
    · intro hfits
      have hfits' := hfits hrefused.1 hrefused.2
      omega

/-- A call keeps the law exactly when it is no `mint` that does not fit. -/
theorem Conserved.call_iff {t : Token} (h : t.Conserved) (c : TokenCall) :
    (t.call c).2.Conserved ↔
      ∀ caller recipient amount, c = .mint caller recipient amount →
        t.MintFits caller recipient amount := by
  have hother : (t.call c).2.Conserved → (∀ caller recipient amount,
      c ≠ .mint caller recipient amount) → ((t.call c).2.Conserved ↔
        ∀ caller recipient amount, c = .mint caller recipient amount →
          t.MintFits caller recipient amount) :=
    fun hc hne => ⟨fun _ caller recipient amount heq => absurd heq (hne _ _ _), fun _ => hc⟩
  cases c with
  | transfer caller recipient amount => exact hother (h.transfer _ _ _) (by simp)
  | approve caller spender amount => exact hother (h.approve _ _ _) (by simp)
  | transferFrom spender sender recipient amount => exact hother (h.transferFrom _ _ _ _) (by simp)
  | burn caller amount => exact hother (h.burn _ _) (by simp)
  | mint caller recipient amount =>
    rw [show (t.call (.mint caller recipient amount)).2 = (t.mint caller recipient amount).2 from rfl,
      h.mint_iff]
    constructor
    · rintro hfits _ _ _ ⟨⟩
      exact hfits
    · intro hfits
      exact hfits _ _ _ rfl

/-- The constructor passes over the first credit only when there is nothing to credit. -/
theorem eq_zero_of_not_credited {initialSupply : UInt64} {owner : Bytes} (howner : owner ≠ [])
    (h : ¬ (0 < initialSupply ∧ owner ≠ [])) : initialSupply = 0 := by
  have hpos : ¬ 0 < initialSupply := fun hpos => h ⟨hpos, howner⟩
  rw [UInt64.lt_iff_toNat_lt] at hpos
  exact UInt64.toNat_inj.mp (Nat.eq_zero_of_not_pos hpos)

theorem conserved_create (name symbol : Bytes) (decimals : UInt8) (initialSupply : UInt64)
    {owner : Bytes} (howner : owner ≠ []) :
    (create name symbol decimals initialSupply owner).Conserved := by
  unfold create
  dsimp only
  split_ifs with h
  · show Sql.total UInt64.toNat ((∅ : Table Bytes UInt64).insert owner initialSupply) =
      initialSupply.toNat
    simp [Sql.total]
  · have hzero := eq_zero_of_not_credited howner h
    subst hzero
    rfl

/-- **Supply**: over every run of calls, the sum of the balances is the total supply after every call
exactly when every accepted `mint` fits. -/
theorem supply_conserved_iff (name symbol : Bytes) (decimals : UInt8) (initialSupply : UInt64)
    (owner : Bytes) (howner : owner ≠ []) (calls : List TokenCall) :
    (∀ done, done <+: calls →
      ((create name symbol decimals initialSupply owner).run done).Conserved) ↔
    ∀ done caller recipient amount, done ++ [.mint caller recipient amount] <+: calls →
      ((create name symbol decimals initialSupply owner).run done).MintFits caller recipient
        amount := by
  set t₀ := create name symbol decimals initialSupply owner with ht₀
  constructor
  · intro h done caller recipient amount hpre
    have hbefore := h done ((List.prefix_append done _).trans hpre)
    have hafter := h _ hpre
    rw [run, List.foldl_append, ← run] at hafter
    exact (hbefore.call_iff (.mint caller recipient amount)).mp hafter _ _ _ rfl
  · intro h done hdone
    refine Run.foldl_invariant Conserved (conserved_create _ _ _ _ howner) ?_ hdone
    intro pre c hpre hinv
    refine (Conserved.call_iff hinv c).mpr ?_
    rintro caller recipient amount rfl
    exact h pre caller recipient amount hpre

/-- A token of 10 units, of which `b` gets 4 and burns 1, and 5 more for the owner. -/
def smallCalls : List TokenCall := [.transfer [97] [98] 4, .burn [98] 1, .mint [97] [97] 5]

theorem supply_conserved_small : ((create [] [] 18 10 [97]).run smallCalls).Conserved := by
  have hfits : ∀ done caller recipient amount,
      done ++ [.mint caller recipient amount] <+: smallCalls →
      ((create [] [] 18 10 [97]).run done).MintFits caller recipient amount := by
    intro done caller recipient amount hpre
    obtain ⟨hdone, hcall⟩ := Run.prefix_concat hpre
    rw [hdone]
    generalize done.length = n at hcall
    match n with
    | 0 | 1 | n + 3 => cases hcall
    | 2 =>
      cases hcall
      intro _ _ hwrap
      exact absurd hwrap (by decide +kernel)
  exact (supply_conserved_iff [] [] 18 10 [97] (by decide) smallCalls).mpr hfits smallCalls
    List.prefix_rfl

/-- The owner of all 2⁶⁴ - 1 units mints one more for `b`. -/
theorem supply_lost_mint :
    ¬ ((create [] [] 18 (2 ^ 64 - 1) [97]).run [.mint [97] [98] 1]).Conserved := by
  unfold Conserved
  decide +kernel

end Token

end Mermai
