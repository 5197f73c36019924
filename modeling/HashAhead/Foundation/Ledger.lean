import Mathlib.Algebra.BigOperators.Ring.Finset
import Mathlib.Algebra.Order.BigOperators.Group.Finset

/-! Ledgers over a finite set of accounts. A ledger gives each account an amount, and a
payment changes at most two of them. -/

namespace HashAhead.Foundation
open Function
variable {Account : Type} [Fintype Account]

def total (ledger : Account → Nat) : Nat := ∑ account, ledger account

/-- The payment of an amount from one account to another. Paying oneself changes nothing. -/
structure Pays (before after : Account → Nat) (payer payee : Account) (amount : Nat) : Prop where
  paid : payer ≠ payee → after payer + amount = before payer
  received : payer ≠ payee → after payee = before payee + amount
  others : ∀ account, account ≠ payer → account ≠ payee → after account = before account
  alone : payer = payee → after payer = before payer

section Group
variable {Group : Type} [DecidableEq Group] {group : Account → Option Group} {g : Group}

def groupTotal (group : Account → Option Group) (ledger : Account → Nat) (g : Group) : Nat :=
  total fun account => if group account = some g then ledger account else 0

theorem groupTotal_zero : groupTotal group (fun _ => 0) g = 0 := by
  simp [groupTotal, total]

theorem le_groupTotal (ledger : Account → Nat) {account : Account} (mem : group account = some g) :
    ledger account ≤ groupTotal group ledger g := by
  have one := Finset.single_le_sum (f := fun account => if group account = some g then ledger account else 0)
    (fun _ _ => Nat.zero_le _) (Finset.mem_univ account)
  rw [if_pos mem] at one
  exact one

theorem groupTotal_le_add {before after mixed : Account → Nat}
    (between : ∀ account, mixed account ≤ before account + after account) :
    groupTotal group mixed g ≤ groupTotal group before g + groupTotal group after g := by
  unfold groupTotal total
  rw [← Finset.sum_add_distrib]
  apply Finset.sum_le_sum
  intro account _
  have bound := between account
  split_ifs <;> omega

end Group

variable [DecidableEq Account]

theorem total_change (before after : Account → Nat) (account : Account)
    (others : ∀ other, other ≠ account → after other = before other) :
    total after + before account = total before + after account := by
  have rest : ∑ other ∈ Finset.univ.erase account, after other =
      ∑ other ∈ Finset.univ.erase account, before other :=
    Finset.sum_congr rfl fun other mem => others other (Finset.ne_of_mem_erase mem)
  have left := Finset.add_sum_erase Finset.univ after (Finset.mem_univ account)
  have right := Finset.add_sum_erase Finset.univ before (Finset.mem_univ account)
  unfold total
  omega

theorem total_change_two (before after : Account → Nat) {first second : Account} (apart : first ≠ second)
    (others : ∀ other, other ≠ first → other ≠ second → after other = before other) :
    total after + (before first + before second) = total before + (after first + after second) := by
  let middle : Account → Nat := Function.update before first (after first)
  have one := total_change before middle first fun other away =>
    update_of_ne away _ _
  have two := total_change middle after second fun other away => by
    by_cases same : other = first
    · simp [middle, same]
    · rw [others other same away]
      exact (update_of_ne same _ _).symm
  have atFirst : middle first = after first := update_self _ _ _
  have atSecond : middle second = before second := update_of_ne apart.symm _ _
  omega

theorem Pays.total_eq {before after : Account → Nat} {payer payee : Account} {amount : Nat}
    (pays : Pays before after payer payee amount) : total after = total before := by
  by_cases same : payer = payee
  · subst same
    have one := total_change before after payer fun other away =>
      pays.others other away away
    have kept := pays.alone rfl
    omega
  · have two := total_change_two before after same pays.others
    have paid := pays.paid same
    have received := pays.received same
    omega

end HashAhead.Foundation
