import Mathlib.Algebra.BigOperators.Group.Finset.Piecewise
import Mathlib.Algebra.Order.BigOperators.Group.Finset
import Mathlib.Algebra.GroupWithZero.Nat
import Mathlib.Data.Fintype.Basic

/-! Counting what a finite family of places holds.

The family is a function to the contents of its places: the program counters of
threads, the slots of a buffer. A change at one place changes the total by what was
there and what is there now. The total may be a number, or a multiset of things.
-/

set_option autoImplicit false

namespace Cs544.Library

open Finset

variable {Place Content Total : Type} [Fintype Place]

section
variable [AddCommMonoid Total]

/-- What all places together hold. It is never computed in a proof, whatever the size of
the family. -/
@[irreducible] def held (amount : Content → Total) (content : Place → Content) : Total := ∑ p, amount (content p)

theorem held_update [DecidableEq Place] (amount : Content → Total) (content : Place → Content) (p : Place)
    (next : Content) :
    held amount (Function.update content p next) + amount (content p) = held amount content + amount next := by
  have moved : (fun q => amount (Function.update content p next q)) =
      Function.update (fun q => amount (content q)) p (amount next) := by
    funext q
    exact Function.apply_update (fun _ => amount) content p next q
  have split := add_sum_erase univ (fun q => amount (content q)) (mem_univ p)
  rw [held, held, moved, sum_update_of_mem (mem_univ p), ← erase_eq, ← split]
  ac_rfl

/-- The same amounts, of whatever the places hold. -/
theorem held_congr {Other : Type} {amount : Content → Total} {content : Place → Content} {amount' : Other → Total}
    {content' : Place → Other} (same : ∀ p, amount (content p) = amount' (content' p)) :
    held amount content = held amount' content' := by
  rw [held, held]
  exact sum_congr rfl fun p _ => same p

end

section
variable [AddCommMonoid Total] {amount : Content → Total} {content : Place → Content} {p q : Place}

/-- Nothing is held anywhere else. -/
theorem held_eq_single [DecidableEq Place] (others : ∀ q, q ≠ p → amount (content q) = 0) :
    held amount content = amount (content p) := by
  rw [held]
  exact sum_eq_single p (fun q _ => others q) fun outside => absurd (mem_univ p) outside

variable [PartialOrder Total] [IsOrderedAddMonoid Total]

theorem le_held (nonneg : ∀ p, 0 ≤ amount (content p)) (p : Place) : amount (content p) ≤ held amount content := by
  rw [held]
  exact single_le_sum (fun q _ => nonneg q) (mem_univ p)

theorem add_le_held [DecidableEq Place] (nonneg : ∀ p, 0 ≤ amount (content p)) (apart : p ≠ q) :
    amount (content p) + amount (content q) ≤ held amount content := by
  rw [held]
  exact add_le_sum (fun r _ => nonneg r) (mem_univ p) (mem_univ q) apart

theorem held_le_card {bound : Total} (below : ∀ p, amount (content p) ≤ bound) :
    held amount content ≤ Fintype.card Place • bound := by
  rw [held]
  exact sum_le_card_nsmul univ _ bound fun q _ => below q

end

variable {amount : Content → Nat} {content : Place → Content}

theorem held_update_eq [DecidableEq Place] {p : Place} {next : Content} (same : amount next = amount (content p)) :
    held amount (Function.update content p next) = held amount content := by
  have update := held_update amount content p next
  omega

theorem held_eq_zero : held amount content = 0 ↔ ∀ p, amount (content p) = 0 := by
  simp [held]

theorem exists_of_held_pos (positive : 0 < held amount content) : ∃ p, 0 < amount (content p) := by
  by_contra none
  push Not at none
  have zero : held amount content = 0 := held_eq_zero.mpr fun p => Nat.le_zero.mp (none p)
  omega

end Cs544.Library
