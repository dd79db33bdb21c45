import Cs544.Library.Tokens

/-! A counter of permits beside the places that hold them.

The counter says how many permits are free; a place holds as many as its content says.
A permit moves between the counter and one place, so their total stays.
-/

set_option autoImplicit false

namespace Cs544.Library

variable {Place Content : Type} [Fintype Place] {total free : Int} {amount : Content → Nat}
  {content : Place → Content}

/-- All permits are either free or held, and no more are held than there are. -/
structure Balanced (total : Int) (amount : Content → Nat) (free : Int) (content : Place → Content) : Prop where
  nonneg : 0 ≤ free
  balance : free + held amount content = total

namespace Balanced

theorem all_free (nonneg : 0 ≤ total) (nobody : ∀ p, amount (content p) = 0) :
    Balanced total amount total content := by
  refine ⟨nonneg, ?_⟩
  rw [held_eq_zero.mpr nobody]
  omega

theorem free_le (balanced : Balanced total amount free content) : free ≤ total := by
  have balance := balanced.balance
  omega

theorem held_le (balanced : Balanced total amount free content) : held amount content ≤ total := by
  have balance := balanced.balance
  have nonneg := balanced.nonneg
  omega

theorem free_eq_total (balanced : Balanced total amount free content) (nobody : ∀ p, amount (content p) = 0) :
    free = total := by
  have balance := balanced.balance
  rw [held_eq_zero.mpr nobody] at balance
  omega

variable [DecidableEq Place] {p : Place} {next : Content}

theorem keep (balanced : Balanced total amount free content) (same : amount next = amount (content p)) :
    Balanced total amount free (Function.update content p next) := by
  refine ⟨balanced.nonneg, ?_⟩
  rw [held_update_eq same]
  exact balanced.balance

theorem take (balanced : Balanced total amount free content) (some_free : 0 < free)
    (taken : amount next = amount (content p) + 1) :
    Balanced total amount (free - 1) (Function.update content p next) := by
  have moved := held_update amount content p next
  have balance := balanced.balance
  constructor <;> omega

theorem give (balanced : Balanced total amount free content) (given : amount next + 1 = amount (content p)) :
    Balanced total amount (free + 1) (Function.update content p next) := by
  have moved := held_update amount content p next
  have balance := balanced.balance
  have nonneg := balanced.nonneg
  constructor <;> omega

end Balanced

end Cs544.Library
