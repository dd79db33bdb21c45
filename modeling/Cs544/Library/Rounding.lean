import Mathlib.Data.Nat.ModEq
import Mathlib.Tactic.Common

/-! Rounding a machine word up to a power of two.

`roundUp` is the usual mask idiom `(x + (align - 1)) & ~(align - 1)` on words of
any width. The distance it moves a word does not depend on whether the addition
wraps around, so the padding is described by a number and not by two cases.
-/

set_option autoImplicit false

namespace Cs544.Library

/-- Bytes to add to `n` to reach a multiple of `align`. -/
def padding (n align : Nat) : Nat := (align - n % align) % align

section
variable {n align unit : Nat}

theorem padding_lt (positive : 0 < align) : padding n align < align := Nat.mod_lt _ positive

theorem dvd_add_padding (positive : 0 < align) : align ∣ n + padding n align := by
  have small := Nat.mod_lt n positive
  have split := Nat.div_add_mod n align
  unfold padding
  by_cases exact : n % align = 0
  · rw [exact, Nat.sub_zero, Nat.mod_self, Nat.add_zero]
    exact Nat.dvd_of_mod_eq_zero exact
  · rw [Nat.mod_eq_of_lt (by omega)]
    refine ⟨n / align + 1, ?_⟩
    rw [Nat.mul_add, Nat.mul_one]
    omega

theorem padding_eq_zero (aligned : align ∣ n) : padding n align = 0 := by
  rw [padding, Nat.mod_eq_zero_of_dvd aligned, Nat.sub_zero, Nat.mod_self]

theorem sub_mod_eq_padding (positive : 0 < align) :
    align - 1 - (n + (align - 1)) % align = padding n align := by
  have small := Nat.mod_lt n positive
  rw [padding, Nat.add_mod, Nat.mod_eq_of_lt (show align - 1 < align by omega)]
  generalize n % align = r at *
  by_cases exact : r = 0
  · rw [exact, Nat.zero_add, Nat.mod_eq_of_lt (show align - 1 < align by omega), Nat.sub_self,
      Nat.sub_zero, Nat.mod_self]
  · rw [Nat.mod_eq_sub_mod (by omega), Nat.mod_eq_of_lt (by omega), Nat.mod_eq_of_lt (by omega)]
    omega

/-- Padding between multiples of a unit is a multiple of the unit, for powers of
two on both sides. -/
theorem dvd_padding {i k : Nat} (multiple : 2 ^ i ∣ n) : 2 ^ i ∣ padding n (2 ^ k) := by
  rcases Nat.le_total i k with le | le
  · have reached : 2 ^ i ∣ n + padding n (2 ^ k) :=
      (Nat.pow_dvd_pow 2 le).trans (dvd_add_padding (Nat.two_pow_pos k))
    exact (Nat.dvd_add_right multiple).mp reached
  · rw [padding_eq_zero ((Nat.pow_dvd_pow 2 le).trans multiple)]
    exact Nat.dvd_zero _

end

section
variable {w : Nat}

def roundUp (x align : BitVec w) : BitVec w := (x + (align - 1#w)) &&& ~~~(align - 1#w)

/-- Clearing and keeping the masked bits split a word in two. -/
theorem and_not_eq_sub (x mask : BitVec w) : x &&& ~~~mask = x - (x &&& mask) := by
  have apart : (x &&& ~~~mask) &&& (x &&& mask) = 0#w := by
    ext i
    simp only [BitVec.getElem_and, BitVec.getElem_not, BitVec.getElem_zero]
    cases mask[i] <;> simp
  have whole : (x &&& ~~~mask) ||| (x &&& mask) = x := by
    ext i
    simp only [BitVec.getElem_and, BitVec.getElem_or, BitVec.getElem_not]
    cases x[i] <;> cases mask[i] <;> rfl
  have sum := BitVec.add_eq_or_of_and_eq_zero _ _ apart
  rw [whole] at sum
  rw [eq_comm, BitVec.sub_eq_iff_eq_add]
  exact sum.symm

theorem roundUp_sub {k : Nat} (small : k < w) (x : BitVec w) :
    (roundUp x (BitVec.twoPow w k) - x).toNat = padding x.toNat (2 ^ k) := by
  have word : 2 ^ k < 2 ^ w := Nat.pow_lt_pow_right (by omega) small
  have one : 1 ≤ 2 ^ k := Nat.one_le_two_pow
  have mask : (BitVec.twoPow w k - 1#w).toNat = 2 ^ k - 1 := by
    have unit : (1#w).toNat = 1 := by rw [BitVec.toNat_ofNat, Nat.mod_eq_of_lt (by omega)]
    rw [BitVec.toNat_sub_of_le, BitVec.toNat_twoPow, Nat.mod_eq_of_lt word, unit]
    rw [BitVec.le_def, BitVec.toNat_twoPow, Nat.mod_eq_of_lt word, unit]
    exact one
  have low (y : BitVec w) : (y &&& (BitVec.twoPow w k - 1#w)).toNat = y.toNat % 2 ^ k := by
    rw [BitVec.toNat_and, mask, Nat.and_two_pow_sub_one_eq_mod]
  -- The word itself cancels: what is left is the mask less the low bits of the
  -- sum, and those do not see the carry out of the word.
  have cancel : roundUp x (BitVec.twoPow w k) - x =
      (BitVec.twoPow w k - 1#w) - ((x + (BitVec.twoPow w k - 1#w)) &&& (BitVec.twoPow w k - 1#w)) := by
    rw [roundUp, and_not_eq_sub]
    generalize BitVec.twoPow w k - 1#w = m
    generalize (x + m) &&& m = r
    rw [BitVec.sub_eq_iff_eq_add, BitVec.sub_eq_iff_eq_add]
    rw [BitVec.add_assoc, BitVec.add_comm x r, ← BitVec.add_assoc, BitVec.sub_add_cancel,
      BitVec.add_comm]
  have bits : ((x + (BitVec.twoPow w k - 1#w)) &&& (BitVec.twoPow w k - 1#w)).toNat =
      (x.toNat + (2 ^ k - 1)) % 2 ^ k := by
    rw [low, BitVec.toNat_add, mask, Nat.mod_mod_of_dvd _ (Nat.pow_dvd_pow 2 small.le)]
  have rest := Nat.mod_lt (x.toNat + (2 ^ k - 1)) (Nat.two_pow_pos k)
  rw [cancel, BitVec.toNat_sub_of_le (by rw [BitVec.le_def, bits, mask]; omega), bits, mask]
  exact sub_mod_eq_padding (Nat.two_pow_pos k)

end

end Cs544.Library
