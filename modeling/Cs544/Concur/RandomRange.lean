import Mathlib.Data.Rat.Floor
import Cs544.Concur.Dinners

/-! `random_range` of the dinners, over exact numbers.

The function scales an outcome of `random()` by `RAND_MAX`, which is itself an outcome. The
result is then one more than the largest number of the range; a deleter that gets it looks
for a dinner behind the last one.
-/

set_option autoImplicit false

namespace Cs544.Concur

def randMax : Nat := 2147483647

/-- The conversion of a floating-point number to an `int`. -/
def truncate (x : ℚ) : Int := x.num.tdiv x.den

def randomRange (start stop : Int) (r : Nat) : Int :=
  let myRange : ℚ := (stop - start + 1 : Int)
  let myMultiplier : ℚ := r / randMax
  start + truncate (myRange * myMultiplier)

variable {start stop count : Int} {r : Nat}

theorem truncate_of_nonneg {x : ℚ} (nonneg : 0 ≤ x) : truncate x = ⌊x⌋ := by
  rw [truncate, Int.tdiv_eq_ediv_of_nonneg (Rat.num_nonneg.mpr nonneg), Rat.floor_def']

theorem randomRange_eq (ordered : start ≤ stop) (r : Nat) :
    randomRange start stop r = start + (stop - start + 1) * r / randMax := by
  have positive : 0 ≤ stop - start + 1 := by omega
  have product : ((stop - start + 1 : Int) : ℚ) * (r / randMax) = (((stop - start + 1) * r : Int) : ℚ) / randMax := by
    push_cast
    ring
  have nonneg : (0 : ℚ) ≤ ((stop - start + 1 : Int) : ℚ) * (r / randMax) :=
    mul_nonneg (by exact_mod_cast positive) (by positivity)
  unfold randomRange
  simp only
  rw [truncate_of_nonneg nonneg, product, Rat.floor_intCast_div_natCast]

theorem randomRange_randMax (ordered : start ≤ stop) : randomRange start stop randMax = stop + 1 := by
  have positive : (randMax : Int) ≠ 0 := by decide
  rw [randomRange_eq ordered, Int.mul_ediv_cancel _ positive]
  omega

theorem randomRange_within (ordered : start ≤ stop) (below : r < randMax) :
    start ≤ randomRange start stop r ∧ randomRange start stop r ≤ stop := by
  have positive : (0 : Int) < randMax := by decide
  have low : 0 ≤ (stop - start + 1) * r / randMax :=
    Int.ediv_nonneg (Int.mul_nonneg (by omega) (Int.natCast_nonneg r)) positive.le
  have high : (stop - start + 1) * r / randMax < stop - start + 1 := by
    apply Int.ediv_lt_of_lt_mul positive
    exact Int.mul_lt_mul_of_pos_left (by exact_mod_cast below) (by omega)
  rw [randomRange_eq ordered]
  omega

/-- For every outcome but the largest, a searcher or deleter picks a dinner that is there. -/
theorem inRange_randomRange (below : r < randMax) : Dinners.InRange count (randomRange 1 count r) :=
  fun some' => randomRange_within some' below

/-- The result lies in the range for every outcome but the largest. -/
theorem random_range_within_iff (start stop : Int) (ordered : start ≤ stop) (r : Nat) (outcome : r ≤ randMax) :
    (start ≤ randomRange start stop r ∧ randomRange start stop r ≤ stop) ↔ r ≠ randMax := by
  constructor
  · rintro ⟨_, high⟩ rfl
    rw [randomRange_randMax ordered] at high
    omega
  · intro less
    exact randomRange_within ordered (Nat.lt_of_le_of_ne outcome less)

/-- An outcome in the middle gives 2 for the range from 1 to 3. -/
theorem random_range_within_middle :
    randomRange 1 3 1000000000 = 2 ∧ 1 ≤ randomRange 1 3 1000000000 ∧ randomRange 1 3 1000000000 ≤ 3 :=
  ⟨by rw [randomRange_eq (by decide)]; decide,
    (random_range_within_iff 1 3 (by decide) 1000000000 (by decide)).mpr (by decide)⟩

/-- The largest outcome gives 4 for the range from 1 to 3. -/
theorem random_range_exceeds :
    ¬ ∀ (start stop : Int), start ≤ stop → ∀ r ≤ randMax,
      start ≤ randomRange start stop r ∧ randomRange start stop r ≤ stop := by
  intro within
  have high := (within 1 3 (by decide) randMax le_rfl).2
  rw [randomRange_randMax (by decide)] at high
  exact absurd high (by decide)

end Cs544.Concur
