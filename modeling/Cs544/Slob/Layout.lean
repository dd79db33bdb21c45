import Mathlib.Logic.Function.Basic
import Mathlib.Tactic.NormNum
import Cs544.Library.Extents
import Cs544.Library.Rounding

/-! Page layout and free-block encoding of the SLOB allocator.

Addresses are counted in `slob_t` units, so a `slob_t *` is a natural number and
pointer arithmetic is arithmetic on it; the byte address is `SLOB_UNIT` times
that number. A free block keeps its size and the offset of the next free block
inside its own units, in two formats, and `Encodes` says what a block decodes to.
-/

set_option autoImplicit false

namespace Cs544.Slob

open Cs544.Library

/-- The constants the allocator is compiled for: `PAGE_SHIFT` and the width of
`unsigned long`. Pages are larger than `ZERO_SIZE_PTR` and their size is an `int`. -/
structure Arch where
  pageShift : Nat
  longBits : Nat
  pageShift_ge : 5 ≤ pageShift
  pageShift_le : pageShift ≤ 30
  longBits_ge : 32 ≤ longBits

def x86 : Arch := ⟨12, 64, by decide, by decide, by decide⟩

namespace Arch

variable (a : Arch)

def pageSize : Nat := 2 ^ a.pageShift

/-- Bits of `slobidx_t`: `s16` when `PAGE_SIZE <= (32767 * 2)`, else `s32`. -/
def indexBits : Nat := if a.pageSize ≤ 32767 * 2 then 16 else 32

/-- `SLOB_UNIT`, that is `sizeof(slob_t)`. -/
def slobUnit : Nat := if a.pageSize ≤ 32767 * 2 then 2 else 4

def slobUnitsOf (size : Nat) : Nat := (size + a.slobUnit - 1) / a.slobUnit

def pageUnits : Nat := a.slobUnitsOf a.pageSize

theorem slobUnit_eq_pow : ∃ i, a.slobUnit = 2 ^ i ∧ i ≤ a.pageShift := by
  have shift := a.pageShift_ge
  unfold slobUnit
  split
  · exact ⟨1, rfl, by omega⟩
  · exact ⟨2, rfl, by omega⟩

theorem slobUnit_pos : 0 < a.slobUnit := by unfold slobUnit; split <;> omega

@[simp] theorem slobUnitsOf_mul (n : Nat) : a.slobUnitsOf (a.slobUnit * n) = n := by
  have positive := a.slobUnit_pos
  rw [slobUnitsOf, Nat.add_sub_assoc positive, Nat.mul_add_div positive,
    Nat.div_eq_of_lt (by omega), Nat.add_zero]

theorem slobUnit_mul_pageUnits : a.slobUnit * a.pageUnits = a.pageSize := by
  obtain ⟨i, unit, le⟩ := a.slobUnit_eq_pow
  have size : a.pageSize = a.slobUnit * 2 ^ (a.pageShift - i) := by
    rw [unit, ← Nat.pow_add, pageSize]
    congr 1
    omega
  rw [pageUnits, size, slobUnitsOf_mul]

theorem pageSize_ge : 32 ≤ a.pageSize :=
  Nat.pow_le_pow_right (n := 2) (by decide) a.pageShift_ge

theorem pageUnits_pos : 0 < a.pageUnits := by
  have whole := a.slobUnit_mul_pageUnits
  have size := a.pageSize_ge
  by_contra zero
  rw [Nat.eq_zero_of_not_pos zero, Nat.mul_zero] at whole
  omega

theorem pageUnits_lt : (a.pageUnits : Int) < 2 ^ (a.indexBits - 1) := by
  have whole := a.slobUnit_mul_pageUnits
  have size : a.pageSize ≤ 2 ^ 30 := Nat.pow_le_pow_right (by decide) a.pageShift_le
  unfold slobUnit at whole
  unfold indexBits
  split at whole
  next short => rw [if_pos short]; norm_num; omega
  next long => rw [if_neg long]; norm_num at size ⊢; omega

variable {a} in
theorem slobUnitsOf_pos {size : Nat} (positive : 0 < size) : 0 < a.slobUnitsOf size := by
  have unit := a.slobUnit_pos
  exact Nat.div_pos (by omega) unit

variable {a} in
theorem slobUnitsOf_le {size : Nat} (le : size ≤ a.pageSize) : a.slobUnitsOf size ≤ a.pageUnits :=
  Nat.div_le_div_right (by omega)

theorem le_slobUnit_mul (size : Nat) : size ≤ a.slobUnit * a.slobUnitsOf size := by
  have unit := a.slobUnit_pos
  have split := Nat.div_add_mod (size + a.slobUnit - 1) a.slobUnit
  have rest := Nat.mod_lt (size + a.slobUnit - 1) unit
  unfold slobUnitsOf
  omega

/-! ## Pages and alignment -/

/-- `s & PAGE_MASK`: the start of the page a unit lies in. -/
def pageBase (s : Nat) : Nat := s - s % a.pageUnits

def pageOf (s : Nat) : Nat := s / a.pageUnits

def pageStart (p : Nat) : Nat := p * a.pageUnits

def pageEnd (p : Nat) : Nat := p * a.pageUnits + a.pageUnits

variable {a} in
theorem pageOf_eq {p s : Nat} (low : a.pageStart p ≤ s) (high : s < a.pageEnd p) :
    a.pageOf s = p := by
  unfold pageStart at low
  unfold pageEnd at high
  exact Nat.div_eq_of_lt_le low (by rw [Nat.add_mul, Nat.one_mul]; exact high)

variable {a} in
theorem pageBase_eq {p s : Nat} (low : a.pageStart p ≤ s) (high : s < a.pageEnd p) :
    a.pageBase s = a.pageStart p := by
  have number := pageOf_eq low high
  have split := Nat.div_add_mod s a.pageUnits
  unfold pageOf at number
  rw [number] at split
  unfold pageBase pageStart
  rw [Nat.mul_comm p]
  omega

theorem pageStart_add (p : Nat) : a.pageStart p + a.pageUnits = a.pageEnd p := rfl

theorem pageStart_lt (p : Nat) : a.pageStart p < a.pageEnd p := by
  have positive := a.pageUnits_pos
  unfold pageStart pageEnd
  omega

theorem pageBase_add_pageUnits {p s : Nat} (low : a.pageStart p ≤ s) (high : s < a.pageEnd p) :
    a.pageBase (s + a.pageUnits) = a.pageEnd p := by
  have next := a.pageUnits_pos
  rw [pageBase_eq (p := p + 1)]
  · simp only [pageStart, pageEnd, Nat.add_mul, Nat.one_mul]
  · simp only [pageStart, Nat.add_mul, Nat.one_mul] at low ⊢; omega
  · simp only [pageEnd, Nat.add_mul, Nat.one_mul] at high ⊢; omega

/-- A page of the address space that the page allocator may hand out: it is not
at address `NULL` and its last byte has an address. -/
structure Frame where
  number : Nat
  nonnull : 0 < number
  fits : (number + 1) * a.pageSize ≤ 2 ^ a.longBits

def x86Frame : x86.Frame := ⟨1, by decide, by decide⟩

def alignWord (cur : Nat) (align : Int) : BitVec a.longBits :=
  roundUp (BitVec.ofNat a.longBits (a.slobUnit * cur)) (BitVec.ofInt a.longBits align)

/-- `aligned = (slob_t *)ALIGN((unsigned long)cur, align)`. -/
def aligned (cur : Nat) (align : Int) : Nat := (a.alignWord cur align).toNat / a.slobUnit

/-- `delta = aligned - cur`: a difference of `slob_t` pointers stored in an `int`. -/
def delta (cur : Nat) (align : Int) : Int :=
  ((a.alignWord cur align - BitVec.ofNat a.longBits (a.slobUnit * cur)).toInt / a.slobUnit).bmod (2 ^ 32)

/-- The alignments callers pass: none, or a power of two that is an `int`. -/
def AlignOk (align : Int) : Prop := align = 0 ∨ ∃ k, k ≤ 30 ∧ align = 2 ^ k

def skip (cur k : Nat) : Nat := padding (a.slobUnit * cur) (2 ^ k) / a.slobUnit

section
variable {a} {cur k : Nat}

theorem slobUnit_mul_skip : a.slobUnit * a.skip cur k = padding (a.slobUnit * cur) (2 ^ k) := by
  obtain ⟨i, unit, _⟩ := a.slobUnit_eq_pow
  refine Nat.mul_div_cancel' ?_
  rw [unit]
  exact dvd_padding (Nat.dvd_mul_right _ _)

theorem dvd_skip : 2 ^ k ∣ a.slobUnit * (cur + a.skip cur k) := by
  rw [Nat.mul_add, slobUnit_mul_skip]
  exact dvd_add_padding (Nat.two_pow_pos k)

theorem ofInt_two_pow (w : Nat) : BitVec.ofInt w (2 ^ k) = BitVec.twoPow w k := by
  apply BitVec.eq_of_toNat_eq
  rw [BitVec.toNat_ofInt, BitVec.toNat_twoPow]
  exact_mod_cast Int.toNat_natCast (2 ^ k % 2 ^ w)

theorem alignWord_sub (small : k ≤ 30) (inside : a.slobUnit * cur < 2 ^ a.longBits) :
    (a.alignWord cur (2 ^ k) - BitVec.ofNat a.longBits (a.slobUnit * cur)).toNat =
      a.slobUnit * a.skip cur k := by
  have word := a.longBits_ge
  rw [alignWord, ofInt_two_pow, roundUp_sub (by omega), BitVec.toNat_ofNat,
    Nat.mod_eq_of_lt inside, slobUnit_mul_skip]

theorem delta_eq (small : k ≤ 30) (inside : a.slobUnit * cur < 2 ^ a.longBits) :
    a.delta cur (2 ^ k) = a.skip cur k := by
  have word := a.longBits_ge
  have positive := a.slobUnit_pos
  have distance := alignWord_sub small inside
  have bound : a.slobUnit * a.skip cur k < 2 ^ 30 := by
    rw [slobUnit_mul_skip]
    exact lt_of_lt_of_le (padding_lt (Nat.two_pow_pos k)) (Nat.pow_le_pow_right (by decide) small)
  have units : a.skip cur k < 2 ^ 30 :=
    lt_of_le_of_lt (Nat.le_mul_of_pos_left _ positive) bound
  have half : 2 ^ 30 * 2 ≤ 2 ^ a.longBits := by
    calc 2 ^ 30 * 2 = 2 ^ 31 := by norm_num
      _ ≤ 2 ^ a.longBits := Nat.pow_le_pow_right (by decide) (by omega)
  unfold delta
  rw [BitVec.toInt_eq_toNat_of_lt (by rw [distance]; omega), distance]
  rw [Nat.cast_mul, Int.mul_ediv_cancel_left _ (by exact_mod_cast positive.ne')]
  exact Int.bmod_eq_of_le (by omega) (by omega)

theorem aligned_eq (small : k ≤ 30) (inside : a.slobUnit * (cur + a.skip cur k) < 2 ^ a.longBits) :
    a.aligned cur (2 ^ k) = cur + a.skip cur k := by
  have positive := a.slobUnit_pos
  rw [Nat.mul_add] at inside
  have distance := alignWord_sub small (show a.slobUnit * cur < 2 ^ a.longBits by omega)
  have word : a.alignWord cur (2 ^ k) =
      (a.alignWord cur (2 ^ k) - BitVec.ofNat a.longBits (a.slobUnit * cur)) +
        BitVec.ofNat a.longBits (a.slobUnit * cur) := (BitVec.sub_add_cancel _ _).symm
  unfold aligned
  rw [word, BitVec.toNat_add, distance, BitVec.toNat_ofNat,
    Nat.mod_eq_of_lt (show a.slobUnit * cur < 2 ^ a.longBits by omega),
    Nat.mod_eq_of_lt (by omega), ← Nat.mul_add, Nat.mul_div_cancel_left _ positive, Nat.add_comm]

end

end Arch

/-! ## Free blocks in memory -/

/-- The `units` field of every `slob_t` of the address space. -/
abbrev Memory := Nat → Int

section
variable (a : Arch)

def slobidx (x : Int) : Int := x.bmod (2 ^ a.indexBits)

/-- Encode the given size and next info into a free slob block `s`. -/
def setSlob (mem : Memory) (s : Nat) (size : Int) (next : Nat) : Memory :=
  let base := a.pageBase s
  let offset := slobidx a (next - base)
  if size > 1 then
    Function.update (Function.update mem s (slobidx a size)) (s + 1) offset
  else
    Function.update mem s (slobidx a (-offset))

def slobUnits (mem : Memory) (s : Nat) : Int := if mem s > 0 then mem s else 1

def slobNext (mem : Memory) (s : Nat) : Nat :=
  let base := a.pageBase s
  let next := if mem s < 0 then slobidx a (-mem s) else mem (s + 1)
  (base + next).toNat

def slobLast (mem : Memory) (s : Nat) : Bool := slobNext a mem s % a.pageUnits = 0

/-- The units of extent `e` hold a free block of that size, linked to `next`. A
block of one unit uses the negative format, so that it owns all it reads. -/
structure Encodes (mem : Memory) (e : Extent) (next : Nat) : Prop where
  units : slobUnits mem e.start = e.len
  next : slobNext a mem e.start = next
  short : e.len = 1 → mem e.start < 0

variable {a}

theorem slobidx_eq {x : Int} (low : -(a.pageUnits : Int) ≤ x) (high : x ≤ a.pageUnits) :
    slobidx a x = x := by
  have fits := a.pageUnits_lt
  have bits : (2 ^ a.indexBits : Nat) = 2 * 2 ^ (a.indexBits - 1) := by
    have positive : 0 < a.indexBits := by unfold Arch.indexBits; split <;> omega
    conv_lhs => rw [show a.indexBits = (a.indexBits - 1) + 1 by omega]
    rw [Nat.pow_succ, Nat.mul_comm]
  have cast : ((2 ^ a.indexBits : Nat) : Int) = 2 * 2 ^ (a.indexBits - 1) := by
    rw [bits]; push_cast; rfl
  exact Int.bmod_eq_of_le (by omega) (by omega)

theorem setSlob_outside {mem : Memory} {s size next x : Nat} (outside : ¬ (s ≤ x ∧ x < s + min size 2))
    (positive : 0 < size) : setSlob a mem s size next x = mem x := by
  unfold setSlob
  split
  next long => rw [Function.update_of_ne (by omega), Function.update_of_ne (by omega)]
  next => rw [Function.update_of_ne (by omega)]

theorem setSlob_of_not_contains {mem : Memory} {e : Extent} {next x : Nat} (positive : 0 < e.len)
    (outside : ¬ e.Contains x) : setSlob a mem e.start e.len next x = mem x :=
  setSlob_outside (fun inside => outside ⟨inside.1, by omega⟩) positive

theorem setSlob_encodes {mem : Memory} {p : Nat} {e : Extent} {next : Nat}
    (low : a.pageStart p ≤ e.start) (positive : 0 < e.len) (high : e.stop ≤ a.pageEnd p)
    (after : a.pageStart p < next) (before : next ≤ a.pageEnd p) :
    Encodes a (setSlob a mem e.start e.len next) e next := by
  have whole := a.pageStart_add p
  simp only [Extent.stop] at high
  have base : a.pageBase e.start = a.pageStart p := Arch.pageBase_eq low (by omega)
  have offset : slobidx a ((next : Int) - a.pageStart p) = next - a.pageStart p :=
    slobidx_eq (by omega) (by omega)
  have size : slobidx a e.len = e.len := slobidx_eq (by omega) (by omega)
  have negated : slobidx a (-((next : Int) - a.pageStart p)) = -((next : Int) - a.pageStart p) :=
    slobidx_eq (by omega) (by omega)
  have again : slobidx a (- -((next : Int) - a.pageStart p)) = next - a.pageStart p := by
    rw [Int.neg_neg, offset]
  by_cases long : (e.len : Int) > 1
  · have first : setSlob a mem e.start e.len next e.start = e.len := by
      rw [setSlob, if_pos long, Function.update_of_ne (by omega), Function.update_self, size]
    have second : setSlob a mem e.start e.len next (e.start + 1) = next - a.pageStart p := by
      rw [setSlob, if_pos long, Function.update_self, base, offset]
    refine ⟨?_, ?_, by omega⟩
    · rw [slobUnits, first, if_pos (by omega)]
    · simp only [slobNext, first, second, base]
      rw [if_neg (by omega)]
      omega
  · have first : setSlob a mem e.start e.len next e.start = -((next : Int) - a.pageStart p) := by
      rw [setSlob, if_neg long, Function.update_self, base, offset, negated]
    refine ⟨?_, ?_, by rw [first]; omega⟩
    · rw [slobUnits, first, if_neg (by omega)]
      omega
    · simp only [slobNext, first, base]
      rw [if_pos (by omega), again]
      omega

theorem Encodes.frame {mem mem' : Memory} {e : Extent} {next : Nat} (enc : Encodes a mem e next)
    (positive : 0 < e.len) (same : ∀ x, e.Contains x → mem' x = mem x) : Encodes a mem' e next := by
  have first : mem' e.start = mem e.start := same _ ⟨by omega, by omega⟩
  have units : slobUnits mem' e.start = slobUnits mem e.start := by simp only [slobUnits, first]
  refine ⟨units.trans enc.units, ?_, by rw [first]; exact enc.short⟩
  rw [← enc.next]
  unfold slobNext
  rw [first]
  by_cases negative : mem e.start < 0
  · simp only [if_pos negative]
  · have long : e.len ≠ 1 := fun one => negative (enc.short one)
    simp only [if_neg negative, same (e.start + 1) ⟨by omega, by omega⟩]

def IsSlobidx (a : Arch) (x : Int) : Prop := -2 ^ (a.indexBits - 1) ≤ x ∧ x < 2 ^ (a.indexBits - 1)

theorem isSlobidx_of_le {x : Int} (low : -(a.pageUnits : Int) ≤ x) (high : x ≤ a.pageUnits) : IsSlobidx a x := by
  have fits := a.pageUnits_lt
  exact ⟨by omega, by omega⟩

/-- A pointer behind the start of a page is to the end of the page if and only if its
offset in the page is 0. -/
theorem pageStart_add_mod_iff {p next : Nat} (after : 0 < next) (within : next ≤ a.pageUnits) :
    (a.pageStart p + next) % a.pageUnits = 0 ↔ next = a.pageUnits := by
  rw [Arch.pageStart, Nat.mul_add_mod_self_right]
  constructor
  · intro none'
    by_contra short
    rw [Nat.mod_eq_of_lt (by omega)] at none'
    omega
  · rintro rfl
    exact Nat.mod_self _

/-- What `set_slob` encodes is read back, and nothing else is touched. -/
theorem set_slob_round_trip (a : Arch) (mem : Memory) (p s size next : Nat) (positive : 0 < size)
    (fits : s + size ≤ a.pageUnits) (after : 0 < next) (within : next ≤ a.pageUnits) :
    let block := a.pageStart p + s
    let mem' := setSlob a mem block size (a.pageStart p + next)
    slobUnits mem' block = size ∧ slobNext a mem' block = a.pageStart p + next ∧
      (slobLast a mem' block = true ↔ next = a.pageUnits) ∧
      (∀ x ∈ [(size : Int), next, -next], IsSlobidx a x) ∧
      ∀ x, ¬ (block ≤ x ∧ x < block + min size 2) → mem' x = mem x := by
  let e : Extent := ⟨a.pageStart p + s, size⟩
  have whole := a.pageStart_add p
  have high : e.stop ≤ a.pageEnd p := by
    simp only [Extent.stop, e]
    omega
  have encodes : Encodes a (setSlob a mem e.start e.len (a.pageStart p + next)) e (a.pageStart p + next) :=
    setSlob_encodes (Nat.le_add_right ..) positive high (by omega) (by omega)
  refine ⟨encodes.units, encodes.next, ?_, ?_, fun x outside => setSlob_outside outside positive⟩
  · rw [slobLast, decide_eq_true_eq, encodes.next, pageStart_add_mod_iff after within]
  · intro x member
    simp only [List.mem_cons, List.not_mem_nil, or_false] at member
    exact isSlobidx_of_le (by omega) (by omega)

theorem set_slob_round_trip_one_unit :
    let mem' := setSlob x86 (fun _ => 5) (x86.pageStart 1 + 2047) (1 : Nat) (x86.pageStart 1 + 2048)
    slobUnits mem' (x86.pageStart 1 + 2047) = (1 : Nat) ∧ slobLast x86 mem' (x86.pageStart 1 + 2047) = true :=
  have trip := set_slob_round_trip x86 (fun _ => 5) 1 2047 1 2048 (by decide) (by decide) (by decide) (by decide)
  ⟨trip.1, trip.2.2.1.mpr rfl⟩

end

end Cs544.Slob
