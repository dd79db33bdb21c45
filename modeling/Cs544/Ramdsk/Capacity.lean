import Cs544.Ramdsk.Transfer

/-! The capacity that `ramdsk_device_init` advertises and the buffer behind it.

The size of the buffer is a product of two `int` parameters and the capacity one of
their quotients; both wrap. The block layer keeps requests inside the capacity, and
`ramdsk_transfer` refuses what does not fit into the size.
-/

set_option autoImplicit false

namespace Cs544.Ramdsk

open Cs544.Library
open Cs544.Slob (Arch x86)

/-- The module parameters: positive numbers of type `int`. -/
structure Params where
  nsectors : Nat
  hardsectSize : Nat
  nsectors_pos : 0 < nsectors
  nsectors_lt : nsectors < 2 ^ 31
  hardsectSize_pos : 0 < hardsectSize
  hardsectSize_lt : hardsectSize < 2 ^ 31

/-- What is left of a product of positive numbers in an `int`. -/
def int (n : Nat) : Int := (n : Int).bmod (2 ^ 32)

/-- An `int` passed as a `sector_t`, which has 64 bits. -/
def sectorT (x : Int) : Nat := (x % 2 ^ 64).toNat

theorem int_ge (n : Nat) : -2 ^ 31 ≤ int n := Int.le_bmod (by decide)

theorem int_lt (n : Nat) : int n < 2 ^ 31 := Int.bmod_lt (by decide)

/-- A device that is set up: its fields, the bytes that `vmalloc` returned for `data`, and
the capacity of its disk in sectors of 512 bytes. -/
structure Disk where
  dev : RamdskDev
  allocated : Nat
  capacity : Nat

/-- What `ramdsk_device_init` computes from the parameters. -/
def Params.disk (params : Params) (data : Nat → Byte) : Disk where
  dev := ⟨int (params.nsectors * params.hardsectSize), data, int_ge _, int_lt _⟩
  allocated := (int (params.nsectors * params.hardsectSize)).toNat
  capacity := sectorT (int (params.nsectors * (params.hardsectSize / sectorSize)))

/-- `ramdsk_device_init`, which completes when the buffer, the queue and the disk are
there. `vmalloc` returns `NULL` for no bytes, and for the number of bytes that a negative
`int` is as an `unsigned long`. -/
def ramdskDeviceInit (params : Params) (blkInitQueue allocDisk : Bool) (data : Nat → Byte) : Option Disk :=
  if 0 < (params.disk data).dev.size ∧ blkInitQueue = true ∧ allocDisk = true then some (params.disk data) else none

/-- A request passes the bounds check of `ramdsk_transfer`, and the scatterlist for the
device runs through allocated bytes only. -/
structure Served (a : Arch) (disk : Disk) (pos nsect : Nat) : Prop where
  passes : ¬ ulong a (ulong a (pos * sectorSize) + ulong a (nsect * sectorSize)) > sizeWord a disk.dev
  inside : ∀ x ∈ addresses (fillSgl a (ulong a (pos * sectorSize)) (ulong a (nsect * sectorSize))
    (npages a (ulong a (nsect * sectorSize))) 0), x < disk.allocated

/-- The size does not wrap, or there is no sector to advertise, or the capacity wraps too
and comes out small enough. -/
def Params.Honest (params : Params) : Prop :=
  params.nsectors * params.hardsectSize < 2 ^ 31 ∨ params.hardsectSize < sectorSize ∨
  (2 ^ 31 ≤ params.nsectors * (params.hardsectSize / sectorSize) ∧
    sectorSize * (params.nsectors * (params.hardsectSize / sectorSize) % 2 ^ 32) ≤
      params.nsectors * params.hardsectSize % 2 ^ 32)

variable {a : Arch} {params : Params} {disk : Disk} {data : Nat → Byte} {blkInitQueue allocDisk : Bool}

/-! ## Requests -/

theorem served_of_le {pos nsect : Nat} (range : InRange disk.dev pos nsect)
    (allocated : (disk.allocated : Int) = disk.dev.size) : Served a disk pos nsect := by
  have small := range.small
  have offset : ulong a (pos * sectorSize) = pos * sectorSize := ulong_eq (by omega)
  have nbytes : ulong a (nsect * sectorSize) = nsect * sectorSize := ulong_eq (by omega)
  have sum : ulong a (pos * sectorSize + nsect * sectorSize) = pos * sectorSize + nsect * sectorSize :=
    ulong_eq small
  constructor
  · rw [offset, nbytes, sum]
    exact Nat.not_lt.mpr range.le_sizeWord
  · rw [offset, nbytes]
    rcases Nat.eq_zero_or_pos nsect with rfl | positive
    · intro x member
      simp [addresses, npages, fillSgl] at member
    · rw [addresses_transfer range positive]
      intro x member
      have bounds := List.mem_range'_1.mp member
      rw [InRange, Nat.add_mul] at range
      omega

/-- All requests inside the capacity are served exactly when the capacity is no larger
than the buffer. -/
theorem all_served_iff (positive : 0 < disk.dev.size) (allocated : (disk.allocated : Int) = disk.dev.size) :
    (∀ pos nsect, pos + nsect ≤ disk.capacity → Served a disk pos nsect) ↔
      ((sectorSize * disk.capacity : Nat) : Int) ≤ disk.dev.size := by
  constructor
  · intro served
    by_contra larger
    -- The first sector that is not wholly in the buffer.
    obtain ⟨first, place⟩ : ∃ n, n = disk.dev.size.toNat / sectorSize := ⟨_, rfl⟩
    have size := disk.dev.size_lt
    simp only [sectorSize] at place larger
    have check := (served first 1 (by omega)).passes
    have word : 2 ^ 32 ≤ 2 ^ a.longBits := Nat.pow_le_pow_right (by decide) a.longBits_ge
    have small (n : Nat) (below : n < 2 ^ 32) : ulong a n = n := Nat.mod_eq_of_lt (by omega)
    have offset : ulong a (first * 512) = first * 512 := small _ (by omega)
    have nbytes : ulong a (1 * 512) = 512 := small _ (by decide)
    have sum : ulong a (first * 512 + 512) = first * 512 + 512 := small _ (by omega)
    have same : sizeWord a disk.dev = disk.dev.size.toNat := by
      rw [sizeWord, Int.emod_eq_of_lt (by omega) (lt_of_lt_of_le (b := 2 ^ 32) (by omega) (by exact_mod_cast word))]
    simp only [sectorSize, offset, nbytes, sum, same] at check
    omega
  · intro fits pos nsect within
    refine served_of_le ?_ allocated
    have := Nat.mul_le_mul_left sectorSize within
    rw [InRange, Nat.mul_comm]
    omega

/-! ## The two products -/

theorem sectorT_int (n : Nat) :
    (n % 2 ^ 32 < 2 ^ 31 ∧ sectorT (int n) = n % 2 ^ 32) ∨ 2 ^ 31 ≤ n % 2 ^ 32 ∧ 2 ^ 63 ≤ sectorT (int n) := by
  unfold sectorT int
  rw [Int.bmod_def]
  split <;> omega

theorem int_pos (n : Nat) (positive : 0 < int n) : int n = (n % 2 ^ 32 : Nat) ∧ n % 2 ^ 32 < 2 ^ 31 := by
  unfold int at *
  rw [Int.bmod_def] at *
  split at * <;> omega

/-- At least half of a sector size of 512 or more is in whole sectors. -/
theorem lt_double_whole (params : Params) (large : sectorSize ≤ params.hardsectSize) :
    params.nsectors * params.hardsectSize <
      2 * (sectorSize * (params.nsectors * (params.hardsectSize / sectorSize))) := by
  have half : params.hardsectSize < 2 * (sectorSize * (params.hardsectSize / sectorSize)) := by
    simp only [sectorSize] at *
    omega
  calc params.nsectors * params.hardsectSize
      < params.nsectors * (2 * (sectorSize * (params.hardsectSize / sectorSize))) :=
        Nat.mul_lt_mul_of_pos_left half params.nsectors_pos
    _ = 2 * (sectorSize * (params.nsectors * (params.hardsectSize / sectorSize))) := by ac_rfl

theorem whole_le (params : Params) :
    sectorSize * (params.nsectors * (params.hardsectSize / sectorSize)) ≤ params.nsectors * params.hardsectSize := by
  calc sectorSize * (params.nsectors * (params.hardsectSize / sectorSize))
      = params.nsectors * (sectorSize * (params.hardsectSize / sectorSize)) := by ac_rfl
    _ ≤ params.nsectors * params.hardsectSize := Nat.mul_le_mul_left _ (Nat.mul_div_le _ _)

theorem honest_iff (positive : 0 < (params.disk data).dev.size) :
    ((sectorSize * (params.disk data).capacity : Nat) : Int) ≤ (params.disk data).dev.size ↔ params.Honest := by
  simp only [Params.disk] at positive ⊢
  obtain ⟨size, positive'⟩ := int_pos _ positive
  have whole := whole_le params
  have half := lt_double_whole params
  have none' : params.hardsectSize < sectorSize →
      params.nsectors * (params.hardsectSize / sectorSize) = 0 := fun small => by
    rw [Nat.div_eq_of_lt small, Nat.mul_zero]
  rw [size, Params.Honest]
  generalize params.nsectors * params.hardsectSize = s at *
  generalize params.nsectors * (params.hardsectSize / sectorSize) = c at *
  have capacity := sectorT_int c
  simp only [sectorSize] at *
  omega

theorem ramdskDeviceInit_eq_some : ramdskDeviceInit params blkInitQueue allocDisk data = some disk ↔
    (0 < (params.disk data).dev.size ∧ blkInitQueue = true ∧ allocDisk = true) ∧ params.disk data = disk := by
  rw [ramdskDeviceInit, Option.ite_none_right_eq_some, Option.some.injEq]

/-- The advertised capacity is kept by the buffer exactly when the parameters are honest:
then every request inside the capacity passes the bounds check and stays in the buffer. -/
theorem ramdsk_capacity_served_iff (a : Arch) (params : Params) (blkInitQueue allocDisk : Bool)
    (data : Nat → Byte) (disk : Disk) (init : ramdskDeviceInit params blkInitQueue allocDisk data = some disk) :
    (∀ pos nsect, pos + nsect ≤ disk.capacity → Served a disk pos nsect) ↔ params.Honest := by
  obtain ⟨⟨positive, _⟩, rfl⟩ := ramdskDeviceInit_eq_some.mp init
  have allocated : ((params.disk data).allocated : Int) = (params.disk data).dev.size := by
    simp only [Params.disk] at positive ⊢
    omega
  rw [all_served_iff positive allocated]
  exact honest_iff positive

/-- The default parameters: 2048 sectors of 512 bytes. -/
theorem ramdsk_capacity_served_default :
    ∃ disk, ramdskDeviceInit ⟨2048, 512, by decide, by decide, by decide, by decide⟩ true true (fun _ => 0) =
      some disk ∧ disk.capacity = 2048 ∧
      ∀ pos nsect, pos + nsect ≤ disk.capacity → Served x86 disk pos nsect := by
  refine ⟨_, ramdskDeviceInit_eq_some.mpr ⟨⟨by decide +kernel, rfl, rfl⟩, rfl⟩, by decide +kernel, ?_⟩
  exact (ramdsk_capacity_served_iff x86 ⟨2048, 512, by decide, by decide, by decide, by decide⟩ true true
    (fun _ => 0) _ (ramdskDeviceInit_eq_some.mpr ⟨⟨by decide +kernel, rfl, rfl⟩, rfl⟩)).mpr (.inl (by decide))

/-- A drive of four gigabytes and one sector has a buffer of one sector, and the second
sector of it is refused. -/
theorem ramdsk_capacity_exceeds_buffer :
    ¬ ∀ (a : Arch) (params : Params) (blkInitQueue allocDisk : Bool) (data : Nat → Byte) (disk : Disk),
      ramdskDeviceInit params blkInitQueue allocDisk data = some disk →
      ∀ pos nsect, pos + nsect ≤ disk.capacity → Served a disk pos nsect := by
  intro served
  have refused := (served x86 ⟨8388609, 512, by decide, by decide, by decide, by decide⟩ true true (fun _ => 0) _
    (ramdskDeviceInit_eq_some.mpr ⟨⟨by decide +kernel, rfl, rfl⟩, rfl⟩) 1 1 (by decide +kernel)).passes
  exact refused (by decide +kernel)

end Cs544.Ramdsk
