import Cs544.Library.Extents
import Cs544.Library.Scatter
import Cs544.Slob.Layout

/-! `ramdsk_transfer` of the encrypted RAM disk.

The crypto API is a parameter: an algorithm acts on the concatenation of the
segments of a scatterlist, and the outcome of every call that can fail is an
argument. What a transfer did is returned with it, as the caller of the `void`
function never learns it.
-/

set_option autoImplicit false

namespace Cs544.Ramdsk

open Cs544.Library
open Cs544.Slob (Arch)

abbrev Byte := UInt8

/-- `KERNEL_SECTOR_SIZE`. -/
def sectorSize : Nat := 512

/-- How the driver can fail to return. -/
inductive Fault where
  | oops
  | diverges
  deriving DecidableEq, Repr

/-- `struct ramdsk_dev`: the `int` size and the buffer `data` points to. -/
structure RamdskDev where
  size : Int
  data : Nat → Byte
  size_ge : -2 ^ 31 ≤ size
  size_lt : size < 2 ^ 31

/-- A block cipher algorithm of the crypto API. Ciphers keep the length of the text. -/
structure Algorithm where
  ivSize : Nat
  encrypt : (key iv text : List Byte) → List Byte
  decrypt : (key iv text : List Byte) → List Byte
  length_encrypt : ∀ key iv text, (encrypt key iv text).length = text.length
  length_decrypt : ∀ key iv text, (decrypt key iv text).length = text.length

/-- The outcome of the calls made during one transfer: the two `vmalloc` calls,
`crypto_alloc_blkcipher`, `crypto_blkcipher_setkey` and the cipher. A cipher call
that returns an error has still processed some bytes. -/
structure Calls where
  sgIn : Bool
  sgOut : Bool
  tfm : Bool
  setkey : Nat
  ret : Nat
  processed : Nat
  deriving DecidableEq, Repr

variable (a : Arch)

def ulong (n : Nat) : Nat := n % 2 ^ a.longBits

/-- `dev->size` where it is compared with an `unsigned long`. -/
def sizeWord (dev : RamdskDev) : Nat := (dev.size % 2 ^ a.longBits).toNat

/-- The number of scatterlist entries, an `unsigned int`. -/
def npages (nbytes : Nat) : Nat :=
  let n := (nbytes % 2 ^ 32 / a.pageSize + 1) % 2 ^ 32
  if nbytes % a.pageSize = 0 then (n + 2 ^ 32 - 1) % 2 ^ 32 else n

/-- The entries `fill_sgl` sets from entry `page_off / PAGE_SIZE` on. -/
def fillSgl (buffer bufL : Nat) : Nat → Nat → List Extent
  | 0, _ => []
  | n + 1, pageOff =>
      let size :=
        if ulong a (pageOff + a.pageSize) > bufL then ulong a (bufL + 2 ^ a.longBits - pageOff) % 2 ^ 32
        else a.pageSize
      ⟨buffer + pageOff, size⟩ :: fillSgl buffer bufL n (ulong a (pageOff + a.pageSize))

/-- The addresses a scatterlist runs through. -/
def addresses (sgl : List Extent) : List Nat := sgl.flatMap fun s => List.range' s.start s.len

/-- Whether `vmalloc(sizeof(struct scatterlist) * npages)` returns memory; a request
for no bytes never does. -/
def vmalloc (granted : Bool) (npages : Nat) : Bool := granted && npages != 0

/-- What a transfer leaves behind. `moved` is the part of `dev->data` that was
exchanged with the buffer; it is empty when the cipher was not reached. -/
structure Transfer where
  dev : RamdskDev
  buffer : Nat → Byte
  moved : Extent

/-- The bytes a cipher call has stored when it returns. -/
def stored (calls : Calls) (text : List Byte) : List Byte :=
  if calls.ret = 0 then text else text.take calls.processed

/-- `ramdsk_transfer`; `datadir` is set for a write. -/
def ramdskTransfer (alg : Algorithm) (key : List Byte) (calls : Calls) (dev : RamdskDev)
    (sector nsect : Nat) (buffer : Nat → Byte) (datadir : Bool) : Except Fault Transfer :=
  let offset := ulong a (sector * sectorSize)
  let nbytes := ulong a (nsect * sectorSize)
  let n := npages a nbytes
  if !calls.tfm then .ok ⟨dev, buffer, ⟨0, 0⟩⟩
  else if calls.setkey ≠ 0 then .ok ⟨dev, buffer, ⟨0, 0⟩⟩
  -- sg_init_table does not look whether the tables are there.
  else if !(vmalloc calls.sgIn n && vmalloc calls.sgOut n) then .error .oops
  else if ulong a (offset + nbytes) > sizeWord a dev then .ok ⟨dev, buffer, ⟨0, 0⟩⟩
  else
    let onBuffer := addresses (fillSgl a 0 nbytes n 0)
    let onDevice := addresses (fillSgl a offset nbytes n 0)
    let iv := List.replicate alg.ivSize 0xFF
    if datadir then
      let text := (gather buffer onBuffer).take (nbytes % 2 ^ 32)
      let out := stored calls (alg.encrypt key iv text)
      .ok ⟨{ dev with data := scatter dev.data onDevice out }, buffer, ⟨offset, out.length⟩⟩
    else
      let text := (gather dev.data onDevice).take (nbytes % 2 ^ 32)
      let out := stored calls (alg.decrypt key iv text)
      .ok ⟨dev, scatter buffer onBuffer out, ⟨offset, out.length⟩⟩

/-! ## Scatterlists -/

variable {a} {dev : RamdskDev} {sector nsect nbytes : Nat}

theorem npages_spec (positive : 0 < nbytes) (small : nbytes < 2 ^ 32) :
    nbytes ≤ npages a nbytes * a.pageSize ∧ (npages a nbytes - 1) * a.pageSize < nbytes := by
  have page := a.pageSize_ge
  have whole := Nat.div_add_mod nbytes a.pageSize
  have rest := Nat.mod_lt nbytes (show 0 < a.pageSize by omega)
  have quotient : nbytes / a.pageSize ≤ nbytes / 32 := Nat.div_le_div_left page (by decide)
  rw [Nat.mul_comm] at whole
  unfold npages
  rw [Nat.mod_eq_of_lt small]
  simp only
  rw [Nat.mod_eq_of_lt (show nbytes / a.pageSize + 1 < 2 ^ 32 by omega)]
  split
  next exact' =>
    have some' : nbytes / a.pageSize ≠ 0 := fun none' => by
      rw [none', exact'] at whole
      omega
    have pages (q : Nat) (bound : q < 2 ^ 32) : (q + 1 + 2 ^ 32 - 1) % 2 ^ 32 = q := by omega
    rw [pages _ (by omega), Nat.sub_mul]
    omega
  next =>
    rw [Nat.add_mul]
    simp only [Nat.add_sub_cancel]
    omega

theorem npages_eq_ceil (positive : 0 < nbytes) (small : nbytes < 2 ^ 32) :
    npages a nbytes = (nbytes + a.pageSize - 1) / a.pageSize := by
  obtain ⟨enough, needed⟩ := npages_spec (a := a) positive small
  have page := a.pageSize_ge
  have some' : 0 < npages a nbytes := by
    by_contra none'
    rw [Nat.eq_zero_of_not_pos none', Nat.zero_mul] at enough
    omega
  rw [Nat.sub_mul, Nat.one_mul] at needed
  have whole := Nat.le_mul_of_pos_left a.pageSize some'
  symm
  apply Nat.div_eq_of_lt_le
  · omega
  · rw [Nat.add_mul, Nat.one_mul]
    omega

@[simp] theorem length_fillSgl (buffer bufL n pageOff : Nat) : (fillSgl a buffer bufL n pageOff).length = n := by
  induction n generalizing pageOff with
  | zero => rfl
  | succ n ih => rw [fillSgl, List.length_cons, ih]

structure Scatterlist (a : Arch) (sgl : List Extent) (buffer stop : Nat) : Prop where
  consecutive : Consecutive buffer sgl stop
  nonempty : ∀ s ∈ sgl, 0 < s.len
  page : ∀ s ∈ sgl, s.len ≤ a.pageSize

/-- `fill_sgl` cuts the bytes of the buffer into pages, and what is left over. -/
theorem fillSgl_scatterlist (buffer bufL n pageOff : Nat) (small : bufL < 2 ^ 32)
    (word : bufL + a.pageSize ≤ 2 ^ a.longBits) (needed : pageOff + n * a.pageSize < bufL)
    (enough : bufL ≤ pageOff + (n + 1) * a.pageSize) :
    Scatterlist a (fillSgl a buffer bufL (n + 1) pageOff) (buffer + pageOff) (buffer + bufL) := by
  have page := a.pageSize_ge
  induction n generalizing pageOff with
  | zero =>
    simp only [Nat.zero_mul, Nat.add_zero, Nat.zero_add, Nat.one_mul] at needed enough
    have wrap : ulong a (pageOff + a.pageSize) = pageOff + a.pageSize := Nat.mod_eq_of_lt (by omega)
    have rest : ulong a (bufL + 2 ^ a.longBits - pageOff) % 2 ^ 32 = bufL - pageOff := by
      have word' : (bufL - pageOff) % 2 ^ a.longBits = bufL - pageOff := Nat.mod_eq_of_lt (by omega)
      rw [ulong, Nat.sub_add_comm (by omega), Nat.add_mod_right, word', Nat.mod_eq_of_lt (by omega)]
    have last : fillSgl a buffer bufL 1 pageOff = [⟨buffer + pageOff, bufL - pageOff⟩] := by
      rw [fillSgl, fillSgl, wrap, rest]
      by_cases partial' : pageOff + a.pageSize > bufL
      · rw [if_pos partial']
      · rw [if_neg partial', show a.pageSize = bufL - pageOff by omega]
    rw [last]
    refine ⟨⟨rfl, ?_⟩, ?_, ?_⟩
    · simp only [Extent.stop, Consecutive]
      omega
    · simpa using needed
    · simpa [Nat.add_comm] using enough
  | succ n ih =>
    rw [Nat.add_mul, Nat.one_mul] at needed
    rw [Nat.add_mul (n + 1), Nat.one_mul] at enough
    have wrap : ulong a (pageOff + a.pageSize) = pageOff + a.pageSize := Nat.mod_eq_of_lt (by omega)
    have whole : ¬ pageOff + a.pageSize > bufL := by omega
    have tail := ih (pageOff + a.pageSize) (by omega) (by omega)
    rw [fillSgl, wrap, if_neg whole]
    refine ⟨⟨rfl, ?_⟩, ?_, ?_⟩
    · rw [Extent.stop, Nat.add_assoc]
      exact tail.consecutive
    · exact List.forall_mem_cons.mpr ⟨by simp only; omega, tail.nonempty⟩
    · exact List.forall_mem_cons.mpr ⟨Nat.le_refl _, tail.page⟩

theorem fillSgl_npages (buffer : Nat) (positive : 0 < nbytes) (small : nbytes < 2 ^ 32)
    (word : nbytes + a.pageSize ≤ 2 ^ a.longBits) :
    Scatterlist a (fillSgl a buffer nbytes (npages a nbytes) 0) buffer (buffer + nbytes) := by
  obtain ⟨enough, needed⟩ := npages_spec (a := a) positive small
  obtain ⟨n, pages⟩ : ∃ n, npages a nbytes = n + 1 := by
    refine ⟨npages a nbytes - 1, ?_⟩
    have some' : npages a nbytes ≠ 0 := fun none' => by
      rw [none', Nat.zero_mul] at enough
      omega
    omega
  rw [pages, Nat.add_sub_cancel] at needed
  rw [pages] at enough ⊢
  exact fillSgl_scatterlist buffer nbytes n 0 small word (by omega) (by omega)

/-- A range of memory that a kernel pointer can be to: all its bytes have an address, and
none of them lies in the page of `NULL`. -/
structure InMemory (a : Arch) (buffer nbytes : Nat) : Prop where
  nonnull : a.pageSize ≤ buffer
  fits : buffer + nbytes ≤ 2 ^ a.longBits

/-- Scatterlists cover a transfer exactly. -/
theorem fill_sgl_covers (a : Arch) (nsect buffer : Nat) (positive : 0 < nsect) (small : nsect * sectorSize < 2 ^ 32)
    (memory : InMemory a buffer (nsect * sectorSize)) :
    let nbytes := ulong a (nsect * sectorSize)
    let sgl := fillSgl a buffer nbytes (npages a nbytes) 0
    nbytes = nsect * sectorSize ∧ sgl.length = npages a nbytes ∧
      npages a nbytes = (nbytes + a.pageSize - 1) / a.pageSize ∧
      (∀ s ∈ sgl, 0 < s.len ∧ s.len ≤ a.pageSize) ∧ Consecutive buffer sgl (buffer + nbytes) ∧
      addresses sgl = List.range' buffer nbytes := by
  have word : 2 ^ 32 ≤ 2 ^ a.longBits := Nat.pow_le_pow_right (by decide) a.longBits_ge
  have bytes : ulong a (nsect * sectorSize) = nsect * sectorSize := Nat.mod_eq_of_lt (by omega)
  have some' : 0 < nsect * sectorSize := Nat.mul_pos positive (by decide)
  have nonnull := memory.nonnull
  have fits := memory.fits
  have sgl := fillSgl_npages (a := a) buffer some' small (by omega)
  have positions := sgl.consecutive.positions
  rw [Nat.add_sub_cancel_left] at positions
  rw [bytes]
  exact ⟨rfl, length_fillSgl .., npages_eq_ceil some' small,
    fun s member => ⟨sgl.nonempty s member, sgl.page s member⟩,
    sgl.consecutive, positions⟩

/-- Nine sectors take a page and a remainder. -/
theorem fill_sgl_covers_nine_sectors :
    InMemory Slob.x86 8192 (9 * sectorSize) ∧
      addresses (fillSgl Slob.x86 8192 (ulong Slob.x86 4608) (npages Slob.x86 (ulong Slob.x86 4608)) 0) =
        List.range' 8192 (ulong Slob.x86 4608) :=
  have memory : InMemory Slob.x86 8192 (9 * sectorSize) := ⟨by decide, by decide⟩
  ⟨memory, (fill_sgl_covers Slob.x86 9 8192 (by decide) (by decide) memory).2.2.2.2.2⟩

/-! ## What a transfer does -/

def InRange (dev : RamdskDev) (sector nsect : Nat) : Prop :=
  (((sector + nsect) * sectorSize : Nat) : Int) ≤ dev.size

instance (dev : RamdskDev) (sector nsect : Nat) : Decidable (InRange dev sector nsect) :=
  inferInstanceAs (Decidable (_ ≤ _))

def Allocated (a : Arch) (calls : Calls) (nsect : Nat) : Prop :=
  vmalloc calls.sgIn (npages a (ulong a (nsect * sectorSize))) = true ∧
    vmalloc calls.sgOut (npages a (ulong a (nsect * sectorSize))) = true

instance (a : Arch) (calls : Calls) (nsect : Nat) : Decidable (Allocated a calls nsect) :=
  inferInstanceAs (Decidable (_ ∧ _))

variable {calls : Calls}

theorem Allocated.positive (allocated : Allocated a calls nsect) : 0 < nsect := by
  rcases Nat.eq_zero_or_pos nsect with rfl | positive
  · have none' : npages a (ulong a (0 * sectorSize)) = 0 := by simp [npages, ulong]
    have granted := allocated.1
    rw [none'] at granted
    simp [vmalloc] at granted
  · exact positive

theorem InRange.small (range : InRange dev sector nsect) :
    sector * sectorSize + nsect * sectorSize < 2 ^ 31 := by
  have size := dev.size_lt
  rw [InRange, Nat.add_mul] at range
  omega

theorem ulong_eq {n : Nat} (small : n < 2 ^ 31) : ulong a n = n := by
  refine Nat.mod_eq_of_lt (Nat.lt_trans small (Nat.lt_of_lt_of_le (by decide : 2 ^ 31 < 2 ^ 32) ?_))
  exact Nat.pow_le_pow_right (by decide) a.longBits_ge

theorem InRange.le_sizeWord (range : InRange dev sector nsect) :
    sector * sectorSize + nsect * sectorSize ≤ sizeWord a dev := by
  have low : (0 : Int) ≤ dev.size := le_trans (Int.natCast_nonneg _) range
  have word : (dev.size : Int) < 2 ^ a.longBits := by
    refine lt_of_lt_of_le dev.size_lt (le_trans (by decide : (2 ^ 31 : Int) ≤ 2 ^ 32) ?_)
    exact pow_le_pow_right₀ (by decide) a.longBits_ge
  have same : dev.size % 2 ^ a.longBits = dev.size := Int.emod_eq_of_lt low word
  rw [sizeWord, same, ← Nat.add_mul]
  exact Int.le_toNat low |>.mpr range

/-- The scatterlists of a transfer on the device run through exactly its bytes. -/
theorem addresses_transfer (range : InRange dev sector nsect) (positive : 0 < nsect) (buffer : Nat) :
    addresses (fillSgl a buffer (nsect * sectorSize) (npages a (nsect * sectorSize)) 0) =
      List.range' buffer (nsect * sectorSize) := by
  have small := range.small
  have some' : 0 < nsect * sectorSize := Nat.mul_pos positive (by decide)
  have page : a.pageSize ≤ 2 ^ 30 := Nat.pow_le_pow_right (by decide) a.pageShift_le
  have word : 2 ^ 32 ≤ 2 ^ a.longBits := Nat.pow_le_pow_right (by decide) a.longBits_ge
  have positions := (fillSgl_npages (a := a) buffer some' (by omega) (by omega)).consecutive.positions
  rwa [Nat.add_sub_cancel_left] at positions

/-- The text that reaches the other side: what the cipher makes of the message. -/
def ciphered (alg : Algorithm) (key : List Byte) (datadir : Bool) (text : List Byte) : List Byte :=
  if datadir then alg.encrypt key (List.replicate alg.ivSize 0xFF) text
  else alg.decrypt key (List.replicate alg.ivSize 0xFF) text

theorem length_ciphered (alg : Algorithm) (key : List Byte) (datadir : Bool) (text : List Byte) :
    (ciphered alg key datadir text).length = text.length := by
  cases datadir
  · exact alg.length_decrypt _ _ _
  · exact alg.length_encrypt _ _ _

/-- A transfer on the device whose set-up succeeds. -/
theorem ramdskTransfer_eq (alg : Algorithm) (key : List Byte) (range : InRange dev sector nsect)
    (allocated : Allocated a calls nsect) (tfm : calls.tfm = true) (setkey : calls.setkey = 0)
    (buffer : Nat → Byte) (datadir : Bool) :
    ramdskTransfer a alg key calls dev sector nsect buffer datadir =
      let onBuffer := List.range' 0 (nsect * sectorSize)
      let onDevice := List.range' (sector * sectorSize) (nsect * sectorSize)
      let out := stored calls (ciphered alg key datadir
        (if datadir then gather buffer onBuffer else gather dev.data onDevice))
      .ok ⟨if datadir then { dev with data := scatter dev.data onDevice out } else dev,
        if datadir then buffer else scatter buffer onBuffer out, ⟨sector * sectorSize, out.length⟩⟩ := by
  have small := range.small
  have offset : ulong a (sector * sectorSize) = sector * sectorSize := ulong_eq (by omega)
  have nbytes : ulong a (nsect * sectorSize) = nsect * sectorSize := ulong_eq (by omega)
  have sum : ulong a (sector * sectorSize + nsect * sectorSize) = sector * sectorSize + nsect * sectorSize :=
    ulong_eq small
  have inside := range.le_sizeWord (a := a)
  have positive := allocated.positive
  obtain ⟨sgIn, sgOut⟩ := allocated
  rw [nbytes] at sgIn sgOut
  have whole : nsect * sectorSize % 2 ^ 32 = nsect * sectorSize := Nat.mod_eq_of_lt (by omega)
  have take (mem : Nat → Byte) (start : Nat) :
      (gather mem (List.range' start (nsect * sectorSize))).take (nsect * sectorSize) =
        gather mem (List.range' start (nsect * sectorSize)) :=
    List.take_of_length_le (by simp [gather])
  simp only [ramdskTransfer, offset, nbytes, sum, sgIn, sgOut, tfm, setkey, Bool.not_true,
    Bool.and_true, Bool.false_eq_true, if_false, ne_eq, not_true_eq_false, Nat.not_lt.mpr inside,
    addresses_transfer range positive, whole, take, ciphered]
  cases datadir <;> rfl

end Cs544.Ramdsk
