import Cs544.Ramdsk.Transfer

/-! Read after write of the encrypted RAM disk.

Sector boundaries are block boundaries of the cipher, so a transfer covers whole
blocks of the device however it overlaps the ones before it. Decrypting the device
block by block therefore gives back the last text written to each byte.
-/

set_option autoImplicit false

namespace Cs544.Ramdsk

open Cs544.Library
open Cs544.Slob (Arch x86)

/-- One call of `ramdsk_transfer`. -/
structure Op where
  sector : Nat
  nsect : Nat
  buffer : Nat → Byte
  datadir : Bool
  calls : Calls

/-- The op writes the device byte at `x`. -/
def Op.Writes (op : Op) (x : Nat) : Prop :=
  op.datadir = true ∧ op.sector * sectorSize ≤ x ∧ x < (op.sector + op.nsect) * sectorSize

/-- The op stays on the device and all its calls succeed. -/
structure Op.Good (a : Arch) (dev : RamdskDev) (op : Op) : Prop where
  range : InRange dev op.sector op.nsect
  allocated : Allocated a op.calls op.nsect
  tfm : op.calls.tfm = true
  setkey : op.calls.setkey = 0
  ret : op.calls.ret = 0

/-- `b` is the byte the last op of the history that wrote to `x` put there. -/
def LastWrite (history : List Op) (x : Nat) (b : Byte) : Prop :=
  ∃ earlier op later, history = earlier ++ op :: later ∧ op.Writes x ∧
    b = op.buffer (x - op.sector * sectorSize) ∧ ∀ next ∈ later, ¬ next.Writes x

abbrev Block := Fin 16 → Byte

/-- The algorithm is ECB under this key: block by block, by a bijection and its inverse. -/
structure Ecb (alg : Algorithm) (key : List Byte) (enc dec : Block → Block) : Prop where
  encrypts : ∀ iv text, 16 ∣ text.length → alg.encrypt key iv text = transform 16 enc text
  decrypts : ∀ iv text, 16 ∣ text.length → alg.decrypt key iv text = transform 16 dec text
  inverse : ∀ block, dec (enc block) = block

/-- The device after a history of transfers. -/
def transfers (a : Arch) (alg : Algorithm) (key : List Byte) (dev : RamdskDev) :
    List Op → Except Fault RamdskDev
  | [] => .ok dev
  | op :: ops =>
      match ramdskTransfer a alg key op.calls dev op.sector op.nsect op.buffer op.datadir with
      | .error fault => .error fault
      | .ok t => transfers a alg key t.dev ops

variable {a : Arch} {alg : Algorithm} {key : List Byte} {enc dec : Block → Block} {dev dev' : RamdskDev}
  {op : Op} {history ops : List Op} {x : Nat} {b : Byte}

theorem lastWrite_snoc : LastWrite (history ++ [op]) x b ↔
    (op.Writes x ∧ b = op.buffer (x - op.sector * sectorSize)) ∨ (¬ op.Writes x ∧ LastWrite history x b) := by
  constructor
  · rintro ⟨earlier, last, later, split, writes, value, rest⟩
    rcases List.eq_nil_or_concat later with rfl | ⟨front, final, rfl⟩
    · obtain ⟨rfl, same⟩ := List.append_inj' split rfl
      cases same
      exact .inl ⟨writes, value⟩
    · rw [List.concat_eq_append] at rest split
      rw [← List.cons_append, ← List.append_assoc] at split
      obtain ⟨rfl, same⟩ := List.append_inj' split rfl
      cases same
      refine .inr ⟨rest op (by simp), earlier, last, front, rfl, writes, value, fun next member => ?_⟩
      exact rest next (by simp [member])
  · rintro (⟨writes, value⟩ | ⟨other, earlier, last, later, rfl, writes, value, rest⟩)
    · exact ⟨history, op, [], rfl, writes, value, by simp⟩
    · refine ⟨earlier, last, later ++ [op], by simp, writes, value, fun next member => ?_⟩
      rcases List.mem_append.mp member with old | new
      · exact rest next old
      · rw [List.mem_singleton.mp new]
        exact other

/-! ## One transfer -/

/-- The blocks of a sector range are whole: a byte and its block are on the same
side of every sector boundary. -/
theorem sector_block {y : Nat} (same : y / 16 = x / 16) (sector : Nat) :
    sector * sectorSize ≤ y ↔ sector * sectorSize ≤ x := by
  simp only [sectorSize]
  omega

theorem sixteen_dvd (n : Nat) : 16 ∣ n * sectorSize := ⟨n * 32, by simp only [sectorSize]; omega⟩

/-- A good write stores the cipher of the buffer in its range and nothing elsewhere. -/
theorem write_spec (ecb : Ecb alg key enc dec) (good : op.Good a dev) (write : op.datadir = true) :
    ∃ t, ramdskTransfer a alg key op.calls dev op.sector op.nsect op.buffer op.datadir = .ok t ∧
      t.dev.size = dev.size ∧ t.buffer = op.buffer ∧
      (∀ x, ¬ op.Writes x → t.dev.data x = dev.data x) ∧
      ∀ x, op.Writes x →
        t.dev.data x = blockwise 16 enc (fun y => op.buffer (y - op.sector * sectorSize)) x := by
  rw [ramdskTransfer_eq alg key good.range good.allocated good.tfm good.setkey]
  simp only [write, if_true, stored, good.ret, ciphered]
  rw [ecb.encrypts _ _ (by simpa [gather] using sixteen_dvd op.nsect)]
  refine ⟨_, rfl, rfl, rfl, fun x outside => ?_, fun x inside => ?_⟩
  · simp only
    rw [scatter_range' _ _ _ _ (by simp [gather])]
    simp only [Op.Writes, write, true_and, not_and, Nat.not_lt, Nat.add_mul] at outside
    split
    next behind =>
      have beyond := outside behind
      rw [List.getElem?_eq_none (by simp [gather]; omega), Option.getD_none]
    next => rfl
  · obtain ⟨_, low, high⟩ := inside
    rw [Nat.add_mul] at high
    have place : op.sector * sectorSize + (x - op.sector * sectorSize) = x := by omega
    simp only
    rw [scatter_range' _ _ _ _ (by simp [gather]), if_pos low,
      transform_gather (sixteen_dvd op.nsect) (by omega), Option.getD_some]
    have shift := blockwise_shift (f := enc) (m := fun y => op.buffer (y - op.sector * sectorSize))
      (i := x - op.sector * sectorSize) (sixteen_dvd op.sector)
    simp only [Nat.add_sub_cancel_left, place] at shift
    simpa using shift

/-- A good read leaves the device as it is and decrypts its range into the buffer. -/
theorem read_spec (ecb : Ecb alg key enc dec) (good : op.Good a dev) (read : op.datadir = false) :
    ∃ t, ramdskTransfer a alg key op.calls dev op.sector op.nsect op.buffer op.datadir = .ok t ∧
      t.dev = dev ∧
      (∀ i, i < op.nsect * sectorSize → t.buffer i = blockwise 16 dec dev.data (op.sector * sectorSize + i)) ∧
      ∀ i, op.nsect * sectorSize ≤ i → t.buffer i = op.buffer i := by
  rw [ramdskTransfer_eq alg key good.range good.allocated good.tfm good.setkey]
  simp only [read, Bool.false_eq_true, if_false, if_true, stored, good.ret, ciphered]
  rw [ecb.decrypts _ _ (by simpa [gather] using sixteen_dvd op.nsect)]
  refine ⟨_, rfl, rfl, fun i inside => ?_, fun i outside => ?_⟩
  · simp only
    rw [scatter_range' _ _ _ _ (by simp [gather]), if_pos (Nat.zero_le i), Nat.sub_zero,
      transform_gather (sixteen_dvd op.nsect) inside, Option.getD_some, blockwise_shift (sixteen_dvd op.sector)]
  · simp only
    rw [scatter_range' _ _ _ _ (by simp [gather]), if_pos (Nat.zero_le i), Nat.sub_zero,
      List.getElem?_eq_none (by simpa [gather] using outside), Option.getD_none]

/-! ## Histories -/

/-- Decrypting the device gives the last text written to every byte. -/
def Recalls (dec : Block → Block) (history : List Op) (dev : RamdskDev) : Prop :=
  ∀ x b, LastWrite history x b → blockwise 16 dec dev.data x = b

/-- Every transfer keeps what the device recalls, with the transfer added to the history. -/
theorem recalls_step (ecb : Ecb alg key enc dec) (good : op.Good a dev) (recalls : Recalls dec history dev) :
    ∃ t, ramdskTransfer a alg key op.calls dev op.sector op.nsect op.buffer op.datadir = .ok t ∧
      t.dev.size = dev.size ∧ Recalls dec (history ++ [op]) t.dev := by
  cases direction : op.datadir with
  | false =>
    obtain ⟨t, result, same, _⟩ := read_spec ecb good direction
    rw [direction] at result
    refine ⟨t, result, by rw [same], fun x b last => ?_⟩
    rw [same]
    rcases lastWrite_snoc.mp last with ⟨writes, _⟩ | ⟨_, old⟩
    · simp [Op.Writes, direction] at writes
    · exact recalls x b old
  | true =>
    obtain ⟨t, result, size, _, frame, cipher⟩ := write_spec ecb good direction
    rw [direction] at result
    refine ⟨t, result, size, fun x b last => ?_⟩
    have block {y : Nat} (same : y / 16 = x / 16) : op.Writes y ↔ op.Writes x := by
      simp only [Op.Writes, ← Nat.not_le, sector_block same]
    rcases lastWrite_snoc.mp last with ⟨writes, rfl⟩ | ⟨other, old⟩
    · rw [blockwise_congr fun y same => cipher y ((block same).mpr writes), blockwise_inverse ecb.inverse]
    · rw [← recalls x b old]
      exact blockwise_congr fun y same => frame y fun writes => other ((block same).mp writes)

theorem Op.Good.resize (good : op.Good a dev) (size : dev'.size = dev.size) : op.Good a dev' :=
  { good with range := by simpa only [InRange, size] using good.range }

theorem transfers_recall (ecb : Ecb alg key enc dec) (good : ∀ op ∈ ops, op.Good a dev)
    (recalls : Recalls dec history dev) :
    ∃ dev', transfers a alg key dev ops = .ok dev' ∧ dev'.size = dev.size ∧
      Recalls dec (history ++ ops) dev' := by
  induction ops generalizing dev history with
  | nil => exact ⟨dev, rfl, rfl, by simpa using recalls⟩
  | cons op ops ih =>
    obtain ⟨t, result, size, recalls'⟩ := recalls_step ecb (good op (by simp)) recalls
    obtain ⟨dev', rest, size', recalls''⟩ :=
      ih (fun next member => (good next (by simp [member])).resize size) recalls'
    refine ⟨dev', ?_, size'.trans size, by simpa using recalls''⟩
    simp only [transfers, result, rest]

/-- Read after write. After any history of good transfers a read puts into the
buffer, for every byte of its range ever written, the byte of the last write that
covered it, and nothing behind its range; a write changes no device byte outside of
its sectors. -/
theorem ramdsk_read_after_write (a : Arch) (alg : Algorithm) (key : List Byte) (enc dec : Block → Block)
    (ecb : Ecb alg key enc dec) (dev : RamdskDev) (history : List Op)
    (good : ∀ op ∈ history, op.Good a dev) :
    ∃ dev', transfers a alg key dev history = .ok dev' ∧
      (∀ op : Op, op.Good a dev → op.datadir = false →
        ∃ t, ramdskTransfer a alg key op.calls dev' op.sector op.nsect op.buffer false = .ok t ∧
          t.dev = dev' ∧
          (∀ i, i < op.nsect * sectorSize → ∀ b, LastWrite history (op.sector * sectorSize + i) b →
            t.buffer i = b) ∧
          ∀ i, op.nsect * sectorSize ≤ i → t.buffer i = op.buffer i) ∧
      ∀ op : Op, op.Good a dev → op.datadir = true →
        ∃ t, ramdskTransfer a alg key op.calls dev' op.sector op.nsect op.buffer true = .ok t ∧
          t.buffer = op.buffer ∧
          ∀ x, ¬ (op.sector * sectorSize ≤ x ∧ x < (op.sector + op.nsect) * sectorSize) →
            t.dev.data x = dev'.data x := by
  have start : Recalls dec [] dev := by
    rintro x b ⟨earlier, op, later, split, _⟩
    simp at split
  obtain ⟨dev', result, size, recalls⟩ := transfers_recall ecb good start
  refine ⟨dev', result, fun op fits read => ?_, fun op fits write => ?_⟩
  · obtain ⟨t, done, same, inside, outside⟩ := read_spec ecb (fits.resize size) read
    rw [read] at done
    refine ⟨t, done, same, fun i bound b last => ?_, outside⟩
    rw [inside i bound]
    exact recalls _ b last
  · obtain ⟨t, done, _, buffer, frame, _⟩ := write_spec ecb (fits.resize size) write
    rw [write] at done
    refine ⟨t, done, buffer, fun x outside => frame x fun writes => outside writes.2⟩

/-- Every byte XORed with the first byte of the key. -/
def xorBlock (key : List Byte) (block : Block) : Block := fun j => block j ^^^ key.headD 0

/-- An ECB algorithm over `xorBlock`. -/
def xorEcb : Algorithm where
  ivSize := 0
  encrypt key _ text := transform 16 (xorBlock key) text
  decrypt key _ text := transform 16 (xorBlock key) text
  length_encrypt _ _ _ := length_transform _
  length_decrypt _ _ _ := length_transform _

theorem xorEcb_ecb (key : List Byte) : Ecb xorEcb key (xorBlock key) (xorBlock key) where
  encrypts _ _ _ := rfl
  decrypts _ _ _ := rfl
  inverse block := by
    funext j
    simp only [xorBlock, UInt8.xor_assoc, UInt8.xor_self, UInt8.xor_zero]

/-- A disk of 4096 sectors; sectors 3 and 4 are written, then sector 4 again. -/
theorem ramdsk_read_after_write_overlapping :
    ∃ dev' t, transfers x86 xorEcb [7] ⟨2 ^ 21, fun _ => 0, by decide, by decide⟩
        [⟨3, 2, fun i => i.toUInt8, true, ⟨true, true, true, 0, 0, 0⟩⟩,
          ⟨4, 1, fun _ => 9, true, ⟨true, true, true, 0, 0, 0⟩⟩] = .ok dev' ∧
      ramdskTransfer x86 xorEcb [7] ⟨true, true, true, 0, 0, 0⟩ dev' 3 2 (fun _ => 0) false = .ok t ∧
      t.buffer 5 = 5 ∧ t.buffer 517 = 9 := by
  obtain ⟨dev', result, reads, _⟩ := ramdsk_read_after_write x86 xorEcb [7] (xorBlock [7]) (xorBlock [7])
    (xorEcb_ecb [7]) ⟨2 ^ 21, fun _ => 0, by decide, by decide⟩
    [⟨3, 2, fun i => i.toUInt8, true, ⟨true, true, true, 0, 0, 0⟩⟩,
      ⟨4, 1, fun _ => 9, true, ⟨true, true, true, 0, 0, 0⟩⟩] (by
      simp only [List.mem_cons, List.not_mem_nil, or_false, forall_eq_or_imp, forall_eq]
      exact ⟨⟨by decide, by decide, rfl, rfl, rfl⟩,
        ⟨by decide, by decide, rfl, rfl, rfl⟩⟩)
  obtain ⟨t, read, _, bytes, _⟩ := reads ⟨3, 2, fun _ => 0, false, ⟨true, true, true, 0, 0, 0⟩⟩
    ⟨by decide, by decide, rfl, rfl, rfl⟩ rfl
  refine ⟨dev', t, result, read, bytes 5 (by decide) 5 ?_, bytes 517 (by decide) 9 ?_⟩
  · exact ⟨[], _, _, rfl, ⟨rfl, by decide, by decide⟩, by decide, by simp [Op.Writes, sectorSize]⟩
  · exact ⟨[_], _, [], rfl, ⟨rfl, by decide, by decide⟩, by decide, by simp⟩

end Cs544.Ramdsk
