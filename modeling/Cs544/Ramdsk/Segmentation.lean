import Cs544.Library.Pieces
import Cs544.Ramdsk.Transfer

/-! Data written with one segmentation and read with another.

`ramdsk_transfer` makes one message of every segment and starts it with the same IV. What
is stored is therefore the sequence of the messages of the write, and the read takes it
for the sequence of its own messages.
-/

set_option autoImplicit false

namespace Cs544.Ramdsk

open Cs544.Library
open Cs544.Slob (Arch x86)

/-- All calls of a transfer succeed. -/
def succeeding : Calls := ⟨true, true, true, 0, 0, 0⟩

section
variable (a : Arch) (alg : Algorithm) (key : List Byte)

/-- The transfers of a write; `cuts` are the sectors of its segments. -/
def writeSegments : RamdskDev → Nat → List Nat → (Nat → Byte) → Except Fault RamdskDev
  | dev, _, [], _ => .ok dev
  | dev, sector, n :: cuts, data =>
      match ramdskTransfer a alg key succeeding dev sector n data true with
      | .error fault => .error fault
      | .ok t => writeSegments t.dev (sector + n) cuts fun i => data (n * sectorSize + i)

/-- The transfers of a read, and what they put into buffers that hold `blank` before. -/
def readSegments (blank : Nat → Byte) : RamdskDev → Nat → List Nat → Except Fault (List Byte)
  | _, _, [] => .ok []
  | dev, sector, n :: cuts =>
      match ramdskTransfer a alg key succeeding dev sector n blank false with
      | .error fault => .error fault
      | .ok t =>
          match readSegments blank t.dev (sector + n) cuts with
          | .error fault => .error fault
          | .ok bytes => .ok (gather t.buffer (List.range' 0 (n * sectorSize)) ++ bytes)

/-- The data written with the first segmentation is what the second one reads. -/
def ReadsBack (dev : RamdskDev) (sector : Nat) (first second : List Nat) (data blank : Nat → Byte) : Prop :=
  ∃ dev', writeSegments a alg key dev sector first data = .ok dev' ∧
    readSegments a alg key blank dev' sector second = .ok (gather data (List.range' 0 (first.sum * sectorSize)))

end

/-- A cipher with an IV that undoes the messages it makes under the key. A message is a
whole number of sectors. -/
structure IvCipher (alg : Algorithm) (key : List Byte) : Prop where
  usesIv : 0 < alg.ivSize
  inverse : ∀ iv text, iv.length = alg.ivSize → sectorSize ∣ text.length →
    alg.decrypt key iv (alg.encrypt key iv text) = text

variable (a : Arch) (alg : Algorithm) (key : List Byte) {dev : RamdskDev} {sector n : Nat}

/-! ## Transfers as messages -/

def sizesOf (cuts : List Nat) : List Nat := cuts.map (· * sectorSize)

theorem sizesOf_cons (n : Nat) (cuts : List Nat) : sizesOf (n :: cuts) = n * sectorSize :: sizesOf cuts := rfl

theorem sum_sizesOf (cuts : List Nat) : (sizesOf cuts).sum = cuts.sum * sectorSize := by
  induction cuts with
  | nil => rfl
  | cons n cuts ih =>
    rw [sizesOf_cons, List.sum_cons, List.sum_cons, Nat.add_mul, ih]

theorem allocated_succeeding (range : InRange dev sector n) (positive : 0 < n) : Allocated a succeeding n := by
  have small := range.small
  have some' : 0 < n * sectorSize := Nat.mul_pos positive (by decide)
  have bytes : ulong a (n * sectorSize) = n * sectorSize := ulong_eq (by omega)
  have enough := (npages_spec (a := a) some' (by omega)).1
  have pages : npages a (n * sectorSize) ≠ 0 := fun none' => by
    rw [none'] at enough
    omega
  simp [Allocated, vmalloc, succeeding, bytes, pages]

theorem InRange.first {k : Nat} (range : InRange dev sector (n + k)) :
    InRange dev sector n ∧ InRange dev (sector + n) k := by
  simp only [InRange, Nat.add_mul] at *
  omega

theorem write_segment (range : InRange dev sector n) (positive : 0 < n) (data : Nat → Byte) :
    ∃ t, ramdskTransfer a alg key succeeding dev sector n data true = .ok t ∧ t.dev.size = dev.size ∧
      t.dev.data = scatter dev.data (List.range' (sector * sectorSize) (n * sectorSize))
        (ciphered alg key true (gather data (List.range' 0 (n * sectorSize)))) := by
  rw [ramdskTransfer_eq alg key range (allocated_succeeding a range positive) rfl rfl]
  exact ⟨_, rfl, rfl, rfl⟩

theorem read_segment (range : InRange dev sector n) (positive : 0 < n) (blank : Nat → Byte) :
    ∃ t, ramdskTransfer a alg key succeeding dev sector n blank false = .ok t ∧ t.dev = dev ∧
      gather t.buffer (List.range' 0 (n * sectorSize)) =
        ciphered alg key false (gather dev.data (List.range' (sector * sectorSize) (n * sectorSize))) := by
  rw [ramdskTransfer_eq alg key range (allocated_succeeding a range positive) rfl rfl]
  refine ⟨_, rfl, rfl, ?_⟩
  exact gather_scatter _ _ _ _ (by simp [stored, succeeding, length_ciphered, gather])

theorem gather_congr {mem mem' : Nat → Byte} {start k : Nat} (same : ∀ x < start + k, mem x = mem' x) :
    gather mem (List.range' start k) = gather mem' (List.range' start k) := by
  refine List.map_congr_left fun x member => same x ?_
  exact (List.mem_range'_1.mp member).2

/-- What a write leaves on its range: one message for each of its segments. -/
theorem writeSegments_eq (cuts : List Nat) (data : Nat → Byte) (positive : ∀ n ∈ cuts, 0 < n)
    (range : InRange dev sector cuts.sum) :
    ∃ dev', writeSegments a alg key dev sector cuts data = .ok dev' ∧ dev'.size = dev.size ∧
      (∀ x < sector * sectorSize, dev'.data x = dev.data x) ∧
      gather dev'.data (List.range' (sector * sectorSize) (cuts.sum * sectorSize)) =
        piecewise (ciphered alg key true) (sizesOf cuts) (gather data (List.range' 0 (cuts.sum * sectorSize))) := by
  induction cuts generalizing dev sector data with
  | nil => exact ⟨dev, rfl, rfl, fun _ _ => rfl, by simp [gather, sizesOf]⟩
  | cons n cuts ih =>
    rw [List.sum_cons] at range ⊢
    obtain ⟨here, behind⟩ := range.first
    obtain ⟨t, result, size, stored'⟩ := write_segment a alg key here (positive n (by simp)) data
    have behind' : InRange t.dev (sector + n) cuts.sum := by simpa only [InRange, size] using behind
    obtain ⟨dev', rest, size', frame, messages⟩ := ih (fun i => data (n * sectorSize + i))
      (fun m member => positive m (by simp [member])) behind'
    refine ⟨dev', by simp only [writeSegments, result, rest], size'.trans size, fun x below => ?_, ?_⟩
    · rw [frame x (by rw [Nat.add_mul]; omega), stored',
        scatter_range' _ _ _ _ (by simp [length_ciphered, gather]), if_neg (by omega)]
    · have first : gather dev'.data (List.range' (sector * sectorSize) (n * sectorSize)) =
          ciphered alg key true (gather data (List.range' 0 (n * sectorSize))) := by
        rw [gather_congr fun x below => frame x (by rw [Nat.add_mul]; exact below), stored']
        exact gather_scatter _ _ _ _ (by simp [length_ciphered, gather])
      rw [Nat.add_mul] at messages
      rw [gather_shift, Nat.add_zero] at messages
      rw [Nat.add_mul, gather_append, first, messages, gather_append data, Nat.zero_add, sizesOf_cons,
        piecewise_cons (by simp [gather])]

/-- What a read makes of its range: it undoes one message for each of its segments. -/
theorem readSegments_eq (cuts : List Nat) (blank : Nat → Byte) (positive : ∀ n ∈ cuts, 0 < n)
    (range : InRange dev sector cuts.sum) :
    readSegments a alg key blank dev sector cuts =
      .ok (piecewise (ciphered alg key false) (sizesOf cuts)
        (gather dev.data (List.range' (sector * sectorSize) (cuts.sum * sectorSize)))) := by
  induction cuts generalizing sector with
  | nil => rfl
  | cons n cuts ih =>
    rw [List.sum_cons] at range ⊢
    obtain ⟨here, behind⟩ := range.first
    obtain ⟨t, result, same, bytes⟩ := read_segment a alg key here (positive n (by simp)) blank
    have rest := ih (fun m member => positive m (by simp [member])) behind
    rw [Nat.add_mul] at rest
    simp only [readSegments, result, same, rest, bytes]
    rw [Nat.add_mul, gather_append, sizesOf_cons, piecewise_cons (by simp [gather])]

theorem readsBack_iff {first second : List Nat} {data blank : Nat → Byte} (positive : ∀ n ∈ first, 0 < n)
    (positive' : ∀ n ∈ second, 0 < n) (same : first.sum = second.sum) (range : InRange dev sector first.sum) :
    ReadsBack a alg key dev sector first second data blank ↔
      piecewise (ciphered alg key false) (sizesOf second) (piecewise (ciphered alg key true) (sizesOf first)
        (gather data (List.range' 0 (first.sum * sectorSize)))) =
      gather data (List.range' 0 (first.sum * sectorSize)) := by
  obtain ⟨dev', written, size, _, messages⟩ :=
    writeSegments_eq a alg key first data positive range
  have range' : InRange dev' sector second.sum := by simpa only [InRange, size, ← same] using range
  have read := readSegments_eq a alg key second blank positive' range'
  rw [← same, messages] at read
  simp only [ReadsBack, written, Except.ok.injEq, exists_eq_left', read]

/-! ## Chaining with a cipher that does nothing

`cbc(cipher_null)` has blocks and an IV of one byte.
-/

def cbcEncrypt (iv : Byte) : List Byte → List Byte
  | [] => []
  | p :: text => (p ^^^ iv) :: cbcEncrypt (p ^^^ iv) text

def cbcDecrypt (iv : Byte) : List Byte → List Byte
  | [] => []
  | c :: text => (c ^^^ iv) :: cbcDecrypt c text

@[simp] theorem length_cbcEncrypt (iv : Byte) (text : List Byte) : (cbcEncrypt iv text).length = text.length := by
  induction text generalizing iv with
  | nil => rfl
  | cons p text ih => simp [cbcEncrypt, ih]

@[simp] theorem length_cbcDecrypt (iv : Byte) (text : List Byte) : (cbcDecrypt iv text).length = text.length := by
  induction text generalizing iv with
  | nil => rfl
  | cons c text ih => simp [cbcDecrypt, ih]

theorem cbcDecrypt_cbcEncrypt (iv : Byte) (text : List Byte) : cbcDecrypt iv (cbcEncrypt iv text) = text := by
  induction text generalizing iv with
  | nil => rfl
  | cons p text ih => rw [cbcEncrypt, cbcDecrypt, ih, UInt8.xor_assoc, UInt8.xor_self, UInt8.xor_zero]

def cbcNull : Algorithm where
  ivSize := 1
  encrypt _ iv text := cbcEncrypt (iv.headD 0) text
  decrypt _ iv text := cbcDecrypt (iv.headD 0) text
  length_encrypt _ _ text := length_cbcEncrypt _ text
  length_decrypt _ _ text := length_cbcDecrypt _ text

theorem ivCipher_cbcNull (key : List Byte) : IvCipher cbcNull key where
  usesIv := Nat.one_pos
  inverse _ text _ _ := cbcDecrypt_cbcEncrypt _ text

theorem cbcEncrypt_zeros (iv : Byte) (n : Nat) : cbcEncrypt iv (List.replicate n 0) = List.replicate n iv := by
  induction n with
  | zero => rfl
  | succ n ih => rw [List.replicate_succ, cbcEncrypt, UInt8.zero_xor, ih, List.replicate_succ]

theorem piecewise_zeros (iv : Byte) (sizes : List Nat) :
    piecewise (cbcEncrypt iv) sizes (List.replicate sizes.sum 0) = List.replicate sizes.sum iv := by
  induction sizes with
  | nil => rfl
  | cons n sizes ih =>
    rw [List.sum_cons, List.replicate_add, piecewise_cons List.length_replicate, cbcEncrypt_zeros, ih,
      List.replicate_add]

/-- A byte behind the first one is decrypted with the byte before it. -/
theorem cbcDecrypt_append (iv b c : Byte) (front back : List Byte) :
    cbcDecrypt iv (front ++ b :: c :: back) =
      cbcDecrypt iv (front ++ [b]) ++ (c ^^^ b) :: cbcDecrypt c back := by
  induction front generalizing iv with
  | nil => rfl
  | cons d front ih => simp only [List.cons_append, cbcDecrypt, ih]

/-- The message of a segment that starts with a one shows where the segment ends. -/
theorem piecewise_mark (iv : Byte) (n : Nat) (sizes : List Nat) :
    piecewise (cbcEncrypt iv) ((n + 1) :: sizes) (1 :: List.replicate (n + sizes.sum) 0) =
      List.replicate (n + 1) (1 ^^^ iv) ++ List.replicate sizes.sum iv := by
  rw [List.replicate_add, ← List.cons_append, piecewise_cons (by simp), cbcEncrypt, cbcEncrypt_zeros,
    piecewise_zeros, List.replicate_succ]

/-- A text that a read with a longer first segment does not get back. -/
theorem longer_read (iv : Byte) (n j : Nat) (first second : List Nat) (same : first.sum = j + 1 + second.sum) :
    piecewise (cbcDecrypt iv) ((n + 1 + (j + 1)) :: second)
      (piecewise (cbcEncrypt iv) ((n + 1) :: first) (1 :: List.replicate (n + first.sum) 0)) ≠
      1 :: List.replicate (n + first.sum) 0 := by
  have message : piecewise (cbcEncrypt iv) ((n + 1) :: first) (1 :: List.replicate (n + first.sum) 0) =
      (List.replicate n (1 ^^^ iv) ++ (1 ^^^ iv) :: iv :: List.replicate j iv) ++
        List.replicate second.sum iv := by
    rw [piecewise_mark, same, List.replicate_add (j + 1), List.replicate_succ' (n := n), List.replicate_succ]
    simp
  have mark : iv ^^^ (1 ^^^ iv) = 1 := by
    rw [UInt8.xor_comm 1 iv, ← UInt8.xor_assoc, UInt8.xor_self, UInt8.zero_xor]
  rw [message, piecewise_cons (by simp; omega), cbcDecrypt_append, mark]
  intro read
  -- The byte behind the first segment of the write.
  have byte := congrArg (·[n + 1]?) read
  have inside : n < n + first.sum := by omega
  simp [inside] at byte

/-- A text that a read with a shorter first segment does not get back. -/
theorem shorter_read (iv : Byte) (m j k : Nat) (first second : List Nat) :
    piecewise (cbcDecrypt iv) ((m + 1) :: (k + 1) :: second)
      (piecewise (cbcEncrypt iv) ((m + 1 + (j + 1)) :: first) (1 :: List.replicate (m + 1 + j + first.sum) 0)) ≠
      1 :: List.replicate (m + 1 + j + first.sum) 0 := by
  have message : piecewise (cbcEncrypt iv) ((m + 1 + (j + 1)) :: first)
      (1 :: List.replicate (m + 1 + j + first.sum) 0) =
      List.replicate (m + 1) (1 ^^^ iv) ++
        (1 ^^^ iv) :: (List.replicate j (1 ^^^ iv) ++ List.replicate first.sum iv) := by
    rw [← Nat.add_assoc, piecewise_mark, Nat.add_assoc, List.replicate_add, List.replicate_succ (n := j),
      List.append_assoc, List.cons_append]
  have mark : 1 ^^^ iv ^^^ iv = 1 := by rw [UInt8.xor_assoc, UInt8.xor_self, UInt8.xor_zero]
  rw [message, piecewise_cons (by simp), piecewise, List.take_succ_cons, cbcDecrypt, mark]
  intro read
  -- The first byte of the second segment of the read.
  have byte := congrArg (·[m + 1]?) read
  have inside : m < m + 1 + j + first.sum := by omega
  simp [inside] at byte

/-- Two ways to cut a range are told apart by some text. -/
theorem exists_misread (iv : Byte) (first second : List Nat) (positive : ∀ n ∈ first, 0 < n)
    (positive' : ∀ n ∈ second, 0 < n) (same : first.sum = second.sum) (differ : first ≠ second) :
    ∃ text, text.length = first.sum ∧
      piecewise (cbcDecrypt iv) second (piecewise (cbcEncrypt iv) first text) ≠ text := by
  induction first generalizing second with
  | nil =>
    cases second with
    | nil => exact absurd rfl differ
    | cons m second =>
      have := positive' m (by simp)
      simp only [List.sum_nil, List.sum_cons] at same
      omega
  | cons n first ih =>
    have some' := positive n (by simp)
    cases second with
    | nil =>
      simp only [List.sum_nil, List.sum_cons] at same
      omega
    | cons m second =>
      have some'' := positive' m (by simp)
      rw [List.sum_cons, List.sum_cons] at same
      obtain ⟨n, rfl⟩ := Nat.exists_eq_add_of_lt some'
      rw [Nat.zero_add] at *
      rcases Nat.lt_trichotomy (n + 1) m with longer | equal | shorter
      · obtain ⟨j, rfl⟩ := Nat.exists_eq_add_of_lt longer
        refine ⟨_, ?_, longer_read iv n j first second (by omega)⟩
        simp
        omega
      · -- The first segments agree; behind them the induction hypothesis has a text.
        subst equal
        obtain ⟨text, length, misread⟩ := ih second (fun k member => positive k (by simp [member]))
          (fun k member => positive' k (by simp [member])) (by omega) (fun equal => differ (by rw [equal]))
        refine ⟨List.replicate (n + 1) 0 ++ text, by simp [length], fun read => misread ?_⟩
        rw [piecewise_cons List.length_replicate, piecewise_cons (by simp), cbcDecrypt_cbcEncrypt] at read
        exact List.append_cancel_left read
      · obtain ⟨j, equal⟩ := Nat.exists_eq_add_of_lt shorter
        obtain ⟨m, rfl⟩ := Nat.exists_eq_add_of_lt some''
        cases second with
        | nil =>
          simp only [List.sum_nil] at same
          omega
        | cons k second =>
          obtain ⟨k, rfl⟩ := Nat.exists_eq_add_of_lt (positive' k (by simp))
          obtain rfl : n = m + 1 + j := by omega
          simp only [Nat.zero_add] at *
          refine ⟨_, ?_, shorter_read iv m j k first second⟩
          simp
          omega

/-! ## Every segmentation

Each message starts with the same IV, so a read has to start its messages where the write
started them.
-/

theorem readsBack_same {first : List Nat} {data blank : Nat → Byte} (cipher : IvCipher alg key)
    (positive : ∀ n ∈ first, 0 < n) (range : InRange dev sector first.sum) :
    ReadsBack a alg key dev sector first first data blank := by
  refine (readsBack_iff a alg key positive positive rfl range).mpr ?_
  refine piecewise_inverse (length_ciphered alg key true) (fun text member => ?_) (by simp [gather, sum_sizesOf])
  obtain ⟨n, -, length⟩ := List.mem_map.mp member
  exact cipher.inverse _ text List.length_replicate ⟨n, by rw [← length, Nat.mul_comm]⟩

theorem not_readsBack {first second : List Nat} (positive : ∀ n ∈ first, 0 < n)
    (positive' : ∀ n ∈ second, 0 < n) (same : first.sum = second.sum) (range : InRange dev sector first.sum)
    (differ : first ≠ second) (blank : Nat → Byte) :
    ∃ data, ¬ ReadsBack a cbcNull key dev sector first second data blank := by
  have positive_sizes (cuts : List Nat) (positive : ∀ n ∈ cuts, 0 < n) : ∀ m ∈ sizesOf cuts, 0 < m := by
    intro m member
    obtain ⟨n, inside, rfl⟩ := List.mem_map.mp member
    exact Nat.mul_pos (positive n inside) (by decide)
  have injective : Function.Injective (· * sectorSize : Nat → Nat) := fun n m equal =>
    Nat.eq_of_mul_eq_mul_right (by decide) equal
  obtain ⟨text, length, misread⟩ := exists_misread 0xFF (sizesOf first) (sizesOf second)
    (positive_sizes first positive) (positive_sizes second positive')
    (by rw [sum_sizesOf, sum_sizesOf, same]) (fun equal => differ (List.map_injective_iff.mpr injective equal))
  rw [sum_sizesOf] at length
  have bytes : gather (fun i => text.getD i 0) (List.range' 0 (first.sum * sectorSize)) = text := by
    refine List.ext_getElem (by simp [gather, length]) fun i _ inside => ?_
    simp [gather, inside]
  refine ⟨fun i => text.getD i 0, fun back => misread ?_⟩
  have read := (readsBack_iff a cbcNull key positive positive' same range).mp back
  rwa [bytes] at read

/-- Whatever the cipher, data written with the first cut comes back with the second exactly
when the cuts are the same. -/
theorem ramdsk_segmentation_iff (dev : RamdskDev) (sector : Nat) (first second : List Nat)
    (positive : ∀ n ∈ first, 0 < n) (positive' : ∀ n ∈ second, 0 < n) (same : first.sum = second.sum)
    (range : InRange dev sector first.sum) :
    (∀ alg key, IvCipher alg key → ∀ data blank, ReadsBack a alg key dev sector first second data blank) ↔
      first = second := by
  constructor
  · intro all
    by_contra differ
    obtain ⟨data, misread⟩ := not_readsBack a [] positive positive' same range differ fun _ => 0
    exact misread (all cbcNull [] (ivCipher_cbcNull []) data fun _ => 0)
  · rintro rfl alg key cipher data blank
    exact readsBack_same a alg key cipher positive range

def twoSectors : RamdskDev := ⟨1024, fun _ => 0, by decide, by decide⟩

theorem ramdsk_segmentation_one_request :
    InRange twoSectors 0 2 ∧ ∀ alg key, IvCipher alg key → ∀ data blank,
      ReadsBack x86 alg key twoSectors 0 [1, 1] [1, 1] data blank :=
  have positive : ∀ n ∈ [1, 1], 0 < n := by decide
  ⟨by decide, (ramdsk_segmentation_iff x86 twoSectors 0 [1, 1] [1, 1] positive positive rfl (by decide)).mpr rfl⟩

/-- Two sectors that start with a one are written in one transfer and read in two: the second
transfer of the read starts with the IV where the write went on with its message. -/
theorem ramdsk_segmentation_misread :
    IvCipher cbcNull [] ∧ InRange twoSectors 0 2 ∧
      ¬ ReadsBack x86 cbcNull [] twoSectors 0 [2] [1, 1] (fun i => if i = 0 then 1 else 0) fun _ => 0 := by
  refine ⟨ivCipher_cbcNull [], by decide, fun back => shorter_read 0xFF 511 511 511 [] [] ?_⟩
  have data (n : Nat) : gather (fun i => if i = 0 then (1 : Byte) else 0) (List.range' 0 (n + 1)) =
      1 :: List.replicate n 0 := by
    refine List.ext_getElem (by simp [gather]) fun i _ _ => ?_
    cases i <;> simp [gather]
  have positive : ∀ n ∈ [2], 0 < n := by decide
  have positive' : ∀ n ∈ [1, 1], 0 < n := by decide
  have range : InRange twoSectors 0 [2].sum := by decide
  have read := (readsBack_iff x86 cbcNull [] positive positive' rfl range).mp back
  rw [← data]
  exact read

end Cs544.Ramdsk
