import Cs544.Fuzzer.Sandbox
import Cs544.Library.Buffer

/-! The bytes that `gen_path` writes for a path to nothing.

A chunk of random length is written at the end of the path, and its last byte is replaced by
a slash. For an empty chunk that is the slash which is there already.
-/

set_option autoImplicit false

namespace Cs544.Fuzzer

open Cs544.Library

def maxLenPath : Nat := 1024
def maxLenFname : Nat := 128

/-- The bytes of a region of the sandbox. -/
def sandboxRegionSize : Nat := maxUlongBufsize

/-- `dst` and `cnt`, with what `cnt` was whenever the condition of the loop was tested; no
step depends on that. -/
structure PathState where
  dst : Buffer Nat
  cnt : Int
  tests : List Int

def PathState.test (s : PathState) : PathState := { s with tests := s.cnt :: s.tests }

/-- The body of the loop in `gen_path`. -/
def genPathRound (s : PathState) : Rand PathState := do
  let r ← rand
  let chunkLen := r % maxLenFname
  let str ← helperGenFuzStr chunkLen
  let cnt := s.cnt + ((chunkLen : Int) - 1)
  return { s with dst := (s.dst.writeAll s.cnt str).write cnt slash, cnt := cnt + 1 }

/-- The loop, if it ends within a number of rounds. -/
def genPathWhile (len : Int) : Nat → PathState → Rand PathState
  | rounds, s =>
      if s.cnt < len then
        match rounds with
        | 0 => fun _ => none
        | rounds + 1 => do
            let s ← genPathRound s.test
            genPathWhile len rounds s
      else pure s.test

/-- `gen_path` for `FUZ_ARG_PATH_FILE_NONEXIST`. -/
def genPathNonexist (rounds : Nat) (dst : Buffer Nat) : Rand PathState := do
  let len ← rand
  let s ← genPathWhile (len % maxLenPath : Nat) rounds ⟨dst.write 0 slash, 1, []⟩
  return { s with dst := s.dst.write s.cnt 0 }

/-- What is known of the bytes when `gen_path` returns. -/
structure InBounds (s : PathState) : Prop where
  low : ∀ i ∈ s.dst.written, 0 ≤ i
  high : ∀ i ∈ s.dst.written, i ≤ maxLenPath + maxLenFname - 3
  region : ∀ i ∈ s.dst.written, i < sandboxRegionSize
  tests : ∀ cnt ∈ s.tests, 1 ≤ cnt
  first : s.dst.byte 0 = slash
  filled : ∀ i, 0 ≤ i → i < s.cnt → i ∈ s.dst.written
  last : s.dst.byte (s.cnt - 1) = slash
  terminated : s.dst.byte s.cnt = 0

/-! ## The loop -/

/-- The invariant at the condition of the loop. The path ends in a slash, which an empty
chunk writes once more. -/
structure AtTest (s : PathState) : Prop where
  low : 1 ≤ s.cnt
  high : s.cnt ≤ maxLenPath + maxLenFname - 3
  written : ∀ i ∈ s.dst.written, 0 ≤ i ∧ i < maxLenPath + maxLenFname - 3
  filled : ∀ i, 0 ≤ i → i < s.cnt → i ∈ s.dst.written
  first : s.dst.byte 0 = slash
  last : s.dst.byte (s.cnt - 1) = slash
  tests : ∀ cnt ∈ s.tests, 1 ≤ cnt

variable {s s' : PathState} {len : Int} {rounds : Nat} {outcomes left : List Nat}

theorem length_helperGenFuzStr (cnt : Nat) :
    Ensures (helperGenFuzStr cnt) fun str => str.length = cnt := by
  induction cnt with
  | zero => exact Ensures.pure rfl
  | succ cnt ih =>
    have rest (c : Nat) :
        Ensures (do let str ← helperGenFuzStr cnt; return c :: str) fun str => str.length = cnt + 1 :=
      Ensures.seq ih fun str length => Ensures.pure (congrArg (· + 1) length)
    refine Ensures.bind fun r => ?_
    dsimp only
    split_ifs
    · exact Ensures.bind rest
    · exact Ensures.bind rest

/-- A chunk behind the path, with a slash in place of its last byte. -/
def PathState.chunk (s : PathState) (str : List Nat) : PathState :=
  let cnt := s.cnt + ((str.length : Int) - 1)
  { s with dst := (s.dst.writeAll s.cnt str).write cnt slash, cnt := cnt + 1 }

namespace AtTest

theorem start (byte : Int → Nat) : AtTest ⟨(⟨byte, []⟩ : Buffer Nat).write 0 slash, 1, []⟩ where
  low := Int.le_refl 1
  high := by
    simp only [maxLenPath, maxLenFname]
    omega
  written i member := by
    rw [Buffer.mem_written_write] at member
    rcases member with rfl | none'
    · decide
    · cases none'
  filled i low high := by
    have here : i = 0 := by simp only at high; omega
    rw [Buffer.mem_written_write]
    exact .inl here
  first := Buffer.byte_write_self
  last := Buffer.byte_write_self
  tests _ none' := by cases none'

theorem test (inv : AtTest s) : AtTest s.test where
  low := inv.low
  high := inv.high
  written := inv.written
  filled := inv.filled
  first := inv.first
  last := inv.last
  tests cnt member := by
    rcases List.mem_cons.mp member with rfl | member
    · exact inv.low
    · exact inv.tests cnt member

theorem chunk (inv : AtTest s) (more : s.cnt < maxLenPath - 1) (str : List Nat)
    (short : str.length < maxLenFname) : AtTest (s.chunk str) := by
  have low := inv.low
  simp only [maxLenPath, maxLenFname] at more short
  unfold PathState.chunk
  refine ⟨?_, ?_, fun i member => ?_, fun i nonneg below => ?_, ?_, ?_, inv.tests⟩
  · simp only
    omega
  · simp only [maxLenPath, maxLenFname]
    omega
  · simp only [Buffer.mem_written_write, Buffer.mem_written_writeAll] at member
    rcases member with rfl | inside | old
    · simp only [maxLenPath, maxLenFname]
      omega
    · simp only [maxLenPath, maxLenFname]
      omega
    · exact inv.written i old
  · simp only [Buffer.mem_written_write, Buffer.mem_written_writeAll] at below ⊢
    by_cases old : i < s.cnt
    · exact .inr (.inr (inv.filled i nonneg old))
    · exact .inr (.inl (by omega))
  · by_cases here : s.cnt + ((str.length : Int) - 1) = 0
    · rw [here, Buffer.byte_write_self]
    · rw [Buffer.byte_write_of_ne (Ne.symm here), Buffer.byte_writeAll_outside (by omega)]
      exact inv.first
  · simp only
    rw [Int.add_sub_cancel, Buffer.byte_write_self]

theorem round (inv : AtTest s) (more : s.cnt < maxLenPath - 1) : Ensures (genPathRound s) AtTest := by
  refine Ensures.bind fun r => Ensures.seq (length_helperGenFuzStr _) fun str length => Ensures.pure ?_
  rw [← length]
  exact inv.chunk more str (by rw [length]; exact Nat.mod_lt r (by decide))

theorem loop (inv : AtTest s) (short : len ≤ maxLenPath - 1) (rounds : Nat) :
    Ensures (genPathWhile len rounds s) AtTest := by
  induction rounds generalizing s with
  | zero =>
    unfold genPathWhile
    split_ifs
    · exact fun _ _ _ fails => nomatch fails
    · exact Ensures.pure inv.test
  | succ rounds ih =>
    unfold genPathWhile
    split_ifs with more
    · exact Ensures.seq (inv.test.round (Int.lt_of_lt_of_le more short)) fun s inv => ih inv
    · exact Ensures.pure inv.test

/-- The terminator goes behind the last slash. -/
theorem terminate (inv : AtTest s) : InBounds { s with dst := s.dst.write s.cnt 0 } := by
  have low := inv.low
  have within (i : Int) (member : i ∈ (s.dst.write s.cnt 0).written) :
      0 ≤ i ∧ i ≤ maxLenPath + maxLenFname - 3 := by
    rcases Buffer.mem_written_write.mp member with rfl | old
    · exact ⟨by omega, inv.high⟩
    · obtain ⟨nonneg, below⟩ := inv.written i old
      exact ⟨nonneg, Int.le_of_lt below⟩
  refine ⟨fun i member => (within i member).1, fun i member => (within i member).2,
    fun i member => ?_, inv.tests, ?_, fun i nonneg below => ?_, ?_, Buffer.byte_write_self⟩
  · exact Int.lt_of_le_of_lt (within i member).2 (by decide)
  · exact (Buffer.byte_write_of_ne (by omega)).trans inv.first
  · exact Buffer.mem_written_write.mpr (.inr (inv.filled i nonneg below))
  · exact (Buffer.byte_write_of_ne (by simp only; omega)).trans inv.last

end AtTest

/-- Whatever the outcomes of `rand()`, a path that is generated stays in its bounds. -/
theorem gen_path_in_bounds (rounds : Nat) (byte : Int → Nat) (outcomes : List Nat) (s : PathState)
    (left : List Nat) (ended : genPathNonexist rounds ⟨byte, []⟩ outcomes = some (s, left)) : InBounds s := by
  have ensured : Ensures (genPathNonexist rounds ⟨byte, []⟩) InBounds := by
    refine Ensures.bind fun len => ?_
    refine Ensures.seq ((AtTest.start byte).loop ?_ rounds) fun s inv => Ensures.pure inv.terminate
    have small := Nat.mod_lt len (show 0 < maxLenPath by decide)
    omega
  exact ensured outcomes s left ended

/-- An empty chunk, and one of three characters. -/
theorem gen_path_in_bounds_empty_chunk :
    ∃ s, genPathNonexist 2 ⟨fun _ => 7, []⟩ [4, 0, 3, 10, 0, 10, 1, 10, 2] = some (s, []) ∧
      s.dst.slice 5 = [47, 97, 98, 47, 0] ∧ s.tests = [4, 1, 1] ∧ InBounds s :=
  ⟨_, rfl, rfl, rfl, gen_path_in_bounds 2 (fun _ => 7) [4, 0, 3, 10, 0, 10, 1, 10, 2] _ [] rfl⟩

/-! ## The path -/

/-- The string at `dst`. -/
def PathState.path (s : PathState) : List Nat := s.dst.slice s.cnt.toNat

@[simp] theorem PathState.length_path : s.path.length = s.cnt.toNat := Buffer.length_slice

theorem PathState.path_chunk (low : 1 ≤ s.cnt) (str : List Nat) :
    (s.chunk str).path = (s.path ++ str).dropLast ++ [slash] := by
  obtain ⟨n, cnt⟩ : ∃ n : Nat, s.cnt = n + 1 := ⟨(s.cnt - 1).toNat, by omega⟩
  have before : s.cnt = (n + 1 : Nat) := cnt
  have position : s.cnt + ((str.length : Int) - 1) = (n + str.length : Nat) := by omega
  have whole : (s.dst.writeAll s.cnt str).slice (n + str.length + 1) = s.path ++ str := by
    rw [PathState.path, before, Int.toNat_natCast, ← Buffer.slice_writeAll]
    congr 1
    omega
  have path : s.path ++ str = (s.dst.writeAll s.cnt str).slice (n + str.length) ++
      [(s.dst.writeAll s.cnt str).byte (n + str.length : Nat)] := by rw [← whole, Buffer.slice_succ]
  rw [path, List.dropLast_concat, PathState.path, PathState.chunk, position, ← Buffer.slice_write]
  rfl

theorem PathState.path_terminate (low : 1 ≤ s.cnt) :
    PathState.path { s with dst := s.dst.write s.cnt 0 } = s.path :=
  Buffer.slice_write_behind (by simp only; omega)

theorem genPathRound_cons (s : PathState) (r : Nat) (outcomes : List Nat) :
    genPathRound s (r :: outcomes) =
      (helperGenFuzStr (r % maxLenFname) outcomes).map fun drawn => (s.chunk drawn.1, drawn.2) := by
  change Option.bind (helperGenFuzStr (r % maxLenFname) outcomes) _ = _
  cases drawn : helperGenFuzStr (r % maxLenFname) outcomes with
  | none => rfl
  | some result =>
    have length := length_helperGenFuzStr _ outcomes result.1 result.2 drawn
    simp only [Option.map_some, PathState.chunk, length]
    rfl

theorem PathState.lt_iff (low : 1 ≤ s.cnt) (len : Nat) : s.cnt < len ↔ s.path.length < len := by
  rw [length_path]
  omega

theorem PathState.low_chunk (low : 1 ≤ s.cnt) (str : List Nat) : 1 ≤ (s.chunk str).cnt := by
  simp only [chunk]
  omega

/-- The loop over lists computes the bytes of the path. -/
theorem genPathWhile_path (len rounds : Nat) (low : 1 ≤ s.cnt) (outcomes : List Nat) :
    (genPathWhile len rounds s outcomes).map (fun ended => (ended.1.path, ended.2)) =
      genPathLoop len rounds s.path outcomes := by
  induction rounds generalizing s outcomes with
  | zero =>
    unfold genPathWhile genPathLoop
    by_cases more : s.cnt < len
    · rw [if_pos more, if_pos ((s.lt_iff low len).mp more)]
      rfl
    · rw [if_neg more, if_neg ((s.lt_iff low len).not.mp more)]
      rfl
  | succ rounds ih =>
    unfold genPathWhile genPathLoop
    by_cases more : s.cnt < len
    · rw [if_pos more, if_pos ((s.lt_iff low len).mp more)]
      cases outcomes with
      | nil => rfl
      | cons r rest =>
        change Option.map _ (Option.bind (genPathRound s.test (r :: rest)) _) =
          Option.bind (helperGenFuzStr (r % maxLenFname) rest) _
        rw [genPathRound_cons]
        cases helperGenFuzStr (r % maxLenFname) rest with
        | none => rfl
        | some drawn =>
          have low' : 1 ≤ (s.test.chunk drawn.1).cnt := s.low_chunk low drawn.1
          have path : (s.test.chunk drawn.1).path = (s.path ++ drawn.1).dropLast ++ [slash] :=
            s.path_chunk low drawn.1
          have rest := ih low' drawn.2
          rw [path] at rest
          exact rest
    · rw [if_neg more, if_neg ((s.lt_iff low len).not.mp more)]
      rfl

theorem consumes_helperGenFuzStr (cnt : Nat) : Consumes (helperGenFuzStr cnt) := by
  induction cnt with
  | zero => exact Consumes.pure []
  | succ cnt ih =>
    have rest (c : Nat) : Consumes (do let str ← helperGenFuzStr cnt; return c :: str) :=
      Consumes.bind ih fun str => Consumes.pure (c :: str)
    have rand' : Consumes rand := Consumes.draw
    refine Consumes.bind rand' fun r => ?_
    dsimp only
    split_ifs
    · exact Consumes.bind (Consumes.bind rand' fun c => Consumes.pure (c % 256)) rest
    · exact Consumes.bind (Consumes.bind rand' fun r => Consumes.pure (97 + r % (122 - 97 + 1))) rest

/-- Every round draws, so that there are no more rounds than outcomes. -/
theorem genPathWhile_enough {more : Nat} (ended : genPathWhile len rounds s outcomes = some (s', left))
    (enough : outcomes.length ≤ more) : genPathWhile len more s outcomes = some (s', left) := by
  induction rounds generalizing s outcomes more with
  | zero =>
    unfold genPathWhile at ended ⊢
    split_ifs at ended ⊢
    exact ended
  | succ rounds ih =>
    unfold genPathWhile at ended ⊢
    split_ifs at ended ⊢ with less
    · cases outcomes with
      | nil => cases ended
      | cons r rest =>
        obtain ⟨more, rfl⟩ : ∃ k, more = k + 1 := ⟨more - 1, by rw [List.length_cons] at enough; omega⟩
        change Option.bind (genPathRound s.test (r :: rest)) _ = _ at ended
        change Option.bind (genPathRound s.test (r :: rest)) _ = _
        obtain ⟨⟨next, after⟩, round, ended⟩ := Option.bind_eq_some_iff.mp ended
        have shorter : after.length ≤ rest.length := by
          rw [genPathRound_cons] at round
          obtain ⟨drawn, made, same⟩ := Option.map_eq_some_iff.mp round
          cases same
          exact consumes_helperGenFuzStr _ rest drawn.1 drawn.2 made
        rw [round]
        exact ih ended (Nat.le_trans shorter (Nat.le_of_succ_le_succ enough))
    · exact ended

/-- The path is what the bytes spell when the loop ends, with any number of rounds. -/
theorem genPath_eq_bytes (env : Env) (tmp path : List Nat) (byte : Int → Nat) (outcomes left : List Nat) :
    genPath env .pathFileNonexist tmp outcomes = some ((path, tmp), left) ↔
      ∃ rounds s, genPathNonexist rounds ⟨byte, []⟩ outcomes = some (s, left) ∧ s.path = path := by
  cases outcomes with
  | nil =>
    refine iff_of_false nofun ?_
    rintro ⟨rounds, s, ended, _⟩
    cases ended
  | cons len outcomes =>
    let start : PathState := ⟨(⟨byte, []⟩ : Buffer Nat).write 0 slash, 1, []⟩
    have small : ((len % maxLenPath : Nat) : Int) ≤ maxLenPath - 1 := by
      have below := Nat.mod_lt len (show 0 < maxLenPath by decide)
      omega
    have loops : (genPathWhile (len % maxLenPath : Nat) outcomes.length start outcomes).map
        (fun ended => (ended.1.path, ended.2)) =
          genPathLoop (len % maxLenPath) outcomes.length [slash] outcomes :=
      genPathWhile_path _ _ (Int.le_refl 1) outcomes
    have low {rounds : Nat} {s : PathState} {left : List Nat}
        (ended : genPathWhile (len % maxLenPath : Nat) rounds start outcomes = some (s, left)) : 1 ≤ s.cnt :=
      ((AtTest.start byte).loop small rounds outcomes s left ended).low
    change Option.bind (genPathLoop (len % maxLenPath) outcomes.length [slash] outcomes) _ = _ ↔
      ∃ rounds s, Option.bind (genPathWhile (len % maxLenPath : Nat) rounds start outcomes) _ = _ ∧ _
    constructor
    · intro ran
      obtain ⟨⟨path', after⟩, looped, same⟩ := Option.bind_eq_some_iff.mp ran
      cases same
      rw [← loops] at looped
      obtain ⟨⟨s, after⟩, ended, same⟩ := Option.map_eq_some_iff.mp looped
      cases same
      exact ⟨_, _, Option.bind_eq_some_iff.mpr ⟨_, ended, rfl⟩, PathState.path_terminate (low ended)⟩
    · rintro ⟨rounds, s, ran, rfl⟩
      obtain ⟨⟨last, after⟩, ended, same⟩ := Option.bind_eq_some_iff.mp ran
      cases same
      rw [genPathWhile_enough ended (Nat.le_refl _)] at loops
      refine Option.bind_eq_some_iff.mpr ⟨_, loops.symm, ?_⟩
      rw [PathState.path_terminate (low ended)]
      rfl

end Cs544.Fuzzer
