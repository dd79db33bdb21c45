import Mathlib.Data.List.Infix
import Cs544.Fuzzer.Sandbox

/-! The pool of file descriptors, from `sandbox.c`.

A worker fills its pool while `nftw` walks the tree: descriptors open for reading, then
some for writing, then some that are closed again. Arguments that are descriptors are
drawn from the section of their type.
-/

set_option autoImplicit false

namespace Cs544.Fuzzer

open Cs544.Library

def fdPoolNumRopen : Nat := 50
def fdPoolNumWopen : Nat := 50
def fdPoolNumClosed : Nat := 10

def fdPoolSize : Nat := fdPoolNumRopen + fdPoolNumWopen + fdPoolNumClosed

def oRdonly : Nat := 0
def oWronly : Nat := 1
def fdStateClosed : Nat := 128

structure FdPoolItem where
  fd : Int
  mode : Nat
  lastScid : Int
  deriving DecidableEq, Repr

structure FdPool where
  item : Nat → FdPoolItem
  cnt : Nat

/-- An entry that `nftw` visits, with what `open` and `close` return if they are called. -/
structure Visit where
  tflag : TFlag
  opened : Int
  closed : Int
  deriving DecidableEq, Repr

def FdPool.fill (pool : FdPool) (fd : Int) (mode : Nat) : FdPool where
  item := Function.update pool.item pool.cnt ⟨fd, mode, -1⟩
  cnt := pool.cnt + 1

def callbackFdPoolPopulate (pool : FdPool) (v : Visit) : Int × FdPool :=
  if pool.cnt ≥ fdPoolNumRopen + fdPoolNumWopen + fdPoolNumClosed then (1, pool)
  else if v.tflag = .file then
    if pool.cnt > fdPoolNumWopen then
      if v.opened ≠ -1 ∧ v.closed = 0 then (0, pool.fill v.opened fdStateClosed) else (0, pool)
    else if pool.cnt > fdPoolNumRopen then
      if v.opened ≠ -1 then (0, pool.fill v.opened oWronly) else (0, pool)
    else if v.opened ≠ -1 then (0, pool.fill v.opened oRdonly)
    else (0, pool)
  else (0, pool)

def nftwPopulate : List Visit → FdPool → FdPool
  | [], pool => pool
  | v :: rest, pool =>
      if (callbackFdPoolPopulate pool v).1 = 0 then nftwPopulate rest (callbackFdPoolPopulate pool v).2
      else (callbackFdPoolPopulate pool v).2

def fdPoolPopulate (visits : List Visit) (pool : FdPool) : FdPool := nftwPopulate visits { pool with cnt := 0 }

/-! ## The layout of the pool -/

def sectionMode (i : Nat) : Nat :=
  if i < fdPoolNumRopen then oRdonly
  else if i < fdPoolNumRopen + fdPoolNumWopen then oWronly
  else fdStateClosed

structure Layout (pool : FdPool) : Prop where
  mode : ∀ i < pool.cnt, (pool.item i).mode = sectionMode i
  cnt_le : pool.cnt ≤ fdPoolSize

/-- The mode the entries really get: none is opened for writing. -/
def filledMode (i : Nat) : Nat := if i ≤ fdPoolNumRopen then oRdonly else fdStateClosed

structure Filled (pool : FdPool) : Prop where
  mode : ∀ i < pool.cnt, (pool.item i).mode = filledMode i
  cnt_le : pool.cnt ≤ fdPoolSize

def Visit.opens (v : Visit) : Bool := v.tflag = .file ∧ v.opened ≠ -1

variable {pool : FdPool} {v : Visit} {visits : List Visit}

/-- The branch for writing is never taken: the same number bounds both sections, and the
closed one is tested for first. -/
theorem callback_cases (pool : FdPool) (v : Visit) :
    (fdPoolSize ≤ pool.cnt ∧ callbackFdPoolPopulate pool v = (1, pool)) ∨
    (pool.cnt < fdPoolSize ∧ (v.opens = true → fdPoolNumRopen < pool.cnt) ∧
      callbackFdPoolPopulate pool v = (0, pool)) ∨
    (pool.cnt < fdPoolSize ∧ v.opens = true ∧
      callbackFdPoolPopulate pool v = (0, pool.fill v.opened (filledMode pool.cnt))) := by
  by_cases full : pool.cnt ≥ fdPoolNumRopen + fdPoolNumWopen + fdPoolNumClosed
  · exact .inl ⟨full, if_pos full⟩
  · have space : pool.cnt < fdPoolSize := Nat.lt_of_not_le full
    rw [callbackFdPoolPopulate, if_neg full]
    by_cases file : v.tflag = .file
    · rw [if_pos file]
      by_cases beyond : pool.cnt > fdPoolNumWopen
      · have mode : filledMode pool.cnt = fdStateClosed := if_neg (Nat.not_le_of_lt beyond)
        rw [if_pos beyond, mode]
        by_cases opened : v.opened ≠ -1 ∧ v.closed = 0
        · exact .inr (.inr ⟨space, by simp [Visit.opens, file, opened.1], if_pos opened⟩)
        · exact .inr (.inl ⟨space, fun _ => beyond, if_neg opened⟩)
      · have within : pool.cnt ≤ fdPoolNumRopen := Nat.le_of_not_lt beyond
        have mode : filledMode pool.cnt = oRdonly := if_pos within
        rw [if_neg beyond, if_neg (Nat.not_lt_of_le within), mode]
        by_cases opened : v.opened ≠ -1
        · exact .inr (.inr ⟨space, by simp [Visit.opens, file, opened], if_pos opened⟩)
        · exact .inr (.inl ⟨space, by simp [Visit.opens, opened], if_neg opened⟩)
    · exact .inr (.inl ⟨space, by simp [Visit.opens, file], if_neg file⟩)

theorem Filled.fill (filled : Filled pool) (space : pool.cnt < fdPoolSize) (fd : Int) :
    Filled (pool.fill fd (filledMode pool.cnt)) := by
  refine ⟨fun i inside => ?_, space⟩
  have inside : i < pool.cnt + 1 := inside
  by_cases last : i = pool.cnt
  · subst last
    simp [FdPool.fill]
  · simp only [FdPool.fill, Function.update_of_ne last]
    exact filled.mode i (by omega)

theorem Filled.nftw (filled : Filled pool) (visits : List Visit) : Filled (nftwPopulate visits pool) := by
  induction visits generalizing pool with
  | nil => exact filled
  | cons v visits ih =>
    rw [nftwPopulate]
    rcases callback_cases pool v with ⟨_, full⟩ | ⟨_, _, kept⟩ | ⟨space, _, filledUp⟩
    · rw [full, if_neg Int.one_ne_zero]
      exact filled
    · rw [kept, if_pos rfl]
      exact ih filled
    · rw [filledUp, if_pos rfl]
      exact ih (filled.fill space v.opened)

/-- As long as the section for reading is not exceeded, every file that can be opened gets
an entry. -/
theorem nftw_cnt (visits : List Visit) (pool : FdPool) :
    (nftwPopulate visits pool).cnt ≤ pool.cnt + visits.countP Visit.opens ∧
      ((nftwPopulate visits pool).cnt ≤ fdPoolNumRopen →
        (nftwPopulate visits pool).cnt = pool.cnt + visits.countP Visit.opens) := by
  induction visits generalizing pool with
  | nil => exact ⟨Nat.le_refl _, fun _ => rfl⟩
  | cons v visits ih =>
    rw [nftwPopulate, List.countP_cons]
    rcases callback_cases pool v with ⟨most, full⟩ | ⟨_, opens, kept⟩ | ⟨_, opens, filledUp⟩
    · rw [full, if_neg Int.one_ne_zero]
      dsimp only
      have sizes : fdPoolNumRopen < fdPoolSize := by decide
      omega
    · rw [kept, if_pos rfl]
      dsimp only
      have later := ih pool
      split
      next opened =>
        have beyond := opens opened
        omega
      next => omega
    · rw [filledUp, if_pos rfl, if_pos opens]
      have later := ih (pool.fill v.opened (filledMode pool.cnt))
      simp only [FdPool.fill] at later ⊢
      omega

/-- The pool has its layout at every moment exactly if the walk does not open more files than
the section for reading has entries; the next one is opened for reading too. -/
theorem fd_pool_layout_iff (visits : List Visit) (pool : FdPool) :
    (∀ seen, seen <+: visits → Layout (fdPoolPopulate seen pool)) ↔
      visits.countP (fun v => v.tflag = .file ∧ v.opened ≠ -1) ≤ fdPoolNumRopen := by
  change _ ↔ visits.countP Visit.opens ≤ _
  have filled (seen : List Visit) : Filled (fdPoolPopulate seen pool) :=
    Filled.nftw ⟨fun i inside => absurd inside (Nat.not_lt_zero i), Nat.zero_le _⟩ seen
  constructor
  · intro layout
    obtain ⟨mode, _⟩ := layout visits List.prefix_rfl
    have few : (fdPoolPopulate visits pool).cnt ≤ fdPoolNumRopen := by
      by_contra many
      have right := mode fdPoolNumRopen (Nat.lt_of_not_le many)
      rw [(filled visits).mode fdPoolNumRopen (Nat.lt_of_not_le many)] at right
      exact absurd right (by decide)
    have counted := (nftw_cnt visits { pool with cnt := 0 }).2 few
    change (fdPoolPopulate visits pool).cnt = _ at counted
    simp only at counted
    omega
  · rintro few seen ⟨rest, rfl⟩
    rw [List.countP_append] at few
    have counted := (nftw_cnt seen { pool with cnt := 0 }).1
    change (fdPoolPopulate seen pool).cnt ≤ _ at counted
    refine ⟨fun i inside => ?_, (filled seen).cnt_le⟩
    have within : i < fdPoolNumRopen := by
      simp only at counted
      omega
    rw [(filled seen).mode i inside, filledMode, sectionMode, if_pos within.le, if_pos within]

def aFile : Visit := ⟨.file, 7, 0⟩

def emptyPool : FdPool := ⟨fun _ => ⟨0, 0, 0⟩, 0⟩

theorem fd_pool_layout_two_files :
    ∀ seen, seen <+: [aFile, ⟨.directory, 0, 0⟩, aFile] → Layout (fdPoolPopulate seen emptyPool) :=
  (fd_pool_layout_iff [aFile, ⟨.directory, 0, 0⟩, aFile] emptyPool).mpr (by decide)

theorem fd_pool_reads_too_many :
    ¬ ∀ (visits : List Visit) (pool : FdPool) (seen : List Visit), seen <+: visits →
      Layout (fdPoolPopulate seen pool) := by
  intro layout
  have mode := (layout (List.replicate 51 aFile) emptyPool (List.replicate 51 aFile) List.prefix_rfl).mode 50
  exact absurd (mode (by decide)) (by decide)

/-! ## Drawing a descriptor -/

/-- The sections of the pool, with the type of an argument that is drawn from each. -/
inductive Section where
  | ropen
  | wopen
  | closed
  deriving DecidableEq, Repr

namespace Section

def fuzArg : Section → FuzArg
  | ropen => .uintFdRopen
  | wopen => .uintFdWopen
  | closed => .uintFdClosed

def first : Section → Nat
  | ropen => 0
  | wopen => fdPoolNumRopen
  | closed => fdPoolNumRopen + fdPoolNumWopen

def stop : Section → Nat
  | ropen => fdPoolNumRopen
  | wopen => fdPoolNumRopen + fdPoolNumWopen
  | closed => fdPoolNumRopen + fdPoolNumWopen + fdPoolNumClosed

/-- The sections whose cases are executed for an argument: its own and those behind it. -/
def fallsThrough : Section → List Section
  | ropen => [ropen, wopen, closed]
  | wopen => [wopen, closed]
  | closed => [closed]

end Section

def fdIndex (sec : Section) (r : Nat) : Nat := sec.first + r % (sec.stop - sec.first + 1)

def fdIndices (sec : Section) (outcomes : List Nat) : List Nat := sec.fallsThrough.zipWith fdIndex outcomes

/-- The descriptor stored is one of the requested section, and every index read is inside
the pool. -/
structure FromSection (env : Env) (sec : Section) (outcomes : List Nat) (stored : Content) : Prop where
  inside : ∀ i ∈ fdIndices sec outcomes, i < fdPoolSize
  drawn : ∃ i, sec.first ≤ i ∧ i < sec.stop ∧ stored = .word (.number (env.fdPool i))

variable {env : Env} {s s' : Sandbox} {k : Nat} {sec : Section} {outcomes left : List Nat} {ret : Int}

def lastDraw (sec : Section) (outcomes : List Nat) : Nat := outcomes.getD (sec.fallsThrough.length - 1) 0

/-- The cases fall through, so what is stored comes from the section of the last one. -/
theorem fuzarg_stores_closed (ran : sandboxSyscallFuzarg env s k sec.fuzArg outcomes = some (.ok (ret, s'), left)) :
    sec.fallsThrough.length ≤ outcomes.length ∧
      s'.region k = .word (.number (env.fdPool (fdIndex .closed (lastDraw sec outcomes)))) := by
  cases sec with
  | ropen =>
    match outcomes, ran with
    | first :: second :: third :: rest, ran =>
      cases ran
      exact ⟨by simp [Section.fallsThrough], Function.update_self ..⟩
  | wopen =>
    match outcomes, ran with
    | first :: second :: rest, ran =>
      cases ran
      exact ⟨by simp [Section.fallsThrough], Function.update_self ..⟩
  | closed =>
    match outcomes, ran with
    | first :: rest, ran =>
      cases ran
      exact ⟨by simp [Section.fallsThrough], Function.update_self ..⟩

theorem fdIndex_ropen (r : Nat) : fdIndex .ropen r < fdPoolSize := by
  have rest := Nat.mod_lt r (show 0 < 51 by decide)
  show 0 + r % 51 < 110
  omega

theorem fdIndex_wopen (r : Nat) : fdIndex .wopen r < fdPoolSize := by
  have rest := Nat.mod_lt r (show 0 < 51 by decide)
  show 50 + r % 51 < 110
  omega

theorem fdIndex_closed_iff (r : Nat) : fdIndex .closed r < fdPoolSize ↔ r % 11 ≠ 10 := by
  have rest := Nat.mod_lt r (show 0 < 11 by decide)
  show 100 + r % 11 < 110 ↔ _
  omega

theorem fdIndices_inside_iff (enough : sec.fallsThrough.length ≤ outcomes.length) :
    (∀ i ∈ fdIndices sec outcomes, i < fdPoolSize) ↔ lastDraw sec outcomes % 11 ≠ 10 := by
  cases sec with
  | ropen =>
    match outcomes, enough with
    | first :: second :: third :: rest, _ =>
      simp [fdIndices, Section.fallsThrough, lastDraw, fdIndex_ropen, fdIndex_wopen, fdIndex_closed_iff]
  | wopen =>
    match outcomes, enough with
    | first :: second :: rest, _ =>
      simp [fdIndices, Section.fallsThrough, lastDraw, fdIndex_wopen, fdIndex_closed_iff]
  | closed =>
    match outcomes, enough with
    | first :: rest, _ => simp [fdIndices, Section.fallsThrough, lastDraw, fdIndex_closed_iff]

/-- A descriptor comes from the requested section if the last outcome does not point behind
the pool, and if that section is the closed one, from which every descriptor is taken, or
happens to have the same descriptor. -/
theorem fd_argument_from_section_iff (env : Env) (s : Sandbox) (k : Nat) (sec : Section) (outcomes : List Nat)
    (ret : Int) (s' : Sandbox) (left : List Nat)
    (ran : sandboxSyscallFuzarg env s k sec.fuzArg outcomes = some (.ok (ret, s'), left)) :
    FromSection env sec outcomes (s'.region k) ↔
      lastDraw sec outcomes % 11 ≠ 10 ∧ (sec = .closed ∨ ∃ i, sec.first ≤ i ∧ i < sec.stop ∧
        env.fdPool i = env.fdPool (Section.closed.first + lastDraw sec outcomes % 11)) := by
  obtain ⟨enough, stored⟩ := fuzarg_stores_closed ran
  have inside := fdIndices_inside_iff enough
  have index : fdIndex .closed (lastDraw sec outcomes) = Section.closed.first + lastDraw sec outcomes % 11 := rfl
  rw [index] at stored
  constructor
  · rintro ⟨within, i, low, high, same⟩
    refine ⟨inside.mp within, .inr ⟨i, low, high, ?_⟩⟩
    rw [stored, Content.word.injEq, Value.number.injEq] at same
    exact same.symm
  · rintro ⟨last, closed | ⟨i, low, high, same⟩⟩
    · subst closed
      have rest := Nat.mod_lt (lastDraw .closed outcomes) (show 0 < 11 by decide)
      refine ⟨inside.mpr last, _, Nat.le_add_right .., ?_, stored⟩
      show 100 + _ < 110
      omega
    · exact ⟨inside.mpr last, i, low, high, by rw [stored, same]⟩

def countingEnv : Env := ⟨fun i => i + 3, []⟩

theorem fd_argument_from_section_closed :
    ∃ s', sandboxSyscallFuzarg countingEnv bareSandbox 0 .uintFdClosed [4] = some (.ok (0, s'), []) ∧
      FromSection countingEnv .closed [4] (s'.region 0) :=
  ⟨_, rfl, (fd_argument_from_section_iff countingEnv bareSandbox 0 .closed [4] 0 _ [] rfl).mpr
    ⟨by decide, .inl rfl⟩⟩

/-- A descriptor that is to be open for reading is taken from the closed ones. -/
theorem fd_argument_falls_through :
    ¬ ∀ (env : Env) (s : Sandbox) (k : Nat) (sec : Section) (outcomes : List Nat) (ret : Int) (s' : Sandbox)
      (left : List Nat), sandboxSyscallFuzarg env s k sec.fuzArg outcomes = some (.ok (ret, s'), left) →
      FromSection env sec outcomes (s'.region k) := by
  intro fromSection
  obtain ⟨_, i, _, high, same⟩ := fromSection countingEnv bareSandbox 0 .ropen [0, 0, 4] 0 _ [] rfl
  have stored : Content.word (.number 107) = .word (.number (i + 3)) := same
  rw [Content.word.injEq, Value.number.injEq] at stored
  have high : i < 50 := high
  omega

end Cs544.Fuzzer
